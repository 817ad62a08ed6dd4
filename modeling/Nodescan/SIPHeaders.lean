import Nodescan.SIP

/-!
# What the SIP module makes of a header line

A line is cut at its first colon. The module means to skip the space after the colon, but looks for
it one byte further on: it drops the first byte of a value whose second byte is a space. Over a
whole response, cut into reads in any way, the header callback sees the keys and the values so cut.
-/

namespace Nodescan
namespace SIP

variable {κ : Type}

/-- The string at a position of the chunk, up to the next zero byte. -/
def cString (chunk : List UInt8) (pos : ℕ) : List UInt8 := (chunk.drop pos).takeWhile (· ≠ 0)

inductive Note
  | header (key value : List UInt8)
  | invalid (r : Region)
  deriving DecidableEq, Repr

/-- The same module, with a note taken of each call of a callback. -/
def noted (sip : SIP κ) : SIP (κ × List Note) where
  cbHeader := sip.cbHeader.map fun f ct chunk value k =>
    ((f ct chunk value k.1).1, (f ct chunk value k.1).2,
      k.2 ++ [.header (cString chunk 0) (cString chunk value)])
  cbInvalidHeader := sip.cbInvalidHeader.map (DataCallback.noted .invalid)

def AnswersTrue (sip : SIP κ) : Prop :=
  ∃ f, sip.cbHeader = some f ∧ ∀ ct chunk value k, (f ct chunk value k).1 = true

structure HeaderLine where
  key : List UInt8
  value : List UInt8
  key_ne : key ≠ []
  colon : 0x3A ∉ key
  key_nul : 0 ∉ key
  key_newline : 0x0A ∉ key
  value_nul : 0 ∉ value
  value_newline : 0x0A ∉ value

def HeaderLine.bytes (h : HeaderLine) : List UInt8 := h.key ++ 0x3A :: (h.value ++ [0x0D, 0x0A])

/-- A status line; it is told from a header by having no colon. -/
structure StatusLine where
  text : List UInt8
  version : text.take 7 = sip20
  colon : 0x3A ∉ text
  newline : 0x0A ∉ text

def StatusLine.bytes (s : StatusLine) : List UInt8 := s.text ++ [0x0D, 0x0A]

/-- A response: a status line if there is one, headers, an empty line. -/
def response (status : Option StatusLine) (hs : List HeaderLine) : List UInt8 :=
  (status.elim [] StatusLine.bytes ++ hs.flatMap HeaderLine.bytes) ++ [0x0D, 0x0A]

/-- The value that the module hands to the callback. -/
def cutValue : List UInt8 → List UInt8
  | b :: c :: rest => if c = 0x20 then c :: rest else b :: c :: rest
  | value => value

variable {sip : SIP κ} {ct : ConnectedTarget}

theorem cString_append {xs : List UInt8} (h : 0 ∉ xs) (pre ys : List UInt8) :
    cString (pre ++ (xs ++ 0 :: ys)) pre.length = xs := by
  rw [cString, List.drop_left, List.takeWhile_append_of_pos]
  · simp
  · intro x hx
    have hne : x ≠ 0 := fun heq => h (heq ▸ hx)
    simpa using hne

theorem byteAt_length (xs ys : List UInt8) (b : UInt8) : byteAt (xs ++ b :: ys) xs.length = b :=
  byteAt_append xs (b :: ys) 0

theorem set_length (xs ys : List UInt8) (b c : UInt8) :
    (xs ++ b :: ys).set xs.length c = xs ++ c :: ys := by
  simp

/-- The carriage return is cut off, and the colon decides. -/
theorem onLine_line {line : List UInt8} (hne : line ≠ []) (k : κ) :
    sip.onLine ct (line ++ [0x0D]) k = match (line ++ [0]).idxOf? 0x3A with
      | some dot => (sip.onKeyValue ct (line ++ [0]) dot k).after
          [.read line.length 1, .write line.length, .read 0 (dot + 1)]
      | none =>
        if 7 < line.length + 1 then
          if (line ++ [0]).take 7 = sip20 then
            ⟨true, line ++ [0], [], [.read line.length 1, .write line.length,
              .read 0 (line.length + 1), .read 0 7], k⟩
          else (sip.invalidHeader ct (line ++ [0]) k).after [.read line.length 1,
            .write line.length, .read 0 (line.length + 1), .read 0 7]
        else (sip.invalidHeader ct (line ++ [0]) k).after [.read line.length 1,
          .write line.length, .read 0 (line.length + 1)] := by
  have hpos := List.length_pos_iff.mpr hne
  have hlen : (line ++ [0x0D]).length = line.length + 1 := by simp
  have hlast : byteAt (line ++ [0x0D]) line.length = 0x0D := byteAt_length line [] 0x0D
  have hset : (line ++ [0x0D]).set line.length 0 = line ++ [0] := set_length line [] 0x0D 0
  simp only [onLine, hlen, Nat.add_sub_cancel, hlast, hset, ne_eq, not_true_eq_false, if_false]
  rw [if_neg (by omega), if_neg (by omega)]
  rfl

theorem onLine_header (h : HeaderLine) (k : κ) :
    ∃ as, sip.onLine ct (h.key ++ 0x3A :: h.value ++ [0x0D]) k =
      (sip.onKeyValue ct (h.key ++ 0x3A :: (h.value ++ [0])) h.key.length k).after as := by
  have hne : h.key ++ 0x3A :: h.value ≠ [] := by simp
  have hcut : h.key ++ 0x3A :: h.value ++ [0] = h.key ++ 0x3A :: (h.value ++ [0]) := by simp
  rw [onLine_line hne, hcut, idxOf?_append_cons h.colon]
  exact ⟨_, rfl⟩

theorem onLine_status (s : StatusLine) (k : κ) :
    ∃ left as, sip.onLine ct (s.text ++ [0x0D]) k = ⟨true, left, [], as, k⟩ := by
  have h7 : 7 ≤ s.text.length := by
    have hlen := congrArg List.length s.version
    rw [List.length_take] at hlen
    have hv : sip20.length = 7 := rfl
    omega
  have hne : s.text ≠ [] := by
    rw [← List.length_pos_iff]
    omega
  have hnone : (s.text ++ [0]).idxOf? 0x3A = none := by
    rw [List.idxOf?_eq_none_iff]
    simpa using s.colon
  have htake : (s.text ++ [0]).take 7 = sip20 := by
    rw [List.take_append_of_le_length h7, s.version]
  rw [onLine_line hne, hnone]
  simp only [htake, if_true]
  rw [if_pos (by omega)]
  exact ⟨_, _, rfl⟩

theorem onLine_empty (k : κ) :
    ∃ left as, sip.onLine ct [0x0D] k = ⟨false, left, [], as, k⟩ := ⟨_, _, rfl⟩

theorem header_noted (ct : ConnectedTarget) (h : sip.AnswersTrue) {chunk key v : List UInt8}
    {value : ℕ} (hkey : cString chunk 0 = key) (hvalue : cString chunk value = v) (k : κ)
    (ns : List Note) :
    ∃ k', sip.noted.header ct chunk value (k, ns) = (true, k', ns ++ [.header key v]) := by
  obtain ⟨f, hf, htrue⟩ := h
  exact ⟨(f ct chunk value k).2, by simp [header, noted, hf, htrue, hkey, hvalue]⟩

/-- Where the value is taken to start, in a line that has been cut. -/
theorem cString_cutValue {key value : List UInt8} (hnul : 0 ∉ value) :
    cString (key ++ 0 :: (value ++ [0]))
      (if byteAt (key ++ 0 :: (value ++ [0])) (key.length + 1) ≠ 0 then
        if byteAt (key ++ 0 :: (value ++ [0])) (key.length + 1 + 1) = 0x20 then key.length + 1 + 1
        else key.length + 1
      else key.length + 1) = cutValue value := by
  have hplain : cString (key ++ 0 :: (value ++ [0])) (key.length + 1) = value := by
    have hc := cString_append hnul (key ++ [0]) []
    rw [List.append_assoc, List.length_append] at hc
    exact hc
  have hfirst : byteAt (key ++ 0 :: (value ++ [0])) (key.length + 1) = byteAt (value ++ [0]) 0 :=
    byteAt_append key (0 :: (value ++ [0])) 1
  have hsecond : byteAt (key ++ 0 :: (value ++ [0])) (key.length + 1 + 1) =
      byteAt (value ++ [0]) 1 := byteAt_append key (0 :: (value ++ [0])) 2
  rw [hfirst, hsecond]
  match value with
  | [] => exact hplain
  | [b] =>
    have h₁ : byteAt ([b] ++ [0]) 1 ≠ 0x20 := by
      have hzero : byteAt ([b] ++ [0]) 1 = 0 := rfl
      rw [hzero]
      decide
    rw [if_neg h₁, ite_self]
    exact hplain
  | b :: c :: rest =>
    have hb : b ≠ 0 := fun heq => hnul (by simp [heq])
    have h₀ : byteAt (b :: c :: rest ++ [0]) 0 = b := rfl
    have h₁ : byteAt (b :: c :: rest ++ [0]) 1 = c := rfl
    rw [h₀, h₁, if_pos hb, cutValue]
    split_ifs with hc
    · have htail : 0 ∉ c :: rest := fun hmem => hnul (List.mem_cons_of_mem b hmem)
      have hc' := cString_append htail (key ++ [0, b]) []
      rw [List.append_assoc, List.length_append] at hc'
      exact hc'
    · exact hplain

theorem onKeyValue_noted (h : sip.AnswersTrue) (l : HeaderLine) (k : κ) (ns : List Note) :
    ∃ left as k', sip.noted.onKeyValue ct (l.key ++ 0x3A :: (l.value ++ [0])) l.key.length (k, ns) =
      ⟨true, left, [], as, (k', ns ++ [.header l.key (cutValue l.value)])⟩ := by
  have hset : (l.key ++ 0x3A :: (l.value ++ [0])).set l.key.length 0 =
      l.key ++ 0 :: (l.value ++ [0]) := set_length l.key (l.value ++ [0]) 0x3A 0
  have hkey : cString (l.key ++ 0 :: (l.value ++ [0])) 0 = l.key :=
    cString_append l.key_nul [] (l.value ++ [0])
  have hvalue : cString (l.key ++ 0 :: (l.value ++ [0])) _ = cutValue l.value :=
    cString_cutValue l.value_nul
  unfold onKeyValue
  dsimp only
  rw [hset]
  split_ifs at hvalue ⊢
  all_goals
    obtain ⟨k', hk'⟩ := header_noted ct h hkey hvalue k ns
    rw [hk']
    exact ⟨_, _, k', rfl⟩

/-- The module waits for lines all along. -/
def waiting (sm : Lvl4SM Handler) : Prop := sm.trigger = .char 0x0A (some .line)

theorem leads_status {sm : Lvl4SM Handler} (hw : waiting sm) (s : StatusLine) (k : κ)
    (ys : List UInt8) :
    (scanner sip.protocol.actions ct).Leads (fun p => p.1.trigger.Tokenising) (sm, k)
      (s.bytes ++ ys) (sm, k) ys := by
  obtain ⟨left, as, hline⟩ :
      ∃ left as, sip.onLine ct (s.text ++ [0x0D]) k = ⟨true, left, [], as, k⟩ := onLine_status s k
  have hfinds : Finds sm .line (s.text ++ [0x0D]) (s.bytes ++ ys) ys := by
    have hbytes : s.bytes ++ ys = (s.text ++ [0x0D]) ++ 0x0A :: ys := by simp [StatusLine.bytes]
    rw [hbytes]
    exact .char hw (by simpa using s.newline)
  have hhandle : sip.protocol.handle .line ct (s.text ++ [0x0D]) k =
      ⟨true, left, [], as, k⟩ := hline
  exact ProtocolModule.leads_handled hfinds hhandle

theorem leads_header {sm : Lvl4SM Handler} (h : sip.AnswersTrue) (hw : waiting sm) (l : HeaderLine)
    (k : κ) (ns : List Note) (ys : List UInt8) :
    ∃ k', (scanner sip.noted.protocol.actions ct).Leads (fun p => p.1.trigger.Tokenising)
      (sm, k, ns) (l.bytes ++ ys) (sm, k', ns ++ [.header l.key (cutValue l.value)]) ys := by
  obtain ⟨as, hline⟩ : ∃ as, sip.noted.onLine ct (l.key ++ 0x3A :: l.value ++ [0x0D]) (k, ns) = _ :=
    onLine_header l (k, ns)
  obtain ⟨left, bs, k', hkv⟩ : ∃ left as k', sip.noted.onKeyValue ct
    (l.key ++ 0x3A :: (l.value ++ [0])) l.key.length (k, ns) = _ := onKeyValue_noted h l k ns
  have hdata : sip.noted.protocol.actions.data .line ct (l.key ++ 0x3A :: l.value ++ [0x0D]) (k, ns) =
      (⟨true, left, []⟩, k', ns ++ [.header l.key (cutValue l.value)]) := by
    simp only [ProtocolModule.actions, protocol, handle, hline, hkv]
    rfl
  have hfinds : Finds sm .line (l.key ++ 0x3A :: l.value ++ [0x0D]) (l.bytes ++ ys) ys := by
    have hbytes : l.bytes ++ ys = (l.key ++ 0x3A :: l.value ++ [0x0D]) ++ 0x0A :: ys := by
      simp [HeaderLine.bytes]
    rw [hbytes]
    refine .char hw ?_
    simp [l.key_newline, l.value_newline]
  exact ⟨k', hfinds.leads hdata⟩

theorem leads_headers {sm : Lvl4SM Handler} (h : sip.AnswersTrue) (hw : waiting sm)
    (hs : List HeaderLine) (k : κ) (ns : List Note) (ys : List UInt8) :
    ∃ k', (scanner sip.noted.protocol.actions ct).Leads (fun p => p.1.trigger.Tokenising)
      (sm, k, ns) (hs.flatMap HeaderLine.bytes ++ ys)
      (sm, k', ns ++ hs.map fun l => .header l.key (cutValue l.value)) ys := by
  induction hs generalizing k ns with
  | nil => exact ⟨k, by simpa using .refl _ _⟩
  | cons l hs ih =>
    obtain ⟨k₁, hfirst⟩ := leads_header h hw l k ns (hs.flatMap HeaderLine.bytes ++ ys)
    obtain ⟨k', hrest⟩ := ih k₁ (ns ++ [.header l.key (cutValue l.value)])
    refine ⟨k', ?_⟩
    rw [List.flatMap_cons, List.append_assoc]
    simpa using hfirst.trans hrest

/-- The value less at most one leading space. -/
def Unspaced (value v : List UInt8) : Prop := v = value ∨ value = 0x20 :: v

/-- The header callback hears of every line, in order, its key and its value less at most a leading
space; no other callback is called, and the connection ends. -/
def SplitsHeaders (sip : SIP κ) (ct : ConnectedTarget) (hs : List HeaderLine) (k : κ)
    (sm : Lvl4SM Handler) (as : List Arrival) (fuel : ℕ) : Prop :=
  ∃ sm' k' ns, feed sip.noted.protocol.actions ct fuel as
      (sm.callAll sip.noted.protocol.connect) (k, []) = .ok (false, sm', k', ns) ∧
    List.Forall₂ (fun l n => ∃ v, n = Note.header l.key v ∧ Unspaced l.value v) hs ns

section Run

variable {sm : Lvl4SM Handler} {as : List Arrival} {fuel : ℕ} {status : Option StatusLine}
  {hs : List HeaderLine} {rest : List UInt8}

/-- A response, whatever comes after it. -/
theorem endsOn_response (h : sip.AnswersTrue) (hw : waiting sm) (status : Option StatusLine)
    (hs : List HeaderLine) (rest : List UInt8) (k : κ) :
    ∃ k', EndsOn sip.noted.protocol.actions ct sm (k, []) (response status hs ++ rest)
      (k', hs.map fun l => .header l.key (cutValue l.value)) := by
  have hstatus : (scanner sip.noted.protocol.actions ct).Leads (fun p => p.1.trigger.Tokenising)
      (sm, k, []) (response status hs ++ rest) (sm, k, [])
      (hs.flatMap HeaderLine.bytes ++ 0x0D :: 0x0A :: rest) := by
    cases status with
    | none => simpa [response] using .refl _ _
    | some s =>
      simpa [response] using
        leads_status hw s (k, []) (hs.flatMap HeaderLine.bytes ++ 0x0D :: 0x0A :: rest)
  obtain ⟨k', hheaders⟩ := leads_headers h hw hs k [] (0x0D :: 0x0A :: rest)
  obtain ⟨left, bs, hline⟩ : ∃ left as, sip.noted.onLine ct [0x0D]
      (k', [] ++ hs.map fun l => .header l.key (cutValue l.value)) = ⟨false, left, [], as, _⟩ :=
    onLine_empty _
  have hfinds : Finds sm .line [0x0D] ([0x0D] ++ 0x0A :: rest) rest := .char hw (by decide)
  exact ⟨k', ProtocolModule.endsOn_handled (hstatus.trans hheaders) hfinds hline⟩

/-- What the callback hears of a response. -/
theorem reads_response (h : sip.AnswersTrue) (k : κ) (hb : sm.buf = [])
    (has : ∀ a ∈ as, a ≠ .data []) (hstream : received as = response status hs ++ rest)
    (hfuel : (received as).length < fuel) :
    ∃ sm' k', feed sip.noted.protocol.actions ct fuel as
      (sm.callAll sip.noted.protocol.connect) (k, []) =
        .ok (false, sm', k', hs.map fun l => .header l.key (cutValue l.value)) := by
  have hw : waiting (sm.callAll sip.noted.protocol.connect).control := rfl
  have hempty : (sm.callAll sip.noted.protocol.connect).buf = [] := hb
  obtain ⟨k', hends⟩ : ∃ k', EndsOn sip.noted.protocol.actions ct _ (k, []) _ (k', _) :=
    endsOn_response h hw status hs rest k
  rw [← hstream] at hends
  obtain ⟨sm', hfeed⟩ := hends.feed hempty has hfuel
  exact ⟨sm', k', hfeed⟩

theorem unspaced_cutValue_iff (value : List UInt8) :
    Unspaced value (cutValue value) ↔ (value[1]? = some 0x20 → value[0]? = some 0x20) := by
  unfold Unspaced
  match value with
  | [] => simp [cutValue]
  | [b] => simp [cutValue]
  | b :: c :: rest =>
    by_cases hc : c = 0x20
    · simp [cutValue, hc]
    · simp [cutValue, hc]

theorem splits_headers_iff (h : sip.AnswersTrue) (k : κ) (hb : sm.buf = [])
    (has : ∀ a ∈ as, a ≠ .data []) (hstream : received as = response status hs ++ rest)
    (hfuel : (received as).length < fuel) :
    sip.SplitsHeaders ct hs k sm as fuel ↔
      ∀ l ∈ hs, l.value[1]? = some 0x20 → l.value[0]? = some 0x20 := by
  obtain ⟨sm₁, k₁, hfeed⟩ : ∃ sm' k', feed sip.noted.protocol.actions ct fuel as
      (sm.callAll sip.noted.protocol.connect) (k, []) = _ :=
    reads_response h k hb has hstream hfuel
  have hnotes : List.Forall₂ (fun l n => ∃ v, n = Note.header l.key v ∧ Unspaced l.value v) hs
      (hs.map fun l => .header l.key (cutValue l.value)) ↔
      ∀ l ∈ hs, Unspaced l.value (cutValue l.value) := by
    rw [List.forall₂_map_right_iff, List.forall₂_same]
    simp
  have hheard : sip.SplitsHeaders ct hs k sm as fuel ↔
      ∀ l ∈ hs, Unspaced l.value (cutValue l.value) := by
    rw [← hnotes]
    constructor
    · rintro ⟨sm', k', ns, hfeed', hall⟩
      rw [hfeed, Except.ok.injEq, Prod.mk.injEq, Prod.mk.injEq, Prod.mk.injEq] at hfeed'
      rw [hfeed'.2.2.2]
      exact hall
    · exact fun hall => ⟨sm₁, k₁, _, hfeed, hall⟩
  rw [hheard]
  exact forall₂_congr fun l _ => unspaced_cutValue_iff l.value

end Run

def listening : SIP Unit := ⟨some fun _ _ _ k => (true, k), none⟩

theorem listening_answersTrue : listening.AnswersTrue := ⟨_, rfl, fun _ _ _ _ => rfl⟩

/-- `To: you`. -/
def toHeader : HeaderLine :=
  ⟨[0x54, 0x6F], [0x20, 0x79, 0x6F, 0x75], by decide, by decide, by decide, by decide, by decide,
    by decide⟩

/-- `a:b c`. -/
def spacedSecond : HeaderLine :=
  ⟨[0x61], [0x62, 0x20, 0x63], by decide, by decide, by decide, by decide, by decide, by decide⟩

theorem splits_to_header :
    listening.SplitsHeaders ⟨⟨1, ⟨5060, .udp⟩⟩, 5⟩ [toHeader] () (Lvl4SM.new 0)
      [.data [0x54, 0x6F, 0x3A], .pass, .data [0x20, 0x79, 0x6F, 0x75, 0x0D], .data [0x0A, 0x0D, 0x0A]]
      12 :=
  (splits_headers_iff listening_answersTrue () rfl (by decide)
    (show received _ = response none [toHeader] ++ [] from rfl) (by decide)).mpr (by decide)

/-- The callback is handed ` c` for the value `b c`. -/
theorem spaced_second_not_split :
    ¬ listening.SplitsHeaders ⟨⟨1, ⟨5060, .udp⟩⟩, 5⟩ [spacedSecond] () (Lvl4SM.new 0)
      [.data (response none [spacedSecond])] 10 := by
  rintro ⟨sm', k', ns, hfeed, hall⟩
  have hstream : received [.data (response none [spacedSecond])] =
      response none [spacedSecond] ++ [] := rfl
  obtain ⟨sm₁, k₁, hreads⟩ : ∃ sm' k', feed listening.noted.protocol.actions
      ⟨⟨1, ⟨5060, .udp⟩⟩, 5⟩ 10 [.data (response none [spacedSecond])]
      ((Lvl4SM.new 0).callAll listening.noted.protocol.connect) ((), []) = _ :=
    reads_response listening_answersTrue () rfl (by decide) hstream (by decide)
  rw [hreads, Except.ok.injEq, Prod.mk.injEq, Prod.mk.injEq, Prod.mk.injEq] at hfeed
  rw [← hfeed.2.2.2] at hall
  obtain ⟨⟨v, hv, hspace⟩, -⟩ := List.forall₂_cons.mp hall
  rw [← (Note.header.inj hv).2] at hspace
  revert hspace
  unfold Unspaced
  decide

end SIP
end Nodescan
