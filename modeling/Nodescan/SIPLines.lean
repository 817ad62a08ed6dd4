import Nodescan.SIPHeaders

/-!
# The SIP module stays in its line

The handler of a line ends it with a zero byte in the place of the carriage return before it looks
for a colon. So the colon is never the last byte, the byte after it is there, and the byte after
that is only looked at if the first of them is not the zero byte at the end. The two strings handed
to the header callback end in the line for the same reason.
-/

namespace Nodescan
namespace SIP

variable {κ : Type}

/-- The string at `pos` has its zero byte at `stop`, inside the chunk. -/
structure NulAt (chunk : List UInt8) (pos stop : ℕ) : Prop where
  le : pos ≤ stop
  lt : stop < chunk.length
  nul : chunk[stop]? = some 0
  first : ∀ i, pos ≤ i → i < stop → chunk[i]? ≠ some 0

/-- The key at 0 and the value end inside the chunk, the value behind the key. -/
def StringsInside (chunk : List UInt8) (value : ℕ) : Prop :=
  ∃ keyEnd valueEnd, NulAt chunk 0 keyEnd ∧ NulAt chunk value valueEnd ∧ keyEnd < value

def watched (sip : SIP κ) : SIP (κ × List (List UInt8 × ℕ)) where
  cbHeader := sip.cbHeader.map fun f ct chunk value k =>
    ((f ct chunk value k.1).1, (f ct chunk value k.1).2, k.2 ++ [(chunk, value)])
  cbInvalidHeader := sip.cbInvalidHeader.map fun f ct chunk pos size k =>
    ((f ct chunk pos size k.1).1, (f ct chunk pos size k.1).2, k.2)

variable (sip : SIP κ) (ct : ConnectedTarget)

/-- What the header callback is handed for a line: the chunk after the cut and the position of the
value in it. -/
def headerCalls (chunk : List UInt8) (k : κ) : List (List UInt8 × ℕ) :=
  (sip.watched.onLine ct chunk (k, [])).state.2

variable {sip ct} {chunk : List UInt8} {pos stop dot value : ℕ} {k : κ}

theorem exists_nulAt (hle : pos ≤ stop) (hnul : chunk[stop]? = some 0) :
    ∃ stop' ≤ stop, NulAt chunk pos stop' := by
  induction stop using Nat.strong_induction_on with
  | _ stop ih =>
    by_cases hfirst : ∀ i, pos ≤ i → i < stop → chunk[i]? ≠ some 0
    · exact ⟨stop, le_rfl, hle, (List.getElem?_eq_some_iff.mp hnul).1, hnul, hfirst⟩
    · push Not at hfirst
      obtain ⟨i, hpos, hlt, hi⟩ := hfirst
      obtain ⟨stop', hstop', hat⟩ := ih i hlt hpos hi
      exact ⟨stop', hstop'.trans hlt.le, hat⟩

theorem StringsInside.of_cut {line : List UInt8} (hdot : dot < value) (hvalue : value ≤ line.length) :
    StringsInside ((line ++ [0]).set dot 0) value := by
  have hcolon : ((line ++ [0]).set dot 0)[dot]? = some 0 := by
    rw [List.getElem?_set_self (by simp; omega)]
  have hlast : ((line ++ [0]).set dot 0)[line.length]? = some 0 := by
    rw [List.getElem?_set_ne (by omega), List.getElem?_concat_length]
  obtain ⟨keyEnd, hkey, hkeyEnd⟩ := exists_nulAt (Nat.zero_le dot) hcolon
  obtain ⟨valueEnd, _, hvalueEnd⟩ := exists_nulAt hvalue hlast
  exact ⟨keyEnd, valueEnd, hkeyEnd, hvalueEnd, hkey.trans_lt hdot⟩

theorem onKeyValue_cut {line : List UInt8} (hdot : dot < line.length) (ct : ConnectedTarget) :
    ∃ value as, dot < value ∧ value ≤ line.length ∧ (∀ a ∈ as, Access.stop a ≤ line.length + 1) ∧
      ∀ (κ : Type) (sip : SIP κ) (k : κ), sip.onKeyValue ct (line ++ [0]) dot k =
        ⟨(sip.header ct ((line ++ [0]).set dot 0) value k).1, (line ++ [0]).set dot 0, [], as,
          (sip.header ct ((line ++ [0]).set dot 0) value k).2⟩ := by
  by_cases hzero : byteAt ((line ++ [0]).set dot 0) (dot + 1) = 0
  · refine ⟨dot + 1, [.write dot, .read (dot + 1) 1], by omega, hdot, ?_, fun κ sip k => ?_⟩
    · simp [Access.stop]
      omega
    · simp only [onKeyValue, hzero, ne_eq, not_true_eq_false, if_false]
  · -- The byte behind the colon is not the zero byte at the end, so there is one more.
    have hmore : dot + 1 ≠ line.length := by
      intro heq
      apply hzero
      rw [byteAt, heq, List.getD_eq_getElem?_getD, List.getElem?_set_ne (by omega),
        List.getElem?_concat_length, Option.getD_some]
    refine ⟨if byteAt ((line ++ [0]).set dot 0) (dot + 1 + 1) = 0x20 then dot + 1 + 1 else dot + 1,
      [.write dot, .read (dot + 1) 1, .read (dot + 1 + 1) 1], ?_, ?_, ?_, fun κ sip k => ?_⟩
    · split_ifs <;> omega
    · split_ifs <;> omega
    · simp [Access.stop]
      omega
    · simp only [onKeyValue, hzero, ne_eq, not_false_eq_true, if_true]

theorem invalidHeader_inside :
    ∀ a ∈ (sip.invalidHeader ct chunk k).accesses, a.stop ≤ chunk.length :=
  callCb_inside.mpr (fun _ => by simp)

theorem watched_invalidHeader (k : κ × List (List UInt8 × ℕ)) :
    (sip.watched.invalidHeader ct chunk k).state.2 = k.2 := by
  unfold invalidHeader watched
  cases sip.cbInvalidHeader <;> rfl

theorem watched_header {k : κ × List (List UInt8 × ℕ)} {c : List UInt8 × ℕ}
    (h : c ∈ (sip.watched.header ct chunk value k).2.2) : c ∈ k.2 ∨ c = (chunk, value) := by
  unfold header watched at h
  cases hcb : sip.cbHeader with
  | none => simpa [hcb] using Or.inl h
  | some f => simpa [hcb] using h

/-- What the handler makes of a chunk, whatever the callbacks are: it reports it, it is done with it,
or it cuts it at a colon. The uses of the chunk before that are inside. -/
theorem onLine_cases (chunk : List UInt8) (ct : ConnectedTarget) :
    ∃ as, (∀ a ∈ as, Access.stop a ≤ chunk.length) ∧
      ((∃ chunk', chunk'.length = chunk.length ∧ ∀ (κ : Type) (sip : SIP κ) (k : κ),
          sip.onLine ct chunk k = (sip.invalidHeader ct chunk' k).after as) ∨
        (∃ ret chunk', ∀ (κ : Type) (sip : SIP κ) (k : κ),
          sip.onLine ct chunk k = ⟨ret, chunk', [], as, k⟩) ∨
        ∃ line dot, chunk.length = line.length + 1 ∧ dot < line.length ∧
          ∀ (κ : Type) (sip : SIP κ) (k : κ),
            sip.onLine ct chunk k = (sip.onKeyValue ct (line ++ [0]) dot k).after as) := by
  rcases List.eq_nil_or_concat' chunk with rfl | ⟨line, last, rfl⟩
  · exact ⟨[], by simp, Or.inl ⟨[], rfl, fun κ sip k => rfl⟩⟩
  have hbyte : byteAt (line ++ [last]) line.length = last := byteAt_length line [] last
  have hlen : (line ++ [last]).length = line.length + 1 := by simp
  have hstart : ∀ a ∈ [Access.read line.length 1, .write line.length],
      a.stop ≤ line.length + 1 := by simp [Access.stop]
  rw [hlen]
  by_cases hcr : last = 0x0D
  · subst hcr
    by_cases hne : line = []
    · subst hne
      exact ⟨_, hstart, Or.inr (Or.inl ⟨false, [0], fun κ sip k => rfl⟩)⟩
    cases hdot : (line ++ [0]).idxOf? 0x3A with
    | some dot =>
      have hlt : dot < line.length := by
        obtain ⟨hin, hcolon, _⟩ := List.findIdx?_eq_some_iff_getElem.mp hdot
        have hle : dot ≤ line.length := by simpa [Nat.lt_succ_iff] using hin
        refine lt_of_le_of_ne hle (fun heq => ?_)
        subst heq
        simp at hcolon
      refine ⟨[.read line.length 1, .write line.length, .read 0 (dot + 1)], ?_,
        Or.inr (Or.inr ⟨line, dot, rfl, hlt, fun κ sip k => ?_⟩)⟩
      · simp [Access.stop]
        omega
      · rw [onLine_line hne, hdot]
    | none =>
      by_cases hseven : 7 < line.length + 1
      · have hinside : ∀ a ∈ [Access.read line.length 1, .write line.length,
            .read 0 (line.length + 1), .read 0 7], a.stop ≤ line.length + 1 := by
          simp [Access.stop]
          omega
        by_cases hsip : (line ++ [0]).take 7 = sip20
        · refine ⟨_, hinside, Or.inr (Or.inl ⟨true, line ++ [0], fun κ sip k => ?_⟩)⟩
          rw [onLine_line hne, hdot]
          simp only [if_pos hseven, if_pos hsip]
        · refine ⟨_, hinside, Or.inl ⟨line ++ [0], by simp, fun κ sip k => ?_⟩⟩
          rw [onLine_line hne, hdot]
          simp only [if_pos hseven, if_neg hsip]
      · refine ⟨[.read line.length 1, .write line.length, .read 0 (line.length + 1)], ?_,
          Or.inl ⟨line ++ [0], by simp, fun κ sip k => ?_⟩⟩
        · simp [Access.stop]
        · rw [onLine_line hne, hdot]
          simp only [if_neg hseven]
  · refine ⟨[.read line.length 1], by simp [Access.stop], Or.inl ⟨line ++ [last], by simp,
      fun κ sip k => ?_⟩⟩
    simp only [onLine, hlen, Nat.add_sub_cancel, hbyte, ne_eq, hcr, not_false_eq_true, if_true]
    rw [if_neg (by omega)]

/-- For every line: each use of it is inside, and what the header callback is handed are two
strings that end inside. -/
theorem line_stays_inside (sip : SIP κ) (ct : ConnectedTarget) (chunk : List UInt8) (k : κ) :
    (∀ a ∈ (sip.onLine ct chunk k).accesses, a.stop ≤ chunk.length) ∧
      ∀ c ∈ sip.headerCalls ct chunk k, c.1.length = chunk.length ∧ StringsInside c.1 c.2 := by
  obtain ⟨as, has, ⟨chunk', hlen, hline⟩ | ⟨ret, chunk', hline⟩ | ⟨line, dot, hlen, hdot, hline⟩⟩ :=
    onLine_cases chunk ct
  · constructor
    · rw [hline, Handling.after_accesses, List.forall_mem_append]
      exact ⟨has, hlen ▸ invalidHeader_inside⟩
    · intro c hc
      rw [headerCalls, hline] at hc
      have hnone : c ∈ (sip.watched.invalidHeader ct chunk' (k, [])).state.2 := hc
      rw [watched_invalidHeader] at hnone
      simp at hnone
  · constructor
    · rw [hline]
      exact has
    · intro c hc
      rw [headerCalls, hline] at hc
      simp at hc
  · obtain ⟨value, as', hlt, hle, has', hcut⟩ := onKeyValue_cut hdot ct
    constructor
    · rw [hline, hcut, Handling.after_accesses, List.forall_mem_append]
      exact ⟨has, hlen ▸ has'⟩
    · intro c hc
      rw [headerCalls, hline, hcut] at hc
      rcases watched_header hc with hnone | rfl
      · simp at hnone
      · exact ⟨by simp [hlen], .of_cut hlt hle⟩

end SIP
end Nodescan
