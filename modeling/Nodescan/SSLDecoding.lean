import Nodescan.RecordBounds

/-!
# What the SSL module makes of a record

The records of a server hello and of a list of certificates are written out by `record`,
`handshake` and `certList`; however their bytes are cut into reads, the module calls the callbacks
on what was written. The loop over the certificates takes whole items off the front of the list;
what it does with the rest decides whether a malformed list is noticed.
-/

namespace Nodescan
namespace SSL

variable {κ : Type}

inductive Note
  | cipher (value : UInt16)
  | certificate (r : Region)
  | failure (r : Region)
  deriving DecidableEq, Repr

/-- The same module, with a note taken of each call of a callback. -/
def noted (ssl : SSL κ) : SSL (κ × List Note) where
  onCertif := ssl.onCertif.map (DataCallback.noted .certificate)
  onCipher := ssl.onCipher.map fun f ct value k =>
    ((f ct value k.1).1, (f ct value k.1).2, k.2 ++ [.cipher value])
  onFailure := ssl.onFailure.map (DataCallback.noted .failure)
  stray k := ssl.stray k.1

structure AnswersTrue (ssl : SSL κ) : Prop where
  certif : Accepts ssl.onCertif
  cipher : ∃ f, ssl.onCipher = some f ∧ ∀ ct value k, (f ct value k).1 = true
  failure : Accepts ssl.onFailure

def certItem (crt : List UInt8) : List UInt8 := be24 crt.length ++ crt

def certList (crts : List (List UInt8)) : List UInt8 := crts.flatMap certItem

def handshake (msgType : UInt8) (body : List UInt8) : List UInt8 :=
  msgType :: (be24 body.length ++ body)

def certificates (list : List UInt8) : List UInt8 := handshake 11 (be24 list.length ++ list)

/-- The two bytes of a cipher suite as the machine reads them. -/
def cipherValue (c₀ c₁ : UInt8) : UInt16 := c₀.toUInt16 + (c₁.toUInt16 <<< 8)

variable {ssl : SSL κ} (ct : ConnectedTarget)

theorem certif_noted (h : Accepts ssl.onCertif) (chunk : List UInt8) (pos size : ℕ) (k : κ)
    (l : List Note) :
    ∃ k', ssl.noted.certif ct chunk pos size (k, l) = ⟨true, chunk, [], [.pass pos size],
      (k', l ++ [.certificate (regionAt chunk pos size)])⟩ := by
  obtain ⟨f, hf, htrue⟩ := h
  refine ⟨(f ct chunk pos size k).2, ?_⟩
  simp [certif, noted, hf, callCb, DataCallback.noted, htrue]

theorem failure_noted (h : Accepts ssl.onFailure) (chunk : List UInt8) (pos size : ℕ) (k : κ)
    (l : List Note) :
    ∃ k', ssl.noted.failure ct chunk pos size (k, l) = ⟨true, chunk, [], [.pass pos size],
      (k', l ++ [.failure (regionAt chunk pos size)])⟩ := by
  obtain ⟨f, hf, htrue⟩ := h
  refine ⟨(f ct chunk pos size k).2, ?_⟩
  simp [failure, noted, hf, callCb, DataCallback.noted, htrue]

theorem certLoop_item (h : Accepts ssl.onCertif) (pre crt t : List UInt8) (size : ℕ) (k : κ)
    (l : List Note) (hcrt : crt.length < 16777216) :
    ∃ as k', ssl.noted.certLoop ct (pre ++ (certItem crt ++ t)) size pre.length
        ((certItem crt ++ t).length : ℕ) (k, l) =
      (ssl.noted.certLoop ct (pre ++ (certItem crt ++ t)) size (pre ++ certItem crt).length
        (t.length : ℕ) (k', l ++ [.certificate ⟨pre.length + 3, crt.length, crt⟩])).after as := by
  have hlen : (certItem crt ++ t).length = crt.length + 3 + t.length := by
    simp [certItem]
    omega
  have hat : be24At (pre ++ (certItem crt ++ t)) pre.length = crt.length := by
    have happ := be24At_append pre (certItem crt ++ t) 0
    rw [Nat.add_zero] at happ
    rw [happ, certItem, List.append_assoc, be24At_be24 hcrt]
  have hregion : regionAt (pre ++ (certItem crt ++ t)) (pre.length + 3) crt.length =
      ⟨pre.length + 3, crt.length, crt⟩ := by
    have hdrop : (pre ++ (certItem crt ++ t)).drop (pre.length + 3) = crt ++ t := by
      rw [← List.drop_drop, List.drop_left, certItem, List.append_assoc]
      rfl
    rw [regionAt, hdrop, List.take_left]
  obtain ⟨k', hk'⟩ : ∃ k', ssl.noted.certif ct (pre ++ (certItem crt ++ t)) (pre.length + 3)
      crt.length (k, l) = _ := certif_noted ct h _ _ _ k l
  rw [hregion] at hk'
  refine ⟨.read pre.length 3 :: [.pass (pre.length + 3) crt.length], k', ?_⟩
  rw [certLoop, hat, if_pos (by omega), if_neg (by omega), if_neg (by omega)]
  simp only [hk', if_true]
  have hpos : pre.length + 3 + crt.length = (pre ++ certItem crt).length := by
    simp [certItem]
    omega
  have hleft : ((certItem crt ++ t).length : ℤ) - 3 - crt.length = t.length := by omega
  rw [hpos, hleft]

/-- The loop over the whole items at the front of a list. -/
theorem certLoop_items (h : Accepts ssl.onCertif) (pre : List UInt8) (crts : List (List UInt8))
    (t : List UInt8) (size : ℕ) (k : κ) (l : List Note)
    (hcrts : ∀ crt ∈ crts, crt.length < 16777216) :
    ∃ as k', ∃ rs : List Region, ssl.noted.certLoop ct (pre ++ (certList crts ++ t)) size pre.length
        ((certList crts ++ t).length : ℕ) (k, l) =
      (ssl.noted.certLoop ct (pre ++ (certList crts ++ t)) size (pre ++ certList crts).length
        (t.length : ℕ) (k', l ++ rs.map Note.certificate)).after as ∧
      rs.map Region.bytes = crts ∧
      ∀ r ∈ rs, pre.length ≤ r.pos ∧ r.pos + r.size ≤ (pre ++ certList crts).length := by
  induction crts generalizing pre k l with
  | nil => exact ⟨[], k, [], by simp [certList, Handling.after], rfl, by simp⟩
  | cons crt crts ih =>
    have hlist : certList (crt :: crts) = certItem crt ++ certList crts := List.flatMap_cons
    obtain ⟨as, k₁, hfirst⟩ := certLoop_item ct h pre crt (certList crts ++ t) size k l
      (hcrts crt (by simp))
    obtain ⟨bs, k', rs, hloop, hrs, hin⟩ := ih (pre ++ certItem crt) k₁
      (l ++ [.certificate ⟨pre.length + 3, crt.length, crt⟩])
      (fun c hc => hcrts c (by simp [hc]))
    refine ⟨as ++ bs, k', ⟨pre.length + 3, crt.length, crt⟩ :: rs, ?_, by simp [hrs], ?_⟩
    · rw [List.append_assoc] at hloop
      rw [hlist, List.append_assoc, hfirst, hloop]
      simp [Handling.after]
    · intro r hr
      rw [hlist]
      simp only [List.length_append] at hin ⊢
      have hitem : (certItem crt).length = crt.length + 3 := by
        simp [certItem]
        omega
      rcases List.mem_cons.mp hr with rfl | hr
      · simp only
        omega
      · have := hin r hr
        omega

theorem certLoop_end (chunk : List UInt8) (size pos : ℕ) (k : κ) :
    ssl.certLoop ct chunk size pos 0 k = ⟨false, chunk, [], [], k⟩ := by
  rw [certLoop]
  rfl

theorem length_handshake (msgType : UInt8) (body : List UInt8) :
    (handshake msgType body).length = body.length + 4 := by
  simp only [handshake, List.length_cons, List.length_append, length_be24]
  omega

theorem be24At_handshake {msgType : UInt8} {body : List UInt8} (hb : body.length < 16777216) :
    be24At (handshake msgType body) 1 = body.length := by
  have hcons : be24At (handshake msgType body) 1 = be24At (be24 body.length ++ body) 0 := rfl
  rw [hcons, be24At_be24 hb]

theorem length_certificates (list : List UInt8) : (certificates list).length = list.length + 7 := by
  rw [certificates, length_handshake, List.length_append, length_be24]
  omega

theorem record_of_certificates {list : List UInt8} (hl : list.length + 3 < 16777216) :
    CertificateRecord (certificates list) := by
  have hlen := length_certificates list
  refine ⟨by omega, rfl, ?_, ?_⟩
  · rw [hlen, certificates, be24At_handshake (by simp; omega)]
    simp
    omega
  · have hcons : be24At (certificates list) 4 = be24At (be24 list.length ++ list) 0 := rfl
    rw [hcons, be24At_be24 (by omega)]
    omega

/-- A list behind headers that announce its length is handed to the loop. -/
theorem onHandshake2_certificates (ssl : SSL κ) {list : List UInt8}
    (hl : list.length + 3 < 16777216) (k : κ) :
    ∃ as, ssl.onHandshake2 ct (certificates list) k =
      (ssl.certLoop ct (certificates list) list.length 7 (list.length : ℕ) k).after as := by
  have hlen := length_certificates list
  obtain ⟨h7, htype, hmsg, hlist⟩ := record_of_certificates hl
  have hsize : (certificates list).length - 4 - 3 = list.length := by omega
  refine ⟨[.read 1 3, .read 0 1, .read sizeofHandshake 3], ?_⟩
  unfold onHandshake2 sizeofHandshake
  dsimp only
  rw [if_neg (by omega), if_neg (by simp [htype]), if_neg (by simp [hmsg]), if_neg (by omega),
    if_neg (by rw [hlist]; omega), hlist, hsize]
  rfl

theorem certificates_eq (list : List UInt8) : ∃ pre : List UInt8, pre.length = 7 ∧
    certificates list = pre ++ list :=
  ⟨11 :: (be24 (be24 list.length ++ list).length ++ be24 list.length), rfl, by
    simp [certificates, handshake]⟩

theorem mem_length_le {crts : List (List UInt8)} {crt : List UInt8} (h : crt ∈ crts) :
    crt.length ≤ (certList crts).length := by
  have hsub := List.sublist_flatten_of_mem (List.mem_map_of_mem (f := certItem) h)
  have hle := hsub.length_le
  rw [certList, List.flatMap]
  simp only [certItem, List.length_append, length_be24] at hle
  omega

/-- A list of whole items is delivered item by item. -/
theorem onHandshake2_certList (h : Accepts ssl.onCertif) {crts : List (List UInt8)}
    (hl : (certList crts).length + 3 < 16777216) (k : κ) (l : List Note) :
    ∃ as k', ∃ rs : List Region, ssl.noted.onHandshake2 ct (certificates (certList crts)) (k, l) =
        ⟨false, certificates (certList crts), [], as, (k', l ++ rs.map Note.certificate)⟩ ∧
      rs.map Region.bytes = crts ∧
      ∀ r ∈ rs, 7 ≤ r.pos ∧ r.pos + r.size ≤ (certificates (certList crts)).length := by
  obtain ⟨as, hhs⟩ := onHandshake2_certificates ct ssl.noted hl (k, l)
  obtain ⟨pre, hpre, heq⟩ := certificates_eq (certList crts)
  obtain ⟨bs, k', rs, hloop, hrs, hin⟩ := certLoop_items ct h pre crts [] (certList crts).length k l
    (fun crt hcrt => by have := mem_length_le hcrt; omega)
  rw [List.append_nil, ← heq, hpre, List.length_nil, Nat.cast_zero, certLoop_end] at hloop
  refine ⟨as ++ (bs ++ []), k', rs, ?_, hrs, ?_⟩
  · rw [hhs, hloop]
    rfl
  · intro r hr
    have := hin r hr
    rw [heq]
    omega

theorem cipherPos_of_le {size : ℕ} (h : 3 ≤ size) (hs : size < 16777216) :
    cipherPos size = size + 1 := by
  unfold cipherPos sizeofHandshake
  omega

theorem cipherAt_hello (ssl : SSL κ) (pre : List UInt8) (c₀ c₁ compression : UInt8)
    (hl : (pre ++ [c₀, c₁, compression]).length < 16777216) (k : κ) :
    ssl.cipherAt (handshake 2 (pre ++ [c₀, c₁, compression])) (cipherPos (pre.length + 3)) k =
      cipherValue c₀ c₁ := by
  have hsize : (pre ++ [c₀, c₁, compression]).length = pre.length + 3 := by simp
  have hat : ∀ i, (handshake 2 (pre ++ [c₀, c₁, compression]))[pre.length + 4 + i]? =
      [c₀, c₁, compression][i]? := by
    intro i
    have hcons : handshake 2 (pre ++ [c₀, c₁, compression]) =
        (2 :: be24 (pre ++ [c₀, c₁, compression]).length) ++ (pre ++ [c₀, c₁, compression]) := rfl
    rw [hcons, ← List.append_assoc, List.getElem?_append_right (by simp; omega)]
    congr 1
    simp
    omega
  have h₀ := hat 0
  have h₁ := hat 1
  rw [cipherPos_of_le (by omega) (by omega)]
  simp only [cipherAt, List.getD_eq_getElem?_getD, Nat.add_zero, Nat.add_assoc] at h₀ h₁ ⊢
  rw [h₀, h₁]
  rfl

/-- A message with the header of a server hello is taken for one, whatever its body. -/
theorem onHandshake1_of_body (ssl : SSL κ) (pre : List UInt8) (c₀ c₁ compression : UInt8)
    (hl : (pre ++ [c₀, c₁, compression]).length < 16777216) (k : κ) :
    ∃ as, ssl.onHandshake1 ct (handshake 2 (pre ++ [c₀, c₁, compression])) k =
      ⟨(ssl.cipher ct (cipherValue c₀ c₁) k).1, handshake 2 (pre ++ [c₀, c₁, compression]),
        if (ssl.cipher ct (cipherValue c₀ c₁) k).1 then
          [.setTrigger (headerTrigger .handshake2)] else [],
        as, (ssl.cipher ct (cipherValue c₀ c₁) k).2⟩ := by
  have hsize : (pre ++ [c₀, c₁, compression]).length = pre.length + 3 := by simp
  have htype : byteAt (handshake 2 (pre ++ [c₀, c₁, compression])) 0 = 2 := rfl
  refine ⟨[.read 0 1, .read 1 3, .read (cipherPos (pre.length + 3)) 2], ?_⟩
  simp only [onHandshake1, sizeofHandshake, length_handshake, htype, be24At_handshake hl,
    Nat.add_sub_cancel, ne_eq, not_true_eq_false, if_false]
  rw [if_neg (by omega), hsize, cipherAt_hello ssl pre c₀ c₁ compression hl k]

theorem listening_answersTrue : listening.AnswersTrue :=
  ⟨⟨_, rfl, fun _ _ _ _ _ => rfl⟩, ⟨_, rfl, fun _ _ _ => rfl⟩, ⟨_, rfl, fun _ _ _ _ _ => rfl⟩⟩

/-- The list of `chunk` consists of the whole items `crts`, and the headers announce its length. -/
def Grammar (chunk : List UInt8) (crts : List (List UInt8)) : Prop :=
  (certList crts).length + 3 < 16777216 ∧ chunk = certificates (certList crts)

/-- After whole items comes one whose announced length runs over the end by no more than the three
bytes of the length itself. -/
def Overrun (chunk : List UInt8) : Prop :=
  ∃ crts n tail, (certList crts ++ (be24 n ++ tail)).length + 3 < 16777216 ∧
    chunk = certificates (certList crts ++ (be24 n ++ tail)) ∧
    tail.length < n ∧ n ≤ tail.length + 3

/-- The calls of callbacks that `on_handshake2` makes on a chunk. -/
def notes (ssl : SSL κ) (ct : ConnectedTarget) (chunk : List UInt8) (k : κ) : List Note :=
  (ssl.noted.onHandshake2 ct chunk (k, [])).state.2

structure ParsesExactly (ssl : SSL κ) (ct : ConnectedTarget) (chunk : List UInt8) (k : κ) :
    Prop where
  grammar : (∀ r, Note.failure r ∉ ssl.notes ct chunk k) ↔ ∃ crts, Grammar chunk crts
  bodies : ∀ crts, Grammar chunk crts → ∃ rs : List Region,
    ssl.notes ct chunk k = rs.map Note.certificate ∧ rs.map Region.bytes = crts
  inside : ∀ r, Note.certificate r ∈ ssl.notes ct chunk k →
    7 ≤ r.pos ∧ r.pos + r.size ≤ chunk.length

theorem take_three {xs : List UInt8} (h : 3 ≤ xs.length) : be24 (be24At xs 0) = xs.take 3 := by
  rw [be24_be24At]
  match xs, h with
  | a :: b :: c :: rest, _ => rfl

/-- What the loop cannot take an item from. -/
def Stuck (t : List UInt8) : Prop := t.length < 3 ∨ t.length < 3 + be24At t 0

theorem exists_items (list : List UInt8) :
    ∃ crts t, list = certList crts ++ t ∧ Stuck t ∧ ∀ crt ∈ crts, crt.length < 16777216 := by
  induction hn : list.length using Nat.strong_induction_on generalizing list with
  | _ n ih =>
    by_cases hs : Stuck list
    · exact ⟨[], list, rfl, hs, by simp⟩
    · unfold Stuck at hs
      have hbody : ((list.drop 3).take (be24At list 0)).length = be24At list 0 := by
        rw [List.length_take, List.length_drop]
        omega
      obtain ⟨crts, t, hrest, ht, hcrts⟩ := ih (list.drop (3 + be24At list 0)).length
        (by rw [List.length_drop]; omega) _ rfl
      refine ⟨(list.drop 3).take (be24At list 0) :: crts, t, ?_, ht, ?_⟩
      · have hitem : certItem ((list.drop 3).take (be24At list 0)) =
            list.take 3 ++ (list.drop 3).take (be24At list 0) := by
          rw [certItem, hbody, take_three (by omega)]
        rw [certList, List.flatMap_cons, hitem, List.append_assoc, List.append_assoc]
        rw [certList] at hrest
        rw [← hrest, ← List.drop_drop, List.take_append_drop, List.take_append_drop]
      · intro crt hcrt
        rcases List.mem_cons.mp hcrt with rfl | hcrt
        · rw [hbody]
          exact be24At_lt list 0
        · exact hcrts crt hcrt

theorem certificates_of_record {chunk : List UInt8} (h : CertificateRecord chunk) :
    ∃ list, list.length + 3 < 16777216 ∧ chunk = certificates list := by
  obtain ⟨h7, htype, hmsg, hlist⟩ := h
  match chunk, h7 with
  | a :: b :: c :: d :: e :: f :: g :: list, _ =>
    have hlt := be24At_lt (a :: b :: c :: d :: e :: f :: g :: list) 1
    have hm := be24_be24At (a :: b :: c :: d :: e :: f :: g :: list) 1
    have hl := be24_be24At (a :: b :: c :: d :: e :: f :: g :: list) 4
    have ha : a = 11 := htype
    have hmsg' : be24At (a :: b :: c :: d :: e :: f :: g :: list) 1 = list.length + 3 := by
      rw [hmsg, List.length_cons]
      simp
    have hlist' : be24At (a :: b :: c :: d :: e :: f :: g :: list) 4 = list.length := by
      rw [hlist]
      simp
    rw [hmsg'] at hm hlt
    rw [hlist'] at hl
    refine ⟨list, by omega, ?_⟩
    have hbody : (be24 list.length ++ list).length = list.length + 3 := by
      simp only [List.length_append, length_be24]
      omega
    rw [certificates, handshake, hbody, hm, hl, ha]
    rfl

theorem notes_of_not_record (h : Accepts ssl.onFailure) {chunk : List UInt8} (k : κ)
    (hc : ¬ CertificateRecord chunk) : ∃ r, ssl.notes ct chunk k = [.failure r] := by
  have hfail : ∀ pos size as,
      ∃ r, ((ssl.noted.failure ct chunk pos size (k, [])).after as).state.2 = [Note.failure r] := by
    intro pos size as
    obtain ⟨k', hk'⟩ := failure_noted ct h chunk pos size k []
    exact ⟨regionAt chunk pos size, by rw [hk']; rfl⟩
  unfold notes onHandshake2
  dsimp only
  split_ifs with h4 h11 hmsg h3 hlist
  · exact hfail 0 chunk.length []
  · exact hfail _ _ _
  · exact hfail _ _ _
  · exact hfail _ _ _
  · exact hfail _ _ _
  · exfalso
    simp only [sizeofHandshake, ne_eq, not_not, not_lt] at h4 h11 hmsg h3 hlist
    exact hc ⟨by omega, h11, hmsg, by omega⟩

/-- What the loop does at the end of the whole items: it stops, reports, or takes too much. -/
theorem certLoop_stuck (h : ssl.AnswersTrue) (pre : List UInt8) {t : List UInt8} (ht : Stuck t)
    (size : ℕ) (k : κ) (l : List Note) :
    let last := (ssl.noted.certLoop ct (pre ++ t) size pre.length (t.length : ℕ) (k, l)).state.2
    (t = [] ∧ last = l) ∨
      ((t.length < 3 ∨ t.length < be24At t 0) ∧ ∃ r, last = l ++ [.failure r]) ∨
      (3 ≤ t.length ∧ be24At t 0 ≤ t.length ∧ t.length < 3 + be24At t 0 ∧
        last = l ++ [.certificate (regionAt (pre ++ t) (pre.length + 3) (be24At t 0))]) := by
  intro last
  have hat : be24At (pre ++ t) pre.length = be24At t 0 := be24At_append pre t 0
  by_cases h0 : t = []
  · apply Or.inl
    refine ⟨h0, ?_⟩
    simp only [last, h0, List.length_nil, Nat.cast_zero, certLoop_end]
  · have hpos := List.length_pos_iff.mpr h0
    by_cases h3 : t.length < 3
    · obtain ⟨k', hk'⟩ := failure_noted ct h.failure (pre ++ t) pre.length size k l
      refine Or.inr (Or.inl ⟨Or.inl h3, regionAt (pre ++ t) pre.length size, ?_⟩)
      simp only [last]
      rw [certLoop, if_pos (by omega), if_pos (by omega), hk']
    · by_cases hcut : t.length < be24At t 0
      · obtain ⟨k', hk'⟩ := failure_noted ct h.failure (pre ++ t) pre.length size k l
        refine Or.inr (Or.inl ⟨Or.inr hcut, regionAt (pre ++ t) pre.length size, ?_⟩)
        simp only [last]
        rw [certLoop, if_pos (by omega), if_neg (by omega), hat, if_pos (by omega), hk']
        rfl
      · have hstuck : t.length < 3 + be24At t 0 := by
          rcases ht with ht | ht
          · omega
          · exact ht
        obtain ⟨k', hk'⟩ := certif_noted ct h.certif (pre ++ t) (pre.length + 3) (be24At t 0) k l
        refine Or.inr (Or.inr ⟨by omega, by omega, hstuck, ?_⟩)
        simp only [last]
        rw [certLoop, if_pos (by omega), if_neg (by omega), hat, if_neg (by omega)]
        simp only [hk', if_true]
        rw [certLoop, if_neg (by omega)]
        rfl

/-- The calls on a well-headed list: one for each whole item, and what the rest brings. -/
theorem notes_list (h : ssl.AnswersTrue) {crts : List (List UInt8)} {t : List UInt8}
    (hl : (certList crts ++ t).length + 3 < 16777216) (ht : Stuck t) (k : κ) :
    ∃ rs : List Region, rs.map Region.bytes = crts ∧
      (∀ r ∈ rs, 7 ≤ r.pos ∧ r.pos + r.size ≤ (certificates (certList crts ++ t)).length) ∧
      ((t = [] ∧ ssl.notes ct (certificates (certList crts ++ t)) k = rs.map Note.certificate) ∨
        ((t.length < 3 ∨ t.length < be24At t 0) ∧
          ∃ r, ssl.notes ct (certificates (certList crts ++ t)) k =
            rs.map Note.certificate ++ [.failure r]) ∨
        (3 ≤ t.length ∧ be24At t 0 ≤ t.length ∧ t.length < 3 + be24At t 0 ∧
          ∃ r, r.pos = 7 + (certList crts).length + 3 ∧ r.size = be24At t 0 ∧
            ssl.notes ct (certificates (certList crts ++ t)) k =
              rs.map Note.certificate ++ [.certificate r])) := by
  obtain ⟨as, hhs⟩ := onHandshake2_certificates ct ssl.noted hl (k, [])
  obtain ⟨pre, hpre, heq⟩ := certificates_eq (certList crts ++ t)
  have hcrts : ∀ crt ∈ crts, crt.length < 16777216 := by
    intro crt hcrt
    have hle := mem_length_le hcrt
    rw [List.length_append] at hl
    omega
  obtain ⟨bs, k', rs, hloop, hrs, hin⟩ := certLoop_items ct h.certif pre crts t
    (certList crts ++ t).length k [] hcrts
  have hnotes : ssl.notes ct (certificates (certList crts ++ t)) k = (ssl.noted.certLoop ct
      ((pre ++ certList crts) ++ t) (certList crts ++ t).length (pre ++ certList crts).length
        (t.length : ℕ) (k', rs.map Note.certificate)).state.2 := by
    rw [hpre, ← heq] at hloop
    rw [notes, hhs, hloop, List.append_assoc, ← heq]
    rfl
  have hlen : (certificates (certList crts ++ t)).length =
      7 + (certList crts).length + t.length := by
    rw [length_certificates, List.length_append]
    omega
  refine ⟨rs, hrs, fun r hr => ?_, ?_⟩
  · have hr' := hin r hr
    rw [List.length_append, hpre] at hr'
    omega
  · rw [hnotes]
    rcases certLoop_stuck ct h (pre ++ certList crts) ht (certList crts ++ t).length k'
      (rs.map Note.certificate) with hend | hfail | ⟨h3, hle, hover, hlast⟩
    · exact Or.inl hend
    · exact Or.inr (Or.inl hfail)
    · refine Or.inr (Or.inr ⟨h3, hle, hover, _, ?_, rfl, hlast⟩)
      rw [List.length_append, hpre]
      rfl

theorem Grammar.notes (h : ssl.AnswersTrue) {chunk : List UInt8} {crts : List (List UInt8)}
    (hg : Grammar chunk crts) (k : κ) : ∃ rs : List Region,
      ssl.notes ct chunk k = rs.map Note.certificate ∧ rs.map Region.bytes = crts := by
  obtain ⟨hl, rfl⟩ := hg
  obtain ⟨as, k', rs, hhs, hrs, -⟩ := onHandshake2_certList ct h.certif hl k []
  exact ⟨rs, by rw [SSL.notes, hhs]; rfl, hrs⟩

/-- The tail of a list that the loop takes too much from. -/
theorem overrun_of_stuck {crts : List (List UInt8)} {t : List UInt8}
    (hl : (certList crts ++ t).length + 3 < 16777216) (h3 : 3 ≤ t.length)
    (hle : be24At t 0 ≤ t.length) (hover : t.length < 3 + be24At t 0) :
    Overrun (certificates (certList crts ++ t)) := by
  have ht : be24 (be24At t 0) ++ t.drop 3 = t := by rw [take_three h3, List.take_append_drop]
  have hdrop : (t.drop 3).length = t.length - 3 := List.length_drop
  exact ⟨crts, be24At t 0, t.drop 3, by rwa [ht], by rw [ht], by omega, by omega⟩

theorem Overrun.not_parses (h : ssl.AnswersTrue) {chunk : List UInt8} {k : κ} (ho : Overrun chunk) :
    ¬ ssl.ParsesExactly ct chunk k := by
  obtain ⟨crts, n, tail, hl, rfl, hlt, hle⟩ := ho
  intro hp
  have hn : n < 16777216 := by
    simp only [List.length_append, length_be24] at hl
    omega
  have hat : be24At (be24 n ++ tail) 0 = n := be24At_be24 hn tail
  have hstuck : Stuck (be24 n ++ tail) := by
    apply Or.inr
    rw [hat, List.length_append, length_be24]
    omega
  have hlen : (be24 n ++ tail).length = 3 + tail.length := by simp
  obtain ⟨rs, -, -, hcases⟩ := notes_list ct h hl hstuck k
  rcases hcases with ⟨hnil, -⟩ | ⟨hcut, -⟩ | ⟨-, -, -, r, hpos, hsize, hnotes⟩
  · simp [be24] at hnil
  · omega
  · have hin := hp.inside r (by rw [hnotes]; simp)
    rw [length_certificates, List.length_append, hpos, hsize, hat, hlen] at hin
    omega

theorem parses_exactly_iff (h : ssl.AnswersTrue) (chunk : List UInt8) (k : κ) :
    ssl.ParsesExactly ct chunk k ↔ ¬ Overrun chunk := by
  refine ⟨fun hp ho => ho.not_parses ct h hp, fun ho => ?_⟩
  have hbodies : ∀ crts, Grammar chunk crts → ∃ rs : List Region,
      ssl.notes ct chunk k = rs.map Note.certificate ∧ rs.map Region.bytes = crts :=
    fun crts hg => hg.notes ct h k
  have hquiet : (∃ crts, Grammar chunk crts) → ∀ r, Note.failure r ∉ ssl.notes ct chunk k := by
    rintro ⟨crts, hg⟩ r hr
    obtain ⟨rs, hnotes, -⟩ := hbodies crts hg
    simp [hnotes] at hr
  by_cases hrec : CertificateRecord chunk
  · obtain ⟨list, hl, rfl⟩ := certificates_of_record hrec
    obtain ⟨crts, t, rfl, ht, -⟩ := exists_items list
    obtain ⟨rs, -, hin, hcases⟩ := notes_list ct h hl ht k
    rcases hcases with ⟨rfl, hnotes⟩ | ⟨-, r, hnotes⟩ | ⟨h3, hle, hover, -⟩
    · refine ⟨⟨fun _ => ⟨crts, by simpa using hl, by simp⟩, hquiet⟩, hbodies, fun r hr => ?_⟩
      rw [hnotes] at hr
      obtain ⟨r', hr', heq⟩ := List.mem_map.mp hr
      rw [← Note.certificate.inj heq]
      exact hin r' hr'
    · refine ⟨⟨fun hno => absurd ?_ (hno r), hquiet⟩, hbodies, fun r' hr' => ?_⟩
      · rw [hnotes]
        simp
      · rw [hnotes, List.mem_append] at hr'
        rcases hr' with hr' | hr'
        · obtain ⟨r'', hr'', heq⟩ := List.mem_map.mp hr'
          rw [← Note.certificate.inj heq]
          exact hin r'' hr''
        · simp at hr'
    · exact absurd (overrun_of_stuck hl h3 hle hover) ho
  · obtain ⟨r, hnotes⟩ := notes_of_not_record ct h.failure k hrec
    refine ⟨⟨fun hno => absurd ?_ (hno r), hquiet⟩, hbodies, fun r' hr' => ?_⟩
    · rw [hnotes]
      simp
    · rw [hnotes] at hr'
      simp at hr'

/-- The one item announces three bytes and has none: the callback is handed the three bytes behind
the record, and no failure is reported. -/
theorem overrun_not_noticed :
    ¬ listening.ParsesExactly ⟨⟨1, ⟨443, .tcp⟩⟩, 5⟩ [11, 0, 0, 6, 0, 0, 3, 0, 0, 3] () :=
  Overrun.not_parses _ listening_answersTrue ⟨[], 3, [], by decide, by decide, by decide, by decide⟩

theorem certList_cons (crt : List UInt8) (crts : List (List UInt8)) :
    certList (crt :: crts) = be24 crt.length ++ (crt ++ certList crts) := by
  rw [certList, List.flatMap_cons, certItem, List.append_assoc]
  rfl

/-- The items of a list are read off it one by one, so what comes after whole items is a list. -/
theorem exists_certList {crts ds : List (List UInt8)} {t : List UInt8}
    (h : certList ds = certList crts ++ t) (hl : (certList ds).length < 16777216) :
    ∃ es, t = certList es := by
  induction crts generalizing ds with
  | nil => exact ⟨ds, h.symm⟩
  | cons crt crts ih =>
    rw [certList_cons, List.append_assoc, List.append_assoc] at h
    cases ds with
    | nil => simp [certList, be24] at h
    | cons d ds =>
      rw [certList_cons] at h hl
      have hlen := congrArg List.length h
      simp only [List.length_append, length_be24] at hl hlen
      have hsize : d.length = crt.length := by
        rw [← be24At_be24 (show d.length < 16777216 by omega) (d ++ certList ds), h,
          be24At_be24 (by omega)]
      obtain ⟨-, hrest⟩ := List.append_inj h rfl
      obtain ⟨-, htail⟩ := List.append_inj hrest hsize
      refine ih htail ?_
      omega

theorem Grammar.not_overrun {chunk : List UInt8} {crts : List (List UInt8)}
    (hg : Grammar chunk crts) : ¬ Overrun chunk := by
  rintro ⟨crts', n, tail, hl, heq, hlt, hle⟩
  have hsame : certList crts = certList crts' ++ (be24 n ++ tail) := by
    obtain ⟨-, hbody⟩ := List.append_inj (List.cons.inj (hg.2.symm.trans heq)).2 rfl
    exact (List.append_inj hbody rfl).2
  obtain ⟨ds, hds⟩ := exists_certList hsame (by have := hg.1; omega)
  cases ds with
  | nil => simp [certList, be24] at hds
  | cons d ds =>
    -- the next item has as many bytes as it announces
    rw [certList_cons] at hds
    have hlen := congrArg List.length hds
    simp only [List.length_append, length_be24] at hl hlen
    have hn : n = d.length := by
      rw [← be24At_be24 (show n < 16777216 by omega) tail, hds, be24At_be24 (by omega)]
    omega

theorem parses_exactly_three_certificates :
    listening.ParsesExactly ⟨⟨1, ⟨443, .tcp⟩⟩, 5⟩ threeCertificates () ∧
      listening.notes ⟨⟨1, ⟨443, .tcp⟩⟩, 5⟩ threeCertificates () =
        [.certificate ⟨10, 2, [1, 2]⟩, .certificate ⟨15, 0, []⟩, .certificate ⟨18, 1, [9]⟩] := by
  have hg : Grammar threeCertificates [[1, 2], [], [9]] := ⟨by decide, by decide⟩
  refine ⟨(parses_exactly_iff _ listening_answersTrue _ ()).mpr hg.not_overrun, ?_⟩
  with_unfolding_all rfl

end SSL
end Nodescan
