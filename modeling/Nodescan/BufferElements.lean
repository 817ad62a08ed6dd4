import Nodescan.Buffer

/-!
# Where the buffer template treats elements

`pop_by` moves as many bytes as elements remain, and `allocate` asks for `sizeof(size_type)` bytes
an element. Both are right for elements of one byte. For larger ones `pop_by` leaves bytes behind
that belong to the elements, and where an element is larger than a `size_type` the blocks are too
small for their elements.
-/

namespace Nodescan

open BlockHeap

variable {ω : Type}

namespace Buffer

def element (L : Layout) (b : Buffer) (h : Heap ω) (i : ℕ) : Option (List UInt8) :=
  h.load b.buffer (i * L.sizeofValue) L.sizeofValue

/-- The block holds the elements in use. -/
structure Holds (L : Layout) (b : Buffer) (h : Heap ω) : Prop extends Sound L b h where
  held : b.size * L.sizeofValue ≤ (h.block b.buffer).length

/-- After `pop_by(n)` every element is the one that was `n` places further on. -/
def Pops (L : Layout) (b : Buffer) (h : Heap ω) (n : ℕ) : Prop :=
  ∃ b' h', b.popBy L n h = some (b', h') ∧ b'.size = b.size - n ∧
    ∀ i < b'.size, b'.element L h' i = b.element L h (n + i)

/-- The bytes that `pop_by(n)` does not move are equal to those that belong in their places. -/
def Repeats (L : Layout) (b : Buffer) (h : Heap ω) (n : ℕ) : Prop :=
  ∀ k, b.size - n ≤ k → k < (b.size - n) * L.sizeofValue →
    (h.block b.buffer)[k]? = (h.block b.buffer)[n * L.sizeofValue + k]?

/-- `allocate(n)` asks for no block that is too small for `n` elements. -/
def Requests (L : Layout) (A : Allocator ω) (b : Buffer) (h : Heap ω) (n : ℕ) : Prop :=
  ∃ b' h', b.allocate L A n h = some (b', h') ∧
    ∀ r, h'.requests = r :: h.requests → n * L.sizeofValue ≤ r

variable {L : Layout} {A : Allocator ω} {b : Buffer} {h : Heap ω} {n : ℕ}

theorem Holds.element_eq (hb : b.Holds L h) {i : ℕ} (hi : i < b.size) :
    b.element L h i = some (((h.block b.buffer).drop (i * L.sizeofValue)).take L.sizeofValue) := by
  apply Heap.load_spec
  calc i * L.sizeofValue + L.sizeofValue = (i + 1) * L.sizeofValue := by rw [Nat.add_mul, Nat.one_mul]
    _ ≤ b.size * L.sizeofValue := Nat.mul_le_mul_right _ hi
    _ ≤ (h.block b.buffer).length := hb.held

theorem elements_eq_iff {xs ys : List UInt8} {t m j : ℕ} (ht : 0 < t) :
    (∀ i < m, (xs.drop (i * t)).take t = (ys.drop ((j + i) * t)).take t) ↔
      ∀ k < m * t, xs[k]? = ys[j * t + k]? := by
  constructor
  · intro h k hk
    have hi : k / t < m := Nat.div_lt_of_lt_mul (by rwa [Nat.mul_comm] at hk)
    have hbyte := congrArg (·[k % t]?) (h (k / t) hi)
    have hmod := Nat.mod_lt k ht
    have hdiv : k / t * t + k % t = k := Nat.div_add_mod' k t
    simp only [List.getElem?_take, hmod, if_true, List.getElem?_drop, hdiv] at hbyte
    rw [hbyte, Nat.add_mul, Nat.add_assoc, hdiv]
  · intro h i hi
    apply List.ext_getElem?
    intro r
    simp only [List.getElem?_take, List.getElem?_drop]
    split_ifs with hr
    · have hlt : i * t + r < m * t := by
        have hle : (i + 1) * t ≤ m * t := Nat.mul_le_mul_right t hi
        rw [Nat.add_mul, Nat.one_mul] at hle
        omega
      rw [h _ hlt, Nat.add_mul, Nat.add_assoc]
    · rfl

theorem getElem?_splice_zero {bs : List UInt8} {j r k : ℕ} (hin : j + r ≤ bs.length) :
    (splice bs 0 ((bs.drop j).take r))[k]? = if k < r then bs[j + k]? else bs[k]? := by
  have hlen : ((bs.drop j).take r).length = r := by
    rw [List.length_take, List.length_drop]
    omega
  rw [splice, List.take_zero, List.nil_append, hlen, Nat.zero_add]
  split_ifs with hk
  · rw [List.getElem?_append_left (by rw [hlen]; exact hk), List.getElem?_take, if_pos hk,
      List.getElem?_drop]
  · rw [List.getElem?_append_right (by rw [hlen]; omega), hlen, List.getElem?_drop]
    congr 1
    omega

theorem pops_iff (hb : b.Holds L h) (hn : n ≤ b.size) : b.Pops L h n ↔ b.Repeats L h n := by
  have ht := L.sizeofValue_pos
  have hsum : n * L.sizeofValue + (b.size - n) * L.sizeofValue = b.size * L.sizeofValue := by
    rw [← Nat.add_mul]
    congr 1
    omega
  have hmul : b.size - n ≤ (b.size - n) * L.sizeofValue := Nat.le_mul_of_pos_right _ ht
  have hheld := hb.held
  have hin : n * L.sizeofValue + (b.size - n) ≤ (h.block b.buffer).length := by omega
  obtain ⟨b', h', hrun, hback, hptr, hcap, hsize, hblock, _, _⟩ :=
    popBy_spec hb.toBacked hn hin
  have hlen : (h'.block b'.buffer).length = (h.block b.buffer).length := by
    rw [hback.length_eq, hb.length_eq, hcap]
  have hb' : b'.Holds L h' := by
    refine ⟨⟨hback, ?_, hcap ▸ hb.fits⟩, ?_⟩
    · rw [hcap, hsize]
      exact (Nat.sub_le _ _).trans hb.size_le
    · rw [hlen, hsize]
      omega
  have helements : (∀ i < b'.size, b'.element L h' i = b.element L h (n + i)) ↔
      ∀ k < (b.size - n) * L.sizeofValue,
        (h'.block b'.buffer)[k]? = (h.block b.buffer)[n * L.sizeofValue + k]? := by
    rw [← elements_eq_iff ht, hsize]
    refine forall_congr' fun i => forall_congr' fun hi => ?_
    rw [hb'.element_eq (hsize ▸ hi), hb.element_eq (by omega), Option.some_inj]
  have hpops : b.Pops L h n ↔ ∀ i < b'.size, b'.element L h' i = b.element L h (n + i) :=
    (exists_run_iff hrun).trans (and_iff_right hsize)
  rw [hpops, helements, hblock]
  constructor
  · intro hbytes k hle hlt
    have hk := hbytes k hlt
    rwa [getElem?_splice_zero hin, if_neg (by omega)] at hk
  · intro hrepeats k hlt
    rw [getElem?_splice_zero hin]
    split_ifs with hk
    · rfl
    · exact hrepeats k (by omega) hlt

theorem requests_iff (hb : b.Sound L h) (hn : L.Fits n) :
    b.Requests L A h n ↔ b.HasRoom n ∨ n = 0 ∨ L.sizeofValue ≤ L.sizeofSize := by
  obtain ⟨b', h', hrun, ha⟩ := allocate_spec A hb.toBacked n
  have hrequests : b.Requests L A h n ↔
      ∀ r, h'.requests = r :: h.requests → n * L.sizeofValue ≤ r := exists_run_iff hrun
  rw [hrequests]
  by_cases hroom : b.HasRoom n
  · rw [(ha.same hroom).2]
    exact iff_of_true (fun r hr => absurd hr (by simp)) (Or.inl hroom)
  · rw [(ha.grown hroom).2.1, sizeBuf_of_fits hn, or_iff_right hroom]
    constructor
    · intro hr
      by_cases hzero : n = 0
      · exact Or.inl hzero
      · exact Or.inr (Nat.le_of_mul_le_mul_left (hr _ rfl) (Nat.pos_of_ne_zero hzero))
    · rintro (rfl | hle) r hr
      · simp
      · rw [← (List.cons.inj hr).1]
        exact Nat.mul_le_mul_left n hle

theorem exists_two (hL : L.sizeofValue ≤ L.sizeofSize) (xs : List UInt8)
    (hxs : xs.length = 2 * L.sizeofValue) :
    ∃ b h, empty.append L .bump 2 xs (Heap.start ()) = some (b, h) ∧ b.Holds L h ∧ b.size = 2 ∧
      ∀ k < xs.length, (h.block b.buffer)[k]? = xs[k]? := by
  have hfits : L.Fits (empty.size + 2) := by
    have hlt : L.sizeofSize < 2 ^ L.sizeofSize := Nat.lt_two_pow_self
    calc 2 * L.sizeofSize < 2 * 2 ^ L.sizeofSize := by omega
      _ = 2 ^ (L.sizeofSize + 1) := by rw [Nat.pow_succ, Nat.mul_comm]
      _ ≤ 2 ^ (8 * L.sizeofSize) := Nat.pow_le_pow_right (by omega) (by
          have hpos := L.sizeofSize_pos
          omega)
  obtain ⟨b, h, hrun, hsound, hsize, hcontents, _⟩ :=
    append_spec .bump (sound_empty (Heap.start ())) hL hfits hxs
  refine ⟨b, h, hrun, ⟨hsound, hsound.size_mul_le hL⟩, hsize, fun k hk => ?_⟩
  have hbytes : b.contents L h = xs := hcontents.trans (by simp [contents, empty, size])
  have htwo : b.size = 2 := hsize
  rw [← hbytes, contents, List.getElem?_take, if_pos (by rw [htwo, ← hxs]; exact hk)]

/-- With elements of more than a byte, there are two that `pop_by` mixes. -/
theorem not_repeats_of_two {b : Buffer} {xs : List UInt8} {k : ℕ} (hsize : b.size = 2)
    (hbytes : ∀ k < xs.length, (h.block b.buffer)[k]? = xs[k]?) (hk : 0 < k)
    (hkt : k < L.sizeofValue) (hxs : xs.length = 2 * L.sizeofValue)
    (hne : xs[k]? ≠ xs[L.sizeofValue + k]?) : ¬ b.Repeats L h 1 := by
  intro hrepeats
  have heq := hrepeats k (by omega) (by rw [hsize]; omega)
  rw [hbytes k (by omega), Nat.one_mul, hbytes _ (by omega)] at heq
  exact hne heq

end Buffer

/-- Every buffer of the layout treats elements: popping moves them, requests are large enough for
them, and neither growing nor copying leaves the block. -/
structure Layout.TreatsElements (L : Layout) : Prop where
  pops : ∀ {ω : Type} {b : Buffer} {h : Heap ω} {n : ℕ}, b.Holds L h → n ≤ b.size → b.Pops L h n
  requests : ∀ {ω : Type} (A : Allocator ω) {b : Buffer} {h : Heap ω} {n : ℕ}, b.Sound L h →
    L.Fits n → b.Requests L A h n
  grows : ∀ {ω : Type} (A : Allocator ω) {b : Buffer} {h : Heap ω} {n : ℕ} {xs : List UInt8},
    b.Sound L h → L.Fits (b.size + n) → xs.length = n * L.sizeofValue →
    (b.append L A n xs h).isSome
  copies : ∀ {ω : Type} (A : Allocator ω) {b o : Buffer} {h : Heap ω}, b.Sound L h → o.Sound L h →
    Separate o.buffer b.buffer → (b.copy L A o h).isSome

theorem Layout.treatsElements_of_byte {L : Layout} (hL : L.sizeofValue = 1) : L.TreatsElements where
  pops := by
    intro ω b h n hb hn
    refine (Buffer.pops_iff hb hn).mpr (fun k hle hlt => ?_)
    rw [hL] at hlt
    omega
  requests := fun A _ _ _ hb hn =>
    (Buffer.requests_iff hb hn).mpr (Or.inr (Or.inr (hL ▸ L.sizeofSize_pos)))
  grows := by
    intro ω A b h n xs hb hn hxs
    obtain ⟨b', h', hrun, _⟩ := Buffer.append_spec A hb (hL ▸ L.sizeofSize_pos) hn hxs
    rw [hrun]
    rfl
  copies := by
    intro ω A b o h hb ho hsep
    obtain ⟨b', h', hrun, _⟩ := Buffer.copy_spec A hb ho hsep
    rw [hrun]
    rfl

theorem Layout.TreatsElements.sizeofValue_eq_one {L : Layout} (h : L.TreatsElements) :
    L.sizeofValue = 1 := by
  have hpos := L.sizeofValue_pos
  have hone : L.Fits 1 := by
    rw [Layout.Fits, Nat.one_mul]
    exact Nat.lt_two_pow_self.trans_le (Nat.pow_le_pow_right (by omega) (by omega))
  have hL : L.sizeofValue ≤ L.sizeofSize := by
    have hreq := h.requests .bump (Buffer.sound_empty (Heap.start ())) hone
    rcases (Buffer.requests_iff (Buffer.sound_empty _) hone).mp hreq with hroom | hzero | hle
    · exact absurd rfl hroom.1
    · omega
    · exact hle
  by_contra hne
  -- A first element of zeros, a second one of ones: its last byte stays behind.
  let xs : List UInt8 := List.replicate L.sizeofValue 0 ++ List.replicate L.sizeofValue 1
  have hxs : xs.length = 2 * L.sizeofValue := by simp [xs, Nat.two_mul]
  obtain ⟨b, hp, _, hb, hsize, hbytes⟩ := Buffer.exists_two hL xs hxs
  have hrepeats := (Buffer.pops_iff hb (by omega)).mp (h.pops (n := 1) hb (by omega))
  refine Buffer.not_repeats_of_two (k := L.sizeofValue - 1) hsize hbytes (by omega) (by omega) hxs
    ?_ hrepeats
  rw [List.getElem?_append_left (by simp; omega), List.getElem?_append_right (by simp)]
  simp [hpos]

/-- For every element type and every type of sizes: the buffers of the layout treat elements exactly
if an element is one byte. A single `pop_by` of larger elements is right where the bytes it does
not move repeat, a single `allocate` where it asks for nothing or elements are no larger than
sizes. -/
theorem treats_elements_iff (L : Layout) :
    (L.TreatsElements ↔ L.sizeofValue = 1) ∧
      (∀ (ω : Type) (b : Buffer) (h : Heap ω) (n : ℕ), b.Holds L h → n ≤ b.size →
        (b.Pops L h n ↔ b.Repeats L h n)) ∧
      ∀ (ω : Type) (A : Allocator ω) (b : Buffer) (h : Heap ω) (n : ℕ), b.Sound L h → L.Fits n →
        (b.Requests L A h n ↔ b.HasRoom n ∨ n = 0 ∨ L.sizeofValue ≤ L.sizeofSize) :=
  ⟨⟨fun h => h.sizeofValue_eq_one, Layout.treatsElements_of_byte⟩,
    fun _ _ _ _ hb hn => Buffer.pops_iff hb hn, fun _ _ _ _ _ hb hn => Buffer.requests_iff hb hn⟩

def Layout.pairs : Layout :=
  { Layout.lvl4 with
    sizeofValue := 2
    sizeofValue_pos := Nat.succ_pos 1 }

theorem pop_mixes_elements :
    ∃ b h, Buffer.empty.append .pairs .bump 2 [1, 0, 3, 2] (Heap.start ()) = some (b, h) ∧
      b.Holds .pairs h ∧ b.size = 2 ∧ ¬ b.Pops .pairs h 1 := by
  obtain ⟨b, h, hrun, hb, hsize, hbytes⟩ :=
    Buffer.exists_two (L := .pairs) (by decide) [1, 0, 3, 2] rfl
  refine ⟨b, h, hrun, hb, hsize, fun hpops => ?_⟩
  exact Buffer.not_repeats_of_two (k := 1) hsize hbytes (by decide) (by decide) rfl (by decide)
    ((Buffer.pops_iff hb (by omega)).mp hpops)

end Nodescan
