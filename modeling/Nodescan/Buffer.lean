import Nodescan.BlockHeap

/-!
# The buffer template

`Buffer<T, SizeType>` has a pointer to a block, the number of elements the block was allocated for
and the number of elements in use. The sizes are computed in `SizeType`, and the bytes of a block
are counted in multiples of `sizeof(size_type)`, not of the size of an element.

A failed `assert` and a use of memory outside a live block are `none`. Everything is said over the
bytes of the blocks; an element is `sizeof(T)` of them.
-/

namespace Nodescan

open BlockHeap

variable {ω : Type}

/-- The two parameters of the template, by their sizes in bytes. -/
structure Layout where
  sizeofValue : ℕ
  sizeofSize : ℕ
  sizeofValue_pos : 0 < sizeofValue
  sizeofSize_pos : 0 < sizeofSize

/-- The layout of `Lvl4Buffer`, a buffer of `unsigned char` with sizes in `uint32_t`. -/
def Layout.lvl4 : Layout := ⟨1, 4, Nat.succ_pos 0, Nat.succ_pos 3⟩

/-- A number as it is stored in a `size_type`. -/
def Layout.wrap (L : Layout) (n : ℕ) : ℕ := n % 2 ^ (8 * L.sizeofSize)

/-- No size computed for `n` elements wraps. -/
def Layout.Fits (L : Layout) (n : ℕ) : Prop := n * L.sizeofSize < 2 ^ (8 * L.sizeofSize)

structure Buffer where
  buffer : Ptr
  bufSize : ℕ
  bufPos : ℕ
  deriving DecidableEq, Repr

namespace Buffer

/-- `Buffer()`. -/
def empty : Buffer := ⟨none, 0, 0⟩

def allocatedSize (b : Buffer) : ℕ := b.bufSize

def size (b : Buffer) : ℕ := b.bufPos

variable (L : Layout) (A : Allocator ω)

def sizeBuf (n : ℕ) : ℕ := L.wrap (n * L.sizeofSize)

def allocate (b : Buffer) (n : ℕ) (h : Heap ω) : Option (Buffer × Heap ω) :=
  match b.buffer with
  | some a =>
    if b.allocatedSize < n then do
      let (p, h) ← h.realloc A a (sizeBuf L n)
      some ({ b with buffer := p, bufSize := n }, h)
    else some (b, h)
  | none =>
    let r := h.malloc A (sizeBuf L n)
    some ({ b with buffer := r.1, bufSize := n }, r.2)

/-- `grow_by`. The pointer it returns is given by its offset in the block. -/
def growBy (b : Buffer) (n : ℕ) (h : Heap ω) : Option (ℕ × Buffer × Heap ω) := do
  let oldPos := b.size
  let (b, h) ← b.allocate L A (L.wrap (b.size + n)) h
  some (oldPos * L.sizeofValue, { b with bufPos := L.wrap (b.size + n) }, h)

/-- `pop_by`. The `memmove` counts bytes. -/
def popBy (b : Buffer) (n : ℕ) (h : Heap ω) : Option (Buffer × Heap ω) :=
  if n ≤ b.bufPos then do
    let rem := b.size - n
    let h ← h.memmove b.buffer 0 b.buffer (n * L.sizeofValue) rem
    some ({ b with bufPos := b.size - n }, h)
  else none

/-- `~Buffer()`. -/
def release (b : Buffer) (h : Heap ω) : Option (Heap ω) :=
  match b.buffer with
  | some a => h.free a
  | none => some h

def free (b : Buffer) (h : Heap ω) : Option (Buffer × Heap ω) :=
  match b.buffer with
  | some a => do
    let h ← h.free a
    some (⟨none, 0, 0⟩, h)
  | none => some (b, h)

def copy (b o : Buffer) (h : Heap ω) : Option (Buffer × Heap ω) := do
  let (b, h) ← b.allocate L A o.size h
  let h ← h.memcpy b.buffer o.buffer (sizeBuf L o.size)
  some ({ b with bufPos := o.size }, h)

/-- `move`: the buffer, what is left of the other one, and the heap. -/
def move (b o : Buffer) (h : Heap ω) : Option (Buffer × Buffer × Heap ω) := do
  let h ← b.release h
  some (⟨o.buffer, o.allocatedSize, o.size⟩, ⟨none, 0, 0⟩, h)

/-- `grow_by` for all of `xs`, and the returned region filled with it. -/
def append (b : Buffer) (n : ℕ) (xs : List UInt8) (h : Heap ω) : Option (Buffer × Heap ω) := do
  let (pos, b, h) ← b.growBy L A n h
  let h ← h.store b.buffer pos xs
  some (b, h)

/-- The buffer's block is there, as large as it was requested. -/
structure Backed (b : Buffer) (h : Heap ω) : Prop where
  live : h.Live b.buffer
  length_eq : (h.block b.buffer).length = sizeBuf L b.allocatedSize

/-- A backed buffer whose elements in use are among the allocated ones, with sizes that do not
wrap. -/
structure Sound (b : Buffer) (h : Heap ω) : Prop extends Backed L b h where
  size_le : b.size ≤ b.allocatedSize
  fits : L.Fits b.allocatedSize

/-- The bytes of the elements in use. -/
def contents (b : Buffer) (h : Heap ω) : List UInt8 :=
  (h.block b.buffer).take (b.size * L.sizeofValue)

/-- `allocate` for `n` elements finds the block large enough. -/
def HasRoom (b : Buffer) (n : ℕ) : Prop := b.buffer ≠ none ∧ n ≤ b.allocatedSize

/-- What `allocate` for `n` elements does. -/
structure Allocated (b : Buffer) (n : ℕ) (h : Heap ω) (b' : Buffer) (h' : Heap ω) : Prop where
  backed : b'.Backed L h'
  size_eq : b'.size = b.size
  apart : h.Apart h' b.buffer b'.buffer
  same : b.HasRoom n → b' = b ∧ h' = h
  grown : ¬ b.HasRoom n → b'.allocatedSize = n ∧ h'.requests = sizeBuf L n :: h.requests ∧
    (h.block b.buffer).take (sizeBuf L n) <+: h'.block b'.buffer

variable {L} {b b' o : Buffer} {h h' : Heap ω} {n : ℕ}

/-- What an operation that is known to return does. -/
theorem exists_run_iff {x : Option (Buffer × Heap ω)} {P : Buffer → Heap ω → Prop}
    (hrun : x = some (b', h')) : (∃ b h, x = some (b, h) ∧ P b h) ↔ P b' h' := by
  subst hrun
  constructor
  · rintro ⟨b, h, heq, hP⟩
    obtain ⟨rfl, rfl⟩ := Prod.mk.inj (Option.some.inj heq)
    exact hP
  · exact fun hP => ⟨b', h', rfl, hP⟩

theorem backed_empty (h : Heap ω) : empty.Backed L h where
  live := Heap.live_none
  length_eq := by simp [empty, allocatedSize, sizeBuf, Layout.wrap]

theorem allocate_spec (hb : b.Backed L h) (n : ℕ) :
    ∃ b' h', b.allocate L A n h = some (b', h') ∧ b.Allocated L n h b' h' := by
  obtain ⟨p, cap, pos⟩ := b
  cases p with
  | none =>
    obtain ⟨hlive, hlen, hap, hreq⟩ := Heap.malloc_spec A h (sizeBuf L n)
    refine ⟨_, _, rfl, ⟨hlive, hlen⟩, rfl, hap, fun hroom => absurd rfl hroom.1, fun _ => ?_⟩
    exact ⟨rfl, hreq, by simp⟩
  | some a =>
    by_cases hlt : cap < n
    · obtain ⟨p', h', hrun, hlive, hlen, htake, hap, hreq⟩ :=
        Heap.realloc_spec A hb.live (sizeBuf L n)
      refine ⟨⟨p', n, pos⟩, h', ?_, ⟨hlive, hlen⟩, rfl, hap, fun hroom => ?_,
        fun _ => ⟨rfl, hreq, htake⟩⟩
      · simp only [allocate, allocatedSize, if_pos hlt, hrun, Option.bind_eq_bind, Option.bind_some]
      · exact absurd hroom.2 (Nat.not_le.mpr hlt)
    · refine ⟨_, h, if_neg hlt, hb, rfl, Heap.Apart.refl h _, fun _ => ⟨rfl, rfl⟩, fun hno => ?_⟩
      exact absurd ⟨nofun, Nat.not_lt.mp hlt⟩ hno

/-! Without wrapping sizes. -/

theorem wrap_of_fits {n m : ℕ} (hn : L.Fits n) (hm : m ≤ n) : L.wrap m = m := by
  apply Nat.mod_eq_of_lt
  calc m ≤ n * 1 := by omega
    _ ≤ n * L.sizeofSize := Nat.mul_le_mul_left n L.sizeofSize_pos
    _ < 2 ^ (8 * L.sizeofSize) := hn

theorem sizeBuf_of_fits (hn : L.Fits n) : sizeBuf L n = n * L.sizeofSize := Nat.mod_eq_of_lt hn

theorem fits_of_le {m : ℕ} (hn : L.Fits n) (hm : m ≤ n) : L.Fits m :=
  (Nat.mul_le_mul_right L.sizeofSize hm).trans_lt hn

theorem sound_empty (h : Heap ω) : empty.Sound L h where
  toBacked := backed_empty h
  size_le := le_rfl
  fits := by simp [empty, allocatedSize, Layout.Fits]

theorem Sound.length_block (hb : b.Sound L h) :
    (h.block b.buffer).length = b.allocatedSize * L.sizeofSize := by
  rw [hb.length_eq]
  exact sizeBuf_of_fits hb.fits

theorem Sound.size_mul_le (hb : b.Sound L h) (hL : L.sizeofValue ≤ L.sizeofSize) :
    b.size * L.sizeofValue ≤ (h.block b.buffer).length := by
  rw [hb.length_block]
  exact Nat.mul_le_mul hb.size_le hL

theorem Sound.length_contents (hb : b.Sound L h) (hL : L.sizeofValue ≤ L.sizeofSize) :
    (b.contents L h).length = b.size * L.sizeofValue := by
  rw [contents, List.length_take]
  exact min_eq_left (hb.size_mul_le hL)

/-- A buffer without a block has no elements. -/
theorem Sound.allocatedSize_eq_zero (hb : b.Sound L h) (hnull : b.buffer = none) :
    b.allocatedSize = 0 := by
  have hlen := hb.length_block
  rw [hnull, Heap.block_none, List.length_nil] at hlen
  have hpos := L.sizeofSize_pos
  rcases Nat.mul_eq_zero.mp hlen.symm with hzero | hzero
  · exact hzero
  · omega

namespace Allocated

theorem le (ha : b.Allocated L n h b' h') : n ≤ b'.allocatedSize := by
  by_cases hroom : b.HasRoom n
  · rw [(ha.same hroom).1]
    exact hroom.2
  · exact (ha.grown hroom).1.ge

theorem fits (ha : b.Allocated L n h b' h') (hb : b.Sound L h) (hn : L.Fits n) :
    L.Fits b'.allocatedSize := by
  by_cases hroom : b.HasRoom n
  · rw [(ha.same hroom).1]
    exact hb.fits
  · rw [(ha.grown hroom).1]
    exact hn

/-- The bytes of the block stay. -/
theorem isPrefix (ha : b.Allocated L n h b' h') (hb : b.Sound L h) (hn : L.Fits n) :
    h.block b.buffer <+: h'.block b'.buffer := by
  by_cases hroom : b.HasRoom n
  · obtain ⟨rfl, rfl⟩ := ha.same hroom
    exact List.prefix_rfl
  · have htake := (ha.grown hroom).2.2
    have hle : b.allocatedSize ≤ n := by
      by_contra hlt
      have hnull : b.buffer ≠ none := fun hnull => by
        rw [hb.allocatedSize_eq_zero hnull] at hlt
        omega
      exact hroom ⟨hnull, (Nat.not_le.mp hlt).le⟩
    rwa [List.take_of_length_le] at htake
    rw [hb.length_block, sizeBuf_of_fits hn]
    exact Nat.mul_le_mul_right L.sizeofSize hle

theorem take_block (ha : b.Allocated L n h b' h') (hb : b.Sound L h) (hn : L.Fits n)
    (hL : L.sizeofValue ≤ L.sizeofSize) :
    (h'.block b'.buffer).take (b.size * L.sizeofValue) = b.contents L h := by
  obtain ⟨rest, hrest⟩ := ha.isPrefix hb hn
  rw [← hrest, List.take_append_of_le_length (hb.size_mul_le hL), contents]

theorem size_mul_le (ha : b.Allocated L n h b' h') (hb : b.Sound L h) (hn : L.Fits n) :
    n * L.sizeofSize ≤ (h'.block b'.buffer).length := by
  rw [ha.backed.length_eq, sizeBuf_of_fits (ha.fits hb hn)]
  exact Nat.mul_le_mul_right L.sizeofSize ha.le

end Allocated

/-- `grow_by` and the filling of its region append to the contents. -/
theorem append_spec (hb : b.Sound L h) (hL : L.sizeofValue ≤ L.sizeofSize)
    (hn : L.Fits (b.size + n)) {xs : List UInt8} (hxs : xs.length = n * L.sizeofValue) :
    ∃ b' h', b.append L A n xs h = some (b', h') ∧ b'.Sound L h' ∧ b'.size = b.size + n ∧
      b'.contents L h' = b.contents L h ++ xs ∧ h.Apart h' b.buffer b'.buffer := by
  have hwrap : L.wrap (b.size + n) = b.size + n := wrap_of_fits hn le_rfl
  obtain ⟨b₁, h₁, hrun, ha⟩ := allocate_spec A hb.toBacked (b.size + n)
  have hroom : b.size * L.sizeofValue + xs.length ≤ (h₁.block b₁.buffer).length := by
    have hle := Nat.mul_le_mul_left (b.size + n) hL
    have hblock := ha.size_mul_le hb hn
    rw [hxs, ← Nat.add_mul]
    omega
  obtain ⟨h₂, hstore, hlive, hblock, hap, _⟩ := Heap.store_spec ha.backed.live hroom
  refine ⟨⟨b₁.buffer, b₁.bufSize, b.size + n⟩, h₂, ?_, ⟨⟨hlive, ?_⟩, ha.le, ha.fits hb hn⟩, rfl, ?_,
    ha.apart.trans hap⟩
  · have hpos : b₁.size = b.size := ha.size_eq
    simp only [append, growBy, hwrap, hrun, hpos, Option.bind_eq_bind, Option.bind_some, hstore]
  · rw [hblock, length_splice hroom]
    exact ha.backed.length_eq
  · have hsum : (b.size + n) * L.sizeofValue = b.size * L.sizeofValue + xs.length := by
      rw [hxs, Nat.add_mul]
    change (h₂.block b₁.buffer).take ((b.size + n) * L.sizeofValue) = _
    rw [hblock, hsum, take_splice hroom, ha.take_block hb hn hL]

/-- `pop_by` moves as many bytes as elements remain. -/
theorem popBy_spec (hb : b.Backed L h) (hn : n ≤ b.size)
    (hin : n * L.sizeofValue + (b.size - n) ≤ (h.block b.buffer).length) :
    ∃ b' h', b.popBy L n h = some (b', h') ∧ b'.Backed L h' ∧ b'.buffer = b.buffer ∧
      b'.allocatedSize = b.allocatedSize ∧ b'.size = b.size - n ∧
      h'.block b'.buffer = splice (h.block b.buffer) 0
        (((h.block b.buffer).drop (n * L.sizeofValue)).take (b.size - n)) ∧
      h.Apart h' b.buffer b'.buffer ∧ h'.requests = h.requests := by
  have hdst : 0 + (b.size - n) ≤ (h.block b.buffer).length := by omega
  obtain ⟨h', hmove, hlive, hblock, hap, hreq⟩ := Heap.memmove_spec hb.live hdst hin
  refine ⟨⟨b.buffer, b.bufSize, b.size - n⟩, h', ?_, ⟨hlive, ?_⟩, rfl, rfl, rfl, hblock, hap, hreq⟩
  · have hle : n ≤ b.bufPos := hn
    simp only [popBy, if_pos hle, hmove, Option.bind_eq_bind, Option.bind_some]
  · rw [hblock, length_splice]
    · exact hb.length_eq
    · rw [List.length_take, List.length_drop]
      omega

/-- Where an element is a byte, `pop_by` drops from the front. -/
theorem popBy_contents (hb : b.Sound L h) (hL : L.sizeofValue = 1) (hn : n ≤ b.size) :
    ∃ b' h', b.popBy L n h = some (b', h') ∧ b'.Sound L h' ∧
      b'.contents L h' = (b.contents L h).drop n ∧ h.Apart h' b.buffer b'.buffer := by
  have hsize := hb.size_mul_le (hL ▸ L.sizeofSize_pos)
  have hin : n * L.sizeofValue + (b.size - n) ≤ (h.block b.buffer).length := by
    rw [hL] at hsize ⊢
    omega
  obtain ⟨b', h', hrun, hback, hptr, hcap, hpos, hblock, hap, _⟩ := popBy_spec hb.toBacked hn hin
  refine ⟨b', h', hrun, ⟨hback, ?_, hcap ▸ hb.fits⟩, ?_, hap⟩
  · rw [hcap, hpos]
    exact (Nat.sub_le _ _).trans hb.size_le
  · have hlen : (((h.block b.buffer).drop n).take (b.size - n)).length = b.size - n := by
      rw [List.length_take, List.length_drop]
      rw [hL] at hin
      omega
    rw [hL, Nat.mul_one] at hblock
    rw [contents, contents, hblock, hpos, hL, Nat.mul_one, Nat.mul_one, List.drop_take,
      take_splice_zero _ hlen]

/-- `copy` of a buffer with a block of its own. -/
theorem copy_spec (hb : b.Sound L h) (ho : o.Sound L h) (hsep : Separate o.buffer b.buffer) :
    ∃ b' h', b.copy L A o h = some (b', h') ∧ b'.Sound L h' ∧ b'.size = o.size ∧
      (h'.block b'.buffer).take (o.size * L.sizeofSize) =
        (h.block o.buffer).take (o.size * L.sizeofSize) ∧
      h.Apart h' b.buffer b'.buffer := by
  have hn : L.Fits o.size := fits_of_le ho.fits ho.size_le
  obtain ⟨b₁, h₁, hrun, ha⟩ := allocate_spec A hb.toBacked o.size
  obtain ⟨_, hsame, hsep₁⟩ := ha.apart.other ho.live hsep
  have hdst := ha.size_mul_le hb hn
  have hsrc : o.size * L.sizeofSize ≤ (h₁.block o.buffer).length := by
    rw [hsame, ho.length_block]
    exact Nat.mul_le_mul_right L.sizeofSize ho.size_le
  obtain ⟨h₂, hcpy, hlive, hblock, hap, _⟩ :=
    Heap.memcpy_spec ha.backed.live hsep₁.symm hdst hsrc
  have hlen : ((h₁.block o.buffer).take (o.size * L.sizeofSize)).length =
      o.size * L.sizeofSize := by
    rw [List.length_take]
    exact min_eq_left hsrc
  refine ⟨⟨b₁.buffer, b₁.bufSize, o.size⟩, h₂, ?_, ⟨⟨hlive, ?_⟩, ha.le, ha.fits hb hn⟩, rfl, ?_,
    ha.apart.trans hap⟩
  · simp only [copy, hrun, Option.bind_eq_bind, Option.bind_some, sizeBuf_of_fits hn, hcpy]
  · rw [hblock, length_splice (by rw [hlen]; omega)]
    exact ha.backed.length_eq
  · change (h₂.block b₁.buffer).take (o.size * L.sizeofSize) = _
    rw [hblock, take_splice_zero _ hlen, hsame]

theorem copy_contents (hb : b.Sound L h) (ho : o.Sound L h) (hsep : Separate o.buffer b.buffer)
    (hL : L.sizeofValue ≤ L.sizeofSize) :
    ∃ b' h', b.copy L A o h = some (b', h') ∧ b'.Sound L h' ∧
      b'.contents L h' = o.contents L h ∧ h.Apart h' b.buffer b'.buffer := by
  obtain ⟨b', h', hrun, hsound, hsize, htake, hap⟩ := copy_spec A hb ho hsep
  refine ⟨b', h', hrun, hsound, ?_, hap⟩
  have hle := Nat.mul_le_mul_left o.size hL
  have hmin := congrArg (List.take (o.size * L.sizeofValue)) htake
  rw [List.take_take, List.take_take, min_eq_left hle] at hmin
  rw [contents, contents, hsize, hmin]

theorem release_spec (hb : b.Backed L h) :
    ∃ h', b.release h = some h' ∧ h.Apart h' b.buffer none := by
  obtain ⟨p, cap, pos⟩ := b
  cases p with
  | none => exact ⟨h, rfl, Heap.Apart.refl h none⟩
  | some a =>
    obtain ⟨h', hfree, hap, _⟩ := Heap.free_spec hb.live
    exact ⟨h', hfree, hap⟩

theorem free_spec (hb : b.Sound L h) :
    ∃ b' h', b.free h = some (b', h') ∧ b'.Sound L h' ∧ b'.size = 0 ∧
      h.Apart h' b.buffer b'.buffer := by
  obtain ⟨p, cap, pos⟩ := b
  cases p with
  | none =>
    have hcap := hb.allocatedSize_eq_zero rfl
    have hle := hb.size_le
    exact ⟨_, h, rfl, hb, by omega, Heap.Apart.refl h none⟩
  | some a =>
    obtain ⟨h', hfree, hap, _⟩ := Heap.free_spec hb.live
    refine ⟨empty, h', ?_, sound_empty h', rfl, hap⟩
    simp only [free, hfree, Option.bind_eq_bind, Option.bind_some]
    rfl

/-- A buffer that another operation was not about. -/
theorem Sound.other {old new : Ptr} (ho : o.Sound L h) (hap : h.Apart h' old new)
    (hsep : Separate o.buffer old) :
    o.Sound L h' ∧ o.contents L h' = o.contents L h ∧ Separate o.buffer new := by
  obtain ⟨hlive, hblock, hnew⟩ := hap.other ho.live hsep
  refine ⟨⟨⟨hlive, ?_⟩, ho.size_le, ho.fits⟩, ?_, hnew⟩
  · rw [hblock]
    exact ho.length_eq
  · rw [contents, contents, hblock]

end Buffer
end Nodescan
