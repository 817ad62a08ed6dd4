import Nodescan.Buffer

/-!
# Receive buffers are queues of bytes

A program works on any number of `Lvl4Buffer` objects, known by names. Each object stands for a list
of bytes: growing appends to it, popping drops from its front, copying and moving do what they say.
The objects have blocks of their own in one heap, and this is what keeps an operation on one of them
from the others.
-/

namespace Nodescan

open BlockHeap

variable {ι ω : Type}

inductive BufferOp (ι : Type)
  | construct (x : ι)
  | growBy (x : ι) (xs : List UInt8)
  | popBy (x : ι) (n : ℕ)
  | free (x : ι)
  | copyConstruct (x y : ι)
  | copyAssign (x y : ι)
  | moveConstruct (x y : ι)
  | moveAssign (x y : ι)
  | destroy (x : ι)
  deriving DecidableEq, Repr

/-- The objects that an operation may change. -/
def BufferOp.names : BufferOp ι → List ι
  | .construct x | .growBy x _ | .popBy x _ | .free x | .copyConstruct x _ | .copyAssign x _
  | .destroy x => [x]
  | .moveConstruct x y | .moveAssign x y => [x, y]

/-- The objects there are, and the heap. -/
structure Buffers (ι ω : Type) where
  bufs : ι → Option Buffer
  heap : Heap ω

namespace Buffers

def start (o : ω) : Buffers ι ω := ⟨fun _ => none, Heap.start o⟩

variable (st : Buffers ι ω)

/-- The lists that the objects stand for. -/
def queues (x : ι) : Option (List UInt8) := (st.bufs x).map (·.contents .lvl4 st.heap)

def ptr (x : ι) : Ptr := (st.bufs x).bind (·.buffer)

/-- Every object is sound, and no two of them share a block. -/
structure Sound : Prop where
  sound : ∀ {x b}, st.bufs x = some b → b.Sound .lvl4 st.heap
  separate : ∀ {x y b c}, st.bufs x = some b → st.bufs y = some c → x ≠ y →
    Separate b.buffer c.buffer

section

variable {st} {x : ι} {b : Buffer}

theorem start_sound (o : ω) : (start o : Buffers ι ω).Sound where
  sound := nofun
  separate := nofun

theorem exists_of_queues {α : Type} {f : List UInt8 → Option α} {a : α}
    (hx : (st.queues x).bind f = some a) :
    ∃ b, st.bufs x = some b ∧ f (b.contents .lvl4 st.heap) = some a := by
  obtain ⟨l, hl, hf⟩ := Option.bind_eq_some_iff.mp hx
  obtain ⟨b, hb, rfl⟩ := Option.map_eq_some_iff.mp hl
  exact ⟨b, hb, hf⟩

/-- The size of a sound buffer is the length of its list. -/
theorem Sound.length_queue (hst : st.Sound) (hb : st.bufs x = some b) :
    (st.queues x).map List.length = some b.size := by
  have hone : Layout.lvl4.sizeofValue = 1 := rfl
  have hL : Layout.lvl4.sizeofValue ≤ Layout.lvl4.sizeofSize := by decide
  rw [queues, hb, Option.map_some, Option.map_some, (hst.sound hb).length_contents hL, hone,
    Nat.mul_one]

theorem ptr_of_some (hx : st.bufs x = some b) : st.ptr x = b.buffer := by
  rw [ptr, hx, Option.bind_some]

theorem bufs_of_queues_isSome (hx : ¬ (st.queues x).isSome) : st.bufs x = none := by
  rw [queues, Option.isSome_map] at hx
  exact Option.not_isSome_iff_eq_none.mp hx

theorem ptr_of_none (hx : st.bufs x = none) : st.ptr x = none := by
  rw [ptr, hx, Option.bind_none]

theorem Sound.separate_ptr (hst : st.Sound) {y : ι} {o : Buffer} (hy : st.bufs y = some o)
    (hne : y ≠ x) : Separate o.buffer (st.ptr x) := by
  cases hx : st.bufs x with
  | none =>
    rw [ptr_of_none hx]
    exact separate_none _
  | some b =>
    rw [ptr_of_some hx]
    exact hst.separate hy hx hne

end

variable [DecidableEq ι]

def set (x : ι) (b : Option Buffer) (h : Heap ω) : Buffers ι ω := ⟨Function.update st.bufs x b, h⟩

end Buffers

variable [DecidableEq ι]

/-- An operation on the objects. Only what exists can be used, and only what does not exist can be
constructed. -/
def BufferOp.run (A : Allocator ω) (st : Buffers ι ω) : BufferOp ι → Option (Buffers ι ω)
  | .construct x => if (st.bufs x).isSome then none else some (st.set x (some .empty) st.heap)
  | .growBy x xs => do
    let b ← st.bufs x
    let (b, h) ← b.append .lvl4 A xs.length xs st.heap
    some (st.set x (some b) h)
  | .popBy x n => do
    let b ← st.bufs x
    let (b, h) ← b.popBy .lvl4 n st.heap
    some (st.set x (some b) h)
  | .free x => do
    let b ← st.bufs x
    let (b, h) ← b.free st.heap
    some (st.set x (some b) h)
  | .copyConstruct x y =>
    if (st.bufs x).isSome then none
    else do
      let o ← st.bufs y
      let (b, h) ← Buffer.empty.copy .lvl4 A o st.heap
      some (st.set x (some b) h)
  | .copyAssign x y => do
    let b ← st.bufs x
    let o ← st.bufs y
    if x = y then some st
    else do
      let (b, h) ← b.copy .lvl4 A o st.heap
      some (st.set x (some b) h)
  | .moveConstruct x y =>
    if (st.bufs x).isSome then none
    else do
      let o ← st.bufs y
      let (b, o, h) ← Buffer.empty.move o st.heap
      some ((st.set y (some o) h).set x (some b) h)
  | .moveAssign x y => do
    let b ← st.bufs x
    let o ← st.bufs y
    if x = y then some st
    else do
      let (b, o, h) ← b.move o st.heap
      some ((st.set y (some o) h).set x (some b) h)
  | .destroy x => do
    let b ← st.bufs x
    let h ← b.release st.heap
    some (st.set x none h)

/-- The same operation on lists of bytes, none of which may reach a length of `2 ^ 30`. -/
def BufferOp.onQueues (q : ι → Option (List UInt8)) : BufferOp ι → Option (ι → Option (List UInt8))
  | .construct x => if (q x).isSome then none else some (Function.update q x (some []))
  | .growBy x xs => do
    let l ← q x
    if l.length + xs.length < 2 ^ 30 then some (Function.update q x (some (l ++ xs))) else none
  | .popBy x n => do
    let l ← q x
    if n ≤ l.length then some (Function.update q x (some (l.drop n))) else none
  | .free x => do
    let _ ← q x
    some (Function.update q x (some []))
  | .copyConstruct x y =>
    if (q x).isSome then none
    else do
      let l ← q y
      some (Function.update q x (some l))
  | .copyAssign x y => do
    let _ ← q x
    let l ← q y
    some (Function.update q x (some l))
  | .moveConstruct x y =>
    if (q x).isSome then none
    else do
      let l ← q y
      some (Function.update (Function.update q y (some [])) x (some l))
  | .moveAssign x y => do
    let _ ← q x
    let l ← q y
    if x = y then some q
    else some (Function.update (Function.update q y (some [])) x (some l))
  | .destroy x => do
    let _ ← q x
    some (Function.update q x none)

def runOps (A : Allocator ω) (ops : List (BufferOp ι)) (st : Buffers ι ω) :
    Option (Buffers ι ω) :=
  ops.foldlM (fun st op => op.run A st) st

def runOnQueues (ops : List (BufferOp ι)) (q : ι → Option (List UInt8)) :
    Option (ι → Option (List UInt8)) :=
  ops.foldlM (fun q op => op.onQueues q) q

theorem fits_lvl4 {n : ℕ} : Layout.lvl4.Fits n ↔ n < 2 ^ 30 := by
  simp only [Layout.Fits, Layout.lvl4]
  omega

namespace Buffers

variable {st : Buffers ι ω} {x y : ι} {h : Heap ω} {b o : Buffer}

theorem set_self (x : ι) (b : Option Buffer) : (st.set x b h).bufs x = b := Function.update_self ..

theorem set_of_ne (hne : y ≠ x) (b : Option Buffer) : (st.set x b h).bufs y = st.bufs y :=
  Function.update_of_ne hne ..

/-- The objects `st` are changed to `st'`, which stand for the lists `q`; those not among `xs` are
what they were. -/
structure Becomes (st st' : Buffers ι ω) (q : ι → Option (List UInt8)) (xs : List ι) : Prop where
  sound : st'.Sound
  queues_eq : st'.queues = q
  others : ∀ y ∉ xs, st'.bufs y = st.bufs y ∧ st'.queues y = st.queues y

theorem Sound.change (hst : st.Sound) {b : Option Buffer} (hb : ∀ c, b = some c → c.Sound .lvl4 h)
    (hothers : ∀ y o, y ≠ x → st.bufs y = some o → o.Sound .lvl4 h ∧
      o.contents .lvl4 h = o.contents .lvl4 st.heap ∧
      ∀ c, b = some c → Separate o.buffer c.buffer) :
    (st.set x b h).Sound ∧
      (st.set x b h).queues = Function.update st.queues x (b.map (·.contents .lvl4 h)) := by
  refine ⟨⟨fun {y o} hy => ?_, fun {y z o p} hy hz hne => ?_⟩, funext fun y => ?_⟩
  · by_cases hyx : y = x
    · subst hyx
      exact hb o (by rwa [set_self] at hy)
    · rw [set_of_ne hyx] at hy
      exact (hothers y o hyx hy).1
  · by_cases hyx : y = x
    · subst hyx
      rw [set_self] at hy
      rw [set_of_ne (Ne.symm hne)] at hz
      exact ((hothers z p (Ne.symm hne) hz).2.2 o hy).symm
    · rw [set_of_ne hyx] at hy
      by_cases hzx : z = x
      · subst hzx
        rw [set_self] at hz
        exact (hothers y o hyx hy).2.2 p hz
      · rw [set_of_ne hzx] at hz
        exact hst.separate hy hz hne
  · by_cases hyx : y = x
    · subst hyx
      rw [queues, set_self, Function.update_self]
      rfl
    · rw [queues, set_of_ne hyx, Function.update_of_ne hyx, queues]
      cases hy : st.bufs y with
      | none => rfl
      | some o => exact congrArg some (hothers y o hyx hy).2.1

theorem Becomes.of_update (b : Option Buffer) {l : Option (List UInt8)}
    (h' : (st.set x b h).Sound ∧ (st.set x b h).queues = Function.update st.queues x l) :
    st.Becomes (st.set x b h) (Function.update st.queues x l) [x] := by
  refine ⟨h'.1, h'.2, fun y hy => ?_⟩
  have hne : y ≠ x := by simpa using hy
  exact ⟨set_of_ne hne b, by rw [h'.2, Function.update_of_ne hne]⟩

theorem Sound.put (hst : st.Sound) (hb : b.Sound .lvl4 h)
    (hap : st.heap.Apart h (st.ptr x) b.buffer) :
    st.Becomes (st.set x (some b) h)
      (Function.update st.queues x (some (b.contents .lvl4 h))) [x] := by
  refine .of_update _ (hst.change (fun c hc => Option.some.inj hc ▸ hb) (fun y o hne hy => ?_))
  obtain ⟨hsound, hcontents, hsep⟩ := (hst.sound hy).other hap (hst.separate_ptr hy hne)
  exact ⟨hsound, hcontents, fun c hc => Option.some.inj hc ▸ hsep⟩

theorem Sound.remove (hst : st.Sound) (hap : st.heap.Apart h (st.ptr x) none) :
    st.Becomes (st.set x none h) (Function.update st.queues x none) [x] := by
  refine .of_update _ (hst.change nofun (fun y o hne hy => ?_))
  obtain ⟨hsound, hcontents, _⟩ := (hst.sound hy).other hap (hst.separate_ptr hy hne)
  exact ⟨hsound, hcontents, nofun⟩

theorem Sound.transfer (hst : st.Sound) (hne : x ≠ y) (hy : st.bufs y = some o)
    (hap : st.heap.Apart h (st.ptr x) none) :
    st.Becomes ((st.set y (some .empty) h).set x (some o) h)
      (Function.update (Function.update st.queues y (some [])) x
        (some (o.contents .lvl4 st.heap))) [x, y] := by
  obtain ⟨hsound, hcontents, _⟩ := (hst.sound hy).other hap (hst.separate_ptr hy hne.symm)
  -- Without `x`, the object `y` is emptied; then `x` comes back with its block.
  obtain ⟨hst₁, hq₁, _⟩ := hst.remove hap
  obtain ⟨hst₂, hq₂⟩ := hst₁.change (x := y) (b := some .empty) (h := h)
    (fun c hc => Option.some.inj hc ▸ Buffer.sound_empty h)
    (fun z p _ hz => ⟨hst₁.sound hz, rfl, fun c hc => Option.some.inj hc ▸ separate_none _⟩)
  obtain ⟨hst₃, hq₃⟩ := hst₂.change (x := x) (b := some o) (h := h)
    (fun c hc => Option.some.inj hc ▸ hsound) (fun z p hzx hz => by
      refine ⟨hst₂.sound hz, rfl, fun c hc => Option.some.inj hc ▸ ?_⟩
      by_cases hzy : z = y
      · subst hzy
        rw [set_self] at hz
        rw [← Option.some.inj hz]
        exact (separate_none _).symm
      · rw [set_of_ne hzy, set_of_ne hzx] at hz
        exact hst.separate hz hy hzy)
  have hset : ((st.set x none h).set y (some .empty) h).set x (some o) h =
      (st.set y (some .empty) h).set x (some o) h := by
    simp only [Buffers.set, Function.update_comm hne.symm, Function.update_idem]
  have hq : ((st.set y (some .empty) h).set x (some o) h).queues =
      Function.update (Function.update st.queues y (some [])) x
        (some (o.contents .lvl4 st.heap)) := by
    rw [← hset, hq₃, hq₂, hq₁, Function.update_comm hne.symm, Function.update_idem,
      Option.map_some, Option.map_some, hcontents, Function.update_comm hne.symm]
    rfl
  refine ⟨hset ▸ hst₃, hq, fun z hz => ?_⟩
  obtain ⟨hzx, hzy⟩ : z ≠ x ∧ z ≠ y := by simpa using hz
  rw [set_of_ne hzx, set_of_ne hzy, hq, Function.update_of_ne hzx, Function.update_of_ne hzy]
  exact ⟨rfl, rfl⟩

end Buffers

/-- One operation does to the objects what it does to the lists they stand for. -/
theorem BufferOp.run_spec (A : Allocator ω) {st : Buffers ι ω} (hst : st.Sound) (op : BufferOp ι)
    {q : ι → Option (List UInt8)} (hq : op.onQueues st.queues = some q) :
    ∃ st', op.run A st = some st' ∧ st.Becomes st' q op.names := by
  have hL : Layout.lvl4.sizeofValue ≤ Layout.lvl4.sizeofSize := by decide
  have hone : Layout.lvl4.sizeofValue = 1 := rfl
  cases op with
  | construct x =>
    simp only [onQueues] at hq
    split_ifs at hq with hx
    have hnone := Buffers.bufs_of_queues_isSome hx
    rw [← Option.some.inj hq]
    refine ⟨_, by simp only [run, hnone]; rfl, hst.put (Buffer.sound_empty st.heap) ?_⟩
    rw [Buffers.ptr_of_none hnone]
    exact Heap.Apart.refl _ _
  | growBy x xs =>
    obtain ⟨b, hb, hq⟩ := Buffers.exists_of_queues hq
    split_ifs at hq with hlt
    have hsound := hst.sound hb
    have hxs : xs.length = xs.length * Layout.lvl4.sizeofValue := by rw [hone, Nat.mul_one]
    rw [hsound.length_contents hL, hone, Nat.mul_one] at hlt
    obtain ⟨b', h', hrun, hsound', _, hcontents, hap⟩ :=
      Buffer.append_spec A hsound hL (fits_lvl4.mpr hlt) hxs
    rw [← Option.some.inj hq, ← hcontents]
    refine ⟨st.set x (some b') h', ?_, hst.put hsound' (Buffers.ptr_of_some hb ▸ hap)⟩
    simp only [run, hb, Option.bind_eq_bind, Option.bind_some, hrun]
  | popBy x n =>
    obtain ⟨b, hb, hq⟩ := Buffers.exists_of_queues hq
    split_ifs at hq with hle
    have hsound := hst.sound hb
    rw [hsound.length_contents hL, hone, Nat.mul_one] at hle
    obtain ⟨b', h', hrun, hsound', hcontents, hap⟩ := Buffer.popBy_contents hsound hone hle
    rw [← Option.some.inj hq, ← hcontents]
    refine ⟨st.set x (some b') h', ?_, hst.put hsound' (Buffers.ptr_of_some hb ▸ hap)⟩
    simp only [run, hb, Option.bind_eq_bind, Option.bind_some, hrun]
  | free x =>
    obtain ⟨b, hb, hq⟩ := Buffers.exists_of_queues hq
    obtain ⟨b', h', hrun, hsound', hsize, hap⟩ := Buffer.free_spec (hst.sound hb)
    have hcontents : b'.contents .lvl4 h' = [] := by
      rw [Buffer.contents, hsize, Nat.zero_mul, List.take_zero]
    rw [← Option.some.inj hq, ← hcontents]
    refine ⟨st.set x (some b') h', ?_, hst.put hsound' (Buffers.ptr_of_some hb ▸ hap)⟩
    simp only [run, hb, Option.bind_eq_bind, Option.bind_some, hrun]
  | copyConstruct x y =>
    simp only [onQueues] at hq
    split_ifs at hq with hx
    have hnone := Buffers.bufs_of_queues_isSome hx
    obtain ⟨o, ho, hq⟩ := Buffers.exists_of_queues hq
    obtain ⟨b', h', hrun, hsound', hcontents, hap⟩ := Buffer.copy_contents A
      (Buffer.sound_empty st.heap) (hst.sound ho) (separate_none _) hL
    rw [← Option.some.inj hq, ← hcontents]
    refine ⟨st.set x (some b') h', ?_, hst.put hsound' (Buffers.ptr_of_none hnone ▸ hap)⟩
    simp only [run, hnone, ho, Option.bind_eq_bind, Option.bind_some, hrun]
    rfl
  | copyAssign x y =>
    obtain ⟨b, hb, hq⟩ := Buffers.exists_of_queues hq
    obtain ⟨o, ho, hq⟩ := Buffers.exists_of_queues hq
    rw [← Option.some.inj hq]
    by_cases hxy : x = y
    · subst hxy
      have hsame : Function.update st.queues x (some (o.contents .lvl4 st.heap)) = st.queues := by
        rw [Function.update_eq_self_iff, Buffers.queues, ho, Option.map_some]
      refine ⟨st, ?_, hst, hsame.symm, fun _ _ => ⟨rfl, rfl⟩⟩
      simp only [run, hb, Option.bind_eq_bind, Option.bind_some, if_true]
    · obtain ⟨b', h', hrun, hsound', hcontents, hap⟩ := Buffer.copy_contents A (hst.sound hb)
        (hst.sound ho) (hst.separate ho hb (Ne.symm hxy)) hL
      rw [← hcontents]
      refine ⟨st.set x (some b') h', ?_, hst.put hsound' (Buffers.ptr_of_some hb ▸ hap)⟩
      simp only [run, hb, ho, Option.bind_eq_bind, Option.bind_some, if_neg hxy, hrun]
  | moveConstruct x y =>
    simp only [onQueues] at hq
    split_ifs at hq with hx
    have hnone := Buffers.bufs_of_queues_isSome hx
    obtain ⟨o, ho, hq⟩ := Buffers.exists_of_queues hq
    have hxy : x ≠ y := by
      rintro rfl
      simp [hnone] at ho
    have hap : st.heap.Apart st.heap (st.ptr x) none := by
      rw [Buffers.ptr_of_none hnone]
      exact Heap.Apart.refl _ _
    rw [← Option.some.inj hq]
    refine ⟨_, ?_, hst.transfer hxy ho hap⟩
    simp only [run, hnone, ho, Option.bind_eq_bind, Option.bind_some, Buffer.move, Buffer.release,
      Buffer.empty]
    rfl
  | moveAssign x y =>
    obtain ⟨b, hb, hq⟩ := Buffers.exists_of_queues hq
    obtain ⟨o, ho, hq⟩ := Buffers.exists_of_queues hq
    by_cases hxy : x = y
    · rw [if_pos hxy] at hq
      refine ⟨st, ?_, hst, Option.some.inj hq, fun _ _ => ⟨rfl, rfl⟩⟩
      simp only [run, hb, ho, Option.bind_eq_bind, Option.bind_some, if_pos hxy]
    · rw [if_neg hxy] at hq
      obtain ⟨h', hrun, hap⟩ := Buffer.release_spec (hst.sound hb).toBacked
      rw [← Option.some.inj hq]
      refine ⟨_, ?_, hst.transfer hxy ho (Buffers.ptr_of_some hb ▸ hap)⟩
      simp only [run, hb, ho, Option.bind_eq_bind, Option.bind_some, if_neg hxy, Buffer.move, hrun]
      rfl
  | destroy x =>
    obtain ⟨b, hb, hq⟩ := Buffers.exists_of_queues hq
    obtain ⟨h', hrun, hap⟩ := Buffer.release_spec (hst.sound hb).toBacked
    rw [← Option.some.inj hq]
    refine ⟨_, ?_, hst.remove (Buffers.ptr_of_some hb ▸ hap)⟩
    simp only [run, hb, Option.bind_eq_bind, Option.bind_some, hrun]

/-- A run on the objects follows the run on the lists. -/
theorem runOps_spec (A : Allocator ω) (ops : List (BufferOp ι)) {st : Buffers ι ω} (hst : st.Sound)
    {q : ι → Option (List UInt8)} (hq : runOnQueues ops st.queues = some q) :
    ∃ st', runOps A ops st = some st' ∧ st'.Sound ∧ st'.queues = q := by
  induction ops generalizing st with
  | nil => exact ⟨st, rfl, hst, Option.some.inj hq⟩
  | cons op ops ih =>
    rw [runOnQueues, List.foldlM_cons] at hq
    obtain ⟨q₁, hq₁, hq⟩ := Option.bind_eq_some_iff.mp hq
    obtain ⟨st₁, hrun₁, hst₁, rfl, _⟩ := op.run_spec A hst hq₁
    obtain ⟨st', hrun, hst', hq'⟩ := ih hst₁ hq
    refine ⟨st', ?_, hst', hq'⟩
    rw [runOps, List.foldlM_cons, hrun₁]
    exact hrun

/-- After every sequence of operations that the lists allow: the buffers stand for the lists, their
sizes are the lengths of these and at most the allocated sizes, and the next operation leaves the
other buffers alone. -/
theorem buffers_are_queues (A : Allocator ω) (o : ω) (ops : List (BufferOp ι))
    (q : ι → Option (List UInt8)) (hq : runOnQueues ops (fun _ => none) = some q) :
    ∃ st, runOps A ops (Buffers.start o) = some st ∧ st.queues = q ∧
      (∀ x b, st.bufs x = some b →
        (q x).map List.length = some b.size ∧ b.size ≤ b.allocatedSize) ∧
      ∀ (op : BufferOp ι) q', op.onQueues q = some q' → ∃ st', op.run A st = some st' ∧
        ∀ y ∉ op.names, st'.bufs y = st.bufs y ∧ st'.queues y = st.queues y := by
  obtain ⟨st, hrun, hst, rfl⟩ := runOps_spec A ops (Buffers.start_sound o) hq
  refine ⟨st, hrun, rfl, fun x b hb => ⟨hst.length_queue hb, (hst.sound hb).size_le⟩,
    fun op q' hq' => ?_⟩
  obtain ⟨st', hrun', hst'⟩ := op.run_spec A hst hq'
  exact ⟨st', hrun', hst'.others⟩

/-- Ten bytes, a copy, ten more, a move, and five popped. -/
def grownCopiedMoved : List (BufferOp ℕ) :=
  [.construct 0, .growBy 0 (List.replicate 10 65), .copyConstruct 1 0,
    .growBy 0 (List.replicate 10 66), .moveConstruct 2 0, .popBy 2 5]

theorem buffers_are_queues_moved :
    ∃ st, runOps .bump grownCopiedMoved (Buffers.start ()) = some st ∧ st.queues 0 = some [] ∧
      st.queues 1 = some (List.replicate 10 65) ∧
      st.queues 2 = some (List.replicate 5 65 ++ List.replicate 10 66) := by
  obtain ⟨st, hrun, hq, _⟩ := buffers_are_queues .bump () grownCopiedMoved _ rfl
  exact ⟨st, hrun, by rw [hq]; rfl, by rw [hq]; rfl, by rw [hq]; rfl⟩

end Nodescan
