import Nodescan.TreeMaps

/-!
# A heap of blocks

The heap of a C program: a set of live blocks, each a list of bytes known by its address. A pointer
is the address of a block or null, a position in a block is an offset. An allocator places the
blocks; what is found in a fresh one is up to it, and so is the answer to a request of no bytes.
Every use of memory outside a live block is `none`.

The frame of an operation is `Apart`: the operation worked on the block `old`, leaves `new` behind,
and every other live block is as it was.
-/

namespace BlockHeap

abbrev Ptr := Option ℕ

/-- The pointers do not point to the same block. -/
def Separate (p q : Ptr) : Prop := ∀ a, p = some a → q ≠ some a

theorem Separate.symm {p q : Ptr} (h : Separate p q) : Separate q p :=
  fun a hq hp => h a hp hq

theorem separate_none (p : Ptr) : Separate p none := fun _ _ h => nomatch h

abbrev Blocks := Std.ExtTreeMap ℕ (List UInt8)

/-- Where a block is placed, and the bytes that are found there. -/
structure Placement where
  addr : ℕ
  found : ℕ → UInt8

/-- The bytes found from `i` on up to `n`. -/
def Placement.fresh (pl : Placement) (i n : ℕ) : List UInt8 := (List.range' i (n - i)).map pl.found

@[simp] theorem Placement.length_fresh (pl : Placement) (i n : ℕ) : (pl.fresh i n).length = n - i := by
  simp [fresh]

/-- An allocator that never runs out of memory, with a state of its own. -/
structure Allocator (ω : Type) where
  malloc : Blocks → ℕ → ω → Option Placement × ω
  realloc : Blocks → ℕ → ℕ → ω → Option Placement × ω
  malloc_not_mem : ∀ {m n o pl}, (malloc m n o).1 = some pl → pl.addr ∉ m
  malloc_isSome : ∀ {m n o}, 0 < n → (malloc m n o).1.isSome
  realloc_not_mem : ∀ {m p n o pl}, (realloc m p n o).1 = some pl → pl.addr = p ∨ pl.addr ∉ m
  realloc_isSome : ∀ {m p n o}, 0 < n → (realloc m p n o).1.isSome

/-- An address behind all live blocks. -/
def addrAbove (m : Blocks) : ℕ := m.keys.foldr max 0 + 1

theorem addrAbove_not_mem (m : Blocks) : addrAbove m ∉ m := by
  have hle : ∀ (as : List ℕ), ∀ a ∈ as, a ≤ as.foldr max 0 := by
    intro as
    induction as with
    | nil => simp
    | cons b as ih =>
      intro a ha
      rcases List.mem_cons.mp ha with rfl | ha
      · exact le_max_left _ _
      · exact (ih a ha).trans (le_max_right _ _)
  intro hmem
  have hlast := hle m.keys _ (Std.ExtTreeMap.mem_keys.mpr hmem)
  unfold addrAbove at hlast
  omega

/-- Every block is placed behind all live ones and found full of zeros; `realloc` to nothing is
`free`. -/
def Allocator.bump : Allocator Unit where
  malloc := fun m _ o => (some ⟨addrAbove m, fun _ => 0⟩, o)
  realloc := fun m _ n o => (if n = 0 then none else some ⟨addrAbove m, fun _ => 0⟩, o)
  malloc_not_mem := by
    intro m n o pl hpl
    rw [← Option.some.inj hpl]
    exact addrAbove_not_mem m
  malloc_isSome := fun _ => rfl
  realloc_not_mem := by
    intro m p n o pl hpl
    dsimp only at hpl
    split_ifs at hpl
    rw [← Option.some.inj hpl]
    exact Or.inr (addrAbove_not_mem m)
  realloc_isSome := by
    intro m p n o hn
    simp [Nat.pos_iff_ne_zero.mp hn]

/-- The live blocks, the sizes that were asked of the allocator (the last one first) and the
allocator's state. -/
structure Heap (ω : Type) where
  blocks : Blocks
  requests : List ℕ
  state : ω

/-- A heap without blocks. -/
def Heap.start {ω : Type} (o : ω) : Heap ω := ⟨∅, [], o⟩

/-- The bytes from `i` on replaced by `xs`. -/
def splice (bs : List UInt8) (i : ℕ) (xs : List UInt8) : List UInt8 :=
  bs.take i ++ xs ++ bs.drop (i + xs.length)

theorem length_splice {bs xs : List UInt8} {i : ℕ} (hin : i + xs.length ≤ bs.length) :
    (splice bs i xs).length = bs.length := by
  simp only [splice, List.length_append, List.length_take, List.length_drop]
  omega

theorem take_splice {bs xs : List UInt8} {i : ℕ} (hin : i + xs.length ≤ bs.length) :
    (splice bs i xs).take (i + xs.length) = bs.take i ++ xs := by
  rw [splice, List.take_left']
  rw [List.length_append, List.length_take]
  omega

theorem take_splice_zero (bs : List UInt8) {xs : List UInt8} {n : ℕ} (hlen : xs.length = n) :
    (splice bs 0 xs).take n = xs := by
  rw [splice, List.take_zero, List.nil_append, List.take_left' hlen]

namespace Heap

variable {ω : Type} (A : Allocator ω) (h : Heap ω)

/-- The block a pointer points to; null has no bytes. -/
def block (p : Ptr) : List UInt8 := (p.bind (h.blocks[·]?)).getD []

def Live (p : Ptr) : Prop := ∀ a, p = some a → a ∈ h.blocks

def malloc (n : ℕ) : Ptr × Heap ω :=
  let r := A.malloc h.blocks n h.state
  match r.1 with
  | none => (none, ⟨h.blocks, n :: h.requests, r.2⟩)
  | some pl => (some pl.addr, ⟨h.blocks.insert pl.addr (pl.fresh 0 n), n :: h.requests, r.2⟩)

/-- The old block is gone; the first bytes of the new one are its bytes. -/
def realloc (a n : ℕ) : Option (Ptr × Heap ω) := do
  let bs ← h.blocks[a]?
  let r := A.realloc h.blocks a n h.state
  match r.1 with
  | none => some (none, ⟨h.blocks.erase a, n :: h.requests, r.2⟩)
  | some pl => some (some pl.addr,
      ⟨(h.blocks.erase a).insert pl.addr (bs.take n ++ pl.fresh bs.length n), n :: h.requests, r.2⟩)

def free (a : ℕ) : Option (Heap ω) :=
  if a ∈ h.blocks then some { h with blocks := h.blocks.erase a } else none

/-- Bytes are only looked at where there are any to look at: no bytes can be read through any
pointer, also through null. -/
def load (p : Ptr) (i n : ℕ) : Option (List UInt8) :=
  if n = 0 then some []
  else if i + n ≤ (h.block p).length then some (((h.block p).drop i).take n) else none

def store (p : Ptr) (i : ℕ) (xs : List UInt8) : Option (Heap ω) :=
  if xs = [] then some h
  else p.bind fun a =>
    if i + xs.length ≤ (h.block p).length then
      some { h with blocks := h.blocks.insert a (splice (h.block p) i xs) }
    else none

def memmove (dst : Ptr) (i : ℕ) (src : Ptr) (j n : ℕ) : Option (Heap ω) := do
  let xs ← h.load src j n
  h.store dst i xs

/-- The two regions must not overlap. -/
def memcpy (dst src : Ptr) (n : ℕ) : Option (Heap ω) :=
  if n ≠ 0 ∧ dst = src then none else h.memmove dst 0 src 0 n

/-- Every live block but `old` is as it was, and `new` is none of them. -/
def Apart (h h' : Heap ω) (old new : Ptr) : Prop :=
  ∀ a bs, h.blocks[a]? = some bs → old ≠ some a → new ≠ some a ∧ h'.blocks[a]? = some bs

variable {A h} {h' h'' : Heap ω} {p q old mid new : Ptr} {a : ℕ} {bs : List UInt8}

@[simp] theorem block_none : h.block none = [] := rfl

theorem block_of_getElem? (ha : h.blocks[a]? = some bs) : h.block (some a) = bs := by
  simp [block, ha]

theorem live_none : h.Live none := fun _ ha => nomatch ha

theorem live_some : h.Live (some a) ↔ a ∈ h.blocks := by
  simp [Live]

theorem Live.getElem? (hp : h.Live (some a)) : h.blocks[a]? = some (h.block (some a)) := by
  have ha := live_some.mp hp
  rw [block_of_getElem? (Std.ExtTreeMap.getElem?_eq_some_getElem ha)]
  exact Std.ExtTreeMap.getElem?_eq_some_getElem ha

/-- Only a live block has bytes. -/
theorem exists_of_block_ne_nil (hne : h.block p ≠ []) : ∃ a, p = some a ∧ a ∈ h.blocks := by
  cases p with
  | none => exact absurd rfl hne
  | some a =>
    refine ⟨a, rfl, by_contra fun ha => hne ?_⟩
    simp [block, Std.ExtTreeMap.getElem?_eq_none ha]

namespace Apart

theorem refl (h : Heap ω) (p : Ptr) : h.Apart h p p := fun _ _ ha hne => ⟨hne, ha⟩

theorem trans (h₁ : h.Apart h' old mid) (h₂ : h'.Apart h'' mid new) : h.Apart h'' old new := by
  intro a bs ha hold
  obtain ⟨hmid, ha'⟩ := h₁ a bs ha hold
  exact h₂ a bs ha' hmid

/-- A pointer to another block points to the same bytes as before. -/
theorem other (hap : h.Apart h' old new) (hp : h.Live p) (hold : Separate p old) :
    h'.Live p ∧ h'.block p = h.block p ∧ Separate p new := by
  cases p with
  | none => exact ⟨live_none, rfl, fun _ ha => nomatch ha⟩
  | some a =>
    obtain ⟨hnew, ha⟩ := hap a _ hp.getElem? (hold a rfl)
    refine ⟨live_some.mpr (TreeMaps.mem_of_getElem? ha), block_of_getElem? ha, ?_⟩
    rintro b heq
    exact heq ▸ hnew

end Apart

/-- The block that was put in the heap last. -/
theorem block_insert (h' : Heap ω) {m : Blocks} (hb : h'.blocks = m.insert a bs) :
    h'.Live (some a) ∧ h'.block (some a) = bs := by
  have hget : h'.blocks[a]? = some bs := by rw [hb, TreeMaps.getElem?_insert, if_pos rfl]
  exact ⟨live_some.mpr (TreeMaps.mem_of_getElem? hget), block_of_getElem? hget⟩

/-- The other blocks when one takes the place of `old`. -/
theorem apart_insert {m : Blocks} (hb : h'.blocks = m.insert a bs) (hnew : old = some a ∨ a ∉ h.blocks)
    (hm : ∀ b cs, h.blocks[b]? = some cs → old ≠ some b → m[b]? = some cs) :
    h.Apart h' old (some a) := by
  intro b cs hget hne
  have hba : b ≠ a := by
    rintro rfl
    exact hnew.elim hne (fun hmem => hmem (TreeMaps.mem_of_getElem? hget))
  refine ⟨fun heq => hba (Option.some.inj heq).symm, ?_⟩
  rw [hb, TreeMaps.getElem?_insert, if_neg hba]
  exact hm b cs hget hne

theorem getElem?_erase_of_ne {b : ℕ} (hb : h.blocks[b]? = some bs) (hne : some a ≠ some b) :
    (h.blocks.erase a)[b]? = some bs := by
  rw [TreeMaps.getElem?_erase, if_neg (fun heq => hne (congrArg some heq.symm))]
  exact hb

theorem malloc_spec (A : Allocator ω) (h : Heap ω) (n : ℕ) :
    let r := h.malloc A n
    r.2.Live r.1 ∧ (r.2.block r.1).length = n ∧ h.Apart r.2 none r.1 ∧
      r.2.requests = n :: h.requests := by
  unfold malloc
  dsimp only
  cases hr : (A.malloc h.blocks n h.state).1 with
  | none =>
    have hn : n = 0 := by
      by_contra hne
      have hsome := A.malloc_isSome (m := h.blocks) (o := h.state) (Nat.pos_of_ne_zero hne)
      simp [hr] at hsome
    exact ⟨live_none, hn.symm, fun a bs ha _ => ⟨nofun, ha⟩, rfl⟩
  | some pl =>
    let h' : Heap ω := ⟨h.blocks.insert pl.addr (pl.fresh 0 n), n :: h.requests,
      (A.malloc h.blocks n h.state).2⟩
    obtain ⟨hlive, hblock⟩ := block_insert h' rfl
    refine ⟨hlive, ?_, apart_insert rfl (Or.inr (A.malloc_not_mem hr)) (fun _ _ hb _ => hb), rfl⟩
    rw [hblock, Placement.length_fresh]
    rfl

theorem realloc_spec (A : Allocator ω) (ha : h.Live (some a)) (n : ℕ) :
    ∃ p h', h.realloc A a n = some (p, h') ∧ h'.Live p ∧ (h'.block p).length = n ∧
      (h.block (some a)).take n <+: h'.block p ∧ h.Apart h' (some a) p ∧
      h'.requests = n :: h.requests := by
  cases hr : (A.realloc h.blocks a n h.state).1 with
  | none =>
    have hn : n = 0 := by
      by_contra hne
      have hsome := A.realloc_isSome (m := h.blocks) (p := a) (o := h.state) (Nat.pos_of_ne_zero hne)
      simp [hr] at hsome
    have hrun : h.realloc A a n = some (none, ⟨h.blocks.erase a, n :: h.requests,
        (A.realloc h.blocks a n h.state).2⟩) := by
      simp only [realloc, ha.getElem?, Option.bind_eq_bind, Option.bind_some, hr]
    refine ⟨none, _, hrun, live_none, hn.symm, by simp [hn], fun b cs hb hne => ?_, rfl⟩
    exact ⟨nofun, getElem?_erase_of_ne hb hne⟩
  | some pl =>
    let bs := (h.block (some a)).take n ++ pl.fresh (h.block (some a)).length n
    let h' : Heap ω := ⟨(h.blocks.erase a).insert pl.addr bs, n :: h.requests,
      (A.realloc h.blocks a n h.state).2⟩
    have hrun : h.realloc A a n = some (some pl.addr, h') := by
      simp only [realloc, ha.getElem?, Option.bind_eq_bind, Option.bind_some, hr, h', bs]
    obtain ⟨hlive, hblock⟩ := block_insert h' rfl
    refine ⟨some pl.addr, h', hrun, hlive, ?_, ?_, ?_, rfl⟩
    · rw [hblock, List.length_append, List.length_take, Placement.length_fresh]
      omega
    · rw [hblock]
      exact List.prefix_append _ _
    · refine apart_insert rfl ?_ (fun b cs hb hne => getElem?_erase_of_ne hb hne)
      rcases A.realloc_not_mem hr with hsame | hfresh
      · exact Or.inl (congrArg some hsame.symm)
      · exact Or.inr hfresh

theorem free_spec (ha : h.Live (some a)) :
    ∃ h', h.free a = some h' ∧ h.Apart h' (some a) none ∧ h'.requests = h.requests :=
  ⟨_, if_pos (live_some.mp ha), fun _ _ hb hne => ⟨nofun, getElem?_erase_of_ne hb hne⟩, rfl⟩

theorem load_spec {i n : ℕ} (hin : i + n ≤ (h.block p).length) :
    h.load p i n = some (((h.block p).drop i).take n) := by
  unfold load
  by_cases hn : n = 0
  · simp [hn]
  · rw [if_neg hn, if_pos hin]

theorem store_spec {i : ℕ} {xs : List UInt8} (hp : h.Live p)
    (hin : i + xs.length ≤ (h.block p).length) :
    ∃ h', h.store p i xs = some h' ∧ h'.Live p ∧ h'.block p = splice (h.block p) i xs ∧
      h.Apart h' p p ∧ h'.requests = h.requests := by
  by_cases hxs : xs = []
  · subst hxs
    exact ⟨h, if_pos rfl, hp, by simp [splice], Apart.refl h p, rfl⟩
  · have hpos := List.length_pos_iff.mpr hxs
    obtain ⟨a, rfl, ha⟩ := exists_of_block_ne_nil (h := h) (p := p) (by
      rw [← List.length_pos_iff]
      omega)
    let h' : Heap ω := { h with blocks := h.blocks.insert a (splice (h.block (some a)) i xs) }
    have hrun : h.store (some a) i xs = some h' := by
      rw [store, if_neg hxs, Option.bind_some, if_pos hin]
    obtain ⟨hlive, hblock⟩ := block_insert h' rfl
    refine ⟨h', hrun, hlive, hblock, ?_, rfl⟩
    exact apart_insert rfl (Or.inl rfl) (fun _ _ hb _ => hb)

theorem memmove_spec {i j n : ℕ} (hp : h.Live p) (hdst : i + n ≤ (h.block p).length)
    (hsrc : j + n ≤ (h.block q).length) :
    ∃ h', h.memmove p i q j n = some h' ∧ h'.Live p ∧
      h'.block p = splice (h.block p) i (((h.block q).drop j).take n) ∧ h.Apart h' p p ∧
      h'.requests = h.requests := by
  have hlen : (((h.block q).drop j).take n).length = n := by
    rw [List.length_take, List.length_drop]
    omega
  have hroom : i + (((h.block q).drop j).take n).length ≤ (h.block p).length := by
    rw [hlen]
    exact hdst
  obtain ⟨h', hstore, hrest⟩ := store_spec hp hroom
  refine ⟨h', ?_, hrest⟩
  rw [memmove, load_spec hsrc]
  exact hstore

theorem memcpy_spec {n : ℕ} (hp : h.Live p) (hpq : Separate p q) (hdst : n ≤ (h.block p).length)
    (hsrc : n ≤ (h.block q).length) :
    ∃ h', h.memcpy p q n = some h' ∧ h'.Live p ∧
      h'.block p = splice (h.block p) 0 ((h.block q).take n) ∧ h.Apart h' p p ∧
      h'.requests = h.requests := by
  have hne : ¬ (n ≠ 0 ∧ p = q) := by
    rintro ⟨hn, rfl⟩
    obtain ⟨a, rfl, _⟩ := exists_of_block_ne_nil (h := h) (p := p) (by
      rw [← List.length_pos_iff]
      omega)
    exact hpq a rfl rfl
  obtain ⟨h', hmove, hrest⟩ := memmove_spec (i := 0) (j := 0) (n := n) hp (by omega)
    (by rw [Nat.zero_add]; exact hsrc)
  refine ⟨h', by rw [memcpy, if_neg hne, hmove], ?_⟩
  rwa [List.drop_zero] at hrest

end Heap
end BlockHeap
