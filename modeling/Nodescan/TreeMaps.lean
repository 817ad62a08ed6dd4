import Mathlib.Tactic

/-!
# Lookups in maps with lawful keys

The lookups of the standard library's extensional tree maps compare keys with `compare`. For keys
whose comparison is equality they are restated with equality, which is how the states of a program
are read.
-/

namespace TreeMaps

variable {α β : Type} [Ord α] [Std.TransOrd α]

theorem mem_of_getElem? {m : Std.ExtTreeMap α β} {a : α} {v : β} (h : m[a]? = some v) :
    a ∈ m := by
  rw [Std.ExtTreeMap.mem_iff_isSome_getElem?, h]
  rfl

theorem not_mem_of_getElem? {m : Std.ExtTreeMap α β} {a : α} (h : m[a]? = none) : a ∉ m := by
  rw [Std.ExtTreeMap.mem_iff_isSome_getElem?, h]
  simp

variable [Std.LawfulEqOrd α]

omit [Std.TransOrd α] in
theorem compare_eq_iff {k a : α} : compare k a = .eq ↔ a = k := by
  rw [Std.LawfulEqOrd.compare_eq_iff_eq, eq_comm]

theorem mem_insert (m : Std.ExtTreeMap α β) (k a : α) (v : β) :
    a ∈ m.insert k v ↔ a = k ∨ a ∈ m := by
  rw [Std.ExtTreeMap.mem_insert, compare_eq_iff]

theorem mem_insertIfNew (m : Std.ExtTreeMap α β) (k a : α) (v : β) :
    a ∈ m.insertIfNew k v ↔ a = k ∨ a ∈ m := by
  rw [Std.ExtTreeMap.mem_insertIfNew, compare_eq_iff]

theorem mem_erase (m : Std.ExtTreeMap α β) (k a : α) : a ∈ m.erase k ↔ a ≠ k ∧ a ∈ m := by
  rw [Std.ExtTreeMap.mem_erase, ne_eq, compare_eq_iff, ne_eq]

/-- Maps with the same keys have the same size. -/
theorem size_congr {γ : Type} {m : Std.ExtTreeMap α β} {m' : Std.ExtTreeMap α γ}
    (h : ∀ a, a ∈ m ↔ a ∈ m') : m.size = m'.size := by
  have hp : m.keys.Perm m'.keys := by
    apply (List.perm_ext_iff_of_nodup m.nodup_keys m'.nodup_keys).mpr
    intro a
    rw [Std.ExtTreeMap.mem_keys, Std.ExtTreeMap.mem_keys, h]
  rw [← Std.ExtTreeMap.length_keys, ← Std.ExtTreeMap.length_keys, hp.length_eq]

variable [DecidableEq α] (m : Std.ExtTreeMap α β) (k a : α) (v : β)

theorem getElem?_insert : (m.insert k v)[a]? = if a = k then some v else m[a]? := by
  rw [Std.ExtTreeMap.getElem?_insert]
  simp only [compare_eq_iff]

theorem getElem?_erase : (m.erase k)[a]? = if a = k then none else m[a]? := by
  rw [Std.ExtTreeMap.getElem?_erase]
  simp only [compare_eq_iff]

theorem getElem?_modify (f : β → β) :
    (m.modify k f)[a]? = if a = k then m[k]?.map f else m[a]? := by
  rw [Std.ExtTreeMap.getElem?_modify]
  simp only [compare_eq_iff]

theorem getElem?_insertIfNew :
    (m.insertIfNew k v)[a]? = if a = k then some (m[k]?.getD v) else m[a]? := by
  rw [Std.ExtTreeMap.getElem?_insertIfNew]
  simp only [compare_eq_iff]
  by_cases h : a = k
  · subst h
    by_cases hm : a ∈ m
    · simp [hm]
    · simp [hm]
  · simp [h]

theorem insertIfNew_of_mem (h : k ∈ m) : m.insertIfNew k v = m := by
  ext a
  rw [getElem?_insertIfNew]
  split_ifs with ha
  · rw [ha, Std.ExtTreeMap.getElem?_eq_some_getElem h, Option.getD_some]
  · rfl

theorem insertIfNew_of_not_mem (h : k ∉ m) : m.insertIfNew k v = m.insert k v := by
  ext a
  rw [getElem?_insertIfNew, getElem?_insert, Std.ExtTreeMap.getElem?_eq_none h, Option.getD_none]

/-- `m'` is `m` with its keys renamed by `π`. -/
def Renamed (π : Equiv.Perm α) (m m' : Std.ExtTreeMap α β) : Prop := ∀ a, m'[π a]? = m[a]?

namespace Renamed

variable {π : Equiv.Perm α} {m m' : Std.ExtTreeMap α β}

omit [Std.LawfulEqOrd α] [DecidableEq α] in
theorem mem_iff (h : Renamed π m m') (a : α) : π a ∈ m' ↔ a ∈ m := by
  rw [Std.ExtTreeMap.mem_iff_isSome_getElem?, Std.ExtTreeMap.mem_iff_isSome_getElem?, h]

theorem insert (h : Renamed π m m') (k : α) (v : β) :
    Renamed π (m.insert k v) (m'.insert (π k) v) := by
  intro a
  simp only [getElem?_insert, π.apply_eq_iff_eq, h a]

theorem erase (h : Renamed π m m') (k : α) : Renamed π (m.erase k) (m'.erase (π k)) := by
  intro a
  simp only [getElem?_erase, π.apply_eq_iff_eq, h a]

theorem modify (h : Renamed π m m') (k : α) (f : β → β) :
    Renamed π (m.modify k f) (m'.modify (π k) f) := by
  intro a
  simp only [getElem?_modify, π.apply_eq_iff_eq, h a, h k]

theorem insertIfNew (h : Renamed π m m') (k : α) (v : β) :
    Renamed π (m.insertIfNew k v) (m'.insertIfNew (π k) v) := by
  intro a
  simp only [getElem?_insertIfNew, π.apply_eq_iff_eq, h a, h k]

omit [Std.LawfulEqOrd α] in
/-- A map is its own renaming by an exchange of two keys it does not have. -/
theorem swap {a b : α} (ha : m[a]? = none) (hb : m[b]? = none) :
    Renamed (Equiv.swap a b) m m := by
  intro k
  by_cases hka : k = a
  · rw [hka, Equiv.swap_apply_left, ha, hb]
  by_cases hkb : k = b
  · rw [hkb, Equiv.swap_apply_right, ha, hb]
  rw [Equiv.swap_apply_of_ne_of_ne hka hkb]

end Renamed
end TreeMaps
