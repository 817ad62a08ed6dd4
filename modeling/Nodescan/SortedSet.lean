import Mathlib.Order.Defs.Unbundled
import Mathlib.Tactic

/-!
# An ordered set with an iterator

An ordered set is the list of its elements in the order of `r`, and an iterator into it is the list
of the elements from where it stands on. An insertion leaves an iterator on its element; the lemmas
say where the new element then is, seen from the iterator.
-/

namespace SortedSet

variable {α : Type} (r : α → α → Prop) [DecidableRel r]

def insert (a : α) : List α → List α
  | [] => [a]
  | b :: l => if r a b then a :: b :: l else if r b a then b :: insert a l else b :: l

/-- The iterator at the element `a`. -/
def iteratorAt (a : α) (l : List α) : List α := l.dropWhile (fun b => r b a)

variable {r} [IsStrictTotalOrder α r] {a : α} {l front : List α}

theorem mem_insert {x : α} : x ∈ insert r a l ↔ x = a ∨ x ∈ l := by
  induction l with
  | nil => simp [insert]
  | cons b l ih =>
    rw [insert]
    split_ifs with hab hba
    · simp
    · rw [List.mem_cons, ih, List.mem_cons, or_left_comm]
    · -- neither is before the other
      have heq : a = b := (trichotomous_of r a b).resolve_left hab |>.resolve_right hba
      simp [heq]

theorem pairwise_insert (h : l.Pairwise r) : (insert r a l).Pairwise r := by
  induction l with
  | nil => simp [insert]
  | cons b l ih =>
    obtain ⟨hb, hl⟩ := List.pairwise_cons.mp h
    rw [insert]
    split_ifs with hab hba
    · refine List.pairwise_cons.mpr ⟨fun x hx => ?_, h⟩
      rcases List.mem_cons.mp hx with rfl | hx
      · exact hab
      · exact trans_of r hab (hb x hx)
    · refine List.pairwise_cons.mpr ⟨fun x hx => ?_, ih hl⟩
      rcases mem_insert.mp hx with rfl | hx
      · exact hba
      · exact hb x hx
    · exact h

/-- What stands before the new element stays where it is. -/
theorem insert_append (h : ∀ b ∈ front, r b a) : insert r a (front ++ l) = front ++ insert r a l := by
  induction front with
  | nil => rfl
  | cons b front ih =>
    have hb : r b a := h b (by simp)
    rw [List.cons_append, insert, if_neg (asymm_of r hb), if_pos hb,
      ih (fun c hc => h c (by simp [hc])), List.cons_append]

theorem insert_of_mem (h : l.Pairwise r) (ha : a ∈ l) : insert r a l = l := by
  obtain ⟨front, back, rfl⟩ := List.append_of_mem ha
  have hfront : ∀ b ∈ front, r b a := fun b hb =>
    (List.pairwise_append.mp h).2.2 b hb a (by simp)
  rw [insert_append hfront, insert, if_neg (irrefl_of r a), if_neg (irrefl_of r a)]

theorem iteratorAt_append (h : ∀ b ∈ front, r b a) : iteratorAt r a (front ++ a :: l) = a :: l := by
  rw [iteratorAt, List.dropWhile_append_of_pos (by simpa using h),
    List.dropWhile_cons_of_neg (by simpa using irrefl_of r a)]

end SortedSet
