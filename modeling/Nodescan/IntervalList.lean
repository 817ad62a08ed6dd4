import Mathlib.Order.Interval.Finset.Nat
import Mathlib.Tactic

/-!
# Lists of intervals that are compacted now and then

A list of intervals of numbers counts its elements by the sum of the widths. Where intervals
overlap that sum is too large, and an aggregation, which keeps the elements and leaves no two
intervals that overlap, can only lower it. A list built of single numbers and aggregated at any
time therefore counts exactly, if no number was added twice.
-/

namespace IntervalList

structure Interval where
  lo : ℕ
  hi : ℕ
  lo_lt : lo < hi

namespace Interval

/-- The interval of one number. -/
def point (n : ℕ) : Interval := ⟨n, n + 1, n.lt_succ_self⟩

def width (i : Interval) : ℕ := i.hi - i.lo

def elements (i : Interval) : Finset ℕ := Finset.Ico i.lo i.hi

@[simp] theorem width_point (n : ℕ) : (point n).width = 1 := Nat.add_sub_cancel_left n 1

@[simp] theorem elements_point (n : ℕ) : (point n).elements = {n} := Nat.Ico_succ_singleton n

@[simp] theorem card_elements (i : Interval) : i.elements.card = i.width := Nat.card_Ico i.lo i.hi

/-- The least interval around both. -/
def hull (i j : Interval) : Interval where
  lo := min i.lo j.lo
  hi := max i.hi j.hi
  lo_lt := (min_le_left _ _).trans_lt (i.lo_lt.trans_le (le_max_left _ _))

/-- Where no number lies between them, the hull has no others. -/
theorem elements_hull {i j : Interval} (hij : j.lo ≤ i.hi) (hji : i.lo ≤ j.hi) :
    (hull i j).elements = i.elements ∪ j.elements :=
  (Finset.Ico_union_Ico' hij hji).symm

end Interval

def elements : List Interval → Finset ℕ
  | [] => ∅
  | i :: l => i.elements ∪ elements l

def size (l : List Interval) : ℕ := (l.map Interval.width).sum

/-- In order, with a gap between any two of them. -/
def Aggregated (l : List Interval) : Prop := l.Pairwise (fun i j => i.hi < j.lo)

variable {l l' : List Interval} {i : Interval}

theorem elements_append : elements (l ++ l') = elements l ∪ elements l' := by
  induction l with
  | nil => simp [elements]
  | cons i l ih => rw [List.cons_append, elements, ih, elements, Finset.union_assoc]

theorem mem_elements {n : ℕ} : n ∈ elements l ↔ ∃ i ∈ l, i.lo ≤ n ∧ n < i.hi := by
  induction l with
  | nil => simp [elements]
  | cons i l ih => simp [elements, Interval.elements, ih]

theorem card_elements_le (l : List Interval) : (elements l).card ≤ size l := by
  induction l with
  | nil => simp [elements, size]
  | cons i l ih =>
    have hunion := Finset.card_union_le i.elements (elements l)
    simp only [elements, size, List.map_cons, List.sum_cons, Interval.card_elements] at hunion ih ⊢
    omega

theorem card_elements (h : Aggregated l) : (elements l).card = size l := by
  induction l with
  | nil => simp [elements, size]
  | cons i l ih =>
    obtain ⟨hi, hl⟩ := List.pairwise_cons.mp h
    have hdisjoint : Disjoint i.elements (elements l) := by
      rw [Finset.disjoint_left]
      intro n hn hmem
      obtain ⟨j, hj, hlo, _⟩ := mem_elements.mp hmem
      have hlt : i.hi < j.lo := hi j hj
      have hn' : n < i.hi := (Finset.mem_Ico.mp hn).2
      omega
    rw [elements, Finset.card_union_of_disjoint hdisjoint, ih hl, Interval.card_elements]
    simp [size]

/-- An aggregation: the elements stay, and what overlaps or is adjacent becomes one interval. -/
structure Aggregation where
  aggregate : List Interval → List Interval
  elements_eq : ∀ l, elements (aggregate l) = elements l
  aggregated : ∀ l, Aggregated (aggregate l)

theorem Aggregation.size_le (agg : Aggregation) (l : List Interval) :
    size (agg.aggregate l) ≤ size l := by
  rw [← card_elements (agg.aggregated l), agg.elements_eq]
  exact card_elements_le l

/-- The number `n` is added, and a list of more than `limit` intervals is aggregated. -/
def add (agg : Aggregation) (limit : ℕ) (l : List Interval) (n : ℕ) : List Interval :=
  let l := l ++ [.point n]
  if limit < l.length then agg.aggregate l else l

variable (agg : Aggregation) (limit : ℕ)

theorem elements_add (l : List Interval) (n : ℕ) :
    elements (add agg limit l n) = insert n (elements l) := by
  have happend : elements (l ++ [.point n]) = insert n (elements l) := by
    rw [elements_append, Finset.insert_eq, Finset.union_comm]
    simp [elements]
  dsimp only [add]
  split_ifs
  · rw [agg.elements_eq, happend]
  · exact happend

theorem size_add_le (l : List Interval) (n : ℕ) : size (add agg limit l n) ≤ size l + 1 := by
  have happend : size (l ++ [.point n]) = size l + 1 := by simp [size]
  dsimp only [add]
  split_ifs
  · exact happend ▸ agg.size_le _
  · exact happend.le

/-- However often the list is aggregated, its size is at most the number of the additions, and at
least the number of the numbers added. -/
theorem size_foldl_add (l : List Interval) (ns : List ℕ) :
    elements (ns.foldl (add agg limit) l) = ns.toFinset ∪ elements l ∧
      size (ns.foldl (add agg limit) l) ≤ size l + ns.length := by
  induction ns generalizing l with
  | nil => simp
  | cons n ns ih =>
    obtain ⟨helements, hsize⟩ := ih (add agg limit l n)
    have hadd := size_add_le agg limit l n
    constructor
    · rw [List.foldl_cons, helements, elements_add, List.toFinset_cons, Finset.union_insert,
        Finset.insert_union]
    · rw [List.foldl_cons, List.length_cons]
      omega

theorem size_of_nodup {ns : List ℕ} (h : ns.Nodup) :
    size (ns.foldl (add agg limit) []) = ns.length := by
  obtain ⟨helements, hsize⟩ := size_foldl_add agg limit [] ns
  have hcard := card_elements_le (ns.foldl (add agg limit) [])
  rw [helements, elements, Finset.union_empty, List.toFinset_card_of_nodup h] at hcard
  simp only [size, List.map_nil, List.sum_nil, Nat.zero_add] at hsize hcard ⊢
  omega

/-- The interval `i` put in its place, with all it touches made one. -/
def insertMerged (i : Interval) : List Interval → List Interval
  | [] => [i]
  | j :: l =>
    if i.hi < j.lo then i :: j :: l
    else if j.hi < i.lo then j :: insertMerged i l
    else insertMerged (i.hull j) l

theorem elements_insertMerged (i : Interval) (l : List Interval) :
    elements (insertMerged i l) = i.elements ∪ elements l := by
  induction l generalizing i with
  | nil => rfl
  | cons j l ih =>
    unfold insertMerged
    split_ifs with hij hji
    · rfl
    · rw [elements, ih, elements, Finset.union_left_comm]
    · rw [ih, Interval.elements_hull (Nat.not_lt.mp hij) (Nat.not_lt.mp hji), elements,
        Finset.union_assoc]

theorem lt_of_mem_insertMerged {b : ℕ} {x : Interval} (hi : b < i.lo) (hl : ∀ j ∈ l, b < j.lo)
    (hx : x ∈ insertMerged i l) : b < x.lo := by
  induction l generalizing i with
  | nil => rwa [List.mem_singleton.mp hx]
  | cons j l ih =>
    have hj : b < j.lo := hl j (by simp)
    have hl' : ∀ k ∈ l, b < k.lo := fun k hk => hl k (by simp [hk])
    unfold insertMerged at hx
    split_ifs at hx with hij hji
    · rcases List.mem_cons.mp hx with rfl | hmem
      · exact hi
      · exact hl x hmem
    · rcases List.mem_cons.mp hx with rfl | hmem
      · exact hj
      · exact ih hi hl' hmem
    · exact ih (lt_min hi hj) hl' hx

theorem insertMerged_aggregated (h : Aggregated l) : Aggregated (insertMerged i l) := by
  induction l generalizing i with
  | nil => exact List.pairwise_singleton _ i
  | cons j l ih =>
    obtain ⟨hj, hl⟩ := List.pairwise_cons.mp h
    unfold insertMerged
    split_ifs with hij hji
    · refine List.pairwise_cons.mpr ⟨fun x hx => ?_, h⟩
      rcases List.mem_cons.mp hx with rfl | hmem
      · exact hij
      · exact (hij.trans j.lo_lt).trans (hj x hmem)
    · exact List.pairwise_cons.mpr ⟨fun x hx => lt_of_mem_insertMerged hji hj hx, ih hl⟩
    · exact ih hl

/-- Aggregation by one insertion after the other. -/
def Aggregation.byInsertion : Aggregation where
  aggregate l := l.foldr insertMerged []
  elements_eq l := by
    induction l with
    | nil => rfl
    | cons i l ih => rw [List.foldr_cons, elements_insertMerged, ih, elements]
  aggregated l := by
    induction l with
    | nil => exact List.Pairwise.nil
    | cons i l ih => exact insertMerged_aggregated ih

end IntervalList
