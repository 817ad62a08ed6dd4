import Nodescan.SortedSet
import Nodescan.TargetSets

/-!
# Changes to a `SimpleTargetSet` during a scan

Callbacks may add and remove targets while the engine takes them, with one iterator for the
position. The iterator stands for what has been handed out as long as every new target lands behind
it. Three things break this: a target added before the iterator is never returned, an iterator at
the end is set back to whatever is added, and the end mark may itself be an element.
-/

namespace Nodescan

/-- `Target::operator<`. -/
def Target.Lt (code : PortCode) (t t' : Target) : Prop :=
  if t.ipv4 = t'.ipv4 then code.asU32 t.port < code.asU32 t'.port else t.ipv4 < t'.ipv4

instance (code : PortCode) : DecidableRel (Target.Lt code) := fun t t' =>
  inferInstanceAs (Decidable
    (if t.ipv4 = t'.ipv4 then code.asU32 t.port < code.asU32 t'.port else t.ipv4 < t'.ipv4))

theorem Target.lt_iff (code : PortCode) (t t' : Target) :
    t.Lt code t' ↔ t.ipv4.toNat < t'.ipv4.toNat ∨
      (t.ipv4.toNat = t'.ipv4.toNat ∧
        (code.asU32 t.port).toNat < (code.asU32 t'.port).toNat) := by
  unfold Target.Lt
  split_ifs with heq
  · simp [heq, UInt32.lt_iff_toNat_lt]
  · have hne : t.ipv4.toNat ≠ t'.ipv4.toNat := fun h => heq (UInt32.toNat_inj.mp h)
    simp [hne, UInt32.lt_iff_toNat_lt]

instance (code : PortCode) : IsStrictTotalOrder Target (Target.Lt code) where
  irrefl := by
    intro t
    rw [Target.lt_iff]
    omega
  trans := by
    intro t t' t''
    simp only [Target.lt_iff]
    omega
  trichotomous := by
    intro t t' h h'
    rw [Target.lt_iff] at h h'
    have hip : t.ipv4.toNat = t'.ipv4.toNat := by omega
    have hport : (code.asU32 t.port).toNat = (code.asU32 t'.port).toNat := by omega
    obtain ⟨ip, port⟩ := t
    obtain ⟨ip', port'⟩ := t'
    rw [Target.mk.injEq]
    exact ⟨UInt32.toNat_inj.mp hip, code.injective (UInt32.toNat_inj.mp hport)⟩

namespace SimpleTargetSet

variable (code : PortCode)

/-- `add_target`: `std::set::insert`, and an iterator at the end is set to the element that was
inserted or found. -/
def addTarget (t : Target) (ts : SimpleTargetSet) : SimpleTargetSet :=
  let targets := SortedSet.insert (Target.Lt code) t ts.targets
  match ts.it with
  | [] => ⟨targets, SortedSet.iteratorAt (Target.Lt code) t targets⟩
  | x :: _ => ⟨targets, SortedSet.iteratorAt (Target.Lt code) x targets⟩

/-- `remove_target`: an iterator at the target goes to the next one first. -/
def removeTarget (t : Target) (ts : SimpleTargetSet) : SimpleTargetSet :=
  if t ∈ ts.targets then
    ⟨ts.targets.erase t, if ts.it.head? = some t then ts.it.tail else ts.it.erase t⟩
  else ts

/-- A set in use, with the targets of it that were returned since they were last added, or since
`init()`. -/
structure Scan where
  set : SimpleTargetSet
  handed : Finset Target

inductive Change
  | add (t : Target)
  | remove (t : Target)
  | next
  deriving DecidableEq

namespace Scan

def start (ts : SimpleTargetSet) : Scan := ⟨ts.init, ∅⟩

def step (s : Scan) : Change → Scan
  | .add t =>
    ⟨s.set.addTarget code t, if t ∈ s.set.targets then s.handed else s.handed.erase t⟩
  | .remove t => ⟨s.set.removeTarget t, s.handed.erase t⟩
  | .next => ⟨s.set.nextTarget.2, insert s.set.nextTarget.1 s.handed⟩

/-- `P` holds of every change of a run, in the state it is made in. -/
def Along (P : Scan → Change → Prop) : Scan → List Change → Prop
  | _, [] => True
  | s, c :: cs => P s c ∧ Along P (s.step code c) cs

/-- The answer of `next_target`: a target of the set that was not handed out yet, or the end, with
all of the set handed out. -/
def AnswersRight (s : Scan) : Prop :=
  (s.set.nextTarget.1 ≠ .endMark →
    s.set.nextTarget.1 ∈ s.set.targets ∧ s.set.nextTarget.1 ∉ s.handed) ∧
  (s.set.nextTarget.1 = .endMark → ∀ t ∈ s.set.targets, t ≠ .endMark → t ∈ s.handed)

def RightAt (s : Scan) (c : Change) : Prop := c = .next → s.AnswersRight

/-- A target is added behind the iterator, or is there already and the iterator not at the end; the
end mark is not returned with targets behind it. -/
def Orderly (s : Scan) : Change → Prop
  | .add t => (s.set.it = [] → ∀ x ∈ s.set.targets, x.Lt code t) ∧
      ∀ x ∈ s.set.it.head?, t ∈ s.set.targets ∨ x.Lt code t
  | .remove _ => True
  | .next => s.set.it.head? = some .endMark → s.set.it.tail = []

instance (s : Scan) : DecidablePred (s.Orderly code)
  | .add t => inferInstanceAs (Decidable ((s.set.it = [] → ∀ x ∈ s.set.targets, x.Lt code t) ∧
      ∀ x ∈ s.set.it.head?, t ∈ s.set.targets ∨ x.Lt code t))
  | .remove _ => isTrue trivial
  | .next => inferInstanceAs (Decidable (s.set.it.head? = some .endMark → s.set.it.tail = []))

/-- The iterator parts the set into what was handed out and what was not. -/
structure Tracks (s : Scan) : Prop where
  sorted : s.set.targets.Pairwise (Target.Lt code)
  parted : ∃ front, s.set.targets = front ++ s.set.it ∧
    ∀ t ∈ s.set.targets, t ∈ s.handed ↔ t ∈ front

variable {code} {s : Scan}

theorem start_tracks {ts : SimpleTargetSet} (h : ts.targets.Pairwise (Target.Lt code)) :
    (start ts).Tracks code where
  sorted := h
  parted := ⟨[], rfl, by simp [start]⟩

/-- What was handed out stands before everything that is not. -/
theorem lt_of_parted {front : List Target} {x : Target} {rest : List Target}
    (hs : (front ++ x :: rest).Pairwise (Target.Lt code)) : ∀ t ∈ front, t.Lt code x :=
  fun t ht => (List.pairwise_append.mp hs).2.2 t ht x (by simp)

theorem add_at_end {t : Target} (h : s.Tracks code) (hit : s.set.it = [])
    (hlast : ∀ x ∈ s.set.targets, x.Lt code t) : (s.step code (.add t)).Tracks code := by
  have hnew : t ∉ s.set.targets := fun ht => irrefl_of (Target.Lt code) t (hlast t ht)
  obtain ⟨front, hparted, hhanded⟩ := h.parted
  have htargets : SortedSet.insert (Target.Lt code) t s.set.targets = s.set.targets ++ [t] := by
    have happ := SortedSet.insert_append (l := []) hlast
    rwa [List.append_nil] at happ
  have hset : s.set.addTarget code t = ⟨s.set.targets ++ [t], [t]⟩ := by
    simp only [addTarget, hit, htargets, SortedSet.iteratorAt_append hlast]
  rw [step, hset, if_neg hnew]
  refine ⟨?_, s.set.targets, rfl, fun y hy => ?_⟩
  · rw [← htargets]
    exact SortedSet.pairwise_insert h.sorted
  · rw [hit, List.append_nil] at hparted
    rcases List.mem_append.mp hy with hmem | hmem
    · have hne : y ≠ t := fun heq => hnew (heq ▸ hmem)
      simp [hmem, hne, hhanded y hmem, ← hparted]
    · rw [List.mem_singleton.mp hmem]
      simp [hnew]

theorem add_at_target {t x : Target} {rest : List Target} (h : s.Tracks code)
    (hit : s.set.it = x :: rest) (hbehind : t ∈ s.set.targets ∨ x.Lt code t) :
    (s.step code (.add t)).Tracks code := by
  obtain ⟨front, hparted, hhanded⟩ := h.parted
  rw [hit] at hparted
  have hsorted := h.sorted
  rw [hparted] at hsorted
  have hfront : ∀ y ∈ front, y.Lt code x := lt_of_parted hsorted
  have hinsert : (SortedSet.insert (Target.Lt code) t s.set.targets).Pairwise (Target.Lt code) :=
    SortedSet.pairwise_insert h.sorted
  by_cases ht : t ∈ s.set.targets
  · have hset : s.set.addTarget code t = s.set := by
      simp only [addTarget, hit, SortedSet.insert_of_mem h.sorted ht]
      rw [hparted, SortedSet.iteratorAt_append hfront, ← hparted, ← hit]
    rw [step, hset, if_pos ht]
    exact h
  · have hx : x.Lt code t := hbehind.resolve_left ht
    have htargets : SortedSet.insert (Target.Lt code) t s.set.targets =
        front ++ x :: SortedSet.insert (Target.Lt code) t rest := by
      have hall : ∀ y ∈ front ++ [x], y.Lt code t := by
        intro y hy
        rcases List.mem_append.mp hy with hmem | hmem
        · exact trans_of (Target.Lt code) (hfront y hmem) hx
        · rwa [List.mem_singleton.mp hmem]
      rw [hparted, List.append_cons, SortedSet.insert_append hall, List.append_assoc]
      rfl
    have hset : s.set.addTarget code t = ⟨front ++ x :: SortedSet.insert (Target.Lt code) t rest,
        x :: SortedSet.insert (Target.Lt code) t rest⟩ := by
      simp only [addTarget, hit, htargets, SortedSet.iteratorAt_append hfront]
    rw [step, hset, if_neg ht]
    refine ⟨by rwa [htargets] at hinsert, front, rfl, fun y hy => ?_⟩
    by_cases hy' : y = t
    · have hnot : t ∉ front := fun hmem => ht (by simp [hparted, hmem])
      simp [hy', hnot]
    · have hmem : y ∈ s.set.targets := by
        simp only [← htargets, SortedSet.mem_insert] at hy
        exact hy.resolve_left hy'
      simp [hy', hhanded y hmem]

theorem removeTarget_of_mem {t : Target} {ts : SimpleTargetSet} (ht : t ∈ ts.targets) :
    ts.removeTarget t = ⟨ts.targets.erase t, ts.it.erase t⟩ := by
  rw [removeTarget, if_pos ht]
  split_ifs with hhead
  · obtain ⟨rest, hit⟩ := List.head?_eq_some_iff.mp hhead
    rw [hit, List.erase_cons_head]
    rfl
  · rfl

theorem remove_tracks (t : Target) (h : s.Tracks code) : (s.step code (.remove t)).Tracks code := by
  obtain ⟨front, hparted, hhanded⟩ := h.parted
  have hnodup : s.set.targets.Nodup := h.sorted.imp (fun hlt heq => by
    subst heq
    exact irrefl_of (Target.Lt code) _ hlt)
  by_cases ht : t ∈ s.set.targets
  · rw [step, removeTarget_of_mem ht]
    refine ⟨h.sorted.erase t, front.erase t, ?_, fun y hy => ?_⟩
    · -- `t` stands on one side of the iterator only
      rw [hparted] at ht hnodup ⊢
      rcases List.mem_append.mp ht with hfront | hit
      · have hnot : t ∉ s.set.it := fun hmem => (List.nodup_append.mp hnodup).2.2 t hfront t hmem rfl
        rw [List.erase_append_left _ hfront, List.erase_of_not_mem hnot]
      · have hnot : t ∉ front := fun hmem => (List.nodup_append.mp hnodup).2.2 t hmem t hit rfl
        rw [List.erase_append_right _ hnot, List.erase_of_not_mem hnot]
    · obtain ⟨hne, hmem⟩ := hnodup.mem_erase_iff.mp hy
      rw [Finset.mem_erase, hhanded y hmem, List.mem_erase_of_ne hne]
      exact and_iff_right hne
  · have hset : s.set.removeTarget t = s.set := by rw [removeTarget, if_neg ht]
    rw [step, hset]
    refine ⟨h.sorted, front, hparted, fun y hy => ?_⟩
    have hne : y ≠ t := fun heq => ht (heq ▸ hy)
    rw [Finset.mem_erase, hhanded y hy]
    exact and_iff_right hne

theorem next_tracks (h : s.Tracks code) : (s.step code .next).Tracks code := by
  obtain ⟨front, hparted, hhanded⟩ := h.parted
  cases hit : s.set.it with
  | nil =>
    have hset : s.set.nextTarget = (.endMark, s.set) := by simp [nextTarget, hit]
    rw [step, hset]
    refine ⟨h.sorted, front, hparted, fun t ht => ?_⟩
    rw [hit, List.append_nil] at hparted
    have hfront : t ∈ front := hparted ▸ ht
    simp [hhanded t ht, hfront]
  | cons x rest =>
    have hset : s.set.nextTarget = (x, { s.set with it := rest }) := by simp [nextTarget, hit]
    rw [step, hset]
    refine ⟨h.sorted, front ++ [x], by simp [hparted, hit], fun t ht => ?_⟩
    rw [Finset.mem_insert, hhanded t ht, List.mem_append, List.mem_singleton, or_comm]

theorem step_tracks {c : Change} (h : s.Tracks code) (hc : s.Orderly code c) :
    (s.step code c).Tracks code := by
  cases c with
  | add t =>
    cases hit : s.set.it with
    | nil => exact add_at_end h hit (by simpa [Orderly, hit] using hc)
    | cons x rest => exact add_at_target h hit (by simpa [Orderly, hit] using hc)
  | remove t => exact remove_tracks t h
  | next => exact next_tracks h

theorem rightAt_of_tracks {c : Change} (h : s.Tracks code) (hc : s.Orderly code c) :
    s.RightAt c := by
  rintro rfl
  obtain ⟨front, hparted, hhanded⟩ := h.parted
  cases hit : s.set.it with
  | nil =>
    rw [hit, List.append_nil] at hparted
    simp only [AnswersRight, nextTarget, hit]
    exact ⟨by simp, fun _ t ht _ => (hhanded t ht).mpr (hparted ▸ ht)⟩
  | cons x rest =>
    have hmem : x ∈ s.set.targets := by simp [hparted, hit]
    have hsorted := h.sorted
    rw [hparted, hit] at hsorted
    simp only [AnswersRight, nextTarget, hit]
    refine ⟨fun _ => ⟨hmem, fun hx => ?_⟩, fun hend t ht hne => ?_⟩
    · -- it was handed out, so it would stand before itself
      have hfront : x ∈ front := (hhanded x hmem).mp hx
      exact irrefl_of (Target.Lt code) x (lt_of_parted hsorted x hfront)
    · have hlast : rest = [] := by simpa [Orderly, hit, hend] using hc
      rw [hparted, hit, hlast, List.mem_append, List.mem_singleton, hend] at ht
      exact (hhanded t (by simp [hparted, ht.resolve_right hne])).mpr (ht.resolve_right hne)

/-- Along every run of changes: if each of them is orderly, no target that stayed in the set is
returned twice, none is returned while it is not in the set, and the end is answered only when all
of the set was returned. -/
theorem answers_right (code : PortCode) (ts : SimpleTargetSet)
    (hts : ts.targets.Pairwise (Target.Lt code)) (cs : List Change)
    (h : Along code (Orderly code) (start ts) cs) : Along code RightAt (start ts) cs := by
  have hrun : ∀ s : Scan, s.Tracks code → Along code (Orderly code) s cs →
      Along code RightAt s cs := by
    clear h
    induction cs with
    | nil => exact fun _ _ _ => trivial
    | cons c cs ih =>
      rintro s hs ⟨hc, hcs⟩
      exact ⟨rightAt_of_tracks hs hc, ih _ (step_tracks hs hc) hcs⟩
  exact hrun _ (start_tracks hts) h

/-- Port 80 of the address `n`. -/
def web (n : UInt32) : Target := ⟨n, ⟨80, .tcp⟩⟩

theorem answers_right_growing :
    Along .packed RightAt (start ⟨[web 1, web 2], []⟩)
      [.next, .add (web 3), .next, .remove (web 1), .add (web 3), .next, .next] :=
  answers_right .packed ⟨[web 1, web 2], []⟩ (by decide)
    [.next, .add (web 3), .next, .remove (web 1), .add (web 3), .next, .next]
    ⟨by decide, by decide, by decide, by decide, by decide, by decide, by decide, trivial⟩

/-- A target added before the iterator is not returned; one added again at the end of the scan is
returned again. -/
theorem late_targets_mishandled :
    ¬ Along .packed RightAt (start ⟨[web 2, web 3], []⟩) [.next, .add (web 1), .next, .next] ∧
      ¬ Along .packed RightAt (start ⟨[web 1], []⟩) [.next, .add (web 1), .next] := by
  constructor
  · rintro ⟨_, _, _, hend, _⟩
    have hhanded := (hend rfl).2 (by decide) (web 1) (by decide) (by decide)
    exact absurd hhanded (by decide)
  · rintro ⟨_, _, hagain, _⟩
    have hnew := ((hagain rfl).1 (by decide)).2
    exact hnew (by decide)

end Scan
end SimpleTargetSet
end Nodescan
