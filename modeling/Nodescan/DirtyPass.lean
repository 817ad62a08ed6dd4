import Nodescan.EngineRuns

/-!
# The dirty and timeout pass

The pass fills two work lists in one loop and works them off in two others. A socket is on each
list at most once.
-/

namespace Nodescan

open FaultM EngineM

variable {ω F : Type}

/-- The calls of `socket_finished`, the latest first. -/
def finishCalls (log : List (Event F)) : List Fd :=
  log.filterMap fun
    | .socketFinished s => some s
    | _ => none

theorem finishCalls_append (l l' : List (Event F)) :
    finishCalls (l ++ l') = finishCalls l ++ finishCalls l' :=
  List.filterMap_append

theorem finishCalls_quiet {l : List (Event F)} (h : ∀ ev ∈ l, ev.isQuiet = true) :
    finishCalls l = [] := by
  apply List.filterMap_eq_nil_iff.mpr
  intro ev hev
  have hq := h ev hev
  cases ev with
  | socketFinished s => simp [Event.isQuiet] at hq
  | _ => rfl

variable {w : World ω F} {cfg : Config F} {fuel : ℕ} {e e' e'' : Engine ω F}

theorem Quiet.finishCalls (h : Quiet w e e') :
    Nodescan.finishCalls e'.log = Nodescan.finishCalls e.log := by
  obtain ⟨l, hl, hq⟩ := h.log
  rw [hl, finishCalls_append, finishCalls_quiet hq, List.nil_append]

/-- Moves that finish the sockets `ss`, in this order, and do nothing else to the registry. -/
structure Finishes (w : World ω F) (ss : List Fd) (e e' : Engine ω F) : Prop where
  moves : Moves w e e'
  targets : ∀ a, a ∈ e'.socketsTargets ↔ a ∈ e.socketsTargets ∧ a ∉ ss
  valid : ∀ a, e'.validAt a = if a ∈ ss then none else e.validAt a
  calls : finishCalls e'.log = ss.reverse ++ finishCalls e.log

namespace Finishes

variable {s : Fd} {ss ss' : List Fd}

theorem of_quiet (h : Quiet w e e') : Finishes w [] e e' where
  moves := h.moves
  targets := by simp [h.targets]
  valid := by simp [h.valid]
  calls := h.finishCalls

theorem of_finish (h : Finish w s e e') : Finishes w [s] e e' where
  moves := h.moves
  targets := by
    intro a
    rw [h.targets, TreeMaps.mem_erase, List.mem_singleton]
    exact and_comm
  valid := by
    intro a
    simp [h.valid]
  calls := by
    obtain ⟨l, hl, hq⟩ := h.log
    rw [hl, finishCalls_append, finishCalls_quiet hq]
    rfl

theorem trans (h : Finishes w ss e e') (h' : Finishes w ss' e' e'') :
    Finishes w (ss ++ ss') e e'' where
  moves := h.moves.trans h'.moves
  targets := by
    intro a
    rw [h'.targets, h.targets, List.mem_append, not_or, and_assoc]
  valid := by
    intro a
    rw [h'.valid, h.valid]
    by_cases ha' : a ∈ ss'
    · simp [ha']
    · simp [ha']
  calls := by
    rw [h'.calls, h.calls, List.reverse_append, List.append_assoc]

end Finishes

/-! The first loop. -/

theorem inspect_spec (ts : ℤ) (s : Fd) (l : WorkLists) :
    Runs (inspect w cfg ts s l) e
      (fun l' e' => Quiet w e e' ∧ (e.validAt s ≠ some true ∧ l' = l ∨
        e.validAt s = some true ∧ ∃ dirty out, l' = l.add s dirty out))
      (fun _ _ => False) := by
  unfold inspect
  apply Runs.read
  cases hs : e.lvl4Sms[s]? with
  | none =>
    refine ⟨Quiet.refl e, Or.inl ⟨?_, rfl⟩⟩
    simp [Engine.validAt, hs]
  | some sm =>
    by_cases hv : sm.valid = true
    · have hva : e.validAt s = some true := by simp [Engine.validAt, hs, hv]
      simp only [hv, if_true]
      have hq : Quiet w e (e.modifySm s fun sm => sm.shouldProcessBuffer.2) :=
        Quiet.modifySm s (fun _ => rfl) (fun _ _ h => h)
      refine Runs.bind (QuietRun.update hq) (fun _ e₁ h₁ => ?_)
      refine Runs.bind (hasTimedout_quiet ts s sm) (fun out e₂ h₂ => ?_)
      exact ⟨h₁.trans h₂, Or.inr ⟨hva, _, out, rfl⟩⟩
    · simp only [hv]
      refine ⟨Quiet.refl e, Or.inl ⟨?_, rfl⟩⟩
      simp [Engine.validAt, hs, hv]

/-- What the first loop over the sockets `ss` has added to the work lists. -/
structure Inspected (e : Engine ω F) (ss : List Fd) (l l' : WorkLists) (p q : List Fd) : Prop where
  toProcess : l'.toProcess = l.toProcess ++ p
  timeouted : l'.timeouted = l.timeouted ++ q
  processed_sub : p.Sublist ss
  timeouted_sub : q.Sublist ss
  processed_valid : ∀ s ∈ p, e.validAt s = some true
  timeouted_valid : ∀ s ∈ q, e.validAt s = some true
  nValid_le : l.nValid ≤ l'.nValid
  all_timeouted : l'.nValid = l.nValid → ∀ s ∈ ss, e.validAt s = some true → s ∈ q

theorem Inspected.cons_add {s : Fd} {ss p q : List Fd} {l l' : WorkLists} {dirty out : Bool}
    (hs : e.validAt s = some true) (h : Inspected e ss (l.add s dirty out) l' p q) :
    Inspected e (s :: ss) l l' (if dirty then s :: p else p) (if out then s :: q else q) where
  toProcess := by
    rw [h.toProcess]
    cases dirty <;> simp [WorkLists.add]
  timeouted := by
    rw [h.timeouted]
    cases out <;> simp [WorkLists.add]
  processed_sub := by
    cases dirty with
    | true => exact h.processed_sub.cons_cons s
    | false => exact h.processed_sub.cons s
  timeouted_sub := by
    cases out with
    | true => exact h.timeouted_sub.cons_cons s
    | false => exact h.timeouted_sub.cons s
  processed_valid := by
    cases dirty with
    | true => exact List.forall_mem_cons.mpr ⟨hs, h.processed_valid⟩
    | false => exact h.processed_valid
  timeouted_valid := by
    cases out with
    | true => exact List.forall_mem_cons.mpr ⟨hs, h.timeouted_valid⟩
    | false => exact h.timeouted_valid
  nValid_le := by
    have hle := h.nValid_le
    cases out <;> simp only [WorkLists.add, if_true, Bool.false_eq_true, if_false] at hle <;> omega
  all_timeouted := by
    intro hn a ha hv
    have hle := h.nValid_le
    cases out with
    | false =>
      simp only [WorkLists.add, Bool.false_eq_true, if_false] at hle
      omega
    | true =>
      rcases List.mem_cons.mp ha with rfl | hm
      · simp
      · exact List.mem_cons_of_mem s (h.all_timeouted hn a hm hv)

theorem Inspected.cons_skip {s : Fd} {ss p q : List Fd} {l l' : WorkLists}
    (hs : e.validAt s ≠ some true) (h : Inspected e ss l l' p q) :
    Inspected e (s :: ss) l l' p q where
  toProcess := h.toProcess
  timeouted := h.timeouted
  processed_sub := h.processed_sub.cons s
  timeouted_sub := h.timeouted_sub.cons s
  processed_valid := h.processed_valid
  timeouted_valid := h.timeouted_valid
  nValid_le := h.nValid_le
  all_timeouted := by
    intro hn a ha hv
    rcases List.mem_cons.mp ha with rfl | hm
    · exact absurd hv hs
    · exact h.all_timeouted hn a hm hv

theorem Inspected.of_quiet {ss p q : List Fd} {l l' : WorkLists} (hq : Quiet w e e')
    (h : Inspected e' ss l l' p q) : Inspected e ss l l' p q where
  toProcess := h.toProcess
  timeouted := h.timeouted
  processed_sub := h.processed_sub
  timeouted_sub := h.timeouted_sub
  processed_valid := fun s hs => by rw [← hq.valid]; exact h.processed_valid s hs
  timeouted_valid := fun s hs => by rw [← hq.valid]; exact h.timeouted_valid s hs
  nValid_le := h.nValid_le
  all_timeouted := fun hn s hs hv => h.all_timeouted hn s hs (by rw [hq.valid, hv])

theorem inspectAll_spec (ts : ℤ) (ss : List Fd) (l : WorkLists) :
    Runs (inspectAll w cfg ts ss l) e
      (fun l' e' => Quiet w e e' ∧ ∃ p q, Inspected e ss l l' p q) (fun _ _ => False) := by
  induction ss generalizing e l with
  | nil =>
    refine ⟨Quiet.refl e, [], [], ?_⟩
    constructor <;> simp
  | cons s ss ih =>
    refine Runs.bind (inspect_spec ts s l) (fun l₁ e₁ h₁ => ?_)
    refine (ih l₁).mono (fun l' e' h => ?_) (fun _ _ h => h)
    obtain ⟨hq, p, q, hi⟩ := h
    refine ⟨h₁.1.trans hq, ?_⟩
    have hi' := hi.of_quiet h₁.1
    rcases h₁.2 with ⟨hv, rfl⟩ | ⟨hv, dirty, out, rfl⟩
    · exact ⟨p, q, hi'.cons_skip hv⟩
    · exact ⟨_, _, hi'.cons_add hv⟩

/-- The work lists of the pass from `e`: valid sockets, on each list once, and every valid socket
is timed out if none is counted as valid. -/
structure Listed (e : Engine ω F) (l : WorkLists) : Prop where
  processed_nodup : l.toProcess.Nodup
  timeouted_nodup : l.timeouted.Nodup
  processed_valid : ∀ s ∈ l.toProcess, e.validAt s = some true
  timeouted_valid : ∀ s ∈ l.timeouted, e.validAt s = some true
  all_timeouted : l.nValid = 0 → ∀ s, e.validAt s = some true → s ∈ l.timeouted

theorem workLists_spec :
    Runs (workLists w cfg) e (fun l e' => Quiet w e e' ∧ Listed e l) (fun _ _ => False) := by
  unfold workLists
  let e₁ : Engine ω F := { e with world := (w.timestamp e.world).2 }
  have hq : Quiet w e e₁ := Quiet.of_eq rfl rfl rfl rfl rfl rfl rfl
  refine Runs.bind (Runs.updateGet rfl : Runs _ e (fun _ e' => e₁ = e') _) ?_
  rintro ts _ rfl
  apply Runs.read
  refine (inspectAll_spec ts e₁.lvl4Sms.keys ⟨[], [], 0⟩).mono (fun l e' h => ?_) (fun _ _ h => h)
  obtain ⟨hq', p, q, hi⟩ := h
  refine ⟨hq.trans hq', ?_⟩
  have hp : l.toProcess = p := hi.toProcess
  have ht : l.timeouted = q := hi.timeouted
  have hnd := e₁.lvl4Sms.nodup_keys
  constructor
  · rw [hp]
    exact hnd.sublist hi.processed_sub
  · rw [ht]
    exact hnd.sublist hi.timeouted_sub
  · rw [hp]
    exact hi.processed_valid
  · rw [ht]
    exact hi.timeouted_valid
  · intro hn s hs
    rw [ht]
    refine hi.all_timeouted hn s ?_ hs
    exact Std.ExtTreeMap.mem_keys.mpr (mem_lvl4Sms_of_validAt hs)

/-! The second and the third loop. -/

/-- How the second loop over `ss` can fault: in a trigger, if the sockets are registered and none
comes twice. -/
def ReprocessFault (ss : List Fd) (e : Engine ω F) (f : Fault) (e' : Engine ω F) : Prop :=
  f ≠ .availSocks ∧ (ss.Nodup → (∀ s ∈ ss, s ∈ e.socketsTargets) → f.inTrigger = true ∧
    ∃ ended : List Fd, ended.Sublist ss ∧ finishCalls e'.log = ended.reverse ++ finishCalls e.log)

theorem ne_availSocks_of_inTrigger {f : Fault} (h : f.inTrigger = true) : f ≠ .availSocks := by
  rintro rfl
  simp [Fault.inTrigger] at h

theorem ReprocessFault.cons {s : Fd} {ss ended : List Fd} {f : Fault}
    (hf : Finishes w ended e e') (hsub : ended.Sublist [s])
    (h : ReprocessFault ss e' f e'') : ReprocessFault (s :: ss) e f e'' := by
  refine ⟨h.1, fun hnd hreg => ?_⟩
  rw [List.nodup_cons] at hnd
  have hreg' : ∀ a ∈ ss, a ∈ e'.socketsTargets := by
    intro a ha
    rw [hf.targets]
    refine ⟨hreg a (List.mem_cons_of_mem s ha), fun hm => hnd.1 ?_⟩
    have hs := List.mem_singleton.mp (hsub.mem hm)
    rwa [← hs]
  obtain ⟨htr, rest, hrest, hcalls⟩ := h.2 hnd.2 hreg'
  refine ⟨htr, ended ++ rest, ?_, ?_⟩
  · exact hsub.append hrest
  · rw [hcalls, hf.calls, List.reverse_append, List.append_assoc]

theorem reprocess_spec (ss : List Fd) :
    Runs (reprocess w cfg fuel ss) e
      (fun ended e' => ended.Sublist ss ∧ Finishes w ended e e') (ReprocessFault ss e) := by
  induction ss generalizing e with
  | nil => exact ⟨List.Sublist.refl _, Finishes.of_quiet (Quiet.refl e)⟩
  | cons s ss ih =>
    rw [reprocess]
    refine Runs.bind (Q := fun _ e' => e = e') ?_ ?_
    · refine (targetFromSocket_spec s).mono (fun _ _ h => h.1.symm) (fun f e' h => ?_)
      refine ⟨by rw [h.2.1]; simp, fun _ hreg => ?_⟩
      exact absurd (hreg s (by simp)) h.2.2
    rintro t _ rfl
    refine Runs.bind ((QuietRun.hostSm (w := w) t.ipv4).noFault) (fun _ e₁ h₁ => ?_)
    refine Runs.bind ((onLvl4Sm_spec (w := w) s t (fun hI h hr => hI.processLoop h hr)
      (fun hr => Lvl4SM.processLoop_fault hr)).mono (fun _ _ h => h) (fun f e' h => ?_)) ?_
    · refine ⟨ne_availSocks_of_inTrigger h.2, fun _ _ => ⟨h.2, [], by simp, ?_⟩⟩
      rw [h.1, h₁.finishCalls]
      rfl
    intro ret e₂ h₂
    have hquiet : Finishes w [] e e₂ := Finishes.of_quiet (h₁.trans h₂)
    by_cases hret : ret = true
    · rw [if_pos hret]
      refine ih.mono (fun ended e' h => ?_) (fun f e' h => h.cons hquiet (by simp))
      exact ⟨h.1.cons s, hquiet.trans h.2⟩
    · rw [if_neg hret]
      refine Runs.bind ((socketFinished_cases s 0).mono (fun _ _ h => h) (fun f e' h => ?_)) ?_
      · refine ⟨by rw [h.1]; simp, fun _ hreg => ?_⟩
        have hs := (hquiet.targets s).mpr ⟨hreg s (by simp), by simp⟩
        exact absurd hs h.2.1
      intro _ e₃ h₃
      have hfin : Finishes w [s] e e₃ := hquiet.trans (Finishes.of_finish h₃)
      refine Runs.bind (ih.mono (fun _ _ h => h)
        (fun f e' h => h.cons hfin (List.Sublist.refl _))) (fun ended e₄ h₄ => ?_)
      exact ⟨h₄.1.cons_cons s, hfin.trans h₄.2⟩

/-- The third loop returns if its sockets are registered and none comes twice, and then only. -/
theorem finishTimeouted_spec (ss : List Fd) :
    Runs (finishTimeouted w cfg ss) e
      (fun _ e' => Finishes w ss e e' ∧ ∀ s ∈ ss, s ∈ e.socketsTargets)
      (fun f _ => (∃ s, f = .targetFromSocket s) ∧
        ¬ (ss.Nodup ∧ ∀ s ∈ ss, s ∈ e.socketsTargets)) := by
  induction ss generalizing e with
  | nil => exact ⟨Finishes.of_quiet (Quiet.refl e), by simp⟩
  | cons s ss ih =>
    refine Runs.bind ((socketFinished_cases s _).mono (fun _ _ h => h) (fun f e' h => ?_)) ?_
    · exact ⟨⟨s, h.1⟩, fun hall => h.2.1 (hall.2 s (by simp))⟩
    intro _ e₁ h₁
    have hfin := Finishes.of_finish h₁
    refine ih.mono (fun _ e' h => ?_) (fun f e' h => ⟨h.1, fun hall => h.2 ?_⟩)
    · refine ⟨hfin.trans h.1, ?_⟩
      intro a ha
      rcases List.mem_cons.mp ha with rfl | hm
      · exact h₁.registered
      · exact ((hfin.targets a).mp (h.2 a hm)).1
    · obtain ⟨hnd, hreg⟩ := hall
      rw [List.nodup_cons] at hnd
      refine ⟨hnd.2, fun a ha => (hfin.targets a).mpr ⟨hreg a (by simp [ha]), ?_⟩⟩
      rw [List.mem_singleton]
      rintro rfl
      exact hnd.1 ha

/-- The pass is a sequence of moves; it counts no valid machine only if it leaves none. -/
theorem processDirtyAndTimeouts_moves :
    Runs (processDirtyAndTimeouts w cfg fuel) e
      (fun n e' => Moves w e e' ∧ (n = 0 → ∀ s, e'.validAt s ≠ some true))
      (fun f _ => f ≠ .availSocks) := by
  unfold processDirtyAndTimeouts
  refine Runs.bind ((workLists_spec (w := w)).noFault) (fun l e₁ h₁ => ?_)
  refine Runs.bind ((reprocess_spec (w := w) l.toProcess).mono (fun _ _ h => h)
    (fun _ _ h => h.1)) (fun ended e₂ h₂ => ?_)
  refine Runs.bind ((finishTimeouted_spec (w := w) l.timeouted).mono (fun _ _ h => h)
    (fun f _ h => ?_)) (fun _ e₃ h₃ => ?_)
  · obtain ⟨⟨s, rfl⟩, -⟩ := h
    simp
  · refine ⟨(h₁.1.moves.trans h₂.2.moves).trans h₃.1.moves, fun hn s hs => ?_⟩
    rw [h₃.1.valid] at hs
    split_ifs at hs with htime
    rw [h₂.2.valid] at hs
    split_ifs at hs
    rw [h₁.1.valid] at hs
    exact htime (h₁.2.all_timeouted hn s hs)

/-- The pass from `e` comes to the valid machine of `s` and checks in the state `e₁` whether it has
timed out. -/
def Visits (w : World ω F) (cfg : Config F) (e : Engine ω F) (ts : ℤ) (s : Fd) (sm : Lvl4SM F)
    (e₁ : Engine ω F) : Prop :=
  (w.timestamp e.world).1 = ts ∧
    ∃ before after l e₀, e.lvl4Sms.keys = before ++ s :: after ∧
      (inspectAll w cfg ts before ⟨[], [], 0⟩).runFrom
        { e with world := (w.timestamp e.world).2 } = (.ok l, e₀) ∧
      e₀.lvl4Sms[s]? = some sm ∧ sm.valid = true ∧
      e₁ = e₀.modifySm s fun sm => sm.shouldProcessBuffer.2

end Nodescan
