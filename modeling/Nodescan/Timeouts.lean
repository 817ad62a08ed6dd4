import Nodescan.TargetLedger
import Nodescan.DirtyPass

/-!
# Idle connections do not survive a round

`process_dirty_and_timeouts` reads the clock once and compares it with the timestamps of all
machines. A machine that is left valid after the pass has not been idle for its timeout. What the
rest of a round makes is newer than the pass, if the clock does not go back. So after every round
of a scan each connection was active less than its timeout before that round began.
-/

namespace Nodescan

open FaultM EngineM

variable {ω F : Type}

/-- The clock of the world: it does not go back, and `timestamp` reads it. -/
structure World.Clocked (w : World ω F) (clock : ω → ℤ) : Prop where
  read : ∀ o, clock o ≤ (w.timestamp o).1
  asked : ∀ {o o'}, w.Asked o o' → clock o ≤ clock o'
  nextTarget : ∀ o, clock o ≤ clock (w.nextTarget o).2
  targetFinished : ∀ t hsm o, clock o ≤ clock (w.targetFinished t hsm o).2
  initHostSm : ∀ t hsm o, clock o ≤ clock (w.initHostSm t hsm o).2
  saveState : ∀ o, clock o ≤ clock (w.saveState o)

/-- No target has a timeout above `b`. -/
def TimeoutsAtMost (w : World ω F) (cfg : Config F) (b : ℕ) : Prop :=
  if cfg.hasTimeoutTarget then ∀ t o, ((w.callback (.timeoutOfTarget t) o).1.1 : ℕ) ≤ b
  else cfg.timeout ≤ b

/-- The valid machines of `e'` are machines of `e` with the timestamps they had. -/
def Aged (e e' : Engine ω F) : Prop :=
  ∀ (s : Fd) sm', e'.lvl4Sms[s]? = some sm' → sm'.valid = true →
    ∃ sm, e.lvl4Sms[s]? = some sm ∧ sm.valid = true ∧ sm.ts = sm'.ts

variable {w : World ω F} {cfg : Config F} {clock : ω → ℤ} {fuel n b : ℕ} {α : Type}
  {e e' e'' : Engine ω F}

section Clock

variable (hw : w.Clocked clock)

include hw

theorem World.Clocked.of_asked {o o' : ω} (h : Relation.ReflTransGen w.Asked o o') :
    clock o ≤ clock o' := by
  induction h with
  | refl => exact le_refl _
  | tail _ hask ih => exact ih.trans (hw.asked hask)

theorem Settles.clock_le {s : Fd} {t : Target} (h : Settles w cfg s t e e') :
    clock e.world ≤ clock e'.world := by
  obtain ⟨e₁, -, hasked, htold⟩ := h.told
  rw [htold.world]
  exact (hw.of_asked hasked).trans (hw.targetFinished _ _ _)

theorem Connects.clock_le {t : Target} {r : Fd × ℤ} (h : Connects w t r e e') :
    clock e.world ≤ clock e'.world :=
  (hw.nextTarget _).trans (hw.of_asked h.asked)

theorem Step.clock_le (h : Step w cfg e e') : clock e.world ≤ clock e'.world := by
  cases h with
  | neutral hn => exact hw.of_asked hn.asked
  | marked => exact le_refl _
  | saved => exact hw.saveState _
  | called hcb => exact hw.of_asked ((Idle.note (isPlain_not_entry hcb)).trans (Idle.answered _ _)).asked
  | worked ht hs hw' => exact hw.of_asked (Idle.worked hw').asked
  | drawn hd => exact hw.nextTarget _
  | started hg hs ha =>
    rw [((addStarted_startsHost _ _).of_ok ha).world]
    exact ((hg.connects_of_started hs).clock_le hw).trans (hw.initHostSm _ _ _)
  | refused hf =>
    obtain ⟨r, e₁, t', hc, -, hs⟩ := hf.connects
    exact (hc.clock_le hw).trans (hs.clock_le hw)
  | finished hf =>
    obtain ⟨t, hs⟩ := socketFinished_settles hf
    exact hs.clock_le hw
  | reconnected ht hr => exact hw.of_asked (announceReconnect_steady (steady_asked _) .refl hr)

theorem Steps.clock_le (h : Steps w cfg e e') : clock e.world ≤ clock e'.world :=
  h.invariant (I := fun e' => clock e.world ≤ clock e'.world)
    (fun _ _ hs hle => hle.trans (hs.clock_le hw)) (le_refl _)

end Clock

namespace Aged

theorem refl (e : Engine ω F) : Aged e e := fun _ sm hs hv => ⟨sm, hs, hv, rfl⟩

theorem trans (h : Aged e e') (h' : Aged e' e'') : Aged e e'' := by
  intro s sm'' hs hv
  obtain ⟨sm', hs', hv', hts'⟩ := h' s sm'' hs hv
  obtain ⟨sm, hs₀, hv₀, hts⟩ := h s sm' hs' hv'
  exact ⟨sm, hs₀, hv₀, hts.trans hts'⟩

theorem of_eq (h : e'.lvl4Sms = e.lvl4Sms) : Aged e e' := by
  intro s sm hs hv
  rw [h] at hs
  exact ⟨sm, hs, hv, rfl⟩

theorem modifySm (s : Fd) {f : Lvl4SM F → Lvl4SM F} (hv : ∀ sm, (f sm).valid = sm.valid)
    (hts : ∀ sm, (f sm).ts = sm.ts) : Aged e (e.modifySm s f) := by
  intro a sm' ha hvalid
  change (e.lvl4Sms.modify s f)[a]? = some sm' at ha
  rw [TreeMaps.getElem?_modify] at ha
  by_cases has : a = s
  · subst has
    rw [if_pos rfl, Option.map_eq_some_iff] at ha
    obtain ⟨sm, hsm, rfl⟩ := ha
    exact ⟨sm, hsm, (hv sm).symm.trans hvalid, (hts sm).symm⟩
  · rw [if_neg has] at ha
    exact ⟨sm', ha, hvalid, rfl⟩

theorem callAll (cs : List (Call F)) : Aged e (e.callAll cs) := by
  induction cs generalizing e with
  | nil => exact refl e
  | cons c cs ih =>
    refine trans ?_ (ih (e := e.call c))
    cases c with
    | onSm s c => exact modifySm s (fun sm => by cases c <;> rfl) (fun sm => by cases c <;> rfl)
    | ensureAvailableSockets n =>
      simp only [Engine.call, Engine.ensureAvailableSockets]
      split_ifs
      · exact of_eq rfl
      · exact refl e
    | setOnAlive ip a =>
      simp only [Engine.call, Engine.setOnAlive]
      split_ifs
      · exact of_eq rfl
      · exact refl e

/-- A machine is put back as valid as it was, with the timestamp it had. -/
theorem put {s : Fd} {sm sm' : Lvl4SM F} (h : Aged e e') (hs : e.lvl4Sms[s]? = some sm)
    (hv : sm'.valid = sm.valid) (hts : sm'.ts = sm.ts) :
    Aged e { e' with lvl4Sms := e'.lvl4Sms.insert s sm' } := by
  intro a sm'' ha hvalid
  rw [TreeMaps.getElem?_insert] at ha
  split_ifs at ha with has
  · subst has
    rw [← Option.some.inj ha] at hvalid ⊢
    exact ⟨sm, hs, hv ▸ hvalid, hts.symm⟩
  · exact h a sm'' ha hvalid

end Aged

theorem callAll_ts (sm : Lvl4SM F) (cs : List (SmCall F)) : (sm.callAll cs).ts = sm.ts := by
  induction cs generalizing sm with
  | nil => rfl
  | cons c cs ih =>
    have hc : (sm.call c).ts = sm.ts := by cases c <;> rfl
    exact (ih (sm.call c)).trans hc

/-- `x` leaves no valid machine that is newer. -/
def AgedRun (x : EngineM ω F α) (e : Engine ω F) : Prop :=
  Runs x e (fun _ e' => Aged e e') (fun _ _ => True)

namespace AgedRun

theorem bind {β : Type} {x : EngineM ω F α} {f : α → EngineM ω F β} (hx : AgedRun x e)
    (hf : ∀ a e', AgedRun (f a) e') : AgedRun (x >>= f) e := by
  refine Runs.bind hx (fun a e' h => ?_)
  exact (hf a e').mono (fun _ _ h' => h.trans h') (fun _ _ h' => h')

theorem ret (a : α) : AgedRun (pure a : EngineM ω F α) e := Aged.refl e

theorem update {f : Engine ω F → Engine ω F} (h : Aged e (f e)) :
    AgedRun (modify f : EngineM ω F Unit) e := h

theorem ask (f : ω → α × ω) : AgedRun (EngineM.ask (F := F) f) e := Aged.of_eq rfl

theorem callback (cb : Callback F) : AgedRun (EngineM.callback w cb) e :=
  Aged.trans (Aged.of_eq rfl) (Aged.callAll _)

theorem hostSm (ip : UInt32) : AgedRun (EngineM.hostSm (ω := ω) (F := F) ip) e :=
  (hostSm_insertIfNew ip).mono (fun _ _ h => h ▸ Aged.of_eq rfl) (fun _ _ _ => trivial)

theorem targetFromSocket (s : Fd) : AgedRun (EngineM.targetFromSocket (ω := ω) (F := F) s) e :=
  (targetFromSocket_spec s).mono (fun _ _ h => h.1 ▸ Aged.refl e) (fun _ _ _ => trivial)

theorem lvl4Sm (s : Fd) : AgedRun (EngineM.lvl4Sm w s) e := by
  unfold EngineM.lvl4Sm
  apply Runs.read
  cases h : e.lvl4Sms[s]? with
  | some sm => exact Aged.refl e
  | none =>
    intro a sm' ha hv
    change (e.lvl4Sms.insert s _)[a]? = some sm' at ha
    rw [TreeMaps.getElem?_insert] at ha
    split_ifs at ha
    · rw [← Option.some.inj ha] at hv
      simp [Lvl4SM.new] at hv
    · exact ⟨sm', ha, hv, rfl⟩

theorem callbackFinish (t : Target) (buf : List UInt8) (err : ℤ) :
    AgedRun (EngineM.callbackFinish w cfg t buf err) e := by
  unfold EngineM.callbackFinish
  split_ifs
  · exact callback _
  · exact ret ()

theorem hostFinished (t : Target) : AgedRun (EngineM.hostFinished w t) e := by
  unfold EngineM.hostFinished
  refine bind (hostSm _) (fun hsm e₁ => bind (ask _) (fun r e₂ => ?_))
  refine bind (update (Aged.of_eq rfl)) (fun _ e₃ => bind (update (Aged.of_eq rfl)) (fun _ e₄ => ?_))
  split_ifs
  · exact update (Aged.of_eq rfl)
  · exact ret ()

/-- `socket_finished` takes the machine of its socket away. -/
theorem socketFinished (s : Fd) (err : ℤ) : Runs (EngineM.socketFinished w cfg s err) e
    (fun _ e' => Aged e e' ∧ s ∉ e'.lvl4Sms) (fun _ _ => True) := by
  unfold EngineM.socketFinished
  refine Runs.bind (Q := fun _ e' => Aged e e') (Aged.of_eq rfl) (fun _ e₁ h₁ => ?_)
  refine Runs.bind (targetFromSocket s) (fun t e₂ h₂ => ?_)
  refine Runs.bind (lvl4Sm s) (fun sm e₃ h₃ => ?_)
  refine Runs.bind (callbackFinish t sm.buf err) (fun _ e₄ h₄ => ?_)
  refine Runs.bind (update (Aged.modifySm s (fun _ => rfl) (fun _ => rfl))) (fun _ e₅ h₅ => ?_)
  refine Runs.bind (hostFinished t) (fun _ e₆ h₆ => ?_)
  have hfree : Aged e₆ (e₆.freeSocket s) := by
    intro a sm' ha hv
    rw [freeSocket_getElem?] at ha
    split_ifs at ha
    exact ⟨sm', ha, hv, rfl⟩
  refine ⟨(((((h₁.trans h₂).trans h₃).trans h₄).trans h₅).trans h₆).trans hfree, ?_⟩
  apply TreeMaps.not_mem_of_getElem?
  exact (freeSocket_getElem? s s).trans (if_pos rfl)

theorem called (s : Fd) (cb : Callback F) : Aged e (EngineM.called w s cb e).2 :=
  Aged.trans (Aged.of_eq rfl) (Aged.callAll _)

/-- What the trigger callbacks keep of the machine `sm` they are called for. -/
theorem actions_aged (ct : ConnectedTarget) (sm : Lvl4SM F) :
    Lvl4SM.Kept (actions w) ct
      (fun sm' e' => Aged e e' ∧ sm'.valid = sm.valid ∧ sm'.ts = sm.ts) where
  buf := fun _ h => h
  data := by
    rintro sm' e' f chunk ⟨ha, hv, hts⟩
    exact ⟨ha.trans (called _ _), (callAll_valid _ _).trans hv, (callAll_ts _ _).trans hts⟩
  python := by
    rintro sm' e' obj buf prevPos ⟨ha, hv, hts⟩
    exact ⟨ha.trans (called _ _), (callAll_valid _ _).trans hv, (callAll_ts _ _).trans hts⟩

/-- A buffer that is worked on again does not make its connection newer. -/
theorem onProcessBuffer (s : Fd) (ct : ConnectedTarget) :
    AgedRun (onLvl4Sm s (fun sm e => sm.processBuffer (actions w) ct fuel e)) e := by
  unfold onLvl4Sm
  apply Runs.read
  cases hs : e.lvl4Sms[s]? with
  | none => exact trivial
  | some sm =>
    cases hf : sm.processBuffer (actions w) ct fuel e with
    | error fault =>
      simp only [hf]
      exact trivial
    | ok r =>
      obtain ⟨v, sm', e'⟩ := r
      simp only [hf]
      have hI := (actions_aged (w := w) (e := e) ct sm).processLoop ⟨Aged.refl e, rfl, rfl⟩ hf
      exact hI.1.put hs hI.2.1 hI.2.2

theorem reprocess (ss : List Fd) : AgedRun (EngineM.reprocess w cfg fuel ss) e := by
  induction ss generalizing e with
  | nil => exact ret []
  | cons s ss ih =>
    rw [EngineM.reprocess]
    refine bind (targetFromSocket s) (fun t e₁ => bind (hostSm _) (fun _ e₂ => ?_))
    refine bind (onProcessBuffer s ⟨t, s⟩) (fun v e₃ => ?_)
    split_ifs
    · exact ih
    · refine bind ((socketFinished s 0).mono (fun _ _ h => h.1) (fun _ _ h => h)) (fun _ e₄ => ?_)
      exact bind ih (fun _ _ => ret _)

theorem watchTimedout (ts : ℤ) (s : Fd) (watchTs : ℤ) :
    AgedRun (hasWatchTimedout w cfg ts s watchTs) e := by
  unfold hasWatchTimedout
  split_ifs
  · exact ret _
  · apply Runs.read
    refine bind (ask _) (fun peer e₁ => bind (callback _) (fun goOn e₂ => ?_))
    split_ifs
    · exact bind (update (Aged.modifySm s (fun _ => rfl) (fun _ => rfl))) (fun _ _ => ret _)
    · exact ret _
  · exact ret _

theorem displayStatus : AgedRun (EngineM.displayStatus w cfg) e := by
  have hshould : AgedRun (shouldCallStatusDisplay w cfg) e := by
    unfold shouldCallStatusDisplay
    split_ifs
    · exact ret _
    · refine bind (ask _) (fun now e₁ => Runs.read ?_)
      split_ifs
      · exact bind (update (Aged.of_eq rfl)) (fun _ _ => ret _)
      · exact ret _
  unfold EngineM.displayStatus
  refine bind hshould (fun b e₁ => ?_)
  split_ifs
  · exact Runs.read (callback _)
  · exact ret ()

end AgedRun

/-! The pass. -/

/-- A socket has no valid machine, or one that was active less than `b` before `now`. -/
def Recent (now : ℤ) (b : ℕ) (e : Engine ω F) (s : Fd) : Prop :=
  ∀ sm, e.lvl4Sms[s]? = some sm → sm.valid = true → now - sm.ts < b

theorem Recent.aged {now : ℤ} {s : Fd} (h : Recent now b e s) (ha : Aged e e') :
    Recent now b e' s := by
  intro sm' hs hv
  obtain ⟨sm, hs₀, hv₀, hts⟩ := ha s sm' hs hv
  rw [← hts]
  exact h sm hs₀ hv₀

theorem timeoutOfTarget_le (hb : TimeoutsAtMost w cfg b) (s : Fd) :
    Runs (timeoutOfTarget w cfg s) e (fun t e' => Aged e e' ∧ t ≤ b) (fun _ _ => True) := by
  unfold timeoutOfTarget
  apply Runs.read
  refine Runs.bind (AgedRun.ask _) (fun peer e₁ h₁ => ?_)
  unfold TimeoutsAtMost at hb
  split_ifs at hb ⊢
  · exact ⟨h₁.trans (Aged.trans (Aged.of_eq rfl) (Aged.callAll _)), hb peer _⟩
  · exact ⟨h₁, hb⟩

theorem hasTimedout_recent (hb : TimeoutsAtMost w cfg b) (now : ℤ) (s : Fd) (sm : Lvl4SM F) :
    Runs (hasTimedout w cfg now s sm) e
      (fun out e' => Aged e e' ∧ (out = false → now - sm.ts < b)) (fun _ _ => True) := by
  unfold hasTimedout
  refine Runs.bind (timeoutOfTarget_le hb s) (fun t e₁ h₁ => ?_)
  split_ifs with hout
  · exact ⟨h₁.1, by simp⟩
  · refine (AgedRun.watchTimedout now s _).mono (fun out e' h => ⟨h₁.1.trans h, fun _ => ?_⟩)
      (fun _ _ h => h)
    have hle : (t : ℤ) ≤ b := by exact_mod_cast h₁.2
    omega

/-- The round of the first loop for `s`: the socket is timed out or recent. -/
theorem inspect_recent (hb : TimeoutsAtMost w cfg b) (now : ℤ) (s : Fd) (l : WorkLists) :
    Runs (inspect w cfg now s l) e
      (fun l' e' => Aged e e' ∧ (∀ a ∈ l.timeouted, a ∈ l'.timeouted) ∧
        (s ∈ l'.timeouted ∨ Recent now b e' s)) (fun _ _ => True) := by
  unfold inspect
  apply Runs.read
  cases hs : e.lvl4Sms[s]? with
  | none =>
    refine ⟨Aged.refl e, fun a ha => ha, Or.inr (fun sm hsm => ?_)⟩
    rw [hs] at hsm
    exact absurd hsm (by simp)
  | some sm =>
    by_cases hv : sm.valid = true
    · simp only [hv, if_true]
      have ha : Aged e (e.modifySm s fun sm => sm.shouldProcessBuffer.2) :=
        Aged.modifySm s (fun _ => rfl) (fun _ => rfl)
      refine Runs.bind (AgedRun.update ha) (fun _ e₁ h₁ => ?_)
      refine Runs.bind (hasTimedout_recent hb now s sm) (fun out e₂ h₂ => ?_)
      have h := h₁.trans h₂.1
      cases out with
      | true => exact ⟨h, fun a ha => by simp [WorkLists.add, ha], by simp [WorkLists.add]⟩
      | false =>
        refine ⟨h, fun a ha => by simp [WorkLists.add, ha], Or.inr ?_⟩
        refine Recent.aged (e := e) (fun sm' hsm' _ => ?_) h
        rw [← Option.some.inj (hs.symm.trans hsm')]
        exact h₂.2 rfl
    · simp only [hv]
      refine ⟨Aged.refl e, fun a ha => ha, Or.inr (fun sm' hsm' hv' => ?_)⟩
      rw [← Option.some.inj (hs.symm.trans hsm')] at hv'
      exact absurd hv' hv

theorem inspectAll_recent (hb : TimeoutsAtMost w cfg b) (now : ℤ) (ss : List Fd) (l : WorkLists) :
    Runs (inspectAll w cfg now ss l) e
      (fun l' e' => Aged e e' ∧ (∀ a ∈ l.timeouted, a ∈ l'.timeouted) ∧
        ∀ s ∈ ss, s ∈ l'.timeouted ∨ Recent now b e' s) (fun _ _ => True) := by
  induction ss generalizing e l with
  | nil => exact ⟨Aged.refl e, fun a ha => ha, by simp⟩
  | cons s ss ih =>
    refine Runs.bind (inspect_recent hb now s l) (fun l₁ e₁ ⟨ha₁, hsub₁, hs₁⟩ => ?_)
    refine (ih l₁).mono (fun l' e' ⟨ha, hsub, hss⟩ => ?_) (fun _ _ h => h)
    refine ⟨ha₁.trans ha, fun a h => hsub a (hsub₁ a h), List.forall_mem_cons.mpr ⟨?_, hss⟩⟩
    exact hs₁.imp (hsub s) (fun h => h.aged ha)

theorem finishTimeouted_recent (now : ℤ) (ss : List Fd) :
    Runs (finishTimeouted w cfg ss) e
      (fun _ e' => Aged e e' ∧ ∀ s ∈ ss, Recent now b e' s) (fun _ _ => True) := by
  unfold finishTimeouted
  induction ss generalizing e with
  | nil => exact ⟨Aged.refl e, by simp⟩
  | cons s ss ih =>
    refine Runs.bind (AgedRun.socketFinished s _) (fun _ e₁ ⟨ha₁, hs₁⟩ => ?_)
    refine ih.mono (fun _ e' ⟨ha, hss⟩ => ?_) (fun _ _ h => h)
    refine ⟨ha₁.trans ha, List.forall_mem_cons.mpr ⟨?_, hss⟩⟩
    refine Recent.aged (e := e₁) (fun sm hsm => ?_) ha
    exact absurd (TreeMaps.mem_of_getElem? hsm) hs₁

/-- After the pass every valid machine was active less than `b` before the time the pass read. -/
theorem processDirtyAndTimeouts_recent (hb : TimeoutsAtMost w cfg b) :
    Runs (processDirtyAndTimeouts w cfg fuel) e
      (fun _ e' => ∀ s, Recent (w.timestamp e.world).1 b e' s) (fun _ _ => True) := by
  unfold processDirtyAndTimeouts workLists
  let e₁ : Engine ω F := { e with world := (w.timestamp e.world).2 }
  refine Runs.bind (Q := fun l e' => Aged e₁ e' ∧ ∀ s ∈ e₁.lvl4Sms.keys,
    s ∈ l.timeouted ∨ Recent (w.timestamp e.world).1 b e' s) ?_ (fun l e₂ ⟨ha₂, hs₂⟩ => ?_)
  · refine Runs.bind (Runs.updateGet ⟨rfl, rfl⟩ : Runs _ e
      (fun now e' => now = (w.timestamp e.world).1 ∧ e₁ = e') _) ?_
    rintro now _ ⟨rfl, rfl⟩
    apply Runs.read
    exact (inspectAll_recent hb _ _ _).mono (fun l e' h => ⟨h.1, h.2.2⟩) (fun _ _ h => h)
  refine Runs.bind (AgedRun.reprocess l.toProcess) (fun _ e₃ h₃ => ?_)
  refine Runs.bind (finishTimeouted_recent (b := b) (w.timestamp e.world).1 l.timeouted)
    (fun _ e₄ ⟨ha₄, hs₄⟩ s => ?_)
  by_cases hs : s ∈ e₁.lvl4Sms
  · rcases hs₂ s (Std.ExtTreeMap.mem_keys.mpr hs) with hout | hrecent
    · exact hs₄ s hout
    · exact (hrecent.aged h₃).aged ha₄
  · refine Recent.aged (e := e₁) (fun sm hsm => ?_) ((ha₂.trans h₃).trans ha₄)
    exact absurd (TreeMaps.mem_of_getElem? hsm) hs

/-! The rest of the round. -/

/-- The clock has reached `now`, and every valid machine was active less than `b` before it. -/
structure Timely (clock : ω → ℤ) (now : ℤ) (b : ℕ) (e : Engine ω F) : Prop where
  reached : now ≤ clock e.world
  recent : ∀ s, Recent now b e s

namespace Timely

variable {now : ℤ}

theorem aged (h : Timely clock now b e) (ha : Aged e e')
    (hc : clock e.world ≤ clock e'.world) : Timely clock now b e' :=
  ⟨h.reached.trans hc, fun s => (h.recent s).aged ha⟩

section Runs

variable (hw : w.Clocked clock)

include hw

/-- What is a sequence of steps and makes no machine newer. -/
theorem run {x : EngineM ω F α} (h : Timely clock now b e) (ha : AgedRun x e)
    (hs : StepRun w cfg x e) : Runs x e (fun _ => Timely clock now b) (fun _ _ => True) :=
  (ha.both hs).mono (fun _ _ h' => h.aged h'.1 (Steps.clock_le hw h'.2)) (fun _ _ _ => trivial)

theorem socketFinished (h : Timely clock now b e) (s : Fd) (err : ℤ) :
    Runs (EngineM.socketFinished w cfg s err) e (fun _ => Timely clock now b)
      (fun _ _ => True) :=
  h.run hw ((AgedRun.socketFinished s err).mono (fun _ _ h => h.1) (fun _ _ h => h))
    (StepRun.socketFinished s err)

/-- A socket that is registered is stamped with a time after `now`. -/
theorem register (hb : 0 < b) (h : Timely clock now b e) (n : ℕ) (t : Target) :
    Runs (EngineM.register w cfg n t) e (fun _ => Timely clock now b) (fun _ _ => True) := by
  have hasked : Runs (EngineM.register w cfg n t) e
      (fun _ e' => Relation.ReflTransGen w.Asked e.world e'.world) _ :=
    (steady_asked e.world).register n trivial e .refl
  refine ((register_run n t).both hasked).mono (fun err e' ⟨hreg, hask⟩ => ?_)
    (fun _ _ _ => trivial)
  refine ⟨h.reached.trans (hw.of_asked hask), fun a sm hsm hv => ?_⟩
  rw [hreg.machines] at hsm
  split_ifs at hsm with ha
  · have hconnect := hw.asked (.connect (e.kernel.openSocket n) n t e.world)
    have hstamp := hw.asked (.timestamp (w.connect (e.kernel.openSocket n) n t e.world).2)
    have hread := hw.read (w.timestamp (w.connect (e.kernel.openSocket n) n t e.world).2).2
    have hreached := h.reached
    rw [← Option.some.inj hsm]
    simp only [registeredSm]
    omega
  · exact h.recent a sm hsm hv

theorem createSocket (hb : 0 < b) (h : Timely clock now b e) (t : Target) :
    Runs (EngineM.createSocket w cfg t) e (fun _ => Timely clock now b) (fun _ _ => True) := by
  unfold EngineM.createSocket
  apply Runs.read
  split_ifs
  · exact trivial
  · refine Runs.bind (Q := fun _ => Timely clock now b) ?_ (fun r e₁ h₁ => ?_)
    · exact h.aged (Aged.of_eq rfl) (hw.asked (.socket _ _ _))
    · cases r with
      | none => exact h₁
      | some n => exact Runs.bind (register hw hb h₁ n t) (fun _ _ h₂ => h₂)

theorem launchLoop (hb : 0 < b) (h : Timely clock now b e) :
    Runs (EngineM.launchLoop w cfg fuel) e (fun _ => Timely clock now b) (fun _ _ => True) := by
  induction fuel generalizing e with
  | zero => exact trivial
  | succ fuel ih =>
    rw [EngineM.launchLoop]
    refine Runs.bind (Q := fun _ => Timely clock now b) ?_ (fun r e₁ h₁ => ?_)
    · exact h.aged (Aged.of_eq rfl) (hw.nextTarget _)
    cases r with
    | wouldBlock => exact h₁
    | target t =>
      dsimp only
      split_ifs
      · exact h₁
      · refine Runs.bind (Q := fun _ => Timely clock now b) ?_ (fun _ e₂ h₂ => ?_)
        · exact h₁.aged (Aged.of_eq rfl) (le_refl _)
        refine Runs.bind (createSocket hw hb h₂ t) (fun r e₃ h₃ => ?_)
        split_ifs
        · exact h₃
        · exact Runs.bind (socketFinished hw h₃ r.1 r.2) (fun _ e₄ h₄ => ih h₄)

theorem freeSocksLoop (hb : 0 < b) (n : ℕ) (h : Timely clock now b e) :
    Runs (EngineM.freeSocksLoop w cfg fuel n) e (fun _ => Timely clock now b)
      (fun _ _ => True) := by
  induction n generalizing e with
  | zero => exact h
  | succ n ih =>
    rw [EngineM.freeSocksLoop]
    refine Runs.bind (launchLoop hw hb h) (fun r e₁ h₁ => ?_)
    cases r with
    | noTarget => exact h₁
    | wouldBlock => exact h₁
    | started s t =>
      refine Runs.bind (Q := fun _ => Timely clock now b) ?_ (fun _ e₂ h₂ => ih h₂)
      refine (addStarted_startsHost s t).noFault.mono (fun _ e₂ hs => ?_) (fun _ _ h => h)
      exact h₁.aged (Aged.of_eq hs.machines) (hs.world ▸ hw.initHostSm _ _ _)

/-- After a round every valid machine was active less than `b` before the round began. -/
theorem scanPass (hb : 0 < b) (htimeouts : TimeoutsAtMost w cfg b) :
    Runs (EngineM.scanPass w cfg fuel) e (fun _ => Timely clock (clock e.world) b)
      (fun _ _ => True) := by
  unfold EngineM.scanPass
  refine Runs.bind StepRun.processEvents (fun nfds e₁ h₁ => ?_)
  refine Runs.bind (Q := fun _ => Timely clock (clock e.world) b) ?_ (fun nValid e₂ h₂ => ?_)
  · refine ((processDirtyAndTimeouts_recent htimeouts).both
      StepRun.processDirtyAndTimeouts).mono (fun _ e₂ ⟨hrecent, hsteps⟩ => ?_)
      (fun _ _ _ => trivial)
    have hbefore := Steps.clock_le hw h₁
    refine ⟨hbefore.trans (Steps.clock_le hw hsteps), fun s sm hsm hv => ?_⟩
    have hnow := hrecent s sm hsm hv
    have hread := hw.read e₁.world
    omega
  refine Runs.bind (Q := fun _ => Timely clock (clock e.world) b) ?_ (fun more e₃ h₃ => ?_)
  · unfold processFreeSocks
    refine Runs.bind (Q := fun _ => Timely clock (clock e.world) b) ?_ (fun _ e₃ h₃ => ?_)
    · exact h₂.aged (Aged.of_eq rfl) (le_refl _)
    · exact Runs.read (freeSocksLoop hw hb _ h₃)
  split_ifs
  · exact h₃
  · refine Runs.bind (h₃.run hw AgedRun.displayStatus StepRun.displayStatus) (fun _ e₄ h₄ => ?_)
    exact h₄.aged (Aged.of_eq rfl) (hw.saveState _)

end Runs
end Timely

/-- The round that follows on `n` rounds. -/
theorem scanLoop_succ {v : Bool} (hn : (scanLoop w cfg fuel n).runFrom e = (.ok false, e'))
    (hr : (scanLoop w cfg fuel (n + 1)).runFrom e = (.ok v, e'')) :
    (scanPass w cfg fuel).runFrom e' = (.ok v, e'') := by
  induction n generalizing e with
  | zero =>
    obtain ⟨-, rfl⟩ := Prod.mk.inj hn
    obtain ⟨v', e₁, hpass, hrest⟩ := bind_eq_ok.mp hr
    rw [hpass]
    cases v' <;> exact hrest
  | succ n ih =>
    obtain ⟨v', e₁, hpass, hrest⟩ := bind_eq_ok.mp hn
    obtain ⟨v'', e₂, hpass', hrest'⟩ := bind_eq_ok.mp hr
    obtain ⟨hv, rfl⟩ := Prod.mk.inj (hpass.symm.trans hpass')
    obtain rfl := Except.ok.inj hv
    cases v' with
    | true => exact absurd (Except.ok.inj (Prod.mk.inj hrest).1) (by simp)
    | false => exact ih hrest hrest'

/-- After each round of a scan every valid connection was active less than `b` before the round
began, if the clock does not go back and no timeout is above `b`. -/
theorem launch_round_timely (hw : w.Clocked clock) (hb : 0 < b) (htimeouts : TimeoutsAtMost w cfg b)
    (o : ω) {v : Bool} (hn : (launch w cfg fuel n).runFrom (.init cfg o) = (.ok false, e'))
    (hr : (launch w cfg fuel (n + 1)).runFrom (.init cfg o) = (.ok v, e'')) :
    clock e'.world ≤ clock e''.world ∧ ∀ (s : Fd) sm, e''.lvl4Sms[s]? = some sm →
      sm.valid = true → clock e'.world - sm.ts < b := by
  obtain ⟨_, e₁, h₁, hn⟩ := bind_eq_ok.mp hn
  obtain ⟨_, e₂, h₂, hn⟩ := bind_eq_ok.mp hn
  obtain ⟨_, e₃, h₃, hn⟩ := bind_eq_ok.mp hn
  obtain ⟨_, e₁', h₁', hr⟩ := bind_eq_ok.mp hr
  obtain ⟨_, e₂', h₂', hr⟩ := bind_eq_ok.mp hr
  obtain ⟨_, e₃', h₃', hr⟩ := bind_eq_ok.mp hr
  obtain ⟨-, rfl⟩ := Prod.mk.inj (h₁.symm.trans h₁')
  obtain ⟨-, rfl⟩ := Prod.mk.inj (h₂.symm.trans h₂')
  obtain ⟨-, rfl⟩ := Prod.mk.inj (h₃.symm.trans h₃')
  have htimely := (Timely.scanPass hw hb htimeouts).of_ok (scanLoop_succ hn hr)
  exact ⟨htimely.reached, htimely.recent⟩

/-- The world `w` with a clock of its own, which counts the calls of `epoll_wait`. -/
def World.ticking (w : World ω F) : World (ω × ℤ) F where
  socket k p o := ((w.socket k p o.1).1, ((w.socket k p o.1).2, o.2))
  connect k s t o := ((w.connect k s t o.1).1, ((w.connect k s t o.1).2, o.2))
  epollWait k o := ((w.epollWait k o.1).1, ((w.epollWait k o.1).2, o.2 + 1))
  soError k s o := ((w.soError k s o.1).1, ((w.soError k s o.1).2, o.2))
  bytesAvail k s o := ((w.bytesAvail k s o.1).1, ((w.bytesAvail k s o.1).2, o.2))
  read s n o := ((w.read s n o.1).1, ((w.read s n o.1).2, o.2))
  getpeername k s o := ((w.getpeername k s o.1).1, ((w.getpeername k s o.1).2, o.2))
  timestamp o := (o.2, o)
  initTargets o := (w.initTargets o.1, o.2)
  nextTarget o := ((w.nextTarget o.1).1, ((w.nextTarget o.1).2, o.2))
  targetFinished t hsm o := ((w.targetFinished t hsm o.1).1, ((w.targetFinished t hsm o.1).2, o.2))
  initHostSm t hsm o := ((w.initHostSm t hsm o.1).1, ((w.initHostSm t hsm o.1).2, o.2))
  saveState o := (w.saveState o.1, o.2)
  callback cb o := ((w.callback cb o.1).1, ((w.callback cb o.1).2, o.2))
  socket_fresh := fun h => w.socket_fresh h
  epollWait_registered := fun h => w.epollWait_registered h
  epollWait_nodup := fun h => w.epollWait_nodup h
  epollWait_length := fun h => w.epollWait_length h

theorem World.ticking_clocked (w : World ω F) : w.ticking.Clocked (fun o => o.2) where
  read := fun _ => le_refl _
  asked := by
    intro o o' h
    cases h with
    | epollWait => exact (lt_add_one _).le
    | _ => exact le_refl _
  nextTarget := fun _ => le_refl _
  targetFinished := fun _ _ _ => le_refl _
  initHostSm := fun _ _ _ => le_refl _
  saveState := fun _ => le_refl _

/-- Two targets that never answer. -/
def silentTargets : Script := ⟨[⟨1, ⟨80, .tcp⟩⟩, ⟨2, ⟨80, .tcp⟩⟩], [], [], [], 0, 0⟩

/-- At most `n` rounds of their scan with `k` sockets. -/
def tickingScan (k : UInt32) (n : ℕ) : Except Fault Bool × Engine (Script × ℤ) Unit :=
  (launch (Script.world Script.goOn).ticking (.plain k) 3 n).runFrom
    (.init (.plain k) (silentTargets, 0))

theorem plain_timeouts {k : UInt32} : TimeoutsAtMost w (.plain k) 5 := by
  simp [TimeoutsAtMost, Config.plain]

theorem tickingScan_eq {k : UInt32} {n : ℕ} {v : Bool} (h : (tickingScan k n).1 = .ok v) :
    (launch (Script.world Script.goOn).ticking (.plain k) 3 n).runFrom
      (.init (.plain k) (silentTargets, 0)) = (.ok v, (tickingScan k n).2) :=
  Prod.ext h rfl

/-- The first connection is timed out in the fifth round, and its descriptor is used again. -/
theorem launch_round_timely_ticking :
    ((tickingScan 1 4).2.lvl4Sms[(1 : Fd)]?.map fun sm => (sm.valid, sm.ts)) = some (true, 0) ∧
      ((tickingScan 1 5).2.lvl4Sms[(1 : Fd)]?.map fun sm => (sm.valid, sm.ts)) = some (true, 5) ∧
        ∀ (s : Fd) sm, (tickingScan 1 (4 + 1)).2.lvl4Sms[s]? = some sm → sm.valid = true →
          (tickingScan 1 4).2.world.2 - sm.ts < ((5 : ℕ) : ℤ) := by
  have hn : (tickingScan 1 4).1 = .ok false := by decide +kernel
  have hr : (tickingScan 1 (4 + 1)).1 = .ok false := by decide +kernel
  refine ⟨by decide +kernel, by decide +kernel, ?_⟩
  generalize 4 = n at hn hr ⊢
  exact (launch_round_timely (World.ticking_clocked _) (by decide) plain_timeouts _
    (tickingScan_eq hn) (tickingScan_eq hr)).2

end Nodescan
