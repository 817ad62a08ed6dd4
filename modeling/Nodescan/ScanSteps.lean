import Nodescan.Launching
import Nodescan.HostInvariants

/-!
# A scan as a sequence of steps

The moves of a run forget what the world was asked and which callbacks were made. The steps below
keep both. A step launches or finishes a target, calls back, works on the bytes of a connection, or
is neutral: it only asks the system or keeps the books. Every phase that returns is a sequence of
steps, so an invariant that ties the log, the target set and the registry together is shown for
each kind of step once.
-/

namespace Nodescan

open FaultM EngineM

variable {ω F : Type}

/-- A machine after bookkeeping: it has the trigger and the bytes it had, or it is new. -/
def KeepsMachines (e e' : Engine ω F) : Prop :=
  ∀ (s : Fd) sm', e'.lvl4Sms[s]? = some sm' →
    (∃ sm, e.lvl4Sms[s]? = some sm ∧ sm'.trigger = sm.trigger ∧ sm'.buf = sm.buf) ∨
      (sm'.trigger = .base ∧ sm'.buf = [])

structure Neutral (w : World ω F) (e e' : Engine ω F) : Prop where
  targets : e'.socketsTargets = e.socketsTargets
  socks : e'.kernel.socks = e.kernel.socks
  machines : KeepsMachines e e'
  hosts : KeepsHosts e e'
  asked : Relation.ReflTransGen w.Asked e.world e'.world
  log : e'.log = e.log

/-- The callbacks that are neither triggers nor the end of a connection. -/
def Callback.isPlain : Callback F → Bool
  | .connected _ _ => true
  | .watchTimeout _ => true
  | .timeoutOfTarget _ => true
  | .status _ _ => true
  | _ => false

/-- The engine once the callback `cb` has returned. -/
def Engine.calledBack (w : World ω F) (cb : Callback F) (e : Engine ω F) : Engine ω F :=
  { e with
    world := (w.callback cb e.world).2
    log := .returned cb (cb.goesOn (w.callback cb e.world).1.1) (w.callback cb e.world).1.2 ::
      .called cb :: e.log }.callAll (w.callback cb e.world).1.2

/-- The announcement of a reconnection and the reconnection, in `process_connected_ready`. -/
def EngineM.announceReconnect (w : World ω F) (cfg : Config F) (s : Fd) (t : Target)
    (buf : List UInt8) : EngineM ω F Unit := do
  callbackFinish w cfg t buf Errors.willReconnect.code
  modify (·.modifySm s Lvl4SM.freeBuffer)
  reconnect w cfg s t

/-- The bytes of a connection are worked on, after a `read` or in a dirty pass. -/
def WorksOn (w : World ω F) (ct : ConnectedTarget) (sm : Lvl4SM F) (e : Engine ω F)
    (r : Except Fault (Bool × Lvl4SM F × Engine ω F)) : Prop :=
  ∃ fuel, (∃ navail res, sm.processLvl4Data (actions w) ct fuel navail res e = r) ∨
    sm.processBuffer (actions w) ct fuel e = r

inductive Step (w : World ω F) (cfg : Config F) : Engine ω F → Engine ω F → Prop
  | neutral {e e'} (h : Neutral w e e') : Step w cfg e e'
  | marked (e) : Step w cfg e e.marked
  | saved (e) : Step w cfg e { e with world := w.saveState e.world }
  | called (e) {cb} (h : cb.isPlain = true) : Step w cfg e (e.calledBack w cb)
  | worked {e e₁ s t sm sm' v} (ht : e.socketsTargets[s]? = some t)
      (hs : e.lvl4Sms[s]? = some sm) (h : WorksOn w ⟨t, s⟩ sm e (.ok (v, sm', e₁))) :
      Step w cfg e { e₁ with lvl4Sms := e₁.lvl4Sms.insert s sm' }
  | drawn {e} (h : ∀ t, (w.nextTarget e.world).1 = .target t → t.isEnd = true) :
      Step w cfg e (e.afterDraw w)
  | started {e e₁ e' t r} (h : Given w cfg t (.ok r) e e₁) (hs : IsStarted r)
      (ha : (addStarted w r.1 t).runFrom e₁ = (.ok (), e')) : Step w cfg e e'
  | refused {e e' t} (h : FailedRound w cfg t e e') : Step w cfg e e'
  | finished {e e' s err} (h : (socketFinished w cfg s err).runFrom e = (.ok (), e')) :
      Step w cfg e e'
  | reconnected {e e' s t buf} (ht : e.socketsTargets[s]? = some t)
      (h : (announceReconnect w cfg s t buf).runFrom e = (.ok (), e')) : Step w cfg e e'

abbrev Steps (w : World ω F) (cfg : Config F) : Engine ω F → Engine ω F → Prop :=
  Relation.ReflTransGen (Step w cfg)

variable {w : World ω F} {cfg : Config F} {fuel : ℕ} {e e' e'' : Engine ω F} {α : Type}

/-- What an invariant has to meet to hold along every scan. -/
theorem Steps.invariant {I : Engine ω F → Prop} (hstep : ∀ e e', Step w cfg e e' → I e → I e')
    (h : Steps w cfg e e') (he : I e) : I e' := by
  induction h with
  | refl => exact he
  | tail _ hs ih => exact hstep _ _ hs ih

namespace KeepsMachines

theorem refl (e : Engine ω F) : KeepsMachines e e := fun _ sm' h => Or.inl ⟨sm', h, rfl, rfl⟩

theorem of_eq (h : e'.lvl4Sms = e.lvl4Sms) : KeepsMachines e e' := by
  intro s sm' hs
  rw [h] at hs
  exact Or.inl ⟨sm', hs, rfl, rfl⟩

theorem trans (h : KeepsMachines e e') (h' : KeepsMachines e' e'') : KeepsMachines e e'' := by
  intro s sm'' hs
  rcases h' s sm'' hs with ⟨sm', hs', ht, hb⟩ | hnew
  · rw [ht, hb]
    exact h s sm' hs'
  · exact Or.inr hnew

theorem modifySm (s : Fd) {f : Lvl4SM F → Lvl4SM F} (ht : ∀ sm, (f sm).trigger = sm.trigger)
    (hb : ∀ sm, (f sm).buf = sm.buf) : KeepsMachines e (e.modifySm s f) := by
  intro a sm' ha
  change (e.lvl4Sms.modify s f)[a]? = some sm' at ha
  rw [TreeMaps.getElem?_modify] at ha
  by_cases has : a = s
  · subst has
    rw [if_pos rfl, Option.map_eq_some_iff] at ha
    obtain ⟨sm, hsm, rfl⟩ := ha
    exact Or.inl ⟨sm, hsm, ht sm, hb sm⟩
  · rw [if_neg has] at ha
    exact Or.inl ⟨sm', ha, rfl, rfl⟩

theorem fresh (s : Fd) (now : ℤ) :
    KeepsMachines e { e with lvl4Sms := e.lvl4Sms.insert s (.new now) } := by
  intro a sm' ha
  rw [TreeMaps.getElem?_insert] at ha
  split_ifs at ha
  · rw [← Option.some.inj ha]
    exact Or.inr ⟨rfl, rfl⟩
  · exact Or.inl ⟨sm', ha, rfl, rfl⟩

end KeepsMachines

namespace Neutral

theorem refl (e : Engine ω F) : Neutral w e e :=
  ⟨rfl, rfl, .refl e, .of_eq rfl, .refl, rfl⟩

theorem trans (h : Neutral w e e') (h' : Neutral w e' e'') : Neutral w e e'' where
  targets := h'.targets.trans h.targets
  socks := h'.socks.trans h.socks
  machines := h.machines.trans h'.machines
  hosts := h.hosts.trans h'.hosts
  asked := h.asked.trans h'.asked
  log := h'.log.trans h.log

/-- An update of what no step speaks of. -/
theorem of_eq (ht : e'.socketsTargets = e.socketsTargets) (hk : e'.kernel.socks = e.kernel.socks)
    (hs : e'.lvl4Sms = e.lvl4Sms) (hh : e'.hostsSms = e.hostsSms) (ho : e'.world = e.world)
    (hl : e'.log = e.log) : Neutral w e e' :=
  ⟨ht, hk, .of_eq hs, .of_eq hh, by rw [ho], hl⟩

theorem modifySm (s : Fd) {f : Lvl4SM F → Lvl4SM F} (ht : ∀ sm, (f sm).trigger = sm.trigger)
    (hb : ∀ sm, (f sm).buf = sm.buf) : Neutral w e (e.modifySm s f) :=
  ⟨rfl, rfl, .modifySm s ht hb, .of_eq rfl, .refl, rfl⟩

theorem steps (h : Neutral w e e') : Steps w cfg e e' := .single (.neutral h)

end Neutral

/-- `x` is neutral if it returns. -/
def NeutralRun (w : World ω F) (x : EngineM ω F α) (e : Engine ω F) : Prop :=
  Runs x e (fun _ e' => Neutral w e e') (fun _ _ => True)

namespace NeutralRun

theorem bind {β : Type} {x : EngineM ω F α} {f : α → EngineM ω F β} (hx : NeutralRun w x e)
    (hf : ∀ a e', Neutral w e e' → NeutralRun w (f a) e') : NeutralRun w (x >>= f) e := by
  refine Runs.bind hx (fun a e' h => ?_)
  exact (hf a e' h).mono (fun _ _ h' => h.trans h') (fun _ _ h' => h')

theorem ask {f : ω → α × ω} (hf : ∀ o, w.Asked o (f o).2) :
    NeutralRun w (EngineM.ask (F := F) f) e :=
  ⟨rfl, rfl, .of_eq rfl, .of_eq rfl, .single (hf e.world), rfl⟩

theorem hostSm (ip : UInt32) : NeutralRun w (EngineM.hostSm (ω := ω) (F := F) ip) e := by
  refine (hostSm_insertIfNew ip).mono (fun _ e' h => ?_) (fun _ _ _ => trivial)
  rw [h]
  exact ⟨rfl, rfl, .of_eq rfl, .insertIfNew ip, .refl, rfl⟩

theorem lvl4Sm (s : Fd) : Runs (EngineM.lvl4Sm w s) e
    (fun sm e' => Neutral w e e' ∧ e'.lvl4Sms[s]? = some sm) (fun _ _ => True) := by
  unfold EngineM.lvl4Sm
  apply Runs.read
  cases h : e.lvl4Sms[s]? with
  | some sm => exact ⟨Neutral.refl e, h⟩
  | none =>
    refine ⟨⟨rfl, rfl, .fresh s _, .of_eq rfl, .single (.timestamp e.world), rfl⟩, ?_⟩
    change (e.lvl4Sms.insert s _)[s]? = _
    rw [TreeMaps.getElem?_insert, if_pos rfl]

theorem updateTs (s : Fd) : NeutralRun w (EngineM.updateTs w s) e :=
  bind (ask .timestamp) (fun _ _ _ => Neutral.modifySm s (fun _ => rfl) (fun _ => rfl))

end NeutralRun

/-- `x` is a sequence of steps if it returns. -/
def StepRun (w : World ω F) (cfg : Config F) (x : EngineM ω F α) (e : Engine ω F) : Prop :=
  Runs x e (fun _ e' => Steps w cfg e e') (fun _ _ => True)

namespace StepRun

theorem bind {β : Type} {x : EngineM ω F α} {f : α → EngineM ω F β} (hx : StepRun w cfg x e)
    (hf : ∀ a e', StepRun w cfg (f a) e') : StepRun w cfg (x >>= f) e := by
  refine Runs.bind hx (fun a e' h => ?_)
  exact (hf a e').mono (fun _ _ h' => h.trans h') (fun _ _ h' => h')

theorem ret (a : α) : StepRun w cfg (pure a : EngineM ω F α) e := Relation.ReflTransGen.refl

theorem update {f : Engine ω F → Engine ω F} (h : Neutral w e (f e)) :
    StepRun w cfg (modify f : EngineM ω F Unit) e := h.steps

theorem of_neutral {x : EngineM ω F α} (h : NeutralRun w x e) : StepRun w cfg x e :=
  h.mono (fun _ _ h => h.steps) (fun _ _ h => h)

/-- What follows on a neutral run. -/
theorem after {β : Type} {x : EngineM ω F α} {f : α → EngineM ω F β} {Q : α → Engine ω F → Prop}
    (hx : Runs x e (fun a e' => Neutral w e e' ∧ Q a e') (fun _ _ => True))
    (hf : ∀ a e', Neutral w e e' → Q a e' → StepRun w cfg (f a) e') :
    StepRun w cfg (x >>= f) e := by
  refine Runs.bind hx (fun a e' h => ?_)
  exact (hf a e' h.1 h.2).mono (fun _ _ h' => h.1.steps.trans h') (fun _ _ h' => h')

theorem afterNeutral {β : Type} {x : EngineM ω F α} {f : α → EngineM ω F β}
    (hx : NeutralRun w x e) (hf : ∀ a e', Neutral w e e' → StepRun w cfg (f a) e') :
    StepRun w cfg (x >>= f) e :=
  after (Q := fun _ _ => True) (hx.mono (fun _ _ h => ⟨h, trivial⟩) (fun _ _ h => h))
    (fun a e' h _ => hf a e' h)

theorem callback {cb : Callback F} (h : cb.isPlain = true) :
    StepRun w cfg (EngineM.callback w cb) e :=
  .single (.called e h)

theorem socketFinished (s : Fd) (err : ℤ) : StepRun w cfg (EngineM.socketFinished w cfg s err) e :=
  Runs.intro (fun _ _ hr => .single (.finished hr)) (fun _ _ _ => trivial)

theorem forM {f : α → EngineM ω F Unit} (xs : List α) (hf : ∀ a e, StepRun w cfg (f a) e) :
    StepRun w cfg (xs.forM f) e := by
  induction xs generalizing e with
  | nil => exact ret ()
  | cons a xs ih => exact bind (hf a e) (fun _ _ => ih)

/-- The machine of `s` is worked on and put back. -/
theorem onLvl4Sm {s : Fd} {t : Target}
    {f : Lvl4SM F → Engine ω F → Except Fault (Bool × Lvl4SM F × Engine ω F)}
    (ht : e.socketsTargets[s]? = some t) (hf : ∀ sm e, WorksOn w ⟨t, s⟩ sm e (f sm e)) :
    StepRun w cfg (EngineM.onLvl4Sm s f) e := by
  unfold EngineM.onLvl4Sm
  apply Runs.read
  cases hs : e.lvl4Sms[s]? with
  | none => exact trivial
  | some sm =>
    cases hr : f sm e with
    | error fault =>
      simp only [hr]
      exact trivial
    | ok r =>
      obtain ⟨v, sm', e₁⟩ := r
      simp only [hr]
      exact .single (.worked ht hs (hr ▸ hf sm e))

theorem onConnect (s : Fd) (t : Target) : StepRun w cfg (EngineM.onConnect w s t) e := by
  unfold EngineM.onConnect
  refine after (NeutralRun.lvl4Sm s) (fun sm e₁ _ _ => ?_)
  cases sm.funcConnect with
  | none => exact ret false
  | some f => exact callback rfl

theorem processConnectingReady (s : Fd) :
    StepRun w cfg (EngineM.processConnectingReady w cfg s) e := by
  unfold EngineM.processConnectingReady
  apply Runs.read
  refine bind (of_neutral (NeutralRun.ask (.soError _ _))) (fun err e₁ => ?_)
  split_ifs
  · exact socketFinished s err
  · refine bind ((targetFromSocket_spec s).mono (fun _ _ h => h.1 ▸ .refl) (fun _ _ _ => trivial))
      (fun t e₂ => ?_)
    refine bind (of_neutral (NeutralRun.hostSm _)) (fun _ e₃ => ?_)
    refine bind (onConnect s t) (fun ret e₄ => ?_)
    split_ifs
    · refine bind (update (Neutral.of_eq rfl (Kernel.epollAdd_socks _ _ _) rfl rfl rfl rfl))
        (fun _ e₅ => ?_)
      exact of_neutral (NeutralRun.updateTs s)
    · exact socketFinished s 0

theorem processConnectedReady {s : Fd} {t : Target} (ht : e.socketsTargets[s]? = some t) :
    StepRun w cfg (EngineM.processConnectedReady w cfg fuel s t) e := by
  unfold EngineM.processConnectedReady
  apply Runs.read
  refine afterNeutral (NeutralRun.ask (.bytesAvail _ _)) (fun navail e₁ h₁ => ?_)
  refine after (NeutralRun.lvl4Sm s) (fun sm e₂ h₂ _ => ?_)
  split_ifs
  · refine Runs.intro (fun _ _ hr => .single (.reconnected ?_ hr)) (fun _ _ _ => trivial)
    rw [h₂.targets, h₁.targets, ht]
  · exact socketFinished s _
  · refine afterNeutral (NeutralRun.hostSm _) (fun _ e₃ h₃ => ?_)
    refine afterNeutral (NeutralRun.ask (.read _ _)) (fun r e₄ h₄ => ?_)
    have ht₄ : e₄.socketsTargets[s]? = some t := by
      rw [h₄.targets, h₃.targets, h₂.targets, h₁.targets, ht]
    refine bind (onLvl4Sm ht₄ (fun sm e => ⟨fuel, Or.inl ⟨navail, r, rfl⟩⟩)) (fun ret e₅ => ?_)
    refine bind (of_neutral (NeutralRun.updateTs s)) (fun _ e₆ => ?_)
    split_ifs
    · exact StepRun.ret ()
    · exact socketFinished s 0

theorem processEvent (ev : EpollEvent) : StepRun w cfg (EngineM.processEvent w cfg fuel ev) e := by
  unfold EngineM.processEvent
  split_ifs
  · exact after (NeutralRun.lvl4Sm _) (fun _ e₁ _ _ => processConnectingReady _)
  · refine after (Q := fun t e' => e'.socketsTargets[ev.fd]? = some t) ?_ (fun t e₁ _ ht => ?_)
    · refine (targetFromSocket_spec ev.fd).mono (fun t e' h => ?_) (fun _ _ _ => trivial)
      rw [h.1]
      exact ⟨Neutral.refl e, h.2⟩
    · refine after (NeutralRun.lvl4Sm _) (fun _ e₂ h₂ _ => processConnectedReady ?_)
      rw [h₂.targets, ht]
  · exact ret ()

theorem processEvents : StepRun w cfg (EngineM.processEvents w cfg fuel) e := by
  unfold EngineM.processEvents
  apply Runs.read
  refine bind (of_neutral (NeutralRun.ask (.epollWait _))) (fun r e₁ => ?_)
  cases r with
  | none => exact ret _
  | some evs => exact bind (forM evs (fun ev _ => processEvent ev)) (fun _ _ => ret _)

theorem hasTimedout (ts : ℤ) (s : Fd) (sm : Lvl4SM F) :
    StepRun w cfg (EngineM.hasTimedout w cfg ts s sm) e := by
  have htimeout : StepRun w cfg (timeoutOfTarget w cfg s) e := by
    unfold timeoutOfTarget
    apply Runs.read
    refine bind (of_neutral (NeutralRun.ask (.getpeername _ _))) (fun peer e₁ => ?_)
    split_ifs
    · exact callback rfl
    · exact ret _
  have hwatch : ∀ e, StepRun w cfg (hasWatchTimedout w cfg ts s sm.watchTs) e := by
    intro e
    unfold hasWatchTimedout
    split_ifs
    · exact ret _
    · apply Runs.read
      refine bind (of_neutral (NeutralRun.ask (.getpeername _ _))) (fun peer e₁ => ?_)
      refine bind (callback rfl) (fun goOn e₂ => ?_)
      split_ifs
      · exact bind (update (Neutral.modifySm s (fun _ => rfl) (fun _ => rfl))) (fun _ _ => ret _)
      · exact ret _
    · exact ret _
  refine bind htimeout (fun timeoutTarget e₁ => ?_)
  split_ifs
  · exact ret _
  · exact hwatch e₁

theorem inspect (ts : ℤ) (s : Fd) (l : WorkLists) :
    StepRun w cfg (EngineM.inspect w cfg ts s l) e := by
  unfold EngineM.inspect
  apply Runs.read
  cases e.lvl4Sms[s]? with
  | none => exact ret l
  | some sm =>
    dsimp only
    split_ifs
    · refine bind (update (Neutral.modifySm s (fun _ => rfl) (fun _ => rfl))) (fun _ e₁ => ?_)
      exact bind (hasTimedout ts s sm) (fun _ _ => ret _)
    · exact ret l

theorem inspectAll (ts : ℤ) (ss : List Fd) (l : WorkLists) :
    StepRun w cfg (EngineM.inspectAll w cfg ts ss l) e := by
  induction ss generalizing e l with
  | nil => exact ret l
  | cons s ss ih => exact bind (inspect ts s l) (fun l' _ => ih l')

theorem reprocess (ss : List Fd) : StepRun w cfg (EngineM.reprocess w cfg fuel ss) e := by
  induction ss generalizing e with
  | nil => exact ret []
  | cons s ss ih =>
    rw [EngineM.reprocess]
    refine after (Q := fun t e' => e'.socketsTargets[s]? = some t) ?_ (fun t e₁ _ ht => ?_)
    · refine (targetFromSocket_spec s).mono (fun t e' h => ?_) (fun _ _ _ => trivial)
      rw [h.1]
      exact ⟨Neutral.refl e, h.2⟩
    refine afterNeutral (NeutralRun.hostSm _) (fun _ e₂ h₂ => ?_)
    refine bind (onLvl4Sm (h₂.targets ▸ ht) (fun sm e => ⟨fuel, Or.inr rfl⟩)) (fun v e₃ => ?_)
    split_ifs
    · exact ih
    · exact bind (socketFinished s 0) (fun _ _ => bind ih (fun _ _ => ret _))

theorem processDirtyAndTimeouts :
    StepRun w cfg (EngineM.processDirtyAndTimeouts w cfg fuel) e := by
  have hlists : StepRun w cfg (workLists w cfg) e := by
    unfold workLists
    refine bind (of_neutral (NeutralRun.ask .timestamp)) (fun ts e₁ => ?_)
    exact Runs.read (inspectAll ts _ _)
  unfold EngineM.processDirtyAndTimeouts
  refine bind hlists (fun l e₁ => bind (reprocess l.toProcess) (fun _ e₂ => ?_))
  exact bind (forM l.timeouted (fun s _ => socketFinished s _)) (fun _ _ => ret _)

theorem displayStatus : StepRun w cfg (EngineM.displayStatus w cfg) e := by
  have hshould : StepRun w cfg (shouldCallStatusDisplay w cfg) e := by
    unfold shouldCallStatusDisplay
    split_ifs
    · exact ret _
    · refine bind (of_neutral (NeutralRun.ask .timestamp)) (fun now e₁ => ?_)
      apply Runs.read
      split_ifs
      · exact bind (update (Neutral.of_eq rfl rfl rfl rfl rfl rfl)) (fun _ _ => ret _)
      · exact ret _
  unfold EngineM.displayStatus
  refine bind hshould (fun b e₁ => ?_)
  split_ifs
  · exact Runs.read (callback rfl)
  · exact ret ()

end StepRun

/-- What `process_free_socks` does with a connection that was started. -/
structure StartsHost (w : World ω F) (t : Target) (e e' : Engine ω F) : Prop where
  targets : e'.socketsTargets = e.socketsTargets
  socks : e'.kernel.socks = e.kernel.socks
  machines : e'.lvl4Sms = e.lvl4Sms
  log : e'.log = e.log
  hosts : ∀ ip : UInt32, e'.hostsSms[ip]? = if ip = t.ipv4 then
    some (w.initHostSm t (e.hostsSms[t.ipv4]?.getD .new) e.world).1 else e.hostsSms[ip]?
  world : e'.world = (w.initHostSm t (e.hostsSms[t.ipv4]?.getD .new) e.world).2

theorem hostSm_value (ip : UInt32) : Runs (hostSm (ω := ω) (F := F) ip) e
    (fun hsm e' => hsm = e.hostsSms[ip]?.getD .new ∧
      e' = { e with hostsSms := e.hostsSms.insertIfNew ip .new }) (fun _ _ => False) := by
  refine Runs.intro (fun hsm e' hr => ⟨?_, (hostSm_insertIfNew ip).of_ok hr⟩)
    (fun f e' hr => (hostSm_insertIfNew ip).of_error hr)
  unfold hostSm at hr
  cases h : e.hostsSms[ip]? with
  | some hsm' =>
    simp only [runFrom_bind, runFrom_get, h, runFrom_pure] at hr
    exact (Except.ok.inj (Prod.mk.inj hr).1).symm
  | none =>
    simp only [runFrom_bind, runFrom_get, h, runFrom_modify, runFrom_pure] at hr
    exact (Except.ok.inj (Prod.mk.inj hr).1).symm

theorem addStarted_startsHost (s : Fd) (t : Target) :
    Runs (addStarted w s t) e (fun _ e' => StartsHost w t e e') (fun _ _ => False) := by
  unfold addStarted
  refine Runs.bind (hostSm_value t.ipv4) ?_
  rintro hsm _ ⟨rfl, rfl⟩
  refine ⟨rfl, Kernel.epollAdd_socks _ _ _, rfl, rfl, fun ip => ?_, rfl⟩
  change ((e.hostsSms.insertIfNew t.ipv4 .new).insert t.ipv4 _)[ip]? = _
  rw [TreeMaps.getElem?_insert, TreeMaps.getElem?_insertIfNew]
  by_cases hip : ip = t.ipv4
  · simp [hip]
  · simp [hip]

/-- The launch loop is a sequence of steps up to a connection that it has started. -/
def LaunchSteps (w : World ω F) (cfg : Config F) (e : Engine ω F) :
    Except Fault LaunchResult × Engine ω F → Prop
  | (.ok (.started s t), e₁) => ∃ e₀ r, Steps w cfg e e₀ ∧ Given w cfg t (.ok r) e₀ e₁ ∧
      IsStarted r ∧ r.1 = s
  | (.ok _, e₁) => Steps w cfg e e₁
  | (.error _, _) => True

theorem Launching.steps {ds : List NextTarget} {gs : List Target}
    {r : Except Fault LaunchResult × Engine ω F} (h : Launching w cfg e ds gs r) :
    LaunchSteps w cfg e r := by
  induction h with
  | cut e => exact trivial
  | wouldBlock h => exact .single (.drawn (fun t ht => by simp [h] at ht))
  | ended h hend =>
    refine .single (.drawn (fun t ht => ?_))
    rw [h] at ht
    rwa [← NextTarget.target.inj ht]
  | started h hs => exact ⟨_, _, .refl, h, hs, rfl⟩
  | notCreated h => exact trivial
  | notFinished h _ _ => exact trivial
  | @failed e e₁ t ds gs r h _ ih =>
    match r, ih with
    | (.error f, _), _ => exact trivial
    | (.ok (.started s t), _), ⟨e₀, r, hs, hrest⟩ =>
      exact ⟨e₀, r, .head (.refused h) hs, hrest⟩
    | (.ok .noTarget, _), hs => exact .head (.refused h) hs
    | (.ok .wouldBlock, _), hs => exact .head (.refused h) hs

theorem FreeSocks.steps {n : ℕ} {ds : List NextTarget} {gs : List Target}
    {r : Except Fault Bool × Engine ω F} (h : FreeSocks w cfg n e ds gs r)
    (hr : ∀ f, r.1 ≠ .error f) : Steps w cfg e r.2 := by
  induction h with
  | done e => exact .refl
  | noTarget h => exact h.steps
  | wouldBlock h => exact h.steps
  | stopped h => exact absurd rfl (hr _)
  | next h ha _ ih =>
    obtain ⟨e₀, r, hs, hgiven, hstarted, rfl⟩ := h.steps
    exact (hs.tail (.started hgiven hstarted ha)).trans (ih hr)

theorem processFreeSocks_steps : StepRun w cfg (processFreeSocks w cfg fuel) e := by
  refine Runs.intro (fun b e' hr => ?_) (fun _ _ _ => trivial)
  have hrun : (freeSocksLoop w cfg fuel e.availSocks).runFrom e.marked = (.ok b, e') := hr
  obtain ⟨ds, gs, h⟩ := freeSocksLoop_freeSocks w cfg fuel e.availSocks e.marked
  rw [hrun] at h
  exact .head (.marked e) (h.steps (by simp))

theorem Phase.steps {p : Phase} (h : (p.run w cfg fuel).runFrom e = (.ok (), e')) :
    Steps w cfg e e' := by
  have hrun : StepRun w cfg (p.run w cfg fuel) e := by
    cases p with
    | freeSocks => exact StepRun.bind processFreeSocks_steps (fun _ _ => StepRun.ret ())
    | events => exact StepRun.bind StepRun.processEvents (fun _ _ => StepRun.ret ())
    | dirty => exact StepRun.bind StepRun.processDirtyAndTimeouts (fun _ _ => StepRun.ret ())
    | status => exact StepRun.displayStatus
  exact hrun.of_ok h

theorem Reachable.steps (h : Reachable w cfg e) : ∃ o, Steps w cfg (.init cfg o) e := by
  induction h with
  | init o => exact ⟨o, .refl⟩
  | phase _ hr ih =>
    obtain ⟨o, hs⟩ := ih
    exact ⟨o, hs.trans (Phase.steps hr)⟩

theorem scanPass_steps : StepRun w cfg (scanPass w cfg fuel) e := by
  unfold scanPass
  refine StepRun.bind StepRun.processEvents (fun nfds e₁ => ?_)
  refine StepRun.bind StepRun.processDirtyAndTimeouts (fun nValid e₂ => ?_)
  refine StepRun.bind processFreeSocks_steps (fun more e₃ => ?_)
  split_ifs
  · exact StepRun.ret true
  · refine StepRun.bind StepRun.displayStatus (fun _ e₄ => ?_)
    exact StepRun.bind (.single (.saved e₄)) (fun _ _ => StepRun.ret false)

theorem scanLoop_steps (n : ℕ) : StepRun w cfg (scanLoop w cfg fuel n) e := by
  induction n generalizing e with
  | zero => exact StepRun.ret false
  | succ n ih =>
    rw [scanLoop]
    refine StepRun.bind scanPass_steps (fun b e₁ => ?_)
    split_ifs
    · exact StepRun.ret true
    · exact ih

theorem doAsyncScan_steps (n : ℕ) : StepRun w cfg (doAsyncScan w cfg fuel n) e := by
  unfold doAsyncScan
  refine StepRun.bind (StepRun.update (Neutral.of_eq rfl rfl rfl rfl rfl rfl)) (fun _ e₁ => ?_)
  exact StepRun.bind processFreeSocks_steps (fun _ _ => scanLoop_steps n)

end Nodescan
