import Nodescan.Renaming

/-!
# Worlds with more in them

The engine only asks the world and hands its state on. A world may therefore keep a state of its
own beside that of another world, such as the file of the autosave or the queue of reinjected
targets. If it answers as the other world does, its runs are those of the other world, and all that
is known about them still holds.
-/

namespace Nodescan

open FaultM EngineM

variable {ω ω' F α : Type}

/-- `w'` answers as `w` does on the part of its state that `p` shows. Only `save_state` is left out,
which the engine calls between two rounds. -/
structure World.Shows (p : ω' → ω) (w' : World ω' F) (w : World ω F) : Prop where
  socket : ∀ k pr o, w.socket k pr (p o) = ((w'.socket k pr o).1, p (w'.socket k pr o).2)
  connect : ∀ k s t o, w.connect k s t (p o) = ((w'.connect k s t o).1, p (w'.connect k s t o).2)
  epollWait : ∀ k o, w.epollWait k (p o) = ((w'.epollWait k o).1, p (w'.epollWait k o).2)
  soError : ∀ k s o, w.soError k s (p o) = ((w'.soError k s o).1, p (w'.soError k s o).2)
  bytesAvail : ∀ k s o,
    w.bytesAvail k s (p o) = ((w'.bytesAvail k s o).1, p (w'.bytesAvail k s o).2)
  read : ∀ s n o, w.read s n (p o) = ((w'.read s n o).1, p (w'.read s n o).2)
  getpeername : ∀ k s o,
    w.getpeername k s (p o) = ((w'.getpeername k s o).1, p (w'.getpeername k s o).2)
  timestamp : ∀ o, w.timestamp (p o) = ((w'.timestamp o).1, p (w'.timestamp o).2)
  initTargets : ∀ o, w.initTargets (p o) = p (w'.initTargets o)
  nextTarget : ∀ o, w.nextTarget (p o) = ((w'.nextTarget o).1, p (w'.nextTarget o).2)
  targetFinished : ∀ t hsm o,
    w.targetFinished t hsm (p o) = ((w'.targetFinished t hsm o).1, p (w'.targetFinished t hsm o).2)
  initHostSm : ∀ t hsm o,
    w.initHostSm t hsm (p o) = ((w'.initHostSm t hsm o).1, p (w'.initHostSm t hsm o).2)
  callback : ∀ cb o, w.callback cb (p o) = ((w'.callback cb o).1, p (w'.callback cb o).2)

/-- The engine with what `p` shows of its world. -/
def Engine.shown (p : ω' → ω) (e : Engine ω' F) : Engine ω F where
  hostsSms := e.hostsSms
  lvl4Sms := e.lvl4Sms
  socketsTargets := e.socketsTargets
  availSocks := e.availSocks
  nlaunched := e.nlaunched
  ndone := e.ndone
  lastTimeStatusDisplay := e.lastTimeStatusDisplay
  kernel := e.kernel
  world := p e.world
  log := e.log
  fds_nonneg := e.fds_nonneg

variable {p : ω' → ω}

section Fields

variable (e : Engine ω' F)

@[simp] theorem Engine.shown_hostsSms : (e.shown p).hostsSms = e.hostsSms := rfl
@[simp] theorem Engine.shown_lvl4Sms : (e.shown p).lvl4Sms = e.lvl4Sms := rfl
@[simp] theorem Engine.shown_socketsTargets : (e.shown p).socketsTargets = e.socketsTargets := rfl
@[simp] theorem Engine.shown_availSocks : (e.shown p).availSocks = e.availSocks := rfl
@[simp] theorem Engine.shown_lastTime :
    (e.shown p).lastTimeStatusDisplay = e.lastTimeStatusDisplay := rfl
@[simp] theorem Engine.shown_world : (e.shown p).world = p e.world := rfl
@[simp] theorem Engine.shown_log : (e.shown p).log = e.log := rfl

end Fields

theorem Engine.shown_callAll (cs : List (Call F)) (e : Engine ω' F) :
    (e.shown p).callAll cs = (e.callAll cs).shown p := by
  induction cs generalizing e with
  | nil => rfl
  | cons c cs ih =>
    refine Eq.trans ?_ (ih (e.call c))
    change ((e.shown p).call c).callAll cs = _
    congr 1
    cases c with
    | onSm s c => rfl
    | ensureAvailableSockets n =>
      simp only [Engine.call, Engine.ensureAvailableSockets]
      by_cases h : e.availSocks < n
      · have h' : (e.shown p).availSocks < n := h
        rw [if_pos h, if_pos h']
        rfl
      · have h' : ¬ (e.shown p).availSocks < n := h
        rw [if_neg h, if_neg h']
    | setOnAlive ip a =>
      simp only [Engine.call, Engine.setOnAlive]
      by_cases h : ip ∈ e.hostsSms
      · have h' : ip ∈ (e.shown p).hostsSms := h
        rw [if_pos h, if_pos h']
        rfl
      · have h' : ip ∉ (e.shown p).hostsSms := h
        rw [if_neg h, if_neg h']

/-- What `y` does, `x` does on what is shown. -/
abbrev ShownAs (p : ω' → ω) (y : EngineM ω' F α) (x : EngineM ω F α) : Prop :=
  Projects (Engine.shown p) y x

namespace ShownAs

theorem ask {g : ω' → α × ω'} {f : ω → α × ω} (h : ∀ o, f (p o) = ((g o).1, p (g o).2)) :
    ShownAs p (EngineM.ask (F := F) g) (EngineM.ask f) := by
  refine Projects.updateGet (fun e => ?_)
  rw [Engine.shown_world, h]
  rfl

theorem note (ev : Event F) :
    ShownAs p (EngineM.note ev : EngineM ω' F Unit) (EngineM.note ev) :=
  Projects.update (fun _ => rfl)

theorem modifySm (s : Fd) (f : Lvl4SM F → Lvl4SM F) :
    ShownAs p (modify (·.modifySm s f) : EngineM ω' F PUnit) (modify (·.modifySm s f)) :=
  Projects.update (fun _ => rfl)

theorem targetFromSocket (s : Fd) :
    ShownAs p (EngineM.targetFromSocket s : EngineM ω' F Target) (EngineM.targetFromSocket s) := by
  refine Projects.read (fun e => ?_)
  rw [Engine.shown_socketsTargets]
  cases e.socketsTargets[s]? with
  | some t => exact Projects.ret t
  | none => exact Projects.fault _

theorem hostSm (ip : UInt32) :
    ShownAs p (EngineM.hostSm ip : EngineM ω' F HostSM) (EngineM.hostSm ip) := by
  refine Projects.read (fun e => ?_)
  rw [Engine.shown_hostsSms]
  cases e.hostsSms[ip]? with
  | some hsm => exact Projects.ret hsm
  | none => exact Projects.bind (Projects.update (fun _ => rfl)) (fun _ => Projects.ret _)

section Functions

variable {w' : World ω' F} {w : World ω F} (hw : w'.Shows p w) {cfg : Config F} {fuel : ℕ}

include hw

theorem callback (cb : Callback F) :
    ShownAs p (EngineM.callback w' cb) (EngineM.callback w cb) := by
  refine Projects.bind (note _) (fun _ => Projects.bind (ask (hw.callback cb)) (fun r => ?_))
  refine Projects.bind (note _) (fun _ => Projects.bind (Projects.update (fun e => ?_))
    (fun _ => Projects.ret _))
  exact Engine.shown_callAll _ e

theorem newLvl4Sm (s : Fd) : ShownAs p (EngineM.newLvl4Sm w' s) (EngineM.newLvl4Sm w s) :=
  Projects.bind (ask hw.timestamp) (fun _ => Projects.update (fun _ => rfl))

theorem lvl4Sm (s : Fd) : ShownAs p (EngineM.lvl4Sm w' s) (EngineM.lvl4Sm w s) := by
  refine Projects.read (fun e => ?_)
  rw [Engine.shown_lvl4Sms]
  cases e.lvl4Sms[s]? with
  | some sm => exact Projects.ret sm
  | none =>
    refine Projects.bind (ask hw.timestamp) (fun now => ?_)
    exact Projects.bind (Projects.update (fun _ => rfl)) (fun _ => Projects.ret _)

theorem updateTs (s : Fd) : ShownAs p (EngineM.updateTs w' s) (EngineM.updateTs w s) :=
  Projects.bind (ask hw.timestamp) (fun _ => modifySm s _)

theorem callbackFinish (t : Target) (buf : List UInt8) (err : ℤ) :
    ShownAs p (EngineM.callbackFinish w' cfg t buf err) (EngineM.callbackFinish w cfg t buf err) := by
  unfold EngineM.callbackFinish
  split_ifs
  · exact callback hw _
  · exact Projects.ret ()

theorem hostFinished (t : Target) :
    ShownAs p (EngineM.hostFinished w' t) (EngineM.hostFinished w t) := by
  refine Projects.bind (hostSm _) (fun hsm => ?_)
  refine Projects.bind (ask (hw.targetFinished t hsm)) (fun r => Projects.bind (note _) (fun _ => ?_))
  refine Projects.bind (Projects.update (fun _ => rfl)) (fun _ => ?_)
  split_ifs
  · exact Projects.update (fun _ => rfl)
  · exact Projects.ret ()

theorem socketFinished (s : Fd) (err : ℤ) :
    ShownAs p (EngineM.socketFinished w' cfg s err) (EngineM.socketFinished w cfg s err) := by
  refine Projects.bind (Projects.update (fun _ => rfl)) (fun _ => ?_)
  refine Projects.bind (targetFromSocket s) (fun t => Projects.bind (lvl4Sm hw s) (fun sm => ?_))
  refine Projects.bind (callbackFinish hw t _ err) (fun _ => Projects.bind (modifySm s _) (fun _ => ?_))
  exact Projects.bind (hostFinished hw t) (fun _ => Projects.update (fun _ => rfl))

theorem createSocket (t : Target) :
    ShownAs p (EngineM.createSocket w' cfg t) (EngineM.createSocket w cfg t) := by
  have hregister : ∀ n, ShownAs p (register w' cfg n t) (register w cfg n t) := by
    intro n
    refine Projects.bind (Projects.update (fun _ => rfl)) (fun _ => Projects.read (fun e => ?_))
    refine Projects.bind (ask (hw.connect _ _ t)) (fun err => ?_)
    refine Projects.bind (Projects.update (fun _ => rfl)) (fun _ => ?_)
    refine Projects.bind (newLvl4Sm hw n) (fun _ => Projects.bind (modifySm _ _) (fun _ => ?_))
    refine Projects.bind (updateTs hw n) (fun _ => ?_)
    exact Projects.bind (Projects.update (fun _ => rfl)) (fun _ => Projects.ret _)
  refine Projects.read (fun e => ?_)
  rw [Engine.shown_availSocks]
  split_ifs
  · exact Projects.fault _
  · refine Projects.bind (ask (hw.socket _ _)) (fun r => ?_)
    cases r with
    | none => exact Projects.ret _
    | some n => exact Projects.bind (hregister n) (fun _ => Projects.ret _)

theorem reconnect (s : Fd) (t : Target) :
    ShownAs p (EngineM.reconnect w' cfg s t) (EngineM.reconnect w cfg s t) := by
  refine Projects.bind (lvl4Sm hw s) (fun sm => Projects.bind (Projects.update (fun _ => rfl))
    (fun _ => ?_))
  refine Projects.bind (createSocket hw t) (fun r => Projects.bind (note _) (fun _ => ?_))
  refine Projects.bind (lvl4Sm hw r.1) (fun _ => Projects.bind (modifySm _ _) (fun _ => ?_))
  exact Projects.update (fun _ => rfl)

theorem processConnectingReady (s : Fd) :
    ShownAs p (EngineM.processConnectingReady w' cfg s)
      (EngineM.processConnectingReady w cfg s) := by
  have honConnect : ∀ t, ShownAs p (onConnect w' s t) (onConnect w s t) := by
    intro t
    refine Projects.bind (lvl4Sm hw s) (fun sm => ?_)
    cases sm.funcConnect with
    | none => exact Projects.ret false
    | some f => exact callback hw _
  refine Projects.read (fun e => Projects.bind (ask (hw.soError _ s)) (fun err => ?_))
  split_ifs
  · exact socketFinished hw s err
  · refine Projects.bind (targetFromSocket s) (fun t => Projects.bind (hostSm _) (fun _ => ?_))
    refine Projects.bind (honConnect t) (fun ret => ?_)
    split_ifs
    · exact Projects.bind (Projects.update (fun _ => rfl)) (fun _ => updateTs hw s)
    · exact socketFinished hw s 0

/-- The trigger callbacks of the two worlds. -/
theorem actions (ct : ConnectedTarget) :
    Actions.Renamed 1 (fun e e' => e = e'.shown p) ct (EngineM.actions w) (EngineM.actions w') := by
  have hcalled : ∀ cb (e' : Engine ω' F), EngineM.called w ct.s cb (e'.shown p) =
      ((EngineM.called w' ct.s cb e').1, (EngineM.called w' ct.s cb e').2.shown p) := by
    intro cb e'
    simp only [EngineM.called, Engine.shown_world, hw.callback cb e'.world]
    rw [← Engine.shown_callAll]
    rfl
  constructor
  · rintro e e' rfl f chunk
    constructor
    · simp only [EngineM.actions, hcalled]
      rfl
    · simp only [EngineM.actions, hcalled]
      rfl
  · rintro e e' rfl obj buf prevPos
    constructor
    · simp only [EngineM.actions, hcalled]
      rfl
    · simp only [EngineM.actions, hcalled]
      rfl

omit hw in
/-- Work on a machine that the two worlds match in. -/
theorem onLvl4Sm (s : Fd)
    {g : Lvl4SM F → Engine ω' F → Except Fault (Bool × Lvl4SM F × Engine ω' F)}
    {f : Lvl4SM F → Engine ω F → Except Fault (Bool × Lvl4SM F × Engine ω F)}
    (h : ∀ sm e', Lvl4SM.Matched 1 (fun e e' => e = e'.shown p) (f sm (e'.shown p)) (g sm e')) :
    ShownAs p (EngineM.onLvl4Sm s g) (EngineM.onLvl4Sm s f) := by
  intro e'
  unfold EngineM.onLvl4Sm
  simp only [runFrom_bind, runFrom_get]
  rw [Engine.shown_lvl4Sms]
  cases e'.lvl4Sms[s]? with
  | none => rfl
  | some sm =>
    have hm := h sm e'
    dsimp only
    rcases hf : f sm (e'.shown p) with fault | ⟨v, sm₁, e₁⟩ <;>
      rcases hg : g sm e' with fault' | ⟨v', sm₁', e₁'⟩ <;>
      simp only [hf, hg, Lvl4SM.Matched] at hm
    · cases fault <;> cases hm <;> rfl
    · obtain ⟨rfl, rfl, rfl⟩ := hm
      rfl

theorem processConnectedReady (s : Fd) (t : Target) :
    ShownAs p (EngineM.processConnectedReady w' cfg fuel s t)
      (EngineM.processConnectedReady w cfg fuel s t) := by
  refine Projects.read (fun e => Projects.bind (ask (hw.bytesAvail _ s)) (fun navail => ?_))
  refine Projects.bind (lvl4Sm hw s) (fun sm => ?_)
  split_ifs
  · refine Projects.bind (callbackFinish hw t _ _) (fun _ => ?_)
    exact Projects.bind (modifySm s _) (fun _ => reconnect hw s t)
  · exact socketFinished hw s _
  · refine Projects.bind (hostSm _) (fun _ => Projects.bind (ask (hw.read s navail)) (fun r => ?_))
    refine Projects.bind (onLvl4Sm s (fun sm e => ?_)) (fun ret => ?_)
    · exact (actions hw ⟨t, s⟩).processLvl4Data rfl fuel navail r sm
    refine Projects.bind (updateTs hw s) (fun _ => ?_)
    split_ifs
    · exact Projects.ret ()
    · exact socketFinished hw s 0

theorem processFreeSocks :
    ShownAs p (EngineM.processFreeSocks w' cfg fuel) (EngineM.processFreeSocks w cfg fuel) := by
  have hlaunch : ∀ fuel, ShownAs p (launchLoop w' cfg fuel) (launchLoop w cfg fuel) := by
    intro fuel
    induction fuel with
    | zero => exact Projects.fault _
    | succ fuel ih =>
      refine Projects.bind (ask hw.nextTarget) (fun r => ?_)
      cases r with
      | wouldBlock => exact Projects.ret _
      | target t =>
        dsimp only
        split_ifs
        · exact Projects.ret _
        · refine Projects.bind (Projects.update (fun _ => rfl)) (fun _ => ?_)
          refine Projects.bind (createSocket hw t) (fun r => ?_)
          split_ifs
          · exact Projects.ret _
          · exact Projects.bind (socketFinished hw _ _) (fun _ => ih)
  have hstarted : ∀ s t, ShownAs p (addStarted w' s t) (addStarted w s t) := by
    intro s t
    refine Projects.bind (hostSm _) (fun hsm => Projects.bind (ask (hw.initHostSm t hsm)) (fun _ => ?_))
    exact Projects.bind (Projects.update (fun _ => rfl)) (fun _ => Projects.update (fun _ => rfl))
  have hloop : ∀ n, ShownAs p (freeSocksLoop w' cfg fuel n) (freeSocksLoop w cfg fuel n) := by
    intro n
    induction n with
    | zero => exact Projects.ret true
    | succ n ih =>
      refine Projects.bind (hlaunch fuel) (fun r => ?_)
      cases r with
      | noTarget => exact Projects.ret _
      | wouldBlock => exact Projects.ret _
      | started s t => exact Projects.bind (hstarted s t) (fun _ => ih)
  exact Projects.bind (note _) (fun _ => Projects.read (fun e => hloop e.availSocks))

theorem processEvents :
    ShownAs p (EngineM.processEvents w' cfg fuel) (EngineM.processEvents w cfg fuel) := by
  have hevent : ∀ ev, ShownAs p (processEvent w' cfg fuel ev) (processEvent w cfg fuel ev) := by
    intro ev
    unfold processEvent
    split_ifs
    · exact Projects.bind (lvl4Sm hw _) (fun _ => processConnectingReady hw _)
    · refine Projects.bind (targetFromSocket _) (fun t => ?_)
      exact Projects.bind (lvl4Sm hw _) (fun _ => processConnectedReady hw _ t)
    · exact Projects.ret ()
  refine Projects.read (fun e => Projects.bind (ask (hw.epollWait _)) (fun r => ?_))
  cases r with
  | none => exact Projects.ret _
  | some evs => exact Projects.bind (Projects.forM evs hevent) (fun _ => Projects.ret _)

theorem hasTimedout (ts : ℤ) (s : Fd) (sm : Lvl4SM F) :
    ShownAs p (EngineM.hasTimedout w' cfg ts s sm) (EngineM.hasTimedout w cfg ts s sm) := by
  have htimeout : ShownAs p (timeoutOfTarget w' cfg s) (timeoutOfTarget w cfg s) := by
    refine Projects.read (fun e => Projects.bind (ask (hw.getpeername _ s)) (fun peer => ?_))
    split_ifs
    · exact callback hw _
    · exact Projects.ret _
  refine Projects.bind htimeout (fun timeoutTarget => ?_)
  split_ifs
  · exact Projects.ret true
  · unfold hasWatchTimedout
    split_ifs
    · exact Projects.ret _
    · refine Projects.read (fun e => Projects.bind (ask (hw.getpeername _ s)) (fun peer => ?_))
      refine Projects.bind (callback hw (.watchTimeout ⟨peer, s⟩)) (fun goOn => ?_)
      split_ifs
      · exact Projects.bind (modifySm s _) (fun _ => Projects.ret _)
      · exact Projects.ret _
    · exact Projects.ret _

theorem processDirtyAndTimeouts :
    ShownAs p (EngineM.processDirtyAndTimeouts w' cfg fuel)
      (EngineM.processDirtyAndTimeouts w cfg fuel) := by
  have hinspect : ∀ ts s l, ShownAs p (inspect w' cfg ts s l) (inspect w cfg ts s l) := by
    intro ts s l
    refine Projects.read (fun e => ?_)
    rw [Engine.shown_lvl4Sms]
    cases e.lvl4Sms[s]? with
    | none => exact Projects.ret l
    | some sm =>
      dsimp only
      split_ifs
      · exact Projects.bind (modifySm s _) (fun _ => Projects.bind (hasTimedout hw ts s sm)
          (fun _ => Projects.ret _))
      · exact Projects.ret l
  have hlists : ∀ ts ss l, ShownAs p (inspectAll w' cfg ts ss l) (inspectAll w cfg ts ss l) := by
    intro ts ss
    induction ss with
    | nil => exact fun l => Projects.ret l
    | cons s ss ih => exact fun l => Projects.bind (hinspect ts s l) ih
  have hreprocess : ∀ ss, ShownAs p (reprocess w' cfg fuel ss) (reprocess w cfg fuel ss) := by
    intro ss
    induction ss with
    | nil => exact Projects.ret []
    | cons s ss ih =>
      refine Projects.bind (targetFromSocket s) (fun t => Projects.bind (hostSm _) (fun _ => ?_))
      refine Projects.bind (onLvl4Sm s (fun sm e => ?_)) (fun ret => ?_)
      · exact (actions hw ⟨t, s⟩).processLoop rfl fuel sm 0
      split_ifs
      · exact ih
      · refine Projects.bind (socketFinished hw s 0) (fun _ => ?_)
        exact Projects.bind ih (fun _ => Projects.ret _)
  refine Projects.bind (Projects.bind (ask hw.timestamp) (fun ts => Projects.read (fun e => ?_)))
    (fun l => ?_)
  · exact hlists ts e.lvl4Sms.keys _
  refine Projects.bind (hreprocess _) (fun _ => ?_)
  exact Projects.bind (Projects.forM _ (fun s => socketFinished hw s _)) (fun _ => Projects.ret _)

theorem displayStatus :
    ShownAs p (EngineM.displayStatus w' cfg) (EngineM.displayStatus w cfg) := by
  have hshould : ShownAs p (shouldCallStatusDisplay w' cfg) (shouldCallStatusDisplay w cfg) := by
    unfold shouldCallStatusDisplay
    split_ifs
    · exact Projects.ret _
    · refine Projects.bind (ask hw.timestamp) (fun now => Projects.read (fun e => ?_))
      rw [Engine.shown_lastTime]
      split_ifs
      · exact Projects.bind (Projects.update (fun _ => rfl)) (fun _ => Projects.ret _)
      · exact Projects.ret _
  refine Projects.bind hshould (fun b => ?_)
  split_ifs
  · exact Projects.read (fun e => callback hw _)
  · exact Projects.ret ()

section Rounds

variable (hsave : ∀ o, w.saveState (p o) = p (w'.saveState o))

include hsave

theorem scanPass : ShownAs p (EngineM.scanPass w' cfg fuel) (EngineM.scanPass w cfg fuel) := by
  refine Projects.bind (processEvents hw) (fun nfds => ?_)
  refine Projects.bind (processDirtyAndTimeouts hw) (fun nValid => ?_)
  refine Projects.bind (processFreeSocks hw) (fun more => ?_)
  split_ifs
  · exact Projects.ret true
  · refine Projects.bind (displayStatus hw) (fun _ => ?_)
    refine Projects.bind (Projects.update (fun e => ?_)) (fun _ => Projects.ret false)
    simp only [Engine.shown, hsave]

theorem scanLoop (n : ℕ) :
    ShownAs p (EngineM.scanLoop w' cfg fuel n) (EngineM.scanLoop w cfg fuel n) := by
  induction n with
  | zero => exact Projects.ret false
  | succ n ih =>
    refine Projects.bind (scanPass hw hsave) (fun b => ?_)
    split_ifs
    · exact Projects.ret true
    · exact ih

/-- The launch in the world with more in it is the launch in the world that is shown. -/
theorem launch (n : ℕ) : ShownAs p (EngineM.launch w' cfg fuel n) (EngineM.launch w cfg fuel n) := by
  refine Projects.bind (Projects.update (fun e => ?_)) (fun _ => ?_)
  · simp only [Engine.shown, hw.initTargets]
  refine Projects.bind (Projects.update (fun _ => rfl)) (fun _ => ?_)
  exact Projects.bind (processFreeSocks hw) (fun _ => scanLoop hw hsave n)

end Rounds
end Functions
end ShownAs

end Nodescan
