import Nodescan.Steady
import Nodescan.TargetSets

/-!
# Invariants of the state of hosts

An invariant of the map of hosts, of the log and of the state of the target set is touched by few
functions: those that make a host's state, hand it to an `on_connect` action, finish a target or
initialise the host of a new one. `HostInvariant` asks for these cases only, and every phase of the
engine then keeps the invariant.
-/

namespace Nodescan

open FaultM EngineM

variable {ω F : Type}

/-- The states of a host have the same ports done and the same step. -/
structure HostSM.SameCount (hsm hsm' : HostSM) : Prop where
  portsDone : hsm'.portsDone = hsm.portsDone
  randIdxIp : hsm'.randIdxIp = hsm.randIdxIp

/-- The state of a host as `host_sm` gives it. -/
def Engine.hostOf (e : Engine ω F) (ip : UInt32) : HostSM := e.hostsSms[ip]?.getD .new

theorem Engine.hostOf_eq {e : Engine ω F} {ip : UInt32} {hsm : HostSM}
    (h : e.hostsSms[ip]? = some hsm) : e.hostOf ip = hsm := by
  rw [hostOf, h, Option.getD_some]

theorem Engine.getElem?_hostOf {e : Engine ω F} {ip : UInt32} (h : ip ∈ e.hostsSms) :
    e.hostsSms[ip]? = some (e.hostOf ip) := by
  rw [hostOf, Std.ExtTreeMap.getElem?_eq_some_getElem h, Option.getD_some]

theorem Engine.hostOf_insertIfNew (e : Engine ω F) (ip a : UInt32) :
    Engine.hostOf { e with hostsSms := e.hostsSms.insertIfNew ip .new } a = e.hostOf a := by
  rw [hostOf, hostOf, TreeMaps.getElem?_insertIfNew]
  by_cases ha : a = ip
  · cases h : e.hostsSms[ip]? with
    | none => simp [ha, h]
    | some hsm => simp [ha, h]
  · simp [ha]

/-- The hosts after bookkeeping: all that callbacks may have set is the action of a host. -/
def KeepsHosts (e e' : Engine ω F) : Prop := ∀ ip, (e.hostOf ip).SameCount (e'.hostOf ip)

namespace KeepsHosts

variable {e e' e'' : Engine ω F}

theorem of_eq (h : e'.hostsSms = e.hostsSms) : KeepsHosts e e' := by
  intro ip
  rw [Engine.hostOf, Engine.hostOf, h]
  exact ⟨rfl, rfl⟩

theorem trans (h : KeepsHosts e e') (h' : KeepsHosts e' e'') : KeepsHosts e e'' := fun ip =>
  ⟨(h' ip).portsDone.trans (h ip).portsDone, (h' ip).randIdxIp.trans (h ip).randIdxIp⟩

theorem insertIfNew (ip : UInt32) :
    KeepsHosts e { e with hostsSms := e.hostsSms.insertIfNew ip .new } := by
  intro a
  rw [e.hostOf_insertIfNew]
  exact ⟨rfl, rfl⟩

theorem made {ip : UInt32} (h : ip ∉ e.hostsSms) :
    KeepsHosts e { e with hostsSms := e.hostsSms.insert ip .new } := by
  rw [← TreeMaps.insertIfNew_of_not_mem _ _ _ h]
  exact insertIfNew ip

theorem setOnAlive (ip : UInt32) (n : ℕ) : KeepsHosts e (e.setOnAlive ip n) := by
  unfold Engine.setOnAlive
  split_ifs
  · intro a
    simp only [Engine.hostOf, TreeMaps.getElem?_modify]
    split_ifs with ha
    · cases h : e.hostsSms[ip]? with
      | none =>
        rw [ha, h]
        exact ⟨rfl, rfl⟩
      | some hsm =>
        rw [ha, h]
        exact ⟨rfl, rfl⟩
    · exact ⟨rfl, rfl⟩
  · exact of_eq rfl

end KeepsHosts

/-- Everything the engine asks of the world leaves the target set as it is, as far as `Same` sees,
except for the functions of the target set. -/
structure World.Leaves (w : World ω F) (Same : ω → ω → Prop) : Prop where
  refl : ∀ o, Same o o
  socket : ∀ k p o, Same o (w.socket k p o).2
  connect : ∀ k s t o, Same o (w.connect k s t o).2
  epollWait : ∀ k o, Same o (w.epollWait k o).2
  soError : ∀ k s o, Same o (w.soError k s o).2
  bytesAvail : ∀ k s o, Same o (w.bytesAvail k s o).2
  read : ∀ s n o, Same o (w.read s n o).2
  getpeername : ∀ k s o, Same o (w.getpeername k s o).2
  timestamp : ∀ o, Same o (w.timestamp o).2
  saveState : ∀ o, Same o (w.saveState o)
  callback : ∀ cb o, Same o (w.callback cb o).2

theorem World.Leaves.of_asked {w : World ω F} {Same : ω → ω → Prop} {o o' : ω} (hw : w.Leaves Same)
    (h : w.Asked o o') : Same o o' := by
  cases h with
  | socket k p => exact hw.socket k p o
  | connect k s t => exact hw.connect k s t o
  | epollWait k => exact hw.epollWait k o
  | soError k s => exact hw.soError k s o
  | bytesAvail k s => exact hw.bytesAvail k s o
  | read s n => exact hw.read s n o
  | getpeername k s => exact hw.getpeername k s o
  | timestamp => exact hw.timestamp o
  | callback cb => exact hw.callback cb o

/-- `P` speaks of the hosts, of the host events, of the target set and of the targets registered,
which are `Allowed`. -/
structure Framed (Same : ω → ω → Prop) (Allowed : Target → Prop) (P : Engine ω F → Prop) :
    Prop where
  congr : ∀ {e e'}, P e → e'.hostsSms = e.hostsSms → e'.log = e.log →
    Same e.world e'.world → (∀ t, e'.Registers t → e.Registers t) → P e'
  note : ∀ {e} (ev : Event F), ev.isHostEvent = false → P e → P { e with log := ev :: e.log }
  insert : ∀ {e t} (n : ℕ), P e → Allowed t → P (e.insertTarget n t)
  known : ∀ {e t}, P e → e.Registers t → Allowed t
  onAlive : ∀ {e ip} (a : ℕ), P e → ip ∈ e.hostsSms → P (e.setOnAlive ip a)

namespace Framed

variable {w : World ω F} {cfg : Config F} {Same : ω → ω → Prop} {Allowed : Target → Prop}
  {P : Engine ω F → Prop}
variable (hw : w.Leaves Same) (hP : Framed Same Allowed P)

include hP

/-- The target of a socket is one that was allowed. -/
theorem targetFromSocket_spec {e : Engine ω F} (s : Fd) (he : P e) :
    Runs (targetFromSocket s) e (fun t e' => P e' ∧ Allowed t) (fun _ => P) := by
  refine (Nodescan.targetFromSocket_spec s).mono (fun t e' h => ?_) (fun f e' h => ?_)
  · obtain ⟨rfl, hs⟩ := h
    exact ⟨he, hP.known he ⟨s, hs⟩⟩
  · rwa [h.1]

include hw

theorem update {f : Engine ω F → Engine ω F} (hh : ∀ e, (f e).hostsSms = e.hostsSms)
    (hl : ∀ e, (f e).log = e.log) (ho : ∀ e, (f e).world = e.world)
    (ht : ∀ e t, (f e).Registers t → e.Registers t) :
    Keeps P (modify f : EngineM ω F Unit) := by
  apply Keeps.update
  intro e he
  refine hP.congr he (hh e) (hl e) ?_ (ht e)
  rw [ho]
  exact hw.refl _

theorem modifySm (s : Fd) (f : Lvl4SM F → Lvl4SM F) :
    Keeps P (modify (·.modifySm s f) : EngineM ω F Unit) :=
  hP.update hw (fun _ => rfl) (fun _ => rfl) (fun _ => rfl) (fun _ _ h => h)

theorem freeSocket (s : Fd) : Keeps P (modify (·.freeSocket s) : EngineM ω F Unit) := by
  refine hP.update hw (fun _ => rfl) (fun _ => rfl) (fun _ => rfl) ?_
  rintro e t ⟨a, ha⟩
  change (e.socketsTargets.erase s)[a]? = some t at ha
  rw [TreeMaps.getElem?_erase] at ha
  split_ifs at ha
  exact ⟨a, ha⟩

/-- The machines do not matter to `P`. -/
theorem steady : Steady w Allowed P where
  congr := by
    intro e e' he hh _ hl ho ht
    refine hP.congr he hh hl ?_ ht
    rw [ho]
    exact hw.refl _
  insert := hP.insert
  onAlive := hP.onAlive
  asked := fun he hasked => hP.congr he rfl rfl (hw.of_asked hasked) (fun _ h => h)
  note := hP.note
  fresh := fun he _ => hP.congr he rfl rfl (hw.refl _) (fun _ h => h)
  book := fun _ he _ => hP.congr he rfl rfl (hw.refl _) (fun _ h => h)
  freed := fun _ he => hP.congr he rfl rfl (hw.refl _) (fun _ h => h)
  call := fun _ _ he => hP.congr he rfl rfl (hw.refl _) (fun _ h => h)

theorem onLvl4Sm (s : Fd)
    {f : Lvl4SM F → Engine ω F → Except Fault (Bool × Lvl4SM F × Engine ω F)}
    (hf : ∀ {sm sm' : Lvl4SM F} {e e' : Engine ω F} {v : Bool},
      P e → f sm e = .ok (v, sm', e') → P e') : Keeps P (EngineM.onLvl4Sm s f) := by
  unfold EngineM.onLvl4Sm
  intro e he
  apply Runs.read
  cases hs : e.lvl4Sms[s]? with
  | none => exact he
  | some sm =>
    cases hr : f sm e with
    | error fault =>
      simp only [hr]
      exact he
    | ok r =>
      obtain ⟨v, sm', e'⟩ := r
      simp only [hr]
      exact hP.congr (hf he hr) rfl rfl (hw.refl _) (fun _ h => h)

theorem inspect (ts : ℤ) (s : Fd) (l : WorkLists) : Keeps P (EngineM.inspect w cfg ts s l) := by
  unfold EngineM.inspect
  apply Keeps.read
  intro e
  cases e.lvl4Sms[s]? with
  | none => exact Keeps.ret _
  | some sm =>
    dsimp only
    split_ifs
    · refine Keeps.bind (hP.modifySm hw _ _) (fun _ => ?_)
      exact Keeps.bind ((hP.steady hw).hasTimedout _ _ _) (fun out => Keeps.ret _)
    · exact Keeps.ret _

theorem inspectAll (ts : ℤ) (ss : List Fd) (l : WorkLists) :
    Keeps P (EngineM.inspectAll w cfg ts ss l) := by
  induction ss generalizing l with
  | nil => exact Keeps.ret l
  | cons s ss ih => exact Keeps.bind (hP.inspect hw ts s l) (fun l' => ih l')

theorem workLists : Keeps P (EngineM.workLists w cfg) := by
  unfold EngineM.workLists
  refine Keeps.bind ((hP.steady hw).ask .timestamp) (fun ts => ?_)
  exact Keeps.read (fun e => hP.inspectAll hw _ _ _)

end Framed

/-- The end of a target for its host, whose state is `hsm`. -/
def Engine.finishHost (w : World ω F) (t : Target) (hsm : HostSM) (e : Engine ω F) :
    Engine ω F :=
  let r := w.targetFinished t hsm e.world
  { e with
    world := r.2
    log := .hostFinished t hsm r.1.1 :: e.log
    hostsSms := if r.1.1 then (e.hostsSms.insert t.ipv4 r.1.2).erase t.ipv4
      else e.hostsSms.insert t.ipv4 r.1.2 }

/-- `init_host_sm` on the host's state `hsm`. -/
def Engine.initHost (w : World ω F) (t : Target) (hsm : HostSM) (e : Engine ω F) : Engine ω F :=
  let r := w.initHostSm t hsm e.world
  { e with world := r.2, hostsSms := e.hostsSms.insert t.ipv4 r.1 }

theorem Engine.finishHost_hostOf (w : World ω F) (t : Target) (hsm : HostSM) (e : Engine ω F)
    (ip : UInt32) : (e.finishHost w t hsm).hostOf ip =
      if ip = t.ipv4 then
        if (w.targetFinished t hsm e.world).1.1 then .new else (w.targetFinished t hsm e.world).1.2
      else e.hostOf ip := by
  unfold finishHost hostOf
  dsimp only
  by_cases hip : ip = t.ipv4
  · split_ifs <;> simp [hip]
  · split_ifs <;> simp [TreeMaps.getElem?_erase, TreeMaps.getElem?_insert, hip]

theorem Engine.initHost_hostOf (w : World ω F) (t : Target) (hsm : HostSM) (e : Engine ω F)
    (ip : UInt32) : (e.initHost w t hsm).hostOf ip =
      if ip = t.ipv4 then (w.initHostSm t hsm e.world).1 else e.hostOf ip := by
  unfold initHost hostOf
  dsimp only
  rw [TreeMaps.getElem?_insert]
  split_ifs
  · rfl
  · rfl

/-- `Emitted t` holds of the target set from the `next_target` that returned `t` on, and what it
returns is `Allowed`. -/
structure HostInvariant (w : World ω F) (Same : ω → ω → Prop) (Allowed : Target → Prop)
    (Emitted : Target → ω → Prop) (P : Engine ω F → Prop) : Prop extends
    Framed Same Allowed P where
  made : ∀ {e ip}, P e → ip ∉ e.hostsSms →
    P { e with hostsSms := e.hostsSms.insert ip .new }
  passed : ∀ {e f t s}, P e → t.ipv4 ∈ e.hostsSms →
    P { e with log := .called (.connected f ⟨t, s⟩) :: e.log }
  next : ∀ {e}, P e → P { e with world := (w.nextTarget e.world).2 }
  emitted : ∀ {e t}, P e → (w.nextTarget e.world).1 = .target t → t.isEnd = false →
    Allowed t ∧ Emitted t (w.nextTarget e.world).2
  emitted_same : ∀ {t o o'}, Emitted t o → Same o o' → Emitted t o'
  launched : ∀ {e t}, P e → Allowed t → P { e with log := .launched t :: e.log }
  finished : ∀ {e t hsm}, P e → Allowed t → e.hostsSms[t.ipv4]? = some hsm →
    P (e.finishHost w t hsm)
  initialised : ∀ {e t hsm}, P e → e.hostsSms[t.ipv4]? = some hsm → Emitted t e.world →
    P (e.initHost w t hsm)

namespace HostInvariant

variable {w : World ω F} {cfg : Config F} {fuel : ℕ} {Same : ω → ω → Prop}
  {Allowed : Target → Prop} {Emitted : Target → ω → Prop} {P : Engine ω F → Prop}
  {e : Engine ω F}
variable (hw : w.Leaves Same) (hP : HostInvariant w Same Allowed Emitted P)

include hP

/-- `host_sm` leaves the host's state in the map. -/
theorem hostSm_spec (ip : UInt32) (he : P e) :
    Runs (hostSm ip) e (fun hsm e' => P e' ∧ e'.hostsSms[ip]? = some hsm ∧ e'.world = e.world)
      (fun _ => P) := by
  unfold hostSm
  apply Runs.read
  cases h : e.hostsSms[ip]? with
  | some hsm => exact ⟨he, h, rfl⟩
  | none =>
    refine ⟨hP.made he (TreeMaps.not_mem_of_getElem? h), ?_, rfl⟩
    change (e.hostsSms.insert ip .new)[ip]? = _
    simp

theorem hostSm (ip : UInt32) : Keeps P (EngineM.hostSm ip) :=
  fun _ he => (hP.hostSm_spec ip he).mono (fun _ _ h => h.1) (fun _ _ h => h)

theorem hostFinished {t : Target} (ht : Allowed t) : Keeps P (EngineM.hostFinished w t) := by
  intro e he
  refine Runs.bind (hP.hostSm_spec t.ipv4 he) (fun hsm e₁ h₁ => ?_)
  have hfin := hP.finished h₁.1 ht h₁.2.1
  cases hr : (w.targetFinished t hsm e₁.world).1.1 with
  | true =>
    simp only [Engine.finishHost, hr, if_true] at hfin
    simp only [ask, note, setHostSm, delHostSm, Runs, runFrom_bind, runFrom_modifyGet,
      runFrom_modify, hr, if_true]
    exact hfin
  | false =>
    simp only [Engine.finishHost, hr] at hfin
    simp only [ask, note, setHostSm, Runs, runFrom_bind, runFrom_modifyGet, runFrom_modify, hr]
    exact hfin

include hw

theorem socketFinished (s : Fd) (err : ℤ) : Keeps P (EngineM.socketFinished w cfg s err) := by
  unfold EngineM.socketFinished
  refine Keeps.bind (Keeps.update (fun e he => ?_)) (fun _ => ?_)
  · have hn := hP.note (.socketFinished s) rfl he
    exact hP.congr hn rfl rfl (hw.refl _) (fun _ h => h)
  intro e he
  refine Runs.bind (hP.toFramed.targetFromSocket_spec s he) ?_
  rintro t e₁ ⟨he₁, ht⟩
  have hrest : Keeps P (do
      let sm ← EngineM.lvl4Sm w s
      EngineM.callbackFinish w cfg t sm.buf err
      modify (·.modifySm s Lvl4SM.freeBuffer)
      EngineM.hostFinished w t
      modify (·.freeSocket s)) := by
    refine Keeps.bind ((hP.steady hw).lvl4Sm s) (fun sm => ?_)
    refine Keeps.bind ((hP.steady hw).callbackFinish t sm.buf err) (fun _ => ?_)
    refine Keeps.bind (hP.modifySm hw s _) (fun _ => ?_)
    exact Keeps.bind (hP.hostFinished ht) (fun _ => hP.freeSocket hw s)
  exact hrest e₁ he₁

/-- `on_connect` is handed the state `host_sm` has just returned. -/
theorem onConnect (s : Fd) {t : Target} (he : P e) (hip : t.ipv4 ∈ e.hostsSms) :
    Runs (EngineM.onConnect w s t) e (fun _ => P) (fun _ => P) := by
  have hQ := (hP.steady hw).and (Steady.of_host w Allowed t.ipv4)
  unfold EngineM.onConnect
  refine Runs.bind ((hQ.lvl4Sm s e ⟨he, hip⟩).mono (fun _ _ h => h)
    (fun _ _ h => h.1)) ?_
  intro sm e₁ h₁
  cases sm.funcConnect with
  | none => exact h₁.1
  | some f => exact (hP.steady hw).answer _ (hP.passed h₁.1 h₁.2)

theorem processConnectingReady (s : Fd) : Keeps P (EngineM.processConnectingReady w cfg s) := by
  unfold EngineM.processConnectingReady
  apply Keeps.read
  intro e
  refine Keeps.bind ((hP.steady hw).ask (.soError _ _)) (fun err => ?_)
  split_ifs
  · exact hP.socketFinished hw s err
  · refine Keeps.bind (Steady.targetFromSocket s) (fun t e₁ he₁ => ?_)
    refine Runs.bind (hP.hostSm_spec t.ipv4 he₁) (fun hsm e₂ h₂ => ?_)
    have hip := TreeMaps.mem_of_getElem? h₂.2.1
    refine Runs.bind (hP.onConnect hw s h₂.1 hip) (fun ret e₃ he₃ => ?_)
    have hend : Keeps P (if ret then (do
        modify fun e => (e.removeConnectingSocket s).addConnectedSocket s
        EngineM.updateTs w s) else EngineM.socketFinished w cfg s 0) := by
      split_ifs
      · refine Keeps.bind (hP.update hw (fun _ => rfl) (fun _ => rfl) (fun _ => rfl)
          (fun _ _ h => h)) ?_
        exact fun _ => (hP.steady hw).updateTs s
      · exact hP.socketFinished hw s 0
    exact hend e₃ he₃

theorem processConnectedReady (s : Fd) {t : Target} (ht : Allowed t) :
    Keeps P (EngineM.processConnectedReady w cfg fuel s t) := by
  unfold EngineM.processConnectedReady
  apply Keeps.read
  intro e
  refine Keeps.bind ((hP.steady hw).ask (.bytesAvail _ _)) (fun navail => ?_)
  refine Keeps.bind ((hP.steady hw).lvl4Sm s) (fun sm => ?_)
  split_ifs
  · refine Keeps.bind ((hP.steady hw).callbackFinish t sm.buf _) (fun _ => ?_)
    exact Keeps.bind (hP.modifySm hw s _) (fun _ => (hP.steady hw).reconnect s ht)
  · exact hP.socketFinished hw s _
  · refine Keeps.bind (hP.hostSm _) (fun _ => ?_)
    refine Keeps.bind ((hP.steady hw).ask (.read _ _)) (fun r => ?_)
    refine Keeps.bind (hP.onLvl4Sm hw s
      (fun he hr => ((hP.steady hw).kept _).processLvl4Data he hr)) ?_
    intro ret
    refine Keeps.bind ((hP.steady hw).updateTs s) (fun _ => ?_)
    split_ifs
    · exact Keeps.ret ()
    · exact hP.socketFinished hw s 0

theorem processEvent (ev : EpollEvent) : Keeps P (EngineM.processEvent w cfg fuel ev) := by
  unfold EngineM.processEvent
  split_ifs
  · exact Keeps.bind ((hP.steady hw).lvl4Sm _) (fun _ => hP.processConnectingReady hw _)
  · intro e he
    refine Runs.bind (hP.toFramed.targetFromSocket_spec ev.fd he) ?_
    rintro t e₁ ⟨he₁, ht⟩
    exact Keeps.bind ((hP.steady hw).lvl4Sm _) (fun _ => hP.processConnectedReady hw _ ht) e₁ he₁
  · exact Keeps.ret ()

theorem processEvents : Keeps P (EngineM.processEvents w cfg fuel) := by
  unfold EngineM.processEvents
  apply Keeps.read
  intro e
  refine Keeps.bind ((hP.steady hw).ask (.epollWait _)) (fun r => ?_)
  cases r with
  | none => exact Keeps.ret _
  | some evs => exact Keeps.bind (Keeps.forM (hP.processEvent hw) evs) (fun _ => Keeps.ret _)

theorem reprocess (ss : List Fd) : Keeps P (EngineM.reprocess w cfg fuel ss) := by
  induction ss with
  | nil => exact Keeps.ret []
  | cons s ss ih =>
    rw [EngineM.reprocess]
    refine Keeps.bind (Steady.targetFromSocket s) (fun t => ?_)
    refine Keeps.bind (hP.hostSm _) (fun _ => ?_)
    refine Keeps.bind (hP.onLvl4Sm hw s (fun he hr => ((hP.steady hw).kept _).processLoop he hr)) ?_
    intro ret
    split_ifs
    · exact ih
    · refine Keeps.bind (hP.socketFinished hw s 0) (fun _ => ?_)
      exact Keeps.bind ih (fun _ => Keeps.ret _)

theorem finishTimeouted (ss : List Fd) : Keeps P (EngineM.finishTimeouted w cfg ss) :=
  Keeps.forM (fun s => hP.socketFinished hw s _) ss

theorem processDirtyAndTimeouts : Keeps P (EngineM.processDirtyAndTimeouts w cfg fuel) := by
  unfold EngineM.processDirtyAndTimeouts
  refine Keeps.bind (hP.workLists hw) (fun l => ?_)
  refine Keeps.bind (hP.reprocess hw _) (fun _ => ?_)
  exact Keeps.bind (hP.finishTimeouted hw _) (fun _ => Keeps.ret _)

/-- A launch ends with the target that was emitted last. -/
theorem launchLoop (he : P e) : Runs (EngineM.launchLoop w cfg fuel) e
    (fun r e' => P e' ∧ ∀ s t, r = .started s t → Emitted t e'.world) (fun _ => P) := by
  induction fuel generalizing e with
  | zero => exact he
  | succ fuel ih =>
    rw [EngineM.launchLoop]
    let e₁ : Engine ω F := { e with world := (w.nextTarget e.world).2 }
    have he₁ : P e₁ := hP.next he
    refine Runs.bind (Q := fun r e' => e₁ = e' ∧ (w.nextTarget e.world).1 = r) ⟨rfl, rfl⟩ ?_
    rintro r _ ⟨rfl, hr⟩
    cases r with
    | wouldBlock => exact ⟨he₁, by simp⟩
    | target t =>
      by_cases hend : t.isEnd = true
      · simp only [hend, if_true]
        exact ⟨he₁, by simp⟩
      · simp only [hend]
        obtain ⟨ht, hem⟩ : Allowed t ∧ Emitted t e₁.world := hP.emitted he hr (by simpa using hend)
        have hQ := (hP.steady hw).and (Steady.of_world (w := w) Allowed (Q := Emitted t)
          (fun h ho => hP.emitted_same h (hw.of_asked ho)))
        have hcount : P (e₁.countLaunch t) := by
          have hn := hP.launched he₁ ht
          exact hP.congr hn rfl rfl (hw.refl _) (fun _ h => h)
        refine Runs.bind (Runs.update rfl : Runs _ e₁ (fun _ e' => e₁.countLaunch t = e') _) ?_
        rintro _ _ rfl
        refine Runs.bind ((hQ.createSocket ht _ ⟨hcount, hem⟩).mono (fun _ _ h => h)
          (fun _ _ h => h.1)) (fun r e₂ h₂ => ?_)
        split_ifs
        · refine ⟨h₂.1, fun s t' heq => ?_⟩
          simp only [LaunchResult.started.injEq] at heq
          rw [← heq.2]
          exact h₂.2
        · exact Runs.bind (hP.socketFinished hw r.1 r.2 e₂ h₂.1) (fun _ e₃ he₃ => ih he₃)

theorem addStarted {s : Fd} {t : Target} (he : P e) (hem : Emitted t e.world) :
    Runs (EngineM.addStarted w s t) e (fun _ => P) (fun _ => P) := by
  unfold EngineM.addStarted
  refine Runs.bind (hP.hostSm_spec t.ipv4 he) (fun hsm e₁ h₁ => ?_)
  have hini := hP.initialised h₁.1 h₁.2.1 (h₁.2.2 ▸ hem)
  exact hP.congr hini rfl rfl (hw.refl _) (fun _ h => h)

theorem freeSocksLoop (n : ℕ) : Keeps P (EngineM.freeSocksLoop w cfg fuel n) := by
  induction n with
  | zero => exact Keeps.ret true
  | succ n ih =>
    intro e he
    rw [EngineM.freeSocksLoop]
    refine Runs.bind (hP.launchLoop hw he) (fun r e₁ h₁ => ?_)
    cases r with
    | noTarget => exact h₁.1
    | wouldBlock => exact h₁.1
    | started s t =>
      refine Runs.bind (hP.addStarted hw h₁.1 (h₁.2 s t rfl)) (fun _ e₂ he₂ => ?_)
      exact ih e₂ he₂

theorem processFreeSocks : Keeps P (EngineM.processFreeSocks w cfg fuel) := by
  unfold EngineM.processFreeSocks
  exact Keeps.bind ((hP.steady hw).noted rfl) (fun _ => Keeps.read (fun e => hP.freeSocksLoop hw _))

theorem phase (p : Phase) : Keeps P (p.run w cfg fuel) := by
  cases p with
  | freeSocks => exact Keeps.bind (hP.processFreeSocks hw) (fun _ => Keeps.ret ())
  | events => exact Keeps.bind (hP.processEvents hw) (fun _ => Keeps.ret ())
  | dirty => exact Keeps.bind (hP.processDirtyAndTimeouts hw) (fun _ => Keeps.ret ())
  | status => exact (hP.steady hw).displayStatus

theorem doAsyncScan (n : ℕ) : Keeps P (EngineM.doAsyncScan w cfg fuel n) := by
  have hpass : Keeps P (scanPass w cfg fuel) := by
    unfold scanPass
    refine Keeps.bind (hP.processEvents hw) (fun nfds => ?_)
    refine Keeps.bind (hP.processDirtyAndTimeouts hw) (fun nValid => ?_)
    refine Keeps.bind (hP.processFreeSocks hw) (fun moreTargets => ?_)
    split_ifs
    · exact Keeps.ret true
    · refine Keeps.bind ((hP.steady hw).displayStatus) (fun _ => ?_)
      refine Keeps.bind (Keeps.update (fun e he => ?_)) (fun _ => Keeps.ret false)
      exact hP.congr he rfl rfl (hw.saveState e.world) (fun _ h => h)
  have hloop : ∀ n : ℕ, Keeps P (scanLoop w cfg fuel n) := by
    intro n
    induction n with
    | zero => exact Keeps.ret false
    | succ n ih =>
      rw [scanLoop]
      refine Keeps.bind hpass (fun b => ?_)
      split_ifs
      · exact Keeps.ret true
      · exact ih
  unfold EngineM.doAsyncScan
  refine Keeps.bind (hP.update hw (fun _ => rfl) (fun _ => rfl) (fun _ => rfl) (fun _ _ h => h))
    (fun _ => ?_)
  exact Keeps.bind (hP.processFreeSocks hw) (fun _ => hloop n)

end HostInvariant

/-- The world seen through its target set. -/
def SameSet {σ : Type} (o o' : ω × σ) : Prop := o'.2 = o.2

theorem World.withTargets_leaves {σ : Type} (w : World ω F) (ts : TargetSet σ) :
    (w.withTargets ts).Leaves SameSet := by
  constructor <;> intros <;> rfl

theorem World.leaves_true (w : World ω F) : w.Leaves (fun _ _ => True) := by
  constructor <;> intros <;> trivial

end Nodescan
