import Nodescan.Renaming
import Nodescan.CallbackProtocol

/-!
# Reconnection and the number of the new socket

`create_socket` registers the machine of a new socket with an insertion that keeps an entry which
is there already, and `reconnect` leaves the entries of the socket it closes. If `socket()` hands
that number back, the connection goes on with the old machine: its flags, its trigger and its
watch. Under any other number it starts with a fresh one. Where neither number has an entry left,
the two runs are renamings of each other, now and under the same later events.
-/

namespace Nodescan

open FaultM EngineM

variable {ω F : Type}

/-- What `create_socket` and `reconnect` leave as it is in the machine they register. -/
def Lvl4SM.settings (sm : Lvl4SM F) : ℤ × Bool × Bool × DataTrigger F × List UInt8 :=
  (sm.watchTs, sm.reconnect, sm.reprocess, sm.trigger, sm.buf)

def Lvl4SM.registered (sm : Lvl4SM F) (f : Option F) (now : ℤ) : Lvl4SM F :=
  { sm with valid := true, funcConnect := f, ts := now }

theorem registered_eq_iff (sm sm' : Lvl4SM F) (f : Option F) (now : ℤ) :
    sm.registered f now = sm'.registered f now ↔ sm.settings = sm'.settings := by
  simp only [Lvl4SM.registered, Lvl4SM.settings, Lvl4SM.mk.injEq, Prod.mk.injEq, true_and]

/-- The calls of the finish callback that announces the reconnection. -/
def finishAnswer (w : World ω F) (cfg : Config F) (t : Target) (buf : List UInt8) (o : ω) :
    List (Call F) × ω :=
  if cfg.hasFinish then
    ((w.callback (.finish t buf Errors.willReconnect.code) o).1.2,
      (w.callback (.finish t buf Errors.willReconnect.code) o).2)
  else ([], o)

/-- The answers `process_connected_ready` gets for `s`: its peer has closed, the finish callback
makes `calls`, `socket()` hands out `n`, and the clock shows `now` when the new machine is built
and `now'` when it is stamped. -/
def PeerCloses (w : World ω F) (cfg : Config F) (e : Engine ω F) (s : Fd) (t : Target)
    (sm : Lvl4SM F) (n : ℕ) (calls : List (Call F)) (now now' : ℤ) : Prop :=
  ∃ o₁ o₂ o₃ o₄ o₅ o₆ err, w.bytesAvail e.kernel s e.world = (0, o₁) ∧
    finishAnswer w cfg t sm.buf o₁ = (calls, o₂) ∧
      w.socket ((e.kernel.epollDel s).close s) t.port.protocol o₂ = (some n, o₃) ∧
        w.connect (((e.kernel.epollDel s).close s).openSocket n) n t o₃ = (err, o₄) ∧
          w.timestamp o₄ = (now, o₅) ∧ w.timestamp o₅ = (now', o₆)

/-- The machine that is found under `n` when the old socket has been given up, or a new one. -/
def foundAt (e : Engine ω F) (s : Fd) (calls : List (Call F)) (now : ℤ) (n : ℕ) : Lvl4SM F :=
  (((e.callAll calls).modifySm s Lvl4SM.freeBuffer).lvl4Sms[(n : Fd)]?).getD (.new now)

section Step

variable {w : World ω F} {cfg : Config F} {e : Engine ω F} {s : Fd} {t : Target} {n : ℕ}

theorem lvl4Sm_present {sm : Lvl4SM F} (h : e.lvl4Sms[s]? = some sm) :
    Runs (lvl4Sm w s) e (fun r e' => sm = r ∧ e = e') (fun _ _ => False) := by
  unfold lvl4Sm
  apply Runs.read
  rw [h]
  exact Runs.ret ⟨rfl, rfl⟩

theorem register_machine {err now now' : ℤ} {o₄ o₅ o₆ : ω}
    (hc : w.connect (e.kernel.openSocket n) n t e.world = (err, o₄))
    (ht : w.timestamp o₄ = (now, o₅)) (ht' : w.timestamp o₅ = (now', o₆)) :
    Runs (register w cfg n t) e (fun _ e' => e'.lvl4Sms[(n : Fd)]? = some
      (((e.lvl4Sms[(n : Fd)]?).getD (.new now)).registered cfg.callbackLvl4Connected now'))
      (fun _ _ => False) := by
  refine (register_run n t).mono (fun err e' h => ?_) (fun _ _ h => h)
  rw [h.machines, if_pos rfl, registeredSm, hc]
  dsimp only
  rw [ht]
  dsimp only
  rw [ht']
  rfl

theorem createSocket_machine {err now now' : ℤ} {o₃ o₄ o₅ o₆ : ω}
    (hs : w.socket e.kernel t.port.protocol e.world = (some n, o₃))
    (hc : w.connect (e.kernel.openSocket n) n t o₃ = (err, o₄))
    (ht : w.timestamp o₄ = (now, o₅)) (ht' : w.timestamp o₅ = (now', o₆)) :
    Runs (createSocket w cfg t) e (fun r e' => r.1 = n ∧ e'.lvl4Sms[(n : Fd)]? = some
      (((e.lvl4Sms[(n : Fd)]?).getD (.new now)).registered cfg.callbackLvl4Connected now'))
      (fun _ _ => True) := by
  unfold createSocket
  apply Runs.read
  split_ifs with ha
  · exact Runs.fault trivial
  · refine Runs.bind (Q := fun r e' => r = some n ∧ e' = { e with world := o₃ }) ?_ ?_
    · exact Runs.updateGet (by rw [hs]; exact ⟨rfl, rfl⟩)
    rintro r _ ⟨rfl, rfl⟩
    refine Runs.bind (register_machine hc ht ht').noFault (fun err e' h => ?_)
    exact Runs.ret ⟨rfl, h⟩

theorem reconnect_machine {sm : Lvl4SM F} {err now now' : ℤ} {o₃ o₄ o₅ o₆ : ω}
    (hsm : e.lvl4Sms[s]? = some sm)
    (hs : w.socket ((e.kernel.epollDel s).close s) t.port.protocol e.world = (some n, o₃))
    (hc : w.connect (((e.kernel.epollDel s).close s).openSocket n) n t o₃ = (err, o₄))
    (ht : w.timestamp o₄ = (now, o₅)) (ht' : w.timestamp o₅ = (now', o₆)) :
    Runs (reconnect w cfg s t) e (fun _ e' => e'.lvl4Sms[(n : Fd)]? = some
      (((e.lvl4Sms[(n : Fd)]?).getD (.new now)).registered sm.funcConnect now'))
      (fun _ _ => True) := by
  unfold reconnect
  refine Runs.bind (lvl4Sm_present hsm).noFault ?_
  rintro _ _ ⟨rfl, rfl⟩
  refine Runs.bind (Runs.update rfl : Runs _ e (fun _ e' =>
    (e.removeConnectedSocket s).closeSocket s = e') _) ?_
  rintro _ _ rfl
  refine Runs.bind (createSocket_machine hs hc ht ht') ?_
  rintro ⟨_, err'⟩ e₁ ⟨rfl, h₁⟩
  let e₂ : Engine ω F := { e₁ with log := .reconnected s n :: e₁.log }
  refine Runs.bind (Runs.update rfl : Runs (EngineM.note _) e₁ (fun _ e' => e₂ = e') _) ?_
  rintro _ _ rfl
  refine Runs.bind (lvl4Sm_present (e := e₂) h₁).noFault ?_
  rintro _ _ ⟨rfl, rfl⟩
  refine Runs.bind (Runs.update rfl : Runs _ e₂ (fun _ e' =>
    e₂.modifySm n (·.setOnConnect sm.funcConnect) = e') _) ?_
  rintro _ _ rfl
  apply Runs.update
  change (e₁.lvl4Sms.modify (n : Fd) _)[(n : Fd)]? = _
  rw [TreeMaps.getElem?_modify, if_pos rfl, h₁]
  rfl

theorem callAll_lvl4Sms (cs : List (Call F)) {e e' : Engine ω F} (h : e'.lvl4Sms = e.lvl4Sms) :
    (e'.callAll cs).lvl4Sms = (e.callAll cs).lvl4Sms := by
  induction cs generalizing e e' with
  | nil => exact h
  | cons c cs ih =>
    apply ih
    cases c with
    | onSm s d => exact congrArg (·.modify s (·.call d)) h
    | ensureAvailableSockets k =>
      simp only [Engine.call, Engine.ensureAvailableSockets]
      split_ifs <;> exact h
    | setOnAlive ip a =>
      simp only [Engine.call, Engine.setOnAlive]
      split_ifs <;> exact h

theorem callAll_world (cs : List (Call F)) (e : Engine ω F) : (e.callAll cs).world = e.world := by
  induction cs generalizing e with
  | nil => rfl
  | cons c cs ih =>
    refine (ih (e.call c)).trans ?_
    cases c with
    | onSm s d => rfl
    | ensureAvailableSockets k =>
      simp only [Engine.call, Engine.ensureAvailableSockets]
      split_ifs <;> rfl
    | setOnAlive ip n =>
      simp only [Engine.call, Engine.setOnAlive]
      split_ifs <;> rfl

/-- What the finish callback does: it leaves everything but the machines and the counter. -/
theorem callbackFinish_machines {buf : List UInt8} {calls : List (Call F)} {o₂ : ω}
    (h : finishAnswer w cfg t buf e.world = (calls, o₂)) :
    Runs (callbackFinish w cfg t buf Errors.willReconnect.code) e
      (fun _ e' => e'.lvl4Sms = (e.callAll calls).lvl4Sms ∧ e'.kernel = e.kernel ∧ e'.world = o₂)
      (fun _ _ => False) := by
  unfold finishAnswer at h
  unfold callbackFinish
  split_ifs at h ⊢
  · obtain ⟨rfl, rfl⟩ := Prod.mk.inj h
    exact ⟨callAll_lvl4Sms _ rfl, (callAll_kernel _ _).1, callAll_world _ _⟩
  · obtain ⟨rfl, rfl⟩ := Prod.mk.inj h
    exact ⟨rfl, rfl, rfl⟩

theorem mem_callAll (cs : List (Call F)) (e : Engine ω F) (a : Fd) :
    a ∈ (e.callAll cs).lvl4Sms ↔ a ∈ e.lvl4Sms := by
  induction cs generalizing e with
  | nil => rfl
  | cons c cs ih =>
    refine (ih (e.call c)).trans ?_
    cases c with
    | onSm s d => exact Std.ExtTreeMap.mem_modify
    | ensureAvailableSockets k =>
      simp only [Engine.call, Engine.ensureAvailableSockets]
      split_ifs <;> rfl
    | setOnAlive ip n =>
      simp only [Engine.call, Engine.setOnAlive]
      split_ifs <;> rfl

/-- The machine the new socket is registered with. -/
theorem processConnectedReady_machine {sm sm' : Lvl4SM F} {calls : List (Call F)} {now now' : ℤ}
    (fuel : ℕ) (hsm : e.lvl4Sms[s]? = some sm) (hr : sm.reconnect = true)
    (hsm' : ((e.callAll calls).modifySm s Lvl4SM.freeBuffer).lvl4Sms[s]? = some sm')
    (h : PeerCloses w cfg e s t sm n calls now now') :
    Runs (processConnectedReady w cfg fuel s t) e (fun _ e' => e'.lvl4Sms[(n : Fd)]? = some
      ((foundAt e s calls now n).registered sm'.funcConnect now')) (fun _ _ => True) := by
  obtain ⟨o₁, o₂, o₃, o₄, o₅, o₆, err, hbytes, hfinish, hs, hc, ht, ht'⟩ := h
  unfold processConnectedReady
  apply Runs.read
  refine Runs.bind (Q := fun r e' => r = 0 ∧ e' = { e with world := o₁ }) ?_ ?_
  · exact Runs.updateGet (by rw [hbytes]; exact ⟨rfl, rfl⟩)
  rintro _ _ ⟨rfl, rfl⟩
  refine Runs.bind (lvl4Sm_present (e := { e with world := o₁ }) hsm).noFault ?_
  rintro _ _ ⟨rfl, rfl⟩
  rw [if_pos rfl, if_pos hr]
  refine Runs.bind (callbackFinish_machines hfinish).noFault ?_
  rintro _ e₁ ⟨hm, hk, rfl⟩
  refine Runs.bind (Runs.update rfl : Runs _ e₁ (fun _ e' =>
    e₁.modifySm s Lvl4SM.freeBuffer = e') _) ?_
  rintro _ _ rfl
  have hfound : (e₁.modifySm s Lvl4SM.freeBuffer).lvl4Sms =
      ((e.callAll calls).modifySm s Lvl4SM.freeBuffer).lvl4Sms := by
    exact congrArg (·.modify s Lvl4SM.freeBuffer) (hm.trans (callAll_lvl4Sms (e := e) calls rfl))
  have hk' : (e₁.modifySm s Lvl4SM.freeBuffer).kernel = e.kernel := hk
  rw [← hfound] at hsm'
  rw [← hk'] at hs hc
  unfold foundAt
  rw [← hfound]
  exact reconnect_machine hsm' hs hc ht ht'

end Step

/-- A step of the engine after the reconnection. The first loop of the dirty pass visits the
machines in the order of their descriptors; here the order is part of the step. -/
inductive LaterStep
  | freeSocks
  | events
  | dirty (order : List Fd)
  | status

def LaterStep.rename (π : Equiv.Perm Fd) : LaterStep → LaterStep
  | .freeSocks => .freeSocks
  | .events => .events
  | .dirty order => .dirty (order.map π)
  | .status => .status

def LaterStep.run (w : World ω F) (cfg : Config F) (fuel : ℕ) : LaterStep → EngineM ω F Unit
  | .freeSocks => Phase.freeSocks.run w cfg fuel
  | .events => Phase.events.run w cfg fuel
  | .dirty order => do
    let ts ← ask w.timestamp
    let l ← inspectAll w cfg ts order ⟨[], [], 0⟩
    let _ ← reprocess w cfg fuel l.toProcess
    finishTimeouted w cfg l.timeouted
  | .status => Phase.status.run w cfg fuel

def runLater (w : World ω F) (cfg : Config F) (fuel : ℕ) (steps : List LaterStep) :
    EngineM ω F Unit :=
  steps.forM (LaterStep.run w cfg fuel)

/-- With the machines in the order of their descriptors it is the dirty pass of the engine. -/
theorem LaterStep.run_dirty_keys (w : World ω F) (cfg : Config F) (fuel : ℕ) (e : Engine ω F) :
    ((LaterStep.dirty e.lvl4Sms.keys).run w cfg fuel).runFrom e =
      (Phase.dirty.run w cfg fuel).runFrom e := by
  simp only [LaterStep.run, Phase.run, processDirtyAndTimeouts, workLists, bind_assoc, pure_bind,
    bind_pure_unit]
  rfl

section Renamed

variable {π : Equiv.Perm Fd} {w w' : World ω F} (hw : w.Renamed π w') (cfg : Config F)
include hw

theorem LaterStep.run_follows (fuel : ℕ) (p : LaterStep) :
    Follows π Eq (p.run w cfg fuel) ((p.rename π).run w' cfg fuel) := by
  cases p with
  | freeSocks =>
    apply Follows.bind (processFreeSocks_follows hw cfg fuel)
    intro _ _ _
    exact Follows.ret rfl
  | events =>
    apply Follows.bind (processEvents_follows hw cfg fuel)
    intro _ _ _
    exact Follows.ret rfl
  | dirty order =>
    apply Follows.bind (Follows.askEq hw.timestamp)
    rintro ts _ rfl
    apply Follows.bind (inspectAll_follows hw cfg ts order ⟨[], [], 0⟩)
    rintro l _ rfl
    apply Follows.bind (reprocess_follows hw cfg fuel l.toProcess)
    intro _ _ _
    exact finishTimeouted_follows hw cfg l.timeouted
  | status => exact displayStatus_follows hw cfg

theorem runLater_follows (fuel : ℕ) (steps : List LaterStep) :
    Follows π Eq (runLater w cfg fuel steps)
      (runLater w' cfg fuel (steps.map (LaterStep.rename π))) :=
  fun he => Paired.forM steps he (fun p _ _ he => LaterStep.run_follows hw cfg fuel p he)

end Renamed

def Engine.Unregistered (e : Engine ω F) (n : ℕ) : Prop :=
  (n : Fd) ∉ e.lvl4Sms ∧ (n : Fd) ∉ e.socketsTargets

/-- The two runs do not show the number of the new socket: its machine is the same, and so is all
that is done afterwards, if the worlds answer alike up to the exchange of the two numbers. -/
structure FdIndependent (w w' : World ω F) (cfg : Config F) (a b : ℕ) (ea eb : Engine ω F) :
    Prop where
  machine : eb.lvl4Sms[(b : Fd)]? = ea.lvl4Sms[(a : Fd)]?
  later : w.Renamed (Equiv.swap (a : Fd) b) w' → ∀ fuel steps, ∃ done : List (Event F),
    ((runLater w cfg fuel steps).runFrom ea).2.log = done ++ ea.log ∧
      ((runLater w' cfg fuel (steps.map (LaterStep.rename (Equiv.swap (a : Fd) b)))).runFrom
        eb).2.log = done.map (Event.rename (Equiv.swap (a : Fd) b)) ++ eb.log

/-- An engine that knows nothing of two numbers is its own renaming by their exchange. -/
theorem Alike.exchange {e : Engine ω F} {a b : ℕ} (ha : e.Unregistered a) (hb : e.Unregistered b)
    (hka : (a : Fd) ∉ e.kernel.socks) (hkb : (b : Fd) ∉ e.kernel.socks) :
    Alike (Equiv.swap (a : Fd) b) e.log e.log e e where
  hosts := rfl
  machines := .swap (Std.ExtTreeMap.getElem?_eq_none ha.1) (Std.ExtTreeMap.getElem?_eq_none hb.1)
  targets := .swap (Std.ExtTreeMap.getElem?_eq_none ha.2) (Std.ExtTreeMap.getElem?_eq_none hb.2)
  avail := rfl
  nlaunched := rfl
  ndone := rfl
  lastTime := rfl
  kernel := by
    constructor
    · exact .swap (Std.ExtTreeMap.getElem?_eq_none hka) (Std.ExtTreeMap.getElem?_eq_none hkb)
    · exact .swap (Std.ExtTreeMap.getElem?_eq_none (fun h => hka (e.kernel.epoll_open _ h)))
        (Std.ExtTreeMap.getElem?_eq_none (fun h => hkb (e.kernel.epoll_open _ h)))
  world := rfl
  log := ⟨[], rfl, rfl⟩

theorem Alike.same {e : Engine ω F} (a : Fd) : Alike (Equiv.swap a a) e.log e.log e e := by
  rw [Equiv.swap_self]
  exact ⟨rfl, fun _ => rfl, fun _ => rfl, rfl, rfl, rfl, rfl, ⟨fun _ => rfl, fun _ => rfl⟩, rfl,
    [], rfl, rfl⟩

theorem Alike.restart {π : Equiv.Perm Fd} {l l' : List (Event F)} {e e' : Engine ω F}
    (h : Alike π l l' e e') : Alike π e.log e'.log e e' :=
  ⟨h.hosts, h.machines, h.targets, h.avail, h.nlaunched, h.ndone, h.lastTime, h.kernel, h.world,
    [], rfl, rfl⟩

section Runs

variable {w w' : World ω F} {cfg : Config F} {e ea eb : Engine ω F} {s : Fd} {t : Target}
  {sm : Lvl4SM F} {fuel a b : ℕ} {calls : List (Call F)} {now now' : ℤ}

/-- Two runs of the step from an engine that is its own renaming stay renamings of each other. -/
theorem later_alike (he : Alike (Equiv.swap (a : Fd) b) e.log e.log e e)
    (hs : Equiv.swap (a : Fd) b s = s)
    (hra : (processConnectedReady w cfg fuel s t).runFrom e = (.ok (), ea))
    (hrb : (processConnectedReady w' cfg fuel s t).runFrom e = (.ok (), eb))
    (hw : w.Renamed (Equiv.swap (a : Fd) b) w') (fuel' : ℕ) (steps : List LaterStep) :
    ∃ done : List (Event F), ((runLater w cfg fuel' steps).runFrom ea).2.log = done ++ ea.log ∧
      ((runLater w' cfg fuel' (steps.map (LaterStep.rename (Equiv.swap (a : Fd) b)))).runFrom
        eb).2.log = done.map (Event.rename (Equiv.swap (a : Fd) b)) ++ eb.log := by
  have hstep := (processConnectedReady_follows hw cfg fuel s t he).states
  rw [hs, hra, hrb] at hstep
  exact (runLater_follows hw cfg fuel' steps hstep.restart).states.log

theorem PeerCloses.fresh {n : ℕ} (h : PeerCloses w cfg e s t sm n calls now now')
    (hn : (n : Fd) ≠ s) : (n : Fd) ∉ e.kernel.socks := by
  obtain ⟨o₁, o₂, o₃, -, -, -, -, -, -, hs, -⟩ := h
  have hfresh := w.socket_fresh (congrArg Prod.fst hs)
  intro hmem
  exact hfresh ((TreeMaps.mem_erase _ _ _).mpr ⟨hn, hmem⟩)

theorem foundAt_unregistered {n : ℕ} (h : e.Unregistered n) :
    foundAt e s calls now n = .new now := by
  have hnone : (n : Fd) ∉ ((e.callAll calls).modifySm s Lvl4SM.freeBuffer).lvl4Sms :=
    fun hmem => h.1 ((mem_callAll calls e n).mp (Std.ExtTreeMap.mem_modify.mp hmem))
  rw [foundAt, Std.ExtTreeMap.getElem?_eq_none hnone]
  rfl

theorem foundAt_old {n : ℕ} (hn : (n : Fd) = s) (h : (e.callAll calls).ReconnectsAt s) :
    (foundAt e s calls now n).reconnect = true := by
  obtain ⟨sm, hsm, hr⟩ := h
  have hfound : ((e.callAll calls).modifySm s Lvl4SM.freeBuffer).lvl4Sms[(n : Fd)]? =
      some sm.freeBuffer := by
    change ((e.callAll calls).lvl4Sms.modify s Lvl4SM.freeBuffer)[(n : Fd)]? = _
    rw [TreeMaps.getElem?_modify, if_pos hn, hsm]
    rfl
  rw [foundAt, hfound]
  exact hr

theorem new_machine_same_iff (hsm : e.lvl4Sms[s]? = some sm) (hr : sm.reconnect = true)
    (ha : PeerCloses w cfg e s t sm a calls now now')
    (hb : PeerCloses w' cfg e s t sm b calls now now')
    (hra : (processConnectedReady w cfg fuel s t).runFrom e = (.ok (), ea))
    (hrb : (processConnectedReady w' cfg fuel s t).runFrom e = (.ok (), eb)) :
    eb.lvl4Sms[(b : Fd)]? = ea.lvl4Sms[(a : Fd)]? ↔
      (foundAt e s calls now b).settings = (foundAt e s calls now a).settings := by
  obtain ⟨sm', hsm'⟩ : ∃ sm',
      ((e.callAll calls).modifySm s Lvl4SM.freeBuffer).lvl4Sms[s]? = some sm' := by
    have hmem : s ∈ ((e.callAll calls).modifySm s Lvl4SM.freeBuffer).lvl4Sms :=
      Std.ExtTreeMap.mem_modify.mpr ((mem_callAll calls e s).mpr (TreeMaps.mem_of_getElem? hsm))
    exact ⟨_, Std.ExtTreeMap.getElem?_eq_some_getElem hmem⟩
  rw [(processConnectedReady_machine fuel hsm hr hsm' ha).of_ok hra,
    (processConnectedReady_machine fuel hsm hr hsm' hb).of_ok hrb, Option.some.injEq,
    registered_eq_iff]

theorem fdIndependent_of_unregistered (hsm : e.lvl4Sms[s]? = some sm) (hr : sm.reconnect = true)
    (ha : PeerCloses w cfg e s t sm a calls now now')
    (hb : PeerCloses w' cfg e s t sm b calls now now')
    (hra : (processConnectedReady w cfg fuel s t).runFrom e = (.ok (), ea))
    (hrb : (processConnectedReady w' cfg fuel s t).runFrom e = (.ok (), eb))
    (h : a = b ∨ e.Unregistered a ∧ e.Unregistered b) : FdIndependent w w' cfg a b ea eb := by
  have hsame := new_machine_same_iff hsm hr ha hb hra hrb
  rcases h with rfl | ⟨hua, hub⟩
  · refine ⟨hsame.mpr rfl, later_alike (.same (a : Fd)) ?_ hra hrb⟩
    rw [Equiv.swap_self, Equiv.refl_apply]
  · have hs : s ∈ e.lvl4Sms := TreeMaps.mem_of_getElem? hsm
    have hna : (a : Fd) ≠ s := fun h => hua.1 (h ▸ hs)
    have hnb : (b : Fd) ≠ s := fun h => hub.1 (h ▸ hs)
    refine ⟨hsame.mpr ?_, later_alike (.exchange hua hub (ha.fresh hna) (hb.fresh hnb)) ?_ hra hrb⟩
    · rw [foundAt_unregistered hua, foundAt_unregistered hub]
    · exact Equiv.swap_apply_of_ne_of_ne hna.symm hnb.symm

/-- Two runs of `process_connected_ready` on a socket that is to be reconnected, which get the same
answers but for the number of the new socket. The machine is the same exactly when what is found
under the two numbers is, and nothing at all depends on the number if neither has an entry. Where
no number but that of the old socket has one, this is exact: both numbers are that one, or none. -/
theorem reconnection_fd_independent (hsm : e.lvl4Sms[s]? = some sm) (hr : sm.reconnect = true)
    (ha : PeerCloses w cfg e s t sm a calls now now')
    (hb : PeerCloses w' cfg e s t sm b calls now now')
    (hra : (processConnectedReady w cfg fuel s t).runFrom e = (.ok (), ea))
    (hrb : (processConnectedReady w' cfg fuel s t).runFrom e = (.ok (), eb)) :
    (eb.lvl4Sms[(b : Fd)]? = ea.lvl4Sms[(a : Fd)]? ↔
      (foundAt e s calls now b).settings = (foundAt e s calls now a).settings) ∧
    (a = b ∨ e.Unregistered a ∧ e.Unregistered b → FdIndependent w w' cfg a b ea eb) ∧
    (((a : Fd) ≠ s → e.Unregistered a) → ((b : Fd) ≠ s → e.Unregistered b) →
      (e.callAll calls).ReconnectsAt s →
      (FdIndependent w w' cfg a b ea eb ↔ ((a : Fd) = s ↔ (b : Fd) = s))) := by
  have hsame := new_machine_same_iff hsm hr ha hb hra hrb
  have hind := fdIndependent_of_unregistered hsm hr ha hb hra hrb
  refine ⟨hsame, hind, ?_⟩
  intro hua hub hold
  constructor
  · intro h
    have hset : (foundAt e s calls now b).reconnect = (foundAt e s calls now a).reconnect :=
      congrArg (fun p => p.2.1) (hsame.mp h.machine)
    by_cases has : (a : Fd) = s
    · by_cases hbs : (b : Fd) = s
      · simp [has, hbs]
      · rw [foundAt_unregistered (hub hbs), foundAt_old has hold] at hset
        simp [Lvl4SM.new] at hset
    · by_cases hbs : (b : Fd) = s
      · rw [foundAt_unregistered (hua has), foundAt_old hbs hold] at hset
        simp [Lvl4SM.new] at hset
      · simp [has, hbs]
  · intro h
    by_cases has : (a : Fd) = s
    · exact hind (Or.inl (Int.ofNat.inj (has.trans (h.mp has).symm)))
    · exact hind (Or.inr ⟨hua has, hub (fun hbs => has (h.mpr hbs))⟩)

end Runs

/-- A world with one descriptor to give: every target is the same, a socket is ready for what it
is registered for, and its peer closes it once it is connected. -/
def World.offering (n : ℕ) : World Unit Unit where
  socket k _ o := (if (n : Fd) ∈ k.socks then none else some n, o)
  connect _ _ _ o := (EINPROGRESS, o)
  epollWait k o :=
    (some ((k.epoll[(n : Fd)]?).map fun i => ⟨n, i = .epollin, i = .epollout⟩).toList, o)
  soError _ _ o := (0, o)
  bytesAvail _ _ o := (0, o)
  read _ _ o := (⟨0, []⟩, o)
  getpeername k s o := ((k.socks[s]?.join).getD .endMark, o)
  timestamp o := (0, o)
  initTargets o := o
  nextTarget o := (.target ⟨1, ⟨80, .tcp⟩⟩, o)
  targetFinished _ hsm o := ((false, hsm), o)
  initHostSm _ hsm o := (hsm, o)
  saveState o := o
  callback cb o := (stayConnected cb, o)
  socket_fresh := by
    intro k p o m h
    split_ifs at h with hn
    obtain rfl : n = m := Option.some.inj h
    exact hn
  epollWait_registered := by
    intro k o evs h ev hev
    obtain rfl := Option.some.inj h
    rw [Option.mem_toList, Option.map_eq_some_iff] at hev
    obtain ⟨i, hi, rfl⟩ := hev
    refine ⟨TreeMaps.mem_of_getElem? hi, ?_, ?_⟩
    · intro hout
      rw [hi, of_decide_eq_true hout]
    · intro hin
      rw [hi, of_decide_eq_true hin]
  epollWait_nodup := by
    intro k o evs h
    obtain rfl := Option.some.inj h
    cases k.epoll[(n : Fd)]? <;> simp
  epollWait_length := by
    intro k o evs h
    obtain rfl := Option.some.inj h
    cases k.epoll[(n : Fd)]? <;> simp

/-- Worlds that offer different descriptors are renamings of each other. -/
theorem World.offering_renamed (n n' : ℕ) :
    (World.offering n).Renamed (Equiv.swap (n : Fd) n') (World.offering n') where
  noFd := by
    have hn : (-1 : ℤ) ≠ n := by omega
    have hn' : (-1 : ℤ) ≠ n' := by omega
    exact Equiv.swap_apply_of_ne_of_ne hn hn'
  socket := by
    intro k k' hk p o
    have hmem := hk.socks.mem_iff (n : Fd)
    rw [Equiv.swap_apply_left] at hmem
    simp only [World.offering, hmem]
    split_ifs <;> simp
  connect := fun _ _ _ _ => rfl
  epollWait := by
    intro k k' hk o
    have hn := hk.epoll (n : Fd)
    rw [Equiv.swap_apply_left] at hn
    simp only [World.offering, hn]
    cases k.epoll[(n : Fd)]? <;> simp [EpollEvent.rename]
  soError := fun _ _ _ => rfl
  bytesAvail := fun _ _ _ => rfl
  read := fun _ _ _ => rfl
  getpeername := by
    intro k k' hk s o
    simp only [World.offering, hk.socks s]
  timestamp := fun _ => rfl
  nextTarget := fun _ => rfl
  targetFinished := fun _ _ _ => rfl
  initHostSm := fun _ _ _ => rfl
  callback := by
    intro cb o
    cases cb <;> exact ⟨rfl, rfl, rfl⟩

/-- A target connected on socket 5, whose `on_connect` action asks for a reconnection. -/
def connectedRun : Except Fault Unit × Engine Unit Unit :=
  (runPhases (World.offering 5) stayConfig 2 [.freeSocks, .events]).runFrom (.init stayConfig ())

/-- The peer of socket 5 closes, and the new socket gets the number `n`. -/
def closedRun (n : ℕ) : Except Fault Unit × Engine Unit Unit :=
  (processConnectedReady (World.offering n) stayConfig 1 5 ⟨1, ⟨80, .tcp⟩⟩).runFrom connectedRun.2

theorem closedRun_eq (n : ℕ) (h : (closedRun n).1 = .ok ()) :
    (processConnectedReady (World.offering n) stayConfig 1 5 ⟨1, ⟨80, .tcp⟩⟩).runFrom
      connectedRun.2 = (.ok (), (closedRun n).2) := by
  unfold closedRun at h ⊢
  generalize runFrom _ connectedRun.2 = r at h ⊢
  exact Prod.ext h rfl

theorem connectedRun_machine : ∃ sm, connectedRun.2.lvl4Sms[(5 : Fd)]? = some sm ∧
    sm.reconnect = true :=
  ⟨⟨true, 0, 0, true, false, some (), .base, []⟩, by decide +kernel, rfl⟩

theorem offering_peerCloses {e : Engine Unit Unit} {s : Fd} {n : ℕ}
    (h : (n : Fd) ∉ ((e.kernel.epollDel s).close s).socks) (t : Target) (sm : Lvl4SM Unit) :
    PeerCloses (World.offering n) stayConfig e s t sm n [] 0 0 :=
  ⟨(), (), (), (), (), (), EINPROGRESS, rfl, rfl, congrArg (·, ()) (if_neg h), rfl, rfl, rfl⟩

theorem reconnection_fd_independent_six_seven :
    (World.offering 6).Renamed (Equiv.swap 6 7) (World.offering 7) ∧
      FdIndependent (World.offering 6) (World.offering 7) stayConfig 6 7 (closedRun 6).2
        (closedRun 7).2 := by
  obtain ⟨sm, hsm, hr⟩ := connectedRun_machine
  have h := reconnection_fd_independent hsm hr
    (offering_peerCloses (n := 6) (by decide +kernel) _ sm)
    (offering_peerCloses (n := 7) (by decide +kernel) _ sm)
    (closedRun_eq 6 (by decide +kernel)) (closedRun_eq 7 (by decide +kernel))
  refine ⟨World.offering_renamed 6 7, h.2.1 (Or.inr ⟨⟨?_, ?_⟩, ⟨?_, ?_⟩⟩)⟩ <;> decide +kernel

/-- The number 5 back: the machine still asks for reconnections. Another number: it does not. -/
theorem old_fd_keeps_machine :
    Reachable (World.offering 5) stayConfig connectedRun.2 ∧
      (∃ sm, connectedRun.2.lvl4Sms[(5 : Fd)]? = some sm ∧ sm.reconnect = true ∧
        PeerCloses (World.offering 5) stayConfig connectedRun.2 5 ⟨1, ⟨80, .tcp⟩⟩ sm 5 [] 0 0 ∧
        PeerCloses (World.offering 6) stayConfig connectedRun.2 5 ⟨1, ⟨80, .tcp⟩⟩ sm 6 [] 0 0) ∧
      (closedRun 5).1 = .ok () ∧ (closedRun 6).1 = .ok () ∧
      (World.offering 5).Renamed (Equiv.swap 5 6) (World.offering 6) ∧
      ¬ FdIndependent (World.offering 5) (World.offering 6) stayConfig 5 6 (closedRun 5).2
        (closedRun 6).2 := by
  obtain ⟨sm, hsm, hr⟩ := connectedRun_machine
  refine ⟨Reachable.phases (.init _) (by decide +kernel), ⟨sm, hsm, hr, ?_, ?_⟩,
    by decide +kernel, by decide +kernel, World.offering_renamed 5 6, ?_⟩
  · exact offering_peerCloses (by decide +kernel) _ sm
  · exact offering_peerCloses (by decide +kernel) _ sm
  · intro h
    have hne : (closedRun 6).2.lvl4Sms[(6 : Fd)]? ≠ (closedRun 5).2.lvl4Sms[(5 : Fd)]? := by
      decide +kernel
    exact hne h.machine

end Nodescan
