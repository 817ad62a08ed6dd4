import Nodescan.SocketRegistry

/-!
# What most functions keep

Most of what the engine does is the same for every invariant: it asks the world, notes what it did,
keeps its registry and its books, and calls back. `Steady` asks that an invariant stands these
steps, and the functions made of them then keep it. What an invariant is really about (the state of
the hosts, the processing of data) is left to those who state it.
-/

namespace Nodescan

open FaultM EngineM

variable {ω F α β : Type}

/-- `x` keeps `P`, whether it returns or faults. -/
def Keeps (P : Engine ω F → Prop) (x : EngineM ω F α) : Prop :=
  ∀ e, P e → Runs x e (fun _ => P) (fun _ => P)

namespace Keeps

variable {P : Engine ω F → Prop}

theorem bind {x : EngineM ω F α} {f : α → EngineM ω F β} (hx : Keeps P x)
    (hf : ∀ a, Keeps P (f a)) : Keeps P (x >>= f) :=
  fun e he => Runs.bind (hx e he) (fun a e' he' => hf a e' he')

theorem ret (a : α) : Keeps P (pure a : EngineM ω F α) := fun _ he => he

theorem read {f : Engine ω F → EngineM ω F α} (hf : ∀ e, Keeps P (f e)) :
    Keeps P (get >>= f) :=
  fun e he => hf e e he

theorem update {f : Engine ω F → Engine ω F} (h : ∀ e, P e → P (f e)) :
    Keeps P (modify f : EngineM ω F Unit) :=
  fun e he => h e he

theorem forM {f : α → EngineM ω F Unit} (hf : ∀ a, Keeps P (f a)) (xs : List α) :
    Keeps P (xs.forM f) := by
  induction xs with
  | nil => exact ret ()
  | cons a xs ih => exact bind (hf a) (fun _ => ih)

end Keeps

/-- The events that an invariant of hosts and launched targets may depend on. -/
def Event.isHostEvent : Event F → Bool
  | .launched _ => true
  | .called (.connected _ _) => true
  | .onAliveSet _ _ => true
  | .hostFinished _ _ _ => true
  | _ => false

/-- What the engine asks of the world, the functions of the target set apart. -/
inductive World.Asked (w : World ω F) : ω → ω → Prop
  | socket (k : Kernel) (p : Protocol) (o : ω) : w.Asked o (w.socket k p o).2
  | connect (k : Kernel) (s : Fd) (t : Target) (o : ω) : w.Asked o (w.connect k s t o).2
  | epollWait (k : Kernel) (o : ω) : w.Asked o (w.epollWait k o).2
  | soError (k : Kernel) (s : Fd) (o : ω) : w.Asked o (w.soError k s o).2
  | bytesAvail (k : Kernel) (s : Fd) (o : ω) : w.Asked o (w.bytesAvail k s o).2
  | read (s : Fd) (n : ℕ) (o : ω) : w.Asked o (w.read s n o).2
  | getpeername (k : Kernel) (s : Fd) (o : ω) : w.Asked o (w.getpeername k s o).2
  | timestamp (o : ω) : w.Asked o (w.timestamp o).2
  | callback (cb : Callback F) (o : ω) : w.Asked o (w.callback cb o).2

/-- `f` changes nothing of a machine that its triggers use. -/
structure Bookkeeping (f : Lvl4SM F → Lvl4SM F) : Prop where
  trigger : ∀ sm, (f sm).trigger = sm.trigger
  reprocess : ∀ sm, (f sm).reprocess = sm.reprocess
  buf : ∀ sm, (f sm).buf = sm.buf

theorem Engine.setOnAlive_of_mem {e : Engine ω F} {ip : UInt32} (a : ℕ) (h : ip ∈ e.hostsSms) :
    e.setOnAlive ip a = { e with
      hostsSms := e.hostsSms.modify ip (·.setOnAlive a)
      log := .onAliveSet ip a :: e.log } :=
  if_pos h

/-- A socket is registered for `t`. -/
def Engine.Registers (e : Engine ω F) (t : Target) : Prop := ∃ s : Fd, e.socketsTargets[s]? = some t

theorem Engine.registers_insertTarget {e : Engine ω F} {n : ℕ} {t u : Target}
    (h : (e.insertTarget n t).Registers u) : u = t ∨ e.Registers u := by
  obtain ⟨s, hs⟩ := h
  change (e.socketsTargets.insertIfNew (n : Fd) t)[s]? = some u at hs
  rw [TreeMaps.getElem?_insertIfNew] at hs
  split_ifs at hs with hn
  · cases hget : e.socketsTargets[(n : Fd)]? with
    | none =>
      rw [hget] at hs
      exact Or.inl (Option.some.inj hs).symm
    | some v =>
      rw [hget] at hs
      exact Or.inr ⟨n, hget.trans hs⟩
  · exact Or.inr ⟨s, hs⟩

/-- `P` stands everything the engine does apart from the end and the start of hosts and the
processing of data, as long as the sockets are opened for targets that are `Allowed`. -/
structure Steady (w : World ω F) (Allowed : Target → Prop) (P : Engine ω F → Prop) : Prop where
  congr : ∀ {e e'}, P e → e'.hostsSms = e.hostsSms → e'.lvl4Sms = e.lvl4Sms → e'.log = e.log →
    e'.world = e.world → (∀ t, e'.Registers t → e.Registers t) → P e'
  insert : ∀ {e t} (n : ℕ), P e → Allowed t → P (e.insertTarget n t)
  onAlive : ∀ {e ip} (a : ℕ), P e → ip ∈ e.hostsSms → P (e.setOnAlive ip a)
  asked : ∀ {e o}, P e → w.Asked e.world o → P { e with world := o }
  note : ∀ {e} (ev : Event F), ev.isHostEvent = false → P e → P { e with log := ev :: e.log }
  fresh : ∀ {e s now}, P e → s ∉ e.lvl4Sms →
    P { e with lvl4Sms := e.lvl4Sms.insert s (.new now) }
  book : ∀ {e f} (s : Fd), P e → Bookkeeping f → P (e.modifySm s f)
  freed : ∀ {e} (s : Fd), P e → P (e.modifySm s Lvl4SM.freeBuffer)
  call : ∀ {e} (s : Fd) (c : SmCall F), P e → P (e.modifySm s (·.call c))

namespace Steady

variable {w : World ω F} {cfg : Config F} {Allowed : Target → Prop} {P : Engine ω F → Prop}
variable (hP : Steady w Allowed P)
include hP

theorem update {f : Engine ω F → Engine ω F} (hf : ∀ e, (f e).hostsSms = e.hostsSms ∧
    (f e).lvl4Sms = e.lvl4Sms ∧ (f e).log = e.log ∧ (f e).world = e.world ∧
    (f e).socketsTargets = e.socketsTargets) : Keeps P (modify f : EngineM ω F Unit) := by
  apply Keeps.update
  intro e he
  obtain ⟨hh, hs, hl, ho, ht⟩ := hf e
  refine hP.congr he hh hs hl ho ?_
  rintro t ⟨s, hs⟩
  exact ⟨s, by rwa [ht] at hs⟩

theorem modifySm {f : Lvl4SM F → Lvl4SM F} (s : Fd) (hf : Bookkeeping f) :
    Keeps P (modify (·.modifySm s f) : EngineM ω F Unit) :=
  Keeps.update (fun _ he => hP.book s he hf)

theorem freeBuffer (s : Fd) :
    Keeps P (modify (·.modifySm s Lvl4SM.freeBuffer) : EngineM ω F Unit) :=
  Keeps.update (fun _ he => hP.freed s he)

theorem ask {f : ω → α × ω} (hf : ∀ o, w.Asked o (f o).2) : Keeps P (EngineM.ask (F := F) f) :=
  fun e he => hP.asked he (hf e.world)

theorem noted {ev : Event F} (hev : ev.isHostEvent = false) : Keeps P (EngineM.note ev) :=
  fun _ he => hP.note ev hev he

theorem callAll {e : Engine ω F} (cs : List (Call F)) (he : P e) : P (e.callAll cs) := by
  induction cs generalizing e with
  | nil => exact he
  | cons c cs ih =>
    apply ih
    cases c with
    | onSm s c => exact hP.call s c he
    | ensureAvailableSockets n =>
      simp only [Engine.call, Engine.ensureAvailableSockets]
      split_ifs
      · have hn := hP.note (.added (n - e.availSocks)) rfl he
        exact hP.congr hn rfl rfl rfl rfl (fun _ h => h)
      · exact he
    | setOnAlive ip a =>
      by_cases hip : ip ∈ e.hostsSms
      · exact hP.onAlive a he hip
      · rwa [Engine.call, Engine.setOnAlive, if_neg hip]

/-- The answer of a callback, and the calls it made. -/
theorem answer {cb : Callback F} {e : Engine ω F} (cs : List (Call F))
    (he : P { e with log := .called cb :: e.log }) :
    P (Engine.callAll { e with
      world := (w.callback cb e.world).2
      log := .returned cb (cb.goesOn (w.callback cb e.world).1.1) (w.callback cb e.world).1.2 ::
        .called cb :: e.log } cs) := by
  apply hP.callAll
  have hret := hP.note
    (.returned cb (cb.goesOn (w.callback cb e.world).1.1) (w.callback cb e.world).1.2) rfl he
  exact hP.asked hret (.callback cb e.world)

theorem callback {cb : Callback F} (hcb : (Event.called cb).isHostEvent = false) :
    Keeps P (EngineM.callback w cb) :=
  fun _ he => hP.answer _ (hP.note (.called cb) hcb he)

theorem called (s : Fd) {cb : Callback F} (hcb : (Event.called cb).isHostEvent = false)
    {e : Engine ω F} (he : P e) : P (EngineM.called w s cb e).2 :=
  hP.answer _ (hP.note (.called cb) hcb he)

theorem kept (ct : ConnectedTarget) : Lvl4SM.Kept (actions w) ct (fun _ e => P e) where
  buf := fun _ he => he
  data := fun _ _ he => hP.called ct.s rfl he
  python := fun _ _ _ he => hP.called ct.s rfl he

omit hP in
theorem targetFromSocket (s : Fd) : Keeps P (EngineM.targetFromSocket s) := by
  intro e he
  refine (targetFromSocket_spec s).mono (fun t e' h => ?_) (fun f e' h => ?_)
  · rwa [h.1]
  · rwa [h.1]

theorem lvl4Sm (s : Fd) : Keeps P (EngineM.lvl4Sm w s) := by
  intro e he
  unfold EngineM.lvl4Sm
  apply Runs.read
  cases hs : e.lvl4Sms[s]? with
  | some sm => exact he
  | none =>
    have hasked := hP.asked he (.timestamp e.world)
    exact hP.fresh hasked (TreeMaps.not_mem_of_getElem? hs)

theorem newLvl4Sm (s : Fd) : Keeps P (EngineM.newLvl4Sm w s) := by
  refine Keeps.bind (hP.ask .timestamp) (fun now => Keeps.update (fun e he => ?_))
  by_cases hs : s ∈ e.lvl4Sms
  · exact hP.congr he rfl (TreeMaps.insertIfNew_of_mem _ _ _ hs) rfl rfl (fun _ h => h)
  · rw [TreeMaps.insertIfNew_of_not_mem _ _ _ hs]
    exact hP.fresh he hs

theorem updateTs (s : Fd) : Keeps P (EngineM.updateTs w s) :=
  Keeps.bind (hP.ask .timestamp)
    (fun _ => hP.modifySm s ⟨fun _ => rfl, fun _ => rfl, fun _ => rfl⟩)

theorem callbackFinish (t : Target) (buf : List UInt8) (err : ℤ) :
    Keeps P (EngineM.callbackFinish w cfg t buf err) := by
  unfold EngineM.callbackFinish
  split_ifs
  · exact hP.callback rfl
  · exact Keeps.ret ()

theorem register (n : ℕ) {t : Target} (ht : Allowed t) :
    Keeps P (EngineM.register w cfg n t) := by
  unfold EngineM.register
  refine Keeps.bind (hP.update (fun _ => ⟨rfl, rfl, rfl, rfl, rfl⟩)) ?_
  intro _
  apply Keeps.read
  intro e
  refine Keeps.bind (hP.ask (.connect _ _ _)) (fun err => ?_)
  refine Keeps.bind (Keeps.update (fun e he => ?_)) (fun _ => ?_)
  · have hn := hP.note (.connect n t err) rfl he
    exact hP.congr hn rfl rfl rfl rfl (fun _ h => h)
  refine Keeps.bind (hP.newLvl4Sm _) (fun _ => ?_)
  refine Keeps.bind (hP.modifySm _ ⟨fun _ => rfl, fun _ => rfl, fun _ => rfl⟩) (fun _ => ?_)
  refine Keeps.bind (hP.updateTs _) (fun _ => ?_)
  exact Keeps.bind (Keeps.update (fun _ he => hP.insert n he ht)) (fun _ => Keeps.ret _)

theorem createSocket {t : Target} (ht : Allowed t) : Keeps P (EngineM.createSocket w cfg t) := by
  unfold EngineM.createSocket
  apply Keeps.read
  intro e
  split_ifs
  · exact fun _ he => he
  · refine Keeps.bind (hP.ask (.socket _ _)) (fun r => ?_)
    cases r with
    | none => exact Keeps.ret _
    | some n => exact Keeps.bind (hP.register n ht) (fun _ => Keeps.ret _)

theorem reconnect (s : Fd) {t : Target} (ht : Allowed t) :
    Keeps P (EngineM.reconnect w cfg s t) := by
  unfold EngineM.reconnect
  refine Keeps.bind (hP.lvl4Sm s) (fun sm => ?_)
  refine Keeps.bind (hP.update (fun _ => ⟨rfl, rfl, rfl, rfl, rfl⟩)) ?_
  intro _
  refine Keeps.bind (hP.createSocket ht) (fun r => ?_)
  refine Keeps.bind (hP.noted rfl) (fun _ => ?_)
  refine Keeps.bind (hP.lvl4Sm r.1) (fun _ => ?_)
  refine Keeps.bind (hP.modifySm _ ⟨fun _ => rfl, fun _ => rfl, fun _ => rfl⟩) (fun _ => ?_)
  exact hP.update (fun _ => ⟨rfl, rfl, rfl, rfl, rfl⟩)

theorem hasTimedout (ts : ℤ) (s : Fd) (sm : Lvl4SM F) :
    Keeps P (EngineM.hasTimedout w cfg ts s sm) := by
  have htimeout : Keeps P (timeoutOfTarget w cfg s) := by
    unfold timeoutOfTarget
    refine Keeps.read (fun e => Keeps.bind (hP.ask (.getpeername _ _)) (fun peer => ?_))
    split_ifs
    · exact hP.callback rfl
    · exact Keeps.ret _
  have hwatch : Keeps P (hasWatchTimedout w cfg ts s sm.watchTs) := by
    unfold hasWatchTimedout
    split_ifs
    · exact Keeps.ret _
    · refine Keeps.read (fun e => Keeps.bind (hP.ask (.getpeername _ _)) (fun peer => ?_))
      refine Keeps.bind (hP.callback rfl) (fun goOn => ?_)
      split_ifs
      · exact Keeps.bind (hP.modifySm _ ⟨fun _ => rfl, fun _ => rfl, fun _ => rfl⟩)
          (fun _ => Keeps.ret _)
      · exact Keeps.ret _
    · exact Keeps.ret _
  refine Keeps.bind htimeout (fun timeoutTarget => ?_)
  split_ifs
  · exact Keeps.ret _
  · exact hwatch

theorem displayStatus : Keeps P (EngineM.displayStatus w cfg) := by
  have hshould : Keeps P (shouldCallStatusDisplay w cfg) := by
    unfold shouldCallStatusDisplay
    split_ifs
    · exact Keeps.ret _
    · refine Keeps.bind (hP.ask .timestamp) (fun now => Keeps.read (fun e => ?_))
      split_ifs
      · refine Keeps.bind (hP.update (fun _ => ⟨rfl, rfl, rfl, rfl, rfl⟩)) ?_
        exact fun _ => Keeps.ret _
      · exact Keeps.ret _
  unfold EngineM.displayStatus
  refine Keeps.bind hshould (fun b => ?_)
  split_ifs
  · exact Keeps.read (fun e => hP.callback rfl)
  · exact Keeps.ret ()

omit hP in
/-- A host that is there stays. -/
theorem of_host (w : World ω F) (Allowed : Target → Prop) (ip : UInt32) :
    Steady w Allowed (fun e => ip ∈ e.hostsSms) where
  congr := by
    intro e e' h hh _ _ _ _
    rwa [hh]
  insert := fun _ h _ => h
  onAlive := by
    intro e a n h ha
    rw [Engine.setOnAlive_of_mem n ha]
    exact Std.ExtTreeMap.mem_modify.mpr h
  asked := fun h _ => h
  note := fun _ _ h => h
  fresh := fun h _ => h
  book := fun _ h _ => h
  freed := fun _ h => h
  call := fun _ _ h => h

omit hP in
/-- What the world does not change by what it is asked. -/
theorem of_world (Allowed : Target → Prop) {Q : ω → Prop}
    (hQ : ∀ {o o'}, Q o → w.Asked o o' → Q o') :
    Steady w Allowed (fun e : Engine ω F => Q e.world) where
  congr := by
    intro e e' h _ _ _ ho _
    rwa [ho]
  insert := fun _ h _ => h
  onAlive := by
    intro e a n h ha
    rw [Engine.setOnAlive_of_mem n ha]
    exact h
  asked := hQ
  note := fun _ _ h => h
  fresh := fun h _ => h
  book := fun _ h _ => h
  freed := fun _ h => h
  call := fun _ _ h => h

theorem and {Q : Engine ω F → Prop} (hQ : Steady w Allowed Q) :
    Steady w Allowed (fun e => P e ∧ Q e) where
  congr := fun h hh hs hl ho ht => ⟨hP.congr h.1 hh hs hl ho ht, hQ.congr h.2 hh hs hl ho ht⟩
  insert := fun n h ht => ⟨hP.insert n h.1 ht, hQ.insert n h.2 ht⟩
  onAlive := fun a h hip => ⟨hP.onAlive a h.1 hip, hQ.onAlive a h.2 hip⟩
  asked := fun h ho => ⟨hP.asked h.1 ho, hQ.asked h.2 ho⟩
  note := fun ev hev h => ⟨hP.note ev hev h.1, hQ.note ev hev h.2⟩
  fresh := fun h hs => ⟨hP.fresh h.1 hs, hQ.fresh h.2 hs⟩
  book := fun s h hf => ⟨hP.book s h.1 hf, hQ.book s h.2 hf⟩
  freed := fun s h => ⟨hP.freed s h.1, hQ.freed s h.2⟩
  call := fun s c h => ⟨hP.call s c h.1, hQ.call s c h.2⟩

end Steady
end Nodescan
