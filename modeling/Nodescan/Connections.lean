import Nodescan.Renaming

/-!
# The connections of a scan on their own

All connections of a scan share the engine, its maps, its loops and its clock. Each of them also has
a life of its own: it is created, its callbacks run, its bytes are read and worked on, and it ends.
`ConnStep` is that life, with nothing of the other connections in it. The callbacks are handed the
machine of their own connection only and keep what they learn for each connection apart.

The functions of the engine that are called for one socket touch the connection of that socket only,
and what they do to it does not depend on the others.
-/

namespace Nodescan

open FaultM EngineM

variable {ω υ F : Type}

/-- What the callbacks do for one connection: they answer, make calls on its machine, and keep a
state for it. -/
structure Program (υ F : Type) where
  start : υ
  callback : (cb : Callback F) → υ → (cb.Answer × List (SmCall F)) × υ

/-- What belongs to a connection outside the engine: the state its callbacks keep, and the bytes
that were read from it. -/
structure ConnSession (υ : Type) where
  user : υ
  received : List UInt8
  deriving DecidableEq

/-- A world together with the sessions. -/
abbrev WithSessions (ω υ : Type) := ω × (Fd → ConnSession υ)

/-- The socket of the connection a callback is called for. -/
def Callback.owner : Callback F → Option Fd
  | .connected _ ct => some ct.s
  | .data _ ct _ => some ct.s
  | .python _ ct _ _ => some ct.s
  | .watchTimeout ct => some ct.s
  | _ => none

def Call.onEngine : Call F → Bool
  | .onSm _ _ => false
  | _ => true

/-- The bytes that a `read` of `n` bytes put into the buffer. -/
def ReadResult.got (r : ReadResult) (n : ℕ) : List UInt8 := if r.nread ≤ 0 then [] else r.bytes n

/-- The world `w` where the callbacks of a connection run the program `p` on its session. The other
callbacks are not handed a machine and make no call on one. -/
def World.sessions (w : World ω F) (p : Program υ F) : World (WithSessions ω υ) F where
  socket k q o := ((w.socket k q o.1).1, ((w.socket k q o.1).2, o.2))
  connect k s t o := ((w.connect k s t o.1).1,
    ((w.connect k s t o.1).2, Function.update o.2 s ⟨p.start, []⟩))
  epollWait k o := ((w.epollWait k o.1).1, ((w.epollWait k o.1).2, o.2))
  soError k s o := ((w.soError k s o.1).1, ((w.soError k s o.1).2, o.2))
  bytesAvail k s o := ((w.bytesAvail k s o.1).1, ((w.bytesAvail k s o.1).2, o.2))
  read s n o := ((w.read s n o.1).1, ((w.read s n o.1).2, Function.update o.2 s
    ⟨(o.2 s).user, (o.2 s).received ++ (w.read s n o.1).1.got n⟩))
  getpeername k s o := ((w.getpeername k s o.1).1, ((w.getpeername k s o.1).2, o.2))
  timestamp o := ((w.timestamp o.1).1, ((w.timestamp o.1).2, o.2))
  initTargets o := (w.initTargets o.1, o.2)
  nextTarget o := ((w.nextTarget o.1).1, ((w.nextTarget o.1).2, o.2))
  targetFinished t hsm o := ((w.targetFinished t hsm o.1).1, ((w.targetFinished t hsm o.1).2, o.2))
  initHostSm t hsm o := ((w.initHostSm t hsm o.1).1, ((w.initHostSm t hsm o.1).2, o.2))
  saveState o := (w.saveState o.1, o.2)
  callback cb o :=
    match cb.owner with
    | some s =>
      let r := p.callback cb (o.2 s).user
      ((r.1.1, r.1.2.map (.onSm s)),
        ((w.callback cb o.1).2, Function.update o.2 s ⟨r.2, (o.2 s).received⟩))
    | none =>
      let r := w.callback cb o.1
      ((r.1.1, r.1.2.filter Call.onEngine), (r.2, o.2))
  socket_fresh := fun h => w.socket_fresh h
  epollWait_registered := fun h => w.epollWait_registered h
  epollWait_nodup := fun h => w.epollWait_nodup h
  epollWait_length := fun h => w.epollWait_length h

/-- What the engine, the kernel and the callbacks hold for one descriptor. -/
@[ext]
structure Conn (υ F : Type) where
  target : Option Target
  machine : Option (Lvl4SM F)
  interest : Option Interest
  isOpen : Bool
  session : ConnSession υ

def Engine.connection (s : Fd) (e : Engine (WithSessions ω υ) F) : Conn υ F where
  target := e.socketsTargets[s]?
  machine := e.lvl4Sms[s]?
  interest := e.kernel.epoll[s]?
  isOpen := decide (s ∈ e.kernel.socks)
  session := e.world.2 s

namespace Program

/-- The data actions of one connection. -/
def actions (p : Program υ F) : Actions F υ where
  data f ct chunk u :=
    let r := p.callback (.data f ct chunk) u
    (⟨r.1.1.1, r.1.1.2, r.1.2⟩, r.2)
  python obj ct buf prevPos u :=
    let r := p.callback (.python obj ct buf prevPos) u
    (⟨r.1.1.1, r.1.1.2, r.1.2⟩, r.2)

/-- No callback calls `set_reconnect(true)`. -/
def NeverReconnects (p : Program υ F) : Prop :=
  ∀ cb u, SmCall.setReconnect true ∉ (p.callback cb u).1.2

end Program

/-- A machine after bookkeeping. -/
structure Booked (sm sm' : Lvl4SM F) : Prop where
  trigger : sm'.trigger = sm.trigger
  buf : sm'.buf = sm.buf
  funcConnect : sm'.funcConnect = sm.funcConnect
  reconnect : sm'.reconnect = sm.reconnect

namespace Conn

/-- A connection that has ended. What its callbacks have learnt stays. -/
def close (c : Conn υ F) : Conn υ F := ⟨none, none, none, false, c.session⟩

def withUser (c : Conn υ F) (u : υ) : Conn υ F := { c with session := ⟨u, c.session.received⟩ }

/-- The connection once its trigger or its on_connect action has run; `goesOn` is the answer. -/
def worked (c : Conn υ F) (goesOn : Bool) (sm : Lvl4SM F) (u : υ) : Conn υ F :=
  if goesOn then { c.withUser u with machine := some sm } else (c.withUser u).close

def receives (c : Conn υ F) (bytes : List UInt8) : Conn υ F :=
  { c with session := ⟨c.session.user, c.session.received ++ bytes⟩ }

end Conn

/-- The life of the connection on the descriptor `s`. -/
inductive ConnStep (p : Program υ F) (cfg : Config F) (s : Fd) : Conn υ F → Conn υ F → Prop
  | booked {c sm sm'} (hm : c.machine = some sm) (h : Booked sm sm') :
      ConnStep p cfg s c { c with machine := some sm' }
  | made {c} (hm : c.machine = none) (now : ℤ) :
      ConnStep p cfg s c { c with machine := some (.new now) }
  | created {c sm sm'} (ho : c.isOpen = false) (hi : c.interest = none) (t : Target)
      (hm : c.machine = some sm ∨ c.machine = none ∧ ∃ now, sm = .new now)
      (h : Booked { sm with funcConnect := cfg.callbackLvl4Connected } sm') :
      ConnStep p cfg s c ⟨some (c.target.getD t), some sm', none, true, ⟨p.start, []⟩⟩
  | watched {c} (ho : c.isOpen = true) :
      ConnStep p cfg s c { c with interest := some (c.interest.getD .epollout) }
  | connected {c sm t f} (hi : c.interest = some .epollout) (ht : c.target = some t)
      (hm : c.machine = some sm) (hf : sm.funcConnect = some f) :
      ConnStep p cfg s c ({ c with interest := some .epollin }.worked
        (p.callback (.connected f ⟨t, s⟩) c.session.user).1.1
        (sm.callAll (p.callback (.connected f ⟨t, s⟩) c.session.user).1.2)
        (p.callback (.connected f ⟨t, s⟩) c.session.user).2)
  | received {c sm sm' t v u} {fuel n : ℕ} {r : ReadResult} (hi : c.interest = some .epollin)
      (ht : c.target = some t) (hm : c.machine = some sm)
      (h : sm.processLvl4Data p.actions ⟨t, s⟩ fuel n r c.session.user = .ok (v, sm', u)) :
      ConnStep p cfg s c ((c.receives (r.got n)).worked v sm' u)
  | passed {c sm sm' t v u} {fuel : ℕ} (ht : c.target = some t) (hm : c.machine = some sm)
      (h : sm.processBuffer p.actions ⟨t, s⟩ fuel c.session.user = .ok (v, sm', u)) :
      ConnStep p cfg s c (c.worked v sm' u)
  | warned {c sm} (hm : c.machine = some sm) (peer : Target) :
      ConnStep p cfg s c
        { c.withUser (p.callback (.watchTimeout ⟨peer, s⟩) c.session.user).2 with
          machine := some (sm.callAll (p.callback (.watchTimeout ⟨peer, s⟩) c.session.user).1.2) }
  | closed (c) : ConnStep p cfg s c c.close

abbrev ConnSteps (p : Program υ F) (cfg : Config F) (s : Fd) : Conn υ F → Conn υ F → Prop :=
  Relation.ReflTransGen (ConnStep p cfg s)

variable {α β : Type} {w : World ω F} {p : Program υ F} {cfg : Config F} {s : Fd} {fuel : ℕ}
  {e e' : Engine (WithSessions ω υ) F}

/-- A socket that is watched is open. -/
theorem Engine.connection_open {i : Interest} (h : (e.connection s).interest = some i) :
    (e.connection s).isOpen = true := by
  have hmem : s ∈ e.kernel.epoll := TreeMaps.mem_of_getElem? h
  simpa [Engine.connection] using e.kernel.epoll_open s hmem

theorem Engine.connection_closed (h : s ∉ e.kernel.socks) :
    (e.connection s).isOpen = false ∧ (e.connection s).interest = none := by
  refine ⟨by simp [Engine.connection, h], ?_⟩
  exact Std.ExtTreeMap.getElem?_eq_none (fun hmem => h (e.kernel.epoll_open s hmem))

/-- `x` changes nothing of the connection of any other descriptor, and leaves that of `s` as `R`
says. -/
def Touches (s : Fd) (x : EngineM (WithSessions ω υ) F α)
    (e : Engine (WithSessions ω υ) F) (R : α → Conn υ F → Prop) : Prop :=
  Runs x e (fun v e' => (∀ a, a ≠ s → e'.connection a = e.connection a) ∧ R v (e'.connection s))
    (fun _ _ => True)

/-- `x` changes no connection. -/
def Untouched (x : EngineM (WithSessions ω υ) F α) (e : Engine (WithSessions ω υ) F) : Prop :=
  Runs x e (fun _ e' => ∀ a, e'.connection a = e.connection a) (fun _ _ => True)

namespace Untouched

theorem bind {x : EngineM (WithSessions ω υ) F α}
    {f : α → EngineM (WithSessions ω υ) F β} (hx : Untouched x e) (hf : ∀ v e', Untouched (f v) e') :
    Untouched (x >>= f) e := by
  refine Runs.bind hx (fun v e' h => ?_)
  exact (hf v e').mono (fun _ _ h' a => (h' a).trans (h a)) (fun _ _ h' => h')

theorem ret (v : α) : Untouched (pure v : EngineM (WithSessions ω υ) F α) e := fun _ => rfl

theorem read {f : Engine (WithSessions ω υ) F → EngineM (WithSessions ω υ) F α}
    (hf : Untouched (f e) e) : Untouched (get >>= f) e := hf

theorem update {f : Engine (WithSessions ω υ) F → Engine (WithSessions ω υ) F}
    (hf : ∀ a, (f e).connection a = e.connection a) :
    Untouched (modify f : EngineM (WithSessions ω υ) F Unit) e := hf

/-- The world is asked for what belongs to no session. -/
theorem ask {f : WithSessions ω υ → α × (WithSessions ω υ)} (hf : ∀ o, (f o).2.2 = o.2) :
    Untouched (EngineM.ask (F := F) f) e := by
  intro a
  change Conn.mk _ _ _ _ ((f e.world).2.2 a) = _
  rw [hf]
  rfl

theorem note (ev : Event F) : Untouched (EngineM.note (ω := WithSessions ω υ) ev) e :=
  fun _ => rfl

theorem hostSm (ip : UInt32) : Untouched (EngineM.hostSm (ω := WithSessions ω υ) (F := F) ip) e := by
  refine (hostSm_insertIfNew ip).mono (fun _ e' h a => ?_) (fun _ _ _ => trivial)
  rw [h]
  rfl

theorem hostFinished (t : Target) : Untouched (EngineM.hostFinished (w.sessions p) t) e := by
  unfold EngineM.hostFinished
  refine bind (hostSm _) (fun hsm e₁ => bind (ask (fun _ => rfl)) (fun r e₂ => ?_))
  refine bind (note _) (fun _ e₃ => bind (update (fun _ => rfl)) (fun _ e₄ => ?_))
  split_ifs
  · exact update (fun _ => rfl)
  · exact ret ()

theorem callAll {cs : List (Call F)} (h : ∀ c ∈ cs, c.onEngine = true) (a : Fd) :
    (e.callAll cs).connection a = e.connection a := by
  induction cs generalizing e with
  | nil => rfl
  | cons c cs ih =>
    refine (ih (e := e.call c) (fun d hd => h d (by simp [hd]))).trans ?_
    cases c with
    | onSm s d => exact absurd (h _ List.mem_cons_self) (by simp [Call.onEngine])
    | ensureAvailableSockets n =>
      simp only [Engine.call, Engine.ensureAvailableSockets]
      split_ifs
      · rfl
      · rfl
    | setOnAlive ip n =>
      simp only [Engine.call, Engine.setOnAlive]
      split_ifs
      · rfl
      · rfl

/-- A callback that is for no connection. -/
theorem callback {cb : Callback F} (h : cb.owner = none) :
    Untouched (EngineM.callback (w.sessions p) cb) e := by
  have hcb : (w.sessions p).callback cb e.world = (((w.callback cb e.world.1).1.1,
      (w.callback cb e.world.1).1.2.filter Call.onEngine),
      ((w.callback cb e.world.1).2, e.world.2)) := by
    simp only [World.sessions, h]
  intro a
  refine (callAll (fun c hc => ?_) a).trans ?_
  · change c ∈ ((w.sessions p).callback cb e.world).1.2 at hc
    rw [hcb] at hc
    exact (List.mem_filter.mp hc).2
  · change Conn.mk _ _ _ _ (((w.sessions p).callback cb e.world).2.2 a) = _
    rw [hcb]
    rfl

theorem callbackFinish (t : Target) (buf : List UInt8) (err : ℤ) :
    Untouched (EngineM.callbackFinish (w.sessions p) cfg t buf err) e := by
  unfold EngineM.callbackFinish
  split_ifs
  · exact callback rfl
  · exact ret ()

theorem timeoutOfTarget (s : Fd) : Untouched (EngineM.timeoutOfTarget (w.sessions p) cfg s) e := by
  unfold EngineM.timeoutOfTarget
  refine read (bind (ask (fun _ => rfl)) (fun peer e₁ => ?_))
  split_ifs
  · exact callback rfl
  · exact ret _

theorem displayStatus : Untouched (EngineM.displayStatus (w.sessions p) cfg) e := by
  have hshould : ∀ e, Untouched (shouldCallStatusDisplay (w.sessions p) cfg) e := by
    intro e
    unfold shouldCallStatusDisplay
    split_ifs
    · exact ret _
    · refine bind (ask (fun _ => rfl)) (fun now e₁ => read ?_)
      split_ifs
      · exact bind (update (fun _ => rfl)) (fun _ _ => ret _)
      · exact ret _
  unfold EngineM.displayStatus
  refine bind (hshould e) (fun b e₁ => ?_)
  split_ifs
  · exact read (callback rfl)
  · exact ret ()

end Untouched

/-- A callback of the connection of `s` runs the program on its session. -/
theorem sessions_callback {cb : Callback F} (h : cb.owner = some s) (o : WithSessions ω υ) :
    (w.sessions p).callback cb o = (((p.callback cb (o.2 s).user).1.1,
      (p.callback cb (o.2 s).user).1.2.map (.onSm s)), ((w.callback cb o.1).2,
        Function.update o.2 s ⟨(p.callback cb (o.2 s).user).2, (o.2 s).received⟩)) := by
  simp only [World.sessions, h]

namespace Touches

variable {R : α → Conn υ F → Prop}

theorem bind {R' : β → Conn υ F → Prop} {x : EngineM (WithSessions ω υ) F α}
    {f : α → EngineM (WithSessions ω υ) F β} (hx : Touches s x e R)
    (hf : ∀ v e', R v (e'.connection s) → Touches s (f v) e' R') : Touches s (x >>= f) e R' := by
  refine Runs.bind hx (fun v e' h => ?_)
  refine (hf v e' h.2).mono (fun _ _ h' => ⟨fun a ha => ?_, h'.2⟩) (fun _ _ h' => h')
  exact (h'.1 a ha).trans (h.1 a ha)

/-- What follows on something that changes no connection. -/
theorem after {x : EngineM (WithSessions ω υ) F β}
    {f : β → EngineM (WithSessions ω υ) F α} (hx : Untouched x e)
    (hf : ∀ v e', e'.connection s = e.connection s → Touches s (f v) e' R) :
    Touches s (x >>= f) e R := by
  refine Runs.bind hx (fun v e' h => ?_)
  refine (hf v e' (h s)).mono (fun _ _ h' => ⟨fun a ha => ?_, h'.2⟩) (fun _ _ h' => h')
  exact (h'.1 a ha).trans (h a)

theorem ret {v : α} (h : R v (e.connection s)) :
    Touches s (pure v : EngineM (WithSessions ω υ) F α) e R := ⟨fun _ _ => rfl, h⟩

theorem read {f : Engine (WithSessions ω υ) F → EngineM (WithSessions ω υ) F α}
    (hf : Touches s (f e) e R) : Touches s (get >>= f) e R := hf

theorem mono {x : EngineM (WithSessions ω υ) F α} {R' : α → Conn υ F → Prop}
    (hx : Touches s x e R) (h : ∀ v c, R v c → R' v c) : Touches s x e R' :=
  Runs.mono hx (fun v _ hv => ⟨hv.1, h v _ hv.2⟩) (fun _ _ h => h)

theorem modifySm {f : Lvl4SM F → Lvl4SM F} : Touches s
    (modify (·.modifySm s f) : EngineM (WithSessions ω υ) F Unit) e
    (fun _ c => c = { e.connection s with machine := (e.connection s).machine.map f }) := by
  refine ⟨fun a ha => ?_, ?_⟩
  · change Conn.mk _ (e.lvl4Sms.modify s f)[a]? _ _ _ = _
    rw [TreeMaps.getElem?_modify, if_neg ha]
    rfl
  · change Conn.mk _ (e.lvl4Sms.modify s f)[s]? _ _ _ = _
    rw [TreeMaps.getElem?_modify, if_pos rfl]
    rfl

theorem targetFromSocket : Touches s
    (EngineM.targetFromSocket (ω := WithSessions ω υ) (F := F) s) e
    (fun t c => c = e.connection s ∧ c.target = some t) := by
  refine (targetFromSocket_spec s).mono (fun t e' h => ?_) (fun _ _ _ => trivial)
  obtain ⟨rfl, ht⟩ := h
  exact ⟨fun _ _ => rfl, rfl, ht⟩

/-- A machine is made if there is none. -/
theorem lvl4Sm : Touches s (EngineM.lvl4Sm (w.sessions p) s) e
    (fun sm c => c.machine = some sm ∧ (c = e.connection s ∨
      (e.connection s).machine = none ∧ ∃ now, sm = .new now ∧
        c = { e.connection s with machine := some sm })) := by
  unfold EngineM.lvl4Sm
  apply read
  cases hs : e.lvl4Sms[s]? with
  | some sm => exact ⟨fun _ _ => rfl, hs, Or.inl rfl⟩
  | none =>
    dsimp only
    refine after (Untouched.ask (fun _ => rfl)) (fun now e₁ h₁ => ?_)
    have hnone : (e.connection s).machine = none := hs
    have hget : ∀ a, (e₁.lvl4Sms.insert s (Lvl4SM.new now))[a]? =
        if a = s then some (.new now) else e₁.lvl4Sms[a]? :=
      fun a => TreeMaps.getElem?_insert _ _ _ _
    refine ⟨fun a ha => ?_, ?_, Or.inr ⟨hnone, now, rfl, ?_⟩⟩
    · change Conn.mk _ (e₁.lvl4Sms.insert s (Lvl4SM.new now))[a]? _ _ _ = _
      rw [hget, if_neg ha]
      rfl
    · change (e₁.lvl4Sms.insert s (Lvl4SM.new now))[s]? = _
      rw [hget, if_pos rfl]
    · change Conn.mk _ (e₁.lvl4Sms.insert s (Lvl4SM.new now))[s]? _ _ _ = _
      rw [hget, if_pos rfl, ← h₁]
      rfl

theorem updateTs : Touches s (EngineM.updateTs (w.sessions p) s) e
    (fun _ c => ∃ now, c = { e.connection s with
      machine := (e.connection s).machine.map ({ · with ts := now }) }) := by
  refine after (Untouched.ask (fun _ => rfl)) (fun now e₁ h₁ => modifySm.mono (fun _ c hc => ?_))
  rw [h₁] at hc
  exact ⟨now, hc⟩

theorem callAll (cs : List (SmCall F)) :
    (∀ a, a ≠ s → (e.callAll (cs.map (.onSm s))).connection a = e.connection a) ∧
      (e.callAll (cs.map (.onSm s))).connection s = { e.connection s with
        machine := (e.connection s).machine.map (·.callAll cs) } := by
  induction cs generalizing e with
  | nil =>
    refine ⟨fun _ _ => rfl, ?_⟩
    change e.connection s = Conn.mk _ (e.lvl4Sms[s]?.map id) _ _ _
    rw [Option.map_id]
    rfl
  | cons c cs ih =>
    obtain ⟨hothers, hown⟩ := ih (e := e.modifySm s (·.call c))
    obtain ⟨hothers', hown'⟩ : _ ∧ _ := modifySm (s := s) (e := e) (f := (·.call c))
    refine ⟨fun a ha => (hothers a ha).trans (hothers' a ha), hown.trans ?_⟩
    change (e.modifySm s (·.call c)).connection s = _ at hown'
    rw [hown', Option.map_map]
    rfl

/-- A callback of the connection of `s`. -/
theorem callback {cb : Callback F} (h : cb.owner = some s) :
    Touches s (EngineM.callback (w.sessions p) cb) e (fun ans c =>
      ans = (p.callback cb (e.connection s).session.user).1.1 ∧
      c = { (e.connection s).withUser (p.callback cb (e.connection s).session.user).2 with
        machine := (e.connection s).machine.map
          (·.callAll (p.callback cb (e.connection s).session.user).1.2) }) := by
  have hcb := sessions_callback (w := w) (p := p) h e.world
  let called : Engine (WithSessions ω υ) F := { e with
    world := ((w.sessions p).callback cb e.world).2
    log := .returned cb (cb.goesOn ((w.sessions p).callback cb e.world).1.1)
      ((w.sessions p).callback cb e.world).1.2 :: .called cb :: e.log }
  have hrun : Runs (EngineM.callback (w.sessions p) cb) e (fun ans e' =>
      ans = ((w.sessions p).callback cb e.world).1.1 ∧
      e' = called.callAll ((w.sessions p).callback cb e.world).1.2) (fun _ _ => True) :=
    ⟨rfl, rfl⟩
  refine hrun.mono ?_ (fun _ _ _ => trivial)
  rintro _ _ ⟨rfl, rfl⟩
  have hsession : ∀ a, called.world.2 a = if a = s then
      ⟨(p.callback cb (e.world.2 s).user).2, (e.world.2 s).received⟩ else e.world.2 a := by
    intro a
    change ((w.sessions p).callback cb e.world).2.2 a = _
    rw [hcb]
    exact Function.update_apply _ _ _ _
  rw [hcb]
  obtain ⟨hothers, hown⟩ := callAll (s := s) (e := called) (p.callback cb (e.world.2 s).user).1.2
  refine ⟨fun a ha => (hothers a ha).trans ?_, rfl, hown.trans ?_⟩
  · change Conn.mk _ _ _ _ (called.world.2 a) = _
    rw [hsession, if_neg ha]
    rfl
  · change Conn.mk _ _ _ _ (called.world.2 s) = _
    rw [hsession, if_pos rfl]
    rfl

theorem freeSocket : Touches s
    (modify (·.freeSocket s) : EngineM (WithSessions ω υ) F Unit) e
    (fun _ c => c = (e.connection s).close) := by
  have htarget : ∀ a, (e.freeSocket s).socketsTargets[a]? =
      if a = s then none else e.socketsTargets[a]? := fun a => TreeMaps.getElem?_erase _ _ _
  have hmachine : ∀ a, (e.freeSocket s).lvl4Sms[a]? = if a = s then none else e.lvl4Sms[a]? :=
    fun a => TreeMaps.getElem?_erase _ _ _
  have hepoll : ∀ a, (e.freeSocket s).kernel.epoll[a]? =
      if a = s then none else e.kernel.epoll[a]? := by
    intro a
    change (((e.kernel.epoll.erase s).erase s).erase s)[a]? = _
    rw [TreeMaps.getElem?_erase, TreeMaps.getElem?_erase, TreeMaps.getElem?_erase]
    split_ifs <;> rfl
  have hsocks : ∀ a, a ∈ (e.freeSocket s).kernel.socks ↔ a ≠ s ∧ a ∈ e.kernel.socks :=
    fun a => TreeMaps.mem_erase _ _ _
  refine ⟨fun a ha => ?_, ?_⟩
  · refine Conn.ext ?_ ?_ ?_ ?_ rfl
    · exact (htarget a).trans (if_neg ha)
    · exact (hmachine a).trans (if_neg ha)
    · exact (hepoll a).trans (if_neg ha)
    · exact decide_eq_decide.mpr ((hsocks a).trans (and_iff_right ha))
  · refine Conn.ext ?_ ?_ ?_ ?_ rfl
    · exact (htarget s).trans (if_pos rfl)
    · exact (hmachine s).trans (if_pos rfl)
    · exact (hepoll s).trans (if_pos rfl)
    · exact decide_eq_false (fun h => ((hsocks s).mp h).1 rfl)

theorem socketFinished (err : ℤ) : Touches s (EngineM.socketFinished (w.sessions p) cfg s err) e
    (fun _ c => c = (e.connection s).close) := by
  unfold EngineM.socketFinished
  refine after (Untouched.update (fun _ => rfl)) (fun _ e₁ h₁ => ?_)
  refine bind targetFromSocket (fun t e₂ h₂ => ?_)
  refine bind lvl4Sm (fun sm e₃ h₃ => ?_)
  have hsession : (e₃.connection s).session = (e.connection s).session := by
    rw [← h₁, ← h₂.1]
    rcases h₃.2 with hc | ⟨-, now, -, hc⟩
    · rw [hc]
    · rw [hc]
  refine after (Untouched.callbackFinish t sm.buf err) (fun _ e₄ h₄ => ?_)
  refine bind modifySm (fun _ e₅ h₅ => ?_)
  refine after (Untouched.hostFinished t) (fun _ e₆ h₆ => freeSocket.mono (fun _ c hc => ?_))
  rw [hc, h₆, h₅, h₄, Conn.close, hsession]
  rfl

/-- The kernel opens `s`, or connects it, and the books are kept. -/
theorem opens {f : Engine (WithSessions ω υ) F → Engine (WithSessions ω υ) F}
    {peer : Option Target} (hsocks : (f e).kernel.socks = e.kernel.socks.insert s peer)
    (hepoll : (f e).kernel.epoll = e.kernel.epoll)
    (htargets : (f e).socketsTargets = e.socketsTargets) (hsms : (f e).lvl4Sms = e.lvl4Sms)
    (hworld : (f e).world = e.world) :
    Touches s (modify f : EngineM (WithSessions ω υ) F Unit) e
      (fun _ c => c = { e.connection s with isOpen := true }) := by
  have hconn : ∀ a, (f e).connection a =
      { e.connection a with isOpen := decide (a = s ∨ a ∈ e.kernel.socks) } := by
    intro a
    simp only [Engine.connection, hsocks, hepoll, htargets, hsms, hworld, TreeMaps.mem_insert]
  refine ⟨fun a ha => (hconn a).trans ?_, (hconn s).trans ?_⟩
  · simp [Engine.connection, ha]
  · simp

theorem connects (k : Kernel) (t : Target) : Touches s
    (EngineM.ask ((w.sessions p).connect k s t)) e
    (fun _ c => c = { e.connection s with session := ⟨p.start, []⟩ }) := by
  refine ⟨fun a ha => ?_, ?_⟩
  · change Conn.mk _ _ _ _ (Function.update e.world.2 s _ a) = _
    rw [Function.update_of_ne ha]
    rfl
  · change Conn.mk _ _ _ _ (Function.update e.world.2 s _ s) = _
    rw [Function.update_self]
    rfl

theorem newLvl4Sm : Touches s (EngineM.newLvl4Sm (w.sessions p) s) e (fun _ c => ∃ now,
    c = { e.connection s with machine := some ((e.connection s).machine.getD (.new now)) }) := by
  refine Touches.after (Untouched.ask (fun _ => rfl)) (fun now e₁ h₁ => ⟨fun a ha => ?_, now, ?_⟩)
  · change Conn.mk _ (e₁.lvl4Sms.insertIfNew s (Lvl4SM.new now))[a]? _ _ _ = _
    rw [TreeMaps.getElem?_insertIfNew, if_neg ha]
    rfl
  · change Conn.mk _ (e₁.lvl4Sms.insertIfNew s (Lvl4SM.new now))[s]? _ _ _ = _
    rw [TreeMaps.getElem?_insertIfNew, if_pos rfl, ← h₁]
    rfl

theorem insertTarget (n : ℕ) (t : Target) : Touches (n : Fd)
    (modify (·.insertTarget n t) : EngineM (WithSessions ω υ) F Unit) e
    (fun _ c => c = { e.connection n with target := some ((e.connection n).target.getD t) }) := by
  refine ⟨fun a ha => ?_, ?_⟩
  · change Conn.mk (e.socketsTargets.insertIfNew (n : Fd) t)[a]? _ _ _ _ = _
    rw [TreeMaps.getElem?_insertIfNew, if_neg ha]
    rfl
  · change Conn.mk (e.socketsTargets.insertIfNew (n : Fd) t)[(n : Fd)]? _ _ _ _ = _
    rw [TreeMaps.getElem?_insertIfNew, if_pos rfl]
    rfl

/-- The interest of an open socket is changed to `EPOLLIN`. -/
theorem watchInput (ho : (e.connection s).isOpen = true) : Touches s
    (modify (fun e => (e.removeConnectingSocket s).addConnectedSocket s) :
      EngineM (WithSessions ω υ) F Unit) e
    (fun _ c => c = { e.connection s with interest := some .epollin }) := by
  have hopen : s ∈ (e.kernel.epollDel s).socks := by simpa [Engine.connection] using ho
  refine ⟨fun a ha => ?_, ?_⟩
  · refine Conn.ext rfl rfl ?_ ?_ rfl
    · exact (Kernel.epollAdd_of_ne _ _ ha).trans (Kernel.epollDel_of_ne _ ha)
    · change decide (a ∈ ((e.kernel.epollDel s).epollAdd s .epollin).socks) = _
      rw [Kernel.epollAdd_socks]
      rfl
  · refine Conn.ext rfl rfl ?_ ?_ rfl
    · refine (Kernel.epollAdd_self _ _ hopen).trans ?_
      change some ((e.kernel.epoll.erase s)[s]?.getD Interest.epollin) = _
      rw [TreeMaps.getElem?_erase, if_pos rfl]
      rfl
    · change decide (s ∈ ((e.kernel.epollDel s).epollAdd s .epollin).socks) = _
      rw [Kernel.epollAdd_socks]
      rfl

theorem addConnectingSocket : Touches s
    (modify (·.addConnectingSocket s) : EngineM (WithSessions ω υ) F Unit) e
    (fun _ c => c = e.connection s ∨ (e.connection s).isOpen = true ∧
      c = { e.connection s with interest := some ((e.connection s).interest.getD .epollout) }) := by
  refine ⟨fun a ha => ?_, ?_⟩
  · refine Conn.ext rfl rfl (Kernel.epollAdd_of_ne _ _ ha) ?_ rfl
    change decide (a ∈ (e.kernel.epollAdd s .epollout).socks) = _
    rw [Kernel.epollAdd_socks]
    rfl
  · by_cases hopen : s ∈ e.kernel.socks
    · refine Or.inr ⟨by simpa [Engine.connection] using hopen, ?_⟩
      refine Conn.ext rfl rfl (Kernel.epollAdd_self _ _ hopen) ?_ rfl
      change decide (s ∈ (e.kernel.epollAdd s .epollout).socks) = _
      rw [Kernel.epollAdd_socks]
      rfl
    · refine Or.inl ?_
      change Conn.mk _ _ (e.kernel.epollAdd s .epollout).epoll[s]?
        (decide (s ∈ (e.kernel.epollAdd s .epollout).socks)) _ = _
      rw [Kernel.epollAdd, dif_neg hopen]
      rfl

theorem receives (n : ℕ) : Touches s (EngineM.ask ((w.sessions p).read s n)) e
    (fun r c => c = (e.connection s).receives (r.got n)) := by
  refine ⟨fun a ha => ?_, ?_⟩
  · change Conn.mk _ _ _ _ (Function.update e.world.2 s _ a) = _
    rw [Function.update_of_ne ha]
    rfl
  · change Conn.mk _ _ _ _ (Function.update e.world.2 s _ s) = _
    rw [Function.update_self]
    rfl

end Touches

/-! The data of a connection. -/

/-- From `e₀` to `e` nothing but the state that the callbacks keep for `s` has changed: it is
`u`. -/
def OnlyUser (s : Fd) (e₀ e : Engine (WithSessions ω υ) F) (u : υ) : Prop :=
  (∀ a, a ≠ s → e.connection a = e₀.connection a) ∧
    e.connection s = (e₀.connection s).withUser u

theorem ownCalls_onSm (s : Fd) (cs : List (SmCall F)) : ownCalls s (cs.map (.onSm s)) = cs := by
  simp [ownCalls, List.filterMap_map]

theorem otherCalls_onSm (s : Fd) (cs : List (SmCall F)) : otherCalls s (cs.map (.onSm s)) = [] := by
  simp [otherCalls]

/-- The callback of a trigger runs the program on the session of its connection. -/
theorem OnlyUser.called {e₀ : Engine (WithSessions ω υ) F} {u : υ} (h : OnlyUser s e₀ e u)
    {cb : Callback F} (hcb : cb.owner = some s) :
    (EngineM.called (w.sessions p) s cb e).1 = (p.callback cb u).1 ∧
      OnlyUser s e₀ (EngineM.called (w.sessions p) s cb e).2 (p.callback cb u).2 := by
  have hu : (e.world.2 s).user = u := congrArg (fun c => c.session.user) h.2
  have hr : (e.world.2 s).received = (e₀.world.2 s).received :=
    congrArg (fun c => c.session.received) h.2
  have hcall := sessions_callback (w := w) (p := p) hcb e.world
  rw [hu] at hcall
  have hother : otherCalls s ((w.sessions p).callback cb e.world).1.2 = [] := by
    rw [hcall, otherCalls_onSm]
  have hconn : ∀ a, (EngineM.called (w.sessions p) s cb e).2.connection a = { e.connection a with
      session := ((w.sessions p).callback cb e.world).2.2 a } := by
    intro a
    simp only [EngineM.called, hother]
    rfl
  refine ⟨?_, fun a ha => ?_, ?_⟩
  · change (((w.sessions p).callback cb e.world).1.1,
      ownCalls s ((w.sessions p).callback cb e.world).1.2) = _
    rw [hcall, ownCalls_onSm]
  · rw [hconn, hcall]
    dsimp only
    rw [Function.update_of_ne ha]
    exact h.1 a ha
  · rw [hconn, hcall]
    dsimp only
    rw [Function.update_self, h.2, hr]
    rfl

theorem OnlyUser.renamed (s : Fd) (t : Target) (e₀ : Engine (WithSessions ω υ) F) :
    (EngineM.actions (w.sessions p)).Renamed (Equiv.refl Fd) (OnlyUser s e₀) ⟨t, s⟩ p.actions where
  data := by
    intro e u h f chunk
    have hcb : (Callback.data f ⟨t, s⟩ chunk).owner = some s := rfl
    obtain ⟨hans, hstate⟩ := h.called (w := w) (p := p) hcb
    exact ⟨congrArg (fun r => (⟨r.1.1, r.1.2, r.2⟩ : DataAnswer F)) hans.symm, hstate⟩
  python := by
    intro e u h obj buf prevPos
    have hcb : (Callback.python obj ⟨t, s⟩ buf prevPos).owner = some s := rfl
    obtain ⟨hans, hstate⟩ := h.called (w := w) (p := p) hcb
    exact ⟨congrArg (fun r => (⟨r.1.1, r.1.2, r.2⟩ : PythonAnswer F)) hans.symm, hstate⟩

/-- The machine of `s` is worked on as on its own. -/
theorem Touches.onLvl4Sm
    {f : Lvl4SM F → Engine (WithSessions ω υ) F →
      Except Fault (Bool × Lvl4SM F × Engine (WithSessions ω υ) F)}
    {g : Lvl4SM F → υ → Except Fault (Bool × Lvl4SM F × υ)}
    (hfg : ∀ sm, Lvl4SM.Matched (Equiv.refl Fd) (OnlyUser s e) (f sm e)
      (g sm (e.connection s).session.user)) :
    Touches s (EngineM.onLvl4Sm s f) e (fun v c => ∃ sm sm' u,
      (e.connection s).machine = some sm ∧
      g sm (e.connection s).session.user = .ok (v, sm', u) ∧
      c = { (e.connection s).withUser u with machine := some sm' }) := by
  unfold EngineM.onLvl4Sm
  apply read
  cases hs : e.lvl4Sms[s]? with
  | none => exact trivial
  | some sm =>
    have hmatch := hfg sm
    cases hr : f sm e with
    | error fault =>
      simp only [hr]
      exact trivial
    | ok r =>
      obtain ⟨v, sm', e₁⟩ := r
      simp only [hr]
      rw [hr] at hmatch
      cases hg : g sm (e.connection s).session.user with
      | error fault => simp [hg, Lvl4SM.Matched] at hmatch
      | ok r' =>
        obtain ⟨v', sm'', u⟩ := r'
        rw [hg] at hmatch
        obtain ⟨rfl, rfl, hothers, hown⟩ := hmatch
        refine ⟨fun a ha => ?_, sm, sm'', u, hs, hg, ?_⟩
        · change Conn.mk _ (e₁.lvl4Sms.insert s sm'')[a]? _ _ _ = _
          rw [TreeMaps.getElem?_insert, if_neg ha]
          exact hothers a ha
        · change Conn.mk _ (e₁.lvl4Sms.insert s sm'')[s]? _ _ _ = _
          rw [TreeMaps.getElem?_insert, if_pos rfl, ← hown]
          rfl

end Nodescan
