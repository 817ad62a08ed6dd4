import Nodescan.SocketRegistry

/-!
# The target of a timeout decision

The dirty pass asks two callbacks whether a socket has timed out, and names the socket's target to
them. It does not take the target from the registry but from `Target::from_socket`, which asks the
kernel for the peer and does not look whether it got one: while a socket has no peer, what it
returns is the address that happened to be in the uninitialised `sockaddr_in`.
-/

namespace Nodescan

open FaultM EngineM

variable {ω F α : Type}

/-- The system calls of `Target::from_socket`: the address `getpeername` writes, if it succeeds;
what stands in the `sockaddr_in` otherwise; and the protocol of the socket's type. -/
structure World.Peers (w : World ω F) where
  peername : Kernel → Fd → ω → Option (UInt32 × UInt16)
  uninitialised : Kernel → Fd → ω → UInt32 × UInt16
  protocol : Kernel → Fd → ω → Protocol
  fromSocket_eq : ∀ k s o, (w.getpeername k s o).1 =
    ⟨((peername k s o).getD (uninitialised k s o)).1,
      ⟨((peername k s o).getD (uninitialised k s o)).2, protocol k s o⟩⟩
  peername_eq : ∀ {k s o t a}, k.socks[s]? = some (some t) → peername k s o = some a →
    a = (t.ipv4, t.port.value)
  protocol_eq : ∀ {k s o t}, k.socks[s]? = some (some t) → protocol k s o = t.port.protocol

def Event.timeoutTarget? : Event F → Option Target
  | .called (.timeoutOfTarget t) => some t
  | .called (.watchTimeout ct) => some ct.target
  | _ => none

/-- The targets the timeout callbacks were called with, the latest first. -/
def timeoutTargets (log : List (Event F)) : List Target := log.filterMap Event.timeoutTarget?

/-- The run of `x` from `e` calls a timeout callback with the target `t`. -/
def Hands (x : EngineM ω F α) (e : Engine ω F) (t : Target) : Prop :=
  ∃ ts, timeoutTargets (x.runFrom e).2.log = ts ++ timeoutTargets e.log ∧ t ∈ ts

/-- `has_timed_out` on `s` from `e` calls `Target::from_socket(s)` for a callback in this state. -/
inductive Asks (w : World ω F) (cfg : Config F) (ts : ℤ) (s : Fd) (sm : Lvl4SM F)
    (e : Engine ω F) : Engine ω F → Prop
  | timeout : cfg.hasTimeoutTarget = true → Asks w cfg ts s sm e e
  | watch {n : ℕ} {e₁ : Engine ω F} : (timeoutOfTarget w cfg s).runFrom e = (.ok n, e₁) →
      ts - sm.ts < n → cfg.hasWatchTimeout = true → cfg.watchTimeout ≠ 0 →
      cfg.watchTimeout ≤ ts - sm.watchTs → Asks w cfg ts s sm e e₁

/-- In this state, the pass from `e` calls `Target::from_socket(s)` for a callback. -/
def Inquires (w : World ω F) (cfg : Config F) (e : Engine ω F) (s : Fd) (e₂ : Engine ω F) : Prop :=
  ∃ ts sm e₁, Visits w cfg e ts s sm e₁ ∧ Asks w cfg ts s sm e₁ e₂

/-- In the pass from `e`, the timeout callbacks get the target that is registered for the socket,
for every open socket that `connect` was called on. -/
def TimeoutTargetsRight (w : World ω F) (cfg : Config F) (e : Engine ω F) : Prop :=
  ∀ ts s sm e₁, Visits w cfg e ts s sm e₁ → (e.kernel.socks[s]?.join).isSome →
    ∀ t, Hands (hasTimedout w cfg ts s sm) e₁ t → e.socketsTargets[s]? = some t

/-- `Target::from_socket(s)` returns what is registered: the socket has a peer, and its entry is of
its last `connect`; or it has none, and by chance the uninitialised address is that of the entry. -/
def World.Peers.Tells {w : World ω F} (peers : w.Peers) (s : Fd) (e : Engine ω F) : Prop :=
  ∃ t t', e.socketsTargets[s]? = some t ∧ e.kernel.socks[s]? = some (some t') ∧
    if (peers.peername e.kernel s e.world).isSome then t = t'
    else peers.uninitialised e.kernel s e.world = (t.ipv4, t.port.value) ∧
      t.port.protocol = t'.port.protocol

/-- The socket has a peer, or by chance the uninitialised address is that of its entry. -/
def World.Peers.Knows {w : World ω F} (peers : w.Peers) (s : Fd) (e : Engine ω F) : Prop :=
  (peers.peername e.kernel s e.world).isSome = true ∨
    ∃ t, e.socketsTargets[s]? = some t ∧
      peers.uninitialised e.kernel s e.world = (t.ipv4, t.port.value)

variable {w : World ω F} {cfg : Config F} {e e₁ e₂ : Engine ω F} {ts : ℤ} {s : Fd}
  {sm : Lvl4SM F} {t : Target}

theorem timeoutTargets_callAll (cs : List (Call F)) (e : Engine ω F) :
    timeoutTargets (e.callAll cs).log = timeoutTargets e.log := by
  induction cs generalizing e with
  | nil => rfl
  | cons c cs ih =>
    refine (ih (e.call c)).trans ?_
    cases c with
    | onSm a d => rfl
    | ensureAvailableSockets n =>
      simp only [Engine.call, Engine.ensureAvailableSockets]
      split_ifs <;> rfl
    | setOnAlive ip n =>
      simp only [Engine.call, Engine.setOnAlive]
      split_ifs <;> rfl

theorem timeoutTargets_callback (cb : Callback F) (e : Engine ω F) :
    timeoutTargets ((callback w cb).runFrom e).2.log =
      (Event.called cb).timeoutTarget?.toList ++ timeoutTargets e.log := by
  refine (timeoutTargets_callAll _ _).trans ?_
  simp only [timeoutTargets, List.filterMap_cons, Event.timeoutTarget?]
  cases cb <;> rfl

theorem timeoutOfTarget_returns (w : World ω F) (cfg : Config F) (s : Fd) (e : Engine ω F) :
    ∃ n e₁, (timeoutOfTarget w cfg s).runFrom e = (.ok n, e₁) := by
  rcases hr : (timeoutOfTarget w cfg s).runFrom e with ⟨f | n, e₁⟩
  · exact ((timeoutOfTarget_quiet (w := w) s).of_error hr).elim
  · exact ⟨n, e₁, rfl⟩

variable (w cfg) in
theorem timeoutTargets_timeoutOfTarget (s : Fd) (e : Engine ω F) :
    timeoutTargets ((timeoutOfTarget w cfg s).runFrom e).2.log =
      (if cfg.hasTimeoutTarget then [(w.getpeername e.kernel s e.world).1] else []) ++
        timeoutTargets e.log := by
  unfold timeoutOfTarget
  simp only [runFrom_bind, runFrom_get, ask, runFrom_modifyGet]
  split_ifs
  · exact timeoutTargets_callback _ _
  · rfl

variable (w cfg) in
theorem timeoutTargets_hasWatchTimedout (ts : ℤ) (s : Fd) (watchTs : ℤ) (e : Engine ω F) :
    timeoutTargets ((hasWatchTimedout w cfg ts s watchTs).runFrom e).2.log =
      (if cfg.hasWatchTimeout ∧ cfg.watchTimeout ≠ 0 ∧ cfg.watchTimeout ≤ ts - watchTs then
        [(w.getpeername e.kernel s e.world).1] else []) ++ timeoutTargets e.log := by
  unfold hasWatchTimedout
  by_cases hoff : (!cfg.hasWatchTimeout || cfg.watchTimeout = 0) = true
  · have hnot : ¬ (cfg.hasWatchTimeout = true ∧ cfg.watchTimeout ≠ 0 ∧
        (cfg.watchTimeout : ℤ) ≤ ts - watchTs) := by
      simp only [Bool.or_eq_true, Bool.not_eq_true', decide_eq_true_eq] at hoff
      rcases hoff with h | h <;> simp [h]
    rw [if_pos hoff, if_neg hnot]
    rfl
  · have hon : cfg.hasWatchTimeout = true ∧ cfg.watchTimeout ≠ 0 := by simpa using hoff
    rw [if_neg hoff]
    by_cases hdue : (cfg.watchTimeout : ℤ) ≤ ts - watchTs
    · rw [if_pos hdue, if_pos ⟨hon.1, hon.2, hdue⟩]
      simp only [runFrom_bind, runFrom_get, ask, runFrom_modifyGet]
      let e₁ : Engine ω F := { e with world := (w.getpeername e.kernel s e.world).2 }
      let cb : Callback F := .watchTimeout ⟨(w.getpeername e.kernel s e.world).1, s⟩
      have hcall := timeoutTargets_callback (w := w) cb e₁
      rcases hr : (callback w cb).runFrom e₁ with ⟨f | goOn, e₂⟩
      · exact ((QuietRun.callback (w := w) cb rfl).of_error hr).elim
      · rw [hr] at hcall
        dsimp only
        split_ifs
        · exact hcall
        · exact hcall
    · rw [if_neg hdue, if_neg (fun h => hdue h.2.2)]
      rfl

theorem mem_handed {l l' : List Target} :
    (∃ ts, l ++ l' = ts ++ l' ∧ t ∈ ts) ↔ t ∈ l := by
  constructor
  · rintro ⟨ts, hts, ht⟩
    rwa [List.append_cancel_right hts]
  · exact fun ht => ⟨l, rfl, ht⟩

theorem hands_iff : Hands (hasTimedout w cfg ts s sm) e t ↔
    ∃ e₁, Asks w cfg ts s sm e e₁ ∧ (w.getpeername e₁.kernel s e₁.world).1 = t := by
  obtain ⟨n, e₁, hr⟩ := timeoutOfTarget_returns w cfg s e
  have hfirst := timeoutTargets_timeoutOfTarget w cfg s e
  have hsecond := timeoutTargets_hasWatchTimedout w cfg ts s sm.watchTs e₁
  rw [hr] at hfirst
  have hrun : (hasTimedout w cfg ts s sm).runFrom e =
      if ts - sm.ts ≥ n then (.ok true, e₁)
      else (hasWatchTimedout w cfg ts s sm.watchTs).runFrom e₁ := by
    simp only [hasTimedout, runFrom_bind, hr]
    split_ifs <;> rfl
  rw [Hands, hrun]
  by_cases hout : ts - sm.ts ≥ n
  · rw [if_pos hout, hfirst, mem_handed]
    constructor
    · intro ht
      split_ifs at ht with htimeout
      · exact ⟨e, .timeout htimeout, (List.mem_singleton.mp ht).symm⟩
      · simp at ht
    · rintro ⟨e₂, hasks, rfl⟩
      cases hasks with
      | timeout htimeout => simp [htimeout]
      | watch hr' hlt =>
        have hn := congrArg Prod.fst (hr.symm.trans hr')
        simp only [Except.ok.injEq] at hn
        omega
  · rw [if_neg hout, hsecond, hfirst, ← List.append_assoc, mem_handed, List.mem_append]
    constructor
    · rintro (ht | ht)
      · split_ifs at ht with hwatch
        · exact ⟨e₁, .watch hr (by omega) hwatch.1 hwatch.2.1 hwatch.2.2,
            (List.mem_singleton.mp ht).symm⟩
        · simp at ht
      · split_ifs at ht with htimeout
        · exact ⟨e, .timeout htimeout, (List.mem_singleton.mp ht).symm⟩
        · simp at ht
    · rintro ⟨e₂, hasks, rfl⟩
      cases hasks with
      | timeout htimeout => exact Or.inr (by simp [htimeout])
      | watch hr' _ hon hne hdue =>
        have he := congrArg Prod.snd (hr.symm.trans hr')
        simp only at he
        subst he
        exact Or.inl (by simp [hon, hne, hdue])

/-- What the first loop does with a valid machine: the check is made in the state that `Visits`
names. -/
theorem inspect_visited (hs : e.lvl4Sms[s]? = some sm) (hv : sm.valid = true) (l : WorkLists) :
    (inspect w cfg ts s l).runFrom e = (do
      let out ← hasTimedout w cfg ts s sm
      pure (l.add s sm.shouldProcessBuffer.1 out) : EngineM ω F WorkLists).runFrom
        (e.modifySm s fun sm => sm.shouldProcessBuffer.2) := by
  simp only [inspect, runFrom_bind, runFrom_get, hs, hv, if_true, runFrom_modify]

theorem Inquires.quiet (h : Inquires w cfg e s e₂) : Quiet w e e₂ := by
  obtain ⟨ts, sm, e₁, ⟨_, before, after, l, e₀, _, hr, _, _, rfl⟩, hasks⟩ := h
  have hstart : Quiet w e { e with world := (w.timestamp e.world).2 } :=
    Quiet.of_eq rfl rfl rfl rfl rfl rfl rfl
  have hloop := ((inspectAll_spec (w := w) ts before ⟨[], [], 0⟩).of_ok hr).1
  have hflag : Quiet w e₀ (e₀.modifySm s fun sm => sm.shouldProcessBuffer.2) :=
    Quiet.modifySm s (fun _ => rfl) (fun _ _ h => h)
  have hvisit := (hstart.trans hloop).trans hflag
  cases hasks with
  | timeout _ => exact hvisit
  | watch hr' => exact hvisit.trans ((timeoutOfTarget_quiet (w := w) s).of_ok hr')

theorem Inquires.valid (h : Inquires w cfg e s e₂) : e.validAt s = some true := by
  obtain ⟨ts, sm, e₁, ⟨_, before, after, l, e₀, _, hr, hs, hv, _⟩, _⟩ := h
  have hloop := ((inspectAll_spec (w := w) ts before ⟨[], [], 0⟩).of_ok hr).1
  have hvalid : e₀.validAt s = some true := by simp [Engine.validAt, hs, hv]
  rwa [hloop.valid] at hvalid

/-- The check of the socket hands out right targets iff each `Target::from_socket` is right. -/
theorem timeoutTargetsRight_iff : TimeoutTargetsRight w cfg e ↔
    ∀ s e₂, (e.kernel.socks[s]?.join).isSome → Inquires w cfg e s e₂ →
      e₂.socketsTargets[s]? = some (w.getpeername e₂.kernel s e₂.world).1 := by
  constructor
  · intro h s e₂ hlive hinq
    obtain ⟨ts, sm, e₁, hvisit, hasks⟩ := hinq
    have hright := h ts s sm e₁ hvisit hlive _ (hands_iff.mpr ⟨e₂, hasks, rfl⟩)
    rwa [← (Inquires.quiet ⟨ts, sm, e₁, hvisit, hasks⟩).targets] at hright
  · intro h ts s sm e₁ hvisit hlive t hands
    obtain ⟨e₂, hasks, rfl⟩ := hands_iff.mp hands
    have hinq : Inquires w cfg e s e₂ := ⟨ts, sm, e₁, hvisit, hasks⟩
    rw [← hinq.quiet.targets]
    exact h s e₂ hlive hinq

theorem World.Peers.tells_iff (peers : w.Peers) {t' : Target}
    (hlive : e.kernel.socks[s]? = some (some t')) :
    peers.Tells s e ↔ e.socketsTargets[s]? = some (w.getpeername e.kernel s e.world).1 := by
  rw [peers.fromSocket_eq, peers.protocol_eq hlive]
  cases hpeer : peers.peername e.kernel s e.world with
  | some a =>
    rw [peers.peername_eq hlive hpeer]
    simp [Tells, hpeer, hlive]
  | none =>
    rw [Tells, hpeer]
    constructor
    · rintro ⟨t, t'', ht, hk, hchance⟩
      rw [hlive, Option.some_inj, Option.some_inj] at hk
      simp only [Option.isSome_none, Bool.false_eq_true, if_false] at hchance
      rw [ht, Option.getD_none, hchance.1, hk, ← hchance.2]
    · intro ht
      exact ⟨_, t', ht, hlive, by simp⟩

theorem World.Peers.tells_iff_knows (peers : w.Peers) (ht : e.socketsTargets[s]? = some t)
    (hk : e.kernel.socks[s]? = some (some t)) : peers.Tells s e ↔ peers.Knows s e := by
  unfold Tells Knows
  rw [ht, hk]
  cases hpeer : peers.peername e.kernel s e.world with
  | some a => simp
  | none => simp

theorem Registry.entry (hr : Registry e) (hs : s ∈ e.lvl4Sms) :
    ∃ t, e.socketsTargets[s]? = some t ∧ e.kernel.socks[s]? = some (some t) := by
  have hmem : s ∈ e.socketsTargets := (hr.targets s).mpr ((hr.machines s).mp hs)
  obtain ⟨t, ht⟩ := Option.isSome_iff_exists.mp (Std.ExtTreeMap.mem_iff_isSome_getElem?.mp hmem)
  exact ⟨t, ht, hr.connected s t ht⟩

/-- In every reachable state, the targets are right iff `Target::from_socket` tells each time it is
called for a callback; and as long as every reconnection got its descriptor back, this means that
the sockets that are asked for have a peer. -/
theorem timeout_targets_right_iff (w : World ω F) (cfg : Config F) (peers : w.Peers)
    (e : Engine ω F) (h : Reachable w cfg e) :
    (TimeoutTargetsRight w cfg e ↔ ∀ s e₂, (e.kernel.socks[s]?.join).isSome →
        Inquires w cfg e s e₂ → peers.Tells s e₂) ∧
      (w.SocketsSucceed → SameFds e →
        (TimeoutTargetsRight w cfg e ↔ ∀ s e₂, Inquires w cfg e s e₂ → peers.Knows s e₂)) := by
  have htells : TimeoutTargetsRight w cfg e ↔ ∀ s e₂, (e.kernel.socks[s]?.join).isSome →
      Inquires w cfg e s e₂ → peers.Tells s e₂ := by
    rw [timeoutTargetsRight_iff]
    refine forall_congr' fun s => forall_congr' fun e₂ => forall_congr' fun hlive =>
      forall_congr' fun hinq => ?_
    obtain ⟨t', ht'⟩ := Option.isSome_iff_exists.mp hlive
    have hsock : e₂.kernel.socks[s]? = some (some t') := by
      rw [hinq.quiet.socks]
      exact Option.join_eq_some_iff.mp ht'
    exact (peers.tells_iff hsock).symm
  refine ⟨htells, fun hw hsame => htells.trans ?_⟩
  have hreg := reachable_registry hw h hsame
  -- every machine that is visited is that of an open socket, with the entry of its `connect`
  have hentry : ∀ s e₂, Inquires w cfg e s e₂ → (e.kernel.socks[s]?.join).isSome = true ∧
      (peers.Tells s e₂ ↔ peers.Knows s e₂) := by
    intro s e₂ hinq
    obtain ⟨t, ht, hk⟩ := hreg.entry (mem_lvl4Sms_of_validAt hinq.valid)
    refine ⟨by simp [hk], ?_⟩
    rw [← hinq.quiet.targets] at ht
    rw [← hinq.quiet.socks] at hk
    exact peers.tells_iff_knows ht hk
  constructor
  · intro hright s e₂ hinq
    obtain ⟨hlive, hiff⟩ := hentry s e₂ hinq
    exact hiff.mp (hright s e₂ hlive hinq)
  · intro hknows s e₂ _ hinq
    exact (hentry s e₂ hinq).2.mpr (hknows s e₂ hinq)

/-- The peer of a socket of the script, from the time its connection was seen. -/
def scriptPeer (k : Kernel) (s : Fd) : Option (UInt32 × UInt16) :=
  if k.epoll[s]? = some .epollin then
    (k.socks[s]?.join).map (fun t => (t.ipv4, t.port.value))
  else none

def scriptProtocol (k : Kernel) (s : Fd) : Protocol :=
  ((k.socks[s]?.join).map (fun t => t.port.protocol)).getD .unsupported

def peerWorld : World Script Unit :=
  { Script.world Script.goOn with
    getpeername := fun k s sc =>
      (⟨((scriptPeer k s).getD (0, 0)).1,
        ⟨((scriptPeer k s).getD (0, 0)).2, scriptProtocol k s⟩⟩, sc) }

def peerWorld.peers : peerWorld.Peers where
  peername k s _ := scriptPeer k s
  uninitialised _ _ _ := (0, 0)
  protocol k s _ := scriptProtocol k s
  fromSocket_eq := fun _ _ _ => rfl
  peername_eq := by
    intro k s o t a hk ha
    rw [scriptPeer, hk] at ha
    split_ifs at ha
    simpa using ha.symm
  protocol_eq := by
    intro k s o t hk
    simp [scriptProtocol, hk]

def timeoutConfig : Config Unit :=
  { (Config.plain 1 : Config Unit) with
    callbackLvl4Connected := some ()
    hasTimeoutTarget := true }

/-- One target on descriptor 5; its connection is ready when it is waited for. -/
def timeoutRun (ps : List Phase) : Except Fault Unit × Engine Script Unit :=
  (runPhases peerWorld timeoutConfig 2 ps).runFrom
    (.init timeoutConfig ⟨[⟨1, ⟨80, .tcp⟩⟩], [5], [], [some (5, .epollout)], 0, 0⟩)

theorem timeoutRun_reachable (ps : List Phase) (h : (timeoutRun ps).1 = .ok ()) :
    Reachable peerWorld timeoutConfig (timeoutRun ps).2 :=
  Reachable.phases (.init _) h

theorem inquires_iff {e e₂ : Engine Script Unit} {s a : Fd} (hkeys : e.lvl4Sms.keys = [a])
    (hvalid : e.validAt a = some true) : Inquires peerWorld timeoutConfig e s e₂ ↔
      s = a ∧ e₂ = e.modifySm a fun sm => sm.shouldProcessBuffer.2 := by
  constructor
  · rintro ⟨ts, sm, e₁, ⟨_, before, after, l, e₀, hsplit, hr, _, _, rfl⟩, hasks⟩
    rw [hkeys] at hsplit
    cases before with
    | cons b before => simp at hsplit
    | nil =>
      obtain ⟨rfl, -⟩ := List.cons.inj hsplit
      obtain ⟨-, rfl⟩ := Prod.mk.inj hr
      cases hasks with
      | timeout _ => exact ⟨rfl, rfl⟩
      | watch _ _ hon => simp [timeoutConfig, Config.plain] at hon
  · rintro ⟨rfl, rfl⟩
    obtain ⟨sm, hsm, hv⟩ := Option.map_eq_some_iff.mp hvalid
    exact ⟨_, sm, _, ⟨rfl, [], [], _, e, hkeys, rfl, hsm, hv, rfl⟩, .timeout rfl⟩

theorem knows_of_peer {e : Engine Script Unit} {a : Fd} (hkeys : e.lvl4Sms.keys = [a])
    (hvalid : e.validAt a = some true) (hpeer : (scriptPeer e.kernel a).isSome = true) :
    ∀ s e₂, Inquires peerWorld timeoutConfig e s e₂ → peerWorld.peers.Knows s e₂ := by
  intro s e₂ hinq
  obtain ⟨rfl, rfl⟩ := (inquires_iff hkeys hvalid).mp hinq
  exact Or.inl hpeer

theorem peer_of_right {e : Engine Script Unit} {a : Fd} (hkeys : e.lvl4Sms.keys = [a])
    (hvalid : e.validAt a = some true) (hlive : (e.kernel.socks[a]?.join).isSome = true)
    (h : TimeoutTargetsRight peerWorld timeoutConfig e) :
    e.socketsTargets[a]? = some (peerWorld.getpeername e.kernel a e.world).1 := by
  have hinq := (inquires_iff hkeys hvalid).mpr ⟨rfl, rfl⟩
  have hright := timeoutTargetsRight_iff.mp h a _ hlive hinq
  exact hright

/-- While the socket connects, the callback is not called with its target. -/
theorem connecting_target_unknown :
    ∃ e, Reachable peerWorld timeoutConfig e ∧ ¬ TimeoutTargetsRight peerWorld timeoutConfig e := by
  refine ⟨_, timeoutRun_reachable [.freeSocks] (by decide +kernel), fun h => ?_⟩
  have hright := peer_of_right (a := 5) (by decide +kernel) (by decide +kernel)
    (by decide +kernel) h
  revert hright
  decide +kernel

theorem timeout_targets_right_connected :
    TimeoutTargetsRight peerWorld timeoutConfig (timeoutRun [.freeSocks, .events]).2 :=
  ((timeout_targets_right_iff peerWorld timeoutConfig peerWorld.peers _
    (timeoutRun_reachable [.freeSocks, .events] (by decide +kernel))).2
      (Script.world_socketsSucceed (F := Unit) Script.goOn) (by decide +kernel)).mpr
    (knows_of_peer (a := 5) (by decide +kernel) (by decide +kernel) (by decide +kernel))

end Nodescan
