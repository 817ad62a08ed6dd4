import Nodescan.HostInvariants
import Nodescan.HostCompletion
import Nodescan.TargetFile

/-!
# The life of a host's state

All connections to an address share one `HostSM`, which the engine makes on demand and erases when
the target set says so. The states made for an address are told apart by how many were erased
before them, and each has the ports and the action that were put in it. A target set answers by the
ports of the address that have ended: an `IPV4TargetSet` waits until they are as many as its ports,
the other sets do not wait at all, and the wrappers answer as the set under them. So the state
handed to an `on_connect` action stays as long as the ports that have ended do not fill the address
while another of its connections is live; a set that does not wait keeps it only if no connection
to an address ends while another one is up.
-/

namespace Nodescan

open FaultM EngineM

variable {ω σ F : Type}

/-- The states of the host `ip` that were erased so far. -/
def hostsErased (ip : UInt32) : List (Event F) → ℕ
  | [] => 0
  | .hostFinished t _ true :: l =>
    if t.ipv4 = ip then hostsErased ip l + 1 else hostsErased ip l
  | _ :: l => hostsErased ip l

/-- The ports put into the state of `ip` since it was made. -/
def portsPut (ip : UInt32) : List (Event F) → List Port
  | [] => []
  | .hostFinished t _ complete :: l =>
    if t.ipv4 = ip then if complete then [] else portsPut ip l ++ [t.port] else portsPut ip l
  | _ :: l => portsPut ip l

/-- The action put into the state of `ip` since it was made. -/
def actionPut (ip : UInt32) : List (Event F) → Option ℕ
  | [] => none
  | .onAliveSet ip' a :: l => if ip' = ip then some a else actionPut ip l
  | .hostFinished t _ true :: l => if t.ipv4 = ip then none else actionPut ip l
  | _ :: l => actionPut ip l

/-- A call of `on_connect` on the socket `s`, with the number of the state of the host that was
passed to it. -/
structure Passed where
  s : Fd
  target : Target
  state : ℕ
  deriving DecidableEq, Repr

/-- The calls of `on_connect` on the sockets that are still live. -/
def passed : List (Event F) → List Passed
  | [] => []
  | .connect s _ _ :: l => (passed l).filter (·.s ≠ s)
  | .socketFinished s :: l => (passed l).filter (·.s ≠ s)
  | .reconnected s s' :: l => if s = s' then passed l else (passed l).filter (·.s ≠ s)
  | .called (.connected _ ct) :: l =>
    ⟨ct.s, ct.target, hostsErased ct.target.ipv4 l⟩ :: passed l
  | _ :: l => passed l

/-- Every live socket whose `on_connect` has run has in the map the state it was handed, with what
was put in it. -/
def HostsKept (e : Engine ω F) : Prop :=
  ∀ p ∈ passed e.log, ∃ hsm, e.hostsSms[p.target.ipv4]? = some hsm ∧
    hostsErased p.target.ipv4 e.log = p.state ∧ hsm.portsDone = portsPut p.target.ipv4 e.log ∧
    hsm.onAlive = actionPut p.target.ipv4 e.log

/-- The ports of `ip` that have ended since they were last `full`. -/
def portsSince (full : List Port → Bool) (ip : UInt32) : List (Event F) → List Port
  | [] => []
  | .hostFinished t _ _ :: l =>
    if t.ipv4 = ip then
      if full (portsSince full ip l ++ [t.port]) then [] else portsSince full ip l ++ [t.port]
    else portsSince full ip l
  | _ :: l => portsSince full ip l

/-- Whenever the ports of an address that have ended become `full`, `on_connect` has run for no
other live connection to it. -/
def EndsAlone (full : List Port → Bool) : List (Event F) → Prop
  | [] => True
  | .hostFinished t _ _ :: l =>
    (full (portsSince full t.ipv4 l ++ [t.port]) = true → ∀ p ∈ passed l, p.target.ipv4 ≠ t.ipv4) ∧
      EndsAlone full l
  | _ :: l => EndsAlone full l

instance EndsAlone.decidable (full : List Port → Bool) :
    (l : List (Event F)) → Decidable (EndsAlone full l)
  | [] => .isTrue trivial
  | ev :: l =>
    have := EndsAlone.decidable full l
    match ev with
    | .hostFinished _ _ _ => inferInstanceAs (Decidable (_ ∧ _))
    | .launched _ => this
    | .connect _ _ _ => this
    | .socketFinished _ => this
    | .reconnected _ _ => this
    | .added _ => this
    | .onAliveSet _ _ => this
    | .freeSocks => this
    | .called _ => this
    | .returned _ _ _ => this

/-! How the target sets answer. -/

/-- Within `I`, which the set and changes within `Change` keep, `target_finished` answers by the
ports of the host that are done, those of the target included. -/
structure EndsBy (ts : TargetSet σ) (full : List Port → Bool) (Change : σ → σ → Prop)
    (I : σ → Prop) : Prop where
  init : ∀ {x}, I x → I (ts.init x)
  next : ∀ {x}, I x → I (ts.nextTarget x).2
  finished : ∀ {x} (t : Target) (hsm : HostSM), I x → I (ts.targetFinished t hsm x).2
  hostInit : ∀ {x} (t : Target) (hsm : HostSM), I x → I (ts.initHostSm t hsm x).2
  change : ∀ {x y}, I x → Change x y → I y
  answer : ∀ {x} (t : Target) (hsm : HostSM), I x →
    (ts.targetFinished t hsm x).1.1 = full (hsm.portsDone ++ [t.port])
  put : ∀ {x} (t : Target) (hsm : HostSM), I x → (ts.targetFinished t hsm x).1.1 = false →
    (ts.targetFinished t hsm x).1.2 = hsm.portDone t.port
  host : ∀ {x} (t : Target) (hsm : HostSM), I x →
    (ts.initHostSm t hsm x).1.portsDone = hsm.portsDone ∧
      (ts.initHostSm t hsm x).1.onAlive = hsm.onAlive

namespace EndsBy

variable {ts : TargetSet σ} {full : List Port → Bool} {Change : σ → σ → Prop} {I : σ → Prop}

theorem repeatable (h : EndsBy ts full Change I) : EndsBy ts.repeatable full Change I where
  init := h.init
  next := by
    intro x hx
    have hnext := h.next hx
    dsimp only [TargetSet.repeatable]
    rcases hr : ts.nextTarget x with ⟨t | _, x'⟩
    · rw [hr] at hnext
      dsimp only
      split_ifs
      · exact h.next (h.init hnext)
      · exact hnext
    · rw [hr] at hnext
      exact hnext
  finished := h.finished
  hostInit := h.hostInit
  change := h.change
  answer := h.answer
  put := h.put
  host := h.host

theorem reinjectable (h : EndsBy ts full Change I) :
    EndsBy ts.reinjectable full (fun x y => Change x.2 y.2) (fun x => I x.2) where
  init := h.init
  next := by
    rintro ⟨queue, x⟩ hx
    cases queue with
    | nil => exact h.next hx
    | cons t queue => exact hx
  finished := fun t hsm => h.finished t hsm
  hostInit := fun t hsm => h.hostInit t hsm
  change := h.change
  answer := fun t hsm => h.answer t hsm
  put := fun t hsm => h.put t hsm
  host := fun t hsm => h.host t hsm

theorem ipv4 {γ δ ρ : Type} (lib : Leeloo γ δ ρ) (stray : ℕ) (ports : List Port) :
    EndsBy (IPV4TargetSet.targetSet lib stray) (fun ps => lib.portsSize ps = ports.length) Eq
      (OwnPorts lib ports) where
  init := fun h => .init h.ports_eq
  next := fun h => h.nextTarget.1
  finished := fun t hsm h => h.targetFinished stray t hsm
  hostInit := fun _ _ h => h
  change := fun h heq => heq ▸ h
  answer := by
    intro x t hsm h
    dsimp only [IPV4TargetSet.targetSet]
    rw [IPV4TargetSet.targetFinished_fst, h.count]
    rfl
  put := by
    intro x t hsm _ _
    dsimp only [IPV4TargetSet.targetSet]
    rw [IPV4TargetSet.targetFinished_fst]
  host := fun _ _ _ => ⟨rfl, rfl⟩

theorem always (hfin : ∀ t hsm x, (ts.targetFinished t hsm x).1.1 = true)
    (hinit : ∀ t hsm x, (ts.initHostSm t hsm x).1 = hsm) :
    EndsBy ts (fun _ => true) (fun _ _ => True) (fun _ => True) where
  init := fun _ => trivial
  next := fun _ => trivial
  finished := fun _ _ _ => trivial
  hostInit := fun _ _ _ => trivial
  change := fun _ _ => trivial
  answer := fun t hsm _ => hfin t hsm _
  put := by
    intro x t hsm _ hfalse
    rw [hfin] at hfalse
    exact absurd hfalse (by decide)
  host := by
    intro x t hsm _
    rw [hinit]
    exact ⟨rfl, rfl⟩

end EndsBy

/-- The target sets of the repository, with the states they can start a scan in, the changes that
callbacks can make to them, and when the ports that have ended complete a host. -/
inductive RepositorySet : {σ : Type} → TargetSet σ → (List Port → Bool) → (σ → Prop) →
    (σ → σ → Prop) → Prop
  | ipv4 {γ δ ρ : Type} (lib : Leeloo γ δ ρ) (stray : ℕ) (ports : List Port) :
    RepositorySet (IPV4TargetSet.targetSet lib stray) (fun ps => lib.portsSize ps = ports.length)
      (fun ts => ts.ports = ports) Eq
  | simple : RepositorySet SimpleTargetSet.targetSet (fun _ => true) (fun _ => True)
      (fun _ _ => True)
  | asyncFile {κ : Type} (ipv4toi : List UInt8 → Option UInt32) (poll : κ → Poll × κ) :
    RepositorySet (TargetAsyncFile.targetSet ipv4toi poll) (fun _ => true) (fun _ => True)
      (fun _ _ => True)
  | repeatable {σ : Type} {ts : TargetSet σ} {full : List Port → Bool} {Start : σ → Prop}
      {Change : σ → σ → Prop} : RepositorySet ts full Start Change →
      RepositorySet ts.repeatable full Start Change
  | reinjectable {σ : Type} {ts : TargetSet σ} {full : List Port → Bool} {Start : σ → Prop}
      {Change : σ → σ → Prop} : RepositorySet ts full Start Change →
      RepositorySet ts.reinjectable full (fun x => Start x.2) (fun x y => Change x.2 y.2)

theorem RepositorySet.endsBy {ts : TargetSet σ} {full : List Port → Bool} {Start : σ → Prop}
    {Change : σ → σ → Prop} (h : RepositorySet ts full Start Change) :
    ∃ I, EndsBy ts full Change I ∧ ∀ x, Start x → I (ts.init x) := by
  induction h with
  | ipv4 lib stray ports => exact ⟨_, .ipv4 lib stray ports, fun x hx => .init hx⟩
  | simple => exact ⟨_, .always (fun _ _ _ => rfl) (fun _ _ _ => rfl), fun _ _ => trivial⟩
  | asyncFile ipv4toi poll =>
    exact ⟨_, .always (fun _ _ _ => rfl) (fun _ _ _ => rfl), fun _ _ => trivial⟩
  | repeatable _ ih =>
    obtain ⟨I, hends, hstart⟩ := ih
    exact ⟨I, hends.repeatable, hstart⟩
  | reinjectable _ ih =>
    obtain ⟨I, hends, hstart⟩ := ih
    exact ⟨_, hends.reinjectable, fun x hx => hstart x.2 hx⟩

/-! What the log says of a host is touched by few events. -/

theorem hosts_note {ev : Event F} (hev : ev.isHostEvent = false) (full : List Port → Bool)
    (ip : UInt32) (l : List (Event F)) : hostsErased ip (ev :: l) = hostsErased ip l ∧
      portsPut ip (ev :: l) = portsPut ip l ∧ actionPut ip (ev :: l) = actionPut ip l ∧
      portsSince full ip (ev :: l) = portsSince full ip l := by
  cases ev with
  | hostFinished t hsm complete => simp [Event.isHostEvent] at hev
  | onAliveSet ip' a => simp [Event.isHostEvent] at hev
  | _ => exact ⟨rfl, rfl, rfl, rfl⟩

theorem passed_note {ev : Event F} (hev : ev.isHostEvent = false) {l : List (Event F)}
    {p : Passed} (hp : p ∈ passed (ev :: l)) : p ∈ passed l := by
  cases ev with
  | hostFinished t hsm complete => simp [Event.isHostEvent] at hev
  | connect s t err => exact List.mem_of_mem_filter hp
  | socketFinished s => exact List.mem_of_mem_filter hp
  | reconnected s s' =>
    rw [passed] at hp
    split_ifs at hp
    · exact hp
    · exact List.mem_of_mem_filter hp
  | called cb =>
    cases cb with
    | connected f ct => simp [Event.isHostEvent] at hev
    | _ => exact hp
  | _ => exact hp

theorem endsAlone_note {ev : Event F} (hev : ev.isHostEvent = false) {full : List Port → Bool}
    {l : List (Event F)} (h : EndsAlone full (ev :: l)) : EndsAlone full l := by
  cases ev with
  | hostFinished t hsm complete => simp [Event.isHostEvent] at hev
  | _ => exact h

theorem portsPut_finished (ip : UInt32) (t : Target) (hsm : HostSM) (complete : Bool)
    (l : List (Event F)) : portsPut ip (.hostFinished t hsm complete :: l) =
      if ip = t.ipv4 then if complete then [] else portsPut ip l ++ [t.port]
      else portsPut ip l := by
  rw [portsPut]
  simp only [eq_comm]

theorem actionPut_finished (ip : UInt32) (t : Target) (hsm : HostSM) (complete : Bool)
    (l : List (Event F)) : actionPut ip (.hostFinished t hsm complete :: l) =
      if ip = t.ipv4 ∧ complete = true then none else actionPut ip l := by
  cases complete with
  | false => simp [actionPut]
  | true =>
    rw [actionPut]
    simp only [and_true, eq_comm]

theorem hostsErased_finished (ip : UInt32) (t : Target) (hsm : HostSM) (complete : Bool)
    (l : List (Event F)) : hostsErased ip (.hostFinished t hsm complete :: l) =
      if ip = t.ipv4 ∧ complete = true then hostsErased ip l + 1 else hostsErased ip l := by
  cases complete with
  | false => simp [hostsErased]
  | true =>
    rw [hostsErased]
    simp only [and_true, eq_comm]

/-- The map holds what was put in the states of the hosts, the set has answered by the ports put
in, and as long as hosts end alone the states that were handed out are still there. -/
structure HostsAnswered (full : List Port → Bool) (I : σ → Prop) (e : Engine (ω × σ) F) :
    Prop where
  set : I e.world.2
  ports : ∀ ip, (e.hostOf ip).portsDone = portsPut ip e.log
  since : ∀ ip, portsPut ip e.log = portsSince full ip e.log
  action : ∀ ip, (e.hostOf ip).onAlive = actionPut ip e.log
  there : EndsAlone full e.log → ∀ p ∈ passed e.log, p.target.ipv4 ∈ e.hostsSms
  same : EndsAlone full e.log → ∀ p ∈ passed e.log,
    hostsErased p.target.ipv4 e.log = p.state

namespace HostsAnswered

variable {w : World ω F} {cfg : Config F} {ts : TargetSet σ} {full : List Port → Bool}
  {Change : σ → σ → Prop} {I : σ → Prop} {change : Callback F → ω → σ → σ}
  {e e' : Engine (ω × σ) F} {t : Target} {hsm : HostSM}

theorem kept (h : HostsAnswered full I e) (hends : EndsAlone full e.log) : HostsKept e := by
  intro p hp
  exact ⟨_, Engine.getElem?_hostOf (h.there hends p hp), h.same hends p hp, h.ports _, h.action _⟩

theorem of_hosts (h : HostsAnswered full I e) (hset : I e'.world.2) (hlog : e'.log = e.log)
    (hof : ∀ ip, (e'.hostOf ip).portsDone = (e.hostOf ip).portsDone ∧
      (e'.hostOf ip).onAlive = (e.hostOf ip).onAlive)
    (hmem : ∀ ip ∈ e.hostsSms, ip ∈ e'.hostsSms) : HostsAnswered full I e' where
  set := hset
  ports := fun ip => by rw [(hof ip).1, hlog, h.ports]
  since := fun ip => by rw [hlog, h.since]
  action := fun ip => by rw [(hof ip).2, hlog, h.action]
  there := by
    rw [hlog]
    exact fun hends p hp => hmem _ (h.there hends p hp)
  same := by
    rw [hlog]
    exact h.same

theorem note (h : HostsAnswered full I e) {ev : Event F} (hev : ev.isHostEvent = false) :
    HostsAnswered full I { e with log := ev :: e.log } where
  set := h.set
  ports := fun ip => (h.ports ip).trans (hosts_note hev full ip e.log).2.1.symm
  since := by
    intro ip
    obtain ⟨-, hput, -, hsince⟩ := hosts_note hev full ip e.log
    exact hput.trans ((h.since ip).trans hsince.symm)
  action := fun ip => (h.action ip).trans (hosts_note hev full ip e.log).2.2.1.symm
  there := fun hends p hp => h.there (endsAlone_note hev hends) p (passed_note hev hp)
  same := fun hends p hp => (hosts_note hev full _ e.log).1.trans
    (h.same (endsAlone_note hev hends) p (passed_note hev hp))

theorem setOnAlive (h : HostsAnswered full I e) {ip : UInt32} (a : ℕ) (hip : ip ∈ e.hostsSms) :
    HostsAnswered full I (e.setOnAlive ip a) := by
  rw [Engine.setOnAlive_of_mem a hip]
  have hof : ∀ b, (e.hostsSms.modify ip (·.setOnAlive a))[b]?.getD .new =
      if b = ip then (e.hostOf ip).setOnAlive a else e.hostOf b := by
    intro b
    rw [TreeMaps.getElem?_modify, Engine.getElem?_hostOf hip]
    split_ifs
    · rfl
    · rfl
  exact {
    set := h.set
    ports := by
      intro b
      refine (congrArg HostSM.portsDone (hof b)).trans ?_
      split_ifs with hb
      · rw [hb]
        exact h.ports ip
      · exact h.ports b
    since := h.since
    action := by
      intro b
      refine (congrArg HostSM.onAlive (hof b)).trans ?_
      change _ = if ip = b then some a else actionPut b e.log
      by_cases hb : b = ip
      · rw [if_pos hb, if_pos hb.symm]
        rfl
      · rw [if_neg hb, if_neg (Ne.symm hb)]
        exact h.action b
    there := fun hends p hp => Std.ExtTreeMap.mem_modify.mpr (h.there hends p hp)
    same := h.same }

theorem passedOn (h : HostsAnswered full I e) {f : F} {s : Fd} (hip : t.ipv4 ∈ e.hostsSms) :
    HostsAnswered full I { e with log := .called (.connected f ⟨t, s⟩) :: e.log } where
  set := h.set
  ports := h.ports
  since := h.since
  action := h.action
  there := by
    intro hends p hp
    rcases List.mem_cons.mp hp with rfl | hp
    · exact hip
    · exact h.there hends p hp
  same := by
    intro hends p hp
    rcases List.mem_cons.mp hp with rfl | hp
    · rfl
    · exact h.same hends p hp

theorem finishHost (hends : EndsBy ts full Change I) (h : HostsAnswered full I e)
    (hhsm : e.hostsSms[t.ipv4]? = some hsm) :
    HostsAnswered full I (e.finishHost (w.changing ts change) t hsm) := by
  let r := ts.targetFinished t hsm e.world.2
  have hself := Engine.hostOf_eq hhsm
  have hanswer : r.1.1 = full (portsSince full t.ipv4 e.log ++ [t.port]) := by
    rw [← h.since, ← h.ports, hself]
    exact hends.answer t hsm h.set
  have hof := e.finishHost_hostOf (w.changing ts change) t hsm
  have hlog : (e.finishHost (w.changing ts change) t hsm).log =
      .hostFinished t hsm r.1.1 :: e.log := rfl
  refine ⟨hends.finished t hsm h.set, fun ip => ?_, fun ip => ?_, fun ip => ?_, ?_, ?_⟩
  · rw [hof, hlog, portsPut_finished]
    change HostSM.portsDone (if ip = t.ipv4 then if r.1.1 = true then .new else r.1.2 else _) = _
    split_ifs with hip hr
    · rfl
    · rw [hends.put t hsm h.set (by simpa using hr), hip, ← h.ports, hself]
      rfl
    · exact h.ports ip
  · rw [hlog, portsPut_finished, portsSince, h.since]
    by_cases hip : ip = t.ipv4
    · simp only [hip, if_true, hanswer]
    · simp only [hip, if_false, Ne.symm hip]
  · rw [hof, hlog, actionPut_finished]
    change HostSM.onAlive (if ip = t.ipv4 then if r.1.1 = true then .new else r.1.2 else _) = _
    by_cases hip : ip = t.ipv4
    · cases hr : r.1.1 with
      | true => simp [hip, HostSM.new]
      | false =>
        simp only [hip, if_true, Bool.false_eq_true, and_false, if_false]
        rw [hends.put t hsm h.set hr, ← h.action, hself]
        rfl
    · simp only [hip, if_false, false_and]
      exact h.action ip
  · intro halone p hp
    rw [hlog] at halone
    change p.target.ipv4 ∈ if r.1.1 then (e.hostsSms.insert t.ipv4 r.1.2).erase t.ipv4
      else e.hostsSms.insert t.ipv4 r.1.2
    have hmem := h.there halone.2 p hp
    split_ifs with hr
    · rw [TreeMaps.mem_erase, TreeMaps.mem_insert]
      exact ⟨halone.1 (hanswer ▸ hr) p hp, Or.inr hmem⟩
    · rw [TreeMaps.mem_insert]
      exact Or.inr hmem
  · intro halone p hp
    rw [hlog] at halone ⊢
    rw [hostsErased_finished, if_neg]
    · exact h.same halone.2 p hp
    · rintro ⟨hip, hr⟩
      exact halone.1 (hanswer ▸ hr) p hp hip

theorem initHost (hends : EndsBy ts full Change I) (h : HostsAnswered full I e)
    (hhsm : e.hostsSms[t.ipv4]? = some hsm) :
    HostsAnswered full I (e.initHost (w.changing ts change) t hsm) := by
  have hself := Engine.hostOf_eq hhsm
  refine h.of_hosts (hends.hostInit t hsm h.set) rfl (fun ip => ?_) ?_
  · rw [Engine.initHost_hostOf]
    split_ifs with hip
    · rw [hip, hself]
      exact hends.host t hsm h.set
    · exact ⟨rfl, rfl⟩
  · intro ip hmem
    exact (TreeMaps.mem_insert _ _ _ _).mpr (Or.inr hmem)

theorem leaves (hends : EndsBy ts full Change I)
    (hchange : ∀ cb o x, Change x (change cb o x)) :
    (w.changing ts change).Leaves (fun o o' => I o.2 → I o'.2) where
  refl := fun _ h => h
  socket := fun _ _ _ h => h
  connect := fun _ _ _ _ h => h
  epollWait := fun _ _ h => h
  soError := fun _ _ _ h => h
  bytesAvail := fun _ _ _ h => h
  read := fun _ _ _ h => h
  getpeername := fun _ _ _ h => h
  timestamp := fun _ h => h
  saveState := fun _ h => h
  callback := fun cb o h => hends.change h (hchange cb o.1 o.2)

theorem invariant (w : World ω F) (hends : EndsBy ts full Change I) :
    HostInvariant (w.changing ts change) (fun o o' => I o.2 → I o'.2) (fun _ => True)
      (fun _ _ => True) (HostsAnswered full I) where
  congr := by
    intro e e' h hh hl ho _
    have hof : ∀ ip, e'.hostOf ip = e.hostOf ip := fun ip => by
      rw [Engine.hostOf, Engine.hostOf, hh]
    refine h.of_hosts (ho h.set) hl (fun ip => ?_) (fun ip => ?_)
    · rw [hof]
      exact ⟨rfl, rfl⟩
    · rw [hh]
      exact id
  note := fun ev hev h => h.note hev
  insert := fun _ h _ => h.of_hosts h.set rfl (fun _ => ⟨rfl, rfl⟩) (fun _ => id)
  known := fun _ _ => trivial
  onAlive := fun a h hip => h.setOnAlive a hip
  made := by
    intro e ip h hip
    rw [← TreeMaps.insertIfNew_of_not_mem _ _ _ hip]
    refine h.of_hosts h.set rfl (fun a => ?_) (fun a ha => ?_)
    · rw [e.hostOf_insertIfNew]
      exact ⟨rfl, rfl⟩
    · exact (TreeMaps.mem_insertIfNew _ _ _ _).mpr (Or.inr ha)
  passed := fun h hip => h.passedOn hip
  next := fun h => h.of_hosts (hends.next h.set) rfl (fun _ => ⟨rfl, rfl⟩) (fun _ => id)
  emitted := fun _ _ _ => ⟨trivial, trivial⟩
  emitted_same := fun _ _ => trivial
  launched := fun h _ => ⟨h.set, h.ports, h.since, h.action, h.there, h.same⟩
  finished := fun h _ hhsm => h.finishHost hends hhsm
  initialised := fun h hhsm _ => h.initHost hends hhsm

end HostsAnswered

/-- The engines between the phases of a run from `e₀`. -/
inductive AfterPhases (w : World ω F) (cfg : Config F) (e₀ : Engine ω F) : Engine ω F → Prop
  | start : AfterPhases w cfg e₀ e₀
  | phase {e e' : Engine ω F} {fuel : ℕ} {p : Phase} (h : AfterPhases w cfg e₀ e)
      (hr : (p.run w cfg fuel).runFrom e = (.ok (), e')) : AfterPhases w cfg e₀ e'

theorem HostsAnswered.afterPhases {w : World ω F} {cfg : Config F} {ts : TargetSet σ}
    {full : List Port → Bool} {Change : σ → σ → Prop} {I : σ → Prop}
    {change : Callback F → ω → σ → σ} {e₀ e : Engine (ω × σ) F} (hends : EndsBy ts full Change I)
    (hchange : ∀ cb o x, Change x (change cb o x)) (h₀ : HostsAnswered full I e₀)
    (h : AfterPhases (w.changing ts change) cfg e₀ e) : HostsAnswered full I e := by
  induction h with
  | start => exact h₀
  | phase _ hr ih => exact ((invariant w hends).phase (leaves hends hchange) _ _ ih).of_ok hr

/-- For every target set of the repository, in every run in which no host ends while another of its
connections is up: the states that were handed out are kept, with what was put in them. -/
theorem reachable_hosts_kept {w : World ω F} {cfg : Config F} {ts : TargetSet σ}
    {full : List Port → Bool} {Start : σ → Prop} {Change : σ → σ → Prop}
    (hts : RepositorySet ts full Start Change) {change : Callback F → ω → σ → σ}
    (hchange : ∀ cb o x, Change x (change cb o x)) {x : σ} (hx : Start x) {o : ω}
    {e : Engine (ω × σ) F}
    (h : AfterPhases (w.changing ts change) cfg (.init cfg (o, ts.init x)) e)
    (halone : EndsAlone full e.log) : HostsKept e := by
  obtain ⟨I, hends, hstart⟩ := hts.endsBy
  have hinit : HostsAnswered full I (.init cfg (o, ts.init x) : Engine (ω × σ) F) :=
    ⟨hstart x hx, fun _ => rfl, fun _ => rfl, fun _ => rfl, by simp [Engine.init, passed],
      by simp [Engine.init, passed]⟩
  exact (hinit.afterPhases hends hchange h).kept halone

/-- An `on_connect` action that puts an action into the state it is handed. -/
def watchHost : (cb : Callback Unit) → cb.Answer × List (Call Unit)
  | .connected _ ct => (true, [.setOnAlive ct.target.ipv4 7])
  | cb => Script.goOn cb

def watchConfig : Config Unit :=
  { (Config.plain 2 : Config Unit) with callbackLvl4Connected := some () }

/-- The sockets 5 and 6 are connected, and 5 is then closed by its peer. -/
def firstCloses : Script where
  targets := []
  fds := [5, 6]
  connects := []
  events := [some (5, .epollout), some (6, .epollout), some (5, .epollin)]
  clock := 0
  tick := 0

def firstClosesRun (ts : TargetSet σ) (x : σ) : Except Fault Unit × Engine (Script × σ) Unit :=
  (runPhases ((Script.world watchHost).changing ts (fun _ _ => id)) watchConfig 2
    [.freeSocks, .events, .events, .events]).runFrom (.init watchConfig (firstCloses, ts.init x))

theorem AfterPhases.run {w : World ω F} {cfg : Config F} {fuel : ℕ} {e₀ e : Engine ω F}
    (h : AfterPhases w cfg e₀ e) {ps : List Phase}
    (hr : ((runPhases w cfg fuel ps).runFrom e).1 = .ok ()) :
    AfterPhases w cfg e₀ ((runPhases w cfg fuel ps).runFrom e).2 := by
  induction ps generalizing e with
  | nil => exact h
  | cons p ps ih =>
    have hbind : runPhases w cfg fuel (p :: ps) =
        (p.run w cfg fuel >>= fun _ => runPhases w cfg fuel ps) := rfl
    rw [hbind, runFrom_bind] at hr ⊢
    rcases hp : (p.run w cfg fuel).runFrom e with ⟨f | _, e₁⟩
    · simp [hp] at hr
    · rw [hp] at hr
      exact ih (h.phase hp) hr

theorem two_ports_lose_host :
    ∃ e, AfterPhases ((Script.world watchHost).changing SimpleTargetSet.targetSet (fun _ _ => id))
      watchConfig (.init watchConfig (firstCloses, SimpleTargetSet.targetSet.init
        ⟨[⟨1, ⟨80, .tcp⟩⟩, ⟨1, ⟨81, .tcp⟩⟩], []⟩)) e ∧ ¬ HostsKept e := by
  refine ⟨(firstClosesRun SimpleTargetSet.targetSet
    ⟨[⟨1, ⟨80, .tcp⟩⟩, ⟨1, ⟨81, .tcp⟩⟩], []⟩).2, .run .start (by decide +kernel), fun h => ?_⟩
  have hpassed : ⟨6, ⟨1, ⟨81, .tcp⟩⟩, 0⟩ ∈ passed (firstClosesRun SimpleTargetSet.targetSet
    ⟨[⟨1, ⟨80, .tcp⟩⟩, ⟨1, ⟨81, .tcp⟩⟩], []⟩).2.log := by decide +kernel
  obtain ⟨hsm, hget, -⟩ := h _ hpassed
  exact absurd (TreeMaps.mem_of_getElem? hget) (by decide +kernel)

/-- Port 80 of an address ends while port 443 is connected. -/
theorem reachable_hosts_kept_first_closes :
    let e := (firstClosesRun (IPV4TargetSet.targetSet Leeloo.inOrder 0) IPV4TargetSet.small).2
    passed e.log = [⟨6, ⟨1, ⟨443, .tcp⟩⟩, 0⟩] ∧ portsPut 1 e.log = [⟨80, .tcp⟩] ∧
      actionPut 1 e.log = some 7 ∧ HostsKept e := by
  refine ⟨by decide +kernel, by decide +kernel, by decide +kernel, ?_⟩
  exact reachable_hosts_kept (.ipv4 Leeloo.inOrder 0 IPV4TargetSet.small.ports) (fun _ _ _ => rfl)
    rfl (.run .start (by decide +kernel)) (by decide +kernel)

end Nodescan
