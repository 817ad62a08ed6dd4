import Nodescan.ScanSteps
import Nodescan.ScanEnd

/-!
# The ledger of targets

The log says which targets were given to `process_free_socks`, on which socket each of them is, and
which have come to their end. The counters `_nlaunched` and `_ndone` only count them. Here the
targets themselves are accounted for: as long as every reconnection gets the descriptor it closed,
every target launched is registered in `_sockets_targets` for exactly one socket or has ended
exactly once, and every target that ended had its finish callback.
-/

namespace Nodescan

open FaultM EngineM

variable {ω F : Type}

/-- The targets that came to their end for the target set, the latest first. -/
def endedTargets (log : List (Event F)) : List Target :=
  log.filterMap fun
    | .hostFinished t _ _ => some t
    | _ => none

/-- The targets the finish callback was called with. -/
def finishCallbacks (log : List (Event F)) : List Target :=
  log.filterMap fun
    | .called (.finish t _ _) => some t
    | _ => none

def reconnections (log : List (Event F)) : ℕ :=
  log.countP fun
    | .reconnected _ _ => true
    | _ => false

/-- The sockets on which `connect` was called and `socket_finished` was not called since, each with
the target of the last `connect`. -/
def inFlight : List (Event F) → List (Fd × Target)
  | [] => []
  | .connect s t _ :: log => (s, t) :: (inFlight log).filter (·.1 ≠ s)
  | .socketFinished s :: log => (inFlight log).filter (·.1 ≠ s)
  | _ :: log => inFlight log

/-- The calls of `connect`, each with its target and its answer. -/
def connectCalls (log : List (Event F)) : List (Target × ℤ) :=
  log.filterMap fun
    | .connect _ t err => some (t, err)
    | _ => none

/-- The two logs say the same about the targets. -/
structure SameEntries (log log' : List (Event F)) : Prop where
  connects : connectCalls log' = connectCalls log
  launched : launchedTargets log' = launchedTargets log
  ended : endedTargets log' = endedTargets log
  callbacks : finishCallbacks log' = finishCallbacks log
  reopened : reconnections log' = reconnections log
  inFlight : inFlight log' = inFlight log

/-- The events that enter the ledger. -/
def Event.isEntry : Event F → Bool
  | .launched _ => true
  | .connect _ _ _ => true
  | .socketFinished _ => true
  | .reconnected _ _ => true
  | .hostFinished _ _ _ => true
  | .called (.finish _ _ _) => true
  | _ => false

theorem SameEntries.append {l : List (Event F)} (h : ∀ ev ∈ l, ev.isEntry = false)
    (log : List (Event F)) : SameEntries log (l ++ log) := by
  induction l with
  | nil => exact ⟨rfl, rfl, rfl, rfl, rfl, rfl⟩
  | cons ev l ih =>
    have hev := h ev (by simp)
    obtain ⟨hco, hla, hen, hca, hre, hin⟩ := ih (fun ev hev => h ev (by simp [hev]))
    have hcount : reconnections (ev :: (l ++ log)) = reconnections (l ++ log) := by
      refine List.countP_cons_of_neg ?_
      cases ev <;> simp_all [Event.isEntry]
    cases ev with
    | called cb =>
      cases cb with
      | finish t buf err => simp [Event.isEntry] at hev
      | _ => exact ⟨hco, hla, hen, hca, hcount.trans hre, hin⟩
    | added k => exact ⟨hco, hla, hen, hca, hcount.trans hre, hin⟩
    | onAliveSet ip a => exact ⟨hco, hla, hen, hca, hcount.trans hre, hin⟩
    | freeSocks => exact ⟨hco, hla, hen, hca, hcount.trans hre, hin⟩
    | returned cb v calls => exact ⟨hco, hla, hen, hca, hcount.trans hre, hin⟩
    | _ => simp [Event.isEntry] at hev

theorem SameEntries.cons {log log' : List (Event F)} (h : SameEntries log log') (ev : Event F) :
    SameEntries (ev :: log) (ev :: log') where
  connects := by
    have hco := h.connects
    simp only [connectCalls] at hco ⊢
    rw [List.filterMap_cons, List.filterMap_cons, hco]
  launched := by
    have hla := h.launched
    simp only [launchedTargets] at hla ⊢
    rw [List.filterMap_cons, List.filterMap_cons, hla]
  ended := by
    have hen := h.ended
    simp only [endedTargets] at hen ⊢
    rw [List.filterMap_cons, List.filterMap_cons, hen]
  callbacks := by
    have hca := h.callbacks
    simp only [finishCallbacks] at hca ⊢
    rw [List.filterMap_cons, List.filterMap_cons, hca]
  reopened := by
    have hre := h.reopened
    simp only [reconnections] at hre ⊢
    rw [List.countP_cons, List.countP_cons, hre]
  inFlight := by cases ev <;> simp only [Nodescan.inFlight, h.inFlight]

/-- A step that enters nothing into the ledger and leaves the target set alone. -/
structure Idle (w : World ω F) (e e' : Engine ω F) : Prop where
  targets : e'.socketsTargets = e.socketsTargets
  socks : e'.kernel.socks = e.kernel.socks
  hosts : KeepsHosts e e'
  asked : Relation.ReflTransGen w.Asked e.world e'.world
  log : ∃ l, e'.log = l ++ e.log ∧ ∀ ev ∈ l, ev.isEntry = false

variable {w : World ω F} {cfg : Config F} {fuel : ℕ} {e e' e'' : Engine ω F}

theorem isPlain_not_entry {cb : Callback F} (h : cb.isPlain = true) :
    (Event.called cb).isEntry = false := by
  cases cb <;> simp_all [Callback.isPlain, Event.isEntry]

namespace Idle

theorem refl (e : Engine ω F) : Idle w e e := ⟨rfl, rfl, .of_eq rfl, .refl, [], rfl, by simp⟩

theorem trans (h : Idle w e e') (h' : Idle w e' e'') : Idle w e e'' where
  targets := h'.targets.trans h.targets
  socks := h'.socks.trans h.socks
  hosts := h.hosts.trans h'.hosts
  asked := h.asked.trans h'.asked
  log := by
    obtain ⟨l, hl, hidle⟩ := h.log
    obtain ⟨l', hl', hidle'⟩ := h'.log
    refine ⟨l' ++ l, by rw [hl', hl, List.append_assoc], fun ev hev => ?_⟩
    rcases List.mem_append.mp hev with hmem | hmem
    · exact hidle' ev hmem
    · exact hidle ev hmem

theorem of_neutral (h : Neutral w e e') : Idle w e e' :=
  ⟨h.targets, h.socks, h.hosts, h.asked, [], h.log, by simp⟩

theorem note {ev : Event F} (h : ev.isEntry = false) :
    Idle w e { e with log := ev :: e.log } :=
  ⟨rfl, rfl, .of_eq rfl, .refl, [ev], rfl, by simp [h]⟩

theorem modifySm (s : Fd) (f : Lvl4SM F → Lvl4SM F) : Idle w e (e.modifySm s f) :=
  ⟨rfl, rfl, .of_eq rfl, .refl, [], rfl, by simp⟩

theorem setOnAlive (ip : UInt32) (a : ℕ) : Idle w e (e.setOnAlive ip a) := by
  have hosts : KeepsHosts e (e.setOnAlive ip a) := .setOnAlive ip a
  revert hosts
  unfold Engine.setOnAlive
  split_ifs
  · exact fun hosts => ⟨rfl, rfl, hosts, .refl, [.onAliveSet ip a], rfl, by simp [Event.isEntry]⟩
  · exact fun _ => refl e

theorem callAll (cs : List (Call F)) : Idle w e (e.callAll cs) := by
  induction cs generalizing e with
  | nil => exact refl e
  | cons c cs ih =>
    refine trans ?_ (ih (e := e.call c))
    cases c with
    | onSm s c => exact modifySm s _
    | ensureAvailableSockets n =>
      simp only [Engine.call, Engine.ensureAvailableSockets]
      split_ifs
      · exact ⟨rfl, rfl, .of_eq rfl, .refl, [_], rfl, by simp [Event.isEntry]⟩
      · exact refl e
    | setOnAlive ip a => exact setOnAlive ip a

/-- The answer of a callback, and those of its calls that go to the engine. -/
theorem answered (cb : Callback F) (cs : List (Call F)) :
    Idle w { e with log := .called cb :: e.log } (Engine.callAll { e with
      world := (w.callback cb e.world).2
      log := .returned cb (cb.goesOn (w.callback cb e.world).1.1) (w.callback cb e.world).1.2 ::
        .called cb :: e.log } cs) := by
  let e₁ : Engine ω F := { e with
    world := (w.callback cb e.world).2
    log := .returned cb (cb.goesOn (w.callback cb e.world).1.1) (w.callback cb e.world).1.2 ::
      .called cb :: e.log }
  have hreturned : Idle w { e with log := .called cb :: e.log } e₁ :=
    ⟨rfl, rfl, .of_eq rfl, .single (.callback cb e.world), [_], rfl, by simp [Event.isEntry]⟩
  exact hreturned.trans (callAll cs)

theorem kept (ct : ConnectedTarget) :
    Lvl4SM.Kept (actions w) ct (fun _ e' => Idle w e e') where
  buf := fun _ h => h
  data := fun f chunk h => h.trans ((note rfl).trans (answered (.data f ct chunk) _))
  python := fun obj buf prevPos h =>
    h.trans ((note rfl).trans (answered (.python obj ct buf prevPos) _))

theorem worked {ct : ConnectedTarget} {sm sm' : Lvl4SM F} {v : Bool}
    (h : WorksOn w ct sm e (.ok (v, sm', e'))) : Idle w e e' := by
  obtain ⟨fuel, ⟨navail, res, hr⟩ | hr⟩ := h
  · exact (kept ct).processLvl4Data (refl e) hr
  · exact (kept ct).processLoop (refl e) hr

end Idle

/-- What `target_finished` answers in the state `e` when `t` has ended. -/
def Engine.toldOf (w : World ω F) (t : Target) (e : Engine ω F) : (Bool × HostSM) × ω :=
  w.targetFinished t (e.hostsSms[t.ipv4]?.getD .new) e.world

/-- The target set was told that `t` has ended. -/
structure HostTold (w : World ω F) (t : Target) (e e' : Engine ω F) : Prop where
  world : e'.world = (e.toldOf w t).2
  host : e'.hostsSms[t.ipv4]? = if (e.toldOf w t).1.1 then none else some (e.toldOf w t).1.2
  others : ∀ ip, ip ≠ t.ipv4 → e'.hostsSms[ip]? = e.hostsSms[ip]?

/-- What `socket_finished` does to the ledger. -/
structure Settles (w : World ω F) (cfg : Config F) (s : Fd) (t : Target) (e e' : Engine ω F) :
    Prop where
  target : e.socketsTargets[s]? = some t
  targets : e'.socketsTargets = e.socketsTargets.erase s
  socks : e'.kernel.socks = e.kernel.socks.erase s
  told : ∃ e₁, KeepsHosts e e₁ ∧ Relation.ReflTransGen w.Asked e.world e₁.world ∧
    HostTold w t e₁ e'
  entries : ∃ hsm c buf err, SameEntries (.hostFinished t hsm c ::
    ((if cfg.hasFinish then [.called (.finish t buf err)] else []) ++ .socketFinished s :: e.log))
    e'.log
  log : e.log <:+ e'.log

theorem hostFinished_told (t : Target) : Runs (hostFinished w t) e
    (fun _ e' => HostTold w t e e' ∧
      (∃ hsm c, e'.log = .hostFinished t hsm c :: e.log) ∧
      e'.socketsTargets = e.socketsTargets ∧ e'.kernel = e.kernel) (fun _ _ => False) := by
  unfold hostFinished
  refine Runs.bind (hostSm_value t.ipv4) ?_
  rintro hsm _ ⟨rfl, rfl⟩
  let r := e.toldOf w t
  let hosts := (e.hostsSms.insertIfNew t.ipv4 .new).insert t.ipv4 r.1.2
  have hhosts : ∀ ip, ip ≠ t.ipv4 → hosts[ip]? = e.hostsSms[ip]? := by
    intro ip hip
    simp only [hosts, TreeMaps.getElem?_insert, TreeMaps.getElem?_insertIfNew, if_neg hip]
  refine Runs.bind (Q := fun r' e' => r' = r.1 ∧ e' =
    { e with hostsSms := e.hostsSms.insertIfNew t.ipv4 .new, world := r.2 }) ⟨rfl, rfl⟩ ?_
  rintro _ _ ⟨rfl, rfl⟩
  by_cases hr : r.1.1 = true
  · rw [if_pos hr]
    refine ⟨⟨rfl, ?_, fun ip hip => ?_⟩, ⟨_, _, rfl⟩, rfl, rfl⟩
    · change (hosts.erase t.ipv4)[t.ipv4]? = if r.1.1 then none else some r.1.2
      rw [if_pos hr, TreeMaps.getElem?_erase, if_pos rfl]
    · change (hosts.erase t.ipv4)[ip]? = _
      rw [TreeMaps.getElem?_erase, if_neg hip, hhosts ip hip]
  · rw [if_neg hr]
    refine ⟨⟨rfl, ?_, hhosts⟩, ⟨_, _, rfl⟩, rfl, rfl⟩
    change hosts[t.ipv4]? = if r.1.1 then none else some r.1.2
    rw [if_neg hr, TreeMaps.getElem?_insert, if_pos rfl]

/-- The finish callback enters one line if there is one. -/
theorem callbackFinish_idle (t : Target) (buf : List UInt8) (err : ℤ) :
    Runs (callbackFinish w cfg t buf err) e
      (fun _ e' => Idle w { e with
        log := (if cfg.hasFinish then [.called (.finish t buf err)] else []) ++ e.log } e')
      (fun _ _ => False) := by
  unfold callbackFinish
  split_ifs
  · exact Idle.answered (.finish t buf err) _
  · exact Idle.refl e

theorem socketFinished_settles {s : Fd} {err : ℤ}
    (h : (socketFinished w cfg s err).runFrom e = (.ok (), e')) : ∃ t, Settles w cfg s t e e' := by
  suffices hrun : Runs (socketFinished w cfg s err) e
      (fun _ e' => ∃ t, Settles w cfg s t e e') (fun _ _ => True) from hrun.of_ok h
  unfold socketFinished
  refine Runs.bind (Q := fun _ e' => e' = e.countFinish s) rfl ?_
  rintro _ _ rfl
  refine Runs.bind (Q := fun t e' => e' = e.countFinish s ∧ e.socketsTargets[s]? = some t)
    ((targetFromSocket_spec s).mono (fun _ _ h => h) (fun _ _ _ => trivial)) ?_
  rintro t _ ⟨rfl, ht⟩
  refine Runs.bind (NeutralRun.lvl4Sm s) (fun sm e₁ h₁ => ?_)
  refine Runs.bind ((callbackFinish_idle t sm.buf err).noFault) (fun _ e₂ h₂ => ?_)
  refine Runs.bind (Q := fun _ e₃ => Idle w e₂ e₃) (Idle.modifySm s _) (fun _ e₃ h₃ => ?_)
  refine Runs.bind ((hostFinished_told t).noFault) ?_
  rintro _ e₄ ⟨htold, ⟨hsm, c, hlog₄⟩, ht₄, hk₄⟩
  have hlog₁ : e₁.log = .socketFinished s :: e.log := h₁.1.log
  have h₂₃ := h₂.trans h₃
  have hlog : (e₄.freeSocket s).log = .hostFinished t hsm c :: e₃.log := hlog₄
  refine ⟨t, ht, ?_, ?_, ⟨e₃, ?_, h₁.1.asked.trans h₂₃.asked, ⟨htold.world, htold.host, htold.others⟩⟩,
    ⟨hsm, c, sm.buf, err, ?_⟩, ?_⟩
  · exact congrArg (·.erase s) (ht₄.trans (h₂₃.targets.trans h₁.1.targets))
  · have hk : e₄.kernel.socks = e.kernel.socks := by
      rw [hk₄]
      exact h₂₃.socks.trans h₁.1.socks
    exact congrArg (·.erase s) hk
  · exact h₁.1.hosts.trans h₂₃.hosts
  · obtain ⟨l, hl, hidle⟩ := h₂₃.log
    rw [hlog, hl, hlog₁]
    exact (SameEntries.append hidle _).cons _
  · obtain ⟨l, hl, _⟩ := h₂₃.log
    rw [hlog, hl, hlog₁]
    exact ((((List.suffix_cons _ _).trans (List.suffix_append _ _)).trans
      (List.suffix_append _ _)).trans (List.suffix_cons _ _))

/-- What a reconnection on the descriptor it closed does to the ledger. -/
structure Reopens (w : World ω F) (cfg : Config F) (s : Fd) (t : Target) (e e' : Engine ω F) :
    Prop where
  targets : e'.socketsTargets = e.socketsTargets.insertIfNew s t
  socks : e'.kernel.socks = (e.kernel.socks.erase s).insert s (some t)
  entries : ∃ buf err err', SameEntries (.reconnected s s :: .connect s t err' ::
    ((if cfg.hasFinish then [.called (.finish t buf err)] else []) ++ e.log)) e'.log

theorem announceReconnect_reopens {s : Fd} {t : Target} {buf : List UInt8}
    (h : (announceReconnect w cfg s t buf).runFrom e = (.ok (), e')) :
    e.log <:+ e'.log ∧ launchedTargets e'.log = launchedTargets e.log ∧
      ∃ s', .reconnected s s' ∈ e'.log ∧ (0 ≤ s → s = s' → Reopens w cfg s t e e') := by
  suffices hrun : Runs (announceReconnect w cfg s t buf) e (fun _ e' => e.log <:+ e'.log ∧
      launchedTargets e'.log = launchedTargets e.log ∧ ∃ s', .reconnected s s' ∈ e'.log ∧
      (0 ≤ s → s = s' → Reopens w cfg s t e e')) (fun _ _ => True) from hrun.of_ok h
  unfold announceReconnect
  refine Runs.bind ((callbackFinish_idle t buf _).noFault) (fun _ e₁ h₁ => ?_)
  refine Runs.bind (Q := fun _ e₂ => Idle w e₁ e₂) (Idle.modifySm s _) (fun _ e₂ h₂ => ?_)
  unfold reconnect
  refine Runs.bind (NeutralRun.lvl4Sm s) (fun sm e₃ h₃ => ?_)
  have hidle := (h₁.trans h₂).trans (Idle.of_neutral h₃.1)
  refine Runs.bind (Q := fun _ e' => e' = (e₃.removeConnectedSocket s).closeSocket s) rfl ?_
  rintro _ _ rfl
  refine Runs.bind ((createSocket_cases t).mono (fun _ _ h => h) (fun _ _ _ => trivial))
    (fun r e₄ h₄ => ?_)
  let noted : Engine ω F := { e₄ with log := .reconnected s r.1 :: e₄.log }
  refine Runs.bind (Q := fun _ e' => e' = noted) rfl ?_
  rintro _ _ rfl
  refine Runs.bind (NeutralRun.lvl4Sm r.1) (fun _ e₅ h₅ => ?_)
  have hlog₅ : e₅.log = .reconnected s r.1 :: e₄.log := h₅.1.log
  obtain ⟨l, hl, hquiet⟩ := hidle.log
  have hsuffix : e.log <:+ e₃.log := by
    rw [hl]
    exact (List.suffix_append _ _).trans (List.suffix_append _ _)
  have hlaunched : launchedTargets e₃.log = launchedTargets e.log := by
    rw [hl, (SameEntries.append hquiet _).launched]
    split_ifs <;> rfl
  have hlog₄ : e₃.log <:+ e₄.log ∧ launchedTargets e₄.log = launchedTargets e₃.log := by
    rcases h₄ with ⟨-, -, rfl⟩ | ⟨n, -, -, -, hreg⟩
    · exact ⟨List.suffix_refl _, rfl⟩
    · rw [hreg.log]
      exact ⟨List.suffix_cons _ _, rfl⟩
  refine ⟨?_, ?_, r.1, ?_, ?_⟩
  · change _ <:+ e₅.log
    rw [hlog₅]
    exact (hsuffix.trans hlog₄.1).trans (List.suffix_cons _ _)
  · change launchedTargets e₅.log = _
    rw [hlog₅]
    exact hlog₄.2.trans hlaunched
  · change _ ∈ e₅.log
    simp [hlog₅]
  · intro hpos hs
    rcases h₄ with ⟨rfl, -, -⟩ | ⟨n, hn, -, -, hreg⟩
    · exact absurd (hs ▸ hpos) (by norm_num)
    · rw [← hs] at hn
      subst hn
      refine ⟨?_, ?_, buf, Errors.willReconnect.code, r.2, ?_⟩
      · have htargets : ((e₃.removeConnectedSocket n).closeSocket n).socketsTargets =
            e.socketsTargets := hidle.targets
        rw [← htargets]
        exact h₅.1.targets.trans hreg.targets
      · change (Kernel.epollAdd e₅.kernel r.1 .epollout).socks = _
        rw [Kernel.epollAdd_socks, h₅.1.socks]
        change e₄.kernel.socks = _
        have hsocks : e₃.kernel.socks = e.kernel.socks := hidle.socks
        rw [hreg.socks, ← hsocks]
        rfl
      · change SameEntries _ e₅.log
        have hlog₃ : e₄.log = .connect n t r.2 :: e₃.log := hreg.log
        rw [hlog₅, ← hs, hlog₃, hl]
        exact ((SameEntries.append hquiet _).cons _).cons _

/-- What the log says about the targets, against the sockets that are registered and open. -/
structure Ledger (hasFinish : Bool) (targets : Std.ExtTreeMap Fd Target)
    (socks : Std.ExtTreeMap Fd (Option Target)) (log : List (Event F)) : Prop where
  opened : ∀ s, s ∈ targets ↔ s ∈ socks
  registered : ∀ s t, (s, t) ∈ inFlight log ↔ targets[s]? = some t
  nodup : ((inFlight log).map Prod.fst).Nodup
  balance : (launchedTargets log).Perm (endedTargets log ++ (inFlight log).map Prod.snd)
  callbacks : hasFinish = true → (endedTargets log).Sublist (finishCallbacks log) ∧
    (finishCallbacks log).length = (endedTargets log).length + reconnections log

namespace Ledger

variable {hasFinish : Bool} {targets : Std.ExtTreeMap Fd Target}
  {socks : Std.ExtTreeMap Fd (Option Target)} {log log' : List (Event F)} {s : Fd} {t : Target}

theorem empty : Ledger (F := F) hasFinish ∅ ∅ [] where
  opened := by simp
  registered := by simp [inFlight]
  nodup := List.nodup_nil
  balance := List.Perm.refl _
  callbacks := fun _ => ⟨List.Sublist.refl _, rfl⟩

theorem of_same (h : Ledger hasFinish targets socks log) (hs : SameEntries log log') :
    Ledger hasFinish targets socks log' where
  opened := h.opened
  registered := by
    rw [hs.inFlight]
    exact h.registered
  nodup := by
    rw [hs.inFlight]
    exact h.nodup
  balance := by
    rw [hs.inFlight, hs.launched, hs.ended]
    exact h.balance
  callbacks := by
    rw [hs.ended, hs.callbacks, hs.reopened]
    exact h.callbacks

theorem not_inFlight (h : Ledger hasFinish targets socks log) (hs : s ∉ socks) :
    (inFlight log).filter (·.1 ≠ s) = inFlight log := by
  rw [List.filter_eq_self]
  rintro ⟨a, t⟩ hmem
  have ha : a ∈ targets := TreeMaps.mem_of_getElem? ((h.registered a t).mp hmem)
  have hne : a ≠ s := fun heq => hs ((h.opened s).mp (heq ▸ ha))
  exact decide_eq_true hne

/-- The other entries once the one of `s` is taken out. -/
theorem perm_filter (h : Ledger hasFinish targets socks log) (hs : targets[s]? = some t) :
    (inFlight log).Perm ((s, t) :: (inFlight log).filter (·.1 ≠ s)) := by
  have hmem : (s, t) ∈ inFlight log := (h.registered s t).mpr hs
  have hrest : (inFlight log).filter (·.1 ≠ s) = (inFlight log).filter (· != (s, t)) := by
    refine List.filter_congr (fun x hx => ?_)
    obtain ⟨a, t'⟩ := x
    have hreg := (h.registered a t').mp hx
    by_cases ha : a = s
    · subst ha
      have ht : t = t' := by simpa [hs] using hreg
      simp [ht]
    · simp [ha]
  rw [hrest]
  have hnodup : (inFlight log).Nodup := h.nodup.of_map _
  rw [← hnodup.erase_eq_filter]
  exact List.perm_cons_erase hmem

theorem launch (h : Ledger hasFinish targets socks log) (hs : s ∉ socks) (err : ℤ) :
    Ledger hasFinish (targets.insertIfNew s t) (socks.insert s (some t))
      (.connect s t err :: .launched t :: log) := by
  have hst : s ∉ targets := fun hmem => hs ((h.opened s).mp hmem)
  have hflight : inFlight (.connect s t err :: .launched t :: log) = (s, t) :: inFlight log :=
    congrArg (List.cons (s, t)) (h.not_inFlight hs)
  refine ⟨fun a => ?_, fun a t' => ?_, ?_, ?_, h.callbacks⟩
  · rw [TreeMaps.mem_insertIfNew, TreeMaps.mem_insert, h.opened]
  · rw [hflight, List.mem_cons, h.registered, TreeMaps.getElem?_insertIfNew]
    by_cases ha : a = s
    · subst ha
      simp [hst, eq_comm]
    · simp [ha]
  · rw [hflight, List.map_cons, List.nodup_cons]
    refine ⟨fun hmem => ?_, h.nodup⟩
    obtain ⟨⟨a, t'⟩, hat, rfl⟩ := List.mem_map.mp hmem
    exact hst (TreeMaps.mem_of_getElem? ((h.registered a t').mp hat))
  · rw [hflight]
    exact (h.balance.cons t).trans List.perm_middle.symm

theorem settle (h : Ledger hasFinish targets socks log) (hs : targets[s]? = some t) (hsm : HostSM)
    (c : Bool) (buf : List UInt8) (err : ℤ) :
    Ledger hasFinish (targets.erase s) (socks.erase s) (.hostFinished t hsm c ::
      ((if hasFinish then [.called (.finish t buf err)] else []) ++ .socketFinished s :: log)) := by
  have hflight : inFlight (.hostFinished t hsm c ::
      ((if hasFinish then [.called (.finish t buf err)] else []) ++ .socketFinished s :: log)) =
      (inFlight log).filter (·.1 ≠ s) := by
    split_ifs <;> rfl
  have hlaunched : launchedTargets (.hostFinished t hsm c ::
      ((if hasFinish then [.called (.finish t buf err)] else []) ++ .socketFinished s :: log)) =
      launchedTargets log := by
    split_ifs <;> rfl
  have hended : endedTargets (.hostFinished t hsm c ::
      ((if hasFinish then [.called (.finish t buf err)] else []) ++ .socketFinished s :: log)) =
      t :: endedTargets log := by
    split_ifs <;> rfl
  refine ⟨fun a => ?_, fun a t' => ?_, ?_, ?_, ?_⟩
  · rw [TreeMaps.mem_erase, TreeMaps.mem_erase, h.opened]
  · rw [hflight, List.mem_filter, h.registered, TreeMaps.getElem?_erase]
    by_cases ha : a = s
    · simp [ha]
    · simp [ha]
  · rw [hflight]
    exact h.nodup.sublist (List.filter_sublist.map _)
  · rw [hflight, hlaunched, hended]
    refine h.balance.trans ?_
    exact (((h.perm_filter hs).map Prod.snd).append_left _).trans List.perm_middle
  · rintro rfl
    rw [hended]
    obtain ⟨hsub, hlen⟩ := h.callbacks rfl
    refine ⟨hsub.cons_cons t, ?_⟩
    have hfin : finishCallbacks (.hostFinished t hsm c ::
        ([.called (.finish t buf err)] ++ .socketFinished s :: log)) = t :: finishCallbacks log :=
      rfl
    have hrec : reconnections (.hostFinished t hsm c ::
        ([.called (.finish t buf err)] ++ .socketFinished s :: log)) = reconnections log := by
      simp [reconnections]
    rw [if_pos rfl, hfin, hrec, List.length_cons, List.length_cons]
    omega

theorem reopen (h : Ledger hasFinish targets socks log) (hs : targets[s]? = some t) (err' : ℤ)
    (buf : List UInt8) (err : ℤ) :
    Ledger hasFinish (targets.insertIfNew s t) ((socks.erase s).insert s (some t))
      (.reconnected s s :: .connect s t err' ::
        ((if hasFinish then [.called (.finish t buf err)] else []) ++ log)) := by
  have hmem : s ∈ targets := TreeMaps.mem_of_getElem? hs
  have hflight : inFlight (.reconnected s s :: .connect s t err' ::
      ((if hasFinish then [.called (.finish t buf err)] else []) ++ log)) =
      (s, t) :: (inFlight log).filter (·.1 ≠ s) := by
    split_ifs <;> rfl
  have hlaunched : launchedTargets (.reconnected s s :: .connect s t err' ::
      ((if hasFinish then [.called (.finish t buf err)] else []) ++ log)) =
      launchedTargets log := by
    split_ifs <;> rfl
  have hended : endedTargets (.reconnected s s :: .connect s t err' ::
      ((if hasFinish then [.called (.finish t buf err)] else []) ++ log)) = endedTargets log := by
    split_ifs <;> rfl
  have hperm := h.perm_filter hs
  rw [TreeMaps.insertIfNew_of_mem _ _ _ hmem]
  refine ⟨fun a => ?_, fun a t' => ?_, ?_, ?_, ?_⟩
  · rw [TreeMaps.mem_insert, TreeMaps.mem_erase, h.opened]
    by_cases ha : a = s
    · simp [ha, (h.opened s).mp hmem]
    · simp [ha]
  · rw [hflight, ← hperm.mem_iff, h.registered]
  · rw [hflight, ← (hperm.map Prod.fst).nodup_iff]
    exact h.nodup
  · rw [hflight, hlaunched, hended]
    exact h.balance.trans ((hperm.map Prod.snd).append_left _)
  · rintro rfl
    rw [hended]
    obtain ⟨hsub, hlen⟩ := h.callbacks rfl
    have hfin : finishCallbacks (.reconnected s s :: .connect s t err' ::
        ([.called (.finish t buf err)] ++ log)) = t :: finishCallbacks log := rfl
    have hrec : reconnections (.reconnected s s :: .connect s t err' ::
        ([.called (.finish t buf err)] ++ log)) = reconnections log + 1 := by
      simp [reconnections]
    rw [if_pos rfl, hfin, hrec, List.length_cons]
    exact ⟨hsub.cons t, by omega⟩

/-- The targets in flight are those of `_sockets_targets`. -/
theorem inFlight_perm (h : Ledger hasFinish targets socks log) :
    (inFlight log).Perm targets.toList := by
  have hkeys : targets.toList.Nodup := by
    refine targets.distinct_keys_toList.imp (fun {x y} hxy heq => hxy ?_)
    rw [heq]
    exact Std.ReflCmp.compare_self
  refine (List.perm_ext_iff_of_nodup (h.nodup.of_map _) hkeys).mpr ?_
  rintro ⟨s, t⟩
  rw [h.registered, Std.ExtTreeMap.mem_toList_iff_getElem?_eq_some]

/-- The targets launched are those that ended and those that are registered. -/
theorem launched_perm (h : Ledger hasFinish targets socks log) :
    (launchedTargets log).Perm (endedTargets log ++ targets.toList.map Prod.snd) :=
  h.balance.trans ((h.inFlight_perm.map Prod.snd).append_left _)

end Ledger

theorem SameFds.of_suffix (h : SameFds e') (hlog : e.log <:+ e'.log) : SameFds e :=
  fun s s' hmem => h s s' (hlog.subset hmem)

/-- The ledger is kept as long as every reconnection gets the descriptor it closed. -/
def KeepsLedger (cfg : Config F) (e : Engine ω F) : Prop :=
  SameFds e → Ledger cfg.hasFinish e.socketsTargets e.kernel.socks e.log

theorem KeepsLedger.idle (h : Idle w e e') (hl : KeepsLedger cfg e) : KeepsLedger cfg e' := by
  intro hsame
  obtain ⟨l, hlog, hidle⟩ := h.log
  have hold := hl (hsame.of_suffix (hlog ▸ List.suffix_append l e.log))
  rw [h.targets, h.socks, hlog]
  exact hold.of_same (SameEntries.append hidle _)

/-- A target given to `create_socket` that has a socket now. -/
structure Connects (w : World ω F) (t : Target) (r : Fd × ℤ) (e e₁ : Engine ω F) : Prop where
  fresh : r.1 ∉ e.kernel.socks
  targets : e₁.socketsTargets = e.socketsTargets.insertIfNew r.1 t
  socks : e₁.kernel.socks = e.kernel.socks.insert r.1 (some t)
  hosts : KeepsHosts e e₁
  asked : Relation.ReflTransGen w.Asked (w.nextTarget e.world).2 e₁.world
  log : e₁.log = .connect r.1 t r.2 :: .launched t :: e.log

theorem Connects.calls {t : Target} {r : Fd × ℤ} (h : Connects w t r e e') :
    connectCalls e'.log = (t, r.2) :: connectCalls e.log := by
  rw [h.log]
  rfl

theorem Connects.registered_cases {t u : Target} {r : Fd × ℤ} {a : Fd} {hasFinish : Bool}
    (h : Connects w t r e e')
    (hl : Ledger hasFinish e.socketsTargets e.kernel.socks e.log)
    (hu : e'.socketsTargets[a]? = some u) : a = r.1 ∧ u = t ∨ e.socketsTargets[a]? = some u := by
  rw [h.targets, TreeMaps.getElem?_insertIfNew] at hu
  split_ifs at hu with ha
  · have hnone : e.socketsTargets[r.1]? = none :=
      Std.ExtTreeMap.getElem?_eq_none (fun hmem => h.fresh ((hl.opened _).mp hmem))
    rw [hnone] at hu
    exact Or.inl ⟨ha, (Option.some.inj hu).symm⟩
  · exact Or.inr hu

theorem steady_asked (o : ω) :
    Steady w (fun _ => True) (fun e => Relation.ReflTransGen w.Asked o e.world) :=
  .of_world _ (fun h ho => h.tail ho)

/-- Only the end and the start of a host change what its state has counted. -/
theorem steady_hosts (e : Engine ω F) : Steady w (fun _ => True) (fun e' => KeepsHosts e e') where
  congr := fun h hh _ _ _ _ => h.trans (.of_eq hh)
  insert := fun _ h _ => h
  onAlive := fun a h _ => h.trans (.setOnAlive _ a)
  asked := fun h _ => h
  note := fun _ _ h => h
  fresh := fun h _ => h
  book := fun _ h _ => h
  freed := fun _ h => h
  call := fun _ _ h => h

theorem announceReconnect_steady {P : Engine ω F → Prop} (hP : Steady w (fun _ => True) P)
    {s : Fd} {t : Target} {buf : List UInt8} (he : P e)
    (h : (announceReconnect w cfg s t buf).runFrom e = (.ok (), e')) : P e' := by
  have hkeeps : Keeps P (announceReconnect w cfg s t buf) := by
    unfold announceReconnect
    refine Keeps.bind (hP.callbackFinish t buf _) (fun _ => ?_)
    exact Keeps.bind (hP.freeBuffer s) (fun _ => hP.reconnect s trivial)
  exact (hkeeps e he).of_ok h

theorem Given.connects {t : Target} {r : Fd × ℤ} (h : Given w cfg t (.ok r) e e')
    (hr : r ≠ (-1, EBADF)) : Connects w t r e e' := by
  have hasked := ((steady_asked _).createSocket trivial _ .refl).of_ok h.created
  have hhosts := ((steady_hosts _).createSocket trivial _ (.of_eq rfl)).of_ok h.created
  rcases (createSocket_cases t).of_ok h.created with ⟨hbad, -, -⟩ | ⟨n, hn, hfresh, -, hreg⟩
  · exact absurd hbad hr
  · rw [← hn] at hfresh
    refine ⟨hfresh, ?_, ?_, hhosts, hasked, ?_⟩
    · rw [hn, hreg.targets]
      rfl
    · rw [hn, hreg.socks]
      rfl
    · rw [hn, hreg.log]
      rfl

theorem Given.connects_of_started {t : Target} {r : Fd × ℤ} (h : Given w cfg t (.ok r) e e')
    (hs : IsStarted r) : Connects w t r e e' := by
  refine h.connects (fun hbad => ?_)
  rw [hbad] at hs
  exact absurd hs (by decide)

theorem FailedRound.connects {t : Target} (h : FailedRound w cfg t e e') :
    ∃ r e₁ t', Connects w t r e e₁ ∧ ¬ IsStarted r ∧ Settles w cfg r.1 t' e₁ e' := by
  obtain ⟨r, e₁, hgiven, hr, hf⟩ := h
  obtain ⟨t', hs⟩ := socketFinished_settles hf
  have hreg := TreeMaps.mem_of_getElem? hs.target
  refine ⟨r, e₁, t', hgiven.connects (fun hbad => ?_), hr, hs⟩
  rw [hbad] at hreg
  exact absurd (e₁.fds_nonneg _ hreg) (by norm_num)

theorem KeepsLedger.launch {t : Target} {r : Fd × ℤ} (h : Connects w t r e e')
    (hl : KeepsLedger cfg e) : KeepsLedger cfg e' := by
  intro hsame
  have hlog := h.log
  have hold := hl (hsame.of_suffix (hlog ▸ (List.suffix_cons _ _).trans (List.suffix_cons _ _)))
  rw [h.targets, h.socks, hlog]
  exact hold.launch h.fresh _

theorem KeepsLedger.settle {s : Fd} {t : Target} (h : Settles w cfg s t e e')
    (hl : KeepsLedger cfg e) : KeepsLedger cfg e' := by
  intro hsame
  obtain ⟨hsm, c, buf, err, hentries⟩ := h.entries
  have hold := hl (hsame.of_suffix h.log)
  rw [h.targets, h.socks]
  exact (hold.settle h.target hsm c buf err).of_same hentries

theorem KeepsLedger.step (h : Step w cfg e e') (hl : KeepsLedger cfg e) : KeepsLedger cfg e' := by
  cases h with
  | neutral hn => exact hl.idle (Idle.of_neutral hn)
  | marked => exact hl.idle (w := w) (Idle.note rfl)
  | saved => exact hl
  | called h => exact hl.idle (w := w) ((Idle.note (isPlain_not_entry h)).trans (Idle.answered _ _))
  | worked ht hs hw =>
    have hidle := hl.idle (Idle.worked hw)
    exact hidle
  | drawn h => exact hl
  | started h hs ha =>
    have hold := hl.launch (h.connects_of_started hs)
    have hhost := (addStarted_startsHost _ _).of_ok ha
    intro hsame
    rw [hhost.targets, hhost.socks, hhost.log]
    exact hold (hsame.of_suffix (hhost.log ▸ List.suffix_refl _))
  | refused h =>
    obtain ⟨r, e₁, t', hc, -, hs⟩ := h.connects
    exact (hl.launch hc).settle hs
  | finished h =>
    obtain ⟨t, hs⟩ := socketFinished_settles h
    exact hl.settle hs
  | reconnected ht h =>
    intro hsame
    obtain ⟨hsuffix, -, s', hmem, hre⟩ := announceReconnect_reopens h
    have hpos := e.fds_nonneg _ (TreeMaps.mem_of_getElem? ht)
    have hr := hre hpos (hsame _ _ hmem)
    obtain ⟨buf, err, err', hentries⟩ := hr.entries
    have hold := hl (hsame.of_suffix hsuffix)
    rw [hr.targets, hr.socks]
    exact (hold.reopen ht err' buf err).of_same hentries

theorem Step.suffix (h : Step w cfg e e') : e.log <:+ e'.log := by
  have hidle : ∀ {e e' : Engine ω F}, Idle w e e' → e.log <:+ e'.log := by
    intro e e' hi
    obtain ⟨l, hl, -⟩ := hi.log
    exact ⟨l, hl.symm⟩
  have hlaunch : ∀ {e e' : Engine ω F} {t r}, Connects w t r e e' → e.log <:+ e'.log := by
    intro e e' t r hc
    rw [hc.log]
    exact (List.suffix_cons _ _).trans (List.suffix_cons _ _)
  cases h with
  | neutral hn => exact hidle (Idle.of_neutral hn)
  | marked => exact List.suffix_cons _ _
  | saved => exact List.suffix_refl _
  | called h => exact hidle ((Idle.note (isPlain_not_entry h)).trans (Idle.answered _ _))
  | worked ht hs hw =>
    have hworked := hidle (Idle.worked hw)
    exact hworked
  | drawn h => exact List.suffix_refl _
  | started h hs ha =>
    rw [((addStarted_startsHost _ _).of_ok ha).log]
    exact hlaunch (h.connects_of_started hs)
  | refused h =>
    obtain ⟨r, e₁, t', hc, -, hs⟩ := h.connects
    exact (hlaunch hc).trans hs.log
  | finished h =>
    obtain ⟨t, hs⟩ := socketFinished_settles h
    exact hs.log
  | reconnected ht h => exact (announceReconnect_reopens h).1

theorem Steps.ledger {o : ω} (h : Steps w cfg (.init cfg o) e) : KeepsLedger cfg e :=
  h.invariant (I := KeepsLedger cfg) (fun _ _ hs hl => hl.step hs) (fun _ => Ledger.empty)

theorem doAsyncScan_ledger {o : ω} {n : ℕ} {b : Bool}
    (h : (doAsyncScan w cfg fuel n).runFrom (.init cfg o) = (.ok b, e)) : KeepsLedger cfg e :=
  Steps.ledger ((doAsyncScan_steps n).of_ok h)

/-- A target that was launched is registered for one socket or has ended, as often as it was
launched, and the finish callbacks are those of the targets that ended and one for each
reconnection. -/
theorem reachable_ledger (h : Reachable w cfg e) (hsame : SameFds e) :
    (launchedTargets e.log).Perm (endedTargets e.log ++ e.socketsTargets.toList.map Prod.snd) ∧
      (cfg.hasFinish = true → (endedTargets e.log).Sublist (finishCallbacks e.log) ∧
        (finishCallbacks e.log).length = (endedTargets e.log).length + reconnections e.log) := by
  obtain ⟨o, hsteps⟩ := h.steps
  have hl := hsteps.ledger hsame
  exact ⟨hl.launched_perm, hl.callbacks⟩

theorem reachable_ledger_reconnected :
    reconnections (reconnectRun 5).2.log = 1 ∧
      (launchedTargets (reconnectRun 5).2.log).Perm (endedTargets (reconnectRun 5).2.log ++
        (reconnectRun 5).2.socketsTargets.toList.map Prod.snd) ∧
      (finishCallbacks (reconnectRun 5).2.log).length =
        (endedTargets (reconnectRun 5).2.log).length + 1 := by
  have hrun := reconnectRun_reachable 5 (by decide +kernel)
  obtain ⟨hperm, hcalls⟩ := reachable_ledger hrun (by decide +kernel)
  have hone : reconnections (reconnectRun 5).2.log = 1 := by decide +kernel
  exact ⟨hone, hperm, hone ▸ (hcalls rfl).2⟩

end Nodescan
