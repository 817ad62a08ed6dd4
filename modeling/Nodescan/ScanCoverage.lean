import Nodescan.TargetLedger
import Nodescan.Enumeration

/-!
# What a whole scan has launched

The engine asks its target set for targets in between everything else it does, and tells the set
about the targets that ended. If that does not disturb the order in which the set gives its
targets, then what a run has launched is what the set gives on its own. A scan of an
`IPV4TargetSet` that comes to its end has therefore launched every pair of an address and a port
exactly once.
-/

namespace Nodescan

open FaultM EngineM

variable {ω σ F : Type}

/-- The targets among the answers of a set, without those that announce the end. -/
def givenTargets (ds : List NextTarget) : List Target :=
  ds.filterMap fun
    | .target t => if t.isEnd then none else some t
    | .wouldBlock => none

/-- States related by `R` give the same targets, and what the engine tells the set keeps them
related. -/
structure Undisturbed (ts : TargetSet σ) (R : σ → σ → Prop) : Prop where
  next : ∀ {x y}, R x y → (ts.nextTarget x).1 = (ts.nextTarget y).1 ∧
    R (ts.nextTarget x).2 (ts.nextTarget y).2
  finished : ∀ {x y} (t : Target) (hsm : HostSM), R x y → R x (ts.targetFinished t hsm y).2
  hostInit : ∀ {x y} (t : Target) (hsm : HostSM), R x y → R x (ts.initHostSm t hsm y).2

/-- The targets launched so far are those of some draws from `x`, in their order. -/
def FollowsDraws (ts : TargetSet σ) (R : σ → σ → Prop) (x : σ) (e : Engine (ω × σ) F) : Prop :=
  ∃ m, R (afterDraws ts.nextTarget m x) e.world.2 ∧
    (launchedTargets e.log).reverse = givenTargets (draws ts.nextTarget m x)

variable {w : World ω F} {cfg : Config F} {ts : TargetSet σ} {R : σ → σ → Prop} {x : σ}
  {e e' : Engine (ω × σ) F} {fuel n : ℕ}

theorem asked_withTargets {o o' : ω × σ}
    (h : Relation.ReflTransGen (w.withTargets ts).Asked o o') : o'.2 = o.2 := by
  induction h with
  | refl => rfl
  | tail _ hask ih => exact ((w.withTargets_leaves ts).of_asked hask).trans ih

theorem World.SocketsSucceed.withTargets (h : w.SocketsSucceed) (ts : TargetSet σ) :
    (w.withTargets ts).SocketsSucceed :=
  fun k p o => h k p o.1

theorem World.NeverReconnects.withTargets (h : w.NeverReconnects) (ts : TargetSet σ) :
    (w.withTargets ts).NeverReconnects :=
  fun cb o => h cb o.1

/-- `I` holds of the world and of the targets launched so far, whatever the engine asks. -/
structure LaunchInvariant (w : World ω F) (I : ω → List Target → Prop) : Prop where
  asked : ∀ {o o' l}, I o l → w.Asked o o' → I o' l
  drawn : ∀ {o l}, I o l → I (w.nextTarget o).2 (l ++ givenTargets [(w.nextTarget o).1])
  finished : ∀ {o l} (t : Target) (hsm : HostSM), I o l → I (w.targetFinished t hsm o).2 l
  hostInit : ∀ {o l} (t : Target) (hsm : HostSM), I o l → I (w.initHostSm t hsm o).2 l
  saved : ∀ {o l}, I o l → I (w.saveState o) l

namespace LaunchInvariant

variable {w : World ω F} {I : ω → List Target → Prop} {e e' : Engine ω F}
  (hI : LaunchInvariant w I)

include hI

theorem of_asked {o o' : ω} {l : List Target} (h : I o l)
    (hask : Relation.ReflTransGen w.Asked o o') : I o' l := by
  induction hask with
  | refl => exact h
  | tail _ hstep ih => exact hI.asked ih hstep

theorem idle (h : I e.world (launchedTargets e.log).reverse) (hi : Idle w e e') :
    I e'.world (launchedTargets e'.log).reverse := by
  obtain ⟨l, hlog, hidle⟩ := hi.log
  have hl : launchedTargets e'.log = launchedTargets e.log := by
    rw [hlog]
    exact (SameEntries.append hidle e.log).launched
  rw [hl]
  exact hI.of_asked h hi.asked

theorem launch (h : I e.world (launchedTargets e.log).reverse) {t : Target} {r : Fd × ℤ}
    (hc : Connects w t r e e') (hd : (w.nextTarget e.world).1 = .target t)
    (hend : t.isEnd = false) : I e'.world (launchedTargets e'.log).reverse := by
  have hl : (launchedTargets e'.log).reverse =
      (launchedTargets e.log).reverse ++ givenTargets [(w.nextTarget e.world).1] := by
    rw [hc.log, hd]
    simp [launchedTargets, givenTargets, hend]
  rw [hl]
  exact hI.of_asked (hI.drawn h) hc.asked

theorem settle (h : I e.world (launchedTargets e.log).reverse) {s : Fd} {t : Target}
    (hs : Settles w cfg s t e e') : I e'.world (launchedTargets e'.log).reverse := by
  obtain ⟨e₁, -, hasked, htold⟩ := hs.told
  obtain ⟨hsm, c, buf, err, hentries⟩ := hs.entries
  have hl : launchedTargets e'.log = launchedTargets e.log := by
    rw [hentries.launched]
    split_ifs <;> rfl
  rw [hl, htold.world]
  exact hI.finished t _ (hI.of_asked h hasked)

theorem step (h : I e.world (launchedTargets e.log).reverse) (hs : Step w cfg e e') :
    I e'.world (launchedTargets e'.log).reverse := by
  cases hs with
  | neutral hn => exact hI.idle h (Idle.of_neutral hn)
  | marked => exact hI.idle h (Idle.note rfl)
  | saved => exact hI.saved h
  | called hcb => exact hI.idle h ((Idle.note (isPlain_not_entry hcb)).trans (Idle.answered _ _))
  | worked ht hs hw =>
    have hworked := hI.idle h (Idle.worked hw)
    exact hworked
  | drawn hend =>
    have hnone : givenTargets [(w.nextTarget e.world).1] = [] := by
      rcases hd : (w.nextTarget e.world).1 with t | _
      · simp [givenTargets, hend t hd]
      · rfl
    have hdrawn := hI.drawn h
    rw [hnone, List.append_nil] at hdrawn
    exact hdrawn
  | started hg hstarted ha =>
    have hhost := (addStarted_startsHost _ _).of_ok ha
    rw [hhost.log, hhost.world]
    exact hI.hostInit _ _ (hI.launch h (hg.connects_of_started hstarted) hg.drawn hg.not_end)
  | refused hf =>
    obtain ⟨r, e₁, t', hc, -, hs⟩ := hf.connects
    obtain ⟨_, _, hg, _⟩ := hf
    exact hI.settle (hI.launch h hc hg.drawn hg.not_end) hs
  | finished hf =>
    obtain ⟨t, hs⟩ := socketFinished_settles hf
    exact hI.settle h hs
  | reconnected ht hrec =>
    rw [(announceReconnect_reopens hrec).2.1]
    exact hI.of_asked h (announceReconnect_steady (steady_asked _) .refl hrec)

theorem steps (h : I e.world (launchedTargets e.log).reverse) (hs : Steps w cfg e e') :
    I e'.world (launchedTargets e'.log).reverse :=
  hs.invariant (I := fun e => I e.world (launchedTargets e.log).reverse)
    (fun _ _ hs h => hI.step h hs) h

end LaunchInvariant

theorem Undisturbed.launchInvariant (hR : Undisturbed ts R) (w : World ω F) (x : σ) :
    LaunchInvariant (w.withTargets ts) (fun o l => ∃ m, R (afterDraws ts.nextTarget m x) o.2 ∧
      l = givenTargets (draws ts.nextTarget m x)) where
  asked := by
    rintro o o' l ⟨m, hr, hl⟩ hask
    exact ⟨m, asked_withTargets (.single hask) ▸ hr, hl⟩
  drawn := by
    rintro o l ⟨m, hr, rfl⟩
    obtain ⟨hnext, hr'⟩ := hR.next hr
    refine ⟨m + 1, ?_, ?_⟩
    · rw [Draws.afterDraws_add]
      exact hr'
    · have hlast : draws ts.nextTarget 1 (afterDraws ts.nextTarget m x) =
          [((w.withTargets ts).nextTarget o).1] := congrArg (· :: []) hnext
      rw [Draws.draws_add, hlast, givenTargets, givenTargets, givenTargets, List.filterMap_append]
  finished := by
    rintro o l t hsm ⟨m, hr, hl⟩
    exact ⟨m, hR.finished t hsm hr, hl⟩
  hostInit := by
    rintro o l t hsm ⟨m, hr, hl⟩
    exact ⟨m, hR.hostInit t hsm hr, hl⟩
  saved := fun h => h

/-- The state in which the last target was asked for, which was the end. -/
def EndsAt (w : World ω F) (cfg : Config F) (e e' : Engine ω F) : Prop :=
  ∃ e₀ t, Steps w cfg e e₀ ∧ (w.nextTarget e₀.world).1 = .target t ∧ t.isEnd = true ∧
    e' = e₀.afterDraw w

section EndsAt

variable {w : World ω F} {e e₁ e' : Engine ω F}

theorem EndsAt.after (h : EndsAt w cfg e₁ e') (hs : Steps w cfg e e₁) : EndsAt w cfg e e' := by
  obtain ⟨e₀, t, hsteps, hrest⟩ := h
  exact ⟨e₀, t, hs.trans hsteps, hrest⟩

theorem Launching.endsAt {ds : List NextTarget} {gs : List Target}
    {r : Except Fault LaunchResult × Engine ω F} (h : Launching w cfg e ds gs r)
    (hr : r.1 = .ok .noTarget) : EndsAt w cfg e r.2 := by
  induction h with
  | ended h hend => exact ⟨_, _, .refl, h, hend, rfl⟩
  | failed h _ ih => exact (ih hr).after (.single (.refused h))
  | _ => simp at hr

theorem FreeSocks.endsAt {k : ℕ} {ds : List NextTarget} {gs : List Target}
    {r : Except Fault Bool × Engine ω F} (h : FreeSocks w cfg k e ds gs r)
    (hr : r.1 = .ok false) : EndsAt w cfg e r.2 := by
  induction h with
  | noTarget h => exact h.endsAt rfl
  | next h ha _ ih =>
    obtain ⟨e₀, r, hs, hgiven, hstarted, rfl⟩ := h.steps
    exact (ih hr).after (hs.tail (.started hgiven hstarted ha))
  | _ => simp at hr

theorem processFreeSocks_endsAt
    (h : (processFreeSocks w cfg fuel).runFrom e = (.ok false, e')) : EndsAt w cfg e e' := by
  have hrun : (freeSocksLoop w cfg fuel e.availSocks).runFrom e.marked = (.ok false, e') := h
  obtain ⟨ds, gs, hfree⟩ := freeSocksLoop_freeSocks w cfg fuel e.availSocks e.marked
  rw [hrun] at hfree
  exact (hfree.endsAt rfl).after (.single (.marked e))

/-- The `break` is taken right after the end was drawn. -/
theorem scanPass_endsAt (h : (scanPass w cfg fuel).runFrom e = (.ok true, e')) :
    EndsAt w cfg e e' := by
  obtain ⟨nfds, e₁, h₁, h⟩ := bind_eq_ok.mp h
  obtain ⟨nValid, e₂, h₂, h⟩ := bind_eq_ok.mp h
  obtain ⟨more, e₃, h₃, h⟩ := bind_eq_ok.mp h
  have hs := (StepRun.processEvents.of_ok h₁).trans (StepRun.processDirtyAndTimeouts.of_ok h₂)
  by_cases hend : nfds = 0 ∧ nValid = 0 ∧ more = false
  · rw [if_pos hend] at h
    obtain ⟨-, rfl⟩ := Prod.mk.inj h
    rw [hend.2.2] at h₃
    exact (processFreeSocks_endsAt h₃).after hs
  · rw [if_neg hend] at h
    obtain ⟨_, e₄, h₄, h⟩ := bind_eq_ok.mp h
    obtain ⟨_, e₅, h₅, h⟩ := bind_eq_ok.mp h
    obtain ⟨hb, -⟩ := Prod.mk.inj h
    simp at hb

theorem scanLoop_endsAt (h : (scanLoop w cfg fuel n).runFrom e = (.ok true, e')) :
    EndsAt w cfg e e' := by
  induction n generalizing e with
  | zero => simp [scanLoop] at h
  | succ n ih =>
    obtain ⟨b, e₁, h₁, h⟩ := bind_eq_ok.mp h
    cases b with
    | true =>
      obtain ⟨-, rfl⟩ := Prod.mk.inj h
      exact scanPass_endsAt h₁
    | false => exact (ih h).after (scanPass_steps.of_ok h₁)

theorem doAsyncScan_endsAt (h : (doAsyncScan w cfg fuel n).runFrom e = (.ok true, e')) :
    EndsAt w cfg e e' := by
  obtain ⟨_, e₁, h₁, hbody⟩ := bind_eq_ok.mp h
  obtain ⟨_, e₂, h₂, hloop⟩ := bind_eq_ok.mp hbody
  obtain ⟨-, rfl⟩ := Prod.mk.inj h₁
  refine (scanLoop_endsAt hloop).after (Relation.ReflTransGen.head ?_ (processFreeSocks_steps.of_ok h₂))
  exact .neutral (Neutral.of_eq rfl rfl rfl rfl rfl rfl)

end EndsAt

/-- What a scan that came to its end has launched is what the set gives up to its end. -/
theorem launch_draws (hR : Undisturbed ts R) (o : ω) (hx : R (ts.init x) (ts.init x))
    (h : (launch (w.withTargets ts) cfg fuel n).runFrom (.init cfg (o, x)) = (.ok true, e')) :
    ∃ m t, (ts.nextTarget (afterDraws ts.nextTarget m (ts.init x))).1 = .target t ∧
      t.isEnd = true ∧
      (launchedTargets e'.log).reverse = givenTargets (draws ts.nextTarget m (ts.init x)) := by
  have hscan : (doAsyncScan (w.withTargets ts) cfg fuel n).runFrom
      (.init cfg (o, ts.init x)) = (.ok true, e') := h
  obtain ⟨e₀, t, hsteps, hdraw, hend, rfl⟩ := doAsyncScan_endsAt hscan
  have hstart : FollowsDraws ts R (ts.init x) (Engine.init (F := F) cfg (o, ts.init x)) :=
    ⟨0, hx, rfl⟩
  obtain ⟨m, hr, hm⟩ := (hR.launchInvariant w (ts.init x)).steps hstart hsteps
  exact ⟨m, t, (hR.next hr).1.trans hdraw, hend, hm⟩

theorem no_reconnection_of_moves {w : World ω F} {e e' : Engine ω F} (hw : w.NeverReconnects)
    (h : Moves w e e') (ha : Accounts cfg e) (hn : ∀ s s', .reconnected s s' ∉ e.log) :
    ∀ s s', .reconnected s s' ∉ e'.log := by
  refine (Moves.invariant (I := fun e => Accounts cfg e ∧ ∀ s s', .reconnected s s' ∉ e.log)
    (fun e e' hm hi => ⟨hi.1.of_move hw hm, fun s s' hmem => ?_⟩) h ⟨ha, hn⟩).2
  have hold := hi.2 s s'
  cases hm with
  | quiet h =>
    obtain ⟨l, hl, hq⟩ := h.log
    rw [hl, List.mem_append] at hmem
    rcases hmem with hmem | hmem
    · exact absurd (hq _ hmem) (by simp [Event.isQuiet])
    · exact hold hmem
  | mark => simp [hold] at hmem
  | status => simp [hold] at hmem
  | touch hs hnew h =>
    rw [h.log] at hmem
    exact hold hmem
  | launch hnew hav h =>
    rw [h.log] at hmem
    simp [Engine.countLaunch, hold] at hmem
  | finish h =>
    obtain ⟨l, hl, hq⟩ := h.log
    rw [hl, List.mem_append] at hmem
    rcases hmem with hmem | hmem
    · exact absurd (hq _ hmem) (by simp [Event.isQuiet])
    · simp [hold] at hmem
  | reconnect hs hq h => exact absurd hs (hi.1.calm _)

theorem reconnections_eq_zero {log : List (Event F)} (h : ∀ s s', .reconnected s s' ∉ log) :
    reconnections log = 0 := by
  rw [reconnections, List.countP_eq_zero]
  intro ev hev
  cases ev with
  | reconnected s s' => exact absurd hev (h s s')
  | _ => simp

namespace IPV4TargetSet

variable {γ δ ρ : Type} {lib : Leeloo γ δ ρ}

/-- The sets stand at the same point of the same enumeration; the steps marked done may differ. -/
structure SameDraws (lib : Leeloo γ δ ρ) (ts ts' : IPV4TargetSet γ δ ρ) : Prop where
  ipv4s : ts'.ipv4s = ts.ipv4s
  ports : ts'.ports = ts.ports
  randPort : ts'.randPort = ts.randPort
  mtRandPorts : ts'.mtRandPorts = ts.mtRandPorts
  order : lib.v4.order ts'.randV4 = lib.v4.order ts.randV4
  todo : lib.v4.todo ts'.randV4 = lib.v4.todo ts.randV4
  perm : (lib.v4.order ts.randV4).Perm ts.ipv4s

theorem SameDraws.advance {ts ts' : IPV4TargetSet γ δ ρ} (h : SameDraws lib ts ts') :
    SameDraws lib (ts.advance lib) (ts'.advance lib) := by
  unfold IPV4TargetSet.advance
  rw [h.randPort]
  split_ifs
  · refine ⟨h.ipv4s, h.ports, ?_, ?_, ?_, ?_, ?_⟩
    · simp only [h.ports, h.mtRandPorts]
    · simp only [h.ports, h.mtRandPorts]
    · simp only [lib.v4.next_order, h.order]
    · simp only [lib.v4.next_todo, h.todo]
    · simpa only [lib.v4.next_order] using h.perm
  · exact h

theorem SameDraws.isEnd {ts ts' : IPV4TargetSet γ δ ρ} (h : SameDraws lib ts ts') :
    lib.v4.isEnd ts'.randV4 = lib.v4.isEnd ts.randV4 := by
  rw [Bool.eq_iff_iff, lib.v4.isEnd_iff, lib.v4.isEnd_iff, h.todo]

theorem SameDraws.getCurrent {ts ts' : IPV4TargetSet γ δ ρ} (h : SameDraws lib ts ts')
    (hne : ¬ lib.v4.isEnd ts.randV4 = true) :
    lib.v4.getCurrent ts'.ipv4s ts'.randV4 = lib.v4.getCurrent ts.ipv4s ts.randV4 := by
  rw [lib.v4.isEnd_iff] at hne
  obtain ⟨k, l, hkl⟩ := List.exists_cons_of_ne_nil hne
  have hget := lib.v4.getCurrent_eq h.perm hkl
  have hperm : (lib.v4.order ts'.randV4).Perm ts'.ipv4s := by
    rw [h.order, h.ipv4s]
    exact h.perm
  have hget' := lib.v4.getCurrent_eq hperm (h.todo.trans hkl)
  rw [h.order, hget] at hget'
  exact (Option.some.inj hget').symm

theorem SameDraws.nextTarget {ts ts' : IPV4TargetSet γ δ ρ} (h : SameDraws lib ts ts') :
    (ts'.nextTarget lib).1 = (ts.nextTarget lib).1 ∧
      SameDraws lib (ts.nextTarget lib).2 (ts'.nextTarget lib).2 := by
  have ha := h.advance
  simp only [IPV4TargetSet.nextTarget, ha.isEnd]
  split_ifs with hend
  · exact ⟨rfl, ha⟩
  · simp only [ha.getCurrent hend, ha.ports, ha.randPort]
    exact ⟨trivial, ha.ipv4s, rfl, rfl, ha.mtRandPorts, ha.order, ha.todo, ha.perm⟩

theorem undisturbed (lib : Leeloo γ δ ρ) (stray : ℕ) :
    Undisturbed (targetSet lib stray) (SameDraws lib) where
  next := fun h => ⟨congrArg NextTarget.target h.nextTarget.1.symm, h.nextTarget.2⟩
  finished := by
    intro ts ts' t hsm h
    simp only [targetSet, targetFinished]
    split_ifs
    · refine ⟨h.ipv4s, h.ports, h.randPort, h.mtRandPorts, ?_, ?_, h.perm⟩
      · simp only [lib.v4.stepDone_order, h.order]
      · simp only [lib.v4.stepDone_todo, h.todo]
    · exact h
  hostInit := fun _ _ h => h

/-- The draws of the engine are those of the set. -/
theorem targetSet_draws (lib : Leeloo γ δ ρ) (stray m : ℕ) (ts : IPV4TargetSet γ δ ρ) :
    draws (targetSet lib stray).nextTarget m ts = (draws (nextTarget lib) m ts).map .target ∧
      afterDraws (targetSet lib stray).nextTarget m ts = afterDraws (nextTarget lib) m ts :=
  Draws.draws_map NextTarget.target (nextTarget lib) _ (fun _ => rfl) m ts

theorem givenTargets_map_target {l : List Target} (h : ∀ t ∈ l, t.isEnd = false) :
    givenTargets (l.map .target) = l := by
  induction l with
  | nil => rfl
  | cons t l ih =>
    have ht := h t (by simp)
    have hrest := ih (fun t ht => h t (by simp [ht]))
    simp only [givenTargets] at hrest ⊢
    simp [ht, hrest]

theorem givenTargets_map_end {l : List Target} (h : ∀ t ∈ l, t.isEnd = true) :
    givenTargets (l.map .target) = [] := by
  rw [givenTargets, List.filterMap_eq_nil_iff]
  simp only [List.mem_map]
  rintro _ ⟨t, ht, rfl⟩
  simp [h t ht]

/-- From `init()` on, the draws are the product and then the end. -/
theorem init_enumerates (lib : Leeloo γ δ ρ) (ts : IPV4TargetSet γ δ ρ)
    (hl : Enumerable ts.ipv4s ts.ports) :
    CompleteEnumeration ts.ipv4s ts.ports
        (draws (nextTarget lib) (ts.ipv4s.length * ts.ports.length) (ts.init lib)) ∧
      ∀ n, ts.ipv4s.length * ts.ports.length ≤ n →
        ((afterDraws (nextTarget lib) n (ts.init lib)).nextTarget lib).1 = .endMark := by
  have hfresh : Fresh lib ts.ipv4s ts.ports (ts.init lib) := init_fresh rfl rfl
  obtain ⟨henum, ⟨k, hend⟩, hsame⟩ := hfresh.enumerates hl
  refine ⟨henum, fun n hn => ?_⟩
  obtain ⟨m, rfl⟩ := Nat.exists_eq_add_of_le hn
  rw [Draws.afterDraws_add]
  exact hend.end_stays (by rw [hsame.ports]; exact hl.ports_ne) m

/-- The set gives the product and nothing after it. -/
theorem givenTargets_draws (lib : Leeloo γ δ ρ) (ts : IPV4TargetSet γ δ ρ)
    (hl : Enumerable ts.ipv4s ts.ports) (hres : NoneReserved ts.ipv4s ts.ports) {m : ℕ}
    (hm : ts.ipv4s.length * ts.ports.length ≤ m) :
    givenTargets ((draws (nextTarget lib) m (ts.init lib)).map .target) =
      draws (nextTarget lib) (ts.ipv4s.length * ts.ports.length) (ts.init lib) := by
  obtain ⟨henum, hpast⟩ := init_enumerates lib ts hl
  obtain ⟨k, rfl⟩ := Nat.exists_eq_add_of_le hm
  have hrest : ∀ t ∈ draws (nextTarget lib) k
      (afterDraws (nextTarget lib) (ts.ipv4s.length * ts.ports.length) (ts.init lib)),
      t.isEnd = true := by
    intro t ht
    obtain ⟨i, hi, rfl⟩ := List.mem_iff_getElem.mp ht
    have hlen : (draws (nextTarget lib) k
        (afterDraws (nextTarget lib) (ts.ipv4s.length * ts.ports.length)
          (ts.init lib))).length = k := Draws.length_draws k _
    have hget := Draws.getElem?_draws (nextTarget lib)
      (afterDraws (nextTarget lib) (ts.ipv4s.length * ts.ports.length) (ts.init lib))
      (hlen ▸ hi)
    rw [List.getElem?_eq_getElem hi, Option.some.injEq, ← Draws.afterDraws_add,
      hpast _ (Nat.le_add_right _ _)] at hget
    rw [hget]
    rfl
  rw [Draws.draws_add, List.map_append, givenTargets, List.filterMap_append]
  change givenTargets _ ++ givenTargets _ = _
  rw [givenTargets_map_target (fun t ht => henum.not_isEnd hres ht),
    givenTargets_map_end hrest, List.append_nil]

/-- A set that has come to its end has given the product. -/
theorem givenTargets_complete (lib : Leeloo γ δ ρ) (stray : ℕ) (ts : IPV4TargetSet γ δ ρ)
    (hl : Enumerable ts.ipv4s ts.ports) (hres : NoneReserved ts.ipv4s ts.ports) {m : ℕ}
    {t : Target} (hdraw : ((targetSet lib stray).nextTarget
      (afterDraws (targetSet lib stray).nextTarget m (ts.init lib))).1 = .target t)
    (hend : t.isEnd = true) : CompleteEnumeration ts.ipv4s ts.ports
      (givenTargets (draws (targetSet lib stray).nextTarget m (ts.init lib))) := by
  obtain ⟨hmap, hafter⟩ := targetSet_draws lib stray m (ts.init lib)
  rw [hafter] at hdraw
  rw [hmap]
  have ht : (nextTarget lib (afterDraws (nextTarget lib) m (ts.init lib))).1 = t :=
    NextTarget.target.inj hdraw
  obtain ⟨henum, -⟩ := init_enumerates lib ts hl
  have hm : ts.ipv4s.length * ts.ports.length ≤ m := by
    by_contra hlt
    have hmem := List.mem_of_getElem?
      (Draws.getElem?_draws (nextTarget lib) (ts.init lib) (Nat.lt_of_not_le hlt))
    rw [ht] at hmem
    exact absurd (henum.not_isEnd hres hmem) (by simp [hend])
  rw [givenTargets_draws lib ts hl hres hm]
  exact henum

/-- Whatever was drawn, a beginning of the product was given. -/
theorem givenTargets_begin (lib : Leeloo γ δ ρ) (ts : IPV4TargetSet γ δ ρ)
    (hl : Enumerable ts.ipv4s ts.ports) (hres : NoneReserved ts.ipv4s ts.ports) (m : ℕ) :
    givenTargets ((draws (nextTarget lib) m (ts.init lib)).map .target) <+:
      draws (nextTarget lib) (ts.ipv4s.length * ts.ports.length) (ts.init lib) := by
  rcases Nat.le_total (ts.ipv4s.length * ts.ports.length) m with hm | hm
  · rw [givenTargets_draws lib ts hl hres hm]
  · obtain ⟨henum, -⟩ := init_enumerates lib ts hl
    obtain ⟨k, hk⟩ := Nat.exists_eq_add_of_le hm
    have hsplit : draws (nextTarget lib) (m + k) (ts.init lib) = _ := Draws.draws_add m k _
    rw [hk, hsplit] at henum ⊢
    have hgiven := givenTargets_map_target (l := draws (nextTarget lib) m (ts.init lib))
      (fun t ht => henum.not_isEnd hres (List.mem_append_left _ ht))
    rw [hgiven]
    exact List.prefix_append _ _

variable {stray : ℕ} {e' : Engine (ω × IPV4TargetSet γ δ ρ) F}

theorem launch_complete (w : World ω F) (cfg : Config F) (lib : Leeloo γ δ ρ) (stray : ℕ)
    (o : ω) (ts : IPV4TargetSet γ δ ρ) (hl : Enumerable ts.ipv4s ts.ports)
    (hres : NoneReserved ts.ipv4s ts.ports)
    (h : (launch (w.withTargets (targetSet lib stray)) cfg fuel n).runFrom (.init cfg (o, ts)) =
      (.ok true, e')) :
    CompleteEnumeration ts.ipv4s ts.ports (launchedTargets e'.log).reverse := by
  have hx : SameDraws lib (ts.init lib) (ts.init lib) :=
    ⟨rfl, rfl, rfl, rfl, rfl, rfl, lib.v4.init_order _ _⟩
  obtain ⟨m, t, hdraw, hend, hlaunched⟩ := launch_draws (undisturbed lib stray) o hx h
  rw [hlaunched]
  exact givenTargets_complete lib stray ts hl hres hdraw hend

/-- A scan that comes to its end has launched every pair of an address and a port once, and each
of them has ended or is registered for a socket. -/
theorem scan_launches_product (w : World ω F) (cfg : Config F) (lib : Leeloo γ δ ρ) (stray : ℕ)
    (o : ω) (ts : IPV4TargetSet γ δ ρ) (hl : Enumerable ts.ipv4s ts.ports)
    (hres : NoneReserved ts.ipv4s ts.ports)
    (h : (launch (w.withTargets (targetSet lib stray)) cfg fuel n).runFrom (.init cfg (o, ts)) =
      (.ok true, e')) :
    CompleteEnumeration ts.ipv4s ts.ports (launchedTargets e'.log).reverse ∧
      (SameFds e' → ((ts.ipv4s ×ˢ ts.ports).map fun x => (⟨x.1, x.2⟩ : Target)).Perm
        (endedTargets e'.log ++ e'.socketsTargets.toList.map Prod.snd)) := by
  have hcomplete := launch_complete w cfg lib stray o ts hl hres h
  refine ⟨hcomplete, fun hsame => ?_⟩
  have hscan : (doAsyncScan (w.withTargets (targetSet lib stray)) cfg fuel n).runFrom
      (.init cfg (o, ts.init lib)) = (.ok true, e') := h
  have hledger := doAsyncScan_ledger hscan hsame
  exact hcomplete.perm.symm.trans ((List.reverse_perm _).trans hledger.launched_perm)

/-- The finish callback was called once for every pair exactly if every `connect` of the last call
of `process_free_socks` failed at once. -/
theorem scan_finishes_product_iff (hsocks : w.SocketsSucceed) (hnever : w.NeverReconnects)
    (hfin : cfg.hasFinish = true) (o : ω) (ts : IPV4TargetSet γ δ ρ)
    (hl : Enumerable ts.ipv4s ts.ports) (hres : NoneReserved ts.ipv4s ts.ports)
    (h : (launch (w.withTargets (targetSet lib stray)) cfg fuel n).runFrom (.init cfg (o, ts)) =
      (.ok true, e')) :
    (finishCallbacks e'.log).Perm ((ts.ipv4s ×ˢ ts.ports).map fun x => ⟨x.1, x.2⟩) ↔
      ∀ ev ∈ lastFreeSocks e'.log, ev.connectOk = false := by
  have hscan : (doAsyncScan (w.withTargets (targetSet lib stray)) cfg fuel n).runFrom
      (.init cfg (o, ts.init lib)) = (.ok true, e') := h
  have hs := hsocks.withTargets (targetSet lib stray)
  have hw := hnever.withTargets (targetSet lib stray)
  obtain ⟨e₁, hm, hold, b, hfree⟩ := doAsyncScan_break hs _ hscan
  have hmoves := hm.trans (processFreeSocks_moves hs hfree)
  have hinit : Accounts cfg (Engine.init cfg (o, ts.init lib)) := Accounts.init _
  obtain ⟨ha, -⟩ := accounts_and_traced_of_moves hw hmoves hinit (Traced.init _)
  have hnone := no_reconnection_of_moves hw hmoves hinit (by simp [Engine.init])
  have hsame : SameFds e' := fun s s' hmem => absurd hmem (hnone s s')
  have hledger := doAsyncScan_ledger hscan hsame
  have hcomplete := launch_complete w cfg lib stray o ts hl hres h
  have hproduct := hcomplete.perm.symm.trans ((List.reverse_perm _).trans hledger.launched_perm)
  have hcalls : endedTargets e'.log = finishCallbacks e'.log := by
    obtain ⟨hsub, hlen⟩ := hledger.callbacks hfin
    rw [reconnections_eq_zero hnone] at hlen
    exact hsub.eq_of_length hlen.symm
  rw [hcalls] at hproduct
  -- the sockets that are left are those the last call has started
  obtain ⟨ss, -, hlaunches⟩ := (processFreeSocks_launches hs).of_ok hfree
  obtain ⟨l, hlog, hmark, hok⟩ := hlaunches.log
  have hlast : lastFreeSocks e'.log = l := by
    rw [hlog]
    exact lastFreeSocks_append hmark e₁.log
  rw [hlast, ← hok]
  constructor
  · intro hperm
    have hlen := (hperm.trans hproduct).length_eq
    rw [List.length_append, List.length_map, Std.ExtTreeMap.length_toList] at hlen
    have hempty : e'.socketsTargets = ∅ :=
      Std.ExtTreeMap.eq_empty_iff_size_eq_zero.mpr (by omega)
    rw [List.eq_nil_iff_forall_not_mem]
    intro s hstarted
    have hreg := (ha.registry.targets s).mpr (hlaunches.started s hstarted).1
    rw [hempty] at hreg
    simp at hreg
  · rintro rfl
    have hempty : e'.socketsTargets = ∅ := by
      rw [Std.ExtTreeMap.eq_empty_iff_forall_not_mem]
      intro s hreg
      have hvalid := ha.valid s ((ha.registry.targets s).mp hreg)
      rcases hlaunches.new s hvalid with hv | hmem
      · exact hold s hv
      · simp at hmem
    have hnil : e'.socketsTargets.toList = [] := by
      rw [hempty]
      rfl
    rw [hnil, List.map_nil, List.append_nil] at hproduct
    exact hproduct.symm

/-- At most `n` rounds of the scan of two addresses and two ports with `k` sockets, where nothing
ever answers. -/
def smallScan (k : UInt32) (n : ℕ) :
    Except Fault Bool × Engine (Script × IPV4TargetSet InOrder (List Port × ℕ) Unit) Unit :=
  (launch ((Script.world Script.goOn).withTargets (targetSet Leeloo.inOrder 0)) (.plain k) 6 n).runFrom
    (.init (.plain k) (silentScript 0, small))

theorem smallScan_eq {k : UInt32} {n : ℕ} {b : Bool} (h : (smallScan k n).1 = .ok b) :
    (launch ((Script.world Script.goOn).withTargets (targetSet Leeloo.inOrder 0)) (.plain k) 6
      n).runFrom (.init (.plain k) (silentScript 0, small)) = (.ok b, (smallScan k n).2) :=
  Prod.ext h rfl

theorem scan_launches_product_small :
    (smallScan 2 4).1 = .ok true ∧ SameFds (smallScan 2 4).2 ∧
      CompleteEnumeration [1, 2] [⟨80, .tcp⟩, ⟨443, .tcp⟩]
        (launchedTargets (smallScan 2 4).2.log).reverse := by
  have hok : (smallScan 2 4).1 = .ok true := by decide +kernel
  exact ⟨hok, by decide +kernel, (scan_launches_product _ _ _ _ _ small
    ⟨by decide, by decide, by decide, by decide⟩ (by decide) (smallScan_eq hok)).1⟩

theorem scan_finishes_product_small :
    (finishCallbacks (smallScan 2 4).2.log).Perm
      (([1, 2] ×ˢ [⟨80, .tcp⟩, ⟨443, .tcp⟩]).map fun x => ⟨x.1, x.2⟩) := by
  have hok : (smallScan 2 4).1 = .ok true := by decide +kernel
  exact (scan_finishes_product_iff (Script.world_socketsSucceed _) Script.goOn_neverReconnects rfl _
    small ⟨by decide, by decide, by decide, by decide⟩ (by decide) (smallScan_eq hok)).mpr
    (by decide +kernel)

end IPV4TargetSet

end Nodescan
