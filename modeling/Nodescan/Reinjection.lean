import Nodescan.ScanCoverage

/-!
# Targets that are added during a scan

Callbacks may add targets to a `ReinjectableTargetSet` while the engine draws from it: those added
come first, and when there are none the set under it gives its next target. The scan comes to its
end only when both have nothing left. So whatever the callbacks add and whenever they do, a scan
that has ended has launched all targets that were added, in the order they were added, in between
all targets of the set in their order.
-/

namespace Nodescan

open FaultM EngineM

variable {ω σ F : Type}

/-- A `ReinjectableTargetSet` in use. `added` is not in the source: it lists all targets ever
added. -/
structure Reinjected (σ : Type) where
  added : List Target
  queue : List Target
  set : σ

namespace Reinjected

def addTargets (ts : List Target) (x : Reinjected σ) : Reinjected σ :=
  { x with added := x.added ++ ts, queue := x.queue ++ ts }

def start (ts : List Target) (set : σ) : Reinjected σ := ⟨ts, ts, set⟩

end Reinjected

/-- `ReinjectableTargetSet`, with the list of what was added. -/
def TargetSet.reinjected (ts : TargetSet σ) : TargetSet (Reinjected σ) where
  init x := ⟨x.added, (ts.reinjectable.init (x.queue, x.set)).1,
    (ts.reinjectable.init (x.queue, x.set)).2⟩
  nextTarget x :=
    let r := ts.reinjectable.nextTarget (x.queue, x.set)
    (r.1, ⟨x.added, r.2.1, r.2.2⟩)
  targetFinished t hsm x :=
    let r := ts.reinjectable.targetFinished t hsm (x.queue, x.set)
    (r.1, ⟨x.added, r.2.1, r.2.2⟩)
  initHostSm t hsm x :=
    let r := ts.reinjectable.initHostSm t hsm (x.queue, x.set)
    (r.1, ⟨x.added, r.2.1, r.2.2⟩)

/-- The world `w` over a `ReinjectableTargetSet`, where a callback adds the targets `adds`. -/
def World.reinjecting (w : World ω F) (ts : TargetSet σ) (adds : Callback F → ω → List Target) :
    World (ω × Reinjected σ) F :=
  w.changing ts.reinjected (fun cb o x => x.addTargets (adds cb o))

/-- The targets added have been launched up to those in the queue, in between the targets of some
draws from `x`. -/
structure FollowsBoth (ts : TargetSet σ) (R : σ → σ → Prop) (x : σ) (r : Reinjected σ)
    (launched : List Target) (taken : List Target) (m : ℕ) : Prop where
  added : r.added = taken ++ r.queue
  set : R (afterDraws ts.nextTarget m x) r.set
  launched : Interleaved taken (givenTargets (draws ts.nextTarget m x)) launched
  not_end : ∀ t ∈ r.queue, t.isEnd = false

variable {ts : TargetSet σ} {R : σ → σ → Prop} {x : σ} {r : Reinjected σ} {l taken : List Target}
  {m : ℕ}

theorem FollowsBoth.add (h : FollowsBoth ts R x r l taken m) {new : List Target}
    (hnew : ∀ t ∈ new, t.isEnd = false) : FollowsBoth ts R x (r.addTargets new) l taken m where
  added := by
    rw [Reinjected.addTargets, h.added, List.append_assoc]
  set := h.set
  launched := h.launched
  not_end := by
    intro t ht
    rcases List.mem_append.mp ht with hq | hn
    · exact h.not_end t hq
    · exact hnew t hn

theorem FollowsBoth.draw (hR : Undisturbed ts R) (h : FollowsBoth ts R x r l taken m) :
    ∃ taken' m', FollowsBoth ts R x (ts.reinjected.nextTarget r).2
      (l ++ givenTargets [(ts.reinjected.nextTarget r).1]) taken' m' := by
  obtain ⟨added, queue, set⟩ := r
  cases queue with
  | cons t queue =>
    have ht : t.isEnd = false := h.not_end t List.mem_cons_self
    refine ⟨taken ++ [t], m, ?_, h.set, ?_, fun u hu => h.not_end u (List.mem_cons_of_mem t hu)⟩
    · change added = (taken ++ [t]) ++ queue
      rw [List.append_assoc]
      exact h.added
    · have hgiven : givenTargets [(ts.reinjected.nextTarget ⟨added, t :: queue, set⟩).1] = [t] := by
        simp [givenTargets, TargetSet.reinjected, TargetSet.reinjectable, ht]
      rw [hgiven]
      exact h.launched.append_left [t]
  | nil =>
    obtain ⟨hnext, hr⟩ := hR.next h.set
    refine ⟨taken, m + 1, h.added, ?_, ?_, by simp [TargetSet.reinjected, TargetSet.reinjectable]⟩
    · rw [Draws.afterDraws_add]
      exact hr
    · have hlast : draws ts.nextTarget 1 (afterDraws ts.nextTarget m x) =
          [(ts.reinjected.nextTarget ⟨added, [], set⟩).1] := congrArg (· :: []) hnext
      rw [Draws.draws_add, hlast, givenTargets, List.filterMap_append]
      exact h.launched.append_right _

/-- Whatever the callbacks add, no end mark among it. -/
theorem Undisturbed.reinjecting (hR : Undisturbed ts R) (w : World ω F)
    {adds : Callback F → ω → List Target} (hadds : ∀ cb o, ∀ t ∈ adds cb o, t.isEnd = false)
    (x : σ) :
    LaunchInvariant (w.reinjecting ts adds)
      (fun o l => ∃ taken m, FollowsBoth ts R x o.2 l taken m) where
  asked := by
    rintro o o' l ⟨taken, m, h⟩ hask
    cases hask with
    | callback cb => exact ⟨taken, m, h.add (hadds cb o.1)⟩
    | _ => exact ⟨taken, m, h⟩
  drawn := by
    rintro o l ⟨taken, m, h⟩
    exact h.draw hR
  finished := by
    rintro o l t hsm ⟨taken, m, h⟩
    exact ⟨taken, m, h.added, hR.finished t hsm h.set, h.launched, h.not_end⟩
  hostInit := by
    rintro o l t hsm ⟨taken, m, h⟩
    exact ⟨taken, m, h.added, hR.hostInit t hsm h.set, h.launched, h.not_end⟩
  saved := fun h => h

section End

variable {w : World ω F} {cfg : Config F} {fuel n : ℕ} {adds : Callback F → ω → List Target}
  {q : List Target} {e' : Engine (ω × Reinjected σ) F}

theorem FollowsBoth.at_end (hR : Undisturbed ts R) (h : FollowsBoth ts R x r l taken m) {t : Target}
    (hd : (ts.reinjected.nextTarget r).1 = .target t) (hend : t.isEnd = true) :
    r.queue = [] ∧ (ts.nextTarget (afterDraws ts.nextTarget m x)).1 = .target t := by
  obtain ⟨added, queue, set⟩ := r
  cases queue with
  | nil => exact ⟨rfl, (hR.next h.set).1.trans hd⟩
  | cons u queue =>
    have hu : u.isEnd = false := h.not_end u List.mem_cons_self
    have hut : u = t := NextTarget.target.inj hd
    rw [hut, hend] at hu
    simp at hu

/-- A scan that has come to its end has launched all targets that were added and all targets of the
set, each in their order. -/
theorem reinjecting_interleaves (hR : Undisturbed ts R)
    (hadds : ∀ cb o, ∀ t ∈ adds cb o, t.isEnd = false) (hq : ∀ t ∈ q, t.isEnd = false) (o : ω)
    (hx : R (ts.init x) (ts.init x))
    (h : (launch (w.reinjecting ts adds) cfg fuel n).runFrom (.init cfg (o, .start q x)) =
      (.ok true, e')) :
    ∃ m t, (ts.nextTarget (afterDraws ts.nextTarget m (ts.init x))).1 = .target t ∧
      t.isEnd = true ∧ Interleaved e'.world.2.added
        (givenTargets (draws ts.nextTarget m (ts.init x))) (launchedTargets e'.log).reverse := by
  have hscan : (doAsyncScan (w.reinjecting ts adds) cfg fuel n).runFrom
      (.init cfg (o, .start q (ts.init x))) = (.ok true, e') := h
  obtain ⟨e₀, t, hsteps, hdraw, hend, rfl⟩ := doAsyncScan_endsAt hscan
  have hstart : FollowsBoth ts R (ts.init x) (.start q (ts.init x)) [] [] 0 :=
    ⟨rfl, hx, .nil, hq⟩
  obtain ⟨taken, m, hboth⟩ := (hR.reinjecting w hadds (ts.init x)).steps ⟨[], 0, hstart⟩ hsteps
  obtain ⟨hqueue, hlast⟩ := hboth.at_end hR hdraw hend
  refine ⟨m, t, hlast, hend, ?_⟩
  have hadded : ((e₀.afterDraw (w.reinjecting ts adds)).world.2).added = taken := by
    change e₀.world.2.added = taken
    rw [hboth.added, hqueue, List.append_nil]
  rw [hadded]
  exact hboth.launched

end End

namespace IPV4TargetSet

variable {γ δ ρ : Type}

/-- A scan with reinjection that comes to its end has launched the product and all targets that
were added, and each of them has ended or is registered for a socket. -/
theorem reinjected_scan_launches (w : World ω F) (cfg : Config F) (lib : Leeloo γ δ ρ) (stray : ℕ)
    {adds : Callback F → ω → List Target} (hadds : ∀ cb o, ∀ t ∈ adds cb o, t.isEnd = false)
    {q : List Target} (hq : ∀ t ∈ q, t.isEnd = false) (o : ω) (ts : IPV4TargetSet γ δ ρ)
    (hl : Enumerable ts.ipv4s ts.ports) (hres : NoneReserved ts.ipv4s ts.ports) {fuel n : ℕ}
    {e' : Engine (ω × Reinjected (IPV4TargetSet γ δ ρ)) F}
    (h : (launch (w.reinjecting (targetSet lib stray) adds) cfg fuel n).runFrom
      (.init cfg (o, .start q ts)) = (.ok true, e')) :
    ∃ product, CompleteEnumeration ts.ipv4s ts.ports product ∧
      Interleaved e'.world.2.added product (launchedTargets e'.log).reverse ∧
      (SameFds e' → (e'.world.2.added ++ product).Perm
        (endedTargets e'.log ++ e'.socketsTargets.toList.map Prod.snd)) := by
  have hx : SameDraws lib (ts.init lib) (ts.init lib) :=
    ⟨rfl, rfl, rfl, rfl, rfl, rfl, lib.v4.init_order _ _⟩
  obtain ⟨m, t, hdraw, hend, hlaunched⟩ :=
    reinjecting_interleaves (undisturbed lib stray) hadds hq o hx h
  refine ⟨_, givenTargets_complete lib stray ts hl hres hdraw hend, hlaunched, fun hsame => ?_⟩
  have hscan : (doAsyncScan (w.reinjecting (targetSet lib stray) adds) cfg fuel n).runFrom
      (.init cfg (o, .start q (ts.init lib))) = (.ok true, e') := h
  have hledger := doAsyncScan_ledger hscan hsame
  exact hlaunched.perm.symm.trans ((List.reverse_perm _).trans hledger.launched_perm)

def retryOnce : Callback Unit → Script → List Target
  | .finish t _ _, _ => if t = ⟨1, ⟨80, .tcp⟩⟩ then [⟨9, ⟨80, .tcp⟩⟩] else []
  | _, _ => []

theorem retryOnce_not_end (cb : Callback Unit) (o : Script) :
    ∀ t ∈ retryOnce cb o, t.isEnd = false := by
  intro t ht
  cases cb with
  | finish u buf err =>
    simp only [retryOnce] at ht
    split_ifs at ht
    · rw [List.mem_singleton.mp ht]
      decide
    · simp at ht
  | _ => simp [retryOnce] at ht

def retriedScan (k : UInt32) (n : ℕ) : Except Fault Bool ×
    Engine (Script × Reinjected (IPV4TargetSet InOrder (List Port × ℕ) Unit)) Unit :=
  (launch ((Script.world Script.goOn).reinjecting (targetSet Leeloo.inOrder 0) retryOnce) (.plain k)
    6 n).runFrom (.init (.plain k) (silentScript 0, .start [] small))

theorem retriedScan_eq {k : UInt32} {n : ℕ} {b : Bool} (h : (retriedScan k n).1 = .ok b) :
    (launch ((Script.world Script.goOn).reinjecting (targetSet Leeloo.inOrder 0) retryOnce)
      (.plain k) 6 n).runFrom (.init (.plain k) (silentScript 0, .start [] small)) =
        (.ok b, (retriedScan k n).2) :=
  Prod.ext h rfl

theorem reinjected_scan_launches_small :
    (retriedScan 2 3).2.world.2.added = [⟨9, ⟨80, .tcp⟩⟩] ∧
      ∃ product, CompleteEnumeration small.ipv4s small.ports product ∧
        Interleaved (retriedScan 2 3).2.world.2.added product
          (launchedTargets (retriedScan 2 3).2.log).reverse := by
  have hok : (retriedScan 2 3).1 = .ok true := by decide +kernel
  obtain ⟨product, hcomplete, hlaunched, -⟩ := reinjected_scan_launches _ _ Leeloo.inOrder 0
    retryOnce_not_end (by simp) _ small ⟨by decide, by decide, by decide, by decide⟩ (by decide)
    (retriedScan_eq hok)
  exact ⟨by decide +kernel, product, hcomplete, hlaunched⟩

end IPV4TargetSet

end Nodescan
