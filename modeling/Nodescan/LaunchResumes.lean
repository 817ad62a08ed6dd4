import Nodescan.SaveRestore
import Nodescan.ScanCoverage

/-!
# A launch after a restore

`launch` initialises the target set before it asks for targets, also when the set was restored from
a file. So a run of `launch` on a restored set hands out pairs of the whole product, and one that
comes to its end has handed out all of them; the restored set alone would have gone on with what
was left. The two agree when there was nothing to resume.
-/

namespace Nodescan

open FaultM EngineM

variable {ω F γ δ ρ : Type}

/-- A pair of the two lists that is not taken for the end. -/
structure Offered (ips : List UInt32) (ports : List Port) (t : Target) : Prop where
  ipv4 : t.ipv4 ∈ ips
  port : t.port ∈ ports
  not_end : t.isEnd = false

namespace IPV4TargetSet

variable (lib : Leeloo γ δ ρ)

/-- `launch` on a new engine whose target set was restored from `ts`. -/
def restoredLaunch (w : World ω F) (cfg : Config F) (stray fuel n : ℕ) (o : ω)
    (ts : IPV4TargetSet γ δ ρ) (r₁ r₂ : ρ) :
    Except Fault Bool × Engine (ω × IPV4TargetSet γ δ ρ) F :=
  (launch (w.withTargets (targetSet lib stray)) cfg fuel n).runFrom
    (.init cfg (o, ts.restoreState lib r₁ r₂))

/-- The run has handed out nothing of an address that was marked done at the save, and only what
the restored set had to give; all of that, once it has come to its end. -/
structure Resumes (ts : IPV4TargetSet γ δ ρ) (r₁ r₂ : ρ)
    (run : Except Fault Bool × Engine (ω × IPV4TargetSet γ δ ρ) F) : Prop where
  not_done : ∀ t ∈ launchedTargets run.2.log, ∀ k ∈ lib.v4.done ts.randV4,
    (lib.v4.order ts.randV4)[k]? ≠ some t.ipv4
  only : ∀ t ∈ launchedTargets run.2.log, (ts.restoreState lib r₁ r₂).Yields lib t
  all : run.1 = .ok true → ∀ t, (ts.restoreState lib r₁ r₂).Yields lib t →
    t ∈ launchedTargets run.2.log

/-- The set is under scan, and the targets launched and registered are pairs of its lists. -/
structure Offers (ips : List UInt32) (ports : List Port)
    (e : Engine (ω × IPV4TargetSet γ δ ρ) F) : Prop where
  scanning : Scanning lib e.world.2
  ipv4s_eq : e.world.2.ipv4s = ips
  ports_eq : e.world.2.ports = ports
  launched : ∀ t ∈ launchedTargets e.log, Offered ips ports t
  registered : ∀ t, e.Registers t → Offered ips ports t

variable {lib} {ts : IPV4TargetSet γ δ ρ} {fin : List Target} {ips : List UInt32}
  {ports : List Port} {t : Target} {w : World ω F} {cfg : Config F} {stray fuel n : ℕ} {o : ω}
  {r₁ r₂ : ρ}

theorem Scanning.offered (h : Scanning lib ts) (hend : (ts.nextTarget lib).1.isEnd = false) :
    Offered ts.ipv4s ts.ports (ts.nextTarget lib).1 := by
  obtain ⟨hadv, hsame, hne⟩ := h.advance
  have hmore : ¬ lib.v4.isEnd (ts.advance lib).randV4 = true := by
    intro hover
    simp only [nextTarget, hover, if_true] at hend
    exact absurd hend (by decide)
  have hdrawn : (ts.nextTarget lib).1 =
      ⟨lib.v4.getCurrent (ts.advance lib).ipv4s (ts.advance lib).randV4,
        (lib.port.draw (ts.advance lib).ports (ts.advance lib).randPort).1⟩ := by
    simp only [nextTarget, if_neg hmore]
  obtain ⟨k, l, hkl⟩ := List.exists_cons_of_ne_nil (mt (lib.v4.isEnd_iff _).mpr hmore)
  obtain ⟨p, q, hpq⟩ := List.exists_cons_of_ne_nil hne
  refine ⟨?_, ?_, hend⟩
  · rw [hdrawn, ← hsame.ipv4s, ← hadv.order.mem_iff]
    exact List.mem_of_getElem? (lib.v4.getCurrent_eq hadv.order hkl)
  · rw [hdrawn, ← hsame.ports]
    apply hadv.rest
    rw [(lib.port.draw_eq hpq).1, hpq]
    exact List.mem_cons_self

theorem Scanning.targetFinished (h : Scanning lib ts) (stray : ℕ) (t : Target) (hsm : HostSM) :
    Scanning lib (ts.targetFinished lib stray t hsm).2 ∧
      (ts.targetFinished lib stray t hsm).2.ipv4s = ts.ipv4s ∧
      (ts.targetFinished lib stray t hsm).2.ports = ts.ports := by
  unfold IPV4TargetSet.targetFinished
  dsimp only
  split_ifs
  · refine ⟨⟨?_, h.size, h.rest, h.lists⟩, rfl, rfl⟩
    simpa only [lib.v4.stepDone_order] using h.order
  · exact ⟨h, rfl, rfl⟩

namespace Offers

variable {e e' : Engine (ω × IPV4TargetSet γ δ ρ) F}

theorem of_set (h : Offers lib ips ports e) (hset : e'.world.2 = e.world.2) (hlog : e'.log = e.log)
    (hreg : ∀ t, e'.Registers t → e.Registers t) : Offers lib ips ports e' where
  scanning := hset ▸ h.scanning
  ipv4s_eq := hset ▸ h.ipv4s_eq
  ports_eq := hset ▸ h.ports_eq
  launched := hlog ▸ h.launched
  registered := fun t ht => h.registered t (hreg t ht)

theorem note (h : Offers lib ips ports e) {ev : Event F}
    (hev : launchedTargets (ev :: e.log) = launchedTargets e.log) :
    Offers lib ips ports { e with log := ev :: e.log } where
  scanning := h.scanning
  ipv4s_eq := h.ipv4s_eq
  ports_eq := h.ports_eq
  launched := by
    rw [hev]
    exact h.launched
  registered := h.registered

theorem next (h : Offers lib ips ports e) :
    Offers lib ips ports { e with world := (e.world.1, (e.world.2.nextTarget lib).2) } := by
  obtain ⟨hscan, hsame⟩ := h.scanning.next
  exact ⟨hscan, hsame.ipv4s.trans h.ipv4s_eq, hsame.ports.trans h.ports_eq, h.launched,
    h.registered⟩

theorem finishHost (h : Offers lib ips ports e) (t : Target) (hsm : HostSM) :
    Offers lib ips ports (e.finishHost (w.withTargets (targetSet lib stray)) t hsm) := by
  obtain ⟨hscan, hips, hports⟩ := h.scanning.targetFinished stray t hsm
  exact ⟨hscan, hips.trans h.ipv4s_eq, hports.trans h.ports_eq, h.launched, h.registered⟩

theorem invariant (w : World ω F) (lib : Leeloo γ δ ρ) (stray : ℕ) (ips : List UInt32)
    (ports : List Port) :
    HostInvariant (w.withTargets (targetSet lib stray)) SameSet (Offered ips ports)
      (fun _ _ => True) (Offers lib ips ports) where
  congr := fun h _ hl ho ht => h.of_set ho hl ht
  note := by
    intro e ev hev h
    refine h.note ?_
    cases ev with
    | launched t => simp [Event.isHostEvent] at hev
    | _ => rfl
  insert := by
    intro e t n h ht
    refine ⟨h.scanning, h.ipv4s_eq, h.ports_eq, h.launched, fun u hu => ?_⟩
    rcases Engine.registers_insertTarget hu with rfl | hu
    · exact ht
    · exact h.registered u hu
  known := fun h hreg => h.registered _ hreg
  onAlive := by
    intro e ip a h hip
    rw [Engine.setOnAlive_of_mem a hip]
    have hset : Offers lib ips ports { e with log := .onAliveSet ip a :: e.log } := h.note rfl
    exact hset.of_set rfl rfl (fun _ ht => ht)
  made := fun h _ => h.of_set rfl rfl (fun _ ht => ht)
  passed := fun h _ => h.note rfl
  next := fun h => h.next
  emitted := by
    intro e t h ht hend
    have hdraw : (e.world.2.nextTarget lib).1 = t := NextTarget.target.inj ht
    have hoff := h.scanning.offered (hdraw ▸ hend)
    rw [hdraw, h.ipv4s_eq, h.ports_eq] at hoff
    exact ⟨hoff, trivial⟩
  emitted_same := fun _ _ => trivial
  launched := by
    intro e t h ht
    refine ⟨h.scanning, h.ipv4s_eq, h.ports_eq, fun u hu => ?_, h.registered⟩
    rcases List.mem_cons.mp hu with rfl | hu
    · exact ht
    · exact h.launched u hu
  finished := fun h _ _ => h.finishHost _ _
  initialised := fun h _ _ => h.of_set rfl rfl (fun _ ht => ht)

end Offers

theorem launch_offers (w : World ω F) (cfg : Config F) (lib : Leeloo γ δ ρ) (stray fuel n : ℕ)
    (o : ω) (ts : IPV4TargetSet γ δ ρ) (hl : Enumerable ts.ipv4s ts.ports) :
    ∀ t ∈ launchedTargets ((launch (w.withTargets (targetSet lib stray)) cfg fuel n).runFrom
      (.init cfg (o, ts))).2.log, Offered ts.ipv4s ts.ports t := by
  have hstart : Offers lib ts.ipv4s ts.ports (Engine.init (F := F) cfg (o, ts.init lib)) := by
    refine ⟨(Called.init hl).scanning, rfl, rfl, by simp [Engine.init, launchedTargets], ?_⟩
    rintro t ⟨s, hs⟩
    simp [Engine.init] at hs
  have hkeeps : Keeps (Offers lib ts.ipv4s ts.ports)
      (doAsyncScan (w.withTargets (targetSet lib stray)) cfg fuel n) :=
    (Offers.invariant w lib stray ts.ipv4s ts.ports).doAsyncScan (w.withTargets_leaves _) n
  have hrun := hkeeps _ hstart
  have hscan : (launch (w.withTargets (targetSet lib stray)) cfg fuel n).runFrom
      (.init cfg (o, ts)) = (doAsyncScan (w.withTargets (targetSet lib stray)) cfg fuel n).runFrom
        (.init cfg (o, ts.init lib)) := rfl
  rw [hscan]
  rcases hr : (doAsyncScan (w.withTargets (targetSet lib stray)) cfg fuel n).runFrom
    (.init cfg (o, ts.init lib)) with ⟨f | b, e⟩
  · exact (hrun.of_error hr).launched
  · exact (hrun.of_ok hr).launched

theorem restoredLaunch_product (hs : Scanning lib ts) (hres : NoneReserved ts.ipv4s ts.ports)
    (hok : (restoredLaunch lib w cfg stray fuel n o ts r₁ r₂).1 = .ok true) (t : Target) :
    t ∈ launchedTargets (restoredLaunch lib w cfg stray fuel n o ts r₁ r₂).2.log ↔
      t.ipv4 ∈ ts.ipv4s ∧ t.port ∈ ts.ports := by
  have hcomplete := launch_complete w cfg lib stray o (ts.restoreState lib r₁ r₂) hs.lists hres
    (Prod.ext hok rfl)
  have hmem := hcomplete.perm.mem_iff (a := t)
  rw [List.mem_reverse, List.mem_map] at hmem
  refine hmem.trans ⟨?_, fun h => ⟨(t.ipv4, t.port), List.mem_product.mpr h, rfl⟩⟩
  rintro ⟨x, hx, rfl⟩
  exact List.mem_product.mp hx

/-- A run of `launch` on a restored set resumes the scan if there was nothing to resume; and one
that comes to its end does so only then. -/
theorem launch_resumes_iff (h : Called lib ts fin) (w : World ω F) (cfg : Config F)
    (stray fuel n : ℕ) (o : ω) (r₁ r₂ : ρ) :
    (ts.NothingDone lib ∧ NoneReserved ts.ipv4s ts.ports →
      Resumes lib ts r₁ r₂ (restoredLaunch lib w cfg stray fuel n o ts r₁ r₂)) ∧
    ((restoredLaunch lib w cfg stray fuel n o ts r₁ r₂).1 = .ok true →
      ts.NothingDone lib ∨ NoneReserved ts.ipv4s ts.ports →
      Resumes lib ts r₁ r₂ (restoredLaunch lib w cfg stray fuel n o ts r₁ r₂) →
      ts.NothingDone lib ∧ NoneReserved ts.ipv4s ts.ports) := by
  have hs := h.scanning
  have hoffers : ∀ t ∈ launchedTargets (restoredLaunch lib w cfg stray fuel n o ts r₁ r₂).2.log,
      Offered ts.ipv4s ts.ports t := launch_offers w cfg lib stray fuel n o _ hs.lists
  refine ⟨fun ⟨hnothing, hres⟩ => ⟨?_, ?_, ?_⟩, fun hok hor hresumes => ?_⟩
  · intro t _ k hdone hstep
    have hlt := (List.getElem?_eq_some_iff.mp hstep).1
    rw [hs.order.length_eq] at hlt
    exact hnothing.steps k hlt hdone
  · intro t ht
    have hoff := hoffers t ht
    exact (hnothing.restored_yields hs r₁ r₂).mpr ⟨hoff.ipv4, hoff.port⟩
  · intro hok t ht
    rw [restoredLaunch_product hs hres hok]
    exact (hnothing.restored_yields hs r₁ r₂).mp ht
  · rcases hor with hnothing | hres
    · refine ⟨hnothing, fun ip hip p hp => ?_⟩
      have hyields := (hnothing.restored_yields (t := ⟨ip, p⟩) hs r₁ r₂).mpr ⟨hip, hp⟩
      exact (hoffers _ (hresumes.all hok _ hyields)).not_end
    · refine ⟨hs.nothingDone r₁ r₂ (fun t hip hp => ?_), hres⟩
      exact hresumes.only t ((restoredLaunch_product hs hres hok t).mpr ⟨hip, hp⟩)

def oneDone : IPV4TargetSet InOrder (List Port × ℕ) Unit :=
  ((({ small with ports := [⟨80, .tcp⟩] }.init Leeloo.inOrder).nextTarget
    Leeloo.inOrder).2.targetFinished Leeloo.inOrder 0 ⟨1, ⟨80, .tcp⟩⟩ ⟨[], some 0, none⟩).2

/-- Every target was handed out before the save and the end was seen, and no address is complete. -/
def allInFlight : IPV4TargetSet InOrder (List Port × ℕ) Unit :=
  ((afterDraws (nextTarget Leeloo.inOrder) 5 (small.init Leeloo.inOrder)).targetFinished
    Leeloo.inOrder 0 ⟨1, ⟨80, .tcp⟩⟩ ⟨[], some 0, none⟩).2

def silentRestored (ts : IPV4TargetSet InOrder (List Port × ℕ) Unit) :
    Except Fault Bool × Engine (Script × IPV4TargetSet InOrder (List Port × ℕ) Unit) Unit :=
  restoredLaunch Leeloo.inOrder (Script.world Script.goOn) (.plain 2) 0 6 4 (silentScript 0)
    ts () ()

/-- The address that was done is scanned again. -/
theorem launch_forgets_restored :
    Called Leeloo.inOrder oneDone [⟨1, ⟨80, .tcp⟩⟩] ∧ (silentRestored oneDone).1 = .ok true ∧
      ¬ Resumes Leeloo.inOrder oneDone () () (silentRestored oneDone) := by
  refine ⟨.finished 0 _ _ (.next (.init ⟨by decide, by decide, by decide, by decide⟩)),
    by decide +kernel, fun h => ?_⟩
  exact h.not_done ⟨1, ⟨80, .tcp⟩⟩ (by decide +kernel) 0 (by decide) (by decide)

theorem launch_resumes_in_flight :
    Called Leeloo.inOrder allInFlight [⟨1, ⟨80, .tcp⟩⟩] ∧
      (silentRestored allInFlight).1 = .ok true ∧
      Resumes Leeloo.inOrder allInFlight () () (silentRestored allInFlight) := by
  have hcalled : Called Leeloo.inOrder allInFlight [⟨1, ⟨80, .tcp⟩⟩] :=
    .finished 0 _ _ (.next (.next (.next (.next (.next
      (.init ⟨by decide, by decide, by decide, by decide⟩))))))
  have hdone : Leeloo.inOrder.v4.done allInFlight.randV4 = ∅ := by decide
  refine ⟨hcalled, by decide +kernel, (launch_resumes_iff hcalled _ _ _ _ _ _ _ _).1 ⟨⟨?_, ?_⟩, ?_⟩⟩
  · intro k _
    rw [hdone]
    exact Finset.notMem_empty k
  · decide
  · decide

end IPV4TargetSet
end Nodescan
