import Nodescan.Enumeration

/-!
# Saving and restoring a scan

A saved state holds the two lists and the two generators. The generator of addresses gives again
every step that was not marked done, so the in-flight addresses are not lost with it; but the
generator of ports resumes in the middle of its permutation, and the address that comes first
after the restore gets only the ports that were left for the address that came last before the
save.
-/

namespace Nodescan
namespace IPV4TargetSet

variable {γ δ ρ : Type} (lib : Leeloo γ δ ρ)

/-- `next_target` on this set has no address left to give. -/
def Exhausted (ts : IPV4TargetSet γ δ ρ) : Prop := lib.v4.isEnd (ts.advance lib).randV4 = true

/-- Draining the set gives `t`. -/
def Yields (ts : IPV4TargetSet γ δ ρ) (t : Target) : Prop :=
  ∃ n, ¬ (afterDraws (nextTarget lib) n ts).Exhausted lib ∧
    ((afterDraws (nextTarget lib) n ts).nextTarget lib).1 = t

/-- A set under scan and the targets finished on it, after any calls of `next_target` and
`target_finished` in any order. (`init_host_sm` only reads the set.) -/
inductive Called : IPV4TargetSet γ δ ρ → List Target → Prop
  | init {ts : IPV4TargetSet γ δ ρ} : Enumerable ts.ipv4s ts.ports → Called (ts.init lib) []
  | next {ts : IPV4TargetSet γ δ ρ} {fin : List Target} :
      Called ts fin → Called (ts.nextTarget lib).2 fin
  | finished {ts : IPV4TargetSet γ δ ρ} {fin : List Target} (stray : ℕ) (t : Target)
      (hsm : HostSM) : Called ts fin → Called (ts.targetFinished lib stray t hsm).2 (t :: fin)

/-- No target that had not finished at the save is lost by the restore. -/
def Lossless (ts : IPV4TargetSet γ δ ρ) (fin : List Target) (r₁ r₂ : ρ) : Prop :=
  ∀ ip ∈ ts.ipv4s, ∀ p ∈ ts.ports, ⟨ip, p⟩ ∉ fin → (ts.restoreState lib r₁ r₂).Yields lib ⟨ip, p⟩

/-- A step marked done has finished all its ports, and the address that the restored generator
gives first has finished the ports that were drawn before the save. -/
structure Resumable (ts : IPV4TargetSet γ δ ρ) (fin : List Target) (r₁ : ρ) : Prop where
  done : ∀ k ∈ lib.v4.done ts.randV4, ∀ ip, (lib.v4.order ts.randV4)[k]? = some ip →
    ∀ p ∈ ts.ports, ⟨ip, p⟩ ∈ fin
  first : ∀ k l, lib.v4.todo (lib.v4.restore ts.ipv4s ts.randV4 r₁).1 = k :: l →
    ∀ ip, (lib.v4.order ts.randV4)[k]? = some ip →
    ∀ p ∈ ts.ports, p ∉ lib.port.rest ts.randPort → ⟨ip, p⟩ ∈ fin

/-- What every call keeps. -/
structure Scanning (ts : IPV4TargetSet γ δ ρ) : Prop where
  order : (lib.v4.order ts.randV4).Perm ts.ipv4s
  size : lib.port.sizeOriginal ts.randPort = ts.ports.length
  rest : ∀ p ∈ lib.port.rest ts.randPort, p ∈ ts.ports
  lists : Enumerable ts.ipv4s ts.ports

variable {lib} {ts : IPV4TargetSet γ δ ρ} {fin : List Target} {k : ℕ} {ks : List ℕ}
  {q : List Port} {t : Target} {r₁ r₂ : ρ}

theorem yields_step : ts.Yields lib t ↔
    (¬ ts.Exhausted lib ∧ (ts.nextTarget lib).1 = t) ∨ (ts.nextTarget lib).2.Yields lib t := by
  constructor
  · rintro ⟨n, hn⟩
    cases n with
    | zero => exact Or.inl hn
    | succ n => exact Or.inr ⟨n, hn⟩
  · rintro (h | ⟨n, hn⟩)
    · exact ⟨0, h⟩
    · exact ⟨n + 1, hn⟩

theorem At.exhausted_iff (h : At lib ts ks q) (hq : q ≠ []) : ts.Exhausted lib ↔ ks = [] := by
  rw [Exhausted, h.no_turn hq, lib.v4.isEnd_iff, h.todo]

theorem At.not_yields_of_ended (h : At lib ts [] q) (hq : q ≠ []) : ¬ ts.Yields lib t := by
  rintro ⟨n, hn, _⟩
  have hstay : afterDraws (nextTarget lib) n ts = ts := by
    apply Draws.afterDraws_invariant (I := fun ts' => ts' = ts) _ n rfl
    rintro _ rfl
    rw [h.ended hq]
  rw [hstay, h.exhausted_iff hq] at hn
  exact hn rfl

theorem At.yields_port {p : Port} (h : At lib ts (k :: ks) (p :: q)) :
    ts.Yields lib t ↔ t = ⟨ts.ipAt lib k, p⟩ ∨ (ts.nextTarget lib).2.Yields lib t := by
  have hex : ¬ ts.Exhausted lib := by
    rw [h.exhausted_iff (List.cons_ne_nil p q)]
    exact List.cons_ne_nil k ks
  rw [yields_step, h.drawn.1]
  constructor
  · rintro (⟨_, rfl⟩ | h)
    · exact Or.inl rfl
    · exact Or.inr h
  · rintro (rfl | h)
    · exact Or.inl ⟨hex, rfl⟩
    · exact Or.inr h

theorem yields_advance (h : At lib ts ks []) (hports : ts.ports ≠ []) :
    (ts.advance lib).Yields lib t ↔ ts.Yields lib t := by
  obtain ⟨q, hq, hat, _⟩ := h.turn
  have hne : q ≠ [] := fun hnil => hports (by rwa [hnil, List.nil_perm] at hq)
  have hex : (ts.advance lib).Exhausted lib ↔ ts.Exhausted lib := by
    rw [Exhausted, Exhausted, hat.no_turn hne]
  refine yields_step.trans (Iff.trans ?_ yields_step.symm)
  rw [hex, nextTarget_advance h hports]

theorem At.yields_block (h : At lib ts (k :: ks) q) :
    ts.Yields lib t ↔ (t.ipv4 = ts.ipAt lib k ∧ t.port ∈ q) ∨
      (afterDraws (nextTarget lib) q.length ts).Yields lib t := by
  induction q generalizing ts with
  | nil => simp [afterDraws]
  | cons p q ih =>
    obtain ⟨_, hat, hsame⟩ := h.drawn
    rw [h.yields_port, ih hat, hsame.ipAt, List.length_cons, afterDraws, ← or_assoc]
    refine or_congr_left ?_
    constructor
    · rintro (rfl | ⟨hip, hport⟩)
      · exact ⟨rfl, List.mem_cons_self⟩
      · exact ⟨hip, List.mem_cons_of_mem p hport⟩
    · rintro ⟨hip, hport⟩
      rcases List.mem_cons.mp hport with heq | hmem
      · exact Or.inl (by rw [← hip, ← heq])
      · exact Or.inr ⟨hip, hmem⟩

theorem At.yields_iff (h : At lib ts (k :: ks) q) (hports : ts.ports ≠ []) :
    ts.Yields lib t ↔ (t.ipv4 = ts.ipAt lib k ∧ t.port ∈ q) ∨
      ∃ j ∈ ks, t.ipv4 = ts.ipAt lib j ∧ t.port ∈ ts.ports := by
  induction ks generalizing ts k q with
  | nil =>
    obtain ⟨_, hat, hsame⟩ := h.block
    have hports' := hsame.ports ▸ hports
    obtain ⟨q', hq', hat', _⟩ := hat.turn
    have hne : q' ≠ [] := fun hnil => hports' (by rwa [hnil, List.nil_perm] at hq')
    have hnone := hat'.not_yields_of_ended (t := t) hne
    rw [yields_advance hat hports'] at hnone
    rw [h.yields_block]
    simp [hnone]
  | cons k' ks ih =>
    obtain ⟨_, hat, hsame⟩ := h.block
    have hports' := hsame.ports ▸ hports
    obtain ⟨q', hq', hat', hsame'⟩ := hat.turn
    have hscan := hsame.trans hsame'
    have hmem : t.port ∈ q' ↔ t.port ∈ ts.ports := by rw [hq'.mem_iff, hsame.ports]
    rw [h.yields_block, ← yields_advance hat hports', ih hat' (hscan.ports ▸ hports), hmem,
      hscan.ports]
    simp only [hscan.ipAt, List.mem_cons, exists_eq_or_imp]

theorem Scanning.at (h : Scanning lib ts) :
    At lib ts (lib.v4.todo ts.randV4) (lib.port.rest ts.randPort) :=
  ⟨h.order, rfl, rfl, h.size⟩

theorem Scanning.of_same {ts' : IPV4TargetSet γ δ ρ} (h : Scanning lib ts)
    (hs : SameScan lib ts ts') (hsize : lib.port.sizeOriginal ts'.randPort = ts'.ports.length)
    (hrest : ∀ p ∈ lib.port.rest ts'.randPort, p ∈ ts'.ports) : Scanning lib ts' where
  order := by
    rw [hs.order, hs.ipv4s]
    exact h.order
  size := hsize
  rest := hrest
  lists := by
    rw [hs.ipv4s, hs.ports]
    exact h.lists

theorem Scanning.advance (h : Scanning lib ts) :
    Scanning lib (ts.advance lib) ∧ SameScan lib ts (ts.advance lib) ∧
      lib.port.rest (ts.advance lib).randPort ≠ [] := by
  by_cases hq : lib.port.rest ts.randPort = []
  · have hat := h.at
    rw [hq] at hat
    obtain ⟨q, hperm, hturn, hsame⟩ := hat.turn
    refine ⟨h.of_same hsame hturn.size ?_, hsame, ?_⟩
    · rw [hturn.rest, hsame.ports]
      exact fun p hp => hperm.mem_iff.mp hp
    · rw [hturn.rest]
      exact fun hnil => h.lists.ports_ne (by rwa [hnil, List.nil_perm] at hperm)
  · rw [h.at.no_turn hq]
    exact ⟨h, SameScan.refl ts, hq⟩

theorem Scanning.next (h : Scanning lib ts) :
    Scanning lib (ts.nextTarget lib).2 ∧ SameScan lib ts (ts.nextTarget lib).2 := by
  obtain ⟨hadv, hsame, hne⟩ := h.advance
  unfold nextTarget
  dsimp only
  split_ifs
  · exact ⟨hadv, hsame⟩
  · obtain ⟨p, l, hpl⟩ := List.exists_cons_of_ne_nil hne
    obtain ⟨-, hdraw⟩ : (lib.port.draw (ts.advance lib).ports (ts.advance lib).randPort).1 = p ∧
        lib.port.rest (lib.port.draw (ts.advance lib).ports (ts.advance lib).randPort).2 = l :=
      lib.port.draw_eq hpl
    have hs : SameScan lib (ts.advance lib) { ts.advance lib with
        randPort := (lib.port.draw (ts.advance lib).ports (ts.advance lib).randPort).2 } :=
      ⟨rfl, rfl, rfl, rfl⟩
    refine ⟨hadv.of_same hs ((lib.port.draw_size _ _).trans hadv.size) ?_, hsame.trans hs⟩
    intro p' hp'
    apply hadv.rest
    rw [hpl]
    simp only [hdraw] at hp'
    exact List.mem_cons_of_mem p hp'

theorem Called.scanning (h : Called lib ts fin) : Scanning lib ts := by
  induction h with
  | init hl =>
    exact ⟨lib.v4.init_order _ _, lib.port.init_size _ _,
      fun p hp => (lib.port.init_rest _ _).mem_iff.mp hp, hl⟩
  | next _ ih => exact ih.next.1
  | finished stray t hsm _ ih =>
    unfold targetFinished
    dsimp only
    split_ifs
    · exact ⟨by simpa only [lib.v4.stepDone_order] using ih.order, ih.size, ih.rest, ih.lists⟩
    · exact ih

theorem Scanning.restore (h : Scanning lib ts) (r₁ r₂ : ρ) :
    At lib (ts.restoreState lib r₁ r₂) (lib.v4.todo (lib.v4.restore ts.ipv4s ts.randV4 r₁).1)
        (lib.port.rest ts.randPort) ∧
      SameScan lib ts (ts.restoreState lib r₁ r₂) where
  left := by
    refine ⟨?_, rfl, lib.port.restore_rest _ _ _, (lib.port.restore_size _ _ _).trans h.size⟩
    simpa only [restoreState, lib.v4.restore_order] using h.order
  right := ⟨rfl, rfl, lib.v4.restore_order _ _ _, lib.v4.restore_done _ _ _⟩

theorem Scanning.ipAt_eq_iff (h : Scanning lib ts) {ip : UInt32} (hk : k < ts.ipv4s.length) :
    ip = ts.ipAt lib k ↔ (lib.v4.order ts.randV4)[k]? = some ip := by
  have hlt : k < (lib.v4.order ts.randV4).length := by rwa [h.order.length_eq]
  rw [ipAt, List.getD_eq_getElem?_getD, List.getElem?_eq_getElem hlt, Option.getD_some,
    Option.some.injEq]
  exact eq_comm

theorem Scanning.step_unique (h : Scanning lib ts) {ip : UInt32} {j : ℕ}
    (hk : (lib.v4.order ts.randV4)[k]? = some ip) (hj : (lib.v4.order ts.randV4)[j]? = some ip) :
    k = j := by
  have hnd : (lib.v4.order ts.randV4).Nodup := h.order.nodup_iff.mpr h.lists.ips_nodup
  obtain ⟨hlt, _⟩ := List.getElem?_eq_some_iff.mp hk
  exact (List.getElem?_inj hlt hnd).mp (hk.trans hj.symm)

/-- What the restored set gives, by the steps of the saved one. -/
theorem Scanning.restored_yields (h : Scanning lib ts) {k : ℕ} {ks : List ℕ}
    (htodo : lib.v4.todo (lib.v4.restore ts.ipv4s ts.randV4 r₁).1 = k :: ks) :
    (ts.restoreState lib r₁ r₂).Yields lib t ↔
      ((lib.v4.order ts.randV4)[k]? = some t.ipv4 ∧ t.port ∈ lib.port.rest ts.randPort) ∨
      ∃ j ∈ ks, (lib.v4.order ts.randV4)[j]? = some t.ipv4 ∧ t.port ∈ ts.ports := by
  obtain ⟨hat, hsame⟩ := h.restore r₁ r₂
  rw [htodo] at hat
  have hlt : ∀ j ∈ k :: ks, j < ts.ipv4s.length := by
    intro j hj
    rw [← htodo, lib.v4.mem_restore_todo] at hj
    rw [← h.order.length_eq]
    exact hj.1
  rw [hat.yields_iff (hsame.ports ▸ h.lists.ports_ne), hsame.ipAt, hsame.ports,
    h.ipAt_eq_iff (hlt k List.mem_cons_self)]
  refine or_congr_right (exists_congr fun j => and_congr_right fun hj => ?_)
  rw [hsame.ipAt, h.ipAt_eq_iff (hlt j (List.mem_cons_of_mem k hj))]

theorem Scanning.restored_yields_nothing (h : Scanning lib ts)
    (htodo : lib.v4.todo (lib.v4.restore ts.ipv4s ts.randV4 r₁).1 = []) :
    ¬ (ts.restoreState lib r₁ r₂).Yields lib t := by
  obtain ⟨hat, hsame⟩ := h.restore r₁ r₂
  rw [htodo] at hat
  by_cases hq : lib.port.rest ts.randPort = []
  · -- the first call turns to an address that is not there
    rw [hq] at hat
    have hports := hsame.ports ▸ h.lists.ports_ne
    obtain ⟨q, hperm, hturn, _⟩ := hat.turn
    have hne : q ≠ [] := fun hnil => hports (by rwa [hnil, List.nil_perm] at hperm)
    rw [← yields_advance hat hports]
    exact hturn.not_yields_of_ended hne
  · exact hat.not_yields_of_ended hq

theorem exists_step (h : Scanning lib ts) {ip : UInt32} (hip : ip ∈ ts.ipv4s) :
    ∃ k : ℕ, (lib.v4.order ts.randV4)[k]? = some ip :=
  List.mem_iff_getElem?.mp (h.order.mem_iff.mpr hip)

theorem mem_restored_iff {ip : UInt32} (r₁ : ρ)
    (hk : (lib.v4.order ts.randV4)[k]? = some ip) :
    k ∈ lib.v4.todo (lib.v4.restore ts.ipv4s ts.randV4 r₁).1 ↔
      k ∉ lib.v4.done ts.randV4 := by
  rw [lib.v4.mem_restore_todo]
  exact and_iff_right (List.getElem?_eq_some_iff.mp hk).1

/-- At whatever point the state is saved. -/
theorem restore_lossless_iff (h : Called lib ts fin) (r₁ r₂ : ρ) :
    ts.Lossless lib fin r₁ r₂ ↔ ts.Resumable lib fin r₁ := by
  have hs := h.scanning
  have hports : ∀ {k : ℕ} {ip}, (lib.v4.order ts.randV4)[k]? = some ip → ip ∈ ts.ipv4s :=
    fun hk => hs.order.mem_iff.mp (List.mem_of_getElem? hk)
  cases htodo : lib.v4.todo (lib.v4.restore ts.ipv4s ts.randV4 r₁).1 with
  | nil =>
    have hnone : ∀ t, ¬ (ts.restoreState lib r₁ r₂).Yields lib t :=
      fun t => hs.restored_yields_nothing htodo
    constructor
    · intro hl
      refine ⟨fun k _ ip hk p hp => ?_, fun k l hkl => ?_⟩
      · by_contra hfin
        exact hnone _ (hl ip (hports hk) p hp hfin)
      · rw [htodo] at hkl
        simp at hkl
    · intro hr ip hip p hp hfin
      obtain ⟨k, hk⟩ := exists_step hs hip
      have hdone : k ∈ lib.v4.done ts.randV4 := by
        by_contra hnot
        have hmem := (mem_restored_iff r₁ hk).mpr hnot
        rw [htodo] at hmem
        simp at hmem
      exact absurd (hr.done k hdone ip hk p hp) hfin
  | cons k ks =>
    have hyields : ∀ t, (ts.restoreState lib r₁ r₂).Yields lib t ↔ _ :=
      fun t => hs.restored_yields htodo
    have hnd := lib.v4.restore_nodup ts.ipv4s ts.randV4 r₁
    rw [htodo, List.nodup_cons] at hnd
    have hundone : ∀ {j : ℕ} {ip}, (lib.v4.order ts.randV4)[j]? = some ip →
        (j ∈ k :: ks ↔ j ∉ lib.v4.done ts.randV4) := by
      intro j ip hj
      rw [← htodo]
      exact mem_restored_iff r₁ hj
    constructor
    · intro hl
      constructor
      · intro j hj ip hip p hp
        by_contra hfin
        rcases (hyields _).mp (hl ip (hports hip) p hp hfin) with ⟨hk, _⟩ | ⟨i, hi, hik, _⟩
        · have hjk := hs.step_unique hip hk
          exact (hundone hip).mp (by rw [hjk]; exact List.mem_cons_self) hj
        · have hji := hs.step_unique hip hik
          exact (hundone hip).mp (by rw [hji]; exact List.mem_cons_of_mem k hi) hj
      · intro k' l hkl ip hip p hp hrest
        by_contra hfin
        obtain ⟨rfl, rfl⟩ := List.cons.inj (htodo.symm.trans hkl)
        rcases (hyields _).mp (hl ip (hports hip) p hp hfin) with ⟨_, hmem⟩ | ⟨i, hi, hik, _⟩
        · exact hrest hmem
        · rw [hs.step_unique hip hik] at hnd
          exact hnd.1 hi
    · intro hr ip hip p hp hfin
      obtain ⟨j, hj⟩ := exists_step hs hip
      have hmem : j ∈ k :: ks :=
        (hundone hj).mpr (fun hdone => hfin (hr.done j hdone ip hj p hp))
      rw [hyields]
      rcases List.mem_cons.mp hmem with rfl | hjs
      · refine Or.inl ⟨hj, ?_⟩
        by_contra hrest
        exact hfin (hr.first j ks htodo ip hj p hp hrest)
      · exact Or.inr ⟨j, hjs, hj, hp⟩

/-- One target of one address with two ports handed out and still in flight. -/
def inFlight : IPV4TargetSet InOrder (List Port × ℕ) Unit :=
  (({ small with ipv4s := [1] }.init Leeloo.inOrder).nextTarget Leeloo.inOrder).2

theorem inFlight_called : Called Leeloo.inOrder inFlight [] :=
  .next (.init ⟨by decide, by decide, by decide, by decide⟩)

/-- The first port is in flight at the save, and the restored set goes on with the second. -/
theorem restore_loses_in_flight :
    Called Leeloo.inOrder inFlight [] ∧ ¬ inFlight.Lossless Leeloo.inOrder [] () () := by
  refine ⟨inFlight_called, fun h => ?_⟩
  have hy := h 1 (by decide) ⟨80, .tcp⟩ (by decide) (by simp)
  have htodo : Leeloo.inOrder.v4.todo
      (Leeloo.inOrder.v4.restore inFlight.ipv4s inFlight.randV4 ()).1 = [0] := by
    decide
  rcases (inFlight_called.scanning.restored_yields htodo).mp hy with ⟨_, hmem⟩ | ⟨j, hj, _⟩
  · revert hmem
    decide
  · simp at hj

/-- The first address is complete at the save, and of the second one the port that was drawn. -/
def oneAndAHalf : IPV4TargetSet InOrder (List Port × ℕ) Unit :=
  let drawn := (((small.init Leeloo.inOrder).nextTarget Leeloo.inOrder).2.nextTarget
    Leeloo.inOrder).2
  let half := (drawn.targetFinished Leeloo.inOrder 0 ⟨1, ⟨80, .tcp⟩⟩ ⟨[], some 0, none⟩).2
  let one := (half.targetFinished Leeloo.inOrder 0 ⟨1, ⟨443, .tcp⟩⟩
    ⟨[⟨80, .tcp⟩], some 0, none⟩).2
  ((one.nextTarget Leeloo.inOrder).2.targetFinished Leeloo.inOrder 0 ⟨2, ⟨80, .tcp⟩⟩
    ⟨[], some 1, none⟩).2

theorem restore_lossless_half_way : oneAndAHalf.Lossless Leeloo.inOrder
    [⟨2, ⟨80, .tcp⟩⟩, ⟨1, ⟨443, .tcp⟩⟩, ⟨1, ⟨80, .tcp⟩⟩] () () := by
  have hcalled : Called Leeloo.inOrder oneAndAHalf
      [⟨2, ⟨80, .tcp⟩⟩, ⟨1, ⟨443, .tcp⟩⟩, ⟨1, ⟨80, .tcp⟩⟩] :=
    .finished 0 _ _ (.next (.finished 0 _ _ (.finished 0 _ _ (.next (.next
      (.init ⟨by decide, by decide, by decide, by decide⟩))))))
  have hdone : Leeloo.inOrder.v4.done oneAndAHalf.randV4 = {0} := by decide
  have horder : Leeloo.inOrder.v4.order oneAndAHalf.randV4 = [1, 2] := by decide
  have htodo : Leeloo.inOrder.v4.todo
      (Leeloo.inOrder.v4.restore oneAndAHalf.ipv4s oneAndAHalf.randV4 ()).1 = [1] := by decide
  refine (restore_lossless_iff hcalled () ()).mpr ⟨?_, ?_⟩
  · intro k hk ip hip p hp
    rw [hdone, Finset.mem_singleton] at hk
    rw [hk, horder] at hip
    obtain rfl : 1 = ip := Option.some.inj hip
    revert p
    decide
  · intro k l hkl ip hip p hp hrest
    obtain ⟨rfl, -⟩ := List.cons.inj (htodo.symm.trans hkl)
    rw [horder] at hip
    obtain rfl : 2 = ip := Option.some.inj hip
    revert p
    decide

/-! A set with nothing to resume. -/

variable (lib) in
/-- No step of the scan was marked done, and no port of the current address was drawn. -/
structure NothingDone (ts : IPV4TargetSet γ δ ρ) : Prop where
  steps : ∀ k < ts.ipv4s.length, k ∉ lib.v4.done ts.randV4
  ports : ∀ p ∈ ts.ports, p ∈ lib.port.rest ts.randPort

theorem NothingDone.restored_yields (h : ts.NothingDone lib) (hs : Scanning lib ts) (r₁ r₂ : ρ) :
    (ts.restoreState lib r₁ r₂).Yields lib t ↔ t.ipv4 ∈ ts.ipv4s ∧ t.port ∈ ts.ports := by
  have hundone : ∀ {j : ℕ} {ip}, (lib.v4.order ts.randV4)[j]? = some ip →
      j ∈ lib.v4.todo (lib.v4.restore ts.ipv4s ts.randV4 r₁).1 := by
    intro j ip hj
    rw [mem_restored_iff r₁ hj]
    apply h.steps
    rw [← hs.order.length_eq]
    exact (List.getElem?_eq_some_iff.mp hj).1
  have hip : ∀ {j : ℕ} {ip}, (lib.v4.order ts.randV4)[j]? = some ip → ip ∈ ts.ipv4s :=
    fun hj => hs.order.mem_iff.mp (List.mem_of_getElem? hj)
  cases htodo : lib.v4.todo (lib.v4.restore ts.ipv4s ts.randV4 r₁).1 with
  | nil =>
    refine iff_of_false (hs.restored_yields_nothing htodo) (fun ht => ?_)
    obtain ⟨j, hj⟩ := exists_step hs ht.1
    have hmem := hundone hj
    simp [htodo] at hmem
  | cons k ks =>
    rw [hs.restored_yields htodo]
    constructor
    · rintro (⟨hk, hrest⟩ | ⟨j, _, hj, hport⟩)
      · exact ⟨hip hk, hs.rest _ hrest⟩
      · exact ⟨hip hj, hport⟩
    · rintro ⟨hmem, hport⟩
      obtain ⟨j, hj⟩ := exists_step hs hmem
      have hjs := hundone hj
      rw [htodo] at hjs
      rcases List.mem_cons.mp hjs with rfl | hjs
      · exact Or.inl ⟨hj, h.ports _ hport⟩
      · exact Or.inr ⟨j, hjs, hj, hport⟩

theorem Scanning.nothingDone (hs : Scanning lib ts) (r₁ r₂ : ρ)
    (hall : ∀ t : Target, t.ipv4 ∈ ts.ipv4s → t.port ∈ ts.ports →
      (ts.restoreState lib r₁ r₂).Yields lib t) : ts.NothingDone lib := by
  obtain ⟨ip, hip⟩ := List.exists_mem_of_ne_nil _ hs.lists.ips_ne
  obtain ⟨p, hp⟩ := List.exists_mem_of_ne_nil _ hs.lists.ports_ne
  cases htodo : lib.v4.todo (lib.v4.restore ts.ipv4s ts.randV4 r₁).1 with
  | nil => exact absurd (hall ⟨ip, p⟩ hip hp) (hs.restored_yields_nothing htodo)
  | cons k ks =>
    have hnd := lib.v4.restore_nodup ts.ipv4s ts.randV4 r₁
    have hundone : ∀ j ∈ k :: ks, j < (lib.v4.order ts.randV4).length ∧
        j ∉ lib.v4.done ts.randV4 := by
      intro j hj
      rwa [← htodo, lib.v4.mem_restore_todo] at hj
    rw [htodo, List.nodup_cons] at hnd
    constructor
    · intro j hj
      rw [← hs.order.length_eq] at hj
      have hstep := List.getElem?_eq_getElem hj
      have hmem := hs.order.mem_iff.mp (List.mem_of_getElem? hstep)
      rcases (hs.restored_yields htodo).mp (hall ⟨_, p⟩ hmem hp) with ⟨hk, -⟩ | ⟨i, hi, hik, -⟩
      · rw [hs.step_unique hstep hk]
        exact (hundone k List.mem_cons_self).2
      · rw [hs.step_unique hstep hik]
        exact (hundone i (List.mem_cons_of_mem k hi)).2
    · -- the address that comes first gets no more than the ports left over
      intro p hp
      have hstep := List.getElem?_eq_getElem (hundone k List.mem_cons_self).1
      have hmem := hs.order.mem_iff.mp (List.mem_of_getElem? hstep)
      rcases (hs.restored_yields htodo).mp (hall ⟨_, p⟩ hmem hp) with ⟨-, hrest⟩ | ⟨j, hj, hjk, -⟩
      · exact hrest
      · rw [hs.step_unique hstep hjk] at hnd
        exact absurd hj hnd.1

end IPV4TargetSet
end Nodescan
