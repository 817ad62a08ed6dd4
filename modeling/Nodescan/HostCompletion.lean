import Nodescan.IntervalList
import Nodescan.Enumeration

/-!
# The completion of a host

`target_finished` adds the port to the host's list of intervals and compares the size of that list
with the number of ports of the set. The list is aggregated only when it has grown past 100
intervals, so what is compared is a sum of widths; for ports that finish once it is the number of
the finished ports, and the host is complete with its last port.
-/

namespace Nodescan

/-- `HostSM::port_done` on the list of intervals of the host. -/
def portDone (agg : IntervalList.Aggregation) (code : PortCode) (done : List IntervalList.Interval)
    (p : Port) : List IntervalList.Interval :=
  IntervalList.add agg 100 done (code.asU32 p).toNat

/-- `HostSM::ports_done_count`, after `port_done` for each of the ports. -/
def portsDoneCount (agg : IntervalList.Aggregation) (code : PortCode) (ps : List Port) : ℕ :=
  IntervalList.size (ps.foldl (portDone agg code) [])

theorem portsDone_eq (agg : IntervalList.Aggregation) (code : PortCode) (ps : List Port)
    (l : List IntervalList.Interval) : ps.foldl (portDone agg code) l =
      (ps.map (fun p => (code.asU32 p).toNat)).foldl (IntervalList.add agg 100) l := by
  rw [List.foldl_map]
  rfl

theorem portsDoneCount_nodup (agg : IntervalList.Aggregation) (code : PortCode) {ps : List Port}
    (h : ps.Nodup) : portsDoneCount agg code ps = ps.length := by
  have hinj : Function.Injective (fun p => (code.asU32 p).toNat) :=
    fun p p' heq => code.injective (UInt32.toNat_inj.mp heq)
  rw [portsDoneCount, portsDone_eq, IntervalList.size_of_nodup agg 100 (h.map hinj),
    List.length_map]

theorem portsDoneCount_le (agg : IntervalList.Aggregation) (code : PortCode) (ps : List Port) :
    portsDoneCount agg code ps ≤ ps.length := by
  have hsize := (IntervalList.size_foldl_add agg 100 []
    (ps.map (fun p => (code.asU32 p).toNat))).2
  rw [portsDoneCount, portsDone_eq]
  simpa [IntervalList.size] using hsize

variable {γ δ ρ : Type}

/-- The library with the lists of intervals of the hosts. -/
def Leeloo.withIntervals (lib : Leeloo γ δ ρ) (agg : IntervalList.Aggregation) (code : PortCode) :
    Leeloo γ δ ρ :=
  { lib with
    portsSize := portsDoneCount agg code
    portsSize_nodup := portsDoneCount_nodup agg code
    portsSize_le := portsDoneCount_le agg code }

/-- The set counts the ports of its list and gives these only. -/
structure OwnPorts (lib : Leeloo γ δ ρ) (ports : List Port) (ts : IPV4TargetSet γ δ ρ) : Prop where
  ports_eq : ts.ports = ports
  count : ts.portsCount lib = ports.length
  rest : ports ≠ [] → ∀ p ∈ lib.port.rest ts.randPort, p ∈ ports

namespace OwnPorts

variable {lib : Leeloo γ δ ρ} {ports : List Port} {ts : IPV4TargetSet γ δ ρ}

theorem init (h : ts.ports = ports) : OwnPorts lib ports (ts.init lib) where
  ports_eq := h
  count := h ▸ lib.port.init_size ts.ports ts.mtRandPorts
  rest := fun _ _ hp => h ▸ (lib.port.init_rest _ _).mem_iff.mp hp

theorem advance (h : OwnPorts lib ports ts) : OwnPorts lib ports (ts.advance lib) ∧
    (ports ≠ [] → lib.port.rest (ts.advance lib).randPort ≠ []) := by
  unfold IPV4TargetSet.advance
  split_ifs with hend
  · refine ⟨⟨h.ports_eq, ?_, fun _ p hp => ?_⟩, fun hne hnil => ?_⟩
    · rw [← h.ports_eq]
      exact lib.port.init_size ts.ports ts.mtRandPorts
    · rw [← h.ports_eq]
      exact (lib.port.init_rest _ _).mem_iff.mp hp
    · have hperm := lib.port.init_rest ts.ports ts.mtRandPorts
      rw [hnil, h.ports_eq, List.nil_perm] at hperm
      exact hne hperm
  · exact ⟨h, fun _ => by rwa [lib.port.isEnd_iff] at hend⟩

theorem nextTarget (h : OwnPorts lib ports ts) : OwnPorts lib ports (ts.nextTarget lib).2 ∧
    ((ts.nextTarget lib).1.isEnd = false → ports ≠ [] → (ts.nextTarget lib).1.port ∈ ports) := by
  obtain ⟨ha, hrest⟩ := h.advance
  unfold IPV4TargetSet.nextTarget
  dsimp only
  split_ifs
  · exact ⟨ha, fun hend => absurd (show Target.endMark.isEnd = false from hend) (by decide)⟩
  · have hdraw : ports ≠ [] → ∃ p l, lib.port.rest (ts.advance lib).randPort = p :: l :=
      fun hne => List.exists_cons_of_ne_nil (hrest hne)
    refine ⟨⟨ha.ports_eq, (lib.port.draw_size _ _).trans ha.count, fun hne p hp => ?_⟩,
      fun _ hne => ?_⟩
    · obtain ⟨q, l, hql⟩ := hdraw hne
      rw [(lib.port.draw_eq hql).2] at hp
      exact ha.rest hne p (by rw [hql]; exact List.mem_cons_of_mem q hp)
    · obtain ⟨q, l, hql⟩ := hdraw hne
      change (lib.port.draw (ts.advance lib).ports (ts.advance lib).randPort).1 ∈ ports
      rw [(lib.port.draw_eq hql).1]
      exact ha.rest hne q (by simp [hql])

theorem targetFinished (h : OwnPorts lib ports ts) (stray : ℕ) (t : Target) (hsm : HostSM) :
    OwnPorts lib ports (ts.targetFinished lib stray t hsm).2 := by
  unfold IPV4TargetSet.targetFinished
  dsimp only
  split_ifs
  · exact ⟨h.ports_eq, h.count, h.rest⟩
  · exact h

end OwnPorts

/-- A set under scan with the states of its hosts, by address. A host that was deleted, or not
seen yet, is as new. -/
structure HostTable (γ δ ρ : Type) where
  set : IPV4TargetSet γ δ ρ
  hosts : UInt32 → HostSM

/-- A call on the set, with the state of the target's host. -/
inductive SetCall
  | nextTarget
  | initHostSm (ip : UInt32)
  | targetFinished (t : Target)

def SetCall.finished? : SetCall → Option Target
  | .targetFinished t => some t
  | _ => none

/-- The targets finished by the calls. -/
def finishedBy (calls : List SetCall) : List Target := calls.filterMap SetCall.finished?

namespace HostTable

variable (lib : Leeloo γ δ ρ) (stray : ℕ)

/-- No host yet. -/
def start (ts : IPV4TargetSet γ δ ρ) : HostTable γ δ ρ := ⟨ts, fun _ => .new⟩

/-- What `target_finished` answers. -/
def answer (h : HostTable γ δ ρ) (t : Target) : Bool :=
  (h.set.targetFinished lib stray t (h.hosts t.ipv4)).1.1

/-- A call; `socket_finished` deletes the host's state on the answer `true`. -/
def step (h : HostTable γ δ ρ) : SetCall → HostTable γ δ ρ
  | .nextTarget => { h with set := (h.set.nextTarget lib).2 }
  | .initHostSm ip =>
    { h with hosts := Function.update h.hosts ip (h.set.initHostSm lib (h.hosts ip)) }
  | .targetFinished t =>
    let r := h.set.targetFinished lib stray t (h.hosts t.ipv4)
    ⟨r.2, Function.update h.hosts t.ipv4 (if r.1.1 then .new else r.1.2)⟩

def run (h : HostTable γ δ ρ) (calls : List SetCall) : HostTable γ δ ρ :=
  calls.foldl (step lib stray) h

/-- The ports of the address among the finished targets, in their order. -/
def portsOf (ip : UInt32) (fin : List Target) : List Port :=
  (fin.filter (fun t => t.ipv4 = ip)).map Target.port

variable {lib stray} {fin : List Target} {ip : UInt32} {p : Port} {t : Target}

theorem mem_portsOf : p ∈ portsOf ip fin ↔ ⟨ip, p⟩ ∈ fin := by
  simp only [portsOf, List.mem_map, List.mem_filter, decide_eq_true_eq]
  constructor
  · rintro ⟨t, ⟨ht, rfl⟩, rfl⟩
    exact ht
  · exact fun h => ⟨⟨ip, p⟩, ⟨h, rfl⟩, rfl⟩

theorem portsOf_nodup (h : fin.Nodup) : (portsOf ip fin).Nodup := by
  refine List.Nodup.map_on ?_ (h.filter _)
  rintro ⟨a, q⟩ ht ⟨b, q'⟩ ht' rfl
  have ha : a = ip := by simpa using List.of_mem_filter ht
  have hb : b = ip := by simpa using List.of_mem_filter ht'
  rw [ha, hb]

theorem portsOf_append_self : portsOf t.ipv4 (fin ++ [t]) = portsOf t.ipv4 fin ++ [t.port] := by
  simp [portsOf, List.filter_append]

theorem portsOf_append_of_ne (h : ip ≠ t.ipv4) : portsOf ip (fin ++ [t]) = portsOf ip fin := by
  simp [portsOf, List.filter_append, h.symm]

theorem portsOf_filter_self : portsOf ip (fin.filter (·.ipv4 ≠ ip)) = [] := by
  simp [portsOf, List.filter_filter]

theorem portsOf_filter_of_ne {a : UInt32} (h : ip ≠ a) :
    portsOf ip (fin.filter (·.ipv4 ≠ a)) = portsOf ip fin := by
  rw [portsOf, portsOf, List.filter_filter]
  congr 1
  refine List.filter_congr (fun t _ => ?_)
  by_cases ht : t.ipv4 = ip
  · simp [ht, h]
  · simp [ht]

theorem length_eq_iff {α : Type} {l ps : List α} (hl : l.Nodup) (hps : ps.Nodup)
    (hsub : ∀ a ∈ l, a ∈ ps) : l.length = ps.length ↔ ∀ a ∈ ps, a ∈ l := by
  have hsubperm : l.Subperm ps := List.subperm_of_subset hl hsub
  constructor
  · intro hlen a ha
    exact ((hsubperm.perm_of_length_le hlen.ge).mem_iff).mpr ha
  · intro hall
    exact le_antisymm hsubperm.length_le (List.subperm_of_subset hps hall).length_le

/-- The states of the hosts after the targets `fin` finished on a set with the ports `ports`. -/
structure Counts (lib : Leeloo γ δ ρ) (ports : List Port) (fin : List Target)
    (h : HostTable γ δ ρ) : Prop where
  own : OwnPorts lib ports h.set
  /-- A host that is not complete has its finished ports. -/
  open_host : ∀ ip, (∃ p ∈ ports, ⟨ip, p⟩ ∉ fin) → (h.hosts ip).portsDone = portsOf ip fin

variable {ports : List Port} {h : HostTable γ δ ρ}

theorem Counts.answer_iff (hc : Counts lib ports fin h) (hports : ports.Nodup)
    (hfin : (fin ++ [t]).Nodup) (hmem : ∀ t' ∈ fin ++ [t], t'.port ∈ ports) :
    h.answer lib stray t = true ↔ ∀ p ∈ ports, ⟨t.ipv4, p⟩ ∈ fin ++ [t] := by
  have hnew : (⟨t.ipv4, t.port⟩ : Target) ∉ fin :=
    fun ht => (List.nodup_append.mp hfin).2.2 t ht t (by simp) rfl
  have hhost := hc.open_host t.ipv4 ⟨t.port, hmem t (by simp), hnew⟩
  have hnodup : (portsOf t.ipv4 (fin ++ [t])).Nodup := portsOf_nodup hfin
  have hsub : ∀ p ∈ portsOf t.ipv4 (fin ++ [t]), p ∈ ports :=
    fun p hp => hmem _ (mem_portsOf.mp hp)
  have hanswer : h.answer lib stray t = true ↔
      lib.portsSize (portsOf t.ipv4 (fin ++ [t])) = h.set.portsCount lib := by
    have hdone : ((h.hosts t.ipv4).portDone t.port).portsDone = portsOf t.ipv4 (fin ++ [t]) := by
      rw [portsOf_append_self, ← hhost]
      rfl
    dsimp only [answer, IPV4TargetSet.targetFinished]
    rw [hdone]
    split_ifs with heq <;> simp [heq]
  rw [hanswer, lib.portsSize_nodup hnodup, hc.own.count, length_eq_iff hnodup hports hsub]
  simp only [mem_portsOf]

theorem Counts.finished (hc : Counts lib ports fin h) (hports : ports.Nodup)
    (hfin : (fin ++ [t]).Nodup) (hmem : ∀ t' ∈ fin ++ [t], t'.port ∈ ports) :
    Counts lib ports (fin ++ [t]) (h.step lib stray (.targetFinished t)) := by
  refine ⟨hc.own.targetFinished stray t _, fun ip hip => ?_⟩
  · obtain ⟨p, hp, hopen⟩ := hip
    have hopen' : (⟨ip, p⟩ : Target) ∉ fin := fun hin => hopen (List.mem_append_left _ hin)
    have hdone := hc.open_host ip ⟨p, hp, hopen'⟩
    by_cases hne : ip = t.ipv4
    · -- its host is not complete, so it was not deleted
      subst hne
      have hfalse : h.answer lib stray t = false := by
        rw [← Bool.not_eq_true, hc.answer_iff hports hfin hmem]
        exact fun hall => hopen (hall p hp)
      have hhost : ((h.set.targetFinished lib stray t (h.hosts t.ipv4)).1.2).portsDone =
          (h.hosts t.ipv4).portsDone ++ [t.port] := by
        dsimp only [IPV4TargetSet.targetFinished]
        split_ifs <;> rfl
      rw [answer] at hfalse
      simp only [step, hfalse, Function.update_self, Bool.false_eq_true, if_false]
      rw [hhost, hdone, portsOf_append_self]
    · rw [portsOf_append_of_ne hne, ← hdone]
      simp only [step, Function.update_of_ne hne]

theorem Counts.step (hc : Counts lib ports fin h) (hports : ports.Nodup) (c : SetCall)
    (hfin : (fin ++ c.finished?.toList).Nodup)
    (hmem : ∀ t' ∈ fin ++ c.finished?.toList, t'.port ∈ ports) :
    Counts lib ports (fin ++ c.finished?.toList) (h.step lib stray c) := by
  cases c with
  | nextTarget =>
    exact ⟨hc.own.nextTarget.1, by simpa [SetCall.finished?, HostTable.step] using hc.open_host⟩
  | initHostSm ip =>
    refine ⟨hc.own, fun ip' hip => ?_⟩
    have hdone := hc.open_host ip' (by simpa [SetCall.finished?] using hip)
    by_cases heq : ip' = ip
    · subst heq
      simpa [HostTable.step, IPV4TargetSet.initHostSm, SetCall.finished?] using hdone
    · simpa [HostTable.step, heq, SetCall.finished?] using hdone
  | targetFinished t => exact hc.finished hports hfin hmem

theorem Counts.run (hc : Counts lib ports fin h) (hports : ports.Nodup) (stray : ℕ)
    (calls : List SetCall) (hfin : (fin ++ finishedBy calls).Nodup)
    (hmem : ∀ t ∈ fin ++ finishedBy calls, t.port ∈ ports) :
    Counts lib ports (fin ++ finishedBy calls) (h.run lib stray calls) := by
  induction calls generalizing fin h with
  | nil => simpa [finishedBy, HostTable.run] using hc
  | cons c calls ih =>
    have hcons : finishedBy (c :: calls) = c.finished?.toList ++ finishedBy calls := by
      cases hf : c.finished? <;> simp [finishedBy, hf]
    rw [hcons, ← List.append_assoc] at hfin hmem ⊢
    refine ih (hc.step hports c (List.nodup_append.mp hfin).1 fun t ht => ?_) hfin hmem
    exact hmem t (List.mem_append_left _ ht)

/-- Whatever was called on the set before, with no target finished twice: the call for a target
answers `true` iff all the ports of its address have then finished. -/
theorem completed_at_last_port (lib : Leeloo γ δ ρ) (agg : IntervalList.Aggregation)
    (code : PortCode) (stray : ℕ) (ts : IPV4TargetSet γ δ ρ) (hports : ts.ports.Nodup)
    (calls : List SetCall) (t : Target) (hfin : (finishedBy calls ++ [t]).Nodup)
    (hmem : ∀ t' ∈ finishedBy calls ++ [t], t'.port ∈ ts.ports) :
    ((start (ts.init lib)).run (lib.withIntervals agg code) stray calls).answer
        (lib.withIntervals agg code) stray t = true ↔
      ∀ p ∈ ts.ports, ⟨t.ipv4, p⟩ ∈ finishedBy calls ++ [t] := by
  have hstart : Counts (lib.withIntervals agg code) ts.ports [] (start (ts.init lib)) :=
    ⟨.init rfl, fun _ _ => rfl⟩
  have hrun := hstart.run hports stray calls (List.nodup_append.mp hfin).1
    (fun t' ht' => hmem t' (List.mem_append_left _ ht'))
  exact hrun.answer_iff hports hfin hmem

/-- The ports of two addresses finish in turns. -/
def inTurns : List SetCall :=
  [.nextTarget, .initHostSm 1, .nextTarget, .nextTarget, .initHostSm 2,
    .targetFinished ⟨1, ⟨443, .tcp⟩⟩, .nextTarget, .targetFinished ⟨2, ⟨80, .tcp⟩⟩]

theorem completed_in_turns :
    ((start (IPV4TargetSet.small.init Leeloo.inOrder)).run
        (Leeloo.inOrder.withIntervals .byInsertion .packed) 0 inTurns).answer
        (Leeloo.inOrder.withIntervals .byInsertion .packed) 0 ⟨1, ⟨80, .tcp⟩⟩ = true :=
  (completed_at_last_port Leeloo.inOrder .byInsertion .packed 0 IPV4TargetSet.small (by decide)
    inTurns ⟨1, ⟨80, .tcp⟩⟩ (by decide) (by decide)).mpr (by decide)

end HostTable
end Nodescan
