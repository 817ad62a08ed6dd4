import Nodescan.HostInvariants
import Nodescan.HostCompletion

/-!
# The steps marked done

When the ports of an address have all finished, an `IPV4TargetSet` marks done the step that
`init_host_sm` left in the state of the host. Here the set is run with a record of the addresses it
emitted in the current enumeration, each with its step, of the addresses a connection was started
to, of the targets that finished since their address was last completed, and of the calls of
`step_done`. The index of a call is right if a connection to the address was started in the current
enumeration; otherwise it is a step of an earlier one, or was never set. And a call comes when all
the ports have finished if the list of the ports done counts none of them twice.
-/

namespace Nodescan

open FaultM EngineM

variable {ω F γ δ ρ : Type}

/-- A call of `step_done`, for the address `ip`: the index in the state of the host, whether a
connection to the address had been started, what had been emitted, the ports of the set, and those
of the address that had finished since it was last completed. -/
structure StepDone where
  ip : UInt32
  index : Option ℕ
  started : Bool
  emitted : List (UInt32 × ℕ)
  ports : List Port
  finished : List Port
  deriving DecidableEq

/-- The ports of the address have all finished, and the step marked done is one at which the address
was emitted in the current enumeration. -/
structure StepDone.Right (c : StepDone) : Prop where
  index : ∃ k, c.index = some k ∧ (c.ip, k) ∈ c.emitted
  finished : ∀ p ∈ c.ports, p ∈ c.finished

/-- The list of the ports done counts no port of the address twice. -/
def StepDone.CountedOnce (lib : Leeloo γ δ ρ) (c : StepDone) : Prop :=
  lib.portsSize c.finished = c.finished.dedup.length

instance (lib : Leeloo γ δ ρ) (c : StepDone) : Decidable (c.CountedOnce lib) :=
  inferInstanceAs (Decidable (_ = _))

structure Recorded (γ δ ρ : Type) where
  set : IPV4TargetSet γ δ ρ
  /-- The addresses of the current enumeration, with their steps. -/
  emitted : List (UInt32 × ℕ)
  /-- The addresses a connection was started to in the current enumeration. -/
  started : List UInt32
  /-- The targets that finished since their address was last completed. -/
  finished : List Target
  calls : List StepDone

namespace Recorded

variable (lib : Leeloo γ δ ρ) (stray : ℕ)

def start (ts : IPV4TargetSet γ δ ρ) : Recorded γ δ ρ := ⟨ts, [], [], [], []⟩

def init (r : Recorded γ δ ρ) : Recorded γ δ ρ :=
  { r with set := r.set.init lib, emitted := [], started := [] }

def currentStep (ts : IPV4TargetSet γ δ ρ) : ℕ := (lib.v4.todo ts.randV4).headD 0

def nextTarget (r : Recorded γ δ ρ) : Target × Recorded γ δ ρ :=
  let n := r.set.nextTarget lib
  (n.1, { r with
    set := n.2
    emitted := if n.1.isEnd then r.emitted
      else (n.1.ipv4, currentStep lib n.2) :: r.emitted })

/-- The ports of the address of `t` that have finished, `t` included. -/
def portsWith (r : Recorded γ δ ρ) (t : Target) : List Port :=
  HostTable.portsOf t.ipv4 (r.finished ++ [t])

def targetFinished (t : Target) (hsm : HostSM) (r : Recorded γ δ ρ) :
    (Bool × HostSM) × Recorded γ δ ρ :=
  let f := r.set.targetFinished lib stray t hsm
  (f.1, if f.1.1 then
      { r with
        set := f.2
        started := r.started.filter (· ≠ t.ipv4)
        finished := r.finished.filter (·.ipv4 ≠ t.ipv4)
        calls := ⟨t.ipv4, hsm.randIdxIp, t.ipv4 ∈ r.started, r.emitted, r.set.ports,
          r.portsWith t⟩ :: r.calls }
    else { r with set := f.2, finished := r.finished ++ [t] })

def initHostSm (t : Target) (hsm : HostSM) (r : Recorded γ δ ρ) : HostSM × Recorded γ δ ρ :=
  (r.set.initHostSm lib hsm, { r with started := t.ipv4 :: r.started })

/-- An `IPV4TargetSet` with its record. -/
def targetSet : TargetSet (Recorded γ δ ρ) where
  init := init lib
  nextTarget r := (.target (r.nextTarget lib).1, (r.nextTarget lib).2)
  targetFinished t hsm r := r.targetFinished lib stray t hsm
  initHostSm t hsm r := r.initHostSm lib t hsm

end Recorded

/-- `IPV4TargetSet`, or `RepeatableTargetSet<IPV4TargetSet>`, with its record. -/
def recordedSet (lib : Leeloo γ δ ρ) (stray : ℕ) : Bool → TargetSet (Recorded γ δ ρ)
  | false => Recorded.targetSet lib stray
  | true => (Recorded.targetSet lib stray).repeatable

variable {w : World ω F} {cfg : Config F} {lib : Leeloo γ δ ρ} {stray : ℕ}

/-- The record does not change what the set does. -/
theorem recordedSet_nextTarget (r : Recorded γ δ ρ) :
    ((recordedSet lib stray false).nextTarget r).1 = .target (r.set.nextTarget lib).1 ∧
      ((recordedSet lib stray false).nextTarget r).2.set = (r.set.nextTarget lib).2 ∧
      ((recordedSet lib stray true).nextTarget r).1 = .target (repeatableNextTarget lib r.set).1 ∧
      ((recordedSet lib stray true).nextTarget r).2.set = (repeatableNextTarget lib r.set).2 := by
  refine ⟨rfl, rfl, ?_⟩
  simp only [recordedSet, TargetSet.repeatable, Recorded.targetSet, Recorded.nextTarget,
    repeatableNextTarget]
  by_cases hend : (r.set.nextTarget lib).1.isEnd = true
  · simp only [hend, if_true]
    exact ⟨rfl, rfl⟩
  · simp only [hend]
    exact ⟨rfl, rfl⟩

theorem recorded_targetFinished (r : Recorded γ δ ρ) (t : Target) (hsm : HostSM) :
    (r.targetFinished lib stray t hsm).1 = (r.set.targetFinished lib stray t hsm).1 ∧
      (r.targetFinished lib stray t hsm).2.set = (r.set.targetFinished lib stray t hsm).2 := by
  refine ⟨rfl, ?_⟩
  simp only [Recorded.targetFinished]
  split_ifs
  · rfl
  · rfl

/-- The port of `t` is one of the list, if there are any. -/
def Target.PortFrom (ports : List Port) (t : Target) : Prop := ports ≠ [] → t.port ∈ ports

theorem all_finished {ports l : List Port} (hsub : ports ≠ [] → ∀ p ∈ l, p ∈ ports)
    (hsize : lib.portsSize l = ports.length) (honce : lib.portsSize l = l.dedup.length) :
    ∀ p ∈ ports, p ∈ l := by
  intro p hp
  have hsubperm : l.dedup.Subperm ports := List.subperm_of_subset l.nodup_dedup
    (fun q hq => hsub (List.ne_nil_of_mem hp) q (List.mem_dedup.mp hq))
  have hperm := hsubperm.perm_of_length_le (hsize.symm.trans honce).le
  exact List.mem_dedup.mp (hperm.mem_iff.mpr hp)

/-- The index in the state of a started address is a step at which it was emitted, the ports done
of an address are those that finished since it was last completed, and the calls made so far are
right where they meet the conditions. -/
structure StepsRight (lib : Leeloo γ δ ρ) (ports : List Port)
    (e : Engine (ω × Recorded γ δ ρ) F) : Prop where
  own : OwnPorts lib ports e.world.2.set
  indexed : ∀ ip ∈ e.world.2.started, ∃ k, (e.hostOf ip).randIdxIp = some k ∧
    (ip, k) ∈ e.world.2.emitted
  counted : ∀ ip, (e.hostOf ip).portsDone = HostTable.portsOf ip e.world.2.finished
  finished : ∀ t ∈ e.world.2.finished, t.PortFrom ports
  registered : ∀ t, e.Registers t → t.PortFrom ports
  calls : ∀ c ∈ e.world.2.calls, c.started = true → c.CountedOnce lib → c.Right

/-- The target set has just emitted `t`. -/
def JustEmitted (lib : Leeloo γ δ ρ) (t : Target) (r : Recorded γ δ ρ) : Prop :=
  (t.ipv4, lib.v4.getCurrentStep r.set.randV4) ∈ r.emitted

theorem nextTarget_step {ts : IPV4TargetSet γ δ ρ} (h : (ts.nextTarget lib).1.isEnd = false) :
    lib.v4.getCurrentStep (ts.nextTarget lib).2.randV4 =
      Recorded.currentStep lib (ts.nextTarget lib).2 := by
  have hne : lib.v4.isEnd (ts.advance lib).randV4 = false := by
    by_contra hend
    rw [Bool.not_eq_false] at hend
    simp only [IPV4TargetSet.nextTarget, hend, if_true] at h
    exact absurd h (by decide)
  have hv4 : (ts.nextTarget lib).2.randV4 = (ts.advance lib).randV4 := by
    simp only [IPV4TargetSet.nextTarget, hne]
    rfl
  rw [Recorded.currentStep, hv4]
  cases htodo : lib.v4.todo (ts.advance lib).randV4 with
  | nil =>
    rw [(lib.v4.isEnd_iff _).mpr htodo] at hne
    exact absurd hne (by simp)
  | cons k l => exact lib.v4.getCurrentStep_eq htodo

theorem justEmitted_nextTarget {r : Recorded γ δ ρ}
    (h : (r.nextTarget lib).1.isEnd = false) :
    JustEmitted lib (r.nextTarget lib).1 (r.nextTarget lib).2 := by
  have hend : (r.set.nextTarget lib).1.isEnd = false := h
  have hem : (r.nextTarget lib).2.emitted =
      ((r.set.nextTarget lib).1.ipv4, Recorded.currentStep lib (r.set.nextTarget lib).2) ::
        r.emitted := by
    simp [Recorded.nextTarget, hend]
  have hstep := nextTarget_step hend
  have hset : (r.nextTarget lib).2.set = (r.set.nextTarget lib).2 := rfl
  rw [JustEmitted, hem, hset, hstep]
  exact List.mem_cons_self

namespace StepsRight

variable {ports : List Port} {e e' : Engine (ω × Recorded γ δ ρ) F} {t : Target} {hsm : HostSM}

theorem of_hosts (h : StepsRight lib ports e) (ho : e'.world.2 = e.world.2)
    (hh : KeepsHosts e e') (ht : ∀ t, e'.Registers t → t.PortFrom ports) :
    StepsRight lib ports e' where
  own := ho ▸ h.own
  indexed := by
    intro ip hip
    rw [ho] at hip ⊢
    rw [(hh ip).randIdxIp]
    exact h.indexed ip hip
  counted := by
    intro ip
    rw [ho, (hh ip).portsDone]
    exact h.counted ip
  finished := ho ▸ h.finished
  registered := ht
  calls := ho ▸ h.calls

theorem next (h : StepsRight lib ports e) :
    StepsRight lib ports { e with world := (e.world.1, (e.world.2.nextTarget lib).2) } where
  own := h.own.nextTarget.1
  indexed := by
    intro ip hip
    obtain ⟨k, hk, hem⟩ := h.indexed ip hip
    refine ⟨k, hk, ?_⟩
    change (ip, k) ∈ (e.world.2.nextTarget lib).2.emitted
    simp only [Recorded.nextTarget]
    split_ifs
    · exact hem
    · exact List.mem_cons_of_mem _ hem
  counted := h.counted
  finished := h.finished
  registered := h.registered
  calls := h.calls

/-- A new round begins with no address started. -/
theorem round (h : StepsRight lib ports e) :
    StepsRight lib ports { e with world := (e.world.1, e.world.2.init lib) } where
  own := .init h.own.ports_eq
  indexed := by simp [Recorded.init]
  counted := h.counted
  finished := h.finished
  registered := h.registered
  calls := h.calls

theorem nextTarget (repeats : Bool) (h : StepsRight lib ports e) :
    StepsRight lib ports { e with
      world := (e.world.1, ((recordedSet lib stray repeats).nextTarget e.world.2).2) } := by
  have hnext : StepsRight lib ports
      { e with world := (e.world.1, (e.world.2.nextTarget lib).2) } := h.next
  cases repeats with
  | false => exact hnext
  | true =>
    simp only [recordedSet, TargetSet.repeatable, Recorded.targetSet]
    split_ifs
    · exact hnext.round.next
    · exact hnext

theorem emitted (repeats : Bool) (h : StepsRight lib ports e)
    (ht : ((recordedSet lib stray repeats).nextTarget e.world.2).1 = .target t)
    (hend : t.isEnd = false) : t.PortFrom ports ∧
      JustEmitted lib t ((recordedSet lib stray repeats).nextTarget e.world.2).2 := by
  cases repeats with
  | false =>
    have ht' : (e.world.2.nextTarget lib).1 = t := NextTarget.target.inj ht
    rw [← ht'] at hend ⊢
    exact ⟨h.own.nextTarget.2 hend, justEmitted_nextTarget hend⟩
  | true =>
    simp only [recordedSet, TargetSet.repeatable, Recorded.targetSet] at ht ⊢
    by_cases hround : (e.world.2.nextTarget lib).1.isEnd = true
    · simp only [hround, if_true] at ht ⊢
      have ht' := NextTarget.target.inj ht
      rw [← ht'] at hend ⊢
      exact ⟨h.next.round.own.nextTarget.2 hend, justEmitted_nextTarget hend⟩
    · simp only [hround] at ht ⊢
      have ht' : (e.world.2.nextTarget lib).1 = t := NextTarget.target.inj ht
      rw [← ht'] at hend ⊢
      exact ⟨h.own.nextTarget.2 hend, justEmitted_nextTarget hend⟩

/-- The call of `step_done` for `t`. -/
theorem call_right (h : StepsRight lib ports e) (ht : t.PortFrom ports)
    (hhsm : e.hostsSms[t.ipv4]? = some hsm)
    (hdone : (e.world.2.set.targetFinished lib stray t hsm).1.1 = true)
    (hstarted : t.ipv4 ∈ e.world.2.started)
    (honce : lib.portsSize (e.world.2.portsWith t) = (e.world.2.portsWith t).dedup.length) :
    (∃ k, hsm.randIdxIp = some k ∧ (t.ipv4, k) ∈ e.world.2.emitted) ∧
      ∀ p ∈ e.world.2.set.ports, p ∈ e.world.2.portsWith t := by
  have hhost : e.hostOf t.ipv4 = hsm := by rw [Engine.hostOf, hhsm, Option.getD_some]
  refine ⟨hhost ▸ h.indexed _ hstarted, ?_⟩
  have hports : (hsm.portDone t.port).portsDone = e.world.2.portsWith t := by
    rw [Recorded.portsWith, HostTable.portsOf_append_self, ← h.counted, hhost]
    rfl
  rw [IPV4TargetSet.targetFinished_fst, decide_eq_true_eq, hports, h.own.count] at hdone
  rw [h.own.ports_eq]
  refine all_finished (fun hne p hp => ?_) hdone honce
  rcases List.mem_append.mp (HostTable.mem_portsOf.mp hp) with hmem | hmem
  · exact h.finished _ hmem hne
  · have hp : p = t.port := congrArg Target.port (List.mem_singleton.mp hmem)
    exact hp ▸ ht hne

/-- The host of `t` is complete: a step is marked done. -/
theorem completed (h : StepsRight lib ports e) (ht : t.PortFrom ports)
    (hhsm : e.hostsSms[t.ipv4]? = some hsm)
    (hf : (e.world.2.set.targetFinished lib stray t hsm).1.1 = true)
    (hworld : e'.world.2 = (e.world.2.targetFinished lib stray t hsm).2)
    (hhost : e'.hostOf t.ipv4 = .new) (hother : ∀ ip, ip ≠ t.ipv4 → e'.hostOf ip = e.hostOf ip)
    (hreg : ∀ u, e'.Registers u → e.Registers u) : StepsRight lib ports e' := by
  have hrecord : e'.world.2 = { e.world.2 with
      set := (e.world.2.set.targetFinished lib stray t hsm).2
      started := e.world.2.started.filter (· ≠ t.ipv4)
      finished := e.world.2.finished.filter (·.ipv4 ≠ t.ipv4)
      calls := ⟨t.ipv4, hsm.randIdxIp, t.ipv4 ∈ e.world.2.started, e.world.2.emitted,
        e.world.2.set.ports, e.world.2.portsWith t⟩ :: e.world.2.calls } := by
    rw [hworld, Recorded.targetFinished, hf]
    rfl
  refine ⟨hrecord ▸ h.own.targetFinished stray t hsm, fun ip hip => ?_, fun ip => ?_,
    fun u hu => ?_, fun u hu => h.registered u (hreg u hu), fun c hc => ?_⟩
  · rw [hrecord] at hip ⊢
    obtain ⟨hip, hne⟩ := List.mem_filter.mp hip
    rw [hother ip (of_decide_eq_true hne)]
    exact h.indexed ip hip
  · rw [hrecord]
    by_cases hip : ip = t.ipv4
    · rw [hip, hhost, HostTable.portsOf_filter_self]
      rfl
    · rw [hother ip hip, HostTable.portsOf_filter_of_ne hip]
      exact h.counted ip
  · rw [hrecord] at hu
    exact h.finished u (List.mem_of_mem_filter hu)
  · rw [hrecord] at hc
    rcases List.mem_cons.mp hc with rfl | hc
    · intro hstarted honce
      obtain ⟨hindex, hall⟩ := h.call_right ht hhsm hf (of_decide_eq_true hstarted) honce
      exact ⟨hindex, hall⟩
    · exact h.calls c hc

/-- The host of `t` has ports to come. -/
theorem continued (h : StepsRight lib ports e) (ht : t.PortFrom ports)
    (hhsm : e.hostsSms[t.ipv4]? = some hsm)
    (hf : (e.world.2.set.targetFinished lib stray t hsm).1.1 = false)
    (hworld : e'.world.2 = (e.world.2.targetFinished lib stray t hsm).2)
    (hhost : e'.hostOf t.ipv4 = hsm.portDone t.port)
    (hother : ∀ ip, ip ≠ t.ipv4 → e'.hostOf ip = e.hostOf ip)
    (hreg : ∀ u, e'.Registers u → e.Registers u) : StepsRight lib ports e' := by
  have hbefore : e.hostOf t.ipv4 = hsm := by rw [Engine.hostOf, hhsm, Option.getD_some]
  have hrecord : e'.world.2 = { e.world.2 with
      set := (e.world.2.set.targetFinished lib stray t hsm).2
      finished := e.world.2.finished ++ [t] } := by
    rw [hworld, Recorded.targetFinished, hf]
    rfl
  have hsame : ∀ ip, (e'.hostOf ip).randIdxIp = (e.hostOf ip).randIdxIp := by
    intro ip
    by_cases hip : ip = t.ipv4
    · rw [hip, hhost, hbefore]
      rfl
    · rw [hother ip hip]
  refine ⟨hrecord ▸ h.own.targetFinished stray t hsm, fun ip hip => ?_, fun ip => ?_,
    fun u hu => ?_, fun u hu => h.registered u (hreg u hu), hrecord ▸ h.calls⟩
  · rw [hrecord] at hip ⊢
    rw [hsame]
    exact h.indexed ip hip
  · rw [hrecord]
    by_cases hip : ip = t.ipv4
    · rw [hip, hhost, HostTable.portsOf_append_self, ← h.counted, hbefore]
      rfl
    · rw [hother ip hip, HostTable.portsOf_append_of_ne hip]
      exact h.counted ip
  · rw [hrecord] at hu
    rcases List.mem_append.mp hu with hu | hu
    · exact h.finished u hu
    · exact List.mem_singleton.mp hu ▸ ht

theorem finishHost (repeats : Bool) (h : StepsRight lib ports e) (ht : t.PortFrom ports)
    (hhsm : e.hostsSms[t.ipv4]? = some hsm) :
    StepsRight lib ports (e.finishHost (w.withTargets (recordedSet lib stray repeats)) t hsm) := by
  have hset : (recordedSet lib stray repeats).targetFinished t hsm e.world.2 =
      e.world.2.targetFinished lib stray t hsm := by
    cases repeats <;> rfl
  have hworld := congrArg Prod.snd hset
  have hhosts : ∀ ip,
      (e.finishHost (w.withTargets (recordedSet lib stray repeats)) t hsm).hostOf ip =
        if ip = t.ipv4 then
          if (e.world.2.set.targetFinished lib stray t hsm).1.1 then .new else hsm.portDone t.port
        else e.hostOf ip := by
    intro ip
    have hanswer :
        ((w.withTargets (recordedSet lib stray repeats)).targetFinished t hsm e.world).1 =
          (e.world.2.set.targetFinished lib stray t hsm).1 := congrArg Prod.fst hset
    rw [Engine.finishHost_hostOf, hanswer, IPV4TargetSet.targetFinished_fst]
  have hown := hhosts t.ipv4
  rw [if_pos rfl] at hown
  cases hf : (e.world.2.set.targetFinished lib stray t hsm).1.1 with
  | true =>
    rw [hf] at hown
    exact h.completed ht hhsm hf hworld hown (fun ip hip => (hhosts ip).trans (if_neg hip))
      (fun _ hu => hu)
  | false =>
    rw [hf] at hown
    exact h.continued ht hhsm hf hworld hown (fun ip hip => (hhosts ip).trans (if_neg hip))
      (fun _ hu => hu)

theorem initHost (repeats : Bool) (h : StepsRight lib ports e)
    (hhsm : e.hostsSms[t.ipv4]? = some hsm) (hem : JustEmitted lib t e.world.2) :
    StepsRight lib ports (e.initHost (w.withTargets (recordedSet lib stray repeats)) t hsm) := by
  let e' := e.initHost (w.withTargets (recordedSet lib stray repeats)) t hsm
  have hhost : e.hostOf t.ipv4 = hsm := by rw [Engine.hostOf, hhsm, Option.getD_some]
  have hset : (recordedSet lib stray repeats).initHostSm t hsm e.world.2 =
      e.world.2.initHostSm lib t hsm := by
    cases repeats <;> rfl
  have hrecord : e'.world.2 = { e.world.2 with started := t.ipv4 :: e.world.2.started } :=
    congrArg Prod.snd hset
  have hhosts : ∀ ip, e'.hostOf ip =
      if ip = t.ipv4 then e.world.2.set.initHostSm lib hsm else e.hostOf ip := by
    intro ip
    have hanswer : ((w.withTargets (recordedSet lib stray repeats)).initHostSm t hsm e.world).1 =
        e.world.2.set.initHostSm lib hsm := congrArg Prod.fst hset
    rw [Engine.initHost_hostOf, hanswer]
  refine ⟨hrecord ▸ h.own, fun ip hip => ?_, fun ip => ?_, hrecord ▸ h.finished, h.registered,
    hrecord ▸ h.calls⟩
  · rw [hrecord] at hip ⊢
    by_cases heq : ip = t.ipv4
    · rw [hhosts, if_pos heq, heq]
      exact ⟨_, rfl, hem⟩
    · rw [hhosts, if_neg heq]
      exact h.indexed ip ((List.mem_cons.mp hip).resolve_left heq)
  · rw [hrecord, hhosts]
    split_ifs with heq
    · rw [heq, ← h.counted, hhost]
      rfl
    · exact h.counted ip

theorem invariant (w : World ω F) (lib : Leeloo γ δ ρ) (stray : ℕ) (ports : List Port)
    (repeats : Bool) :
    HostInvariant (w.withTargets (recordedSet lib stray repeats)) SameSet (Target.PortFrom ports)
      (fun t o => JustEmitted lib t o.2) (StepsRight lib ports) where
  congr := fun h hh _ ho ht => h.of_hosts ho (.of_eq hh) (fun t hreg => h.registered t (ht t hreg))
  note := fun _ _ h => ⟨h.own, h.indexed, h.counted, h.finished, h.registered, h.calls⟩
  insert := by
    intro e t n h ht
    refine h.of_hosts rfl (.of_eq rfl) (fun u hu => ?_)
    rcases Engine.registers_insertTarget hu with rfl | hu
    · exact ht
    · exact h.registered u hu
  known := fun h hreg => h.registered _ hreg
  onAlive := by
    intro e ip a h hip
    rw [Engine.setOnAlive_of_mem a hip]
    exact h.of_hosts rfl (Engine.setOnAlive_of_mem a hip ▸ .setOnAlive ip a) h.registered
  made := fun h hip => h.of_hosts rfl (.made hip) h.registered
  passed := fun h _ => ⟨h.own, h.indexed, h.counted, h.finished, h.registered, h.calls⟩
  next := fun h => h.nextTarget repeats
  emitted := fun h ht hend => h.emitted repeats ht hend
  emitted_same := by
    intro t o o' h ho
    rwa [ho]
  launched := fun h _ => ⟨h.own, h.indexed, h.counted, h.finished, h.registered, h.calls⟩
  finished := fun h ht hhsm => h.finishHost repeats ht hhsm
  initialised := fun h hhsm hem => h.initHost repeats hhsm hem

end StepsRight

end Nodescan
