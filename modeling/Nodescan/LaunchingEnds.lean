import Nodescan.Launching
import Nodescan.LineStream
import Nodescan.HostInvariants

/-!
# When `process_free_socks` comes to its end

A round of the `for` takes targets until one can be connected. Nothing bounds the targets whose
connection fails at once: with a set that is filled again as it is emptied, `RepeatableTargetSet` or
a `ReinjectableTargetSet` whose finish callback adds the failed targets, the `while (true)` may never
be left. This is the only way for the call not to end, and the sets that can run out exclude it.
-/

namespace Nodescan

open FaultM EngineM

variable {ω F : Type}

/-- The call ends after the calls of `next_target` that answered `ds`: it returns, or an `assert`
on its way fails. -/
def Ends (w : World ω F) (cfg : Config F) (e : Engine ω F) : Prop :=
  ∃ ds gs r, FreeSocks w cfg e.availSocks e.marked ds gs r ∧ r.1 ≠ .error .outOfFuel ∧
    ∀ fuel, ds.length ≤ fuel → (processFreeSocks w cfg fuel).runFrom e = r

/-- The first `k` rounds of the `for`. -/
inductive ForRounds (w : World ω F) (cfg : Config F) : ℕ → Engine ω F → Engine ω F → Prop
  | none (e) : ForRounds w cfg 0 e e
  | next {k e e₁ e₂ e₃ s t ds gs} (h : Launching w cfg e ds gs (.ok (.started s t), e₁))
      (ha : (addStarted w s t).runFrom e₁ = (.ok (), e₂)) (hrest : ForRounds w cfg k e₂ e₃) :
      ForRounds w cfg (k + 1) e e₃

/-- From `e` on `next_target` never stops to give targets whose connection fails at once. -/
def Endless (w : World ω F) (cfg : Config F) (e : Engine ω F) : Prop :=
  ∃ es : ℕ → Engine ω F, es 0 = e ∧ ∀ i, ∃ t, FailedRound w cfg t (es i) (es (i + 1))

def Starves (w : World ω F) (cfg : Config F) (e : Engine ω F) : Prop :=
  ∃ k < e.availSocks, ∃ e', ForRounds w cfg k e.marked e' ∧ Endless w cfg e'

/-- The `while (true)` from `e` outlasts every fuel. -/
def Hangs (w : World ω F) (cfg : Config F) (e : Engine ω F) : Prop :=
  ∀ fuel, ((launchLoop w cfg fuel).runFrom e).1 = .error .outOfFuel

variable {w : World ω F} {cfg : Config F} {e e₁ : Engine ω F}

theorem FreeSocks.freeSocksLoop {n : ℕ} {ds : List NextTarget} {gs : List Target}
    {r : Except Fault Bool × Engine ω F} (h : FreeSocks w cfg n e ds gs r)
    (hr : r.1 ≠ .error .outOfFuel) (fuel : ℕ) (hfuel : ds.length ≤ fuel) :
    (freeSocksLoop w cfg fuel n).runFrom e = r := by
  induction h with
  | done e => rfl
  | noTarget h =>
    rw [EngineM.freeSocksLoop, runFrom_bind, h.launchLoop (by simp) fuel hfuel]
    rfl
  | wouldBlock h =>
    rw [EngineM.freeSocksLoop, runFrom_bind, h.launchLoop (by simp) fuel hfuel]
    rfl
  | stopped h =>
    rw [EngineM.freeSocksLoop, runFrom_bind, h.launchLoop (by simpa using hr) fuel hfuel]
  | next h ha _ ih =>
    rw [List.length_append] at hfuel
    rw [EngineM.freeSocksLoop, runFrom_bind, h.launchLoop (by simp) fuel (by omega)]
    simp only [runFrom_bind, ha]
    exact ih hr (by omega)

theorem Endless.hangs (h : Endless w cfg e) : Hangs w cfg e := by
  obtain ⟨es, rfl, hround⟩ := h
  have hall : ∀ fuel i, ((launchLoop w cfg fuel).runFrom (es i)).1 = .error .outOfFuel := by
    intro fuel
    induction fuel with
    | zero => exact fun _ => rfl
    | succ fuel ih =>
      intro i
      obtain ⟨t, hfailed⟩ := hround i
      rw [hfailed.launchLoop fuel]
      exact ih (i + 1)
  exact fun fuel => hall fuel 0

theorem Hangs.step (h : Hangs w cfg e) : ∃ e', (∃ t, FailedRound w cfg t e e') ∧
    Hangs w cfg e' := by
  rcases first_round w cfg e with ⟨t, e', hfailed⟩ | ⟨d, gs, r, hl, hr⟩
  · refine ⟨e', ⟨t, hfailed⟩, fun fuel => ?_⟩
    rw [← hfailed.launchLoop fuel]
    exact h (fuel + 1)
  · have hone := h 1
    rw [hl.launchLoop hr 1 (by simp)] at hone
    exact absurd hone hr

theorem Hangs.endless (h : Hangs w cfg e) : Endless w cfg e := by
  choose next hnext using fun x : { e // Hangs w cfg e } => x.2.step
  let after (x : { e // Hangs w cfg e }) : { e // Hangs w cfg e } := ⟨next x, (hnext x).2⟩
  refine ⟨fun i => (after^[i] ⟨e, h⟩).1, rfl, fun i => ?_⟩
  simp only [Function.iterate_succ_apply']
  exact (hnext _).1

/-- The `for` ends, unless one of its rounds does not. -/
theorem exists_freeSocks (n : ℕ) (h : ∀ k < n, ∀ e', ForRounds w cfg k e e' → ¬ Hangs w cfg e') :
    ∃ ds gs r, FreeSocks w cfg n e ds gs r ∧ r.1 ≠ .error .outOfFuel := by
  induction n generalizing e with
  | zero => exact ⟨[], [], _, .done e, by simp⟩
  | succ n ih =>
    have hfirst : ¬ Hangs w cfg e := h 0 (Nat.succ_pos n) e (.none e)
    obtain ⟨fuel, hfuel⟩ := not_forall.mp hfirst
    obtain ⟨ds, gs, hl⟩ := launchLoop_launching w cfg fuel e
    rcases hr : (launchLoop w cfg fuel).runFrom e with ⟨f | r, e₁⟩
    · rw [hr] at hl hfuel
      exact ⟨ds, gs, _, .stopped hl, by simpa using hfuel⟩
    rw [hr] at hl
    cases r with
    | noTarget => exact ⟨ds, gs, _, .noTarget hl, by simp⟩
    | wouldBlock => exact ⟨ds, gs, _, .wouldBlock hl, by simp⟩
    | started s t =>
      have hquiet : QuietRun w (addStarted w s t) e₁ := addStarted_quiet s t
      rcases ha : (addStarted w s t).runFrom e₁ with ⟨f | _, e₂⟩
      · exact (hquiet.of_error ha).elim
      obtain ⟨ds', gs', r, hrest, hr'⟩ := ih
        (fun k hk e' hrounds => h (k + 1) (by omega) e' (.next hl ha hrounds))
      exact ⟨_, _, r, .next hl ha hrest, hr'⟩

theorem ForRounds.freeSocksLoop {k n : ℕ} (h : ForRounds w cfg k e e₁) (hhangs : Hangs w cfg e₁)
    (hk : k < n) (fuel : ℕ) :
    ((freeSocksLoop w cfg fuel n).runFrom e).1 = .error .outOfFuel := by
  induction h generalizing n with
  | none e =>
    obtain ⟨n, rfl⟩ : ∃ m, n = m + 1 := ⟨n - 1, by omega⟩
    rcases hr : (launchLoop w cfg fuel).runFrom e with ⟨r, e'⟩
    have hout := hhangs fuel
    rw [hr] at hout
    subst hout
    rw [EngineM.freeSocksLoop, runFrom_bind, hr]
  | @next k e e₁ e₂ e₃ s t ds gs hl ha _ ih =>
    obtain ⟨n, rfl⟩ : ∃ m, n = m + 1 := ⟨n - 1, by omega⟩
    -- with too little fuel for this round the loop is cut, and else it comes to the next one
    obtain ⟨ds', gs', hl'⟩ := launchLoop_launching w cfg fuel e
    by_cases hcut : ((launchLoop w cfg fuel).runFrom e).1 = .error .outOfFuel
    · rcases hr : (launchLoop w cfg fuel).runFrom e with ⟨r, e'⟩
      rw [hr] at hcut
      subst hcut
      rw [EngineM.freeSocksLoop, runFrom_bind, hr]
    · have hsame : (launchLoop w cfg fuel).runFrom e = (.ok (.started s t), e₁) := by
        rw [← hl'.launchLoop hcut (ds.length + ds'.length) (by omega)]
        exact hl.launchLoop (by simp) _ (by omega)
      rw [EngineM.freeSocksLoop, runFrom_bind, hsame]
      simp only [runFrom_bind, ha]
      exact ih hhangs (by omega)

theorem ends_iff (w : World ω F) (cfg : Config F) (e : Engine ω F) :
    Ends w cfg e ↔ ¬ Starves w cfg e := by
  constructor
  · rintro ⟨ds, gs, r, _, hr, hrun⟩ ⟨k, hk, e', hrounds, hendless⟩
    have hcut := hrounds.freeSocksLoop hendless.hangs hk ds.length
    exact hr (by rw [← hrun ds.length le_rfl]; exact hcut)
  · intro h
    obtain ⟨ds, gs, r, hfree, hr⟩ := exists_freeSocks e.availSocks
      (fun k hk e' hrounds hhangs => h ⟨k, hk, e', hrounds, hhangs.endless⟩)
    exact ⟨ds, gs, r, hfree, hr, fun fuel hfuel => hfree.freeSocksLoop hr fuel hfuel⟩

/-! Target sets that can run out. -/

/-- `μ` bounds the targets that `next_target` still has to give, and nothing adds to them. -/
structure World.Supply (w : World ω F) (μ : ω → ℕ∞) : Prop where
  leaves : w.Leaves (fun o o' => μ o' ≤ μ o)
  targetFinished : ∀ t hsm o, μ (w.targetFinished t hsm o).2 ≤ μ o
  initHostSm : ∀ t hsm o, μ (w.initHostSm t hsm o).2 ≤ μ o
  nextTarget : ∀ o, μ (w.nextTarget o).2 ≤ μ o
  drawn : ∀ {o t}, (w.nextTarget o).1 = .target t → t.isEnd = false →
    μ (w.nextTarget o).2 + 1 ≤ μ o

namespace World.Supply

variable {μ : ω → ℕ∞} (h : w.Supply μ)

include h

theorem hostInvariant (m : ℕ∞) : HostInvariant w (fun o o' => μ o' ≤ μ o) (fun _ => True)
    (fun _ _ => True) (fun e : Engine ω F => μ e.world ≤ m) where
  congr := fun he _ _ ho _ => ho.trans he
  note := fun _ _ he => he
  insert := fun _ he _ => he
  known := fun _ _ => trivial
  onAlive := by
    intro e ip a he hip
    rwa [Engine.setOnAlive_of_mem a hip]
  made := fun he _ => he
  passed := fun he _ => he
  next := fun he => (h.nextTarget _).trans he
  emitted := fun _ _ _ => ⟨trivial, trivial⟩
  emitted_same := fun _ _ => trivial
  launched := fun he _ => he
  finished := fun he _ _ => (h.targetFinished _ _ _).trans he
  initialised := fun he _ _ => (h.initHostSm _ _ _).trans he

theorem failedRound {t : Target} (hround : FailedRound w cfg t e e₁) :
    μ e₁.world + 1 ≤ μ e.world := by
  obtain ⟨r, e₂, hgiven, _, hf⟩ := hround
  have hI := h.hostInvariant (μ (w.nextTarget e.world).2)
  have hsteady := hI.toFramed.steady h.leaves
  have hcreated := (hsteady.createSocket trivial _ le_rfl).of_ok hgiven.created
  have hfinished := (hI.socketFinished h.leaves r.1 r.2 e₂ hcreated).of_ok hf
  calc μ e₁.world + 1 ≤ μ (w.nextTarget e.world).2 + 1 := by gcongr
    _ ≤ μ e.world := h.drawn hgiven.drawn hgiven.not_end

theorem forRounds {k : ℕ} (hrounds : ForRounds w cfg k e e₁) : μ e₁.world ≤ μ e.world := by
  induction hrounds with
  | none e => exact le_rfl
  | @next k e e₁ e₂ e₃ s t ds gs hl ha _ ih =>
    have hI := h.hostInvariant (μ e.world)
    have hrun := hl.launchLoop (by simp) ds.length le_rfl
    have hstarted := (hI.launchLoop h.leaves le_rfl).of_ok hrun
    have hadded := (hI.addStarted h.leaves hstarted.1 trivial).of_ok ha
    exact ih.trans hadded

theorem not_endless (hfin : μ e.world ≠ ⊤) : ¬ Endless w cfg e := by
  rintro ⟨es, rfl, hround⟩
  have hspent : ∀ i : ℕ, μ (es i).world + i ≤ μ (es 0).world := by
    intro i
    induction i with
    | zero => simp
    | succ i ih =>
      obtain ⟨t, hfailed⟩ := hround i
      calc μ (es (i + 1)).world + (i + 1 : ℕ) = μ (es (i + 1)).world + 1 + i := by
            push_cast
            ring
        _ ≤ μ (es i).world + i := by
            gcongr
            exact h.failedRound hfailed
        _ ≤ μ (es 0).world := ih
  obtain ⟨m, hm⟩ := ENat.ne_top_iff_exists.mp hfin
  have hlast := hspent (m + 1)
  rw [← hm] at hlast
  have hle : ((m + 1 : ℕ) : ℕ∞) ≤ m := le_add_self.trans hlast
  have hlt := ENat.natCast_le_natCast.mp hle
  omega

/-- With a finite supply the call ends. -/
theorem ends (hfin : μ e.world ≠ ⊤) : Ends w cfg e := by
  rw [ends_iff]
  rintro ⟨k, _, e', hrounds, hendless⟩
  have hle : μ e'.world ≤ μ e.marked.world := h.forRounds hrounds
  exact h.not_endless (ne_top_of_le_ne_top hfin hle) hendless

end World.Supply

variable {σ γ δ ρ κ : Type}

structure TargetSet.Supply (ts : TargetSet σ) (μ : σ → ℕ∞) : Prop where
  targetFinished : ∀ t hsm x, μ (ts.targetFinished t hsm x).2 ≤ μ x
  initHostSm : ∀ t hsm x, μ (ts.initHostSm t hsm x).2 ≤ μ x
  nextTarget : ∀ x, μ (ts.nextTarget x).2 ≤ μ x
  drawn : ∀ {x t}, (ts.nextTarget x).1 = .target t → t.isEnd = false →
    μ (ts.nextTarget x).2 + 1 ≤ μ x

theorem TargetSet.Supply.withTargets {ts : TargetSet σ} {μ : σ → ℕ∞} (h : ts.Supply μ)
    (w : World ω F) : (w.withTargets ts).Supply (fun o => μ o.2) where
  leaves := by constructor <;> intros <;> exact le_rfl
  targetFinished := fun t hsm o => h.targetFinished t hsm o.2
  initHostSm := fun t hsm o => h.initHostSm t hsm o.2
  nextTarget := fun o => h.nextTarget o.2
  drawn := fun hn hend => h.drawn hn hend

theorem SimpleTargetSet.supply :
    SimpleTargetSet.targetSet.Supply (fun ts => (ts.it.length : ℕ∞)) where
  targetFinished := fun _ _ _ => le_rfl
  initHostSm := fun _ _ _ => le_rfl
  nextTarget := by
    intro ts
    cases hit : ts.it with
    | nil => simp [targetSet, SimpleTargetSet.nextTarget, hit]
    | cons t it => simp [targetSet, SimpleTargetSet.nextTarget, hit]
  drawn := by
    intro ts t hn hend
    cases hit : ts.it with
    | nil =>
      simp only [targetSet, SimpleTargetSet.nextTarget, hit, NextTarget.target.injEq] at hn
      exact absurd hn.symm (Target.ne_endMark hend)
    | cons t it => simp [targetSet, SimpleTargetSet.nextTarget, hit]

theorem TargetSet.Supply.reinjectable {ts : TargetSet σ} {μ : σ → ℕ∞} (h : ts.Supply μ) :
    ts.reinjectable.Supply (fun x => x.1.length + μ x.2) where
  targetFinished := fun t hsm x => add_le_add le_rfl (h.targetFinished t hsm x.2)
  initHostSm := fun t hsm x => add_le_add le_rfl (h.initHostSm t hsm x.2)
  nextTarget := by
    rintro ⟨queue, x⟩
    cases queue with
    | nil => simpa [TargetSet.reinjectable] using h.nextTarget x
    | cons t queue =>
      simp only [TargetSet.reinjectable, List.length_cons, Nat.cast_add, Nat.cast_one]
      gcongr
      exact le_self_add
  drawn := by
    rintro ⟨queue, x⟩ t hn hend
    cases queue with
    | nil => simpa [TargetSet.reinjectable] using h.drawn hn hend
    | cons t queue =>
      simp only [TargetSet.reinjectable, List.length_cons, Nat.cast_add, Nat.cast_one]
      rw [add_right_comm]

/-- The targets of the ports and addresses to come, if there are ports. -/
def IPV4TargetSet.remaining (lib : Leeloo γ δ ρ) (ts : IPV4TargetSet γ δ ρ) : ℕ :=
  if lib.v4.todo ts.randV4 = [] then 0
  else ((lib.v4.todo ts.randV4).length - 1) * ts.ports.length + (lib.port.rest ts.randPort).length

namespace IPV4TargetSet

variable {lib : Leeloo γ δ ρ} {ts : IPV4TargetSet γ δ ρ}

variable (lib ts) in
theorem advance_remaining : (ts.advance lib).ports = ts.ports ∧
    (ts.advance lib).remaining lib ≤ ts.remaining lib ∧
    (ts.ports ≠ [] → lib.port.rest (ts.advance lib).randPort ≠ []) := by
  unfold advance
  split_ifs with hend
  · have hrest : lib.port.rest ts.randPort = [] := (lib.port.isEnd_iff _).mp hend
    have hinit := lib.port.init_rest ts.ports ts.mtRandPorts
    refine ⟨rfl, ?_, fun hports hnil => hports ?_⟩
    · simp only [remaining, lib.v4.next_todo, hrest, hinit.length_eq, List.length_nil]
      rcases lib.v4.todo ts.randV4 with _ | ⟨k, _ | ⟨k', l⟩⟩
      · simp
      · simp
      · simp only [List.tail_cons, reduceCtorEq, if_false, List.length_cons,
          Nat.add_sub_cancel, Nat.add_zero]
        exact (Nat.succ_mul _ _).ge
    · simp only at hnil
      rw [hnil] at hinit
      exact hinit.nil_eq.symm
  · refine ⟨rfl, le_rfl, fun _ hnil => hend ?_⟩
    exact (lib.port.isEnd_iff _).mpr hnil

theorem nextTarget_ports : (ts.nextTarget lib).2.ports = ts.ports := by
  unfold nextTarget
  dsimp only
  split_ifs
  · exact (advance_remaining lib ts).1
  · exact (advance_remaining lib ts).1

theorem nextTarget_remaining (hports : ts.ports ≠ []) :
    (ts.nextTarget lib).2.remaining lib ≤ ts.remaining lib ∧
      ((ts.nextTarget lib).1.isEnd = false →
        (ts.nextTarget lib).2.remaining lib + 1 ≤ ts.remaining lib) := by
  obtain ⟨_, hle, hrest⟩ := advance_remaining lib ts
  unfold nextTarget
  dsimp only
  split_ifs with hend
  · exact ⟨hle, by simp [Target.isEnd_endMark]⟩
  · obtain ⟨p, l, hpl⟩ := List.exists_cons_of_ne_nil (hrest hports)
    have htodo : lib.v4.todo (ts.advance lib).randV4 ≠ [] :=
      fun hnil => hend ((lib.v4.isEnd_iff _).mpr hnil)
    have hdraw : lib.port.rest
        (lib.port.draw (ts.advance lib).ports (ts.advance lib).randPort).2 = l :=
      (lib.port.draw_eq hpl).2
    have hspent : remaining lib { ts.advance lib with
        randPort := (lib.port.draw (ts.advance lib).ports (ts.advance lib).randPort).2 } + 1 =
          (ts.advance lib).remaining lib := by
      simp only [remaining, if_neg htodo, hdraw, hpl, List.length_cons]
      omega
    have hle' := hspent.le.trans hle
    exact ⟨(Nat.le_succ _).trans hle', fun _ => hle'⟩

open Classical in
theorem supply (lib : Leeloo γ δ ρ) (stray : ℕ) :
    (targetSet lib stray).Supply
      (fun ts => if ts.ports = [] then ⊤ else (ts.remaining lib : ℕ∞)) where
  targetFinished := by
    intro t hsm ts
    have hsame : (ts.targetFinished lib stray t hsm).2.ports = ts.ports ∧
        (ts.targetFinished lib stray t hsm).2.remaining lib = ts.remaining lib := by
      unfold targetFinished
      dsimp only
      split_ifs
      · exact ⟨rfl, by simp only [remaining, lib.v4.stepDone_todo]⟩
      · exact ⟨rfl, rfl⟩
    simp only [targetSet, hsame.1, hsame.2]
    exact le_rfl
  initHostSm := fun _ _ _ => le_rfl
  nextTarget := by
    intro ts
    simp only [targetSet, nextTarget_ports]
    split_ifs with hports
    · exact le_rfl
    · exact ENat.natCast_le_natCast.mpr (nextTarget_remaining hports).1
  drawn := by
    intro ts t hn hend
    simp only [targetSet, NextTarget.target.injEq] at hn
    simp only [targetSet, nextTarget_ports]
    split_ifs with hports
    · exact le_top
    · have hle := (nextTarget_remaining hports).2 (by rw [hn, hend])
      exact_mod_cast hle

end IPV4TargetSet

namespace TargetAsyncFile

variable {ipv4toi : List UInt8 → Option UInt32} {poll : κ → Poll × κ} {ν : κ → ℕ∞}

variable (ipv4toi) in
theorem nextTargetInBuf_length (f : TargetAsyncFile) :
    (f.nextTargetInBuf ipv4toi).2.buf.length ≤ f.buf.length ∧
      ((f.nextTargetInBuf ipv4toi).1 ≠ .endMark →
        (f.nextTargetInBuf ipv4toi).2.buf.length + 1 ≤ f.buf.length) := by
  rcases first_line f.buf with hnone | ⟨line, rest, hline, hbuf⟩
  · rw [nextTargetInBuf_none hnone]
    exact ⟨le_rfl, by simp⟩
  · rw [nextTargetInBuf_line hline hbuf, hbuf]
    simp only [List.length_append, List.length_cons]
    exact ⟨by omega, fun _ => by omega⟩

variable (ipv4toi) in
theorem pollTarget_length (f : TargetAsyncFile) (p : Poll) :
    (f.pollTarget ipv4toi p).2.buf.length ≤ f.buf.length + p.bytes.length ∧
      ((f.pollTarget ipv4toi p).1.answered ≠ [] →
        (f.pollTarget ipv4toi p).2.buf.length + 1 ≤ f.buf.length + p.bytes.length) := by
  cases p with
  | avail navail r =>
    simp only [pollTarget, readTarget, Poll.bytes, ← List.length_append]
    have hbuf := nextTargetInBuf_length ipv4toi { f with buf := f.buf ++ r.bytes navail }
    split_ifs with hzero hread hend
    · exact ⟨by simp, by simp⟩
    · exact ⟨le_rfl, by simp⟩
    · exact ⟨hbuf.1, by simp [NextTarget.answered]⟩
    · exact ⟨hbuf.1, fun _ => hbuf.2 hend⟩
  | _ => exact ⟨by simp [pollTarget], by simp [pollTarget, NextTarget.answered]⟩

/-- A file on an input of which `ν` bounds the bytes to come. -/
theorem supply (hν : ∀ k, (poll k).1.bytes.length + ν (poll k).2 ≤ ν k) :
    (targetSet ipv4toi poll).Supply (fun x => x.1.buf.length + ν x.2) := by
  -- each target takes a byte at least
  have hcall : ∀ (f : TargetAsyncFile) (k : κ),
      ((f.nextTarget ipv4toi poll k).2.1.buf.length : ℕ∞) +
          ν (f.nextTarget ipv4toi poll k).2.2 ≤ f.buf.length + ν k ∧
        ((f.nextTarget ipv4toi poll k).1.answered ≠ [] →
          ((f.nextTarget ipv4toi poll k).2.1.buf.length : ℕ∞) +
            ν (f.nextTarget ipv4toi poll k).2.2 + 1 ≤ f.buf.length + ν k) := by
    intro f k
    have hbuf := nextTargetInBuf_length ipv4toi f
    have hpoll := pollTarget_length ipv4toi (f.nextTargetInBuf ipv4toi).2 (poll k).1
    have hbytes : ∀ n : ℕ, n ≤ f.buf.length + (poll k).1.bytes.length →
        (n : ℕ∞) + ν (poll k).2 ≤ f.buf.length + ν k := by
      intro n hn
      calc (n : ℕ∞) + ν (poll k).2
          ≤ (f.buf.length + (poll k).1.bytes.length : ℕ) + ν (poll k).2 := by gcongr
        _ = f.buf.length + ((poll k).1.bytes.length + ν (poll k).2) := by
            push_cast
            rw [add_assoc]
        _ ≤ f.buf.length + ν k := by
            gcongr
            exact hν k
    rw [nextTarget_eq]
    split_ifs with hend
    · refine ⟨?_, fun _ => ?_⟩
      · dsimp only
        gcongr
        exact hbuf.1
      · dsimp only
        rw [add_right_comm]
        gcongr
        exact_mod_cast hbuf.2 hend
    · refine ⟨hbytes _ (hpoll.1.trans (by omega)), fun hanswer => ?_⟩
      dsimp only
      rw [add_right_comm]
      exact_mod_cast hbytes _ ((hpoll.2 hanswer).trans (by omega))
  refine ⟨fun _ _ _ => le_rfl, fun _ _ _ => le_rfl, fun x => (hcall x.1 x.2).1, ?_⟩
  intro x t hn hend
  refine (hcall x.1 x.2).2 ?_
  change (nextTarget ipv4toi poll x.1 x.2).1 = .target t at hn
  simp [hn, NextTarget.answered, Target.ne_endMark hend]

end TargetAsyncFile

/-- The sets of the repository that can run out, in a state of theirs: a list of addresses with
some ports, a set of targets, a file on an input that comes to its end, and any of these with
targets added in front of it. -/
inductive Exhaustible : {σ : Type} → TargetSet σ → σ → Prop
  | ipv4 {γ δ ρ : Type} (lib : Leeloo γ δ ρ) (stray : ℕ) (ts : IPV4TargetSet γ δ ρ)
      (hports : ts.ports ≠ []) : Exhaustible (IPV4TargetSet.targetSet lib stray) ts
  | simple (ts : SimpleTargetSet) : Exhaustible SimpleTargetSet.targetSet ts
  | file {κ : Type} (ipv4toi : List UInt8 → Option UInt32) (poll : κ → Poll × κ) (ν : κ → ℕ∞)
      (hν : ∀ k, (poll k).1.bytes.length + ν (poll k).2 ≤ ν k) (f : TargetAsyncFile) (k : κ)
      (hk : ν k ≠ ⊤) : Exhaustible (TargetAsyncFile.targetSet ipv4toi poll) (f, k)
  | reinjectable {σ : Type} {ts : TargetSet σ} {x : σ} (h : Exhaustible ts x)
      (queue : List Target) : Exhaustible ts.reinjectable (queue, x)

theorem Exhaustible.supply {ts : TargetSet σ} {x : σ} (h : Exhaustible ts x) :
    ∃ μ, ts.Supply μ ∧ μ x ≠ ⊤ := by
  induction h with
  | ipv4 lib stray ts hports => exact ⟨_, IPV4TargetSet.supply lib stray, by simp [hports]⟩
  | simple ts => exact ⟨_, SimpleTargetSet.supply, by simp⟩
  | file ipv4toi poll ν hν f k hk => exact ⟨_, TargetAsyncFile.supply hν, by simp [hk]⟩
  | reinjectable _ queue ih =>
    obtain ⟨μ, hμ, hx⟩ := ih
    exact ⟨_, hμ.reinjectable, by simp [hx]⟩

/-- A call of `process_free_socks` leaves at most as many new sockets registered as were available.
It ends, unless from some round on every target given to it fails at once, for ever; and it ends
with every supply of targets that is finite, such as that of a set that can run out. -/
theorem launching_ends (w : World ω F) (cfg : Config F) (e : Engine ω F) :
    (∀ fuel, ∃ ss : List Fd, ss.length ≤ e.availSocks ∧
      ∀ s ∈ ((processFreeSocks w cfg fuel).runFrom e).2.socketsTargets,
        s ∈ e.socketsTargets ∨ s ∈ ss) ∧
    (Ends w cfg e ↔ ¬ Starves w cfg e) ∧
    (∀ μ, w.Supply μ → μ e.world ≠ ⊤ → Ends w cfg e) ∧
    ∀ (σ : Type) (ts : TargetSet σ) (e' : Engine (ω × σ) F), Exhaustible ts e'.world.2 →
      Ends (w.withTargets ts) cfg e' := by
  refine ⟨fun fuel => ?_, ends_iff w cfg e, fun μ h hfin => h.ends hfin, fun σ ts e' h => ?_⟩
  · obtain ⟨ds, gs, hfree⟩ := freeSocksLoop_freeSocks w cfg fuel e.availSocks e.marked
    obtain ⟨ss, hlen, hrounds⟩ := hfree.rounds
    exact ⟨ss, hlen, hrounds.registered⟩
  · obtain ⟨μ, hμ, hx⟩ := h.supply
    exact (hμ.withTargets w).ends hx

theorem hangs_of_invariant {I : Engine ω F → Prop}
    (hI : ∀ e, I e → ∃ t e', FailedRound w cfg t e e' ∧ I e') (h : I e) : Hangs w cfg e := by
  intro fuel
  induction fuel generalizing e with
  | zero => rfl
  | succ fuel ih =>
    obtain ⟨t, e', hfailed, h'⟩ := hI e h
    rw [hfailed.launchLoop fuel]
    exact ih h'

/-- A network that refuses every connection. -/
def refusing : World Script Unit :=
  { Script.world Script.goOn with connect := fun _ _ _ sc => (111, sc) }

def onlyTarget : Target := ⟨1, ⟨80, .tcp⟩⟩

def repeating : World (Script × SimpleTargetSet) Unit :=
  refusing.withTargets SimpleTargetSet.targetSet.repeatable

def Config.silent : Config Unit := { Config.plain 1 with hasFinish := false }

/-- After every call of `next_target`, whatever else happens. -/
def GivenAgain (e : Engine (Script × SimpleTargetSet) Unit) : Prop :=
  e.world.2 = ⟨[onlyTarget], []⟩

theorem givenAgain_invariant :
    HostInvariant repeating (fun o o' => o'.2 = o.2) (fun _ => True) (fun _ _ => True)
      GivenAgain where
  congr := fun he _ _ ho _ => ho.trans he
  note := fun _ _ he => he
  insert := fun _ he _ => he
  known := fun _ _ => trivial
  onAlive := by
    intro e ip a he hip
    rwa [Engine.setOnAlive_of_mem a hip]
  made := fun he _ => he
  passed := fun he _ => he
  next := by
    intro e he
    change (SimpleTargetSet.targetSet.repeatable.nextTarget e.world.2).2 = _
    rw [he]
    rfl
  emitted := fun _ _ _ => ⟨trivial, trivial⟩
  emitted_same := fun _ _ => trivial
  launched := fun he _ => he
  finished := fun he _ _ => he
  initialised := fun he _ _ => he

theorem repeating_leaves : repeating.Leaves (fun o o' => o'.2 = o.2) := by
  constructor <;> intros <;> rfl

theorem repeating_socketsSucceed : repeating.SocketsSucceed := by
  intro k p o h
  simp [repeating, refusing, World.withTargets, Script.world] at h

theorem createSocket_refused (e : Engine (Script × SimpleTargetSet) Unit) (t : Target) :
    Runs (createSocket repeating .silent t) e (fun r _ => r.2 = EBADF ∨ r.2 = 111)
      (fun _ _ => True) := by
  unfold createSocket
  apply Runs.read
  split_ifs
  · trivial
  · refine Runs.bind (Q := fun _ _ => True) trivial (fun r e₁ _ => ?_)
    cases r with
    | none => exact Or.inl rfl
    | some n =>
      refine Runs.bind (Q := fun err _ => err = 111) rfl (fun err e₂ herr => ?_)
      exact Or.inr herr

theorem socketFinished_silent (e : Engine (Script × SimpleTargetSet) Unit) (s : Fd) (err : ℤ) :
    Runs (socketFinished repeating .silent s err) e
      (fun _ e' => e'.availSocks = (e.availSocks + 1) % 2 ^ 32) (fun _ _ => True) := by
  let Same (e' : Engine (Script × SimpleTargetSet) Unit) : Prop := e'.availSocks = e.availSocks
  have hhost : ∀ t, Keeps Same (hostFinished repeating t) := by
    intro t
    refine Keeps.bind ?_ (fun hsm => Keeps.bind (fun _ h => h) (fun r => ?_))
    · intro e' he'
      exact (hostSm_insertIfNew t.ipv4).mono (fun _ _ h => by rw [h]; exact he')
        (fun _ _ h => h.elim)
    · refine Keeps.bind (fun _ h => h) (fun _ => Keeps.bind (fun _ h => h) (fun _ => ?_))
      split_ifs
      · exact fun _ h => h
      · exact fun _ h => h
  unfold socketFinished
  refine Runs.bind (Q := fun _ => Same) rfl (fun _ e₁ h₁ => ?_)
  refine Runs.bind (Q := fun _ => Same) ?_ (fun t e₂ h₂ => ?_)
  · exact (targetFromSocket_spec s).mono (fun _ _ h => by rw [h.1]; exact h₁)
      (fun _ _ _ => trivial)
  refine Runs.bind (Q := fun _ => Same) ?_ (fun sm e₃ h₃ => ?_)
  · exact (lvl4Sm_spec s).mono (fun _ _ h => h.avail.trans h₂) (fun _ _ h => h.elim)
  refine Runs.bind (Q := fun _ => Same) h₃ (fun _ e₄ h₄ => ?_)
  refine Runs.bind (Q := fun _ => Same) h₄ (fun _ e₅ h₅ => ?_)
  refine Runs.bind ((hhost t e₅ h₅).mono (fun _ _ h => h) (fun _ _ _ => trivial)) ?_
  intro _ e₆ h₆
  exact congrArg (fun n => (n + 1) % 2 ^ 32) h₆

/-- The next target is the only one, and its connection fails at once. -/
def Refused (e : Engine (Script × SimpleTargetSet) Unit) : Prop :=
  (repeating.nextTarget e.world).1 = .target onlyTarget ∧ GivenAgain (e.afterDraw repeating) ∧
    e.availSocks = 1

theorem Refused.step (e : Engine (Script × SimpleTargetSet) Unit) (h : Refused e) :
    ∃ t e', FailedRound repeating .silent t e e' ∧ Refused e' := by
  obtain ⟨hn, hagain, havail⟩ := h
  let e₀ := (e.afterDraw repeating).countLaunch onlyTarget
  have hcreate := (createSocket_spec repeating_socketsSucceed onlyTarget).both
    (createSocket_refused e₀ onlyTarget)
  rcases hc : (createSocket repeating .silent onlyTarget).runFrom e₀ with ⟨f | r, e₁⟩
  · have hzero : e₀.availSocks = 0 := (hcreate.of_error hc).1.2.2
    exact absurd (hzero.symm.trans havail) (by decide)
  obtain ⟨⟨n, hr, _, _, hreg⟩, herr⟩ := hcreate.of_ok hc
  have hmem : r.1 ∈ e₁.socketsTargets := by simp [hr, hreg.targets]
  have hs : ¬ IsStarted r := by
    rcases herr with herr | herr <;> rw [IsStarted, herr] <;> decide
  have hfinish := (socketFinished_spec hmem r.2).both (socketFinished_silent e₁ r.1 r.2)
  rcases hf : (socketFinished repeating .silent r.1 r.2).runFrom e₁ with ⟨f | _, e₂⟩
  · exact (hfinish.of_error hf).1.elim
  refine ⟨onlyTarget, e₂, ⟨r, e₁, ⟨hn, rfl, hc⟩, hs, hf⟩, ?_⟩
  have hsteady := givenAgain_invariant.toFramed.steady repeating_leaves
  have hagain₁ := (hsteady.createSocket trivial e₀ hagain).of_ok hc
  have hagain₂ : GivenAgain e₂ := (givenAgain_invariant.socketFinished repeating_leaves r.1 r.2 e₁
    hagain₁).of_ok hf
  refine ⟨?_, givenAgain_invariant.next hagain₂, ?_⟩
  · change (SimpleTargetSet.targetSet.repeatable.nextTarget e₂.world.2).1 = _
    rw [hagain₂]
    rfl
  · rw [(hfinish.of_ok hf).2, hreg.avail]
    change (e.availSocks - 1 + 1) % 2 ^ 32 = 1
    simp [havail]

/-- With a `RepeatableTargetSet` of one target that is always refused, the first call of
`process_free_socks` does not end. -/
theorem repeated_target_starves :
    ¬ Ends repeating .silent (.init .silent (idleScript, ⟨[onlyTarget], [onlyTarget]⟩)) := by
  rw [ends_iff, not_not]
  refine ⟨0, by decide, _, .none _, Hangs.endless (hangs_of_invariant Refused.step ?_)⟩
  exact ⟨rfl, rfl, rfl⟩

/-- Reads that bring one piece of the input each, and then nothing. -/
def pieces : List (List UInt8) → Poll × List (List UInt8)
  | [] => (.avail 0 ⟨0, []⟩, [])
  | piece :: rest => (.avail piece.length ⟨piece.length, piece⟩, rest)

def bytesIn (input : List (List UInt8)) : ℕ∞ := ((input.map List.length).sum : ℕ)

theorem pieces_bytes (input : List (List UInt8)) :
    (pieces input).1.bytes.length + bytesIn (pieces input).2 ≤ bytesIn input := by
  cases input with
  | nil => simp [pieces, bytesIn, Poll.bytes, ReadResult.bytes]
  | cons piece rest => simp [pieces, bytesIn, Poll.bytes, ReadResult.bytes]

def twoLines : List (List UInt8) :=
  [Session.quad 1 ++ (Session.quad 2).take 3, (Session.quad 2).drop 3]

/-- All targets of a set are refused; or all addresses that are read, and the target added before
the scan. -/
theorem launching_ends_refused :
    Ends (refusing.withTargets SimpleTargetSet.targetSet) .silent
        (.init .silent (idleScript, ⟨[onlyTarget], [onlyTarget]⟩)) ∧
      Ends (refusing.withTargets
          (TargetAsyncFile.targetSet Session.dotted pieces).reinjectable) .silent
        (.init .silent (idleScript, ([onlyTarget], (⟨[], ⟨80, .tcp⟩⟩, twoLines)))) := by
  constructor
  · refine (launching_ends _ _ _).2.2.1 _ (SimpleTargetSet.supply.withTargets refusing) ?_
    exact ENat.natCast_ne_top _
  · have hfile : Exhaustible (TargetAsyncFile.targetSet Session.dotted pieces)
        (⟨[], ⟨80, .tcp⟩⟩, twoLines) :=
      .file _ _ bytesIn pieces_bytes _ _ (ENat.natCast_ne_top _)
    exact (launching_ends refusing .silent (.init .silent idleScript)).2.2.2 _ _ _
      (hfile.reinjectable [onlyTarget])

end Nodescan
