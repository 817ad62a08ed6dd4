import Nodescan.EngineRuns
import Nodescan.Script
import Nodescan.TargetSets

/-!
# The targets that one call of `process_free_socks` takes

`Launching` and `FreeSocks` are the two nested loops of `process_free_socks` as relations. They
name, in order, the answers of `next_target` and the targets handed to `create_socket`, and they do
not count a fuel: a run that has not come to its end is cut after some round.

The engine takes every answer for the end of the targets that has the address and the port number
of the end mark, whatever its protocol is. So a target 255.255.255.255:65535 of a protocol ends the
call, and is neither counted nor launched.
-/

namespace Nodescan

open FaultM EngineM

variable {ω F : Type}

/-- The engine once `next_target` has answered. -/
def Engine.afterDraw (w : World ω F) (e : Engine ω F) : Engine ω F :=
  { e with world := (w.nextTarget e.world).2 }

/-- `next_target` answers the target `t`, and `create_socket` on it ends with `c`. -/
structure Given (w : World ω F) (cfg : Config F) (t : Target) (c : Except Fault (Fd × ℤ))
    (e e₁ : Engine ω F) : Prop where
  drawn : (w.nextTarget e.world).1 = .target t
  not_end : t.isEnd = false
  created : (createSocket w cfg t).runFrom ((e.afterDraw w).countLaunch t) = (c, e₁)

/-- `create_socket` answered 0, or left `EINPROGRESS`. -/
abbrev IsStarted (r : Fd × ℤ) : Prop := r.2 = 0 ∨ r.2 = EINPROGRESS

/-- A round of the `while (true)` whose connection failed at once. -/
def FailedRound (w : World ω F) (cfg : Config F) (t : Target) (e e' : Engine ω F) : Prop :=
  ∃ r e₁, Given w cfg t (.ok r) e e₁ ∧ ¬ IsStarted r ∧
    (socketFinished w cfg r.1 r.2).runFrom e₁ = (.ok (), e')

/-- The `while (true)` from `e`: the answers of `next_target`, the targets given to
`create_socket`, and how it ends. -/
inductive Launching (w : World ω F) (cfg : Config F) : Engine ω F → List NextTarget →
    List Target → Except Fault LaunchResult × Engine ω F → Prop
  | cut (e) : Launching w cfg e [] [] (.error .outOfFuel, e)
  | wouldBlock {e} (h : (w.nextTarget e.world).1 = .wouldBlock) :
      Launching w cfg e [.wouldBlock] [] (.ok .wouldBlock, e.afterDraw w)
  | ended {e t} (h : (w.nextTarget e.world).1 = .target t) (hend : t.isEnd = true) :
      Launching w cfg e [.target t] [] (.ok .noTarget, e.afterDraw w)
  | started {e e₁ t r} (h : Given w cfg t (.ok r) e e₁) (hr : IsStarted r) :
      Launching w cfg e [.target t] [t] (.ok (.started r.1 t), e₁)
  | notCreated {e e₁ t f} (h : Given w cfg t (.error f) e e₁) :
      Launching w cfg e [.target t] [t] (.error f, e₁)
  | notFinished {e e₁ e₂ t r f} (h : Given w cfg t (.ok r) e e₁) (hr : ¬ IsStarted r)
      (hf : (socketFinished w cfg r.1 r.2).runFrom e₁ = (.error f, e₂)) :
      Launching w cfg e [.target t] [t] (.error f, e₂)
  | failed {e e₁ t ds gs r} (h : FailedRound w cfg t e e₁) (hrest : Launching w cfg e₁ ds gs r) :
      Launching w cfg e (.target t :: ds) (t :: gs) r

/-- At most `n` rounds of the `for` from `e`. -/
inductive FreeSocks (w : World ω F) (cfg : Config F) : ℕ → Engine ω F → List NextTarget →
    List Target → Except Fault Bool × Engine ω F → Prop
  | done (e) : FreeSocks w cfg 0 e [] [] (.ok true, e)
  | noTarget {n e e₁ ds gs} (h : Launching w cfg e ds gs (.ok .noTarget, e₁)) :
      FreeSocks w cfg (n + 1) e ds gs (.ok false, e₁)
  | wouldBlock {n e e₁ ds gs} (h : Launching w cfg e ds gs (.ok .wouldBlock, e₁)) :
      FreeSocks w cfg (n + 1) e ds gs (.ok true, e₁)
  | stopped {n e e₁ ds gs f} (h : Launching w cfg e ds gs (.error f, e₁)) :
      FreeSocks w cfg (n + 1) e ds gs (.error f, e₁)
  | next {n e e₁ e₂ s t ds gs ds' gs' r}
      (h : Launching w cfg e ds gs (.ok (.started s t), e₁))
      (ha : (addStarted w s t).runFrom e₁ = (.ok (), e₂))
      (hrest : FreeSocks w cfg n e₂ ds' gs' r) :
      FreeSocks w cfg (n + 1) e (ds ++ ds') (gs ++ gs') r

/-- The engine at the start of the loops of `process_free_socks`. -/
def Engine.marked (e : Engine ω F) : Engine ω F := { e with log := .freeSocks :: e.log }

variable {w : World ω F} {cfg : Config F} {e e₁ : Engine ω F} {t : Target}

theorem launchLoop_wouldBlock (fuel : ℕ) (h : (w.nextTarget e.world).1 = .wouldBlock) :
    (launchLoop w cfg (fuel + 1)).runFrom e = (.ok .wouldBlock, e.afterDraw w) := by
  simp only [launchLoop, runFrom_bind, ask, runFrom_modifyGet, h]
  rfl

theorem launchLoop_ended (fuel : ℕ) (h : (w.nextTarget e.world).1 = .target t)
    (hend : t.isEnd = true) :
    (launchLoop w cfg (fuel + 1)).runFrom e = (.ok .noTarget, e.afterDraw w) := by
  simp only [launchLoop, runFrom_bind, ask, runFrom_modifyGet, h, hend, if_true]
  rfl

theorem Given.launchLoop {c : Except Fault (Fd × ℤ)} (h : Given w cfg t c e e₁) (fuel : ℕ) :
    (launchLoop w cfg (fuel + 1)).runFrom e =
      match c with
      | .error f => (.error f, e₁)
      | .ok r =>
        (if IsStarted r then pure (.started r.1 t)
          else do
            socketFinished w cfg r.1 r.2
            EngineM.launchLoop w cfg fuel : EngineM ω F LaunchResult).runFrom e₁ := by
  have hround : (EngineM.launchLoop w cfg (fuel + 1)).runFrom e =
      (do
        let r ← createSocket w cfg t
        if IsStarted r then pure (.started r.1 t)
        else
          socketFinished w cfg r.1 r.2
          EngineM.launchLoop w cfg fuel : EngineM ω F LaunchResult).runFrom
        ((e.afterDraw w).countLaunch t) := by
    simp only [EngineM.launchLoop, runFrom_bind, ask, runFrom_modifyGet, h.drawn, h.not_end,
      Bool.false_eq_true, if_false, runFrom_modify]
    rfl
  rw [hround, runFrom_bind, h.created]
  cases c <;> rfl

theorem FailedRound.launchLoop (h : FailedRound w cfg t e e₁) (fuel : ℕ) :
    (launchLoop w cfg (fuel + 1)).runFrom e = (launchLoop w cfg fuel).runFrom e₁ := by
  obtain ⟨r, e₂, hgiven, hr, hf⟩ := h
  rw [hgiven.launchLoop fuel]
  simp only [if_neg hr, runFrom_bind, hf]

theorem Launching.launchLoop {ds : List NextTarget} {gs : List Target}
    {r : Except Fault LaunchResult × Engine ω F} (h : Launching w cfg e ds gs r)
    (hr : r.1 ≠ .error .outOfFuel) (fuel : ℕ) (hfuel : ds.length ≤ fuel) :
    (launchLoop w cfg fuel).runFrom e = r := by
  induction h generalizing fuel with
  | cut e => exact absurd rfl hr
  | wouldBlock h =>
    obtain ⟨fuel, rfl⟩ := Nat.exists_eq_add_of_le' hfuel
    exact launchLoop_wouldBlock fuel h
  | ended h hend =>
    obtain ⟨fuel, rfl⟩ := Nat.exists_eq_add_of_le' hfuel
    exact launchLoop_ended fuel h hend
  | started h hs =>
    obtain ⟨fuel, rfl⟩ := Nat.exists_eq_add_of_le' hfuel
    refine (h.launchLoop fuel).trans ?_
    simp only [if_pos hs, runFrom_pure]
  | notCreated h =>
    obtain ⟨fuel, rfl⟩ := Nat.exists_eq_add_of_le' hfuel
    exact h.launchLoop fuel
  | notFinished h hs hf =>
    obtain ⟨fuel, rfl⟩ := Nat.exists_eq_add_of_le' hfuel
    refine (h.launchLoop fuel).trans ?_
    simp only [if_neg hs, runFrom_bind, hf]
  | failed h _ ih =>
    rw [List.length_cons] at hfuel
    obtain ⟨fuel, rfl⟩ := Nat.exists_eq_add_of_le' hfuel
    rw [← Nat.add_assoc, h.launchLoop]
    exact ih hr _ (by omega)

theorem first_round (w : World ω F) (cfg : Config F) (e : Engine ω F) :
    (∃ t e', FailedRound w cfg t e e') ∨
      ∃ d gs r, Launching w cfg e [d] gs r ∧ r.1 ≠ .error .outOfFuel := by
  cases hn : (w.nextTarget e.world).1 with
  | wouldBlock => exact Or.inr ⟨_, _, _, .wouldBlock hn, by simp⟩
  | target t =>
    cases hend : t.isEnd with
    | true => exact Or.inr ⟨_, _, _, .ended hn hend, by simp⟩
    | false =>
      rcases hc : (createSocket w cfg t).runFrom ((e.afterDraw w).countLaunch t) with ⟨f | r, e₁⟩
      · refine Or.inr ⟨_, _, _, .notCreated ⟨hn, hend, hc⟩, ?_⟩
        simp [((createSocket_cases t).of_error hc).1]
      by_cases hr : IsStarted r
      · exact Or.inr ⟨_, _, _, .started ⟨hn, hend, hc⟩ hr, by simp⟩
      rcases hf : (socketFinished w cfg r.1 r.2).runFrom e₁ with ⟨f | _, e₂⟩
      · refine Or.inr ⟨_, _, _, .notFinished ⟨hn, hend, hc⟩ hr hf, ?_⟩
        simp [((socketFinished_cases _ _).of_error hf).1]
      · exact Or.inl ⟨t, e₂, r, e₁, ⟨hn, hend, hc⟩, hr, hf⟩

theorem launchLoop_launching (w : World ω F) (cfg : Config F) (fuel : ℕ) (e : Engine ω F) :
    ∃ ds gs, Launching w cfg e ds gs ((launchLoop w cfg fuel).runFrom e) := by
  induction fuel generalizing e with
  | zero => exact ⟨[], [], .cut e⟩
  | succ fuel ih =>
    rcases first_round w cfg e with ⟨t, e', hfailed⟩ | ⟨d, gs, r, hl, hr⟩
    · obtain ⟨ds, gs, hrest⟩ := ih e'
      rw [hfailed.launchLoop fuel]
      exact ⟨_, _, .failed hfailed hrest⟩
    · rw [hl.launchLoop hr (fuel + 1) (by simp)]
      exact ⟨[d], gs, hl⟩

theorem freeSocksLoop_freeSocks (w : World ω F) (cfg : Config F) (fuel n : ℕ) (e : Engine ω F) :
    ∃ ds gs, FreeSocks w cfg n e ds gs ((freeSocksLoop w cfg fuel n).runFrom e) := by
  induction n generalizing e with
  | zero => exact ⟨[], [], .done e⟩
  | succ n ih =>
    obtain ⟨ds, gs, hl⟩ := launchLoop_launching w cfg fuel e
    rw [freeSocksLoop, runFrom_bind]
    rcases hr : (launchLoop w cfg fuel).runFrom e with ⟨f | r, e₁⟩
    · rw [hr] at hl
      exact ⟨ds, gs, .stopped hl⟩
    rw [hr] at hl
    cases r with
    | noTarget => exact ⟨ds, gs, .noTarget hl⟩
    | wouldBlock => exact ⟨ds, gs, .wouldBlock hl⟩
    | started s t =>
      simp only [runFrom_bind]
      have hquiet : QuietRun w (addStarted w s t) e₁ := addStarted_quiet s t
      rcases ha : (addStarted w s t).runFrom e₁ with ⟨f | _, e₂⟩
      · exact (hquiet.of_error ha).elim
      · obtain ⟨ds', gs', hrest⟩ := ih e₂
        exact ⟨_, _, .next hl ha hrest⟩

def NextTarget.target? : NextTarget → Option Target
  | .target t => some t
  | .wouldBlock => none

/-- What the rounds of the loops do, whatever `next_target` answers: the targets that are not
taken for the end are given to `create_socket` and counted, and the sockets registered and not
released again are the `ss`. -/
structure Rounds (ds : List NextTarget) (gs : List Target) (ss : List Fd) (e e' : Engine ω F) :
    Prop where
  given : gs = (ds.filterMap NextTarget.target?).filter (fun t => !t.isEnd)
  counted : e'.nlaunched = e.nlaunched + gs.length
  registered : ∀ s ∈ e'.socketsTargets, s ∈ e.socketsTargets ∨ s ∈ ss

namespace Rounds

theorem of_quiet (h : Quiet w e e₁) : Rounds [] [] [] e e₁ where
  given := rfl
  counted := h.nlaunched
  registered := fun s hs => Or.inl (by rwa [← h.targets])

theorem trans {e₂ : Engine ω F} {ds ds' : List NextTarget} {gs gs' : List Target}
    {ss ss' : List Fd} (h : Rounds ds gs ss e e₁) (h' : Rounds ds' gs' ss' e₁ e₂) :
    Rounds (ds ++ ds') (gs ++ gs') (ss ++ ss') e e₂ where
  given := by rw [List.filterMap_append, List.filter_append, ← h.given, ← h'.given]
  counted := by
    rw [h'.counted, h.counted, List.length_append]
    omega
  registered := by
    intro s hs
    rcases h'.registered s hs with hs₁ | hss
    · rcases h.registered s hs₁ with hs₀ | hss
      · exact Or.inl hs₀
      · exact Or.inr (List.mem_append_left _ hss)
    · exact Or.inr (List.mem_append_right _ hss)

end Rounds

theorem mem_register {n : ℕ} {err : ℤ} (h : Register n t err e e₁) {s : Fd}
    (hs : s ∈ e₁.socketsTargets) : s ∈ e.socketsTargets ∨ s = n := by
  rw [h.targets, TreeMaps.mem_insertIfNew] at hs
  exact hs.symm

theorem Given.filter {c : Except Fault (Fd × ℤ)} (h : Given w cfg t c e e₁) :
    [t] = ([NextTarget.target t].filterMap NextTarget.target?).filter (fun t => !t.isEnd) := by
  simp [NextTarget.target?, h.not_end]

theorem Given.rounds {r : Fd × ℤ} (h : Given w cfg t (.ok r) e e₁) :
    (r.1 = -1 ∧ Rounds [.target t] [t] [] e e₁) ∨
      (r.1 ∈ e₁.socketsTargets ∧ Rounds [.target t] [t] [r.1] e e₁) := by
  rcases (createSocket_cases t).of_ok h.created with ⟨hr, _, he⟩ | ⟨n, hn, _, _, hreg⟩
  · refine Or.inl ⟨by rw [hr], h.filter, by rw [he]; rfl, fun s hs => Or.inl ?_⟩
    rwa [he] at hs
  · refine Or.inr ⟨by simp [hn, hreg.targets], h.filter, hreg.nlaunched, fun s hs => ?_⟩
    rcases mem_register hreg hs with hs₀ | rfl
    · exact Or.inl hs₀
    · exact Or.inr (by simp [hn])

theorem FailedRound.rounds (h : FailedRound w cfg t e e₁) : Rounds [.target t] [t] [] e e₁ := by
  obtain ⟨r, e₂, hgiven, _, hf⟩ := h
  have hfin : Finish w r.1 e₂ e₁ := (socketFinished_cases r.1 r.2).of_ok hf
  rcases hgiven.rounds with ⟨hr, _⟩ | ⟨_, hrounds⟩
  · have hreg := hfin.registered
    rw [hr] at hreg
    exact absurd (e₂.fds_nonneg _ hreg) (by norm_num)
  · refine ⟨hrounds.given, hfin.nlaunched.trans hrounds.counted, fun s hs => Or.inl ?_⟩
    rw [hfin.targets, TreeMaps.mem_erase] at hs
    exact (hrounds.registered s hs.2).resolve_right (by simpa using hs.1)

def startedSockets : Except Fault LaunchResult → List Fd
  | .ok r => r.sockets
  | .error _ => []

theorem Launching.rounds {ds : List NextTarget} {gs : List Target}
    {r : Except Fault LaunchResult × Engine ω F} (h : Launching w cfg e ds gs r) :
    Rounds ds gs (startedSockets r.1) e r.2 := by
  induction h with
  | cut e => exact Rounds.of_quiet (w := w) (Quiet.refl e)
  | wouldBlock h => exact ⟨rfl, rfl, fun s hs => Or.inl hs⟩
  | ended h hend =>
    refine ⟨?_, rfl, fun s hs => Or.inl hs⟩
    simp [NextTarget.target?, hend]
  | started h hr =>
    rcases h.rounds with ⟨hneg, hrounds⟩ | ⟨_, hrounds⟩
    · exact ⟨hrounds.given, hrounds.counted, fun s hs =>
        Or.inl ((hrounds.registered s hs).resolve_right (by simp))⟩
    · exact hrounds
  | notCreated h =>
    obtain ⟨_, he, _⟩ := (createSocket_cases _).of_error h.created
    refine ⟨h.filter, by simp only [he]; rfl, fun s hs => Or.inl ?_⟩
    simp only [he] at hs
    exact hs
  | notFinished h hr hf =>
    obtain ⟨_, habsent, he⟩ := (socketFinished_cases _ _).of_error hf
    rcases h.rounds with ⟨_, hrounds⟩ | ⟨hmem, _⟩
    · refine ⟨hrounds.given, by simp only [he]; exact hrounds.counted, fun s hs => ?_⟩
      simp only [he] at hs
      exact hrounds.registered s hs
    · exact absurd hmem habsent
  | failed h _ ih => exact h.rounds.trans ih

theorem FreeSocks.rounds {n : ℕ} {ds : List NextTarget} {gs : List Target}
    {r : Except Fault Bool × Engine ω F} (h : FreeSocks w cfg n e ds gs r) :
    ∃ ss, ss.length ≤ n ∧ Rounds ds gs ss e r.2 := by
  induction h with
  | done e => exact ⟨[], by simp, Rounds.of_quiet (w := w) (Quiet.refl e)⟩
  | noTarget h => exact ⟨[], by simp, h.rounds⟩
  | wouldBlock h => exact ⟨[], by simp, h.rounds⟩
  | stopped h => exact ⟨[], by simp, h.rounds⟩
  | @next n e e₁ e₂ s t ds gs ds' gs' r h ha _ ih =>
    obtain ⟨ss, hlen, hrest⟩ := ih
    have hquiet : Quiet w e₁ e₂ := (addStarted_quiet s t).of_ok ha
    have hround : Rounds ds gs [s] e e₁ := h.rounds
    have hrounds := (hround.trans (Rounds.of_quiet hquiet)).trans hrest
    simp only [List.append_nil] at hrounds
    exact ⟨[s] ++ ss, by simpa using hlen, hrounds⟩

theorem Launching.last {ds : List NextTarget} {gs : List Target}
    {r : Except Fault LaunchResult × Engine ω F} (h : Launching w cfg e ds gs r)
    (hr : r.1 = .ok .noTarget) : ∃ ds' t, ds = ds' ++ [.target t] ∧ t.isEnd = true := by
  induction h with
  | ended h hend => exact ⟨[], _, rfl, hend⟩
  | failed h _ ih =>
    obtain ⟨ds', t', rfl, hend⟩ := ih hr
    exact ⟨_ :: ds', t', rfl, hend⟩
  | _ => simp at hr

theorem FreeSocks.last {n : ℕ} {ds : List NextTarget} {gs : List Target}
    {r : Except Fault Bool × Engine ω F} (h : FreeSocks w cfg n e ds gs r)
    (hr : r.1 = .ok false) : ∃ ds' t, ds = ds' ++ [.target t] ∧ t.isEnd = true := by
  induction h with
  | noTarget h => exact h.last rfl
  | next h _ _ ih =>
    obtain ⟨ds', t', rfl, hend⟩ := ih hr
    exact ⟨_ ++ ds', t', by rw [List.append_assoc], hend⟩
  | _ => simp at hr

/-- Every target that `next_target` returned and that is not `Target::end()` was given to
`create_socket` and counted, and the call answered that there are no more only to
`Target::end()`. -/
structure EveryLaunched (ds : List NextTarget) (gs : List Target) (e : Engine ω F)
    (r : Except Fault Bool × Engine ω F) : Prop where
  given : gs = (ds.filterMap NextTarget.target?).filter (fun t => t ≠ .endMark)
  counted : r.2.nlaunched = e.nlaunched + gs.length
  ended : r.1 = .ok false → ds.getLast? = some (.target .endMark)

/-- The two tests of the end agree on what was drawn. -/
def EndsAgree (ds : List NextTarget) : Prop :=
  ∀ t, .target t ∈ ds → t.isEnd = true → t = .endMark

theorem mem_filterMap_target? {ds : List NextTarget} {t : Target} :
    t ∈ ds.filterMap NextTarget.target? ↔ .target t ∈ ds := by
  rw [List.mem_filterMap]
  constructor
  · rintro ⟨d, hd, heq⟩
    cases d with
    | wouldBlock => simp [NextTarget.target?] at heq
    | target t' =>
      simp only [NextTarget.target?, Option.some.injEq] at heq
      rwa [← heq]
  · intro h
    exact ⟨_, h, rfl⟩

theorem filter_isEnd_iff (ds : List NextTarget) :
    (ds.filterMap NextTarget.target?).filter (fun t => !t.isEnd) =
        (ds.filterMap NextTarget.target?).filter (fun t => t ≠ .endMark) ↔ EndsAgree ds := by
  constructor
  · intro heq t ht hend
    by_contra hne
    have hmem : t ∈ (ds.filterMap NextTarget.target?).filter (fun t => t ≠ .endMark) :=
      List.mem_filter.mpr ⟨mem_filterMap_target?.mpr ht, by simpa using hne⟩
    rw [← heq, List.mem_filter, hend] at hmem
    simp at hmem
  · intro h
    apply List.filter_congr
    intro t ht
    cases hend : t.isEnd with
    | true => simp [h t (mem_filterMap_target?.mp ht) hend]
    | false => simp [Target.ne_endMark hend]

theorem FreeSocks.everyLaunched_iff {n : ℕ} {ds : List NextTarget} {gs : List Target}
    {r : Except Fault Bool × Engine ω F} (h : FreeSocks w cfg n e ds gs r) :
    EveryLaunched ds gs e r ↔ EndsAgree ds := by
  obtain ⟨ss, _, hrounds⟩ := h.rounds
  rw [← filter_isEnd_iff, ← hrounds.given]
  constructor
  · intro hall
    exact hall.given
  · intro hgiven
    refine ⟨hgiven, hrounds.counted, fun hr => ?_⟩
    obtain ⟨ds', t, rfl, hend⟩ := h.last hr
    rw [hrounds.given] at hgiven
    have ht : t = .endMark := (filter_isEnd_iff _).mp hgiven t (by simp) hend
    rw [List.getLast?_concat, ht]

/-- For every target set, from every state and up to every round: a call of `process_free_socks`
launches all it is given, exactly if it is given no target but `Target::end()` itself that
`is_end` takes for the end. -/
theorem every_target_launched_iff (w : World ω F) (cfg : Config F) (fuel : ℕ) (e : Engine ω F) :
    (∃ ds gs, FreeSocks w cfg e.availSocks e.marked ds gs
      ((processFreeSocks w cfg fuel).runFrom e)) ∧
    ∀ ds gs, FreeSocks w cfg e.availSocks e.marked ds gs
        ((processFreeSocks w cfg fuel).runFrom e) →
      (EveryLaunched ds gs e ((processFreeSocks w cfg fuel).runFrom e) ↔ EndsAgree ds) := by
  refine ⟨freeSocksLoop_freeSocks w cfg fuel e.availSocks e.marked, fun ds gs h => ?_⟩
  rw [← h.everyLaunched_iff]
  exact ⟨fun h => ⟨h.given, h.counted, h.ended⟩, fun h => ⟨h.given, h.counted, h.ended⟩⟩

/-- The last address with the last port is a target like any other. -/
def lastOfAll : SimpleTargetSet := ⟨[⟨0xFFFFFFFF, ⟨0xFFFF, .tcp⟩⟩], [⟨0xFFFFFFFF, ⟨0xFFFF, .tcp⟩⟩]⟩

def idleScript : Script where
  targets := []
  fds := []
  connects := []
  events := []
  clock := 0
  tick := 0

/-- It is taken for the end of the set. -/
theorem last_target_not_launched :
    ∃ ds gs, FreeSocks ((Script.world Script.goOn).withTargets SimpleTargetSet.targetSet)
        (.plain 1) 1 (Engine.init (F := Unit) (.plain 1) (idleScript, lastOfAll)).marked ds gs
        ((processFreeSocks ((Script.world Script.goOn).withTargets SimpleTargetSet.targetSet)
          (.plain 1) 1).runFrom (.init (.plain 1) (idleScript, lastOfAll))) ∧
      ¬ EveryLaunched ds gs (Engine.init (F := Unit) (.plain 1) (idleScript, lastOfAll))
        ((processFreeSocks ((Script.world Script.goOn).withTargets SimpleTargetSet.targetSet)
          (.plain 1) 1).runFrom (.init (.plain 1) (idleScript, lastOfAll))) := by
  refine ⟨[.target ⟨0xFFFFFFFF, ⟨0xFFFF, .tcp⟩⟩], [], .noTarget (.ended rfl rfl), fun h => ?_⟩
  have hgiven := h.given
  revert hgiven
  decide

end Nodescan
