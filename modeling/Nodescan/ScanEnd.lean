import Nodescan.Accounting

/-!
# The end of a scan

The loop of `do_async_scan` ends on three values taken at three moments of a round: the number of
events before the timeouts, the number of machines left valid by the timeouts, and whether the
targets came to their end while sockets were being launched. The last call of
`process_free_socks` may therefore have started connections that the test does not see. Nothing is
abandoned exactly when it started none.
-/

namespace Nodescan

open FaultM EngineM

variable {ω F : Type}

/-- The targets `process_free_socks` has counted and given to `create_socket`, the latest first. Of
the targets of `next_target`, those that `is_end()` takes for the end are not among them. -/
def launchedTargets (log : List (Event F)) : List Target :=
  log.filterMap fun
    | .launched t => some t
    | _ => none

/-- The targets a socket was connected to. -/
def connectedTargets (log : List (Event F)) : List Target :=
  log.filterMap fun
    | .connect _ t _ => some t
    | _ => none

/-- The sockets on which `connect` was called and `socket_finished` was not called since. -/
def unfinished : List (Event F) → List Fd
  | [] => []
  | .connect s _ _ :: log => s :: unfinished log
  | .socketFinished s :: log => (unfinished log).filter (· ≠ s)
  | _ :: log => unfinished log

/-- No valid machine is left, and every target given to `process_free_socks` has been connected
and `socket_finished` has run on its socket. -/
structure NothingAbandoned (e : Engine ω F) : Prop where
  none_valid : ∀ s, e.validAt s ≠ some true
  all_connected : connectedTargets e.log = launchedTargets e.log
  all_finished : unfinished e.log = []
  all_done : e.ndone = e.nlaunched

theorem quiet_cons {ev : Event F} (h : ev.isQuiet = true) (log : List (Event F)) :
    launchedTargets (ev :: log) = launchedTargets log ∧
      connectedTargets (ev :: log) = connectedTargets log ∧
      unfinished (ev :: log) = unfinished log := by
  cases ev with
  | called cb => exact ⟨rfl, rfl, rfl⟩
  | returned cb v calls => exact ⟨rfl, rfl, rfl⟩
  | hostFinished t hsm complete => exact ⟨rfl, rfl, rfl⟩
  | added k => exact ⟨rfl, rfl, rfl⟩
  | onAliveSet ip a => exact ⟨rfl, rfl, rfl⟩
  | _ => simp [Event.isQuiet] at h

theorem quiet_append {l : List (Event F)} (h : ∀ ev ∈ l, ev.isQuiet = true)
    (log : List (Event F)) :
    launchedTargets (l ++ log) = launchedTargets log ∧
      connectedTargets (l ++ log) = connectedTargets log ∧
      unfinished (l ++ log) = unfinished log := by
  induction l with
  | nil => exact ⟨rfl, rfl, rfl⟩
  | cons ev l ih =>
    obtain ⟨hl, hc, hu⟩ := ih (fun ev hev => h ev (by simp [hev]))
    obtain ⟨hl', hc', hu'⟩ := quiet_cons (h ev (by simp)) (l ++ log)
    exact ⟨hl'.trans hl, hc'.trans hc, hu'.trans hu⟩

/-- What the log says of the sockets, in a run without reconnections. -/
structure Traced (e : Engine ω F) : Prop where
  connected : connectedTargets e.log = launchedTargets e.log
  registered : ∀ s ∈ unfinished e.log, s ∈ e.socketsTargets

variable {w : World ω F} {cfg : Config F} {e e' : Engine ω F} {fuel n : ℕ}

theorem Traced.init (o : ω) : Traced (Engine.init cfg o) where
  connected := rfl
  registered := by simp [Engine.init, unfinished]

theorem Traced.of_move (h : Move w e e') (ha : Accounts cfg e) (ht : Traced e) : Traced e' := by
  cases h with
  | quiet h =>
    obtain ⟨l, hl, hq⟩ := h.log
    obtain ⟨hla, hco, hun⟩ := quiet_append hq e.log
    refine ⟨by rw [hl, hla, hco, ht.connected], ?_⟩
    rw [hl, hun, h.targets]
    exact ht.registered
  | mark => exact ⟨ht.connected, ht.registered⟩
  | status => exact ⟨ht.connected, ht.registered⟩
  | touch hs hn h => exact absurd ((ha.registry.machines _).mpr hs) hn
  | launch hn hav h =>
    refine ⟨?_, ?_⟩
    · rw [h.log]
      exact congrArg (List.cons _) ht.connected
    · rw [h.log, h.targets]
      intro s hs
      rw [TreeMaps.mem_insertIfNew]
      rcases List.mem_cons.mp hs with rfl | hm
      · exact Or.inl rfl
      · exact Or.inr (ht.registered s hm)
  | finish h =>
    obtain ⟨l, hl, hq⟩ := h.log
    obtain ⟨hla, hco, hun⟩ := quiet_append hq (.socketFinished _ :: e.log)
    refine ⟨?_, ?_⟩
    · rw [hl, hla, hco]
      exact ht.connected
    · rw [hl, hun, h.targets]
      intro a hmem
      simp only [unfinished, List.mem_filter, decide_eq_true_eq] at hmem
      rw [TreeMaps.mem_erase]
      exact ⟨hmem.2, ht.registered a hmem.1⟩
  | reconnect hs hq h => exact absurd hs (ha.calm _)

theorem accounts_and_traced_of_moves (hw : w.NeverReconnects) (h : Moves w e e')
    (ha : Accounts cfg e) (ht : Traced e) : Accounts cfg e' ∧ Traced e' :=
  Moves.invariant (I := fun e => Accounts cfg e ∧ Traced e)
    (fun _ _ hm hi => ⟨hi.1.of_move hw hm, hi.2.of_move hm hi.1⟩) h ⟨ha, ht⟩

/-- Where the loop stands when it takes its `break`: the timeouts left no valid machine, and only
`process_free_socks` has run since. -/
def BreaksAfter (w : World ω F) (cfg : Config F) (fuel : ℕ) (e e' : Engine ω F) : Prop :=
  ∃ e₁, Moves w e e₁ ∧ (∀ s, e₁.validAt s ≠ some true) ∧
    ∃ b, (processFreeSocks w cfg fuel).runFrom e₁ = (.ok b, e')

theorem scanPass_cases (hs : w.SocketsSucceed) {b : Bool}
    (h : (scanPass w cfg fuel).runFrom e = (.ok b, e')) :
    if b then BreaksAfter w cfg fuel e e' else Moves w e e' := by
  obtain ⟨nfds, e₁, h₁, h⟩ := bind_eq_ok.mp h
  obtain ⟨nValid, e₂, h₂, h⟩ := bind_eq_ok.mp h
  obtain ⟨more, e₃, h₃, h⟩ := bind_eq_ok.mp h
  have hm₁ := (processEvents_moves hs).of_ok h₁
  obtain ⟨hm₂, hnone⟩ := processDirtyAndTimeouts_moves.of_ok h₂
  have hm₃ := processFreeSocks_moves hs h₃
  by_cases hend : nfds = 0 ∧ nValid = 0 ∧ more = false
  · rw [if_pos hend] at h
    obtain ⟨hb, rfl⟩ := Prod.mk.inj h
    rw [← Except.ok.inj hb]
    exact ⟨e₂, hm₁.trans hm₂, hnone hend.2.1, more, h₃⟩
  · rw [if_neg hend] at h
    obtain ⟨_, e₄, h₄, h⟩ := bind_eq_ok.mp h
    obtain ⟨_, e₅, h₅, h⟩ := bind_eq_ok.mp h
    obtain ⟨hb, rfl⟩ := Prod.mk.inj h
    rw [← Except.ok.inj hb]
    obtain ⟨-, rfl⟩ := Prod.mk.inj h₅
    have hm₄ := displayStatus_moves.of_ok h₄
    have hq : Quiet w e₄ { e₄ with world := w.saveState e₄.world } :=
      Quiet.of_eq rfl rfl rfl rfl rfl rfl rfl
    exact ((hm₁.trans hm₂).trans (hm₃.trans hm₄)).trans hq.moves

theorem scanLoop_break (hs : w.SocketsSucceed)
    (h : (scanLoop w cfg fuel n).runFrom e = (.ok true, e')) : BreaksAfter w cfg fuel e e' := by
  induction n generalizing e with
  | zero => simp [scanLoop] at h
  | succ n ih =>
    obtain ⟨b, e₁, h₁, h⟩ := bind_eq_ok.mp h
    have hpass := scanPass_cases hs h₁
    cases b with
    | true =>
      obtain ⟨-, rfl⟩ := Prod.mk.inj h
      exact hpass
    | false =>
      obtain ⟨e₂, hm, hrest⟩ := ih h
      exact ⟨e₂, Relation.ReflTransGen.trans hpass hm, hrest⟩

theorem doAsyncScan_break (hs : w.SocketsSucceed) (o : ω)
    (h : (doAsyncScan w cfg fuel n).runFrom (.init cfg o) = (.ok true, e')) :
    BreaksAfter w cfg fuel (.init cfg o) e' := by
  obtain ⟨_, e₁, h₁, hbody⟩ := bind_eq_ok.mp h
  obtain ⟨b, e₂, h₂, hloop⟩ := bind_eq_ok.mp hbody
  obtain ⟨-, rfl⟩ := Prod.mk.inj h₁
  have hstart : Quiet w (.init cfg o) { Engine.init cfg o with
      kernel := (Engine.init cfg o).kernel.epollCreate, nlaunched := 0, ndone := 0
      lastTimeStatusDisplay := 0 } := Quiet.of_eq rfl rfl rfl rfl rfl rfl rfl
  have hm₂ := hstart.moves.trans (processFreeSocks_moves hs h₂)
  obtain ⟨e₃, hm, hrest⟩ := scanLoop_break hs hloop
  exact ⟨e₃, hm₂.trans hm, hrest⟩

/-- What the last call of `process_free_socks` logged. -/
def lastFreeSocks (log : List (Event F)) : List (Event F) :=
  log.takeWhile fun ev => !ev.isFreeSocks

theorem lastFreeSocks_append {l : List (Event F)} (h : ∀ ev ∈ l, ev.isFreeSocks = false)
    (log : List (Event F)) : lastFreeSocks (l ++ .freeSocks :: log) = l := by
  have hl : ∀ ev ∈ l, (!ev.isFreeSocks) = true := fun ev hev => by simp [h ev hev]
  rw [lastFreeSocks, List.takeWhile_append_of_pos hl]
  simp [Event.isFreeSocks]

theorem NothingAbandoned.of_none_valid (ha : Accounts cfg e) (ht : Traced e)
    (h : ∀ s, e.validAt s ≠ some true) : NothingAbandoned e := by
  have hsocks : ∀ s, s ∉ e.kernel.socks := fun s hs => h s (ha.valid s hs)
  have htargets : ∀ s, s ∉ e.socketsTargets := fun s hs => hsocks s ((ha.registry.targets s).mp hs)
  have hsize : e.socketsTargets.size = 0 := by
    rw [← Std.ExtTreeMap.eq_empty_iff_size_eq_zero, Std.ExtTreeMap.eq_empty_iff_forall_not_mem]
    exact htargets
  refine ⟨h, ht.connected, ?_, ?_⟩
  · rw [List.eq_nil_iff_forall_not_mem]
    exact fun s hs => htargets s (ht.registered s hs)
  · have hp := ha.progress
    omega

/-- A scan that has come to its end has abandoned nothing exactly if every `connect` of the last
call of `process_free_socks` failed at once. -/
theorem scan_end_iff (hs : w.SocketsSucceed) (hw : w.NeverReconnects) (o : ω)
    (h : (doAsyncScan w cfg fuel n).runFrom (.init cfg o) = (.ok true, e')) :
    NothingAbandoned e' ↔ ∀ ev ∈ lastFreeSocks e'.log, ev.connectOk = false := by
  obtain ⟨e₁, hm, hnone, b, hfree⟩ := doAsyncScan_break hs o h
  obtain ⟨ss, -, hl⟩ := (processFreeSocks_launches hs).of_ok hfree
  have hinit : Accounts cfg (Engine.init cfg o) := Accounts.init o
  obtain ⟨ha, ht⟩ := accounts_and_traced_of_moves hw
    (hm.trans (processFreeSocks_moves hs hfree)) hinit (Traced.init o)
  obtain ⟨l, hlog, hmark, hok⟩ := hl.log
  have hlast : lastFreeSocks e'.log = l := by
    rw [hlog]
    exact lastFreeSocks_append hmark e₁.log
  rw [hlast, ← hok]
  constructor
  · intro hna
    rw [List.eq_nil_iff_forall_not_mem]
    exact fun s hs' => hna.none_valid s (hl.started s hs').2
  · rintro rfl
    refine NothingAbandoned.of_none_valid ha ht (fun s hv => ?_)
    rcases hl.new s hv with hold | hnew
    · exact hnone s hold
    · simp at hnew

/-- `n` targets that never answer, and a clock that passes their timeout at every poll. -/
def silentScript (n : ℕ) : Script where
  targets := List.replicate n ⟨1, ⟨80, .tcp⟩⟩
  fds := []
  connects := []
  events := []
  clock := 0
  tick := 10

def silentScan (n : ℕ) : Except Fault Bool × Engine Script Unit :=
  (doAsyncScan (Script.world Script.goOn) (.plain 2) 4 2).runFrom
    (.init (.plain 2) (silentScript n))

theorem silentScan_eq {n : ℕ} (h : (silentScan n).1 = .ok true) :
    (doAsyncScan (Script.world Script.goOn) (.plain 2) 4 2).runFrom
      (.init (.plain 2) (silentScript n)) = (.ok true, (silentScan n).2) :=
  Prod.ext h rfl

theorem scan_end_abandons :
    (Script.world (F := Unit) Script.goOn).SocketsSucceed ∧
      (Script.world (F := Unit) Script.goOn).NeverReconnects ∧ (silentScan 3).1 = .ok true ∧
      ¬ NothingAbandoned (silentScan 3).2 := by
  refine ⟨Script.world_socketsSucceed _, Script.goOn_neverReconnects, by decide +kernel, ?_⟩
  intro h
  have hdone : (silentScan 3).2.ndone ≠ (silentScan 3).2.nlaunched := by decide +kernel
  exact hdone h.all_done

theorem scan_end_two_targets : NothingAbandoned (silentScan 2).2 :=
  (scan_end_iff (Script.world_socketsSucceed _) Script.goOn_neverReconnects (silentScript 2)
    (silentScan_eq (by decide +kernel))).mpr (by decide +kernel)

end Nodescan
