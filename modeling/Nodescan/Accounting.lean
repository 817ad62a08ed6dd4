import Nodescan.SocketRegistry

/-!
# Socket and progress accounting

The sockets the engine may use are `nsockets` and what `ensure_available_sockets` has added. Every
one of them is available or registered, and every launched target is done or registered. The
counter `_avail_socks` has 32 bits while `ensure_available_sockets` takes a `size_t`, and the
status callback takes 32-bit counts, so this holds as long as both totals fit in 32 bits.
-/

namespace Nodescan

open FaultM EngineM

variable {ω F : Type}

def capacity (cfg : Config F) (e : Engine ω F) : ℕ := cfg.nsockets.toNat + added e.log

/-- The invariant of runs without reconnections. -/
structure Accounts (cfg : Config F) (e : Engine ω F) : Prop where
  registry : Registry e
  calm : ∀ s, ¬ e.ReconnectsAt s
  valid : ∀ s ∈ e.kernel.socks, e.validAt s = some true
  balance : capacity cfg e < 2 ^ 32 → e.availSocks + e.socketsTargets.size = capacity cfg e
  progress : e.nlaunched = e.ndone + e.socketsTargets.size
  status : e.nlaunched < 2 ^ 32 → ∀ a b, .called (.status a b) ∈ e.log → b ≤ a

variable {w : World ω F} {cfg : Config F} {e e' : Engine ω F} {fuel : ℕ}

theorem Accounts.init (o : ω) : Accounts cfg (Engine.init cfg o) where
  registry := Registry.init o
  calm := by simp [Engine.init, Engine.ReconnectsAt]
  valid := by simp [Engine.init, Kernel.empty]
  balance := by simp [Engine.init, capacity, added]
  progress := by simp [Engine.init]
  status := by simp [Engine.init]

theorem Accounts.of_quiet (hw : w.NeverReconnects) (h : Quiet w e e') (ha : Accounts cfg e) :
    Accounts cfg e' where
  registry := ha.registry.of_quiet h
  calm := fun s hs => ha.calm s (h.reconnect hw s hs)
  valid := by
    intro s hs
    rw [h.socks] at hs
    rw [h.valid, ha.valid s hs]
  balance := by
    intro hcap
    obtain ⟨k, hk, havail⟩ := h.avail
    have hbal := ha.balance
    rw [h.targets]
    simp only [capacity, hk] at hcap hbal ⊢
    have hb := hbal (by omega)
    have hv := havail (by omega)
    omega
  progress := by rw [h.nlaunched, h.ndone, h.targets, ha.progress]
  status := by
    obtain ⟨l, hl, hq⟩ := h.log
    rw [h.nlaunched, hl]
    intro hlt a b hmem
    rcases List.mem_append.mp hmem with hm | hm
    · exact absurd (hq _ hm) (by simp [Event.isQuiet])
    · exact ha.status hlt a b hm

theorem Accounts.of_register {n : ℕ} {t : Target} {err : ℤ} (hn : (n : Fd) ∉ e.kernel.socks)
    (hav : 0 < e.availSocks) (h : Register n t err (e.countLaunch t) e') (ha : Accounts cfg e) :
    Accounts cfg e' := by
  have hnt : (n : Fd) ∉ e.socketsTargets := fun hm => hn ((ha.registry.targets _).mp hm)
  have hsize : e'.socketsTargets.size = e.socketsTargets.size + 1 := by
    rw [h.targets, Std.ExtTreeMap.size_insertIfNew]
    exact if_neg hnt
  have hadd : added e'.log = added e.log := by
    rw [h.log]
    simp [Engine.countLaunch, Event.addedBy]
  have hl : e'.nlaunched = e.nlaunched + 1 := h.nlaunched
  have hd : e'.ndone = e.ndone := h.ndone
  have hava : e'.availSocks = e.availSocks - 1 := h.avail
  refine ⟨ha.registry.of_register hn h, fun s hs => ha.calm s (h.reconnect s hs), ?_, ?_, ?_, ?_⟩
  · intro s hs
    rw [h.socks, TreeMaps.mem_insert] at hs
    rw [h.valid]
    by_cases hsn : s = n
    · rw [if_pos hsn]
    · rw [if_neg hsn]
      exact ha.valid s (hs.resolve_left hsn)
  · intro hcap
    have hbal := ha.balance
    simp only [capacity, hadd] at hcap hbal ⊢
    have hb := hbal hcap
    omega
  · have hp := ha.progress
    omega
  · intro hlt a b hmem
    rw [h.log] at hmem
    simp only [Engine.countLaunch, List.mem_cons, reduceCtorEq, false_or] at hmem
    exact ha.status (by omega) a b hmem

theorem Accounts.of_finish (hw : w.NeverReconnects) {s : Fd} (h : Finish w s e e')
    (ha : Accounts cfg e) : Accounts cfg e' := by
  have hpos : 0 < e.socketsTargets.size := by
    rw [Nat.pos_iff_ne_zero]
    intro h0
    have hempty := Std.ExtTreeMap.eq_empty_iff_size_eq_zero.mpr h0
    have hreg := h.registered
    rw [hempty] at hreg
    simp at hreg
  have hsize : e'.socketsTargets.size = e.socketsTargets.size - 1 := by
    rw [h.targets, Std.ExtTreeMap.size_erase]
    exact if_pos (Std.ExtTreeMap.contains_iff_mem.mpr h.registered)
  refine ⟨ha.registry.of_finish h, fun a hs => ha.calm a (h.reconnect hw a hs), ?_, ?_, ?_, ?_⟩
  · intro a has
    rw [h.socks, TreeMaps.mem_erase] at has
    rw [h.valid, if_neg has.1]
    exact ha.valid a has.2
  · intro hcap
    obtain ⟨k, hk, havail⟩ := h.avail
    have hbal := ha.balance
    simp only [capacity, hk] at hcap hbal ⊢
    have hb := hbal (by omega)
    have hv := havail (by omega)
    omega
  · have hp := ha.progress
    have hl := h.nlaunched
    have hd := h.ndone
    omega
  · obtain ⟨l, hl, hq⟩ := h.log
    rw [h.nlaunched, hl]
    intro hlt a b hmem
    rcases List.mem_append.mp hmem with hm | hm
    · exact absurd (hq _ hm) (by simp [Event.isQuiet])
    · exact ha.status hlt a b (by simpa using hm)

theorem Accounts.of_status (ha : Accounts cfg e) :
    Accounts cfg { e with
      log := .called (.status (e.nlaunched % 2 ^ 32) (e.ndone % 2 ^ 32)) :: e.log } where
  registry := ⟨ha.registry.machines, ha.registry.targets, ha.registry.connected⟩
  calm := ha.calm
  valid := ha.valid
  balance := by simpa [capacity, Event.addedBy] using ha.balance
  progress := ha.progress
  status := by
    intro hlt a b hmem
    have hp := ha.progress
    simp only [List.mem_cons, Event.called.injEq, Callback.status.injEq] at hmem
    rcases hmem with ⟨rfl, rfl⟩ | hm
    · change e.nlaunched < 2 ^ 32 at hlt
      rw [Nat.mod_eq_of_lt hlt, Nat.mod_eq_of_lt (by omega)]
      omega
    · exact ha.status hlt a b hm

theorem Accounts.of_mark (ha : Accounts cfg e) :
    Accounts cfg { e with log := .freeSocks :: e.log } where
  registry := ⟨ha.registry.machines, ha.registry.targets, ha.registry.connected⟩
  calm := ha.calm
  valid := ha.valid
  balance := by simpa [capacity, Event.addedBy] using ha.balance
  progress := ha.progress
  status := by simpa using ha.status

theorem Accounts.of_move (hw : w.NeverReconnects) (h : Move w e e') (ha : Accounts cfg e) :
    Accounts cfg e' := by
  cases h with
  | quiet h => exact ha.of_quiet hw h
  | mark => exact ha.of_mark
  | status => exact ha.of_status
  | touch hs hn h => exact absurd ((ha.registry.machines _).mpr hs) hn
  | launch hn hav h => exact ha.of_register hn hav h
  | finish h => exact ha.of_finish hw h
  | reconnect hs hq h => exact absurd hs (ha.calm _)

theorem Accounts.of_moves (hw : w.NeverReconnects) (h : Moves w e e') (ha : Accounts cfg e) :
    Accounts cfg e' :=
  Moves.invariant (fun _ _ hm hi => hi.of_move hw hm) h ha

theorem Reachable.accounts (hs : w.SocketsSucceed) (hw : w.NeverReconnects)
    (h : Reachable w cfg e) : Accounts cfg e := by
  obtain ⟨o, hm⟩ := h.moves hs
  exact (Accounts.init o).of_moves hw hm

theorem added_le_of_moves (h : Moves w e e') : added e.log ≤ added e'.log := by
  obtain ⟨l, hl⟩ := h.log
  rw [hl, added, added, List.map_append, List.sum_append]
  omega

theorem open_le_capacity (ha : Accounts cfg e) (hcap : capacity cfg e < 2 ^ 32) :
    e.kernel.socks.size ≤ capacity cfg e := by
  have hsize : e.socketsTargets.size = e.kernel.socks.size :=
    TreeMaps.size_congr ha.registry.targets
  have hb := ha.balance hcap
  omega

/-- The launch loop never runs out of the sockets it counted at its start. -/
theorem processFreeSocks_avail (hs : w.SocketsSucceed) (hw : w.NeverReconnects)
    (ha : Accounts cfg e) {f : Fault}
    (h : (processFreeSocks w cfg fuel).runFrom e = (.error f, e'))
    (hcap : capacity cfg e' < 2 ^ 32) : f ≠ .availSocks := by
  intro hf
  obtain ⟨e₁, ss, hl, hlen, hzero, hadd⟩ := (processFreeSocks_launches hs).of_error h hf
  have ha₁ := ha.of_mark.of_moves hw hl.moves
  have hcap₁ : capacity cfg e₁ < 2 ^ 32 := by
    simpa only [capacity, hadd] using hcap
  have hle := added_le_of_moves hl.moves
  simp only [added_cons, Event.addedBy, Nat.zero_add] at hle
  have hcap₀ : capacity cfg e < 2 ^ 32 := by
    simp only [capacity] at hcap₁ ⊢
    omega
  have hb := ha.balance hcap₀
  have hb₁ := ha₁.balance hcap₁
  have hsize := hl.size
  simp only [capacity] at hb hb₁
  change e₁.socketsTargets.size ≤ e.socketsTargets.size + ss.length at hsize
  omega

theorem Phase.avail (hs : w.SocketsSucceed) (hw : w.NeverReconnects) (ha : Accounts cfg e)
    {p : Phase} {f : Fault} (h : (p.run w cfg fuel).runFrom e = (.error f, e'))
    (hcap : capacity cfg e' < 2 ^ 32) : f ≠ .availSocks := by
  cases p with
  | freeSocks =>
    rcases bind_eq_error.mp h with hr | ⟨b, e₁, -, hp⟩
    · exact processFreeSocks_avail hs hw ha hr hcap
    · simp at hp
  | events =>
    rcases bind_eq_error.mp h with hr | ⟨b, e₁, -, hp⟩
    · intro hf
      obtain ⟨e₁, s, hm, hrec⟩ := (processEvents_moves hs).of_error hr hf
      exact (ha.of_moves hw hm).calm s hrec
    · simp at hp
  | dirty =>
    rcases bind_eq_error.mp h with hr | ⟨b, e₁, -, hp⟩
    · exact processDirtyAndTimeouts_moves.of_error hr
    · simp at hp
  | status => exact (displayStatus_moves.of_error h).elim

/-- The accounts in every run whose capacity and launches fit in 32 bits. -/
theorem reachable_accounts (hs : w.SocketsSucceed) (hw : w.NeverReconnects)
    (h : Reachable w cfg e) (hcap : capacity cfg e < 2 ^ 32) (hlaunched : e.nlaunched < 2 ^ 32) :
    e.availSocks + e.socketsTargets.size = capacity cfg e ∧
      e.nlaunched = e.ndone + e.socketsTargets.size ∧
      e.kernel.socks.size ≤ capacity cfg e ∧
      (∀ a b, .called (.status a b) ∈ e.log → b ≤ a) ∧
      ∀ p fuel f e', (Phase.run w cfg fuel p).runFrom e = (.error f, e') →
        capacity cfg e' < 2 ^ 32 → f ≠ .availSocks := by
  have ha := h.accounts hs hw
  exact ⟨ha.balance hcap, ha.progress, open_le_capacity ha hcap, ha.status hlaunched,
    fun p fuel f e' hr hcap' => Phase.avail hs hw ha hr hcap'⟩

/-- A finish callback that asks for `n` available sockets. -/
def ensuring (n : ℕ) : (cb : Callback Unit) → cb.Answer × List (Call Unit)
  | .finish _ _ _ => ((), [.ensureAvailableSockets n])
  | cb => Script.goOn cb

theorem ensuring_neverReconnects (n : ℕ) : (Script.world (ensuring n)).NeverReconnects := by
  intro cb sc c hc
  cases cb with
  | finish t buf err =>
    simp only [Script.world, ensuring, List.mem_singleton] at hc
    rw [hc]
    rfl
  | _ => simp [Script.world, ensuring, Script.goOn] at hc

/-- `n` targets; the first `connect` is refused. -/
def refusedScript (n : ℕ) : Script where
  targets := List.replicate n ⟨1, ⟨80, .tcp⟩⟩
  fds := []
  connects := [111]
  events := []
  clock := 0
  tick := 0

/-- The first launch of an engine of two sockets, whose finish callback asks for `n` sockets. -/
def ensureRun (n targets : ℕ) : Except Fault Unit × Engine Script Unit :=
  (runPhases (Script.world (ensuring n)) (.plain 2) 4 [.freeSocks]).runFrom
    (.init (.plain 2) (refusedScript targets))

theorem ensure_truncates :
    (Script.world (ensuring (2 ^ 32))).SocketsSucceed ∧
      (Script.world (ensuring (2 ^ 32))).NeverReconnects ∧
      (∃ e, Reachable (Script.world (ensuring (2 ^ 32))) (.plain 2) e ∧
        e.availSocks + e.socketsTargets.size ≠ capacity (.plain 2) e) ∧
      ∃ e, Reachable (Script.world (ensuring (2 ^ 32))) (.plain 2) e ∧
        ((Phase.freeSocks.run (Script.world (ensuring (2 ^ 32))) (.plain 2) 4).runFrom e).1 =
          .error .availSocks := by
  refine ⟨Script.world_socketsSucceed _, ensuring_neverReconnects _, ?_, ?_⟩
  · exact ⟨(ensureRun (2 ^ 32) 2).2, Reachable.phases (.init _) (by decide +kernel),
      by decide +kernel⟩
  · exact ⟨.init (.plain 2) (refusedScript 3), .init _, by decide +kernel⟩

theorem reachable_accounts_ensured :
    capacity (.plain 2) (ensureRun 7 3).2 = 8 ∧
      (ensureRun 7 3).2.availSocks + (ensureRun 7 3).2.socketsTargets.size = 8 := by
  have hreach : Reachable (Script.world (ensuring 7)) (.plain 2) (ensureRun 7 3).2 :=
    Reachable.phases (.init _) (by decide +kernel)
  have hcap : capacity (.plain 2) (ensureRun 7 3).2 = 8 := by decide +kernel
  have haccounts := reachable_accounts (Script.world_socketsSucceed _)
    (ensuring_neverReconnects 7) hreach (by rw [hcap]; decide) (by decide +kernel)
  exact ⟨hcap, haccounts.1.trans hcap⟩

end Nodescan
