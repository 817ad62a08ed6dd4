import Nodescan.DirtyPass
import Nodescan.Script

/-!
# The registry of sockets

Between two phases the two maps have the open sockets as their keys, and a socket is registered
with the target it was last connected to. Launching and finishing keep this. `reconnect` closes
the old socket but leaves its entries, so it keeps this exactly when the kernel hands back the
descriptor that was just closed.
-/

namespace Nodescan

open FaultM EngineM

variable {ω F : Type}

inductive Phase
  | freeSocks
  | events
  | dirty
  | status
  deriving DecidableEq, Repr

variable (w : World ω F) (cfg : Config F)

def Phase.run (fuel : ℕ) : Phase → EngineM ω F Unit
  | .freeSocks => do let _ ← processFreeSocks w cfg fuel
  | .events => do let _ ← processEvents w cfg fuel
  | .dirty => do let _ ← processDirtyAndTimeouts w cfg fuel
  | .status => displayStatus w cfg

/-- The states between two phases, for phases in any order. -/
inductive Reachable : Engine ω F → Prop
  | init (o : ω) : Reachable (.init cfg o)
  | phase {e e' : Engine ω F} {fuel : ℕ} {p : Phase} (h : Reachable e)
      (hr : (p.run w cfg fuel).runFrom e = (.ok (), e')) : Reachable e'

variable {w cfg} {e e' : Engine ω F} {fuel : ℕ}

theorem Phase.moves (hw : w.SocketsSucceed) {p : Phase}
    (h : (p.run w cfg fuel).runFrom e = (.ok (), e')) : Moves w e e' := by
  cases p with
  | freeSocks =>
    obtain ⟨b, e₁, hr, hp⟩ := bind_eq_ok.mp h
    obtain ⟨-, rfl⟩ := Prod.mk.inj hp
    exact processFreeSocks_moves hw hr
  | events =>
    obtain ⟨b, e₁, hr, hp⟩ := bind_eq_ok.mp h
    obtain ⟨-, rfl⟩ := Prod.mk.inj hp
    exact (processEvents_moves hw).of_ok hr
  | dirty =>
    obtain ⟨b, e₁, hr, hp⟩ := bind_eq_ok.mp h
    obtain ⟨-, rfl⟩ := Prod.mk.inj hp
    exact (processDirtyAndTimeouts_moves.of_ok hr).1
  | status => exact displayStatus_moves.of_ok h

theorem Reachable.moves (hw : w.SocketsSucceed) (h : Reachable w cfg e) :
    ∃ o, Moves w (.init cfg o) e := by
  induction h with
  | init o => exact ⟨o, .refl⟩
  | phase _ hr ih =>
    obtain ⟨o, hm⟩ := ih
    exact ⟨o, hm.trans (Phase.moves hw hr)⟩

/-- The keys of both maps are the open sockets, and a socket is registered with the target of the
last `connect` made on it. -/
structure Registry (e : Engine ω F) : Prop where
  machines : ∀ s, s ∈ e.lvl4Sms ↔ s ∈ e.kernel.socks
  targets : ∀ s, s ∈ e.socketsTargets ↔ s ∈ e.kernel.socks
  connected : ∀ (s : Fd) t, e.socketsTargets[s]? = some t → e.kernel.socks[s]? = some (some t)

theorem Registry.init (o : ω) : Registry (Engine.init cfg o) where
  machines := by simp [Engine.init, Kernel.empty]
  targets := by simp [Engine.init, Kernel.empty]
  connected := by simp [Engine.init]

theorem Registry.of_quiet (h : Quiet w e e') (hr : Registry e) : Registry e' where
  machines := fun s => by rw [h.mem_lvl4Sms, h.socks, hr.machines]
  targets := fun s => by rw [h.targets, h.socks, hr.targets]
  connected := fun s t hs => by
    rw [h.targets] at hs
    rw [h.socks, hr.connected s t hs]

theorem Registry.of_register {n : ℕ} {t : Target} {err : ℤ} (hn : (n : Fd) ∉ e.kernel.socks)
    (h : Register n t err (e.countLaunch t) e') (hr : Registry e) : Registry e' where
  machines := by
    intro s
    rw [Engine.mem_lvl4Sms_iff, h.valid, h.socks, TreeMaps.mem_insert]
    by_cases hs : s = n
    · simp [hs]
    · rw [if_neg hs, ← Engine.mem_lvl4Sms_iff]
      change s ∈ e.lvl4Sms ↔ s = n ∨ s ∈ e.kernel.socks
      rw [hr.machines]
      simp [hs]
  targets := by
    intro s
    rw [h.targets, h.socks, TreeMaps.mem_insertIfNew, TreeMaps.mem_insert]
    exact or_congr Iff.rfl (hr.targets s)
  connected := by
    intro s t' hs
    rw [h.targets, TreeMaps.getElem?_insertIfNew] at hs
    rw [h.socks, TreeMaps.getElem?_insert]
    by_cases hsn : s = n
    · rw [if_pos hsn] at hs ⊢
      have hnone : (e.countLaunch t).socketsTargets[(n : Fd)]? = none :=
        Std.ExtTreeMap.getElem?_eq_none (fun hm => hn ((hr.targets _).mp hm))
      rw [hnone, Option.getD_none] at hs
      rw [Option.some.inj hs]
    · rw [if_neg hsn] at hs ⊢
      exact hr.connected s t' hs

theorem Registry.of_finish {s : Fd} (h : Finish w s e e') (hr : Registry e) : Registry e' where
  machines := by
    intro a
    rw [Engine.mem_lvl4Sms_iff, h.valid, h.socks, TreeMaps.mem_erase]
    by_cases ha : a = s
    · simp [ha]
    · rw [if_neg ha, ← Engine.mem_lvl4Sms_iff, hr.machines]
      simp [ha]
  targets := by
    intro a
    rw [h.targets, h.socks, TreeMaps.mem_erase, TreeMaps.mem_erase, hr.targets]
  connected := by
    intro a t ha
    rw [h.targets, TreeMaps.getElem?_erase] at ha
    rw [h.socks, TreeMaps.getElem?_erase]
    split_ifs at ha ⊢
    exact hr.connected a t ha

/-- A reconnection that gets its descriptor back. -/
theorem Registry.of_reopen {n : ℕ} {t : Target} (h : Reopen (n : Fd) n t e e') (hr : Registry e) :
    Registry e' where
  machines := by
    intro a
    rw [Engine.mem_lvl4Sms_iff, h.valid, h.socks, TreeMaps.mem_insert, TreeMaps.mem_erase]
    by_cases ha : a = n
    · simp [ha]
    · rw [if_neg ha, ← Engine.mem_lvl4Sms_iff, hr.machines]
      simp [ha]
  targets := by
    intro a
    rw [h.targets, h.socks, TreeMaps.mem_insertIfNew, TreeMaps.mem_insert, TreeMaps.mem_erase,
      hr.targets]
    by_cases ha : a = n
    · simp [ha]
    · simp [ha]
  connected := by
    intro a t' ha
    rw [h.targets, TreeMaps.getElem?_insertIfNew, h.registered, Option.getD_some] at ha
    rw [h.socks, TreeMaps.getElem?_insert, TreeMaps.getElem?_erase]
    by_cases han : a = n
    · rw [if_pos han] at ha ⊢
      rw [Option.some.inj ha]
    · rw [if_neg han] at ha ⊢
      rw [if_neg han]
      exact hr.connected a t' ha

/-- Every reconnection so far got the descriptor back that it had closed. -/
def SameFds (e : Engine ω F) : Prop := ∀ s s', .reconnected s s' ∈ e.log → s = s'

theorem sameFds_iff (e : Engine ω F) : SameFds e ↔
    ∀ ev ∈ e.log, (match ev with
      | .reconnected s s' => decide (s = s')
      | _ => true) = true := by
  constructor
  · intro h ev hev
    cases ev with
    | reconnected s s' => exact decide_eq_true (h s s' hev)
    | _ => rfl
  · intro h s s' hmem
    exact of_decide_eq_true (h _ hmem)

instance (e : Engine ω F) : Decidable (SameFds e) := decidable_of_iff' _ (sameFds_iff e)

theorem Registry.of_move (h : Move w e e') (hsame : SameFds e') (hr : Registry e) :
    Registry e' := by
  cases h with
  | quiet h => exact hr.of_quiet h
  | mark => exact ⟨hr.machines, hr.targets, hr.connected⟩
  | status => exact ⟨hr.machines, hr.targets, hr.connected⟩
  | touch hs hn h => exact absurd ((hr.machines _).mpr hs) hn
  | launch hn ha h => exact hr.of_register hn h
  | finish h => exact hr.of_finish h
  | reconnect hs hq h =>
    obtain ⟨err, hl⟩ := h.log
    have hsn := hsame _ _ (hl ▸ List.mem_cons_self)
    rw [hsn] at h
    exact (hr.of_quiet hq).of_reopen h

theorem SameFds.of_moves (h : Moves w e e') (hs : SameFds e') : SameFds e := by
  obtain ⟨l, hl⟩ := h.log
  intro s s' hmem
  exact hs s s' (by rw [hl]; exact List.mem_append_right l hmem)

theorem Registry.of_moves (h : Moves w e e') (hsame : SameFds e') (hr : Registry e) :
    Registry e' := by
  induction h with
  | refl => exact hr
  | tail _ hmove ih =>
    exact (ih (SameFds.of_moves (.single hmove) hsame)).of_move hmove hsame

/-- In every run in which the kernel answers each reconnection with the descriptor just closed. -/
theorem reachable_registry (hw : w.SocketsSucceed) (h : Reachable w cfg e) (hsame : SameFds e) :
    Registry e := by
  obtain ⟨o, hm⟩ := h.moves hw
  exact (Registry.init o).of_moves hm hsame

def runPhases (w : World ω F) (cfg : Config F) (fuel : ℕ) (ps : List Phase) : EngineM ω F Unit :=
  ps.forM (Phase.run w cfg fuel)

theorem Reachable.phases (h : Reachable w cfg e) {ps : List Phase}
    (hr : ((runPhases w cfg fuel ps).runFrom e).1 = .ok ()) :
    Reachable w cfg ((runPhases w cfg fuel ps).runFrom e).2 := by
  induction ps generalizing e with
  | nil => exact h
  | cons p ps ih =>
    have hbind : runPhases w cfg fuel (p :: ps) =
        (p.run w cfg fuel >>= fun _ => runPhases w cfg fuel ps) := rfl
    rw [hbind, runFrom_bind] at hr ⊢
    rcases hp : (p.run w cfg fuel).runFrom e with ⟨f | _, e₁⟩
    · simp [hp] at hr
    · rw [hp] at hr
      exact ih (h.phase hp) hr

/-- An `on_connect` action that keeps the target connected. -/
def stayConnected : (cb : Callback Unit) → cb.Answer × List (Call Unit)
  | .connected _ ct => (true, [.onSm ct.s (.setReconnect true)])
  | cb => Script.goOn cb

def stayConfig : Config Unit := { (Config.plain 1 : Config Unit) with callbackLvl4Connected := some () }

/-- One target, connected on descriptor 5 and then closed by its peer; the kernel answers the
reconnection with `fd`. -/
def reconnectScript (fd : ℕ) : Script where
  targets := [⟨1, ⟨80, .tcp⟩⟩]
  fds := [5, fd]
  connects := []
  events := [some (5, .epollout), some (5, .epollin)]
  clock := 0
  tick := 0

def reconnectRun (fd : ℕ) : Except Fault Unit × Engine Script Unit :=
  (runPhases (Script.world stayConnected) stayConfig 2 [.freeSocks, .events, .events]).runFrom
    (.init stayConfig (reconnectScript fd))

theorem reconnectRun_reachable (fd : ℕ) (h : (reconnectRun fd).1 = .ok ()) :
    Reachable (Script.world stayConnected) stayConfig (reconnectRun fd).2 :=
  Reachable.phases (.init _) h

theorem reconnect_leaves_old_entries :
    (Script.world stayConnected).SocketsSucceed ∧
      ∃ e, Reachable (Script.world stayConnected) stayConfig e ∧ ¬ Registry e := by
  refine ⟨Script.world_socketsSucceed _, _, reconnectRun_reachable 6 (by decide +kernel), ?_⟩
  intro hr
  have hmem : (5 : Fd) ∈ (reconnectRun 6).2.lvl4Sms := by decide +kernel
  have hclosed : (5 : Fd) ∉ (reconnectRun 6).2.kernel.socks := by decide +kernel
  exact hclosed ((hr.machines 5).mp hmem)

theorem reachable_registry_same_fd :
    (.reconnected 5 5 : Event Unit) ∈ (reconnectRun 5).2.log ∧ Registry (reconnectRun 5).2 :=
  ⟨by decide +kernel, reachable_registry (Script.world_socketsSucceed _)
    (reconnectRun_reachable 5 (by decide +kernel)) (by decide +kernel)⟩

end Nodescan
