import Nodescan.Layers
import Nodescan.StepsDone
import Nodescan.Timeouts

/-!
# Saving a scan as it runs

After a round that does not end the scan, the engine reads the clock and writes the state of the
target set to a file if the last write is old enough. The file and the time of the write are kept
beside the world of the scan, which they do not change. So the file always holds the state after
some round, and the rounds that it misses began less than the interval after that one.
-/

namespace Nodescan

open FaultM EngineM

variable {ω F σ γ δ ρ : Type}

/-- `_file_autosave` and `_time_autosave`. -/
structure Autosave where
  file : String
  time : ℕ
  deriving DecidableEq

namespace Autosave

/-- `Engine::auto_save_state`, which also sets `_last_save` to 0. -/
def autoSaveState (a : Autosave) (file : Option String) (timeS : UInt32) : Autosave :=
  match file with
  | none => { a with time := 0 }
  | some f => ⟨f, timeS.toNat⟩

/-- No state is saved. -/
def off (a : Autosave) : Bool := a.time = 0 || a.file.isEmpty

end Autosave

/-- `_last_save`, and what the file holds. -/
structure Saves (σ : Type) where
  lastSave : ℤ
  written : Option σ

/-- `should_save_state`, and `save_state` if it says so. -/
def Autosave.saved (a : Autosave) (now : ℤ) (state : σ) (s : Saves σ) : Saves σ :=
  if now - s.lastSave ≥ a.time then ⟨now, some state⟩ else s

/-- The world `w` with the file of the autosave beside it. `state` is what `save_state` writes. -/
def World.autosaving (w : World ω F) (a : Autosave) (state : ω → σ) : World (ω × Saves σ) F where
  socket k p o := ((w.socket k p o.1).1, ((w.socket k p o.1).2, o.2))
  connect k s t o := ((w.connect k s t o.1).1, ((w.connect k s t o.1).2, o.2))
  epollWait k o := ((w.epollWait k o.1).1, ((w.epollWait k o.1).2, o.2))
  soError k s o := ((w.soError k s o.1).1, ((w.soError k s o.1).2, o.2))
  bytesAvail k s o := ((w.bytesAvail k s o.1).1, ((w.bytesAvail k s o.1).2, o.2))
  read s n o := ((w.read s n o.1).1, ((w.read s n o.1).2, o.2))
  getpeername k s o := ((w.getpeername k s o.1).1, ((w.getpeername k s o.1).2, o.2))
  timestamp o := ((w.timestamp o.1).1, ((w.timestamp o.1).2, o.2))
  initTargets o := (w.initTargets o.1, o.2)
  nextTarget o := ((w.nextTarget o.1).1, ((w.nextTarget o.1).2, o.2))
  targetFinished t hsm o :=
    ((w.targetFinished t hsm o.1).1, ((w.targetFinished t hsm o.1).2, o.2))
  initHostSm t hsm o := ((w.initHostSm t hsm o.1).1, ((w.initHostSm t hsm o.1).2, o.2))
  saveState o :=
    if a.off then o
    else
      let r := w.timestamp o.1
      (r.2, a.saved r.1 (state r.2) o.2)
  callback cb o := ((w.callback cb o.1).1, ((w.callback cb o.1).2, o.2))
  socket_fresh := fun h => w.socket_fresh h
  epollWait_registered := fun h => w.epollWait_registered h
  epollWait_nodup := fun h => w.epollWait_nodup h
  epollWait_length := fun h => w.epollWait_length h

/-- What the autosave does to the world: it reads the clock. -/
def World.polled (w : World ω F) (a : Autosave) : World ω F :=
  { w with saveState := fun o => if a.off then o else (w.timestamp o).2 }

section Layer

variable (w : World ω F) (a : Autosave)

theorem autosaving_shows (ts : TargetSet σ) :
    ((w.withTargets ts).autosaving a Prod.snd).Shows Prod.fst ((w.polled a).withTargets ts) := by
  constructor <;> intros <;> rfl

theorem autosaving_saveState (ts : TargetSet σ) (o : (ω × σ) × Saves σ) :
    ((w.polled a).withTargets ts).saveState o.1 =
      (((w.withTargets ts).autosaving a Prod.snd).saveState o).1 := by
  simp only [World.polled, World.autosaving, World.withTargets]
  split_ifs
  · rfl
  · rfl

theorem autosaving_shows_self (state : ω → σ) (c : Saves σ) :
    (w.autosaving a state).Shows (fun o => (o.1, c)) (w.autosaving a state) := by
  constructor <;> intros <;> rfl

variable {w a} {clock : ω → ℤ}

theorem World.Clocked.withTargets (hw : w.Clocked clock) (ts : TargetSet σ) :
    (w.withTargets ts).Clocked (fun o => clock o.1) where
  read := fun o => hw.read o.1
  asked := by
    intro o o' h
    cases h with
    | socket k p => exact hw.asked (.socket k p o.1)
    | connect k s t => exact hw.asked (.connect k s t o.1)
    | epollWait k => exact hw.asked (.epollWait k o.1)
    | soError k s => exact hw.asked (.soError k s o.1)
    | bytesAvail k s => exact hw.asked (.bytesAvail k s o.1)
    | read s n => exact hw.asked (.read s n o.1)
    | getpeername k s => exact hw.asked (.getpeername k s o.1)
    | timestamp => exact hw.asked (.timestamp o.1)
    | callback cb => exact hw.asked (.callback cb o.1)
  nextTarget := fun _ => le_refl _
  targetFinished := fun _ _ _ => le_refl _
  initHostSm := fun _ _ _ => le_refl _
  saveState := fun o => hw.saveState o.1

theorem World.Clocked.autosaving (hw : w.Clocked clock) (state : ω → σ) :
    (w.autosaving a state).Clocked (fun o => clock o.1) where
  read := fun o => hw.read o.1
  asked := by
    intro o o' h
    cases h with
    | socket k p => exact hw.asked (.socket k p o.1)
    | connect k s t => exact hw.asked (.connect k s t o.1)
    | epollWait k => exact hw.asked (.epollWait k o.1)
    | soError k s => exact hw.asked (.soError k s o.1)
    | bytesAvail k s => exact hw.asked (.bytesAvail k s o.1)
    | read s n => exact hw.asked (.read s n o.1)
    | getpeername k s => exact hw.asked (.getpeername k s o.1)
    | timestamp => exact hw.asked (.timestamp o.1)
    | callback cb => exact hw.asked (.callback cb o.1)
  nextTarget := fun o => hw.nextTarget o.1
  targetFinished := fun t hsm o => hw.targetFinished t hsm o.1
  initHostSm := fun t hsm o => hw.initHostSm t hsm o.1
  saveState := by
    intro o
    simp only [World.autosaving]
    split_ifs
    · exact le_refl _
    · exact hw.asked (.timestamp o.1)

end Layer

theorem ShownAs.frame {κ α : Type} {x : EngineM (ω × κ) F α}
    (hx : ∀ c, ShownAs (fun o => (o.1, c)) x x) {e e' : Engine (ω × κ) F} {r : Except Fault α}
    (hr : x.runFrom e = (r, e')) : e'.world.2 = e.world.2 := by
  have hshown : x.runFrom e = ((x.runFrom e).1, (x.runFrom e).2.shown (fun o => (o.1, e.world.2))) :=
    hx e.world.2 e
  rw [hr] at hshown
  have he' : e' = e'.shown (fun o => (o.1, e.world.2)) := (Prod.mk.inj hshown).2
  exact congrArg (fun e => e.world.2) he'

theorem scanPass_false {w : World ω F} {cfg : Config F} {fuel : ℕ} {e e' : Engine ω F}
    (h : (scanPass w cfg fuel).runFrom e = (.ok false, e')) :
    ∃ e₁ nfds nValid more e₂ e₃ e₄, (processEvents w cfg fuel).runFrom e = (.ok nfds, e₁) ∧
      (processDirtyAndTimeouts w cfg fuel).runFrom e₁ = (.ok nValid, e₂) ∧
      (processFreeSocks w cfg fuel).runFrom e₂ = (.ok more, e₃) ∧
      (displayStatus w cfg).runFrom e₃ = (.ok (), e₄) ∧
      e' = { e₄ with world := w.saveState e₄.world } := by
  obtain ⟨nfds, e₁, h₁, h⟩ := bind_eq_ok.mp h
  obtain ⟨nValid, e₂, h₂, h⟩ := bind_eq_ok.mp h
  obtain ⟨more, e₃, h₃, h⟩ := bind_eq_ok.mp h
  split_ifs at h
  · simp at h
  · obtain ⟨_, e₄, h₄, h⟩ := bind_eq_ok.mp h
    refine ⟨e₁, nfds, nValid, more, e₂, e₃, e₄, h₁, h₂, h₃, h₄, ?_⟩
    exact ((Prod.mk.inj h).2).symm

section Rounds

variable {w : World ω F} {a : Autosave} {state : ω → σ} {clock : ω → ℤ} {cfg : Config F}
  {fuel n : ℕ} {e e' : Engine (ω × Saves σ) F}

theorem scanPass_saved (hw : w.Clocked clock)
    (hread : ∀ o, (w.timestamp o).1 ≤ clock (w.timestamp o).2) (ha : a.off = false)
    (h : (scanPass (w.autosaving a state) cfg fuel).runFrom e = (.ok false, e')) :
    ∃ now, clock e.world.1 ≤ now ∧ now ≤ clock e'.world.1 ∧
      e'.world.2 = a.saved now (state e'.world.1) e.world.2 := by
  obtain ⟨e₁, nfds, nValid, more, e₂, e₃, e₄, h₁, h₂, h₃, h₄, rfl⟩ := scanPass_false h
  have hshows := autosaving_shows_self w a state
  have hframe : e₄.world.2 = e.world.2 := by
    rw [ShownAs.frame (fun c => ShownAs.displayStatus (hshows c)) h₄,
      ShownAs.frame (fun c => ShownAs.processFreeSocks (hshows c)) h₃,
      ShownAs.frame (fun c => ShownAs.processDirtyAndTimeouts (hshows c)) h₂,
      ShownAs.frame (fun c => ShownAs.processEvents (hshows c)) h₁]
  have hsteps : Steps (w.autosaving a state) cfg e e₄ :=
    (((StepRun.processEvents.of_ok h₁).trans (StepRun.processDirtyAndTimeouts.of_ok h₂)).trans
      (processFreeSocks_steps.of_ok h₃)).trans (StepRun.displayStatus.of_ok h₄)
  have hclock := Steps.clock_le (hw.autosaving (a := a) state) hsteps
  refine ⟨(w.timestamp e₄.world.1).1, hclock.trans (hw.read _), ?_, ?_⟩
  · simp only [World.autosaving, ha, Bool.false_eq_true, if_false]
    exact hread _
  · simp only [World.autosaving, ha, Bool.false_eq_true, if_false, hframe]

theorem launch_succ_false {w : World ω F} {e e'' : Engine ω F}
    (h : (launch w cfg fuel (n + 1)).runFrom e = (.ok false, e'')) :
    ∃ e', (launch w cfg fuel n).runFrom e = (.ok false, e') ∧
      (scanPass w cfg fuel).runFrom e' = (.ok false, e'') := by
  have hloop : ∀ {n e}, (scanLoop w cfg fuel (n + 1)).runFrom e = (.ok false, e'') →
      ∃ e', (scanLoop w cfg fuel n).runFrom e = (.ok false, e') := by
    intro n
    induction n with
    | zero => exact fun {e} _ => ⟨e, rfl⟩
    | succ n ih =>
      intro e h
      obtain ⟨v, e₁, hpass, hrest⟩ := bind_eq_ok.mp h
      cases v with
      | true => exact absurd (Except.ok.inj (Prod.mk.inj hrest).1) (by simp)
      | false =>
        obtain ⟨e', he'⟩ := ih hrest
        exact ⟨e', bind_eq_ok.mpr ⟨false, e₁, hpass, he'⟩⟩
  obtain ⟨_, e₁, h₁, h⟩ := bind_eq_ok.mp h
  obtain ⟨_, e₂, h₂, h⟩ := bind_eq_ok.mp h
  obtain ⟨b, e₃, h₃, h⟩ := bind_eq_ok.mp h
  obtain ⟨e', he'⟩ := hloop h
  refine ⟨e', ?_, scanLoop_succ he' h⟩
  refine bind_eq_ok.mpr ⟨_, e₁, h₁, bind_eq_ok.mpr ⟨_, e₂, h₂, ?_⟩⟩
  exact bind_eq_ok.mpr ⟨b, e₃, h₃, he'⟩

theorem launch_zero_saved {s : Saves σ} {o : ω}
    (h : (launch (w.autosaving a state) cfg fuel 0).runFrom (.init cfg (o, s)) = (.ok false, e)) :
    e.world.2 = s := by
  obtain ⟨_, e₁, h₁, h⟩ := bind_eq_ok.mp h
  obtain ⟨_, e₂, h₂, h⟩ := bind_eq_ok.mp h
  obtain ⟨b, e₃, h₃, h⟩ := bind_eq_ok.mp h
  obtain ⟨-, rfl⟩ := Prod.mk.inj h
  rw [ShownAs.frame (fun c => ShownAs.processFreeSocks (autosaving_shows_self w a state c)) h₃]
  obtain ⟨-, rfl⟩ := Prod.mk.inj h₂
  obtain ⟨-, rfl⟩ := Prod.mk.inj h₁
  rfl

/-- The file was written after the round that ended in `e`. -/
structure SavedAt (state : ω → σ) (clock : ω → ℤ) (e : Engine (ω × Saves σ) F) (s : Saves σ) :
    Prop where
  written : s.written = some (state e.world.1)
  lastSave : s.lastSave ≤ clock e.world.1

theorem launch_saved (hw : w.Clocked clock)
    (hread : ∀ o, (w.timestamp o).1 ≤ clock (w.timestamp o).2) (ha : a.off = false) (o : ω)
    (h : (launch (w.autosaving a state) cfg fuel n).runFrom (.init cfg (o, ⟨0, none⟩)) =
      (.ok false, e)) :
    e.world.2 = ⟨0, none⟩ ∨ ∃ m eₘ, m ≤ n ∧
      (launch (w.autosaving a state) cfg fuel m).runFrom (.init cfg (o, ⟨0, none⟩)) =
        (.ok false, eₘ) ∧ SavedAt state clock eₘ e.world.2 := by
  induction n generalizing e with
  | zero => exact Or.inl (launch_zero_saved h)
  | succ n ih =>
    obtain ⟨e₀, h₀, hpass⟩ := launch_succ_false h
    obtain ⟨now, -, hnow, hsaved⟩ := scanPass_saved hw hread ha hpass
    rw [hsaved, Autosave.saved]
    split_ifs
    · exact Or.inr ⟨n + 1, e, le_refl _, h, rfl, hnow⟩
    · rcases ih h₀ with hnone | ⟨m, eₘ, hm, hr, hat⟩
      · exact Or.inl hnone
      · exact Or.inr ⟨m, eₘ, hm.trans (Nat.le_succ n), hr, hat⟩

end Rounds

namespace IPV4TargetSet

/-- A scan that is stopped after `n + 1` rounds can be resumed from the file, which is missing only
if the clock had not reached the interval, and which else misses only rounds that began within the
interval. -/
theorem autosave_resumes (w : World ω F) (cfg : Config F) (lib : Leeloo γ δ ρ) (stray : ℕ)
    (a : Autosave) (ha : a.off = false) {clock : ω → ℤ} (hw : w.Clocked clock)
    (hread : ∀ o, (w.timestamp o).1 ≤ clock (w.timestamp o).2) (o : ω)
    (ts : IPV4TargetSet γ δ ρ) (hl : Enumerable ts.ipv4s ts.ports)
    (hres : NoneReserved ts.ipv4s ts.ports) {fuel n : ℕ}
    {e' : Engine ((ω × IPV4TargetSet γ δ ρ) × Saves (IPV4TargetSet γ δ ρ)) F}
    (h : (launch ((w.withTargets (targetSet lib stray)).autosaving a Prod.snd) cfg fuel
      (n + 1)).runFrom (.init cfg ((o, ts), ⟨0, none⟩)) = (.ok false, e')) :
    ∃ e, (launch ((w.withTargets (targetSet lib stray)).autosaving a Prod.snd) cfg fuel
        n).runFrom (.init cfg ((o, ts), ⟨0, none⟩)) = (.ok false, e) ∧
      (e'.world.2.written = none → clock e.world.1.1 < a.time) ∧
      ∀ saved, e'.world.2.written = some saved → ∃ m eₘ, m ≤ n + 1 ∧
        (launch ((w.withTargets (targetSet lib stray)).autosaving a Prod.snd) cfg fuel
          m).runFrom (.init cfg ((o, ts), ⟨0, none⟩)) = (.ok false, eₘ) ∧
        saved = eₘ.world.1.2 ∧
        (m = n + 1 ∨ clock e.world.1.1 < clock eₘ.world.1.1 + a.time) ∧
        (SameFds eₘ → (∀ ip, AllEnded ts.ports eₘ.log ip → StartedIn eₘ.log ip) →
          ∀ r₁ r₂, Resumed lib ts eₘ.log saved r₁ r₂) := by
  have hclocked := hw.withTargets (targetSet lib stray)
  have hbase : ∀ {m eₘ}, (launch ((w.withTargets (targetSet lib stray)).autosaving a Prod.snd) cfg
      fuel m).runFrom (.init cfg ((o, ts), ⟨0, none⟩)) = (.ok false, eₘ) → SameFds eₘ →
      (∀ ip, AllEnded ts.ports eₘ.log ip → StartedIn eₘ.log ip) →
      ∀ r₁ r₂, Resumed lib ts eₘ.log eₘ.world.1.2 r₁ r₂ := by
    intro m eₘ hm hsame hstarted
    have hshown : ShownAs Prod.fst (launch ((w.withTargets (targetSet lib stray)).autosaving a
        Prod.snd) cfg fuel m) (launch ((w.polled a).withTargets (targetSet lib stray)) cfg fuel m) :=
      ShownAs.launch (autosaving_shows w a _) (autosaving_saveState w a _) m
    have hrun := hshown (.init cfg ((o, ts), ⟨0, none⟩))
    rw [hm] at hrun
    exact launch_resumed (w.polled a) cfg lib stray o ts hl hres hrun hsame hstarted
  obtain ⟨e, he, hpass⟩ := launch_succ_false h
  obtain ⟨now, hnow, -, hsaved⟩ := scanPass_saved hclocked (fun o => hread o.1) ha hpass
  refine ⟨e, he, ?_⟩
  rw [hsaved, Autosave.saved]
  split_ifs with hdue
  · refine ⟨by simp, ?_⟩
    rintro saved hw'
    obtain rfl := Option.some.inj hw'
    exact ⟨n + 1, e', le_refl _, h, rfl, Or.inl rfl, hbase h⟩
  · rcases launch_saved hclocked (fun o => hread o.1) ha (o, ts) he with hnone | ⟨m, eₘ, hm, hr, hat⟩
    · rw [hnone] at hdue ⊢
      refine ⟨fun _ => ?_, by simp⟩
      simp only at hdue
      omega
    · refine ⟨fun hnone => ?_, fun saved hs => ?_⟩
      · rw [hat.written] at hnone
        simp at hnone
      · obtain rfl := Option.some.inj (hat.written.symm.trans hs)
        have htime := hat.lastSave
        refine ⟨m, eₘ, hm.trans (Nat.le_succ n), hr, rfl, Or.inr ?_, hbase hr⟩
        omega

def everyTwoSeconds : Autosave := Autosave.autoSaveState ⟨"", 0⟩ (some "scan") 2

def autosavedScan (k : UInt32) (n : ℕ) : Except Fault Bool ×
    Engine (((Script × ℤ) × IPV4TargetSet InOrder (List Port × ℕ) Unit) ×
      Saves (IPV4TargetSet InOrder (List Port × ℕ) Unit)) Unit :=
  (launch (((Script.world Script.goOn).ticking.withTargets (targetSet Leeloo.inOrder 0)).autosaving
    everyTwoSeconds Prod.snd) (.plain k) 6 n).runFrom
      (.init (.plain k) (((silentScript 0, 10), small), ⟨0, none⟩))

theorem autosavedScan_eq {k : UInt32} {n : ℕ} {v : Bool} (h : (autosavedScan k n).1 = .ok v) :
    (launch (((Script.world Script.goOn).ticking.withTargets (targetSet Leeloo.inOrder 0)).autosaving
      everyTwoSeconds Prod.snd) (.plain k) 6 n).runFrom
        (.init (.plain k) (((silentScript 0, 10), small), ⟨0, none⟩)) =
      (.ok v, (autosavedScan k n).2) :=
  Prod.ext h rfl

/-- The fourth round does not write, and the file holds the state after the third. -/
theorem autosave_resumes_small :
    (autosavedScan 2 4).2.world.2.lastSave = 13 ∧
      ∀ saved, (autosavedScan 2 (3 + 1)).2.world.2.written = some saved →
        ∃ m, m ≤ 3 + 1 ∧ (autosavedScan 2 m).1 = .ok false ∧
          saved = (autosavedScan 2 m).2.world.1.2 := by
  have hok : (autosavedScan 2 (3 + 1)).1 = .ok false := by decide +kernel
  refine ⟨by decide +kernel, ?_⟩
  generalize 3 = n at hok ⊢
  obtain ⟨e, -, -, hsome⟩ := autosave_resumes _ _ Leeloo.inOrder 0 everyTwoSeconds rfl
    (World.ticking_clocked _) (fun _ => le_refl _) _ small
    ⟨by decide, by decide, by decide, by decide⟩ (by decide) (autosavedScan_eq hok)
  intro saved hs
  obtain ⟨m, eₘ, hm, hr, heq, -⟩ := hsome saved hs
  have hrun : autosavedScan 2 m = (.ok false, eₘ) := hr
  exact ⟨m, hm, by rw [hrun], by rw [hrun, heq]⟩

end IPV4TargetSet

end Nodescan
