import Nodescan.Target

/-!
# Data triggers and the state machine of one connection

`Lvl4SM` holds what the engine keeps for a connection: its timestamps, its flags, the action to
run on connection, the current data trigger and the bytes received and not yet consumed. The
callbacks stored in it are values of a type `F`; what a callback does when it is called is given by
`Actions`, over a state `κ` that stands for everything outside this connection. The receive buffer
is the list of its bytes.

The two `do … while` loops of the source may not end, so `processLoop` counts down a fuel.
-/

namespace Nodescan

/-- What stops a run: a failed `assert`, a call of an empty `std::function`, a use of a state
machine that is gone, or the fuel of a loop. -/
inductive Fault
  | targetFromSocket (s : Fd)
  | availSocks
  | sizeAction
  | badFunctionCall
  | popBy
  | danglingSm (s : Fd)
  | outOfFuel
  deriving DecidableEq, Repr

/-- The faults of a trigger at work. -/
def Fault.inTrigger : Fault → Bool
  | .targetFromSocket _ => false
  | .availSocks => false
  | _ => true

inductive ProcessReturnCode
  | noMoreToProcess
  | canProcessAgain
  | connectionEnd
  deriving DecidableEq, Repr

/-- The variant of data triggers. `base` is the plain `DataTrigger`, which never fires. -/
inductive DataTrigger (F : Type)
  | base
  | size (size : ℕ) (f : Option F)
  | char (c : UInt8) (f : Option F)
  | python (obj : F)
  deriving DecidableEq, Repr

structure Lvl4SM (F : Type) where
  valid : Bool
  ts : ℤ
  watchTs : ℤ
  reconnect : Bool
  reprocess : Bool
  funcConnect : Option F
  trigger : DataTrigger F
  buf : List UInt8
  deriving DecidableEq, Repr

/-- The calls a callback can make on a state machine it holds a reference to. -/
inductive SmCall (F : Type)
  | setTrigger (t : DataTrigger F)
  | removeDataTrigger
  | setReconnect (v : Bool)
  | setOnConnect (f : Option F)
  deriving DecidableEq, Repr

/-- What a data action answers, what it leaves in the bytes it was handed, and the calls it made
on its own state machine. -/
structure DataAnswer (F : Type) where
  ret : Bool
  chunk : List UInt8
  calls : List (SmCall F)

/-- What a Python trigger answers: it sees the whole buffer and may pop bytes from it. -/
structure PythonAnswer (F : Type) where
  code : ProcessReturnCode
  pop : ℕ
  calls : List (SmCall F)

structure Actions (F κ : Type) where
  data : F → ConnectedTarget → List UInt8 → κ → DataAnswer F × κ
  python : F → ConnectedTarget → List UInt8 → ℕ → κ → PythonAnswer F × κ

/-- `read` into the region the buffer was grown by: its answer, and the bytes of the region after
the call. -/
structure ReadResult where
  nread : ℤ
  region : List UInt8

/-- The region seen as exactly `n` bytes. -/
def ReadResult.bytes (r : ReadResult) (n : ℕ) : List UInt8 :=
  r.region.take n ++ List.replicate (n - r.region.length) 0

/-- The first `n` bytes of `buf` replaced by what an action left in them. -/
def overwrite (buf chunk : List UInt8) (n : ℕ) : List UInt8 :=
  chunk.take n ++ buf.drop (min n chunk.length)

/-- `std::find` from `prevPos`: the position in `buf` of the first `c` found. -/
def findFrom (buf : List UInt8) (prevPos : ℕ) (c : UInt8) : Option ℕ :=
  ((buf.drop prevPos).idxOf? c).map (prevPos + ·)

theorem idxOf?_append_cons {c : UInt8} {xs : List UInt8} (h : c ∉ xs) (ys : List UInt8) :
    (xs ++ c :: ys).idxOf? c = some xs.length := by
  have hnone : xs.findIdx? (· == c) = none := by
    rw [List.findIdx?_eq_none_iff]
    intro x hx
    have hne : x ≠ c := fun heq => h (heq ▸ hx)
    simpa using hne
  simp [List.idxOf?, List.findIdx?_append, hnone, List.findIdx?_cons]

namespace Lvl4SM

variable {F κ : Type}

/-- A fresh state machine; the watch starts at the time it is built. -/
def new (now : ℤ) : Lvl4SM F where
  valid := false
  ts := 0
  watchTs := now
  reconnect := false
  reprocess := false
  funcConnect := none
  trigger := .base
  buf := []

def setTrigger (sm : Lvl4SM F) (t : DataTrigger F) : Lvl4SM F :=
  { sm with trigger := t, reprocess := true }

def removeDataTrigger (sm : Lvl4SM F) : Lvl4SM F :=
  { sm.setTrigger .base with reprocess := false }

def setReconnect (sm : Lvl4SM F) (v : Bool) : Lvl4SM F := { sm with reconnect := v }

def setOnConnect (sm : Lvl4SM F) (f : Option F) : Lvl4SM F := { sm with funcConnect := f }

def freeBuffer (sm : Lvl4SM F) : Lvl4SM F := { sm with buf := [] }

def call (sm : Lvl4SM F) : SmCall F → Lvl4SM F
  | .setTrigger t => sm.setTrigger t
  | .removeDataTrigger => sm.removeDataTrigger
  | .setReconnect v => sm.setReconnect v
  | .setOnConnect f => sm.setOnConnect f

def callAll (sm : Lvl4SM F) (cs : List (SmCall F)) : Lvl4SM F := cs.foldl call sm

/-- `should_process_buffer`: the answer, and the state machine with the flag consumed. -/
def shouldProcessBuffer (sm : Lvl4SM F) : Bool × Lvl4SM F :=
  (sm.reprocess, { sm with reprocess := false })

variable (acts : Actions F κ) (ct : ConnectedTarget)

/-- Call the action on the first `size` bytes; if it answers true, pop `pop` bytes. -/
def fire (f : F) (size pop : ℕ) (sm : Lvl4SM F) (k : κ) : ProcessReturnCode × Lvl4SM F × κ :=
  let a := acts.data f ct (sm.buf.take size) k
  let sm' := { sm.callAll a.1.calls with buf := overwrite sm.buf a.1.chunk size }
  if a.1.ret then (.canProcessAgain, { sm' with buf := sm'.buf.drop pop }, a.2)
  else (.connectionEnd, sm', a.2)

/-- `SizeDataTrigger::process_buffer`. -/
def processSize (size : ℕ) (f : Option F) (sm : Lvl4SM F) (k : κ) :
    Except Fault (ProcessReturnCode × Lvl4SM F × κ) :=
  if sm.buf.length < size then .ok (.noMoreToProcess, sm, k)
  else match f with
    | none => .error .sizeAction
    | some f => .ok (sm.fire acts ct f size size k)

/-- `CharDataTrigger::process_buffer`. -/
def processChar (c : UInt8) (f : Option F) (sm : Lvl4SM F) (prevPos : ℕ) (k : κ) :
    Except Fault (ProcessReturnCode × Lvl4SM F × κ) :=
  match findFrom sm.buf prevPos c with
  | none => .ok (.noMoreToProcess, sm, k)
  | some pos => match f with
    | none => .error .badFunctionCall
    | some f => .ok (sm.fire acts ct f pos (pos + 1) k)

/-- `PythonDataTrigger::process_buffer`. -/
def processPython (obj : F) (sm : Lvl4SM F) (prevPos : ℕ) (k : κ) :
    Except Fault (ProcessReturnCode × Lvl4SM F × κ) :=
  let a := acts.python obj ct sm.buf prevPos k
  if sm.buf.length < a.1.pop then .error .popBy
  else .ok (a.1.code, { sm.callAll a.1.calls with buf := sm.buf.drop a.1.pop }, a.2)

/-- `_trigger.process_buffer`. -/
def processTrigger (sm : Lvl4SM F) (prevPos : ℕ) (k : κ) :
    Except Fault (ProcessReturnCode × Lvl4SM F × κ) :=
  match sm.trigger with
  | .base => .ok (.noMoreToProcess, sm, k)
  | .size n f => sm.processSize acts ct n f k
  | .char c f => sm.processChar acts ct c f prevPos k
  | .python obj => sm.processPython acts ct obj prevPos k

/-- The `do … while` loop: `prevPos` serves the first round, the later ones search from 0. -/
def processLoop : ℕ → Lvl4SM F → ℕ → κ → Except Fault (Bool × Lvl4SM F × κ)
  | 0, _, _, _ => .error .outOfFuel
  | fuel + 1, sm, prevPos, k =>
    match sm.processTrigger acts ct prevPos k with
    | .error e => .error e
    | .ok (.canProcessAgain, sm', k') => processLoop fuel sm' 0 k'
    | .ok (.noMoreToProcess, sm', k') => .ok (true, sm', k')
    | .ok (.connectionEnd, sm', k') => .ok (false, sm', k')

/-- `grow_by` and what `read` stored. The list holds any number of bytes; `Lvl4Buffer` does as long
as they are fewer than `2 ^ 30`. -/
def growBy (sm : Lvl4SM F) (region : List UInt8) : Lvl4SM F :=
  { sm with buf := sm.buf ++ region }

/-- `Lvl4SM::process_lvl4_data`. -/
def processLvl4Data (fuel : ℕ) (sm : Lvl4SM F) (navail : ℕ) (r : ReadResult) (k : κ) :
    Except Fault (Bool × Lvl4SM F × κ) :=
  if r.nread ≤ 0 then .ok (false, sm.growBy (r.bytes navail), k)
  else (sm.growBy (r.bytes navail)).processLoop acts ct fuel sm.buf.length k

/-- `Lvl4SM::process_buffer`. -/
def processBuffer (fuel : ℕ) (sm : Lvl4SM F) (k : κ) : Except Fault (Bool × Lvl4SM F × κ) :=
  sm.processLoop acts ct fuel 0 k

section Invariants

variable {acts : Actions F κ} {ct : ConnectedTarget} {I J : Lvl4SM F → κ → Prop}

/-- `I` holds of a machine and its surroundings while the actions go on, and `J` once one of them
has ended the connection; neither speaks of the buffer. -/
structure KeptUntil (acts : Actions F κ) (ct : ConnectedTarget) (I J : Lvl4SM F → κ → Prop) :
    Prop where
  buf : ∀ {sm k} b, I sm k → I { sm with buf := b } k
  bufEnd : ∀ {sm k} b, J sm k → J { sm with buf := b } k
  data : ∀ {sm k} f chunk, I sm k → (acts.data f ct chunk k).1.ret = true →
    I (sm.callAll (acts.data f ct chunk k).1.calls) (acts.data f ct chunk k).2
  dataEnd : ∀ {sm k} f chunk, I sm k → (acts.data f ct chunk k).1.ret = false →
    J (sm.callAll (acts.data f ct chunk k).1.calls) (acts.data f ct chunk k).2
  python : ∀ {sm k} obj buf prevPos, I sm k →
    (acts.python obj ct buf prevPos k).1.code ≠ .connectionEnd →
    I (sm.callAll (acts.python obj ct buf prevPos k).1.calls)
      (acts.python obj ct buf prevPos k).2
  pythonEnd : ∀ {sm k} obj buf prevPos, I sm k →
    (acts.python obj ct buf prevPos k).1.code = .connectionEnd →
    J (sm.callAll (acts.python obj ct buf prevPos k).1.calls)
      (acts.python obj ct buf prevPos k).2

theorem KeptUntil.fire (hI : KeptUntil acts ct I J) {sm : Lvl4SM F} {k : κ} (f : F) (size pop : ℕ)
    (h : I sm k) {c : ProcessReturnCode} {sm' : Lvl4SM F} {k' : κ}
    (hr : sm.fire acts ct f size pop k = (c, sm', k')) :
    (c ≠ .connectionEnd → I sm' k') ∧ (c = .connectionEnd → J sm' k') := by
  cases hret : (acts.data f ct (sm.buf.take size) k).1.ret with
  | true =>
    simp only [Lvl4SM.fire, hret, if_true, Prod.mk.injEq] at hr
    obtain ⟨rfl, rfl, rfl⟩ := hr
    exact ⟨fun _ => hI.buf _ (hI.data f _ h hret), by simp⟩
  | false =>
    simp only [Lvl4SM.fire, hret, Bool.false_eq_true, if_false, Prod.mk.injEq] at hr
    obtain ⟨rfl, rfl, rfl⟩ := hr
    exact ⟨by simp, fun _ => hI.bufEnd _ (hI.dataEnd f _ h hret)⟩

theorem KeptUntil.processTrigger (hI : KeptUntil acts ct I J) {sm sm' : Lvl4SM F} {k k' : κ}
    {prevPos : ℕ} {c : ProcessReturnCode} (h : I sm k)
    (hr : sm.processTrigger acts ct prevPos k = .ok (c, sm', k')) :
    (c ≠ .connectionEnd → I sm' k') ∧ (c = .connectionEnd → J sm' k') := by
  cases ht : sm.trigger with
  | base =>
    simp only [Lvl4SM.processTrigger, ht, Except.ok.injEq, Prod.mk.injEq] at hr
    obtain ⟨rfl, rfl, rfl⟩ := hr
    exact ⟨fun _ => h, by simp⟩
  | size n f =>
    simp only [Lvl4SM.processTrigger, ht, processSize] at hr
    split_ifs at hr
    · simp only [Except.ok.injEq, Prod.mk.injEq] at hr
      obtain ⟨rfl, rfl, rfl⟩ := hr
      exact ⟨fun _ => h, by simp⟩
    · cases f with
      | none => simp at hr
      | some f =>
        simp only [Except.ok.injEq] at hr
        exact hI.fire f n n h hr
  | char c f =>
    simp only [Lvl4SM.processTrigger, ht, processChar] at hr
    split at hr
    · simp only [Except.ok.injEq, Prod.mk.injEq] at hr
      obtain ⟨rfl, rfl, rfl⟩ := hr
      exact ⟨fun _ => h, by simp⟩
    · next pos _ =>
      cases f with
      | none => simp at hr
      | some f =>
        simp only [Except.ok.injEq] at hr
        exact hI.fire f pos (pos + 1) h hr
  | python obj =>
    simp only [Lvl4SM.processTrigger, ht, processPython] at hr
    split_ifs at hr
    simp only [Except.ok.injEq, Prod.mk.injEq] at hr
    obtain ⟨rfl, rfl, rfl⟩ := hr
    exact ⟨fun hc => hI.buf _ (hI.python obj _ _ h hc),
      fun hc => hI.bufEnd _ (hI.pythonEnd obj _ _ h hc)⟩

/-- What every call of a trigger keeps is kept by the loop. The flag says whether the connection
goes on. -/
theorem processLoop_invariant {P : Bool → Lvl4SM F → κ → Prop}
    (hP : ∀ {sm sm' : Lvl4SM F} {k k' : κ} {c : ProcessReturnCode} (prevPos : ℕ), P true sm k →
      sm.processTrigger acts ct prevPos k = .ok (c, sm', k') → P (c != .connectionEnd) sm' k')
    {fuel : ℕ} {sm sm' : Lvl4SM F} {k k' : κ} {prevPos : ℕ} {v : Bool} (h : P true sm k)
    (hr : sm.processLoop acts ct fuel prevPos k = .ok (v, sm', k')) : P v sm' k' := by
  induction fuel generalizing sm k prevPos with
  | zero => simp [Lvl4SM.processLoop] at hr
  | succ fuel ih =>
    rw [Lvl4SM.processLoop] at hr
    cases ht : sm.processTrigger acts ct prevPos k with
    | error e => simp [ht] at hr
    | ok r =>
      obtain ⟨c, sm₁, k₁⟩ := r
      have h₁ := hP prevPos h ht
      rw [ht] at hr
      cases c with
      | canProcessAgain => exact ih h₁ hr
      | noMoreToProcess =>
        simp only [Except.ok.injEq, Prod.mk.injEq] at hr
        obtain ⟨rfl, rfl, rfl⟩ := hr
        exact h₁
      | connectionEnd =>
        simp only [Except.ok.injEq, Prod.mk.injEq] at hr
        obtain ⟨rfl, rfl, rfl⟩ := hr
        exact h₁

theorem KeptUntil.processLoop (hI : KeptUntil acts ct I J) {fuel : ℕ} {sm sm' : Lvl4SM F}
    {k k' : κ} {prevPos : ℕ} {v : Bool} (h : I sm k)
    (hr : sm.processLoop acts ct fuel prevPos k = .ok (v, sm', k')) :
    (v = true → I sm' k') ∧ (v = false → J sm' k') := by
  refine processLoop_invariant (P := fun v sm k => (v = true → I sm k) ∧ (v = false → J sm k))
    (fun prevPos h ht => ?_) ⟨fun _ => h, by simp⟩ hr
  obtain ⟨hgo, hend⟩ := hI.processTrigger (h.1 rfl) ht
  exact ⟨fun hv => hgo (by simpa using hv), fun hv => hend (by simpa using hv)⟩

/-- A failed `read` ends the connection without calling an action. -/
theorem KeptUntil.processLvl4Data (hI : KeptUntil acts ct I J) {fuel navail : ℕ} {r : ReadResult}
    {sm sm' : Lvl4SM F} {k k' : κ} {v : Bool} (h : I sm k)
    (hr : sm.processLvl4Data acts ct fuel navail r k = .ok (v, sm', k')) :
    (v = true → I sm' k') ∧ (v = false → I sm' k' ∨ J sm' k') := by
  unfold Lvl4SM.processLvl4Data at hr
  split_ifs at hr
  · simp only [Except.ok.injEq, Prod.mk.injEq] at hr
    obtain ⟨rfl, rfl, rfl⟩ := hr
    exact ⟨by simp, fun _ => Or.inl (hI.buf _ h)⟩
  · obtain ⟨hgo, hend⟩ := hI.processLoop (hI.buf _ h) hr
    exact ⟨hgo, fun hv => Or.inr (hend hv)⟩

/-- An invariant of a machine and its surroundings: it does not speak of the buffer, and the
actions keep it. -/
structure Kept (acts : Actions F κ) (ct : ConnectedTarget) (I : Lvl4SM F → κ → Prop) : Prop where
  buf : ∀ {sm k} b, I sm k → I { sm with buf := b } k
  data : ∀ {sm k} f chunk, I sm k →
    I (sm.callAll (acts.data f ct chunk k).1.calls) (acts.data f ct chunk k).2
  python : ∀ {sm k} obj buf prevPos, I sm k →
    I (sm.callAll (acts.python obj ct buf prevPos k).1.calls)
      (acts.python obj ct buf prevPos k).2

theorem Kept.until (hI : Kept acts ct I) : KeptUntil acts ct I I where
  buf := hI.buf
  bufEnd := hI.buf
  data := fun f chunk h _ => hI.data f chunk h
  dataEnd := fun f chunk h _ => hI.data f chunk h
  python := fun obj buf prevPos h _ => hI.python obj buf prevPos h
  pythonEnd := fun obj buf prevPos h _ => hI.python obj buf prevPos h

theorem Kept.processLoop (hI : Kept acts ct I) {fuel : ℕ} {sm sm' : Lvl4SM F} {k k' : κ}
    {prevPos : ℕ} {v : Bool} (h : I sm k)
    (hr : sm.processLoop acts ct fuel prevPos k = .ok (v, sm', k')) : I sm' k' := by
  obtain ⟨hgo, hend⟩ := hI.until.processLoop h hr
  cases v with
  | true => exact hgo rfl
  | false => exact hend rfl

theorem Kept.processLvl4Data (hI : Kept acts ct I) {fuel navail : ℕ} {r : ReadResult}
    {sm sm' : Lvl4SM F} {k k' : κ} {v : Bool} (h : I sm k)
    (hr : sm.processLvl4Data acts ct fuel navail r k = .ok (v, sm', k')) : I sm' k' := by
  obtain ⟨hgo, hend⟩ := hI.until.processLvl4Data h hr
  cases v with
  | true => exact hgo rfl
  | false => exact (hend rfl).elim (fun h => h) (fun h => h)

theorem processTrigger_fault {sm : Lvl4SM F} {k : κ} {prevPos : ℕ} {e : Fault}
    (hr : sm.processTrigger acts ct prevPos k = .error e) : e.inTrigger = true := by
  cases ht : sm.trigger with
  | base => simp [processTrigger, ht] at hr
  | size n f =>
    simp only [processTrigger, ht, processSize] at hr
    split_ifs at hr
    cases f with
    | none =>
      rw [← Except.error.inj hr]
      rfl
    | some f => simp at hr
  | char c f =>
    simp only [processTrigger, ht, processChar] at hr
    split at hr
    · simp at hr
    · cases f with
      | none =>
        rw [← Except.error.inj hr]
        rfl
      | some f => simp at hr
  | python obj =>
    simp only [processTrigger, ht, processPython] at hr
    split_ifs at hr
    rw [← Except.error.inj hr]
    rfl

theorem processLoop_fault {fuel : ℕ} {sm : Lvl4SM F} {k : κ} {prevPos : ℕ} {e : Fault}
    (hr : sm.processLoop acts ct fuel prevPos k = .error e) : e.inTrigger = true := by
  induction fuel generalizing sm k prevPos with
  | zero =>
    rw [← Except.error.inj hr]
    rfl
  | succ fuel ih =>
    rw [processLoop] at hr
    cases ht : sm.processTrigger acts ct prevPos k with
    | error e' =>
      rw [ht] at hr
      rw [← Except.error.inj hr]
      exact processTrigger_fault ht
    | ok r =>
      obtain ⟨c, sm₁, k₁⟩ := r
      rw [ht] at hr
      cases c with
      | canProcessAgain => exact ih hr
      | noMoreToProcess => simp at hr
      | connectionEnd => simp at hr

theorem processLvl4Data_fault {fuel navail : ℕ} {r : ReadResult} {sm : Lvl4SM F} {k : κ}
    {e : Fault} (hr : sm.processLvl4Data acts ct fuel navail r k = .error e) :
    e.inTrigger = true := by
  unfold processLvl4Data at hr
  split_ifs at hr
  exact processLoop_fault hr

end Invariants

end Lvl4SM
end Nodescan
