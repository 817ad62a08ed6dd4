import Nodescan.StreamScan
import Nodescan.Lvl4StateMachine

/-!
# Tokens do not depend on packet boundaries

The reference tokeniser is the scanner of the current trigger, drained once over the whole stream
with every search starting at the front. The code searches from `prevPos` in the first round after
a read, replaces its trigger in the middle of the loop and runs the buffer again in the dirty pass.
Between two reads the buffer holds no match for the current trigger; this is why the old bytes need
no second search, and it carries the induction over the arrivals.
-/

namespace Nodescan

variable {F κ : Type}

/-- The triggers of the tokeniser: no Python trigger, and sizes of at least one byte. -/
def DataTrigger.Tokenising : DataTrigger F → Prop
  | .base => True
  | .size n _ => 0 < n
  | .char _ _ => True
  | .python _ => False

def SmCall.Tokenising : SmCall F → Prop
  | .setTrigger t => t.Tokenising
  | _ => True

def Actions.Tokenising (acts : Actions F κ) : Prop :=
  ∀ f ct chunk k, ∀ c ∈ (acts.data f ct chunk k).1.calls, c.Tokenising

/-- The same actions, with the chunks handed to them recorded in order. -/
def Actions.traced (acts : Actions F κ) : Actions F (κ × List (List UInt8)) where
  data f ct chunk k :=
    ((acts.data f ct chunk k.1).1, ((acts.data f ct chunk k.1).2, k.2 ++ [chunk]))
  python f ct buf prevPos k :=
    ((acts.python f ct buf prevPos k.1).1, ((acts.python f ct buf prevPos k.1).2, k.2))

theorem drop_overwrite (buf chunk : List UInt8) {n m : ℕ} (h : n ≤ m) :
    (overwrite buf chunk n).drop m = buf.drop m := by
  have hl : (chunk.take n).length ≤ m := by
    rw [List.length_take]
    omega
  rw [overwrite, List.drop_append, List.drop_eq_nil_of_le hl, List.nil_append, List.drop_drop,
    List.length_take]
  congr 1
  omega

namespace Lvl4SM

/-- The part of a state machine that its actions can change. -/
def control (sm : Lvl4SM F) : Lvl4SM F := { sm with buf := [] }

theorem call_control (sm : Lvl4SM F) (c : SmCall F) : (sm.call c).control = sm.control.call c := by
  cases c <;> rfl

theorem callAll_control (sm : Lvl4SM F) (cs : List (SmCall F)) :
    (sm.callAll cs).control = sm.control.callAll cs := by
  induction cs generalizing sm with
  | nil => rfl
  | cons c cs ih => simpa only [callAll, List.foldl_cons, call_control] using ih (sm.call c)

theorem callAll_tokenising {sm : Lvl4SM F} {cs : List (SmCall F)} (hs : sm.trigger.Tokenising)
    (hc : ∀ c ∈ cs, c.Tokenising) : (sm.callAll cs).trigger.Tokenising := by
  induction cs generalizing sm with
  | nil => exact hs
  | cons c cs ih =>
    refine ih ?_ (fun d hd => hc d (by simp [hd]))
    have hcall := hc c (by simp)
    cases c with
    | setTrigger t => exact hcall
    | removeDataTrigger => trivial
    | setReconnect v => exact hs
    | setOnConnect f => exact hs

end Lvl4SM

variable (acts : Actions F κ) (ct : ConnectedTarget)

/-- The reference tokeniser. -/
def scanner : Scanner (Lvl4SM F × κ) UInt8 Fault where
  next p xs := match p.1.trigger with
    | .size n _ => if 0 < n ∧ n ≤ xs.length then some (n, 0) else none
    | .char c _ => (xs.idxOf? c).map (·, 1)
    | _ => none
  act p chunk := match p.1.trigger with
    | .size _ (some f) | .char _ (some f) =>
      let a := acts.data f ct chunk p.2
      .ok (a.1.ret, p.1.callAll a.1.calls, a.2)
    | .size _ none => .error .sizeAction
    | .char _ none => .error .badFunctionCall
    | _ => .ok (false, p)
  next_pos := by
    intro p xs n k h
    cases ht : p.1.trigger <;> simp_all <;> omega
  next_le := by
    intro p xs n k h
    cases ht : p.1.trigger with
    | char c f =>
      simp only [ht, Option.map_eq_some_iff, Prod.mk.injEq] at h
      obtain ⟨i, hi, rfl, rfl⟩ := h
      have hlt := (List.findIdx?_eq_some_iff_findIdx_eq.mp hi).1
      omega
    | _ => simp_all <;> omega
  next_append := by
    intro p xs n k ys h
    cases ht : p.1.trigger with
    | char c f =>
      simp only [ht, Option.map_eq_some_iff, Prod.mk.injEq] at h ⊢
      obtain ⟨i, hi, rfl, rfl⟩ := h
      refine ⟨i, ?_, rfl, rfl⟩
      rw [List.idxOf?, List.findIdx?_append, ← List.idxOf?, hi]
      rfl
    | _ => simp_all <;> omega

theorem findFrom_zero (buf : List UInt8) (c : UInt8) : findFrom buf 0 c = buf.idxOf? c := by
  simp [findFrom]

/-- Bytes that hold no `c` need no second search. -/
theorem findFrom_append {buf : List UInt8} {c : UInt8} (h : buf.idxOf? c = none)
    (xs : List UInt8) : findFrom (buf ++ xs) buf.length c = findFrom (buf ++ xs) 0 c := by
  have hi : (buf ++ xs).idxOf? c = (xs.idxOf? c).map (· + buf.length) := by
    unfold List.idxOf? at *
    rw [List.findIdx?_append, h, Option.none_or]
  rw [findFrom_zero, findFrom, List.drop_left, hi]
  congr 1
  funext i
  omega

namespace Lvl4SM

theorem processTrigger_none {sm : Lvl4SM F} {k : κ} (hs : sm.trigger.Tokenising)
    (h : (scanner acts ct).next (sm.control, k) sm.buf = none) :
    sm.processTrigger acts ct 0 k = .ok (.noMoreToProcess, sm, k) := by
  change (match sm.trigger with
    | .size n _ => if 0 < n ∧ n ≤ sm.buf.length then some (n, 0) else none
    | .char c _ => (sm.buf.idxOf? c).map (·, 1)
    | _ => none) = none at h
  cases ht : sm.trigger with
  | base => simp [processTrigger, ht]
  | python obj => simp [ht, DataTrigger.Tokenising] at hs
  | size n f =>
    have hn : 0 < n := by simpa [ht, DataTrigger.Tokenising] using hs
    have hl : sm.buf.length < n := by simpa [ht, hn] using h
    simp [processTrigger, processSize, ht, hl]
  | char c f =>
    have hi : sm.buf.idxOf? c = none := by simpa [ht] using h
    simp [processTrigger, processChar, findFrom_zero, ht, hi]

theorem fire_control (f : F) (n m : ℕ) (sm : Lvl4SM F) (k : κ) :
    ∃ sm' : Lvl4SM F, sm.fire acts ct f n (n + m) k =
        (if (acts.data f ct (sm.buf.take n) k).1.ret then .canProcessAgain else .connectionEnd,
          sm', (acts.data f ct (sm.buf.take n) k).2) ∧
      sm'.control = sm.control.callAll (acts.data f ct (sm.buf.take n) k).1.calls ∧
      ((acts.data f ct (sm.buf.take n) k).1.ret = true → sm'.buf = sm.buf.drop (n + m)) := by
  have hd := drop_overwrite sm.buf (acts.data f ct (sm.buf.take n) k).1.chunk
    (Nat.le_add_right n m)
  refine ⟨(sm.fire acts ct f n (n + m) k).2.1, ?_, ?_, ?_⟩
  · simp only [fire]
    cases (acts.data f ct (sm.buf.take n) k).1.ret <;> rfl
  · simp only [fire, ← callAll_control]
    cases (acts.data f ct (sm.buf.take n) k).1.ret <;> rfl
  · intro hr
    simpa only [fire, hr, if_true] using hd

/-- A round from position 0 fires the trigger exactly where the scanner takes a token. -/
theorem processTrigger_some {sm : Lvl4SM F} {k : κ} {n m : ℕ}
    (h : (scanner acts ct).next (sm.control, k) sm.buf = some (n, m)) :
    match (scanner acts ct).act (sm.control, k) (sm.buf.take n) with
    | .error e => sm.processTrigger acts ct 0 k = .error e
    | .ok (v, c, k') => ∃ sm', sm.processTrigger acts ct 0 k =
        .ok (if v then .canProcessAgain else .connectionEnd, sm', k') ∧
          sm'.control = c ∧ (v = true → sm'.buf = sm.buf.drop (n + m)) := by
  change (match sm.trigger with
    | .size n _ => if 0 < n ∧ n ≤ sm.buf.length then some (n, 0) else none
    | .char c _ => (sm.buf.idxOf? c).map (·, 1)
    | _ => none) = some (n, m) at h
  have htr : sm.control.trigger = sm.trigger := rfl
  cases ht : sm.trigger with
  | base => simp [ht] at h
  | python obj => simp [ht] at h
  | size size f =>
    simp only [ht, Option.ite_none_right_eq_some, Option.some.injEq, Prod.mk.injEq] at h
    obtain ⟨⟨_, hl⟩, rfl, rfl⟩ := h
    have hl' : ¬ sm.buf.length < size := by omega
    cases f with
    | none => simp [processTrigger, processSize, scanner, htr, ht, hl']
    | some f =>
      obtain ⟨sm', hf, hc, hb⟩ := fire_control acts ct f size 0 sm k
      simp only [processTrigger, processSize, scanner, htr, ht, hl', if_false]
      exact ⟨sm', congrArg Except.ok hf, hc, hb⟩
  | char c f =>
    simp only [ht, Option.map_eq_some_iff, Prod.mk.injEq] at h
    obtain ⟨i, hi, rfl, rfl⟩ := h
    cases f with
    | none => simp [processTrigger, processChar, findFrom_zero, scanner, htr, ht, hi]
    | some f =>
      obtain ⟨sm', hf, hc, hb⟩ := fire_control acts ct f i 1 sm k
      simp only [processTrigger, processChar, findFrom_zero, scanner, htr, ht, hi]
      exact ⟨sm', congrArg Except.ok hf, hc, hb⟩

/-- A loop of the code and a scan that end alike: with the same fault, or with the same verdict
in the same state, and with the same bytes left while the connection goes on. -/
def Agrees : Except Fault (Bool × Lvl4SM F × κ) →
    Except Fault (Bool × (Lvl4SM F × κ) × List UInt8) → Prop
  | .error e, .error e' => e = e'
  | .ok (true, sm, k), .ok (true, c, rest) => (sm.control, k) = c ∧ sm.buf = rest
  | .ok (false, sm, k), .ok (false, c, _) => (sm.control, k) = c
  | _, _ => False

theorem act_cases {p q : Lvl4SM F × κ} {chunk : List UInt8} {v : Bool}
    (h : (scanner acts ct).act p chunk = .ok (v, q)) :
    q = p ∨ ∃ f, q = (p.1.callAll (acts.data f ct chunk p.2).1.calls,
      (acts.data f ct chunk p.2).2) := by
  unfold scanner at h
  cases ht : p.1.trigger with
  | base => simp_all
  | python obj => simp_all
  | size n f =>
    cases f with
    | none => simp [ht] at h
    | some f =>
      simp only [ht, Except.ok.injEq, Prod.mk.injEq] at h
      exact Or.inr ⟨f, h.2.symm⟩
  | char c f =>
    cases f with
    | none => simp [ht] at h
    | some f =>
      simp only [ht, Except.ok.injEq, Prod.mk.injEq] at h
      exact Or.inr ⟨f, h.2.symm⟩

theorem act_tokenising (hacts : acts.Tokenising) {p q : Lvl4SM F × κ} {chunk : List UInt8}
    {v : Bool} (hp : p.1.trigger.Tokenising) (h : (scanner acts ct).act p chunk = .ok (v, q)) :
    q.1.trigger.Tokenising := by
  rcases act_cases acts ct h with rfl | ⟨f, rfl⟩
  · exact hp
  · exact callAll_tokenising hp (hacts f ct chunk p.2)

/-- Every trigger that the scan of `xs` meets is one of the tokeniser. -/
abbrev TokenisingAlong (p : Lvl4SM F × κ) (xs : List UInt8) : Prop :=
  (scanner acts ct).Along (fun p => p.1.trigger.Tokenising) p xs

theorem tokenisingAlong (hacts : acts.Tokenising) {p : Lvl4SM F × κ} (xs : List UInt8)
    (hp : p.1.trigger.Tokenising) : TokenisingAlong acts ct p xs :=
  .of_kept (act_tokenising acts ct hacts) hp

/-- Enough fuel makes the loop from position 0 the scan of the buffer. -/
theorem processLoop_agrees_drain (fuel : ℕ) (sm : Lvl4SM F) (k : κ)
    (hs : TokenisingAlong acts ct (sm.control, k) sm.buf) (hfuel : sm.buf.length < fuel) :
    Agrees (sm.processLoop acts ct fuel 0 k)
      ((scanner acts ct).drain (sm.control, k) sm.buf).2 := by
  induction fuel generalizing sm k with
  | zero => omega
  | succ fuel ih =>
    have htr : sm.trigger.Tokenising := hs.start
    cases hn : (scanner acts ct).next (sm.control, k) sm.buf with
    | none =>
      rw [processLoop, processTrigger_none acts ct htr hn, Scanner.drain_none _ hn]
      exact ⟨rfl, rfl⟩
    | some r =>
      obtain ⟨n, m⟩ := r
      have hp := processTrigger_some acts ct hn
      cases ha : (scanner acts ct).act (sm.control, k) (sm.buf.take n) with
      | error e =>
        simp only [ha] at hp
        rw [processLoop, hp, Scanner.drain_error _ hn ha]
        rfl
      | ok r =>
        obtain ⟨v, c, k'⟩ := r
        simp only [ha] at hp
        obtain ⟨sm', hsm, rfl, hb⟩ := hp
        cases v with
        | false =>
          rw [processLoop, hsm, Scanner.drain_stop _ hn ha]
          rfl
        | true =>
          have hpos := Scanner.next_pos _ hn
          have hle := Scanner.next_le _ hn
          have hlen : sm'.buf.length < fuel := by
            rw [hb rfl, List.length_drop]
            omega
          have hs' := hs.more hn ha
          rw [← hb rfl] at hs'
          have hi := ih sm' k' hs' hlen
          rw [processLoop, hsm, Scanner.drain_more _ hn ha, ← hb rfl]
          exact hi

end Lvl4SM

/-- What happens to a connection: bytes arrive and are read whole, or a dirty pass runs over it. -/
inductive Arrival
  | data (chunk : List UInt8)
  | pass
  deriving DecidableEq

def Arrival.bytes : Arrival → List UInt8
  | .data chunk => chunk
  | .pass => []

def received (as : List Arrival) : List UInt8 := (as.map Arrival.bytes).flatten

def Arrival.process (fuel : ℕ) (a : Arrival) (sm : Lvl4SM F) (k : κ) :
    Except Fault (Bool × Lvl4SM F × κ) :=
  match a with
  | .data chunk => sm.processLvl4Data acts ct fuel chunk.length ⟨chunk.length, chunk⟩ k
  | .pass => sm.processBuffer acts ct fuel k

/-- The connection over a list of arrivals, up to the first that ends it. -/
def feed (fuel : ℕ) : List Arrival → Lvl4SM F → κ → Except Fault (Bool × Lvl4SM F × κ)
  | [], sm, k => .ok (true, sm, k)
  | a :: as, sm, k =>
    match a.process acts ct fuel sm k with
    | .ok (true, sm', k') => feed fuel as sm' k'
    | r => r

theorem readWhole_bytes (chunk : List UInt8) :
    (⟨chunk.length, chunk⟩ : ReadResult).bytes chunk.length = chunk := by
  simp [ReadResult.bytes]

/-- The first round after a read, started at the old end of a quiescent buffer, is the round
started at the front. -/
theorem processLoop_quiescent {sm : Lvl4SM F} {k : κ} (hs : sm.trigger.Tokenising)
    (hq : (scanner acts ct).next (sm.control, k) sm.buf = none) (fuel : ℕ) (xs : List UInt8) :
    (sm.growBy xs).processLoop acts ct fuel sm.buf.length k =
      (sm.growBy xs).processLoop acts ct fuel 0 k := by
  cases fuel with
  | zero => rfl
  | succ fuel =>
    have hround : (sm.growBy xs).processTrigger acts ct sm.buf.length k =
        (sm.growBy xs).processTrigger acts ct 0 k := by
      have hg : (sm.growBy xs).trigger = sm.trigger := rfl
      cases ht : sm.trigger with
      | base => simp only [Lvl4SM.processTrigger, hg, ht]
      | size n f => simp only [Lvl4SM.processTrigger, hg, ht]
      | python obj => simp [ht, DataTrigger.Tokenising] at hs
      | char c f =>
        have htc : sm.control.trigger = .char c f := ht
        have hi : sm.buf.idxOf? c = none := by simpa [scanner, htc] using hq
        simp only [Lvl4SM.processTrigger, ht, Lvl4SM.processChar, Lvl4SM.growBy,
          findFrom_append hi]
    simp only [Lvl4SM.processLoop, hround]

theorem received_cons (a : Arrival) (as : List Arrival) :
    received (a :: as) = a.bytes ++ received as := by
  simp [received]

/-- An arrival at a quiescent connection runs the scan over the old bytes and the new ones. -/
theorem process_agrees_drain {sm : Lvl4SM F} {k : κ} {a : Arrival} {fuel : ℕ}
    (hs : Lvl4SM.TokenisingAlong acts ct (sm.control, k) (sm.buf ++ a.bytes))
    (hq : (scanner acts ct).next (sm.control, k) sm.buf = none) (ha : a ≠ .data [])
    (hfuel : sm.buf.length + a.bytes.length < fuel) :
    Lvl4SM.Agrees (a.process acts ct fuel sm k)
      ((scanner acts ct).drain (sm.control, k) (sm.buf ++ a.bytes)).2 := by
  cases a with
  | pass =>
    rw [Arrival.bytes, List.append_nil] at hs ⊢
    exact sm.processLoop_agrees_drain acts ct fuel k hs (by omega)
  | data chunk =>
    have hread : ¬ ((chunk.length : ℤ) ≤ 0) := by
      have hne : chunk ≠ [] := fun h => ha (by rw [h])
      have hpos := List.length_pos_iff.mpr hne
      omega
    have htr : sm.trigger.Tokenising := hs.start
    have hproc : (Arrival.data chunk).process acts ct fuel sm k =
        (sm.growBy chunk).processLoop acts ct fuel 0 k := by
      rw [← processLoop_quiescent acts ct htr hq fuel chunk, Arrival.process,
        Lvl4SM.processLvl4Data, if_neg hread, readWhole_bytes]
    rw [hproc]
    apply (sm.growBy chunk).processLoop_agrees_drain acts ct fuel k hs
    rw [Lvl4SM.growBy, List.length_append]
    exact hfuel

theorem drain_length_le {p q : Lvl4SM F × κ} {xs rest : List UInt8}
    (h : ((scanner acts ct).drain p xs).2 = .ok (true, q, rest)) : rest.length ≤ xs.length := by
  rw [← Scanner.drain_conserves _ h, List.length_append]
  omega

/-- The whole run: what has been scanned of the bytes so far goes on with the rest of them. -/
theorem feed_agrees_drain (fuel : ℕ) (as : List Arrival) (sm : Lvl4SM F) (k : κ)
    (hs : Lvl4SM.TokenisingAlong acts ct (sm.control, k) (sm.buf ++ received as))
    (hq : (scanner acts ct).next (sm.control, k) sm.buf = none)
    (has : ∀ a ∈ as, a ≠ .data []) (hfuel : sm.buf.length + (received as).length < fuel) :
    Lvl4SM.Agrees (feed acts ct fuel as sm k)
      ((scanner acts ct).drain (sm.control, k) (sm.buf ++ received as)).2 := by
  induction as generalizing sm k with
  | nil =>
    have hr : sm.buf ++ received [] = sm.buf := List.append_nil sm.buf
    rw [hr, feed, Scanner.drain_none _ hq]
    exact ⟨rfl, rfl⟩
  | cons a as ih =>
    rw [received_cons, List.length_append] at hfuel
    rw [received_cons, ← List.append_assoc] at hs
    have hstep := process_agrees_drain acts ct hs.left hq (has a (by simp))
      (show sm.buf.length + a.bytes.length < fuel by omega)
    rw [received_cons, ← List.append_assoc, Scanner.drain_append, feed]
    cases hp : a.process acts ct fuel sm k with
    | error e =>
      rw [hp] at hstep
      cases hd : ((scanner acts ct).drain (sm.control, k) (sm.buf ++ a.bytes)).2 with
      | error e' =>
        rw [hd] at hstep
        exact hstep
      | ok r =>
        rw [hd] at hstep
        exact hstep.elim
    | ok r =>
      obtain ⟨v, sm', k'⟩ := r
      rw [hp] at hstep
      cases hd : ((scanner acts ct).drain (sm.control, k) (sm.buf ++ a.bytes)).2 with
      | error e =>
        rw [hd] at hstep
        cases v <;> exact hstep.elim
      | ok r =>
        obtain ⟨v', q, rest⟩ := r
        rw [hd] at hstep
        cases v with
        | false =>
          cases v' with
          | true => exact hstep.elim
          | false => exact hstep
        | true =>
          cases v' with
          | false => exact hstep.elim
          | true =>
            -- the connection goes on: what is left is quiescent again
            obtain ⟨rfl, rfl⟩ := hstep
            have hlen := drain_length_le acts ct hd
            rw [List.length_append] at hlen
            exact ih sm' k' (hs.right hd) (Scanner.drain_quiescent _ hd)
              (fun b hb => has b (by simp [hb])) (by omega)

theorem next_nil (p : Lvl4SM F × κ) : (scanner acts ct).next p [] = none := by
  cases ht : p.1.trigger with
  | size n f =>
    simp [scanner, ht]
    omega
  | _ => simp [scanner, ht]

section Runs

variable {acts ct} {sm : Lvl4SM F} {k : κ} {as : List Arrival} {fuel : ℕ} {q : Lvl4SM F × κ}
  {rest : List UInt8}

/-- A stream on which the scan comes to a token that the action refuses ends the connection. -/
theorem feed_ends {c : Lvl4SM F × κ} {n m : ℕ} (hb : sm.buf = []) (has : ∀ a ∈ as, a ≠ .data [])
    (hfuel : (received as).length < fuel)
    (hl : (scanner acts ct).Leads (fun p => p.1.trigger.Tokenising) (sm.control, k) (received as)
      q rest)
    (hq : q.1.trigger.Tokenising) (hn : (scanner acts ct).next q rest = some (n, m))
    (ha : (scanner acts ct).act q (rest.take n) = .ok (false, c)) :
    ∃ sm' k', feed acts ct fuel as sm k = .ok (false, sm', k') ∧ (sm'.control, k') = c := by
  have hlast : Lvl4SM.TokenisingAlong acts ct q rest := .of_refused hq hn ha (by simp)
  have hrun := feed_agrees_drain acts ct fuel as sm k (by rw [hb]; exact hl.along hlast)
    (by rw [hb]; exact next_nil acts ct _) has (by simpa [hb] using hfuel)
  rw [hb, List.nil_append, hl.drain, Scanner.drain_stop _ hn ha] at hrun
  rcases hf : feed acts ct fuel as sm k with e | ⟨v, sm', k'⟩
  · rw [hf] at hrun
    exact hrun.elim
  · rw [hf] at hrun
    cases v with
    | true => exact hrun.elim
    | false => exact ⟨sm', k', rfl, hrun⟩

/-- The trigger of `sm` is one for which `chunk` is a whole token at the front of the stream `xs`,
with `ys` behind it; its action is `f`. -/
inductive Finds (sm : Lvl4SM F) : F → List UInt8 → List UInt8 → List UInt8 → Prop
  | size {f : F} {chunk ys : List UInt8} : sm.trigger = .size chunk.length (some f) → chunk ≠ [] →
      Finds sm f chunk (chunk ++ ys) ys
  | char {f : F} {c : UInt8} {chunk ys : List UInt8} : sm.trigger = .char c (some f) → c ∉ chunk →
      Finds sm f chunk (chunk ++ c :: ys) ys

namespace Finds

variable {f : F} {chunk xs ys : List UInt8}

theorem tokenising (h : Finds sm f chunk xs ys) : sm.trigger.Tokenising := by
  cases h with
  | size ht hne =>
    rw [ht]
    exact List.length_pos_iff.mpr hne
  | char ht _ =>
    rw [ht]
    trivial

theorem next (h : Finds sm f chunk xs ys) (k : κ) :
    ∃ m, (scanner acts ct).next (sm, k) xs = some (chunk.length, m) ∧
      xs.take chunk.length = chunk ∧ xs.drop (chunk.length + m) = ys := by
  cases h with
  | size ht hne =>
    have hpos := List.length_pos_iff.mpr hne
    refine ⟨0, ?_, by simp, by simp⟩
    simp only [scanner, ht, List.length_append]
    exact if_pos ⟨hpos, by omega⟩
  | char ht hc =>
    refine ⟨1, ?_, by simp, by simp⟩
    simp only [scanner, ht, idxOf?_append_cons hc, Option.map_some]

theorem act (h : Finds sm f chunk xs ys) (k : κ) (bytes : List UInt8) :
    (scanner acts ct).act (sm, k) bytes = .ok ((acts.data f ct bytes k).1.ret,
      sm.callAll (acts.data f ct bytes k).1.calls, (acts.data f ct bytes k).2) := by
  cases h with
  | size ht _ => simp [scanner, ht]
  | char ht _ => simp [scanner, ht]

/-- An action that answers true hands the rest of the stream to the trigger it leaves. -/
theorem leads {left : List UInt8} {calls : List (SmCall F)} {k' : κ} (h : Finds sm f chunk xs ys)
    (hd : acts.data f ct chunk k = (⟨true, left, calls⟩, k')) :
    (scanner acts ct).Leads (fun p => p.1.trigger.Tokenising) (sm, k) xs (sm.callAll calls, k')
      ys := by
  obtain ⟨m, hn, htake, hdrop⟩ : ∃ m, (scanner acts ct).next (sm, k) xs = some (chunk.length, m) ∧
      xs.take chunk.length = chunk ∧ xs.drop (chunk.length + m) = ys := h.next k
  have ha : (scanner acts ct).act (sm, k) (xs.take chunk.length) =
      .ok (true, sm.callAll calls, k') := by
    rw [htake, h.act k chunk, hd]
  have htail := Scanner.Leads.refl (m := scanner acts ct) (P := fun p => p.1.trigger.Tokenising)
    (sm.callAll calls, k') ys
  rw [← hdrop] at htail ⊢
  exact .step h.tokenising hn ha htail

theorem drain_stops {left : List UInt8} {calls : List (SmCall F)} {k' : κ}
    (h : Finds sm f chunk xs ys) (hd : acts.data f ct chunk k = (⟨false, left, calls⟩, k')) :
    ((scanner acts ct).drain (sm, k) xs).2 = .ok (false, (sm.callAll calls, k'), xs) := by
  obtain ⟨m, hn, htake, -⟩ : ∃ m, (scanner acts ct).next (sm, k) xs = some (chunk.length, m) ∧
      xs.take chunk.length = chunk ∧ xs.drop (chunk.length + m) = ys := h.next k
  have ha : (scanner acts ct).act (sm, k) (xs.take chunk.length) =
      .ok (false, sm.callAll calls, k') := by
    rw [htake, h.act k chunk, hd]
  rw [Scanner.drain_stop _ hn ha]

/-- An action that answers false ends the connection. -/
theorem ends {sm₀ : Lvl4SM F} {k₀ k' : κ} {left : List UInt8} {calls : List (SmCall F)}
    (h : Finds sm f chunk xs ys) (hd : acts.data f ct chunk k = (⟨false, left, calls⟩, k'))
    (hb : sm₀.buf = []) (has : ∀ a ∈ as, a ≠ .data []) (hfuel : (received as).length < fuel)
    (hl : (scanner acts ct).Leads (fun p => p.1.trigger.Tokenising) (sm₀.control, k₀) (received as)
      (sm, k) xs) :
    ∃ sm', feed acts ct fuel as sm₀ k₀ = .ok (false, sm', k') := by
  obtain ⟨m, hn, htake, -⟩ : ∃ m, (scanner acts ct).next (sm, k) xs = some (chunk.length, m) ∧
      xs.take chunk.length = chunk ∧ xs.drop (chunk.length + m) = ys := h.next k
  have ha : (scanner acts ct).act (sm, k) (xs.take chunk.length) =
      .ok (false, sm.callAll calls, k') := by
    rw [htake, h.act k chunk, hd]
  obtain ⟨sm', k₁, hfeed, hc⟩ := feed_ends hb has hfuel hl h.tokenising hn ha
  obtain ⟨-, rfl⟩ := Prod.mk.inj hc
  exact ⟨sm', hfeed⟩

end Finds

/-- The bytes lead to a token at which the action answers false, and leaves the last state. -/
inductive EndsOn (acts : Actions F κ) (ct : ConnectedTarget) (sm : Lvl4SM F) (k : κ)
    (xs : List UInt8) : κ → Prop
  | token {sm₁ : Lvl4SM F} {k₁ k' : κ} {f : F} {chunk ys zs left : List UInt8}
      {calls : List (SmCall F)} :
      (scanner acts ct).Leads (fun p => p.1.trigger.Tokenising) (sm, k) xs (sm₁, k₁) ys →
      Finds sm₁ f chunk ys zs → acts.data f ct chunk k₁ = (⟨false, left, calls⟩, k') →
      EndsOn acts ct sm k xs k'

theorem EndsOn.drain {sm : Lvl4SM F} {k k' : κ} {xs : List UInt8} (h : EndsOn acts ct sm k xs k') :
    ∃ sm' rest, ((scanner acts ct).drain (sm, k) xs).2 = .ok (false, (sm', k'), rest) := by
  cases h with
  | token hl hf hd => exact ⟨_, _, by rw [hl.drain, hf.drain_stops hd]⟩

theorem EndsOn.along {sm : Lvl4SM F} {k k' : κ} {xs : List UInt8} (h : EndsOn acts ct sm k xs k') :
    Lvl4SM.TokenisingAlong acts ct (sm, k) xs := by
  cases h with
  | @token sm₁ k₁ _ f chunk ys zs left calls hl hf hd =>
    obtain ⟨m, hn, htake, -⟩ : ∃ m, (scanner acts ct).next (sm₁, k₁) ys = some (chunk.length, m) ∧
        ys.take chunk.length = chunk ∧ ys.drop (chunk.length + m) = zs := hf.next k₁
    refine hl.along (.of_refused hf.tokenising hn (hf.act k₁ _) ?_)
    simp [htake, hd]

theorem EndsOn.feed {sm : Lvl4SM F} {k k' : κ}
    (h : EndsOn acts ct sm.control k (received as) k') (hb : sm.buf = [])
    (has : ∀ a ∈ as, a ≠ .data []) (hfuel : (received as).length < fuel) :
    ∃ sm', feed acts ct fuel as sm k = .ok (false, sm', k') := by
  cases h with
  | token hl hf hd => exact hf.ends hd hb has hfuel hl

end Runs

theorem act_traced {p : Lvl4SM F × κ} {l : List (List UInt8)} {xs : List UInt8} {n m : ℕ}
    (hn : (scanner acts ct).next p xs = some (n, m)) (chunk : List UInt8) :
    (scanner acts.traced ct).act (p.1, p.2, l) chunk =
      ((scanner acts ct).act p chunk).map (fun r => (r.1, r.2.1, r.2.2, l ++ [chunk])) := by
  unfold scanner at hn ⊢
  cases ht : p.1.trigger with
  | base => simp [ht] at hn
  | python obj => simp [ht] at hn
  | size size f => cases f <;> simp [ht, Actions.traced, Except.map]
  | char c f => cases f <;> simp [ht, Actions.traced, Except.map]

/-- Recording the chunks does not change the scan, and what is recorded are its tokens. -/
theorem drain_traced (p : Lvl4SM F × κ) (l : List (List UInt8)) (xs : List UInt8) :
    ((scanner acts.traced ct).drain (p.1, p.2, l) xs).2 =
      ((scanner acts ct).drain p xs).2.map (fun r => (r.1,
        (r.2.1.1, r.2.1.2, l ++ ((scanner acts ct).drain p xs).1.map Prod.fst), r.2.2)) := by
  induction p, xs using Scanner.drain.induct (scanner acts ct) generalizing l with
  | case1 p xs hn =>
    have hn' : (scanner acts.traced ct).next (p.1, p.2, l) xs = none := hn
    rw [Scanner.drain_none _ hn, Scanner.drain_none _ hn']
    simp [Except.map]
  | case2 p xs n m hn e he =>
    have hn' : (scanner acts.traced ct).next (p.1, p.2, l) xs = some (n, m) := hn
    have ha := act_traced acts ct (l := l) hn (xs.take n)
    rw [he] at ha
    rw [Scanner.drain_error _ hn he, Scanner.drain_error _ hn' ha]
    rfl
  | case3 p xs n m hn c hc =>
    have hn' : (scanner acts.traced ct).next (p.1, p.2, l) xs = some (n, m) := hn
    have ha := act_traced acts ct (l := l) hn (xs.take n)
    rw [hc] at ha
    rw [Scanner.drain_stop _ hn hc, Scanner.drain_stop _ hn' ha]
    rfl
  | case4 p xs n m hn c hc ih =>
    have hn' : (scanner acts.traced ct).next (p.1, p.2, l) xs = some (n, m) := hn
    have ha := act_traced acts ct (l := l) hn (xs.take n)
    rw [hc] at ha
    rw [Scanner.drain_more _ hn hc, Scanner.drain_more _ hn' ha]
    simp only [ih (l ++ [xs.take n]), List.map_cons, List.append_assoc, List.cons_append,
      List.nil_append]

theorem traced_tokenising (hacts : acts.Tokenising) : acts.traced.Tokenising :=
  fun f ct chunk k c hc => hacts f ct chunk k.1 c hc

/-- What a run delivered against the reference tokeniser over the same stream: the same fault, or
the same verdict, state and chunks; a connection that goes on has lost no byte. -/
def DeliversTokens : Except Fault (Bool × Lvl4SM F × κ × List (List UInt8)) →
    Scanner.Result (Lvl4SM F × κ) UInt8 Fault → List UInt8 → Prop
  | .error e, (_, .error e'), _ => e = e'
  | .ok (v, sm, k, delivered), (tokens, .ok (v', q, _)), stream =>
      v = v' ∧ (sm.control, k) = q ∧ delivered = tokens.map Prod.fst ∧
        (v = true → (tokens.map (fun t => t.1 ++ t.2)).flatten ++ sm.buf = stream)
  | _, _, _ => False

/-- However the stream is cut into reads, and wherever dirty passes fall between them. -/
theorem feed_tokens (hacts : acts.Tokenising) (sm : Lvl4SM F) (hs : sm.trigger.Tokenising)
    (hb : sm.buf = []) (k : κ) (as : List Arrival) (has : ∀ a ∈ as, a ≠ .data []) (fuel : ℕ)
    (hfuel : (received as).length < fuel) :
    DeliversTokens (feed acts.traced ct fuel as sm (k, []))
      ((scanner acts ct).drain (sm.control, k) (received as)) (received as) := by
  have hq : (scanner acts.traced ct).next (sm.control, k, []) sm.buf = none := by
    rw [hb]
    exact next_nil _ ct _
  have hpath : Lvl4SM.TokenisingAlong acts.traced ct (sm.control, k, []) (sm.buf ++ received as) :=
    Lvl4SM.tokenisingAlong _ ct (traced_tokenising acts hacts) _ hs
  have hrun := feed_agrees_drain acts.traced ct fuel as sm (k, []) hpath hq has
    (by simpa [hb] using hfuel)
  rw [hb, List.nil_append, drain_traced acts ct (sm.control, k) []] at hrun
  have hcons : ∀ q rest, ((scanner acts ct).drain (sm.control, k) (received as)).2 =
      .ok (true, q, rest) → _ := fun q rest h => Scanner.drain_conserves (scanner acts ct) h
  generalize (scanner acts ct).drain (sm.control, k) (received as) = ref at hrun hcons
  generalize feed acts.traced ct fuel as sm (k, []) = run at hrun
  obtain ⟨tokens, e' | ⟨v', q, rest⟩⟩ := ref
  · cases run with
    | error e => exact hrun
    | ok r => cases hr : r.1 <;> simp_all [Lvl4SM.Agrees, Except.map]
  · cases run with
    | error e => exact hrun.elim
    | ok r =>
      obtain ⟨v, sm', k', delivered⟩ := r
      cases v with
      | false =>
        cases v' with
        | true => exact hrun.elim
        | false =>
          simp only [Except.map, Lvl4SM.Agrees, Prod.mk.injEq, List.nil_append] at hrun
          obtain ⟨hc, hk, hd⟩ := hrun
          exact ⟨rfl, by rw [hc, hk], hd, by simp⟩
      | true =>
        cases v' with
        | false => exact hrun.elim
        | true =>
          simp only [Except.map, Lvl4SM.Agrees, Prod.mk.injEq, List.nil_append] at hrun
          obtain ⟨⟨hc, hk, hd⟩, hrest⟩ := hrun
          refine ⟨rfl, by rw [hc, hk], hd, fun _ => ?_⟩
          rw [hrest]
          exact hcons q rest rfl

/-- Lines, each of which asks for a token of its first byte's length before the next line. -/
def lineActions : Actions Bool Unit where
  data f _ chunk k :=
    if f then (⟨true, chunk, [.setTrigger (.size (chunk.headD 0).toNat.succ (some false))]⟩, k)
    else (⟨true, chunk, [.setTrigger (.char 10 (some true))]⟩, k)
  python _ _ _ _ k := (⟨.noMoreToProcess, 0, []⟩, k)

theorem lineActions_tokenising : lineActions.Tokenising := by
  intro f ct chunk k c hc
  cases f <;> simp_all [lineActions, SmCall.Tokenising, DataTrigger.Tokenising]

theorem feed_tokens_lines :
    DeliversTokens
      (feed lineActions.traced ⟨⟨1, ⟨80, .tcp⟩⟩, 5⟩ 9
        [.data [2], .pass, .data [10, 7], .data [7, 7, 1, 10, 8]]
        { Lvl4SM.new 0 with trigger := .char 10 (some true) } ((), []))
      ((scanner lineActions ⟨⟨1, ⟨80, .tcp⟩⟩, 5⟩).drain
        ({ Lvl4SM.new 0 with trigger := .char 10 (some true) }, ()) [2, 10, 7, 7, 7, 1, 10, 8])
      [2, 10, 7, 7, 7, 1, 10, 8] :=
  feed_tokens lineActions ⟨⟨1, ⟨80, .tcp⟩⟩, 5⟩ lineActions_tokenising
    { Lvl4SM.new 0 with trigger := .char 10 (some true) } trivial rfl ()
    [.data [2], .pass, .data [10, 7], .data [7, 7, 1, 10, 8]] (by decide) 9 (by decide)

end Nodescan
