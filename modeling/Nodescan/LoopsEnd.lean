import Nodescan.SSL
import Nodescan.SSH
import Nodescan.SIP

/-!
# The processing loops come to an end

A round that asks for another one has called its handler and popped what the trigger covers, so
the buffer gets shorter unless the trigger covers nothing. A char trigger covers its character; the
sizes that the SSH module derives from a packet are at least one. A TLS header can announce a
record of no bytes, and the handler of that record answers what the failure callback answers to an
empty region without changing the trigger.
-/

namespace Nodescan

variable {F κ : Type}

section Loop

variable {acts : Actions F κ} {ct : ConnectedTarget} {I : Lvl4SM F → κ → Prop}

theorem processTrigger_ne_outOfFuel {sm : Lvl4SM F} {k : κ} {prevPos : ℕ} :
    sm.processTrigger acts ct prevPos k ≠ .error .outOfFuel := by
  intro hr
  cases ht : sm.trigger with
  | base => simp [Lvl4SM.processTrigger, ht] at hr
  | size n f =>
    simp only [Lvl4SM.processTrigger, ht, Lvl4SM.processSize] at hr
    split_ifs at hr
    cases f <;> simp at hr
  | char c f =>
    simp only [Lvl4SM.processTrigger, ht, Lvl4SM.processChar] at hr
    split at hr
    · simp at hr
    · cases f <;> simp at hr
  | python obj =>
    simp only [Lvl4SM.processTrigger, ht, Lvl4SM.processPython] at hr
    split_ifs at hr
    simp at hr

/-- The buffer is a measure: a fuel above its length is never used up. -/
theorem processLoop_ends
    (hI : ∀ {sm sm' k k'} prevPos, I sm k →
      sm.processTrigger acts ct prevPos k = .ok (.canProcessAgain, sm', k') →
      I sm' k' ∧ sm'.buf.length < sm.buf.length)
    {fuel : ℕ} {sm : Lvl4SM F} {k : κ} {prevPos : ℕ} (h : I sm k) (hf : sm.buf.length < fuel) :
    sm.processLoop acts ct fuel prevPos k ≠ .error .outOfFuel := by
  induction fuel generalizing sm k prevPos with
  | zero => omega
  | succ fuel ih =>
    rw [Lvl4SM.processLoop]
    cases ht : sm.processTrigger acts ct prevPos k with
    | error e =>
      intro he
      rw [Except.error.inj he] at ht
      exact processTrigger_ne_outOfFuel ht
    | ok r =>
      obtain ⟨c, sm', k'⟩ := r
      cases c with
      | noMoreToProcess => simp
      | connectionEnd => simp
      | canProcessAgain =>
        obtain ⟨h', hlt⟩ := hI prevPos h ht
        exact ih h' (by omega)

/-- A round that always asks for another one uses up every fuel. -/
theorem processLoop_diverges
    (hI : ∀ {sm k} prevPos, I sm k → ∃ sm' k',
      sm.processTrigger acts ct prevPos k = .ok (.canProcessAgain, sm', k') ∧ I sm' k')
    (fuel : ℕ) {sm : Lvl4SM F} {k : κ} {prevPos : ℕ} (h : I sm k) :
    sm.processLoop acts ct fuel prevPos k = .error .outOfFuel := by
  induction fuel generalizing sm k prevPos with
  | zero => rfl
  | succ fuel ih =>
    obtain ⟨sm', k', hr, h'⟩ := hI prevPos h
    rw [Lvl4SM.processLoop, hr]
    exact ih h'

/-- The loops of `process_lvl4_data`, whatever was read, and of `process_buffer` end. -/
def LoopsEnd (acts : Actions F κ) (ct : ConnectedTarget) (sm : Lvl4SM F) (k : κ) : Prop :=
  (∀ navail r, ∃ fuel, sm.processLvl4Data acts ct fuel navail r k ≠ .error .outOfFuel) ∧
    ∃ fuel, sm.processBuffer acts ct fuel k ≠ .error .outOfFuel

/-- A set of triggers with which the module runs on `ct`, those that cover nothing having handlers
that end the connection. -/
structure ProtocolModule.Shortens (m : ProtocolModule F κ) (ct : ConnectedTarget)
    (T : DataTrigger F → Prop) : Prop where
  sets : m.actions.Sets T
  connect : ∀ sm : Lvl4SM F, T (sm.callAll m.connect).trigger
  python : ∀ obj, ¬ T (.python obj)
  size : ∀ f k, T (.size 0 (some f)) → (m.handle f ct [] k).ret = false

theorem ProtocolModule.Shortens.processTrigger {m : ProtocolModule F κ}
    {T : DataTrigger F → Prop} (h : m.Shortens ct T) {sm sm' : Lvl4SM F} {k k' : κ} {prevPos : ℕ}
    {c : ProcessReturnCode} (ht : T sm.trigger)
    (hr : sm.processTrigger m.actions ct prevPos k = .ok (c, sm', k')) :
    T sm'.trigger ∧ (c = .canProcessAgain → sm'.buf.length < sm.buf.length) := by
  rcases Lvl4SM.processTrigger_cases hr with ⟨rfl, rfl, rfl⟩ | ⟨f, n, pop, hfires, hf⟩ | ⟨obj, hp⟩
  · exact ⟨ht, fun hagain => by simp at hagain⟩
  · obtain ⟨hle, hpop⟩ := hfires.le
    refine ⟨h.sets.fire hle ht hf, fun hagain => ?_⟩
    obtain ⟨hret, hbuf⟩ := (Lvl4SM.fire_cases hle hf).2.2 hagain
    have hpos : 0 < pop := by
      by_contra hzero
      rcases hfires with ⟨htr, _, _⟩ | ⟨c, _, _, hone⟩
      · have hn : n = 0 := by omega
        rw [htr, hn] at ht
        rw [hn, List.take_zero] at hret
        have hend : (m.actions.data f ct [] k).1.ret = false := h.size f k ht
        rw [hend] at hret
        simp at hret
      · omega
    rw [hbuf, List.length_drop]
    omega
  · rw [hp] at ht
    exact absurd ht (h.python obj)

/-- On every connection driven by the module, with callbacks that only answer. -/
def ProtocolModule.LoopsAlwaysEnd (m : ProtocolModule F Unit) (ct : ConnectedTarget) : Prop :=
  ∀ sm₀ sm : Lvl4SM F, Served m.actions ct (sm₀.callAll m.connect) () true sm () →
    LoopsEnd m.actions ct sm ()

theorem ProtocolModule.Shortens.loopsAlwaysEnd {m : ProtocolModule F Unit}
    {T : DataTrigger F → Prop} (h : m.Shortens ct T) : m.LoopsAlwaysEnd ct := by
  intro sm₀ sm hs
  have ht : T sm.trigger := hs.invariant (I := fun sm _ => T sm.trigger) (h.connect sm₀)
    (fun _ ht => ht) (fun _ ht hr => (h.processTrigger ht hr).1)
  have hends : ∀ {sm : Lvl4SM F} {prevPos : ℕ}, T sm.trigger →
      sm.processLoop m.actions ct (sm.buf.length + 1) prevPos () ≠ .error .outOfFuel := by
    intro sm prevPos ht
    apply processLoop_ends (I := fun sm _ => T sm.trigger) _ ht (Nat.lt_succ_self _)
    intro sm sm' k k' prevPos ht hr
    have hstep := h.processTrigger ht hr
    exact ⟨hstep.1, hstep.2 rfl⟩
  constructor
  · intro navail r
    refine ⟨(sm.growBy (r.bytes navail)).buf.length + 1, ?_⟩
    unfold Lvl4SM.processLvl4Data
    split_ifs
    · simp
    · exact hends ht
  · exact ⟨sm.buf.length + 1, hends ht⟩

end Loop

namespace SSH

variable (ssh : SSH κ) (ct : ConnectedTarget)

/-- The triggers of the SSH module cover something. -/
def Installed : DataTrigger Handler → Prop
  | .size n _ => 0 < n
  | .char _ _ => True
  | _ => False

theorem installed_of_armed {t : DataTrigger Handler} (h : t.Armed) : Installed t := by
  cases t with
  | size n f => exact h.1
  | char c f => trivial
  | base => exact h
  | python obj => exact h

theorem shortens : ssh.protocol.Shortens ct Installed where
  sets := by
    intro f ct chunk k c hc
    obtain ⟨t, rfl, ht⟩ := ssh.handle_calls ct f chunk k hc
    exact ⟨t, rfl, installed_of_armed ht⟩
  connect := fun _ => trivial
  python := fun _ h => h
  size := fun _ _ h => absurd h (lt_irrefl 0)

end SSH

namespace SIP

variable (sip : SIP κ) (ct : ConnectedTarget)

def Installed : DataTrigger Handler → Prop
  | .char _ _ => True
  | _ => False

theorem handle_calls (f : Handler) (chunk : List UInt8) (k : κ) :
    (sip.handle f ct chunk k).calls = [] := by
  have hinvalid : ∀ chunk, (sip.invalidHeader ct chunk k).calls = [] := fun _ => callCb_calls ..
  have hkey : ∀ chunk dot, (sip.onKeyValue ct chunk dot k).calls = [] := by
    intro chunk dot
    simp only [onKeyValue]
    split_ifs <;> rfl
  simp only [handle, onLine]
  cases hdot : (chunk.set (chunk.length - 1) 0).idxOf? 0x3A with
  | none => split_ifs <;> simp only [Handling.after_calls, hinvalid]
  | some dot => split_ifs <;> simp only [Handling.after_calls, hinvalid, hkey]

theorem shortens : sip.protocol.Shortens ct Installed where
  sets := by
    intro f ct chunk k c hc
    have hnone : (sip.protocol.actions.data f ct chunk k).1.calls = [] :=
      sip.handle_calls ct f chunk k
    simp [hnone] at hc
  connect := fun _ => trivial
  python := fun _ h => h
  size := fun _ _ h => h.elim

end SIP

namespace SSL

variable (ssl : SSL Unit) (ct : ConnectedTarget)

/-- The failure callback is not set, or ends a connection whose record is empty. -/
def EmptyRecordEnds : Prop := ∀ f, ssl.onFailure = some f → (f ct [] 0 0 ()).1 = false

theorem handle_empty (hs : OnHandshake) :
    ssl.handle (.onHandshake hs) ct [] () = ssl.failure ct [] 0 0 () := by
  cases hs <;> rfl

theorem shortens (h : ssl.EmptyRecordEnds ct) : ssl.protocol.Shortens ct Installed where
  sets := fun f ct chunk k _ hc => ssl.handle_calls ct f chunk k hc
  connect := fun _ => rfl
  python := fun _ h => h
  size := by
    intro f k hi
    match f with
    | .onTlsHeader onHs => exact absurd hi (by simp [Installed, sizeofTLS])
    | .onHandshake hs =>
      have hret : (ssl.failure ct [] 0 0 ()).ret = false := by
        unfold failure callCb
        cases hf : ssl.onFailure with
        | none => rfl
        | some f => exact h f hf
      rw [← handle_empty ssl ct hs] at hret
      exact hret

/-- The header of a record of no bytes. -/
def emptyRecord : List UInt8 := [0x16, 3, 0, 0, 0]

/-- Waiting for a record of no bytes, or about to read its header. -/
def AtEmptyRecord (sm : Lvl4SM Handler) : Prop :=
  (∃ hs, sm.trigger = .size 0 (some (.onHandshake hs))) ∨
    (sm.trigger = headerTrigger .handshake1 ∧ sm.buf = emptyRecord)

theorem fire_empty {sm : Lvl4SM Handler} {hs : OnHandshake}
    (hret : (ssl.failure ct [] 0 0 ()).ret = true) :
    sm.fire ssl.protocol.actions ct (.onHandshake hs) 0 0 () =
      (.canProcessAgain, { sm with buf := sm.buf }, ()) := by
  have ha : ssl.protocol.actions.data (.onHandshake hs) ct [] () =
      (⟨(ssl.failure ct [] 0 0 ()).ret, (ssl.failure ct [] 0 0 ()).chunk, []⟩, ()) := by
    simp only [ProtocolModule.actions, protocol, handle_empty, failure, callCb_calls]
  simp only [Lvl4SM.fire, List.take_zero, ha, hret, if_true, Lvl4SM.callAll, List.foldl_nil,
    overwrite, List.nil_append, Nat.zero_min, List.drop_zero]

theorem atEmptyRecord_again {f : DataCallback Unit} (hf : ssl.onFailure = some f)
    (ht : (f ct [] 0 0 ()).1 = true) {sm : Lvl4SM Handler} (prevPos : ℕ) (h : AtEmptyRecord sm) :
    ∃ sm', sm.processTrigger ssl.protocol.actions ct prevPos () =
      .ok (.canProcessAgain, sm', ()) ∧ AtEmptyRecord sm' := by
  rcases h with ⟨hs, htr⟩ | ⟨htr, hbuf⟩
  · have hret : (ssl.failure ct [] 0 0 ()).ret = true := by
      simp only [failure, callCb, hf]
      exact ht
    refine ⟨sm, ?_, Or.inl ⟨hs, htr⟩⟩
    simp only [Lvl4SM.processTrigger, htr, Lvl4SM.processSize, Nat.not_lt_zero, if_false]
    exact congrArg Except.ok (fire_empty ssl ct hret)
  · refine ⟨{ sm.setTrigger (.size 0 (some (.onHandshake .handshake1))) with buf := [] }, ?_,
      Or.inl ⟨.handshake1, rfl⟩⟩
    simp only [Lvl4SM.processTrigger, htr, headerTrigger, Lvl4SM.processSize, hbuf]
    simp only [Lvl4SM.fire, hbuf]
    rfl

/-- The loop goes on for ever if the failure callback goes on after an empty record. -/
theorem emptyRecord_diverges {f : DataCallback Unit} (hf : ssl.onFailure = some f)
    (ht : (f ct [] 0 0 ()).1 = true) (fuel : ℕ) :
    ((Lvl4SM.new 0).callAll ssl.protocol.connect).processLvl4Data ssl.protocol.actions ct fuel 5
      ⟨5, emptyRecord⟩ () = .error .outOfFuel := by
  have hnread : ¬ ((5 : ℤ) ≤ 0) := by omega
  rw [Lvl4SM.processLvl4Data, if_neg hnread]
  apply processLoop_diverges (I := fun sm _ => AtEmptyRecord sm)
  · intro sm k prevPos h
    obtain ⟨sm', hr, h'⟩ := ssl.atEmptyRecord_again ct hf ht prevPos h
    exact ⟨sm', (), hr, h'⟩
  · exact Or.inr ⟨rfl, rfl⟩

theorem loopsAlwaysEnd_iff : ssl.protocol.LoopsAlwaysEnd ct ↔ ssl.EmptyRecordEnds ct := by
  constructor
  · intro hend f hf
    by_contra hne
    have ht : (f ct [] 0 0 ()).1 = true := by simpa using hne
    obtain ⟨fuel, hfuel⟩ := (hend (Lvl4SM.new 0) _ .connect).1 5 ⟨5, emptyRecord⟩
    exact hfuel (ssl.emptyRecord_diverges ct hf ht fuel)
  · exact fun h => (ssl.shortens ct h).loopsAlwaysEnd

end SSL

/-- The three modules of the repository. -/
theorem loops_end_iff (ssl : SSL Unit) (ssh : SSH Unit) (sip : SIP Unit) (ct : ConnectedTarget) :
    (ssl.protocol.LoopsAlwaysEnd ct ↔ ssl.EmptyRecordEnds ct) ∧
      ssh.protocol.LoopsAlwaysEnd ct ∧ sip.protocol.LoopsAlwaysEnd ct :=
  ⟨ssl.loopsAlwaysEnd_iff ct, (ssh.shortens ct).loopsAlwaysEnd, (sip.shortens ct).loopsAlwaysEnd⟩

/-- An SSL module whose failure callback always goes on. -/
def SSL.eager : SSL Unit := ⟨none, none, some (fun _ _ _ _ _ => (true, ())), fun _ _ => 0⟩

theorem empty_record_never_ends :
    ¬ ∃ fuel, ((Lvl4SM.new 0).callAll SSL.eager.protocol.connect).processLvl4Data
      SSL.eager.protocol.actions ⟨⟨1, ⟨443, .tcp⟩⟩, 5⟩ fuel 5 ⟨5, [0x16, 3, 0, 0, 0]⟩ () ≠
        .error .outOfFuel := by
  rintro ⟨fuel, hne⟩
  exact hne (SSL.eager.emptyRecord_diverges _ rfl rfl fuel)

end Nodescan
