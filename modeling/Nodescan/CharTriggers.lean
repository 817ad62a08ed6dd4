import Nodescan.Tokenisation

/-!
# What a char trigger has searched

A char trigger searches the bytes that have just arrived and leaves out those before them. This is
sound if the trigger has searched them before. A trigger that was set meanwhile has not: it counts
on the reprocess flag and on the dirty pass, which searches the whole buffer, and data may arrive
before that.
-/

namespace Nodescan
namespace Lvl4SM

variable {F κ : Type}

/-- The loop from `sm` comes to a round of this machine, with this position to search from. -/
inductive Rounds (acts : Actions F κ) (ct : ConnectedTarget) (sm : Lvl4SM F) (prevPos : ℕ) (k : κ) :
    Lvl4SM F → ℕ → κ → Prop
  | first : Rounds acts ct sm prevPos k sm prevPos k
  | next {sm₁ sm₂ : Lvl4SM F} {p : ℕ} {k₁ k₂ : κ} : Rounds acts ct sm prevPos k sm₁ p k₁ →
      sm₁.processTrigger acts ct p k₁ = .ok (.canProcessAgain, sm₂, k₂) →
        Rounds acts ct sm prevPos k sm₂ 0 k₂

/-- A char trigger that is not to be run again would find nothing in the buffer. -/
def Scanned (sm : Lvl4SM F) : Prop :=
  sm.reprocess = false → ∀ c f, sm.trigger = .char c f → c ∉ sm.buf

variable {acts : Actions F κ} {ct : ConnectedTarget} {sm sm' : Lvl4SM F} {k k' : κ} {p fuel : ℕ}

theorem Scanned.congr (h : sm.Scanned) (ht : sm'.trigger = sm.trigger)
    (hr : sm'.reprocess = sm.reprocess) (hb : sm'.buf = sm.buf) : sm'.Scanned := by
  unfold Scanned
  rw [ht, hr, hb]
  exact h

theorem Scanned.call (h : sm.Scanned) (c : SmCall F) : (sm.call c).Scanned := by
  cases c with
  | setTrigger t => exact fun hflag => absurd hflag (by simp [Lvl4SM.call, setTrigger])
  | removeDataTrigger => exact fun _ c f ht => absurd ht (by simp [Lvl4SM.call, removeDataTrigger,
      setTrigger])
  | setReconnect v => exact h.congr rfl rfl rfl
  | setOnConnect f => exact h.congr rfl rfl rfl

theorem Scanned.callAll (h : sm.Scanned) (cs : List (SmCall F)) : (sm.callAll cs).Scanned := by
  induction cs generalizing sm with
  | nil => exact h
  | cons c cs ih => exact ih (h.call c)

theorem freeBuffer_scanned (sm : Lvl4SM F) : sm.freeBuffer.Scanned := fun _ c f _ => by
  simp [freeBuffer]

theorem new_scanned (now : ℤ) : (new now : Lvl4SM F).Scanned := freeBuffer_scanned (new now)

/-- A machine with another trigger stays scanned, whatever its bytes: a char trigger that its
action sets raises the flag. -/
theorem callAll_scanned_of_not_char (ht : ∀ c f, sm.trigger ≠ .char c f) (cs : List (SmCall F))
    (buf : List UInt8) : ({ sm.callAll cs with buf := buf } : Lvl4SM F).Scanned := by
  have hfree : ∀ b, ({ sm with buf := b } : Lvl4SM F).Scanned :=
    fun b _ c f htc => absurd htc (ht c f)
  have hcalls : ∀ (cs : List (SmCall F)) (sm : Lvl4SM F),
      ({ sm.callAll cs with buf := buf } : Lvl4SM F) =
        ({ sm with buf := buf } : Lvl4SM F).callAll cs := by
    intro cs
    induction cs with
    | nil => exact fun _ => rfl
    | cons c cs ih =>
      intro sm
      refine (ih (sm.call c)).trans ?_
      cases c <;> rfl
  rw [hcalls]
  exact (hfree buf).callAll cs

/-- A round that finds nothing more leaves its machine scanned, if the bytes it left out hold
nothing to find. -/
theorem scanned_of_noMore
    (hskip : sm.reprocess = false → ∀ c f, sm.trigger = .char c f → c ∉ sm.buf.take p)
    (hr : sm.processTrigger acts ct p k = .ok (.noMoreToProcess, sm', k')) : sm'.Scanned := by
  have hfire : ∀ f n m, sm.fire acts ct f n m k ≠ (.noMoreToProcess, sm', k') := by
    intro f n m heq
    simp only [fire] at heq
    split_ifs at heq <;> simp at heq
  cases ht : sm.trigger with
  | base =>
    simp only [processTrigger, ht, Except.ok.injEq, Prod.mk.injEq, true_and] at hr
    rw [← hr.1]
    exact fun _ c f htc => absurd (ht.symm.trans htc) (by simp)
  | size n f =>
    simp only [processTrigger, ht, processSize] at hr
    split_ifs at hr
    · simp only [Except.ok.injEq, Prod.mk.injEq, true_and] at hr
      rw [← hr.1]
      exact fun _ c f htc => absurd (ht.symm.trans htc) (by simp)
    · cases f with
      | none => simp at hr
      | some f => exact absurd (Except.ok.inj hr) (hfire f n n)
  | char c f =>
    simp only [processTrigger, ht, processChar] at hr
    split at hr
    · next hnone =>
      simp only [Except.ok.injEq, Prod.mk.injEq, true_and] at hr
      rw [← hr.1]
      intro hflag c' f' htc
      obtain ⟨rfl, rfl⟩ : c = c' ∧ f = f' := by simpa using ht.symm.trans htc
      have hrest : c ∉ sm.buf.drop p := by
        rw [findFrom, Option.map_eq_none_iff] at hnone
        exact List.idxOf?_eq_none_iff.mp hnone
      intro hmem
      rw [← List.take_append_drop p sm.buf, List.mem_append] at hmem
      exact hmem.elim (hskip hflag c f ht) hrest
    · next pos _ =>
      cases f with
      | none => simp at hr
      | some f => exact absurd (Except.ok.inj hr) (hfire f pos (pos + 1))
  | python obj =>
    simp only [processTrigger, ht, processPython] at hr
    split_ifs at hr
    simp only [Except.ok.injEq, Prod.mk.injEq] at hr
    rw [← hr.2.1]
    exact callAll_scanned_of_not_char (by simp [ht]) _ _

theorem processLoop_scanned
    (hskip : sm.reprocess = false → ∀ c f, sm.trigger = .char c f → c ∉ sm.buf.take p)
    (hr : sm.processLoop acts ct fuel p k = .ok (true, sm', k')) : sm'.Scanned := by
  induction fuel generalizing sm p k with
  | zero => simp [processLoop] at hr
  | succ fuel ih =>
    rw [processLoop] at hr
    cases hround : sm.processTrigger acts ct p k with
    | error e => simp [hround] at hr
    | ok r =>
      obtain ⟨code, sm₁, k₁⟩ := r
      rw [hround] at hr
      cases code with
      | canProcessAgain => exact ih (by simp) hr
      | noMoreToProcess =>
        simp only [Except.ok.injEq, Prod.mk.injEq, true_and] at hr
        rw [← hr.1]
        exact scanned_of_noMore hskip hround
      | connectionEnd => simp at hr

theorem processBuffer_scanned (hr : sm.processBuffer acts ct fuel k = .ok (true, sm', k')) :
    sm'.Scanned :=
  processLoop_scanned (p := 0) (by simp) hr

theorem Scanned.processLvl4Data {navail : ℕ} {r : ReadResult} (h : sm.Scanned)
    (hr : sm.processLvl4Data acts ct fuel navail r k = .ok (true, sm', k')) : sm'.Scanned := by
  unfold Lvl4SM.processLvl4Data at hr
  split_ifs at hr
  · simp at hr
  · refine processLoop_scanned (fun hflag c f ht => ?_) hr
    rw [growBy, List.take_left]
    exact h hflag c f ht

end Lvl4SM
end Nodescan
