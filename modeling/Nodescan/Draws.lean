import Mathlib.Tactic

/-!
# Repeated draws from a source

A source in a state gives a value and its next state. `draws n s` are the first `n` values from
`s`, `afterDraws n s` the state they leave. The rules cut a sequence of draws into blocks, carry an
invariant along it, compare two sources that go through related states, and take two sources in
turn.
-/

variable {σ α : Type}

def draws (next : σ → α × σ) : ℕ → σ → List α
  | 0, _ => []
  | n + 1, s => (next s).1 :: draws next n (next s).2

def afterDraws (next : σ → α × σ) : ℕ → σ → σ
  | 0, s => s
  | n + 1, s => afterDraws next n (next s).2

namespace Draws

variable {next : σ → α × σ}

theorem draws_add (m n : ℕ) (s : σ) :
    draws next (m + n) s = draws next m s ++ draws next n (afterDraws next m s) := by
  induction m generalizing s with
  | zero => simp [draws, afterDraws]
  | succ m ih =>
    rw [Nat.succ_add, draws, ih, draws, afterDraws, List.cons_append]

theorem afterDraws_add (m n : ℕ) (s : σ) :
    afterDraws next (m + n) s = afterDraws next n (afterDraws next m s) := by
  induction m generalizing s with
  | zero => simp [afterDraws]
  | succ m ih => rw [Nat.succ_add, afterDraws, ih, afterDraws]

/-- States with the same next draw have the same draws. -/
theorem draws_congr {s t : σ} (h : next s = next t) {n : ℕ} (hn : 0 < n) :
    draws next n s = draws next n t ∧ afterDraws next n s = afterDraws next n t := by
  cases n with
  | zero => omega
  | succ n => simp [draws, afterDraws, h]

theorem afterDraws_invariant {I : σ → Prop} (hstep : ∀ s, I s → I (next s).2) (n : ℕ) {s : σ}
    (h : I s) : I (afterDraws next n s) := by
  induction n generalizing s with
  | zero => exact h
  | succ n ih => exact ih (hstep s h)

/-- Two sources agree as long as their states stay related. -/
theorem draws_eq_of_agree (n : ℕ) {s : σ} {next' : σ → α × σ}
    (h : ∀ m < n, next (afterDraws next m s) = next' (afterDraws next m s)) :
    draws next n s = draws next' n s ∧ afterDraws next n s = afterDraws next' n s := by
  induction n generalizing s with
  | zero => exact ⟨rfl, rfl⟩
  | succ n ih =>
    have h₀ : next s = next' s := h 0 (Nat.succ_pos n)
    have hrest := ih (fun m hm => h (m + 1) (Nat.succ_lt_succ hm))
    constructor
    · rw [draws, draws, hrest.1, h₀]
    · rw [afterDraws, afterDraws, hrest.2, h₀]

theorem length_draws (n : ℕ) (s : σ) : (draws next n s).length = n := by
  induction n generalizing s with
  | zero => rfl
  | succ n ih => rw [draws, List.length_cons, ih]

theorem getElem?_draws (next : σ → α × σ) {n m : ℕ} (s : σ) (h : m < n) :
    (draws next n s)[m]? = some (next (afterDraws next m s)).1 := by
  induction m generalizing n s with
  | zero =>
    cases n with
    | zero => omega
    | succ n => rfl
  | succ m ih =>
    cases n with
    | zero => omega
    | succ n =>
      rw [draws, List.getElem?_cons_succ, afterDraws]
      exact ih _ (by omega)

/-- A source that gives the values of another one through `f`. -/
theorem draws_map {β : Type} (f : α → β) (next : σ → α × σ) (next' : σ → β × σ)
    (h : ∀ s, next' s = (f (next s).1, (next s).2)) (n : ℕ) (s : σ) :
    draws next' n s = (draws next n s).map f ∧ afterDraws next' n s = afterDraws next n s := by
  induction n generalizing s with
  | zero => exact ⟨rfl, rfl⟩
  | succ n ih =>
    have hrest := ih (next s).2
    simp only [draws, afterDraws, h, List.map_cons]
    exact ⟨congrArg _ hrest.1, hrest.2⟩

end Draws

/-- `l` is what two sources gave in turn: the values `xs` of the one and `ys` of the other, each in
its order. -/
inductive Interleaved : List α → List α → List α → Prop
  | nil : Interleaved [] [] []
  | left {xs ys l} (x : α) (h : Interleaved xs ys l) : Interleaved (x :: xs) ys (x :: l)
  | right {xs ys l} (y : α) (h : Interleaved xs ys l) : Interleaved xs (y :: ys) (y :: l)

namespace Interleaved

variable {xs ys zs l : List α}

theorem left_only (xs : List α) : Interleaved xs [] xs := by
  induction xs with
  | nil => exact nil
  | cons x xs ih => exact left x ih

theorem right_only (ys : List α) : Interleaved [] ys ys := by
  induction ys with
  | nil => exact nil
  | cons y ys ih => exact right y ih

theorem append_left (h : Interleaved xs ys l) (zs : List α) :
    Interleaved (xs ++ zs) ys (l ++ zs) := by
  induction h with
  | nil => exact left_only zs
  | left x _ ih => exact left x ih
  | right y _ ih => exact right y ih

theorem append_right (h : Interleaved xs ys l) (zs : List α) :
    Interleaved xs (ys ++ zs) (l ++ zs) := by
  induction h with
  | nil => exact right_only zs
  | left x _ ih => exact left x ih
  | right y _ ih => exact right y ih

theorem perm (h : Interleaved xs ys l) : l.Perm (xs ++ ys) := by
  induction h with
  | nil => exact List.Perm.refl []
  | left x _ ih => exact ih.cons x
  | right y _ ih => exact (ih.cons y).trans List.perm_middle.symm

end Interleaved
