import Mathlib.Tactic

/-!
# Stateful computations that may fault

A computation threads a state and ends either with a value or with a fault; the state it has
reached is kept in both cases. `Runs x s Q E` says how the run of `x` from `s` ends: `Q` holds of
its value and final state if it returns, `E` of its fault and final state if it does not. The
rules below follow the way a computation is built, so that a proof about a long one cites the
results about its parts and never unfolds them.
-/

abbrev FaultM (ε σ : Type) := ExceptT ε (StateM σ)

namespace FaultM

variable {ε σ α β : Type}

def runFrom (x : FaultM ε σ α) (s : σ) : Except ε α × σ := x s

theorem runFrom_bind (x : FaultM ε σ α) (f : α → FaultM ε σ β) (s : σ) :
    (x >>= f).runFrom s = match x.runFrom s with
      | (.ok a, t) => (f a).runFrom t
      | (.error e, t) => (.error e, t) := by
  simp only [runFrom, bind, ExceptT.bind, ExceptT.mk, StateT.bind]
  generalize x s = r
  obtain ⟨_ | _, t⟩ := r <;> rfl

@[simp] theorem runFrom_pure (a : α) (s : σ) :
    runFrom (pure a : FaultM ε σ α) s = (.ok a, s) := rfl

@[simp] theorem runFrom_throw (e : ε) (s : σ) :
    runFrom (throw e : FaultM ε σ α) s = (.error e, s) := rfl

@[simp] theorem runFrom_get (s : σ) : runFrom (get : FaultM ε σ σ) s = (.ok s, s) := rfl

@[simp] theorem runFrom_modify (f : σ → σ) (s : σ) :
    runFrom (modify f : FaultM ε σ PUnit) s = (.ok ⟨⟩, f s) := rfl

@[simp] theorem runFrom_modifyGet (f : σ → α × σ) (s : σ) :
    runFrom (modifyGet f : FaultM ε σ α) s = (.ok (f s).1, (f s).2) := rfl

theorem bind_eq_ok {x : FaultM ε σ α} {f : α → FaultM ε σ β} {s t : σ} {b : β} :
    (x >>= f).runFrom s = (.ok b, t) ↔
      ∃ a s₁, x.runFrom s = (.ok a, s₁) ∧ (f a).runFrom s₁ = (.ok b, t) := by
  rw [runFrom_bind]
  generalize x.runFrom s = r
  obtain ⟨e | a, s₁⟩ := r
  · simp
  · simp

theorem bind_eq_error {x : FaultM ε σ α} {f : α → FaultM ε σ β} {s t : σ} {e : ε} :
    (x >>= f).runFrom s = (.error e, t) ↔ x.runFrom s = (.error e, t) ∨
      ∃ a s₁, x.runFrom s = (.ok a, s₁) ∧ (f a).runFrom s₁ = (.error e, t) := by
  rw [runFrom_bind]
  generalize x.runFrom s = r
  obtain ⟨e | a, s₁⟩ := r
  · simp
  · simp

def Runs (x : FaultM ε σ α) (s : σ) (Q : α → σ → Prop) (E : ε → σ → Prop) : Prop :=
  match x.runFrom s with
  | (.ok a, t) => Q a t
  | (.error e, t) => E e t

namespace Runs

variable {x : FaultM ε σ α} {s : σ} {Q Q' : α → σ → Prop} {E E' : ε → σ → Prop}

theorem of_ok (h : Runs x s Q E) {a : α} {t : σ} (hr : x.runFrom s = (.ok a, t)) : Q a t := by
  simpa only [Runs, hr] using h

theorem of_error (h : Runs x s Q E) {e : ε} {t : σ} (hr : x.runFrom s = (.error e, t)) :
    E e t := by
  simpa only [Runs, hr] using h

theorem intro (hQ : ∀ a t, x.runFrom s = (.ok a, t) → Q a t)
    (hE : ∀ e t, x.runFrom s = (.error e, t) → E e t) : Runs x s Q E := by
  unfold Runs
  rcases hr : x.runFrom s with ⟨e | a, t⟩
  · exact hE e t hr
  · exact hQ a t hr

theorem mono (h : Runs x s Q E) (hQ : ∀ a t, Q a t → Q' a t) (hE : ∀ e t, E e t → E' e t) :
    Runs x s Q' E' :=
  intro (fun a t hr => hQ a t (h.of_ok hr)) (fun e t hr => hE e t (h.of_error hr))

/-- A run that is known to end in two ways ends in both. -/
theorem both (h : Runs x s Q E) (h' : Runs x s Q' E') :
    Runs x s (fun a t => Q a t ∧ Q' a t) (fun e t => E e t ∧ E' e t) :=
  intro (fun _ _ hr => ⟨h.of_ok hr, h'.of_ok hr⟩) (fun _ _ hr => ⟨h.of_error hr, h'.of_error hr⟩)

theorem noFault (h : Runs x s Q (fun _ _ => False)) : Runs x s Q E :=
  h.mono (fun _ _ hQ => hQ) (fun _ _ hE => hE.elim)

theorem bind {f : α → FaultM ε σ β} {R : β → σ → Prop} (hx : Runs x s Q E)
    (hf : ∀ a t, Q a t → Runs (f a) t R E) : Runs (x >>= f) s R E := by
  unfold Runs at *
  rw [runFrom_bind]
  generalize x.runFrom s = r at hx ⊢
  obtain ⟨e | a, t⟩ := r
  · exact hx
  · exact hf a t hx

theorem ret {a : α} (h : Q a s) : Runs (pure a) s Q E := h

theorem fault {e : ε} (h : E e s) : Runs (throw e : FaultM ε σ α) s Q E := h

theorem read {f : σ → FaultM ε σ α} (h : Runs (f s) s Q E) : Runs (get >>= f) s Q E := h

theorem update {f : σ → σ} {Q : PUnit → σ → Prop} (h : Q ⟨⟩ (f s)) :
    Runs (modify f : FaultM ε σ PUnit) s Q E := h

theorem updateGet {f : σ → α × σ} (h : Q (f s).1 (f s).2) :
    Runs (modifyGet f : FaultM ε σ α) s Q E := h

end Runs

/-! Two computations side by side. -/

variable {ε' σ' α' β' γ δ : Type}

/-- From `s` and `t` the two computations end alike: both return, with values related by `V`, or
both fault, with faults related by `E`, and their final states are related by `R`. -/
def Paired (R : σ → σ' → Prop) (E : ε → ε' → Prop) (V : α → α' → Prop) (x : FaultM ε σ α)
    (y : FaultM ε' σ' α') (s : σ) (t : σ') : Prop :=
  match x.runFrom s, y.runFrom t with
  | (.ok a, s'), (.ok b, t') => V a b ∧ R s' t'
  | (.error e, s'), (.error f, t') => E e f ∧ R s' t'
  | _, _ => False

namespace Paired

variable {R : σ → σ' → Prop} {E : ε → ε' → Prop} {V : α → α' → Prop} {W : β → β' → Prop}
  {x : FaultM ε σ α} {y : FaultM ε' σ' α'} {s : σ} {t : σ'}

theorem states (h : Paired R E V x y s t) : R (x.runFrom s).2 (y.runFrom t).2 := by
  unfold Paired at h
  rcases hx : x.runFrom s with ⟨_ | a, s'⟩ <;> rcases hy : y.runFrom t with ⟨_ | b, t'⟩ <;>
    simp only [hx, hy] at h
  · exact h.2
  · exact h.2

theorem mono {V' : α → α' → Prop} (h : Paired R E V x y s t) (hV : ∀ a b, V a b → V' a b) :
    Paired R E V' x y s t := by
  unfold Paired at *
  rcases hx : x.runFrom s with ⟨_ | a, s'⟩ <;> rcases hy : y.runFrom t with ⟨_ | b, t'⟩ <;>
    simp only [hx, hy] at h ⊢
  · exact h
  · exact ⟨hV a b h.1, h.2⟩

theorem bind {f : α → FaultM ε σ β} {g : α' → FaultM ε' σ' β'} (h : Paired R E V x y s t)
    (hf : ∀ a b s' t', V a b → R s' t' → Paired R E W (f a) (g b) s' t') :
    Paired R E W (x >>= f) (y >>= g) s t := by
  unfold Paired at h ⊢
  rw [runFrom_bind, runFrom_bind]
  rcases hx : x.runFrom s with ⟨_ | a, s'⟩ <;> rcases hy : y.runFrom t with ⟨_ | b, t'⟩ <;>
    simp only [hx, hy] at h ⊢
  · exact h
  · exact hf a b s' t' h.1 h.2

theorem ret {a : α} {b : α'} (hV : V a b) (hR : R s t) :
    Paired R E V (pure a) (pure b) s t := ⟨hV, hR⟩

theorem fault {e : ε} {f : ε'} (hE : E e f) (hR : R s t) :
    Paired R E V (throw e) (throw f) s t := ⟨hE, hR⟩

theorem read {f : σ → FaultM ε σ α} {g : σ' → FaultM ε' σ' α'}
    (h : Paired R E V (f s) (g t) s t) : Paired R E V (get >>= f) (get >>= g) s t := h

theorem update {f : σ → σ} {g : σ' → σ'} (h : R (f s) (g t)) :
    Paired R E Eq (modify f : FaultM ε σ PUnit) (modify g : FaultM ε' σ' PUnit) s t := ⟨rfl, h⟩

theorem updateGet {f : σ → α × σ} {g : σ' → α' × σ'} (hV : V (f s).1 (g t).1)
    (h : R (f s).2 (g t).2) :
    Paired R E V (modifyGet f : FaultM ε σ α) (modifyGet g : FaultM ε' σ' α') s t := ⟨hV, h⟩

/-- Two loops over lists whose elements correspond. -/
theorem forM {f : γ → FaultM ε σ PUnit} {g : δ → FaultM ε' σ' PUnit} {r : γ → δ} (xs : List γ)
    (hR : R s t) (hf : ∀ c s t, R s t → Paired R E Eq (f c) (g (r c)) s t) :
    Paired R E Eq (xs.forM f) ((xs.map r).forM g) s t := by
  induction xs generalizing s t with
  | nil => exact ⟨rfl, hR⟩
  | cons c xs ih => exact bind (hf c s t hR) (fun _ _ s' t' _ hR' => ih hR')

end Paired

/-! A computation seen through a map of its states. -/

section Projects

variable {τ : Type} {q : τ → σ}

/-- `x` is what `q` shows of `y`: from what it shows of a state, `x` ends as `y` does. -/
def Projects (q : τ → σ) (y : FaultM ε τ α) (x : FaultM ε σ α) : Prop :=
  ∀ t, x.runFrom (q t) = ((y.runFrom t).1, q (y.runFrom t).2)

namespace Projects

variable {y : FaultM ε τ α} {x : FaultM ε σ α}

theorem bind {g : α → FaultM ε τ β} {f : α → FaultM ε σ β} (h : Projects q y x)
    (hf : ∀ a, Projects q (g a) (f a)) : Projects q (y >>= g) (x >>= f) := by
  intro t
  rw [runFrom_bind, runFrom_bind, h t]
  rcases y.runFrom t with ⟨e | a, t'⟩
  · rfl
  · exact hf a t'

theorem ret (a : α) : Projects q (pure a : FaultM ε τ α) (pure a) := fun _ => rfl

theorem fault (e : ε) : Projects q (throw e : FaultM ε τ α) (throw e) := fun _ => rfl

theorem read {g : τ → FaultM ε τ α} {f : σ → FaultM ε σ α} (h : ∀ t, Projects q (g t) (f (q t))) :
    Projects q (get >>= g) (get >>= f) := fun t => h t t

theorem update {g : τ → τ} {f : σ → σ} (h : ∀ t, f (q t) = q (g t)) :
    Projects q (modify g : FaultM ε τ PUnit) (modify f) := by
  intro t
  rw [runFrom_modify, h]
  rfl

theorem updateGet {g : τ → α × τ} {f : σ → α × σ} (h : ∀ t, f (q t) = ((g t).1, q (g t).2)) :
    Projects q (modifyGet g : FaultM ε τ α) (modifyGet f) := by
  intro t
  rw [runFrom_modifyGet, h]
  rfl

theorem forM {g : γ → FaultM ε τ PUnit} {f : γ → FaultM ε σ PUnit} (xs : List γ)
    (hf : ∀ c, Projects q (g c) (f c)) : Projects q (xs.forM g) (xs.forM f) := by
  induction xs with
  | nil => exact ret PUnit.unit
  | cons c xs ih => exact bind (hf c) (fun _ => ih)

end Projects
end Projects
end FaultM
