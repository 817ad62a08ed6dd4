import Mathlib.Tactic

/-!
# Scanning a stream that arrives in pieces

A scanner looks at the front of the data it holds. Once enough has arrived it takes a token and
the separator after it, hands the token to its action and goes on with the rest; the action may
change the scanner's state, end the scan or fault. A token, once complete, is not changed by what
arrives after it. This is all that is needed for the tokens not to depend on how the stream is
cut: draining a prefix until nothing more can be taken and then going on with the rest is
draining the whole.
-/

/-- `next` answers the lengths of the token at the front and of the separator after it. -/
structure Scanner (σ β ε : Type) where
  next : σ → List β → Option (ℕ × ℕ)
  act : σ → List β → Except ε (Bool × σ)
  next_pos : ∀ {a xs n k}, next a xs = some (n, k) → 0 < n + k
  next_le : ∀ {a xs n k}, next a xs = some (n, k) → n + k ≤ xs.length
  next_append : ∀ {a xs n k} (ys : List β), next a xs = some (n, k) → next a (xs ++ ys) = some (n, k)

namespace Scanner

variable {σ β ε : Type}

/-- A token with the separator that followed it. -/
abbrev Token (β : Type) := List β × List β

/-- The tokens handed to the action, and how the scan ended: whether it goes on, the state it is
in and the data it still holds. -/
abbrev Result (σ β ε : Type) := List (Token β) × Except ε (Bool × σ × List β)

variable (m : Scanner σ β ε)

def drain (a : σ) (xs : List β) : Result σ β ε :=
  match _h : m.next a xs with
  | none => ([], .ok (true, a, xs))
  | some (n, k) =>
    match m.act a (xs.take n) with
    | .error e => ([(xs.take n, (xs.drop n).take k)], .error e)
    | .ok (false, b) => ([(xs.take n, (xs.drop n).take k)], .ok (false, b, xs))
    | .ok (true, b) =>
      let r := drain b (xs.drop (n + k))
      ((xs.take n, (xs.drop n).take k) :: r.1, r.2)
termination_by xs.length
decreasing_by
  have hp := m.next_pos _h
  have hl := m.next_le _h
  simp only [List.length_drop]
  omega

theorem drain_none {a : σ} {xs : List β} (h : m.next a xs = none) :
    m.drain a xs = ([], .ok (true, a, xs)) := by
  rw [drain]
  split <;> simp_all

theorem drain_error {a : σ} {xs : List β} {n k : ℕ} {e : ε} (h : m.next a xs = some (n, k))
    (he : m.act a (xs.take n) = .error e) :
    m.drain a xs = ([(xs.take n, (xs.drop n).take k)], .error e) := by
  rw [drain]
  split
  · simp_all
  · simp_all

theorem drain_stop {a b : σ} {xs : List β} {n k : ℕ} (h : m.next a xs = some (n, k))
    (he : m.act a (xs.take n) = .ok (false, b)) :
    m.drain a xs = ([(xs.take n, (xs.drop n).take k)], .ok (false, b, xs)) := by
  rw [drain]
  split
  · simp_all
  · simp_all

theorem drain_more {a b : σ} {xs : List β} {n k : ℕ} (h : m.next a xs = some (n, k))
    (he : m.act a (xs.take n) = .ok (true, b)) :
    m.drain a xs = ((xs.take n, (xs.drop n).take k) :: (m.drain b (xs.drop (n + k))).1,
      (m.drain b (xs.drop (n + k))).2) := by
  rw [drain]
  split
  · simp_all
  · simp_all

/-- After a scan that goes on, nothing more can be taken. -/
theorem drain_quiescent {a b : σ} {xs rest : List β}
    (h : (m.drain a xs).2 = .ok (true, b, rest)) : m.next b rest = none := by
  induction a, xs using drain.induct m with
  | case1 a xs hn =>
    rw [m.drain_none hn] at h
    obtain ⟨rfl, rfl⟩ : a = b ∧ xs = rest := by simpa using h
    exact hn
  | case2 a xs n k hn e he => simp [m.drain_error hn he] at h
  | case3 a xs n k hn c hc => simp [m.drain_stop hn hc] at h
  | case4 a xs n k hn c hc ih =>
    rw [m.drain_more hn hc] at h
    exact ih h

/-- While the scan goes on, the tokens with their separators and the data still held are what
was scanned. -/
theorem drain_conserves {a b : σ} {xs rest : List β}
    (h : (m.drain a xs).2 = .ok (true, b, rest)) :
    ((m.drain a xs).1.map (fun t => t.1 ++ t.2)).flatten ++ rest = xs := by
  induction a, xs using drain.induct m with
  | case1 a xs hn =>
    rw [m.drain_none hn] at h ⊢
    obtain ⟨rfl, rfl⟩ : a = b ∧ xs = rest := by simpa using h
    rfl
  | case2 a xs n k hn e he => simp [m.drain_error hn he] at h
  | case3 a xs n k hn c hc => simp [m.drain_stop hn hc] at h
  | case4 a xs n k hn c hc ih =>
    rw [m.drain_more hn hc] at h ⊢
    rw [List.map_cons, List.flatten_cons, List.append_assoc, List.append_assoc, ih h,
      ← List.drop_drop, List.take_append_drop, List.take_append_drop]

/-- What a complete token and the rest after it look like once more data has arrived. -/
theorem next_append_parts {a : σ} {xs : List β} {n k : ℕ} (ys : List β)
    (h : m.next a xs = some (n, k)) :
    (xs ++ ys).take n = xs.take n ∧ ((xs ++ ys).drop n).take k = (xs.drop n).take k ∧
      (xs ++ ys).drop (n + k) = xs.drop (n + k) ++ ys := by
  have hl := m.next_le h
  refine ⟨List.take_append_of_le_length (by omega), ?_, List.drop_append_of_le_length hl⟩
  rw [List.drop_append_of_le_length (by omega),
    List.take_append_of_le_length (by rw [List.length_drop]; omega)]

/-- Scanning what has arrived and then going on with the rest is scanning the whole. -/
theorem drain_append (a : σ) (xs ys : List β) :
    m.drain a (xs ++ ys) = match (m.drain a xs).2 with
      | .error e => ((m.drain a xs).1, .error e)
      | .ok (false, b, rest) => ((m.drain a xs).1, .ok (false, b, rest ++ ys))
      | .ok (true, b, rest) =>
          ((m.drain a xs).1 ++ (m.drain b (rest ++ ys)).1, (m.drain b (rest ++ ys)).2) := by
  induction a, xs using drain.induct m with
  | case1 a xs hn => simp [m.drain_none hn]
  | case2 a xs n k hn e he =>
    obtain ⟨ht, hs, _⟩ := m.next_append_parts ys hn
    rw [m.drain_error hn he, m.drain_error (m.next_append ys hn) (by rw [ht]; exact he), ht, hs]
  | case3 a xs n k hn c hc =>
    obtain ⟨ht, hs, _⟩ := m.next_append_parts ys hn
    rw [m.drain_stop hn hc, m.drain_stop (m.next_append ys hn) (by rw [ht]; exact hc), ht, hs]
  | case4 a xs n k hn c hc ih =>
    obtain ⟨ht, hs, hd⟩ := m.next_append_parts ys hn
    rw [m.drain_more hn hc, m.drain_more (m.next_append ys hn) (by rw [ht]; exact hc), ht, hs, hd,
      ih]
    rcases (m.drain c (xs.drop (n + k))).2 with e | ⟨_ | _, b, rest⟩ <;> rfl

/-- Scans from states related by `R` end alike, if related states look for the same tokens and the
action keeps them related. -/
theorem drain_related {R : σ → σ → Prop} (hnext : ∀ {a b} xs, R a b → m.next b xs = m.next a xs)
    (hact : ∀ {a b v a'} xs, R a b → m.act a xs = .ok (v, a') →
      ∃ b', m.act b xs = .ok (v, b') ∧ R a' b') {a b : σ} {xs : List β} (hR : R a b)
    {v : Bool} {c : σ} {rest : List β} (h : (m.drain a xs).2 = .ok (v, c, rest)) :
    ∃ d, (m.drain b xs).2 = .ok (v, d, rest) ∧ R c d := by
  induction a, xs using drain.induct m generalizing b with
  | case1 a xs hn =>
    rw [m.drain_none hn] at h
    obtain ⟨rfl, rfl, rfl⟩ : true = v ∧ a = c ∧ xs = rest := by simpa using h
    exact ⟨b, by rw [m.drain_none ((hnext xs hR).trans hn)], hR⟩
  | case2 a xs n k hn e he => simp [m.drain_error hn he] at h
  | case3 a xs n k hn c' hc =>
    rw [m.drain_stop hn hc] at h
    obtain ⟨rfl, rfl, rfl⟩ : false = v ∧ c' = c ∧ xs = rest := by simpa using h
    obtain ⟨d, hd, hR'⟩ := hact _ hR hc
    exact ⟨d, by rw [m.drain_stop ((hnext xs hR).trans hn) hd], hR'⟩
  | case4 a xs n k hn c' hc ih =>
    rw [m.drain_more hn hc] at h
    obtain ⟨d, hd, hR'⟩ := hact _ hR hc
    obtain ⟨d', hd', hR''⟩ := ih hR' h
    exact ⟨d', by rw [m.drain_more ((hnext xs hR).trans hn) hd, hd'], hR''⟩

/-- What every action keeps holds at the end of a scan. -/
theorem drain_keeps {P : σ → Prop} (hact : ∀ {a b chunk v}, P a → m.act a chunk = .ok (v, b) → P b)
    {a b : σ} {xs rest : List β} {v : Bool} (ha : P a) (h : (m.drain a xs).2 = .ok (v, b, rest)) :
    P b := by
  induction a, xs using drain.induct m with
  | case1 a xs hn =>
    rw [m.drain_none hn] at h
    obtain ⟨-, rfl, -⟩ : true = v ∧ a = b ∧ xs = rest := by simpa using h
    exact ha
  | case2 a xs n k hn e he => simp [m.drain_error hn he] at h
  | case3 a xs n k hn c hc =>
    rw [m.drain_stop hn hc] at h
    obtain ⟨-, rfl, -⟩ : false = v ∧ c = b ∧ xs = rest := by simpa using h
    exact hact ha hc
  | case4 a xs n k hn c hc ih =>
    rw [m.drain_more hn hc] at h
    exact ih (hact ha hc) h

/-- `P` holds of every state in which the scan of `xs` looks for a token. -/
inductive Along (P : σ → Prop) : σ → List β → Prop
  | intro {a : σ} {xs : List β} : P a →
      (∀ {n k b}, m.next a xs = some (n, k) → m.act a (xs.take n) = .ok (true, b) →
        Along P b (xs.drop (n + k))) →
      Along P a xs

/-- The scan passes from `a` on `xs` to `b` on `ys`, over states with `P`. -/
inductive Leads (P : σ → Prop) : σ → List β → σ → List β → Prop
  | refl (a : σ) (xs : List β) : Leads P a xs a xs
  | step {a b c : σ} {xs ys : List β} {n k : ℕ} : P a → m.next a xs = some (n, k) →
      m.act a (xs.take n) = .ok (true, b) → Leads P b (xs.drop (n + k)) c ys → Leads P a xs c ys

section Paths

variable {m} {P : σ → Prop} {a b c : σ} {xs ys zs : List β}

theorem Along.start (h : m.Along P a xs) : P a := by
  cases h with
  | intro ha _ => exact ha

theorem Along.more {n k : ℕ} (h : m.Along P a xs) (hn : m.next a xs = some (n, k))
    (hb : m.act a (xs.take n) = .ok (true, b)) : m.Along P b (xs.drop (n + k)) := by
  cases h with
  | intro _ h => exact h hn hb

theorem Along.of_none (ha : P a) (hn : m.next a xs = none) : m.Along P a xs := by
  apply Along.intro ha
  intro n k b hn'
  simp [hn] at hn'

theorem Along.of_refused {n k : ℕ} {r : Except ε (Bool × σ)} (ha : P a)
    (hn : m.next a xs = some (n, k)) (hr : m.act a (xs.take n) = r)
    (hne : ∀ b, r ≠ .ok (true, b)) : m.Along P a xs := by
  apply Along.intro ha
  intro n' k' b hn' hb
  rw [hn, Option.some.injEq, Prod.mk.injEq] at hn'
  rw [← hn'.1, hr] at hb
  exact absurd hb (hne b)

/-- What every action keeps holds along every scan. -/
theorem Along.of_kept (hk : ∀ {a b chunk}, P a → m.act a chunk = .ok (true, b) → P b) (ha : P a) :
    m.Along P a xs := by
  induction a, xs using drain.induct m with
  | case1 a xs hn => exact .of_none ha hn
  | case2 a xs n k hn e he => exact .of_refused ha hn he (by simp)
  | case3 a xs n k hn c hc => exact .of_refused ha hn hc (by simp)
  | case4 a xs n k hn c hc ih =>
    apply Along.intro ha
    intro n' k' b hn' hb
    obtain ⟨rfl, rfl⟩ : n = n' ∧ k = k' := by simpa [hn] using hn'
    obtain rfl : c = b := by simpa [hc] using hb
    exact ih (hk ha hc)

theorem Along.left (h : m.Along P a (xs ++ ys)) : m.Along P a xs := by
  generalize hzs : xs ++ ys = zs at h
  induction h generalizing xs with
  | intro ha _ ih =>
    subst hzs
    apply Along.intro ha
    intro n k b hn hb
    obtain ⟨ht, _, hd⟩ := m.next_append_parts ys hn
    exact ih (m.next_append ys hn) (by rw [ht]; exact hb) hd.symm

/-- What is scanned of the front leaves a scan of the rest. -/
theorem Along.right {rest : List β} (h : m.Along P a (xs ++ ys))
    (hd : (m.drain a xs).2 = .ok (true, b, rest)) : m.Along P b (rest ++ ys) := by
  induction a, xs using drain.induct m with
  | case1 a xs hn =>
    rw [m.drain_none hn] at hd
    obtain ⟨rfl, rfl⟩ : a = b ∧ xs = rest := by simpa using hd
    exact h
  | case2 a xs n k hn e he => simp [m.drain_error hn he] at hd
  | case3 a xs n k hn c hc => simp [m.drain_stop hn hc] at hd
  | case4 a xs n k hn c hc ih =>
    rw [m.drain_more hn hc] at hd
    obtain ⟨ht, _, hdrop⟩ := m.next_append_parts ys hn
    have hmore := h.more (m.next_append ys hn) (by rw [ht]; exact hc)
    rw [hdrop] at hmore
    exact ih hmore hd

theorem Leads.trans (h : m.Leads P a xs b ys) (h' : m.Leads P b ys c zs) :
    m.Leads P a xs c zs := by
  induction h with
  | refl => exact h'
  | step ha hn hb _ ih => exact .step ha hn hb (ih h')

theorem Leads.drain (h : m.Leads P a xs b ys) : (m.drain a xs).2 = (m.drain b ys).2 := by
  induction h with
  | refl => rfl
  | step _ hn hb _ ih => rw [m.drain_more hn hb, ih]

theorem Leads.along (h : m.Leads P a xs b ys) (hb : m.Along P b ys) : m.Along P a xs := by
  induction h with
  | refl => exact hb
  | step ha hn hb' _ ih =>
    apply Along.intro ha
    intro n' k' c hn' hc
    rw [hn, Option.some.injEq, Prod.mk.injEq] at hn'
    obtain ⟨rfl, rfl⟩ := hn'
    rw [hb', Except.ok.injEq, Prod.mk.injEq] at hc
    rw [← hc.2]
    exact ih hb

end Paths

end Scanner
