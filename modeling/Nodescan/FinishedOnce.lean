import Nodescan.DirtyPass
import Nodescan.Script

/-!
# Sockets that the pass finishes twice

A socket can be finished twice only if it is on both work lists: the triggers that reprocess its
buffer end the connection, and it has timed out. Then the second `socket_finished` no longer finds
its target. Both are decided by what the clock and the callbacks answer when the pass comes to the
socket, and this is the only way the pass goes wrong.
-/

namespace Nodescan

open FaultM EngineM

variable {ω F κ : Type}

section Rounds

variable (acts : Actions F κ) (ct : ConnectedTarget)

/-- Within `fuel` rounds the trigger of the machine answers that the connection ends; before that it
asks for another round. -/
inductive AnswersEnd : ℕ → Lvl4SM F → κ → Prop
  | last {fuel : ℕ} {sm sm' : Lvl4SM F} {k k' : κ} :
      sm.processTrigger acts ct 0 k = .ok (.connectionEnd, sm', k') → AnswersEnd (fuel + 1) sm k
  | again {fuel : ℕ} {sm sm' : Lvl4SM F} {k k' : κ} :
      sm.processTrigger acts ct 0 k = .ok (.canProcessAgain, sm', k') →
      AnswersEnd fuel sm' k' → AnswersEnd (fuel + 1) sm k

/-- Within `fuel` rounds the trigger of the machine comes to no end: it faults, or asks for another
round each time. -/
inductive NoAnswer : ℕ → Lvl4SM F → κ → Prop
  | outOfFuel (sm : Lvl4SM F) (k : κ) : NoAnswer 0 sm k
  | fault {fuel : ℕ} {sm : Lvl4SM F} {k : κ} {f : Fault} :
      sm.processTrigger acts ct 0 k = .error f → NoAnswer (fuel + 1) sm k
  | again {fuel : ℕ} {sm sm' : Lvl4SM F} {k k' : κ} :
      sm.processTrigger acts ct 0 k = .ok (.canProcessAgain, sm', k') →
      NoAnswer fuel sm' k' → NoAnswer (fuel + 1) sm k

variable {acts ct} {fuel : ℕ} {sm : Lvl4SM F} {k : κ}

theorem answersEnd_iff :
    AnswersEnd acts ct fuel sm k ↔ ∃ r, sm.processBuffer acts ct fuel k = .ok (false, r) := by
  unfold Lvl4SM.processBuffer
  induction fuel generalizing sm k with
  | zero =>
    constructor
    · rintro ⟨⟩
    · rintro ⟨r, h⟩
      simp [Lvl4SM.processLoop] at h
  | succ fuel ih =>
    rw [Lvl4SM.processLoop]
    rcases ht : sm.processTrigger acts ct 0 k with f | ⟨_ | _ | _, sm', k'⟩
    · constructor
      · rintro (h | ⟨h, -⟩) <;> simp [ht] at h
      · simp
    · constructor
      · rintro (h | ⟨h, -⟩) <;> simp [ht] at h
      · simp
    · dsimp only
      rw [← ih]
      constructor
      · rintro (h | ⟨h, hrest⟩)
        · simp [ht] at h
        · rw [ht] at h
          simp only [Except.ok.injEq, Prod.mk.injEq, true_and] at h
          obtain ⟨rfl, rfl⟩ := h
          exact hrest
      · exact fun hrest => .again ht hrest
    · exact iff_of_true (.last ht) ⟨_, rfl⟩

theorem noAnswer_iff :
    NoAnswer acts ct fuel sm k ↔ ∃ f, sm.processBuffer acts ct fuel k = .error f := by
  unfold Lvl4SM.processBuffer
  induction fuel generalizing sm k with
  | zero => exact iff_of_true (.outOfFuel sm k) ⟨_, rfl⟩
  | succ fuel ih =>
    rw [Lvl4SM.processLoop]
    rcases ht : sm.processTrigger acts ct 0 k with f | ⟨_ | _ | _, sm', k'⟩
    · exact iff_of_true (.fault ht) ⟨_, rfl⟩
    · constructor
      · rintro (_ | h | ⟨h, -⟩) <;> simp [ht] at h
      · simp
    · dsimp only
      rw [← ih]
      constructor
      · rintro (_ | h | ⟨h, hrest⟩)
        · simp [ht] at h
        · rw [ht] at h
          simp only [Except.ok.injEq, Prod.mk.injEq, true_and] at h
          obtain ⟨rfl, rfl⟩ := h
          exact hrest
      · exact fun hrest => .again ht hrest
    · constructor
      · rintro (_ | h | ⟨h, -⟩) <;> simp [ht] at h
      · simp

end Rounds

/-- In the state `e` the socket has timed out: by the clock, or its watch timeout is due and the
callback does not let it go on. -/
inductive OutOfTime (w : World ω F) (cfg : Config F) (ts : ℤ) (s : Fd) (sm : Lvl4SM F)
    (e : Engine ω F) : Prop
  | timeout {n : ℕ} {e₁ : Engine ω F} : (timeoutOfTarget w cfg s).runFrom e = (.ok n, e₁) →
      n ≤ ts - sm.ts → OutOfTime w cfg ts s sm e
  | watch {n : ℕ} {e₁ : Engine ω F} {peer : Target} {o : ω} :
      (timeoutOfTarget w cfg s).runFrom e = (.ok n, e₁) → ts - sm.ts < n →
      cfg.hasWatchTimeout = true → cfg.watchTimeout ≠ 0 → cfg.watchTimeout ≤ ts - sm.watchTs →
      w.getpeername e₁.kernel s e₁.world = (peer, o) →
      (w.callback (.watchTimeout ⟨peer, s⟩) o).1.1 = false → OutOfTime w cfg ts s sm e

variable {w : World ω F} {cfg : Config F} {fuel : ℕ} {e e' e₁ e₂ : Engine ω F} {ts : ℤ} {s : Fd}
  {sm : Lvl4SM F}

theorem hasWatchTimedout_iff {watchTs : ℤ} {out : Bool}
    (h : (hasWatchTimedout w cfg ts s watchTs).runFrom e = (.ok out, e')) :
    out = true ↔ cfg.hasWatchTimeout = true ∧ cfg.watchTimeout ≠ 0 ∧
      cfg.watchTimeout ≤ ts - watchTs ∧
      (w.callback (.watchTimeout ⟨(w.getpeername e.kernel s e.world).1, s⟩)
        (w.getpeername e.kernel s e.world).2).1.1 = false := by
  unfold hasWatchTimedout at h
  by_cases hoff : (!cfg.hasWatchTimeout || cfg.watchTimeout = 0) = true
  · rw [if_pos hoff] at h
    obtain ⟨hout, -⟩ := Prod.mk.inj h
    rw [← Except.ok.inj hout]
    simp only [Bool.or_eq_true, Bool.not_eq_true', decide_eq_true_eq] at hoff
    rcases hoff with hoff | hoff <;> simp [hoff]
  · have hon : cfg.hasWatchTimeout = true ∧ cfg.watchTimeout ≠ 0 := by simpa using hoff
    rw [if_neg hoff] at h
    by_cases hdue : (cfg.watchTimeout : ℤ) ≤ ts - watchTs
    · rw [if_pos hdue] at h
      simp only [runFrom_bind, runFrom_get, ask, callback, note, runFrom_modify,
        runFrom_modifyGet] at h
      cases hgo : (w.callback (.watchTimeout ⟨(w.getpeername e.kernel s e.world).1, s⟩)
        (w.getpeername e.kernel s e.world).2).1.1 with
      | true =>
        rw [hgo] at h
        obtain ⟨hout, -⟩ := Prod.mk.inj h
        rw [← Except.ok.inj hout]
        simp
      | false =>
        rw [hgo] at h
        obtain ⟨hout, -⟩ := Prod.mk.inj h
        rw [← Except.ok.inj hout]
        simp [hon.1, hon.2, hdue]
    · rw [if_neg hdue] at h
      obtain ⟨hout, -⟩ := Prod.mk.inj h
      rw [← Except.ok.inj hout]
      simp [hdue]

theorem hasTimedout_iff {out : Bool} (h : (hasTimedout w cfg ts s sm).runFrom e = (.ok out, e')) :
    out = true ↔ OutOfTime w cfg ts s sm e := by
  obtain ⟨n, e₁, hn, h⟩ := bind_eq_ok.mp h
  have hfirst : ∀ {m e₂}, (timeoutOfTarget w cfg s).runFrom e = (.ok m, e₂) → m = n ∧ e₂ = e₁ := by
    intro m e₂ hm
    have heq := hm.symm.trans hn
    simpa using heq
  by_cases hout : (n : ℤ) ≤ ts - sm.ts
  · rw [if_pos hout] at h
    obtain ⟨hret, -⟩ := Prod.mk.inj h
    exact iff_of_true (Except.ok.inj hret).symm (.timeout hn hout)
  · rw [if_neg hout] at h
    rw [hasWatchTimedout_iff h]
    constructor
    · rintro ⟨hon, hne, hdue, hstop⟩
      exact .watch hn (by omega) hon hne hdue rfl hstop
    · rintro (⟨hm, hle⟩ | ⟨hm, -, hon, hne, hdue, hpeer, hstop⟩)
      · obtain ⟨rfl, rfl⟩ := hfirst hm
        exact absurd hle hout
      · obtain ⟨rfl, rfl⟩ := hfirst hm
        exact ⟨hon, hne, hdue, by rw [hpeer]; exact hstop⟩

/-! The first loop. -/

/-- The first loop over `ss` comes to the valid machine of `s` and checks it in the state `e₁`. -/
def VisitsIn (w : World ω F) (cfg : Config F) (ts : ℤ) (ss : List Fd) (l : WorkLists)
    (e : Engine ω F) (s : Fd) (sm : Lvl4SM F) (e₁ : Engine ω F) : Prop :=
  ∃ before after l₀ e₀, ss = before ++ s :: after ∧
    (inspectAll w cfg ts before l).runFrom e = (.ok l₀, e₀) ∧
    e₀.lvl4Sms[s]? = some sm ∧ sm.valid = true ∧
    e₁ = e₀.modifySm s fun sm => sm.shouldProcessBuffer.2

variable {ss : List Fd} {l l' : WorkLists} {a : Fd}

theorem visitsIn_nil : ¬ VisitsIn w cfg ts [] l e s sm e₁ := by
  rintro ⟨before, after, l₀, e₀, hsplit, -⟩
  simp at hsplit

theorem visitsIn_cons (h : (inspect w cfg ts a l).runFrom e = (.ok l', e')) :
    VisitsIn w cfg ts (a :: ss) l e s sm e₁ ↔
      (s = a ∧ e.lvl4Sms[a]? = some sm ∧ sm.valid = true ∧
        e₁ = e.modifySm a fun sm => sm.shouldProcessBuffer.2) ∨
      VisitsIn w cfg ts ss l' e' s sm e₁ := by
  constructor
  · rintro ⟨before, after, l₀, e₀, hsplit, hr, hm, hv, he⟩
    cases before with
    | nil =>
      obtain ⟨rfl, rfl⟩ := List.cons.inj hsplit
      obtain ⟨-, rfl⟩ := Prod.mk.inj hr
      exact Or.inl ⟨rfl, hm, hv, he⟩
    | cons b before =>
      obtain ⟨rfl, hss⟩ := List.cons.inj hsplit
      obtain ⟨l₁, e₂, hfirst, hr⟩ := bind_eq_ok.mp hr
      obtain ⟨hl, rfl⟩ := Prod.mk.inj (hfirst.symm.trans h)
      obtain rfl := Except.ok.inj hl
      exact Or.inr ⟨before, after, l₀, e₀, hss, hr, hm, hv, he⟩
  · rintro (⟨rfl, hm, hv, he⟩ | ⟨before, after, l₀, e₀, rfl, hr, hm, hv, he⟩)
    · exact ⟨[], ss, l, e, rfl, rfl, hm, hv, he⟩
    · exact ⟨a :: before, after, l₀, e₀, rfl, bind_eq_ok.mpr ⟨l', e', h, hr⟩, hm, hv, he⟩

theorem inspect_adds (h : (inspect w cfg ts a l).runFrom e = (.ok l', e')) :
    (∀ s, s ∈ l'.toProcess ↔ s ∈ l.toProcess ∨
      s = a ∧ ∃ sm, e.lvl4Sms[a]? = some sm ∧ sm.valid = true ∧ sm.reprocess = true) ∧
    ∀ s, s ∈ l'.timeouted ↔ s ∈ l.timeouted ∨
      s = a ∧ ∃ sm, e.lvl4Sms[a]? = some sm ∧ sm.valid = true ∧
        OutOfTime w cfg ts a sm (e.modifySm a fun sm => sm.shouldProcessBuffer.2) := by
  cases hm : e.lvl4Sms[a]? with
  | none =>
    simp only [inspect, runFrom_bind, runFrom_get, hm, runFrom_pure] at h
    obtain ⟨hl, -⟩ := Prod.mk.inj h
    rw [← Except.ok.inj hl]
    simp
  | some sm =>
    by_cases hv : sm.valid = true
    · simp only [inspect, runFrom_bind, runFrom_get, hm, hv, if_true, runFrom_modify] at h
      rcases hr : (hasTimedout w cfg ts a sm).runFrom
        (e.modifySm a fun sm => sm.shouldProcessBuffer.2) with ⟨f | out, e₁⟩
      · simp [hr] at h
      · simp only [hr, runFrom_pure] at h
        obtain ⟨hl, -⟩ := Prod.mk.inj h
        rw [← Except.ok.inj hl]
        have hout := hasTimedout_iff hr
        constructor
        · intro s
          cases hd : sm.reprocess <;> simp [WorkLists.add, Lvl4SM.shouldProcessBuffer, hd, hv]
        · intro s
          simp only [Option.some.injEq, exists_eq_left', hv, true_and, ← hout]
          cases out <;> simp [WorkLists.add]
    · simp only [inspect, runFrom_bind, runFrom_get, hm, hv, Bool.false_eq_true, if_false,
        runFrom_pure] at h
      obtain ⟨hl, -⟩ := Prod.mk.inj h
      rw [← Except.ok.inj hl]
      simp [hv]

theorem inspectAll_adds (h : (inspectAll w cfg ts ss l).runFrom e = (.ok l', e')) :
    (∀ s, s ∈ l'.toProcess ↔ s ∈ l.toProcess ∨
      ∃ sm e₁, VisitsIn w cfg ts ss l e s sm e₁ ∧ sm.reprocess = true) ∧
    ∀ s, s ∈ l'.timeouted ↔ s ∈ l.timeouted ∨
      ∃ sm e₁, VisitsIn w cfg ts ss l e s sm e₁ ∧ OutOfTime w cfg ts s sm e₁ := by
  induction ss generalizing e l with
  | nil =>
    obtain ⟨hl, -⟩ := Prod.mk.inj h
    rw [← Except.ok.inj hl]
    simp [visitsIn_nil]
  | cons a ss ih =>
    obtain ⟨l₁, e₂, hfirst, hrest⟩ := bind_eq_ok.mp h
    obtain ⟨hdirty, hout⟩ := inspect_adds hfirst
    obtain ⟨hdirty', hout'⟩ := ih hrest
    constructor
    · intro s
      rw [hdirty', hdirty, or_assoc]
      refine or_congr_right ?_
      simp only [visitsIn_cons hfirst]
      constructor
      · rintro (⟨rfl, sm, hm, hv, hd⟩ | ⟨sm, e₁, hvisit, hd⟩)
        · exact ⟨sm, _, Or.inl ⟨rfl, hm, hv, rfl⟩, hd⟩
        · exact ⟨sm, e₁, Or.inr hvisit, hd⟩
      · rintro ⟨sm, e₁, ⟨rfl, hm, hv, -⟩ | hvisit, hd⟩
        · exact Or.inl ⟨rfl, sm, hm, hv, hd⟩
        · exact Or.inr ⟨sm, e₁, hvisit, hd⟩
    · intro s
      rw [hout', hout, or_assoc]
      refine or_congr_right ?_
      simp only [visitsIn_cons hfirst]
      constructor
      · rintro (⟨rfl, sm, hm, hv, ho⟩ | ⟨sm, e₁, hvisit, ho⟩)
        · exact ⟨sm, _, Or.inl ⟨rfl, hm, hv, rfl⟩, ho⟩
        · exact ⟨sm, e₁, Or.inr hvisit, ho⟩
      · rintro ⟨sm, e₁, ⟨rfl, hm, hv, rfl⟩ | hvisit, ho⟩
        · exact Or.inl ⟨rfl, sm, hm, hv, ho⟩
        · exact Or.inr ⟨sm, e₁, hvisit, ho⟩

/-- When the pass from `e` comes to the machine of `s`, its buffer is to be processed again. -/
def Dirty (w : World ω F) (cfg : Config F) (e : Engine ω F) (s : Fd) : Prop :=
  ∃ ts sm e₁, Visits w cfg e ts s sm e₁ ∧ sm.reprocess = true

/-- When the pass from `e` comes to the machine of `s`, it has timed out. -/
def TimesOut (w : World ω F) (cfg : Config F) (e : Engine ω F) (s : Fd) : Prop :=
  ∃ ts sm e₁, Visits w cfg e ts s sm e₁ ∧ OutOfTime w cfg ts s sm e₁

theorem workLists_mem (h : (workLists w cfg).runFrom e = (.ok l, e')) (s : Fd) :
    (s ∈ l.toProcess ↔ Dirty w cfg e s) ∧ (s ∈ l.timeouted ↔ TimesOut w cfg e s) := by
  have hloop : (inspectAll w cfg (w.timestamp e.world).1 e.lvl4Sms.keys ⟨[], [], 0⟩).runFrom
      { e with world := (w.timestamp e.world).2 } = (.ok l, e') := h
  obtain ⟨hdirty, hout⟩ := inspectAll_adds hloop
  rw [hdirty, hout]
  have hvisit : ∀ ts sm e₁, Visits w cfg e ts s sm e₁ ↔ (w.timestamp e.world).1 = ts ∧
      VisitsIn w cfg ts e.lvl4Sms.keys ⟨[], [], 0⟩ { e with world := (w.timestamp e.world).2 }
        s sm e₁ := fun ts sm e₁ => Iff.rfl
  simp [Dirty, TimesOut, hvisit]

/-! The second loop. -/

/-- The second loop turns to `s` in the state `e`; `process_buffer` is called on its machine `sm` in
the state `e₂`. -/
structure Turn (s : Fd) (t : Target) (sm : Lvl4SM F) (e e₂ : Engine ω F) : Prop where
  target : e.socketsTargets[s]? = some t
  host : ∃ hsm, (hostSm t.ipv4).runFrom e = (.ok hsm, e₂)
  machine : e₂.lvl4Sms[s]? = some sm

variable {ended : List Fd} {t : Target}

theorem Turn.run (h : Turn s t sm e e₂) : (reprocess w cfg fuel (s :: ss)).runFrom e =
    match sm.processBuffer (actions w) ⟨t, s⟩ fuel e₂ with
    | .error f => (.error f, e₂)
    | .ok (v, sm', e') =>
      (if v then reprocess w cfg fuel ss
        else do
          socketFinished w cfg s 0
          let ended ← reprocess w cfg fuel ss
          pure (s :: ended)).runFrom { e' with lvl4Sms := e'.lvl4Sms.insert s sm' } := by
  obtain ⟨hsm, hhost⟩ := h.host
  simp only [reprocess, runFrom_bind, targetFromSocket, runFrom_get, h.target, runFrom_pure, hhost,
    onLvl4Sm, h.machine]
  rcases sm.processBuffer (actions w) ⟨t, s⟩ fuel e₂ with f | ⟨v, sm', e'⟩
  · rfl
  · cases v <;> rfl

theorem reprocess_cons_ok : (reprocess w cfg fuel (a :: ss)).runFrom e = (.ok ended, e') ↔
    ∃ p q e₁, (reprocess w cfg fuel [a]).runFrom e = (.ok p, e₁) ∧
      (reprocess w cfg fuel ss).runFrom e₁ = (.ok q, e') ∧ ended = p ++ q := by
  constructor
  · intro h
    obtain ⟨t, e₁, ht, h⟩ := bind_eq_ok.mp h
    obtain ⟨hsm, e₂, hh, h⟩ := bind_eq_ok.mp h
    obtain ⟨v, e₃, hv, h⟩ := bind_eq_ok.mp h
    cases v with
    | true =>
      refine ⟨[], ended, e₃, ?_, h, rfl⟩
      exact bind_eq_ok.mpr ⟨t, e₁, ht, bind_eq_ok.mpr ⟨hsm, e₂, hh, bind_eq_ok.mpr
        ⟨true, e₃, hv, rfl⟩⟩⟩
    | false =>
      obtain ⟨_, e₄, hfin, h⟩ := bind_eq_ok.mp h
      obtain ⟨q, e₅, hq, h⟩ := bind_eq_ok.mp h
      obtain ⟨hended, rfl⟩ := Prod.mk.inj h
      refine ⟨[a], q, e₄, ?_, hq, (Except.ok.inj hended).symm⟩
      exact bind_eq_ok.mpr ⟨t, e₁, ht, bind_eq_ok.mpr ⟨hsm, e₂, hh, bind_eq_ok.mpr
        ⟨false, e₃, hv, bind_eq_ok.mpr ⟨⟨⟩, e₄, hfin, rfl⟩⟩⟩⟩
  · rintro ⟨p, q, e₁', h, hq, rfl⟩
    obtain ⟨t, e₁, ht, h⟩ := bind_eq_ok.mp h
    obtain ⟨hsm, e₂, hh, h⟩ := bind_eq_ok.mp h
    obtain ⟨v, e₃, hv, h⟩ := bind_eq_ok.mp h
    refine bind_eq_ok.mpr ⟨t, e₁, ht, bind_eq_ok.mpr ⟨hsm, e₂, hh, bind_eq_ok.mpr ⟨v, e₃, hv, ?_⟩⟩⟩
    cases v with
    | true =>
      obtain ⟨hp, rfl⟩ := Prod.mk.inj h
      rw [← Except.ok.inj hp]
      exact hq
    | false =>
      obtain ⟨_, e₄, hfin, h⟩ := bind_eq_ok.mp h
      obtain ⟨hp, rfl⟩ := Prod.mk.inj h
      rw [← Except.ok.inj hp]
      exact bind_eq_ok.mpr ⟨⟨⟩, e₄, hfin, bind_eq_ok.mpr ⟨q, e', hq, rfl⟩⟩

theorem reprocess_append_ok {ss' : List Fd} :
    (reprocess w cfg fuel (ss ++ ss')).runFrom e = (.ok ended, e') ↔
      ∃ p q e₁, (reprocess w cfg fuel ss).runFrom e = (.ok p, e₁) ∧
        (reprocess w cfg fuel ss').runFrom e₁ = (.ok q, e') ∧ ended = p ++ q := by
  induction ss generalizing e ended with
  | nil =>
    constructor
    · exact fun h => ⟨[], ended, e, rfl, h, rfl⟩
    · rintro ⟨p, q, e₁, hp, hq, rfl⟩
      obtain ⟨hnil, rfl⟩ := Prod.mk.inj hp
      rw [← Except.ok.inj hnil]
      exact hq
  | cons a ss ih =>
    rw [List.cons_append, reprocess_cons_ok]
    constructor
    · rintro ⟨p, q, e₁, hp, hq, rfl⟩
      obtain ⟨p', q', e₂, hp', hq', rfl⟩ := ih.mp hq
      exact ⟨p ++ p', q', e₂, reprocess_cons_ok.mpr ⟨p, p', e₁, hp, hp', rfl⟩, hq',
        (List.append_assoc _ _ _).symm⟩
    · rintro ⟨p, q, e₂, hp, hq, rfl⟩
      obtain ⟨p, p', e₁, hfirst, hp', rfl⟩ := reprocess_cons_ok.mp hp
      exact ⟨p, p' ++ q, e₁, hfirst, ih.mpr ⟨p', q, e₂, hp', hq, rfl⟩, List.append_assoc _ _ _⟩

theorem turn_of_ok (h : (reprocess w cfg fuel [s]).runFrom e = (.ok ended, e')) :
    ∃ t sm e₂, Turn s t sm e e₂ := by
  obtain ⟨t, e₁, ht, h⟩ := bind_eq_ok.mp h
  obtain ⟨hsm, e₂, hh, h⟩ := bind_eq_ok.mp h
  obtain ⟨v, e₃, hv, -⟩ := bind_eq_ok.mp h
  obtain ⟨rfl, htarget⟩ := (targetFromSocket_spec s).of_ok ht
  cases hm : e₂.lvl4Sms[s]? with
  | none => simp [onLvl4Sm, runFrom_bind, hm] at hv
  | some sm => exact ⟨t, sm, e₂, htarget, ⟨hsm, hh⟩, hm⟩

theorem Turn.answered (h : Turn s t sm e e₂)
    (hr : (reprocess w cfg fuel [s]).runFrom e = (.ok ended, e')) :
    ¬ NoAnswer (actions w) ⟨t, s⟩ fuel sm e₂ ∧
      (s ∈ ended ↔ AnswersEnd (actions w) ⟨t, s⟩ fuel sm e₂) := by
  rw [h.run] at hr
  rw [noAnswer_iff, answersEnd_iff]
  rcases hp : sm.processBuffer (actions w) ⟨t, s⟩ fuel e₂ with f | ⟨_ | _, sm', e₃⟩
  · simp [hp] at hr
  · rw [hp] at hr
    obtain ⟨_, e₄, -, hr⟩ := bind_eq_ok.mp hr
    obtain ⟨hended, -⟩ := Prod.mk.inj hr
    rw [← Except.ok.inj hended]
    simp
  · rw [hp] at hr
    obtain ⟨hended, -⟩ := Prod.mk.inj hr
    rw [← Except.ok.inj hended]
    simp

/-- The second loop over `ss` turns to `s` once it has been through those in front of it. -/
def TurnsIn (w : World ω F) (cfg : Config F) (fuel : ℕ) (ss : List Fd) (e : Engine ω F) (s : Fd)
    (t : Target) (sm : Lvl4SM F) (e₂ : Engine ω F) : Prop :=
  ∃ before after ended e₀, ss = before ++ s :: after ∧
    (reprocess w cfg fuel before).runFrom e = (.ok ended, e₀) ∧ Turn s t sm e₀ e₂

theorem TurnsIn.answered (h : TurnsIn w cfg fuel ss e s t sm e₂)
    (hr : (reprocess w cfg fuel ss).runFrom e = (.ok ended, e')) :
    ¬ NoAnswer (actions w) ⟨t, s⟩ fuel sm e₂ ∧
      (AnswersEnd (actions w) ⟨t, s⟩ fuel sm e₂ → s ∈ ended) := by
  obtain ⟨before, after, ended₀, e₀, rfl, hb, hturn⟩ := h
  obtain ⟨p, q, e₁, hp, hq, rfl⟩ := reprocess_append_ok.mp hr
  obtain ⟨-, rfl⟩ := Prod.mk.inj (hb.symm.trans hp)
  obtain ⟨here, rest, e₃, hhere, -, rfl⟩ := reprocess_cons_ok.mp hq
  obtain ⟨hno, hend⟩ := hturn.answered hhere
  exact ⟨hno, fun h => by simp [hend.mpr h]⟩

theorem mem_ended_iff (hnd : ss.Nodup)
    (hr : (reprocess w cfg fuel ss).runFrom e = (.ok ended, e')) (s : Fd) :
    s ∈ ended ↔ ∃ t sm e₂, TurnsIn w cfg fuel ss e s t sm e₂ ∧
      AnswersEnd (actions w) ⟨t, s⟩ fuel sm e₂ := by
  constructor
  · intro hs
    obtain ⟨before, after, rfl⟩ := List.append_of_mem (((reprocess_spec ss).of_ok hr).1.mem hs)
    obtain ⟨p, q, e₁, hp, hq, rfl⟩ := reprocess_append_ok.mp hr
    obtain ⟨here, rest, e₃, hhere, hrest, rfl⟩ := reprocess_cons_ok.mp hq
    obtain ⟨t, sm, e₂, hturn⟩ := turn_of_ok hhere
    refine ⟨t, sm, e₂, ⟨before, after, p, e₁, rfl, hp, hturn⟩, (hturn.answered hhere).2.mp ?_⟩
    -- the socket comes once, so neither the loop before nor the one after has finished it
    obtain ⟨-, hcons, hdisj⟩ := List.nodup_append.mp hnd
    rcases List.mem_append.mp hs with hmem | hmem
    · exact absurd rfl (hdisj s (((reprocess_spec before).of_ok hp).1.mem hmem) s (by simp))
    rcases List.mem_append.mp hmem with hmem | hmem
    · exact hmem
    · have hafter := ((reprocess_spec after).of_ok hrest).1.mem hmem
      exact absurd hafter (List.nodup_cons.mp hcons).1
  · rintro ⟨t, sm, e₂, hturn, hend⟩
    exact (hturn.answered hr).2 hend

theorem noAnswer_of_stopped (hnd : ss.Nodup) (hreg : ∀ s ∈ ss, s ∈ e.socketsTargets)
    (hvalid : ∀ s ∈ ss, e.validAt s = some true)
    (hr : ∀ ended e', (reprocess w cfg fuel ss).runFrom e ≠ (.ok ended, e')) :
    ∃ s t sm e₂, TurnsIn w cfg fuel ss e s t sm e₂ ∧
      NoAnswer (actions w) ⟨t, s⟩ fuel sm e₂ := by
  induction ss generalizing e with
  | nil => exact absurd rfl (hr [] e)
  | cons a ss ih =>
    obtain ⟨t, ht⟩ := Option.isSome_iff_exists.mp
      (Std.ExtTreeMap.mem_iff_isSome_getElem?.mp (hreg a (by simp)))
    rcases hh : (hostSm t.ipv4).runFrom e with ⟨f' | hsm, e₂⟩
    · exact ((QuietRun.hostSm (w := w) t.ipv4).of_error hh).elim
    have hquiet := (QuietRun.hostSm (w := w) t.ipv4).of_ok hh
    obtain ⟨sm, hm⟩ := Option.isSome_iff_exists.mp (Std.ExtTreeMap.mem_iff_isSome_getElem?.mp
      ((hquiet.mem_lvl4Sms a).mpr (mem_lvl4Sms_of_validAt (hvalid a (by simp)))))
    have hturn : Turn a t sm e e₂ := ⟨ht, ⟨hsm, hh⟩, hm⟩
    rcases hone : (reprocess w cfg fuel [a]).runFrom e with ⟨f' | p, e₃⟩
    · refine ⟨a, t, sm, e₂, ⟨[], ss, [], e, rfl, rfl, hturn⟩, noAnswer_iff.mpr ?_⟩
      -- a registered socket is finished without a fault
      have htrigger := (((reprocess_spec [a]).of_error hone).2 (List.nodup_singleton a)
        (fun s hs => hreg s (by simp_all))).1
      rw [hturn.run] at hone
      rcases hp : sm.processBuffer (actions w) ⟨t, a⟩ fuel e₂ with f₁ | ⟨v, sm', e₄⟩
      · exact ⟨f₁, rfl⟩
      rw [hp] at hone
      cases v with
      | true => simp [reprocess] at hone
      | false =>
        rcases bind_eq_error.mp hone with hfin | ⟨_, e₅, -, hrest⟩
        · rw [((socketFinished_cases a 0).of_error hfin).1] at htrigger
          simp [Fault.inTrigger] at htrigger
        · simp [reprocess] at hrest
    · obtain ⟨hsub, hfin⟩ := (reprocess_spec [a]).of_ok hone
      rw [List.nodup_cons] at hnd
      have hnot : ∀ s ∈ ss, s ∉ p := by
        intro s hs hmem
        rw [List.mem_singleton.mp (hsub.mem hmem)] at hs
        exact hnd.1 hs
      obtain ⟨s, t', sm', e₅, ⟨before, after, q, e₆, rfl, hb, hturn'⟩, hno⟩ := ih hnd.2
        (fun s hs => (hfin.targets s).mpr ⟨hreg s (by simp [hs]), hnot s hs⟩)
        (fun s hs => by rw [hfin.valid, if_neg (hnot s hs)]; exact hvalid s (by simp [hs]))
        (fun q e₄ hrest => hr _ _ (reprocess_cons_ok.mpr ⟨p, q, e₃, hone, hrest, rfl⟩))
      exact ⟨s, t', sm', e₅, ⟨a :: before, after, p ++ q, e₆, rfl,
        reprocess_cons_ok.mpr ⟨p, q, e₃, hone, hb, rfl⟩, hturn'⟩, hno⟩

/-! The pass. -/

/-- The dirty sockets in front of `s`, in the order of the map. -/
structure DirtyBefore (w : World ω F) (cfg : Config F) (e : Engine ω F) (s : Fd)
    (before : List Fd) : Prop where
  sublist : before.Sublist e.lvl4Sms.keys
  mem : ∀ a, a ∈ before ↔ Dirty w cfg e a ∧ a < s

/-- The pass from `e` processes the buffer of the machine `sm` of `s` again, in the state `e₂`: its
first loop is over, and in the second the dirty sockets in front of `s` are. -/
def Reprocesses (w : World ω F) (cfg : Config F) (fuel : ℕ) (e : Engine ω F) (s : Fd) (t : Target)
    (sm : Lvl4SM F) (e₂ : Engine ω F) : Prop :=
  Dirty w cfg e s ∧ ∃ l e₀ before ended e₁, (workLists w cfg).runFrom e = (.ok l, e₀) ∧
    DirtyBefore w cfg e s before ∧ (reprocess w cfg fuel before).runFrom e₀ = (.ok ended, e₁) ∧
    Turn s t sm e₁ e₂

/-- The trigger of `s` answers, when its buffer is processed again, that the connection ends. -/
def Ended (w : World ω F) (cfg : Config F) (fuel : ℕ) (e : Engine ω F) (s : Fd) : Prop :=
  ∃ t sm e₂, Reprocesses w cfg fuel e s t sm e₂ ∧ AnswersEnd (actions w) ⟨t, s⟩ fuel sm e₂

/-- The triggers of some dirty socket come to no end, so the third loop is not reached. -/
def Stops (w : World ω F) (cfg : Config F) (fuel : ℕ) (e : Engine ω F) : Prop :=
  ∃ s t sm e₂, Reprocesses w cfg fuel e s t sm e₂ ∧ NoAnswer (actions w) ⟨t, s⟩ fuel sm e₂

theorem keys_pairwise (m : Std.ExtTreeMap Fd (Lvl4SM F)) : m.keys.Pairwise (· < ·) :=
  m.ordered_keys.imp fun h => compare_lt_iff_lt.mp h

theorem turnsIn_iff (hl : (workLists w cfg).runFrom e = (.ok l, e₁))
    (hsub : l.toProcess.Sublist e.lvl4Sms.keys) :
    TurnsIn w cfg fuel l.toProcess e₁ s t sm e₂ ↔ Reprocesses w cfg fuel e s t sm e₂ := by
  have hmem := fun a => (workLists_mem hl a).1
  have hsorted := (keys_pairwise e.lvl4Sms).sublist hsub
  -- what is in front of `s` in the list is what is dirty and below it
  have hfront : ∀ {before after}, l.toProcess = before ++ s :: after →
      DirtyBefore w cfg e s before := by
    intro before after hsplit
    rw [hsplit] at hsorted hsub
    obtain ⟨-, hs, hlt⟩ := List.pairwise_append.mp hsorted
    refine ⟨(List.sublist_append_left _ _).trans hsub, fun a => ?_⟩
    rw [← hmem, hsplit]
    constructor
    · intro ha
      exact ⟨List.mem_append_left _ ha, hlt a ha s (by simp)⟩
    · rintro ⟨ha, has⟩
      rcases List.mem_append.mp ha with ha | ha
      · exact ha
      · rcases List.mem_cons.mp ha with rfl | ha
        · exact absurd has (lt_irrefl a)
        · exact absurd has (List.rel_of_pairwise_cons hs ha).asymm
  constructor
  · rintro ⟨before, after, ended, e₀, hsplit, hb, hturn⟩
    have hs : s ∈ l.toProcess := by simp [hsplit]
    exact ⟨(hmem s).mp hs, l, e₁, before, ended, e₀, hl, hfront hsplit, hb, hturn⟩
  · rintro ⟨hs, l', e₁', before, ended, e₀, hl', hbefore, hb, hturn⟩
    obtain ⟨-, rfl⟩ := Prod.mk.inj (hl'.symm.trans hl)
    obtain ⟨before', after, hsplit⟩ := List.append_of_mem ((hmem s).mpr hs)
    have hsame : before = before' := by
      have hfront' := hfront hsplit
      have hperm : before.Perm before' := by
        rw [List.perm_ext_iff_of_nodup (e.lvl4Sms.nodup_keys.sublist hbefore.sublist)
          (e.lvl4Sms.nodup_keys.sublist hfront'.sublist)]
        exact fun a => (hbefore.mem a).trans (hfront'.mem a).symm
      exact hperm.eq_of_pairwise' ((keys_pairwise _).sublist hbefore.sublist)
        ((keys_pairwise _).sublist hfront'.sublist)
    exact ⟨before, after, ended, e₀, by rw [hsame, hsplit], hb, hturn⟩

theorem workLists_sublist (h : (workLists w cfg).runFrom e = (.ok l, e')) :
    l.toProcess.Sublist e.lvl4Sms.keys := by
  have hloop : (inspectAll w cfg (w.timestamp e.world).1 e.lvl4Sms.keys ⟨[], [], 0⟩).runFrom
      { e with world := (w.timestamp e.world).2 } = (.ok l, e') := h
  obtain ⟨-, p, q, hi⟩ := (inspectAll_spec _ _ _).of_ok hloop
  rw [hi.toProcess]
  exact hi.processed_sub

/-- From `e` to `r`, `socket_finished` was called at most once for a socket, and no call or lookup
failed to find its target. -/
def FinishedOnce {α : Type} (e : Engine ω F) (r : Except Fault α × Engine ω F) : Prop :=
  (∃ calls, finishCalls r.2.log = calls ++ finishCalls e.log ∧ calls.Nodup) ∧
    ∀ s, r.1 ≠ .error (.targetFromSocket s)

theorem finishedOnce_of_trigger_fault {l : WorkLists} {e₁ e₂ : Engine ω F} {f : Fault}
    (hlive : ∀ s, e.validAt s = some true → s ∈ e.socketsTargets) (hq : Quiet w e e₁)
    (hlisted : Listed e l)
    (hr : (reprocess w cfg fuel l.toProcess).runFrom e₁ = (.error f, e₂)) :
    FinishedOnce (α := ℕ) e (.error f, e₂) := by
  have hfault := (reprocess_spec (w := w) l.toProcess).of_error hr
  have hreg : ∀ s ∈ l.toProcess, s ∈ e₁.socketsTargets := by
    intro s hs
    rw [hq.targets]
    exact hlive s (hlisted.processed_valid s hs)
  obtain ⟨htr, ended, hsub, hcalls⟩ := hfault.2 hlisted.processed_nodup hreg
  refine ⟨⟨ended.reverse, by rw [hcalls, hq.finishCalls], ?_⟩, fun s heq => ?_⟩
  · rw [List.nodup_reverse]
    exact hlisted.processed_nodup.sublist hsub
  · rw [Except.error.inj heq] at htr
    simp [Fault.inTrigger] at htr

/-- A pass that comes to its third loop is right if no socket is both ended and timed out. -/
theorem finishedOnce_iff_disjoint (hlive : ∀ s, e.validAt s = some true → s ∈ e.socketsTargets)
    (hl : (workLists w cfg).runFrom e = (.ok l, e₁))
    (hr : (reprocess w cfg fuel l.toProcess).runFrom e₁ = (.ok ended, e₂)) :
    FinishedOnce e ((processDirtyAndTimeouts w cfg fuel).runFrom e) ↔
      ∀ s ∈ l.timeouted, s ∉ ended := by
  obtain ⟨hq, hlisted⟩ := (workLists_spec (w := w)).of_ok hl
  obtain ⟨hsub, hfin⟩ := (reprocess_spec (w := w) l.toProcess).of_ok hr
  -- the timed out sockets are still registered exactly if none of them was ended
  have hfree : (∀ s ∈ l.timeouted, s ∈ e₂.socketsTargets) ↔ ∀ s ∈ l.timeouted, s ∉ ended := by
    refine forall₂_congr fun s hs => ?_
    have hreg : s ∈ e₁.socketsTargets := by
      rw [hq.targets]
      exact hlive s (hlisted.timeouted_valid s hs)
    rw [hfin.targets]
    exact and_iff_right hreg
  rcases ht : (finishTimeouted w cfg l.timeouted).runFrom e₂ with ⟨f | _, e₃⟩
  · obtain ⟨⟨s, rfl⟩, hnot⟩ := (finishTimeouted_spec (w := w) l.timeouted).of_error ht
    have hrun : (processDirtyAndTimeouts w cfg fuel).runFrom e =
        (.error (.targetFromSocket s), e₃) := by
      simp only [processDirtyAndTimeouts, runFrom_bind, hl, hr, ht]
    rw [hrun]
    constructor
    · intro h
      exact absurd rfl (h.2 s)
    · intro hnone
      exact absurd ⟨hlisted.timeouted_nodup, hfree.mpr hnone⟩ hnot
  · obtain ⟨hfin', hall⟩ := (finishTimeouted_spec (w := w) l.timeouted).of_ok ht
    have hrun : (processDirtyAndTimeouts w cfg fuel).runFrom e = (.ok l.nValid, e₃) := by
      simp only [processDirtyAndTimeouts, runFrom_bind, hl, hr, ht, runFrom_pure]
    rw [hrun]
    have hnone := hfree.mp hall
    refine ⟨fun _ => hnone, fun _ => ⟨⟨(ended ++ l.timeouted).reverse, ?_, ?_⟩, by simp⟩⟩
    · rw [hfin'.calls, hfin.calls, hq.finishCalls, List.reverse_append, List.append_assoc]
    · rw [List.nodup_reverse, List.nodup_append]
      refine ⟨hlisted.processed_nodup.sublist hsub, hlisted.timeouted_nodup, ?_⟩
      rintro a ha b hb rfl
      exact hnone a hb ha

/-- The pass finishes every socket at most once exactly if it is stopped in a trigger, or no socket
that has timed out when the first loop comes to it is ended by its trigger in the second. -/
theorem dirtyPass_finishedOnce_iff (w : World ω F) (cfg : Config F) (fuel : ℕ) (e : Engine ω F)
    (hlive : ∀ s, e.validAt s = some true → s ∈ e.socketsTargets) :
    FinishedOnce e ((processDirtyAndTimeouts w cfg fuel).runFrom e) ↔
      Stops w cfg fuel e ∨ ∀ s, ¬ (TimesOut w cfg e s ∧ Ended w cfg fuel e s) := by
  rcases hl : (workLists w cfg).runFrom e with ⟨_ | l, e₁⟩
  · exact ((workLists_spec (w := w)).of_error hl).elim
  obtain ⟨hq, hlisted⟩ := (workLists_spec (w := w)).of_ok hl
  have hturns : ∀ s t sm e₂, TurnsIn w cfg fuel l.toProcess e₁ s t sm e₂ ↔
      Reprocesses w cfg fuel e s t sm e₂ := fun _ _ _ _ => turnsIn_iff hl (workLists_sublist hl)
  rcases hr : (reprocess w cfg fuel l.toProcess).runFrom e₁ with ⟨f | ended, e₂⟩
  · have hrun : (processDirtyAndTimeouts w cfg fuel).runFrom e = (.error f, e₂) := by
      simp only [processDirtyAndTimeouts, runFrom_bind, hl, hr]
    rw [hrun]
    refine iff_of_true (finishedOnce_of_trigger_fault hlive hq hlisted hr) (Or.inl ?_)
    have hstopped : ∃ s t sm e₃, TurnsIn w cfg fuel l.toProcess e₁ s t sm e₃ ∧
        NoAnswer (actions w) ⟨t, s⟩ fuel sm e₃ := by
      refine noAnswer_of_stopped hlisted.processed_nodup (fun s hs => ?_) (fun s hs => ?_)
        (fun ended e' hok => ?_)
      · rw [hq.targets]
        exact hlive s (hlisted.processed_valid s hs)
      · rw [hq.valid]
        exact hlisted.processed_valid s hs
      · simp [hr] at hok
    obtain ⟨s, t, sm, e₃, hturn, hno⟩ := hstopped
    exact ⟨s, t, sm, e₃, (hturns s t sm e₃).mp hturn, hno⟩
  · have hgoes : ¬ Stops w cfg fuel e := by
      rintro ⟨s, t, sm, e₃, hturn, hno⟩
      exact (((hturns s t sm e₃).mpr hturn).answered hr).1 hno
    rw [finishedOnce_iff_disjoint hlive hl hr, or_iff_right hgoes]
    have hended : ∀ s, s ∈ ended ↔ Ended w cfg fuel e s := by
      intro s
      simp only [mem_ended_iff hlisted.processed_nodup hr, hturns, Ended]
    simp only [hended, (workLists_mem hl _).2, not_and]

def idleEngine : Engine Script Unit where
  hostsSms := ∅
  lvl4Sms := (∅ : Std.ExtTreeMap Fd (Lvl4SM Unit)).insert 3
    { Lvl4SM.new 0 with valid := true, reprocess := true, trigger := .size 1 (some ()), buf := [7] }
  socketsTargets := (∅ : Std.ExtTreeMap Fd Target).insert 3 ⟨1, ⟨80, .tcp⟩⟩
  availSocks := 0
  nlaunched := 1
  ndone := 0
  lastTimeStatusDisplay := 0
  kernel := Kernel.empty.connected 3 ⟨1, ⟨80, .tcp⟩⟩
  world := ⟨[], [], [], [], 100, 0⟩
  log := []
  fds_nonneg := by
    intro s hs
    have h3 : 3 = s := by simpa using hs
    rw [← h3]
    decide

theorem idleEngine_live (s : Fd) (h : idleEngine.validAt s = some true) :
    s ∈ idleEngine.socketsTargets := by
  have hmem := mem_lvl4Sms_of_validAt h
  simpa [idleEngine] using hmem

def refuse : (cb : Callback Unit) → cb.Answer × List (Call Unit)
  | .data _ _ chunk => ((false, chunk), [])
  | cb => Script.goOn cb

theorem dirtyPass_finishes_twice :
    (∀ s, idleEngine.validAt s = some true → s ∈ idleEngine.socketsTargets) ∧
      ¬ FinishedOnce idleEngine
        ((processDirtyAndTimeouts (Script.world refuse) (.plain 1) 3).runFrom idleEngine) := by
  refine ⟨idleEngine_live, fun h => h.2 3 ?_⟩
  decide +kernel

/-- Two connections: one has been idle for long, and the buffer of the other, which has just been
heard of, is to be run through a trigger of one byte. -/
def twoEngine : Engine Script Unit where
  hostsSms := ∅
  lvl4Sms := ((∅ : Std.ExtTreeMap Fd (Lvl4SM Unit)).insert 3
    { Lvl4SM.new 0 with
      valid := true
      ts := 100
      reprocess := true
      trigger := .size 1 (some ())
      buf := [7] }).insert 4 { Lvl4SM.new 0 with valid := true }
  socketsTargets := ((∅ : Std.ExtTreeMap Fd Target).insert 3 ⟨1, ⟨80, .tcp⟩⟩).insert 4
    ⟨2, ⟨80, .tcp⟩⟩
  availSocks := 0
  nlaunched := 2
  ndone := 0
  lastTimeStatusDisplay := 0
  kernel := (Kernel.empty.connected 3 ⟨1, ⟨80, .tcp⟩⟩).connected 4 ⟨2, ⟨80, .tcp⟩⟩
  world := ⟨[], [], [], [], 100, 0⟩
  log := []
  fds_nonneg := by
    intro s hs
    have h34 : 4 = s ∨ 3 = s := by simpa [or_comm] using hs
    rcases h34 with rfl | rfl <;> decide

theorem twoEngine_live (s : Fd) (h : twoEngine.validAt s = some true) :
    s ∈ twoEngine.socketsTargets := by
  have hmem := mem_lvl4Sms_of_validAt h
  simpa [twoEngine] using hmem

theorem twoEngine_visits {ts : ℤ} {s : Fd} {sm : Lvl4SM Unit} {e₁ : Engine Script Unit}
    (h : Visits (Script.world refuse) (.plain 1) twoEngine ts s sm e₁) :
    ts = 100 ∧ (s = 3 ∧ sm.ts = 100 ∨ s = 4 ∧ sm.reprocess = false) := by
  obtain ⟨rfl, before, after, l, e₀, hkeys, hr, hm, -, -⟩ := h
  have h34 : twoEngine.lvl4Sms.keys = [3, 4] := by decide +kernel
  rw [h34] at hkeys
  refine ⟨rfl, ?_⟩
  match before with
  | [] =>
    obtain ⟨rfl, -⟩ := List.cons.inj hkeys
    obtain ⟨-, rfl⟩ := Prod.mk.inj hr
    left
    have h3 : twoEngine.lvl4Sms[(3 : Fd)]?.map Lvl4SM.ts = some 100 := by decide +kernel
    rw [show twoEngine.lvl4Sms[(3 : Fd)]? = some sm from hm] at h3
    exact ⟨rfl, Option.some.inj h3⟩
  | [a] =>
    obtain ⟨rfl, hrest⟩ := List.cons.inj hkeys
    obtain ⟨rfl, -⟩ := List.cons.inj hrest
    right
    have h4 : ((inspectAll (Script.world refuse) (.plain 1)
        ((Script.world refuse).timestamp twoEngine.world).1 [3] ⟨[], [], 0⟩).runFrom
        { twoEngine with
          world := ((Script.world refuse).timestamp twoEngine.world).2 }).2.lvl4Sms[(4 : Fd)]?.map
            Lvl4SM.reprocess = some false := by decide +kernel
    rw [hr, hm] at h4
    exact ⟨rfl, Option.some.inj h4⟩
  | a :: b :: before => simp at hkeys

/-- One of the two is ended by its trigger and the other one times out. -/
theorem dirtyPass_finishedOnce_two :
    FinishedOnce twoEngine
      ((processDirtyAndTimeouts (Script.world refuse) (.plain 1) 3).runFrom twoEngine) := by
  refine (dirtyPass_finishedOnce_iff _ _ 3 twoEngine twoEngine_live).mpr (Or.inr fun s h => ?_)
  obtain ⟨⟨ts, sm, e₁, hvisit, hout⟩, _, _, _, ⟨⟨ts', sm', e₁', hvisit', hdirty⟩, -⟩, -⟩ := h
  obtain ⟨rfl, hs⟩ := twoEngine_visits hvisit
  obtain ⟨rfl, hs'⟩ := twoEngine_visits hvisit'
  rcases hs' with ⟨rfl, -⟩ | ⟨-, hclean⟩
  · -- the dirty one is too young
    have hts : sm.ts = 100 := by simpa using hs
    rcases hout with ⟨hn, hle⟩ | ⟨-, -, hon, -⟩
    · obtain ⟨hn, -⟩ := Prod.mk.inj hn
      rw [← Except.ok.inj hn, hts] at hle
      simp [Config.plain] at hle
    · simp [Config.plain] at hon
  · simp [hclean] at hdirty

end Nodescan
