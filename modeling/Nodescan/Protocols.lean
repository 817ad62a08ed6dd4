import Nodescan.Tokenisation

/-!
# Protocol modules

A protocol module is installed on a connection by its `operator()`, which sets the first trigger;
each handler it puts behind a trigger reads the chunk it is handed, calls the user's callbacks on
parts of it and sets the next trigger. A handler records every use it makes of the chunk, so that
what it reads, writes and passes on can be compared with what it was given.

`Served` are the states of one connection under a module, taken call by call: bytes arrive at any
time and the current trigger is asked at any time until it ends the connection. The loops of
`process_lvl4_data` and `process_buffer`, over any split of the stream, stay inside it.
-/

namespace Nodescan

variable {F κ : Type}

inductive Access
  | read (pos len : ℕ)
  | write (pos : ℕ)
  | pass (pos size : ℕ)
  deriving DecidableEq, Repr

/-- The first position of the chunk that the use leaves behind it. -/
def Access.stop : Access → ℕ
  | .read pos len => pos + len
  | .write pos => pos + 1
  | .pass pos size => pos + size

/-- A callback on a region of the chunk, given by its position and its size. -/
abbrev DataCallback (κ : Type) := ConnectedTarget → List UInt8 → ℕ → ℕ → κ → Bool × κ

structure Handling (F κ : Type) where
  ret : Bool
  chunk : List UInt8
  calls : List (SmCall F)
  accesses : List Access
  state : κ

/-- The same handling, with uses of the chunk made before it. -/
def Handling.after (as : List Access) (h : Handling F κ) : Handling F κ :=
  { h with accesses := as ++ h.accesses }

@[simp] theorem Handling.after_ret (as : List Access) (h : Handling F κ) :
    (h.after as).ret = h.ret := rfl

@[simp] theorem Handling.after_calls (as : List Access) (h : Handling F κ) :
    (h.after as).calls = h.calls := rfl

@[simp] theorem Handling.after_accesses (as : List Access) (h : Handling F κ) :
    (h.after as).accesses = as ++ h.accesses := rfl

@[simp] theorem Handling.after_state (as : List Access) (h : Handling F κ) :
    (h.after as).state = h.state := rfl

/-- `call_cb<def>` on a data callback. -/
def callCb (default : Bool) (cb : Option (DataCallback κ)) (ct : ConnectedTarget)
    (chunk : List UInt8) (pos size : ℕ) (k : κ) : Handling F κ :=
  match cb with
  | none => ⟨default, chunk, [], [], k⟩
  | some f => ⟨(f ct chunk pos size k).1, chunk, [], [.pass pos size], (f ct chunk pos size k).2⟩

@[simp] theorem callCb_calls (default : Bool) (cb : Option (DataCallback κ)) (ct : ConnectedTarget)
    (chunk : List UInt8) (pos size : ℕ) (k : κ) :
    (callCb default cb ct chunk pos size k : Handling F κ).calls = [] := by
  cases cb <;> rfl

theorem callCb_inside {default : Bool} {cb : Option (DataCallback κ)} {ct : ConnectedTarget}
    {chunk : List UInt8} {pos size n : ℕ} {k : κ} :
    (∀ a ∈ (callCb default cb ct chunk pos size k : Handling F κ).accesses, a.stop ≤ n) ↔
      (cb.isSome → pos + size ≤ n) := by
  cases cb <;> simp [callCb, Access.stop]

/-- What a data callback is handed. -/
structure Region where
  pos : ℕ
  size : ℕ
  bytes : List UInt8
  deriving DecidableEq, Repr

def regionAt (chunk : List UInt8) (pos size : ℕ) : Region :=
  ⟨pos, size, (chunk.drop pos).take size⟩

/-- The same callback, with a note taken of each call. -/
def DataCallback.noted {ν : Type} (note : Region → ν) (cb : DataCallback κ) :
    DataCallback (κ × List ν) :=
  fun ct chunk pos size k => ((cb ct chunk pos size k.1).1, (cb ct chunk pos size k.1).2,
    k.2 ++ [note (regionAt chunk pos size)])

/-- The callback is set and answers true to every call. -/
def Accepts (cb : Option (DataCallback κ)) : Prop :=
  ∃ f, cb = some f ∧ ∀ ct chunk pos size k, (f ct chunk pos size k).1 = true

def byteAt (chunk : List UInt8) (pos : ℕ) : UInt8 := chunk.getD pos 0

/-! Big-endian integers of a chunk. -/

def be16At (chunk : List UInt8) (pos : ℕ) : ℕ :=
  256 * (byteAt chunk pos).toNat + (byteAt chunk (pos + 1)).toNat

def be24At (chunk : List UInt8) (pos : ℕ) : ℕ :=
  65536 * (byteAt chunk pos).toNat + be16At chunk (pos + 1)

def be32At (chunk : List UInt8) (pos : ℕ) : ℕ :=
  16777216 * (byteAt chunk pos).toNat + be24At chunk (pos + 1)

def be16 (n : ℕ) : List UInt8 := [UInt8.ofNat (n / 256), UInt8.ofNat n]

def be24 (n : ℕ) : List UInt8 := UInt8.ofNat (n / 65536) :: be16 n

def be32 (n : ℕ) : List UInt8 := UInt8.ofNat (n / 16777216) :: be24 n

@[simp] theorem length_be16 (n : ℕ) : (be16 n).length = 2 := rfl

@[simp] theorem length_be24 (n : ℕ) : (be24 n).length = 3 := rfl

@[simp] theorem length_be32 (n : ℕ) : (be32 n).length = 4 := rfl

theorem byteAt_append (xs ys : List UInt8) (i : ℕ) :
    byteAt (xs ++ ys) (xs.length + i) = byteAt ys i := by
  simp [byteAt, List.getElem?_append_right]

theorem be16At_append (xs ys : List UInt8) (i : ℕ) :
    be16At (xs ++ ys) (xs.length + i) = be16At ys i := by
  simp only [be16At, Nat.add_assoc, byteAt_append]

theorem be24At_append (xs ys : List UInt8) (i : ℕ) :
    be24At (xs ++ ys) (xs.length + i) = be24At ys i := by
  simp only [be24At, Nat.add_assoc, byteAt_append, be16At_append]

theorem be24At_be24 {n : ℕ} (h : n < 16777216) (ys : List UInt8) :
    be24At (be24 n ++ ys) 0 = n := by
  have h0 : byteAt (be24 n ++ ys) 0 = UInt8.ofNat (n / 65536) := rfl
  have h1 : byteAt (be24 n ++ ys) 1 = UInt8.ofNat (n / 256) := rfl
  have h2 : byteAt (be24 n ++ ys) 2 = UInt8.ofNat n := rfl
  simp only [be24At, be16At, h0, Nat.zero_add, h1, h2, UInt8.toNat_ofNat']
  omega

theorem be32At_be32 {n : ℕ} (h : n < 4294967296) (ys : List UInt8) :
    be32At (be32 n ++ ys) 0 = n := by
  have h0 : byteAt (be32 n ++ ys) 0 = UInt8.ofNat (n / 16777216) := rfl
  have h1 : byteAt (be32 n ++ ys) 1 = UInt8.ofNat (n / 65536) := rfl
  have h2 : byteAt (be32 n ++ ys) 2 = UInt8.ofNat (n / 256) := rfl
  have h3 : byteAt (be32 n ++ ys) 3 = UInt8.ofNat n := rfl
  simp only [be32At, be24At, be16At, h0, Nat.zero_add, h1, h2, h3, UInt8.toNat_ofNat']
  omega

theorem ofNat_eq_of_mod {n : ℕ} {b : UInt8} (h : n % 256 = b.toNat) : UInt8.ofNat n = b := by
  apply UInt8.toNat_inj.mp
  rw [UInt8.toNat_ofNat']
  exact h

theorem be24At_lt (xs : List UInt8) (i : ℕ) : be24At xs i < 16777216 := by
  have h₀ := (byteAt xs i).toNat_lt
  have h₁ := (byteAt xs (i + 1)).toNat_lt
  have h₂ := (byteAt xs (i + 1 + 1)).toNat_lt
  simp only [be24At, be16At]
  omega

/-- The three bytes of a length are those that were read. -/
theorem be24_be24At (xs : List UInt8) (i : ℕ) :
    be24 (be24At xs i) = [byteAt xs i, byteAt xs (i + 1), byteAt xs (i + 1 + 1)] := by
  have h₀ := (byteAt xs i).toNat_lt
  have h₁ := (byteAt xs (i + 1)).toNat_lt
  have h₂ := (byteAt xs (i + 1 + 1)).toNat_lt
  simp only [be24, be16, be24At, be16At, List.cons.injEq, and_true]
  refine ⟨ofNat_eq_of_mod ?_, ofNat_eq_of_mod ?_, ofNat_eq_of_mod ?_⟩ <;> omega

theorem be32At_lt (xs : List UInt8) (i : ℕ) : be32At xs i < 4294967296 := by
  have h₀ := (byteAt xs i).toNat_lt
  have h₁ := (byteAt xs (i + 1)).toNat_lt
  have h₂ := (byteAt xs (i + 1 + 1)).toNat_lt
  have h₃ := (byteAt xs (i + 1 + 1 + 1)).toNat_lt
  simp only [be32At, be24At, be16At]
  omega

theorem be32_be32At (xs : List UInt8) (i : ℕ) : be32 (be32At xs i) =
    [byteAt xs i, byteAt xs (i + 1), byteAt xs (i + 1 + 1), byteAt xs (i + 1 + 1 + 1)] := by
  have h₀ := (byteAt xs i).toNat_lt
  have h₁ := (byteAt xs (i + 1)).toNat_lt
  have h₂ := (byteAt xs (i + 1 + 1)).toNat_lt
  have h₃ := (byteAt xs (i + 1 + 1 + 1)).toNat_lt
  simp only [be32, be24, be16, be32At, be24At, be16At, List.cons.injEq, and_true]
  refine ⟨ofNat_eq_of_mod ?_, ofNat_eq_of_mod ?_, ofNat_eq_of_mod ?_, ofNat_eq_of_mod ?_⟩ <;> omega

structure ProtocolModule (F κ : Type) where
  connect : List (SmCall F)
  handle : F → ConnectedTarget → List UInt8 → κ → Handling F κ

/-- One call of a handler: the chunk and the surroundings it found, and its uses of the chunk. -/
structure HandlerCall (F κ : Type) where
  handler : F
  chunk : List UInt8
  state : κ
  accesses : List Access

namespace ProtocolModule

def actions (m : ProtocolModule F κ) : Actions F κ where
  data f ct chunk k :=
    let h := m.handle f ct chunk k
    (⟨h.ret, h.chunk, h.calls⟩, h.state)
  python _ _ _ _ k := (⟨.noMoreToProcess, 0, []⟩, k)

/-- The same actions, with the handler calls recorded in order. -/
def recording (m : ProtocolModule F κ) : Actions F (κ × List (HandlerCall F κ)) where
  data f ct chunk k :=
    let h := m.handle f ct chunk k.1
    (⟨h.ret, h.chunk, h.calls⟩, (h.state, k.2 ++ [⟨f, chunk, k.1, h.accesses⟩]))
  python _ _ _ _ k := (⟨.noMoreToProcess, 0, []⟩, k)

end ProtocolModule

namespace Lvl4SM

/-- The current trigger calls `f` on the first `n` bytes and then pops `pop` of them. -/
def Fires (sm : Lvl4SM F) (prevPos : ℕ) (f : F) (n pop : ℕ) : Prop :=
  (sm.trigger = .size n (some f) ∧ n ≤ sm.buf.length ∧ pop = n) ∨
    ∃ c, sm.trigger = .char c (some f) ∧ findFrom sm.buf prevPos c = some n ∧ pop = n + 1

variable {acts : Actions F κ} {ct : ConnectedTarget}

theorem processTrigger_cases {sm sm' : Lvl4SM F} {k k' : κ} {prevPos : ℕ} {c : ProcessReturnCode}
    (hr : sm.processTrigger acts ct prevPos k = .ok (c, sm', k')) :
    (c = .noMoreToProcess ∧ sm' = sm ∧ k' = k) ∨
      (∃ f n pop, sm.Fires prevPos f n pop ∧ sm.fire acts ct f n pop k = (c, sm', k')) ∨
      ∃ obj, sm.trigger = .python obj := by
  cases ht : sm.trigger with
  | base =>
    simp only [processTrigger, ht, Except.ok.injEq, Prod.mk.injEq] at hr
    exact Or.inl ⟨hr.1.symm, hr.2.1.symm, hr.2.2.symm⟩
  | size n f =>
    simp only [processTrigger, ht, processSize] at hr
    split_ifs at hr with hl
    · simp only [Except.ok.injEq, Prod.mk.injEq] at hr
      exact Or.inl ⟨hr.1.symm, hr.2.1.symm, hr.2.2.symm⟩
    · cases f with
      | none => simp at hr
      | some f =>
        have hfires : sm.Fires prevPos f n n := Or.inl ⟨ht, by omega, rfl⟩
        exact Or.inr (Or.inl ⟨f, n, n, hfires, Except.ok.inj hr⟩)
  | char ch f =>
    simp only [processTrigger, ht, processChar] at hr
    split at hr
    · simp only [Except.ok.injEq, Prod.mk.injEq] at hr
      exact Or.inl ⟨hr.1.symm, hr.2.1.symm, hr.2.2.symm⟩
    · next n hn =>
      cases f with
      | none => simp at hr
      | some f =>
        have hfires : sm.Fires prevPos f n (n + 1) := Or.inr ⟨ch, ht, hn, rfl⟩
        exact Or.inr (Or.inl ⟨f, n, n + 1, hfires, Except.ok.inj hr⟩)
  | python obj => exact Or.inr (Or.inr ⟨obj, rfl⟩)

theorem findFrom_lt {buf : List UInt8} {prevPos n : ℕ} {c : UInt8}
    (h : findFrom buf prevPos c = some n) : n < buf.length := by
  simp only [findFrom, Option.map_eq_some_iff] at h
  obtain ⟨i, hi, rfl⟩ := h
  have hlt := (List.findIdx?_eq_some_iff_findIdx_eq.mp hi).1
  rw [List.length_drop] at hlt
  omega

theorem Fires.le {sm : Lvl4SM F} {prevPos n pop : ℕ} {f : F} (h : sm.Fires prevPos f n pop) :
    n ≤ pop ∧ pop ≤ sm.buf.length := by
  rcases h with ⟨_, hl, hp⟩ | ⟨c, _, hn, hp⟩
  · omega
  · have hlt := findFrom_lt hn
    omega

theorem Fires.length_take {sm : Lvl4SM F} {prevPos n pop : ℕ} {f : F}
    (h : sm.Fires prevPos f n pop) : (sm.buf.take n).length = n := by
  have hle := h.le
  rw [List.length_take]
  omega

theorem fire_cases {sm sm' : Lvl4SM F} {k k' : κ} {f : F} {n pop : ℕ} {c : ProcessReturnCode}
    (hle : n ≤ pop) (hr : sm.fire acts ct f n pop k = (c, sm', k')) :
    sm'.trigger = (sm.callAll (acts.data f ct (sm.buf.take n) k).1.calls).trigger ∧
      k' = (acts.data f ct (sm.buf.take n) k).2 ∧
      (c = .canProcessAgain → (acts.data f ct (sm.buf.take n) k).1.ret = true ∧
        sm'.buf = sm.buf.drop pop) := by
  simp only [fire] at hr
  split_ifs at hr with hret
  · simp only [Prod.mk.injEq] at hr
    obtain ⟨rfl, rfl, rfl⟩ := hr
    exact ⟨rfl, rfl, fun _ => ⟨hret, drop_overwrite _ _ hle⟩⟩
  · simp only [Prod.mk.injEq] at hr
    obtain ⟨rfl, rfl, rfl⟩ := hr
    exact ⟨rfl, rfl, fun h => by simp at h⟩

end Lvl4SM

/-- A trigger that waits for something and has an action for it. -/
def DataTrigger.Armed : DataTrigger F → Prop
  | .size n f => 0 < n ∧ f.isSome
  | .char _ f => f.isSome
  | _ => False

theorem DataTrigger.Armed.tokenising {t : DataTrigger F} (h : t.Armed) : t.Tokenising := by
  cases t with
  | base => trivial
  | size n f => exact h.1
  | char c f => trivial
  | python obj => exact h

theorem act_ne_error {acts : Actions F κ} {ct : ConnectedTarget} {p : Lvl4SM F × κ}
    (h : p.1.trigger.Armed) (chunk : List UInt8) (e : Fault) :
    (scanner acts ct).act p chunk ≠ .error e := by
  cases ht : p.1.trigger with
  | base => simp [scanner, ht]
  | python obj => simp [scanner, ht]
  | size n f =>
    rw [ht] at h
    obtain ⟨f, rfl⟩ := Option.isSome_iff_exists.mp h.2
    simp [scanner, ht]
  | char c f =>
    rw [ht] at h
    obtain ⟨f, rfl⟩ := Option.isSome_iff_exists.mp h
    simp [scanner, ht]

/-- All the actions do to their machine is to set triggers in `T`. -/
def Actions.Sets (acts : Actions F κ) (T : DataTrigger F → Prop) : Prop :=
  ∀ f ct chunk k, ∀ c ∈ (acts.data f ct chunk k).1.calls, ∃ t, c = .setTrigger t ∧ T t

namespace Actions.Sets

variable {acts : Actions F κ} {ct : ConnectedTarget} {T : DataTrigger F → Prop}

theorem callAll {sm : Lvl4SM F} {cs : List (SmCall F)} (hs : T sm.trigger)
    (hc : ∀ c ∈ cs, ∃ t, c = .setTrigger t ∧ T t) : T (sm.callAll cs).trigger := by
  induction cs generalizing sm with
  | nil => exact hs
  | cons c cs ih =>
    obtain ⟨t, rfl, ht⟩ := hc c (by simp)
    have hset : T (sm.setTrigger t).trigger := ht
    exact ih hset (fun d hd => hc d (by simp [hd]))

theorem fire (hT : acts.Sets T) {sm sm' : Lvl4SM F} {k k' : κ} {f : F} {n pop : ℕ}
    {c : ProcessReturnCode} (hle : n ≤ pop) (h : T sm.trigger)
    (hr : sm.fire acts ct f n pop k = (c, sm', k')) : T sm'.trigger := by
  rw [(Lvl4SM.fire_cases hle hr).1]
  exact callAll h (hT f ct _ k)

/-- Actions that only set triggers with an action behind them never fault. -/
theorem drain_ok (hT : acts.Sets DataTrigger.Armed) (p : Lvl4SM F × κ) (xs : List UInt8)
    (hp : p.1.trigger.Armed) : ∃ r, ((scanner acts ct).drain p xs).2 = .ok r := by
  induction p, xs using Scanner.drain.induct (scanner acts ct) with
  | case1 p xs hn => exact ⟨_, by rw [Scanner.drain_none _ hn]⟩
  | case2 p xs n m hn e he => exact absurd he (act_ne_error hp _ e)
  | case3 p xs n m hn c hc => exact ⟨_, by rw [Scanner.drain_stop _ hn hc]⟩
  | case4 p xs n m hn c hc ih =>
    rw [Scanner.drain_more _ hn hc]
    apply ih
    rcases Lvl4SM.act_cases acts ct hc with rfl | ⟨f, rfl⟩
    · exact hp
    · exact callAll hp (hT f ct _ _)

/-- The whole run over the stream, in one scan. -/
theorem feed_drain (hT : acts.Sets DataTrigger.Armed) {sm : Lvl4SM F} {as : List Arrival}
    {fuel : ℕ} (k : κ) (hs : sm.trigger.Armed) (hb : sm.buf = []) (has : ∀ a ∈ as, a ≠ .data [])
    (hfuel : (received as).length < fuel) :
    ∃ v sm' k' rest, feed acts ct fuel as sm k = .ok (v, sm', k') ∧
      ((scanner acts ct).drain (sm.control, k) (received as)).2 =
        .ok (v, (sm'.control, k'), rest) := by
  have hacts : acts.Tokenising := by
    intro f ct chunk k c hc
    obtain ⟨t, rfl, ht⟩ := hT f ct chunk k c hc
    exact ht.tokenising
  have hrun := feed_agrees_drain acts ct fuel as sm k
    (Lvl4SM.tokenisingAlong acts ct hacts _ hs.tokenising) (by rw [hb]; exact next_nil acts ct _)
    has (by simpa [hb] using hfuel)
  obtain ⟨⟨v, q, rest⟩, hd⟩ : ∃ r, ((scanner acts ct).drain (sm.control, k) (received as)).2 =
      .ok r := drain_ok hT _ _ hs
  rw [hb, List.nil_append, hd] at hrun
  rcases hf : feed acts ct fuel as sm k with e | ⟨v', sm', k'⟩
  · rw [hf] at hrun
    exact hrun.elim
  · rw [hf] at hrun
    cases v with
    | true =>
      cases v' with
      | true =>
        obtain ⟨rfl, -⟩ := hrun
        exact ⟨true, sm', k', rest, rfl, hd⟩
      | false => exact hrun.elim
    | false =>
      cases v' with
      | true => exact hrun.elim
      | false =>
        have hq : (sm'.control, k') = q := hrun
        exact ⟨false, sm', k', rest, rfl, by rw [hd, hq]⟩

end Actions.Sets

namespace ProtocolModule

variable {m : ProtocolModule F κ} {ct : ConnectedTarget} {sm : Lvl4SM F} {f : F}

theorem leads_handled {chunk xs ys left : List UInt8} {calls : List (SmCall F)}
    {accesses : List Access} {k k' : κ} (h : Finds sm f chunk xs ys)
    (hh : m.handle f ct chunk k = ⟨true, left, calls, accesses, k'⟩) :
    (scanner m.actions ct).Leads (fun p => p.1.trigger.Tokenising) (sm, k) xs
      (sm.callAll calls, k') ys := by
  have hd : m.actions.data f ct chunk k = (⟨true, left, calls⟩, k') := by
    simp only [actions, hh]
  exact h.leads hd

theorem endsOn_handled {sm' : Lvl4SM F} {chunk xs ys zs left : List UInt8} {calls : List (SmCall F)}
    {accesses : List Access} {k k₁ k' : κ}
    (hl : (scanner m.actions ct).Leads (fun p => p.1.trigger.Tokenising) (sm', k) xs (sm, k₁) ys)
    (h : Finds sm f chunk ys zs)
    (hh : m.handle f ct chunk k₁ = ⟨false, left, calls, accesses, k'⟩) :
    EndsOn m.actions ct sm' k xs k' := by
  have hd : m.actions.data f ct chunk k₁ = (⟨false, left, calls⟩, k') := by
    simp only [actions, hh]
  exact .token hl h hd

theorem leads_recorded {chunk xs ys left : List UInt8} {calls : List (SmCall F)}
    {accesses : List Access} {k k' : κ} {log : List (HandlerCall F κ)}
    (h : Finds sm f chunk xs ys) (hh : m.handle f ct chunk k = ⟨true, left, calls, accesses, k'⟩) :
    (scanner m.recording ct).Leads (fun p => p.1.trigger.Tokenising) (sm, k, log) xs
      (sm.callAll calls, k', log ++ [⟨f, chunk, k, accesses⟩]) ys := by
  have hd : m.recording.data f ct chunk (k, log) =
      (⟨true, left, calls⟩, k', log ++ [⟨f, chunk, k, accesses⟩]) := by
    simp only [recording, hh]
  exact h.leads hd

/-- A scan adds to the record. -/
theorem drain_recorded {p q : Lvl4SM F × κ × List (HandlerCall F κ)} {xs rest : List UInt8}
    {v : Bool} (h : ((scanner m.recording ct).drain p xs).2 = .ok (v, q, rest)) :
    ∃ more, q.2.2 = p.2.2 ++ more := by
  have hact : ∀ {a b : Lvl4SM F × κ × List (HandlerCall F κ)} {chunk v}, p.2.2 <+: a.2.2 →
      (scanner m.recording ct).act a chunk = .ok (v, b) → p.2.2 <+: b.2.2 := by
    intro a b chunk v ha hb
    rcases Lvl4SM.act_cases m.recording ct hb with rfl | ⟨f, rfl⟩
    · exact ha
    · exact ha.trans (List.prefix_append _ _)
  obtain ⟨more, hmore⟩ := Scanner.drain_keeps _ hact (List.prefix_refl _) h
  exact ⟨more, hmore.symm⟩

/-- What a size trigger adds to the record: nothing, or a call on that many bytes first. -/
theorem drain_size {s : ℕ} {k : κ} {log : List (HandlerCall F κ)} {xs rest : List UInt8} {v : Bool}
    {q : Lvl4SM F × κ × List (HandlerCall F κ)} (ht : sm.trigger = .size s (some f)) (hs : 0 < s)
    (h : ((scanner m.recording ct).drain (sm, k, log) xs).2 = .ok (v, q, rest)) :
    q.2.2 = log ∨ ∃ c more, q.2.2 = log ++ c :: more ∧ c.handler = f ∧ c.chunk.length = s := by
  by_cases hl : xs.length < s
  · have hn : (scanner m.recording ct).next (sm, k, log) xs = none := by
      simp only [scanner, ht, ite_eq_right_iff, reduceCtorEq, imp_false]
      omega
    rw [Scanner.drain_none _ hn] at h
    simp only [Except.ok.injEq, Prod.mk.injEq] at h
    exact Or.inl (by rw [← h.2.1])
  · have htake : (xs.take s).length = s := by
      rw [List.length_take]
      omega
    have hfinds : Finds sm f (xs.take s) (xs.take s ++ xs.drop s) (xs.drop s) := by
      apply Finds.size
      · rw [htake, ht]
      · rw [← List.length_pos_iff, htake]
        exact hs
    rw [List.take_append_drop] at hfinds
    apply Or.inr
    rcases hh : m.handle f ct (xs.take s) k with ⟨ret, left, calls, accesses, k'⟩
    cases ret with
    | true =>
      rw [(leads_recorded hfinds hh).drain] at h
      obtain ⟨more, hmore⟩ := drain_recorded h
      refine ⟨⟨f, xs.take s, k, accesses⟩, more, ?_, rfl, htake⟩
      rw [hmore, List.append_assoc]
      rfl
    | false =>
      have hd : m.recording.data f ct (xs.take s) (k, log) =
          (⟨false, left, calls⟩, k', log ++ [⟨f, xs.take s, k, accesses⟩]) := by
        simp only [recording, hh]
      rw [hfinds.drain_stops hd] at h
      simp only [Except.ok.injEq, Prod.mk.injEq] at h
      refine ⟨⟨f, xs.take s, k, accesses⟩, [], ?_, rfl, htake⟩
      rw [← h.2.1]

end ProtocolModule

section Served

variable (acts : Actions F κ) (ct : ConnectedTarget) (sm₀ : Lvl4SM F) (k₀ : κ)

/-- The states of a connection; the flag says whether it goes on. -/
inductive Served : Bool → Lvl4SM F → κ → Prop
  | connect : Served true sm₀ k₀
  | receive {sm : Lvl4SM F} {k : κ} (bytes : List UInt8) :
      Served true sm k → Served true (sm.growBy bytes) k
  | ask {sm sm' : Lvl4SM F} {k k' : κ} {c : ProcessReturnCode} (prevPos : ℕ) :
      Served true sm k → sm.processTrigger acts ct prevPos k = .ok (c, sm', k') →
        Served (c != .connectionEnd) sm' k'

variable {acts ct sm₀ k₀}

theorem Served.processLoop {fuel : ℕ} {sm sm' : Lvl4SM F} {k k' : κ} {prevPos : ℕ} {v : Bool}
    (h : Served acts ct sm₀ k₀ true sm k)
    (hr : sm.processLoop acts ct fuel prevPos k = .ok (v, sm', k')) :
    Served acts ct sm₀ k₀ v sm' k' :=
  Lvl4SM.processLoop_invariant (fun prevPos h ht => Served.ask prevPos h ht) h hr

/-- Any split of the stream into reads, with dirty passes anywhere between them. -/
theorem Served.feed {fuel : ℕ} {as : List Arrival} {sm sm' : Lvl4SM F} {k k' : κ} {v : Bool}
    (h : Served acts ct sm₀ k₀ true sm k) (has : ∀ a ∈ as, a ≠ .data [])
    (hr : feed acts ct fuel as sm k = .ok (v, sm', k')) : Served acts ct sm₀ k₀ v sm' k' := by
  induction as generalizing sm k with
  | nil =>
    simp only [Nodescan.feed, Except.ok.injEq, Prod.mk.injEq] at hr
    obtain ⟨rfl, rfl, rfl⟩ := hr
    exact h
  | cons a as ih =>
    have hstep : ∀ {v₁ sm₁ k₁}, a.process acts ct fuel sm k = .ok (v₁, sm₁, k₁) →
        Served acts ct sm₀ k₀ v₁ sm₁ k₁ := by
      intro v₁ sm₁ k₁ hp
      cases a with
      | pass => exact h.processLoop hp
      | data chunk =>
        have hne : chunk ≠ [] := fun hc => has (.data chunk) (by simp) (by rw [hc])
        have hpos : ¬ ((chunk.length : ℤ) ≤ 0) := by
          have := List.length_pos_iff.mpr hne
          omega
        simp only [Arrival.process, Lvl4SM.processLvl4Data, if_neg hpos, readWhole_bytes] at hp
        exact (h.receive chunk).processLoop hp
    rw [Nodescan.feed] at hr
    cases hp : a.process acts ct fuel sm k with
    | error e => simp [hp] at hr
    | ok r =>
      obtain ⟨v₁, sm₁, k₁⟩ := r
      rw [hp] at hr
      cases v₁ with
      | true => exact ih (hstep hp) (fun b hb => has b (by simp [hb])) hr
      | false =>
        simp only [Except.ok.injEq, Prod.mk.injEq] at hr
        obtain ⟨rfl, rfl, rfl⟩ := hr
        exact hstep hp

/-- What holds on connection and is kept by every read and every call holds all along. -/
theorem Served.invariant {I : Lvl4SM F → κ → Prop} (hc : I sm₀ k₀)
    (hg : ∀ {sm k} bytes, I sm k → I (sm.growBy bytes) k)
    (ha : ∀ {sm sm' k k' c} prevPos, I sm k →
      sm.processTrigger acts ct prevPos k = .ok (c, sm', k') → I sm' k')
    {v : Bool} {sm : Lvl4SM F} {k : κ} (h : Served acts ct sm₀ k₀ v sm k) : I sm k := by
  induction h with
  | connect => exact hc
  | receive bytes _ ih => exact hg bytes ih
  | ask prevPos _ hr ih => exact ha prevPos ih hr

end Served
end Nodescan
