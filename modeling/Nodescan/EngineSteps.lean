import Nodescan.AsyncEngine

/-!
# What the functions of the engine do to its registry

Four relations say once what a function can do to the two maps, the open sockets and the counters:
`Quiet` for everything that leaves the registry alone, callbacks included, and `Register`, `Finish`
and `Reopen` for the functions that change it. Every later invariant is proved from these and
does not look into the functions again.
-/

namespace Nodescan

variable {ω F : Type}

/-- Events that leave the registry and the progress counters alone. -/
def Event.isQuiet : Event F → Bool
  | .called (.status _ _) => false
  | .called _ => true
  | .returned _ _ _ => true
  | .hostFinished _ _ _ => true
  | .added _ => true
  | .onAliveSet _ _ => true
  | _ => false

def Event.addedBy : Event F → ℕ
  | .added k => k
  | _ => 0

/-- What the calls of `ensure_available_sockets` have added so far. -/
def added (log : List (Event F)) : ℕ := (log.map Event.addedBy).sum

@[simp] theorem added_cons (ev : Event F) (log : List (Event F)) :
    added (ev :: log) = ev.addedBy + added log := by
  simp [added]

/-- The machine of `s`, as far as whether it is there and valid. -/
def Engine.validAt (e : Engine ω F) (s : Fd) : Option Bool := (e.lvl4Sms[s]?).map Lvl4SM.valid

/-- The machine of `s` is there and asks to be reconnected. -/
def Engine.ReconnectsAt (e : Engine ω F) (s : Fd) : Prop :=
  ∃ sm, e.lvl4Sms[s]? = some sm ∧ sm.reconnect = true

theorem Engine.mem_lvl4Sms_iff (e : Engine ω F) (s : Fd) :
    s ∈ e.lvl4Sms ↔ (e.validAt s).isSome = true := by
  rw [validAt, Option.isSome_map, Std.ExtTreeMap.mem_iff_isSome_getElem?]

structure Quiet (w : World ω F) (e e' : Engine ω F) : Prop where
  targets : e'.socketsTargets = e.socketsTargets
  socks : e'.kernel.socks = e.kernel.socks
  valid : ∀ s, e'.validAt s = e.validAt s
  reconnect : w.NeverReconnects → ∀ s, e'.ReconnectsAt s → e.ReconnectsAt s
  nlaunched : e'.nlaunched = e.nlaunched
  ndone : e'.ndone = e.ndone
  log : ∃ l, e'.log = l ++ e.log ∧ ∀ ev ∈ l, ev.isQuiet = true
  avail : ∃ k, added e'.log = added e.log + k ∧
    (e.availSocks + k < 2 ^ 32 → e'.availSocks = e.availSocks + k)

namespace Quiet

variable {w : World ω F} {e e' e'' : Engine ω F}

/-- An update of the fields that the registry does not use. -/
theorem of_eq (ht : e'.socketsTargets = e.socketsTargets)
    (hk : e'.kernel.socks = e.kernel.socks) (hs : e'.lvl4Sms = e.lvl4Sms)
    (hl : e'.nlaunched = e.nlaunched) (hd : e'.ndone = e.ndone) (hg : e'.log = e.log)
    (ha : e'.availSocks = e.availSocks) : Quiet w e e' where
  targets := ht
  socks := hk
  valid := by simp [Engine.validAt, hs]
  reconnect := by simp [Engine.ReconnectsAt, hs]
  nlaunched := hl
  ndone := hd
  log := ⟨[], by simp [hg]⟩
  avail := ⟨0, by simp [hg], by simp [ha]⟩

theorem refl (e : Engine ω F) : Quiet w e e := of_eq rfl rfl rfl rfl rfl rfl rfl

theorem trans (h : Quiet w e e') (h' : Quiet w e' e'') : Quiet w e e'' where
  targets := h'.targets.trans h.targets
  socks := h'.socks.trans h.socks
  valid := fun s => (h'.valid s).trans (h.valid s)
  reconnect := fun hw s hs => h.reconnect hw s (h'.reconnect hw s hs)
  nlaunched := h'.nlaunched.trans h.nlaunched
  ndone := h'.ndone.trans h.ndone
  log := by
    obtain ⟨l, hl, hq⟩ := h.log
    obtain ⟨l', hl', hq'⟩ := h'.log
    refine ⟨l' ++ l, by rw [hl', hl, List.append_assoc], ?_⟩
    intro ev hev
    rcases List.mem_append.mp hev with hm | hm
    · exact hq' ev hm
    · exact hq ev hm
  avail := by
    obtain ⟨k, hk, ha⟩ := h.avail
    obtain ⟨k', hk', ha'⟩ := h'.avail
    refine ⟨k + k', by omega, ?_⟩
    intro hlt
    have h₁ := ha (by omega)
    have h₂ := ha' (by omega)
    omega

theorem mem_lvl4Sms (h : Quiet w e e') (s : Fd) : s ∈ e'.lvl4Sms ↔ s ∈ e.lvl4Sms := by
  rw [Engine.mem_lvl4Sms_iff, Engine.mem_lvl4Sms_iff, h.valid]

/-- An update of machines that keeps `valid` and does not turn `reconnect` on. -/
theorem modifySm (s : Fd) {f : Lvl4SM F → Lvl4SM F} (hv : ∀ sm, (f sm).valid = sm.valid)
    (hr : w.NeverReconnects → ∀ sm, (f sm).reconnect = true → sm.reconnect = true) :
    Quiet w e (e.modifySm s f) where
  targets := rfl
  socks := rfl
  valid := by
    intro a
    simp only [Engine.validAt, Engine.modifySm, TreeMaps.getElem?_modify]
    split_ifs with h
    · rw [h, Option.map_map]
      congr 1
      funext sm
      exact hv sm
    · rfl
  reconnect := by
    rintro hw a ⟨sm', ha, hsm'⟩
    simp only [Engine.modifySm, TreeMaps.getElem?_modify] at ha
    split_ifs at ha with h
    · obtain ⟨sm, hsm, rfl⟩ := Option.map_eq_some_iff.mp ha
      exact ⟨sm, by rw [h, hsm], hr hw sm hsm'⟩
    · exact ⟨sm', ha, hsm'⟩
  nlaunched := rfl
  ndone := rfl
  log := ⟨[], by simp [Engine.modifySm]⟩
  avail := ⟨0, by simp [Engine.modifySm]⟩

theorem ensureAvailableSockets (n : ℕ) : Quiet w e (e.ensureAvailableSockets n) := by
  unfold Engine.ensureAvailableSockets
  split_ifs with h
  · refine ⟨rfl, rfl, fun _ => rfl, fun _ _ h => h, rfl, rfl,
      ⟨[.added (n - e.availSocks)], rfl, by simp [Event.isQuiet]⟩, n - e.availSocks, ?_, ?_⟩
    · simp [Event.addedBy, Nat.add_comm]
    · intro hlt
      exact Nat.mod_eq_of_lt hlt
  · exact refl e

theorem setOnAlive (ip : UInt32) (a : ℕ) : Quiet w e (e.setOnAlive ip a) := by
  unfold Engine.setOnAlive
  split_ifs
  · exact ⟨rfl, rfl, fun _ => rfl, fun _ _ h => h, rfl, rfl,
      ⟨[.onAliveSet ip a], rfl, by simp [Event.isQuiet]⟩, 0, by simp [Event.addedBy], by simp⟩
  · exact refl e

theorem call {c : Call F} (hc : w.NeverReconnects → c.enablesReconnect = false) :
    Quiet w e (e.call c) := by
  cases c with
  | ensureAvailableSockets n => exact ensureAvailableSockets n
  | setOnAlive ip a => exact setOnAlive ip a
  | onSm s c =>
    refine modifySm s (fun sm => ?_) (fun hw sm hsm => ?_)
    · cases c <;> rfl
    · cases c with
      | setReconnect v =>
        cases v with
        | true => simp [Call.enablesReconnect] at hc; exact absurd hw hc
        | false => simp [Lvl4SM.call, Lvl4SM.setReconnect] at hsm
      | _ => exact hsm

theorem callAll {cs : List (Call F)}
    (hc : w.NeverReconnects → ∀ c ∈ cs, c.enablesReconnect = false) :
    Quiet w e (e.callAll cs) := by
  induction cs generalizing e with
  | nil => exact refl e
  | cons c cs ih =>
    have hfirst : Quiet w e (e.call c) := call (fun hw => hc hw c (by simp))
    exact hfirst.trans (ih (fun hw d hd => hc hw d (by simp [hd])))

theorem log_cons {ev : Event F} (h : ev.isQuiet = true) (ha : ev.addedBy = 0) :
    Quiet w e { e with log := ev :: e.log } :=
  ⟨rfl, rfl, fun _ => rfl, fun _ _ h => h, rfl, rfl, ⟨[ev], rfl, by simp [h]⟩, 0,
    by simp [ha], by simp⟩

/-- Put back a machine that was worked on. -/
theorem insertSm (h : Quiet w e e') {s : Fd} {sm sm' : Lvl4SM F} (hs : e.lvl4Sms[s]? = some sm)
    (hv : sm'.valid = sm.valid)
    (hr : w.NeverReconnects → sm'.reconnect = true → sm.reconnect = true) :
    Quiet w e { e' with lvl4Sms := e'.lvl4Sms.insert s sm' } where
  targets := h.targets
  socks := h.socks
  valid := by
    intro a
    simp only [Engine.validAt, TreeMaps.getElem?_insert]
    split_ifs with heq
    · rw [heq, hs, Option.map_some, Option.map_some, hv]
    · exact h.valid a
  reconnect := by
    rintro hw a ⟨sm₁, ha, hsm₁⟩
    simp only [TreeMaps.getElem?_insert] at ha
    split_ifs at ha with heq
    · exact ⟨sm, by rw [heq, hs], hr hw (by rwa [Option.some.inj ha])⟩
    · exact h.reconnect hw a ⟨sm₁, ha, hsm₁⟩
  nlaunched := h.nlaunched
  ndone := h.ndone
  log := h.log
  avail := h.avail

end Quiet

open FaultM EngineM

variable {w : World ω F} {cfg : Config F} {e : Engine ω F} {α : Type}

/-- `_hosts_sms[ip]` makes an entry where there is none. -/
theorem hostSm_insertIfNew (ip : UInt32) :
    Runs (hostSm (ω := ω) (F := F) ip) e
      (fun _ e' => e' = { e with hostsSms := e.hostsSms.insertIfNew ip .new })
      (fun _ _ => False) := by
  unfold hostSm
  apply Runs.read
  cases h : e.hostsSms[ip]? with
  | some hsm =>
    simp only [TreeMaps.insertIfNew_of_mem _ _ _ (TreeMaps.mem_of_getElem? h)]
    exact rfl
  | none =>
    simp only [TreeMaps.insertIfNew_of_not_mem _ _ _ (TreeMaps.not_mem_of_getElem? h)]
    exact rfl

/-- `x` returns, and leaves the registry alone. -/
def QuietRun (w : World ω F) (x : EngineM ω F α) (e : Engine ω F) : Prop :=
  Runs x e (fun _ e' => Quiet w e e') (fun _ _ => False)

namespace QuietRun

theorem bind {β : Type} {x : EngineM ω F α} {f : α → EngineM ω F β} (hx : QuietRun w x e)
    (hf : ∀ a e', Quiet w e e' → QuietRun w (f a) e') : QuietRun w (x >>= f) e := by
  refine Runs.bind hx (fun a e' h => ?_)
  exact (hf a e' h).mono (fun _ _ h' => h.trans h') (fun _ _ h' => h')

theorem ret (a : α) : QuietRun w (pure a : EngineM ω F α) e := Quiet.refl e

theorem update {f : Engine ω F → Engine ω F} (h : Quiet w e (f e)) :
    QuietRun w (modify f : EngineM ω F Unit) e := h

theorem ask (f : ω → α × ω) : QuietRun w (EngineM.ask (F := F) f) e :=
  Quiet.of_eq rfl rfl rfl rfl rfl rfl rfl

theorem note {ev : Event F} (h : ev.isQuiet = true) (ha : ev.addedBy = 0) :
    QuietRun w (EngineM.note ev) e :=
  Quiet.log_cons h ha

theorem callback (cb : Callback F) (h : (Event.called cb).isQuiet = true) :
    QuietRun w (EngineM.callback w cb) e := by
  refine bind (note h rfl) (fun _ e₁ _ => ?_)
  refine Runs.bind (Q := fun r e' => r = (w.callback cb e₁.world).1 ∧ Quiet w e₁ e')
    ⟨rfl, Quiet.of_eq rfl rfl rfl rfl rfl rfl rfl⟩ ?_
  rintro r e₂ ⟨rfl, h₂⟩
  refine (bind (note rfl rfl) (fun _ e₃ _ => ?_)).mono (fun _ _ h => h₂.trans h) (fun _ _ h => h)
  refine bind (update (Quiet.callAll (fun hw c hc => hw cb e₁.world c hc))) (fun _ e₄ _ => ?_)
  exact ret _

theorem hostSm (ip : UInt32) : QuietRun w (EngineM.hostSm (ω := ω) (F := F) ip) e := by
  refine (hostSm_insertIfNew ip).mono (fun _ e' h => ?_) (fun _ _ h => h)
  rw [h]
  exact Quiet.of_eq rfl rfl rfl rfl rfl rfl rfl

theorem updateTs (s : Fd) : QuietRun w (EngineM.updateTs w s) e := by
  refine bind (ask _) (fun now e' _ => ?_)
  exact update (Quiet.modifySm s (fun _ => rfl) (fun _ _ h => h))

theorem callbackFinish (t : Target) (buf : List UInt8) (err : ℤ) :
    QuietRun w (EngineM.callbackFinish w cfg t buf err) e := by
  unfold EngineM.callbackFinish
  by_cases h : cfg.hasFinish = true
  · rw [if_pos h]
    exact callback (.finish t buf err) rfl
  · rw [if_neg h]
    exact ret ()

theorem freeBuffer (s : Fd) :
    QuietRun w (modify (·.modifySm s Lvl4SM.freeBuffer) : EngineM ω F Unit) e :=
  update (Quiet.modifySm s (fun _ => rfl) (fun _ _ h => h))

theorem hostFinished (t : Target) : QuietRun w (EngineM.hostFinished w t) e := by
  refine bind (hostSm _) (fun hsm e₁ _ => ?_)
  refine bind (ask _) (fun r e₂ _ => ?_)
  refine bind (note rfl rfl) (fun _ e₃ _ => ?_)
  refine bind (update (Quiet.of_eq rfl rfl rfl rfl rfl rfl rfl)) (fun _ e₄ _ => ?_)
  split_ifs
  · exact update (Quiet.of_eq rfl rfl rfl rfl rfl rfl rfl)
  · exact ret ()

end QuietRun

theorem targetFromSocket_spec (s : Fd) :
    Runs (targetFromSocket s) e (fun t e' => e' = e ∧ e.socketsTargets[s]? = some t)
      (fun f e' => e' = e ∧ f = .targetFromSocket s ∧ s ∉ e.socketsTargets) := by
  unfold targetFromSocket
  apply Runs.read
  cases h : e.socketsTargets[s]? with
  | some t => exact ⟨rfl, rfl⟩
  | none => exact ⟨rfl, rfl, TreeMaps.not_mem_of_getElem? h⟩

/-- `_lvl4_sms[s]`: the machine of `s`, which is made if it is not there. -/
structure Touch (s : Fd) (sm : Lvl4SM F) (e e' : Engine ω F) : Prop where
  here : e'.lvl4Sms[s]? = some sm
  away : ∀ a, a ≠ s → e'.lvl4Sms[a]? = e.lvl4Sms[a]?
  present : s ∈ e.lvl4Sms → e' = e
  absent : s ∉ e.lvl4Sms → sm.valid = false ∧ sm.reconnect = false
  targets : e'.socketsTargets = e.socketsTargets
  kernel : e'.kernel = e.kernel
  nlaunched : e'.nlaunched = e.nlaunched
  ndone : e'.ndone = e.ndone
  log : e'.log = e.log
  avail : e'.availSocks = e.availSocks

theorem lvl4Sm_spec (s : Fd) :
    Runs (lvl4Sm w s) e (fun sm e' => Touch s sm e e') (fun _ _ => False) := by
  unfold lvl4Sm
  apply Runs.read
  cases h : e.lvl4Sms[s]? with
  | some sm =>
    exact ⟨h, fun _ _ => rfl, fun _ => rfl, fun hn => absurd (TreeMaps.mem_of_getElem? h) hn, rfl,
      rfl, rfl, rfl, rfl, rfl⟩
  | none =>
    refine ⟨by simp, fun a ha => ?_, fun hs => ?_, fun _ => ⟨rfl, rfl⟩, rfl, rfl, rfl, rfl, rfl,
      rfl⟩
    · exact (TreeMaps.getElem?_insert _ _ _ _).trans (if_neg ha)
    · exact absurd hs (TreeMaps.not_mem_of_getElem? h)

theorem Touch.validAt_away {s a : Fd} {sm : Lvl4SM F} {e' : Engine ω F} (h : Touch s sm e e')
    (ha : a ≠ s) : e'.validAt a = e.validAt a := by
  rw [Engine.validAt, Engine.validAt, h.away a ha]

theorem Touch.reconnectsAt {s a : Fd} {sm : Lvl4SM F} {e' : Engine ω F} (h : Touch s sm e e')
    (ha : e'.ReconnectsAt a) : e.ReconnectsAt a := by
  by_cases hs : s ∈ e.lvl4Sms
  · rwa [h.present hs] at ha
  · obtain ⟨sm₁, hsm₁, hr⟩ := ha
    by_cases has : a = s
    · subst has
      rw [h.here] at hsm₁
      have hf := (h.absent hs).2
      rw [Option.some.inj hsm₁, hr] at hf
      exact absurd hf (by simp)
    · exact ⟨sm₁, by rwa [← h.away a has], hr⟩

/-- What `socket_finished` does on a registered socket. -/
structure Finish (w : World ω F) (s : Fd) (e e' : Engine ω F) : Prop where
  registered : s ∈ e.socketsTargets
  targets : e'.socketsTargets = e.socketsTargets.erase s
  socks : e'.kernel.socks = e.kernel.socks.erase s
  valid : ∀ a, e'.validAt a = if a = s then none else e.validAt a
  reconnect : w.NeverReconnects → ∀ a, e'.ReconnectsAt a → e.ReconnectsAt a
  nlaunched : e'.nlaunched = e.nlaunched
  ndone : e'.ndone = e.ndone + 1
  log : ∃ l, e'.log = l ++ .socketFinished s :: e.log ∧ ∀ ev ∈ l, ev.isQuiet = true
  avail : ∃ k, added e'.log = added e.log + k ∧
    (e.availSocks + k + 1 < 2 ^ 32 → e'.availSocks = e.availSocks + k + 1)

theorem freeSocket_getElem? (s a : Fd) :
    (e.freeSocket s).lvl4Sms[a]? = if a = s then none else e.lvl4Sms[a]? :=
  TreeMaps.getElem?_erase e.lvl4Sms s a

/-- Between the count and the release of the socket, everything is quiet. -/
theorem Finish.intro {s : Fd} {sm : Lvl4SM F} {e₁ e₂ : Engine ω F} (hs : s ∈ e.socketsTargets)
    (ht : Touch s sm (e.countFinish s) e₁) (hq : Quiet w e₁ e₂) :
    Finish w s e (e₂.freeSocket s) where
  registered := hs
  targets := by
    change e₂.socketsTargets.erase s = _
    rw [hq.targets, ht.targets]
    rfl
  socks := by
    change e₂.kernel.socks.erase s = _
    rw [hq.socks, ht.kernel]
    rfl
  valid := by
    intro a
    rw [Engine.validAt, freeSocket_getElem?]
    by_cases ha : a = s
    · simp [ha]
    · rw [if_neg ha, if_neg ha]
      exact (hq.valid a).trans (ht.validAt_away ha)
  reconnect := by
    rintro hw a ⟨sm₁, hsm₁, hr⟩
    rw [freeSocket_getElem?] at hsm₁
    split_ifs at hsm₁ with ha
    exact ht.reconnectsAt (hq.reconnect hw a ⟨sm₁, hsm₁, hr⟩)
  nlaunched := hq.nlaunched.trans ht.nlaunched
  ndone := hq.ndone.trans ht.ndone
  log := by
    obtain ⟨l, hl, hquiet⟩ := hq.log
    exact ⟨l, hl.trans (congrArg _ ht.log), hquiet⟩
  avail := by
    obtain ⟨k, hk, ha⟩ := hq.avail
    have hlog : added e₁.log = added e.log := by
      rw [ht.log]
      simp [Engine.countFinish, Event.addedBy]
    have hav : e₁.availSocks = e.availSocks := ht.avail
    refine ⟨k, by rw [← hlog]; exact hk, fun hlt => ?_⟩
    have h₂ := ha (by omega)
    change (e₂.availSocks + 1) % 2 ^ 32 = _
    rw [h₂, hav]
    exact Nat.mod_eq_of_lt hlt

/-- On a registered socket `socket_finished` returns. -/
theorem socketFinished_spec {s : Fd} (hs : s ∈ e.socketsTargets) (err : ℤ) :
    Runs (socketFinished w cfg s err) e (fun _ e' => Finish w s e e') (fun _ _ => False) := by
  unfold socketFinished
  refine Runs.bind (Q := fun _ e' => e' = e.countFinish s) rfl ?_
  rintro _ _ rfl
  refine Runs.bind (Q := fun _ e' => e' = e.countFinish s) ?_ ?_
  · refine (targetFromSocket_spec s).mono (fun _ _ h => h.1) (fun _ _ h => ?_)
    exact absurd hs h.2.2
  rintro t _ rfl
  refine Runs.bind (lvl4Sm_spec s) (fun sm e₁ ht => ?_)
  refine Runs.bind (QuietRun.callbackFinish t sm.buf err) (fun _ e₂ h₂ => ?_)
  refine Runs.bind (QuietRun.freeBuffer (w := w) s) (fun _ e₃ h₃ => ?_)
  refine Runs.bind (QuietRun.hostFinished t) (fun _ e₄ h₄ => ?_)
  exact Finish.intro hs ht ((h₂.trans h₃).trans h₄)

/-- On any other socket its `assert` fails, after the count. -/
theorem socketFinished_absent {s : Fd} (hs : s ∉ e.socketsTargets) (err : ℤ) :
    (socketFinished w cfg s err).runFrom e = (.error (.targetFromSocket s), e.countFinish s) := by
  have hget : (e.countFinish s).socketsTargets[s]? = none :=
    Std.ExtTreeMap.getElem?_eq_none hs
  have ht : (targetFromSocket s).runFrom (e.countFinish s) =
      (.error (.targetFromSocket s), e.countFinish s) := by
    simp only [targetFromSocket, runFrom_bind, runFrom_get, hget, runFrom_throw]
  simp only [socketFinished, runFrom_bind, runFrom_modify, ht]

/-- What the registration of a new socket does. -/
structure Register (n : ℕ) (t : Target) (err : ℤ) (e e' : Engine ω F) : Prop where
  targets : e'.socketsTargets = e.socketsTargets.insertIfNew (n : Fd) t
  socks : e'.kernel.socks = e.kernel.socks.insert (n : Fd) (some t)
  valid : ∀ a, e'.validAt a = if a = n then some true else e.validAt a
  reconnect : ∀ a, e'.ReconnectsAt a → e.ReconnectsAt a
  nlaunched : e'.nlaunched = e.nlaunched
  ndone : e'.ndone = e.ndone
  log : e'.log = .connect n t err :: e.log
  avail : e'.availSocks = e.availSocks - 1

theorem newSm_getElem? {m : Std.ExtTreeMap Fd (Lvl4SM F)} (n a : Fd) (now : ℤ)
    (f : Lvl4SM F → Lvl4SM F) :
    ((m.insertIfNew n (.new now)).modify n f)[a]? =
      if a = n then some (f (m[n]?.getD (.new now))) else m[a]? := by
  rw [TreeMaps.getElem?_modify, TreeMaps.getElem?_insertIfNew, TreeMaps.getElem?_insertIfNew]
  by_cases h : a = n
  · simp [h]
  · simp [h]

/-- The machine of the new socket after `new_lvl4_sm` and the calls on it: the one that is there
under its number, or a new one. -/
def registeredSm (w : World ω F) (cfg : Config F) (n : ℕ) (t : Target) (e : Engine ω F) :
    Lvl4SM F :=
  let now := w.timestamp (w.connect (e.kernel.openSocket n) n t e.world).2
  { (e.lvl4Sms[(n : Fd)]?).getD (.new now.1) with
    valid := true
    funcConnect := cfg.callbackLvl4Connected
    ts := (w.timestamp now.2).1 }

/-- The engine after `register`, field by field. -/
structure RegisterRun (w : World ω F) (cfg : Config F) (n : ℕ) (t : Target) (err : ℤ)
    (e e' : Engine ω F) : Prop where
  machines : ∀ a : Fd, e'.lvl4Sms[a]? =
    if a = n then some (registeredSm w cfg n t e) else e.lvl4Sms[a]?
  kernel : e'.kernel = (e.kernel.openSocket n).connected n t
  targets : e'.socketsTargets = e.socketsTargets.insertIfNew (n : Fd) t
  nlaunched : e'.nlaunched = e.nlaunched
  ndone : e'.ndone = e.ndone
  log : e'.log = .connect n t err :: e.log
  avail : e'.availSocks = e.availSocks - 1

theorem register_run (n : ℕ) (t : Target) :
    Runs (register w cfg n t) e (fun err e' => RegisterRun w cfg n t err e e')
      (fun _ _ => False) := by
  refine ⟨fun a => ?_, rfl, rfl, rfl, rfl, rfl, rfl⟩
  let now : ℤ × ω := w.timestamp (w.connect (e.kernel.openSocket n) n t e.world).2
  let setUp : Lvl4SM F → Lvl4SM F :=
    ({ · with valid := true, funcConnect := cfg.callbackLvl4Connected })
  let stamp : Lvl4SM F → Lvl4SM F := ({ · with ts := (w.timestamp now.2).1 })
  change (((e.lvl4Sms.insertIfNew (n : Fd) (.new now.1)).modify _ setUp).modify _ stamp)[a]? = _
  rw [TreeMaps.getElem?_modify, newSm_getElem?, newSm_getElem?]
  by_cases ha : a = n
  · simp only [ha, if_true]
    rfl
  · simp only [ha, if_false]

theorem RegisterRun.socks {n : ℕ} {t : Target} {err : ℤ} {e' : Engine ω F}
    (h : RegisterRun w cfg n t err e e') :
    e'.kernel.socks = e.kernel.socks.insert (n : Fd) (some t) := by
  rw [h.kernel]
  change (e.kernel.socks.insert (n : Fd) none).insert (n : Fd) (some t) = _
  ext a
  simp only [TreeMaps.getElem?_insert]
  split_ifs <;> rfl

theorem RegisterRun.reconnectsAt {n : ℕ} {t : Target} {err : ℤ} {e' : Engine ω F}
    (h : RegisterRun w cfg n t err e e') {a : Fd} (ha : e'.ReconnectsAt a) :
    e.ReconnectsAt a := by
  obtain ⟨sm, hsm, hr⟩ := ha
  rw [h.machines] at hsm
  by_cases ha : a = n
  · rw [if_pos ha] at hsm
    rw [← Option.some.inj hsm] at hr
    cases hm : e.lvl4Sms[(n : Fd)]? with
    | none => simp [registeredSm, hm, Lvl4SM.new] at hr
    | some sm₀ =>
      refine ⟨sm₀, by rw [ha, hm], ?_⟩
      simpa [registeredSm, hm] using hr
  · rw [if_neg ha] at hsm
    exact ⟨sm, hsm, hr⟩

theorem register_spec (n : ℕ) (t : Target) :
    Runs (register w cfg n t) e (fun err e' => Register n t err e e') (fun _ _ => False) := by
  refine (register_run n t).mono (fun err e' h => ?_) (fun _ _ h => h)
  refine ⟨h.targets, h.socks, fun a => ?_, fun a => h.reconnectsAt, h.nlaunched, h.ndone, h.log,
    h.avail⟩
  rw [Engine.validAt, h.machines]
  by_cases ha : a = n
  · rw [if_pos ha, if_pos ha]
    rfl
  · rw [if_neg ha, if_neg ha]
    rfl

/-- `create_socket`: there is no descriptor to be had, or the socket is registered. -/
theorem createSocket_cases (t : Target) :
    Runs (createSocket w cfg t) e
      (fun r e' => (r = (-1, EBADF) ∧
          (w.socket e.kernel t.port.protocol e.world).1 = none ∧
          e' = { e with world := (w.socket e.kernel t.port.protocol e.world).2 }) ∨
        ∃ n : ℕ, r.1 = n ∧ (n : Fd) ∉ e.kernel.socks ∧ 0 < e.availSocks ∧ Register n t r.2 e e')
      (fun f e' => f = .availSocks ∧ e' = e ∧ e.availSocks = 0) := by
  unfold createSocket
  apply Runs.read
  by_cases ha : e.availSocks = 0
  · rw [if_pos ha]
    exact ⟨rfl, rfl, ha⟩
  · rw [if_neg ha]
    let e₁ : Engine ω F := { e with world := (w.socket e.kernel t.port.protocol e.world).2 }
    refine Runs.bind (Q := fun r e' => e' = e₁ ∧
      r = (w.socket e.kernel t.port.protocol e.world).1) ⟨rfl, rfl⟩ ?_
    rintro r _ ⟨rfl, hr⟩
    cases r with
    | none => exact Or.inl ⟨rfl, hr.symm, rfl⟩
    | some n =>
      have hfresh := w.socket_fresh hr.symm
      refine Runs.bind ((register_spec n t).noFault) ?_
      intro err e' hreg
      exact Or.inr ⟨n, rfl, hfresh, Nat.pos_of_ne_zero ha, ⟨hreg.targets, hreg.socks, hreg.valid,
        hreg.reconnect, hreg.nlaunched, hreg.ndone, hreg.log, hreg.avail⟩⟩

/-- `create_socket` on a kernel that always has a descriptor to give. -/
theorem createSocket_spec (hw : w.SocketsSucceed) (t : Target) :
    Runs (createSocket w cfg t) e
      (fun r e' => ∃ n : ℕ, r.1 = n ∧ (n : Fd) ∉ e.kernel.socks ∧ 0 < e.availSocks ∧
        Register n t r.2 e e')
      (fun f e' => f = .availSocks ∧ e' = e ∧ e.availSocks = 0) := by
  refine (createSocket_cases t).mono (fun r e' h => ?_) (fun _ _ h => h)
  rcases h with ⟨_, hnone, _⟩ | hreg
  · exact absurd hnone (hw _ _ _)
  · exact hreg

/-- What `reconnect` does to the socket `s`, which the kernel replaces by `n`. -/
structure Reopen (s : Fd) (n : ℕ) (t : Target) (e e' : Engine ω F) : Prop where
  registered : e.socketsTargets[s]? = some t
  fresh : (n : Fd) ∉ e.kernel.socks.erase s
  targets : e'.socketsTargets = e.socketsTargets.insertIfNew (n : Fd) t
  socks : e'.kernel.socks = (e.kernel.socks.erase s).insert (n : Fd) (some t)
  valid : ∀ a, e'.validAt a = if a = n then some true else e.validAt a
  log : ∃ err, e'.log = .reconnected s n :: .connect n t err :: e.log

theorem mem_lvl4Sms_of_validAt {s : Fd} {v : Bool} (h : e.validAt s = some v) :
    s ∈ e.lvl4Sms := by
  rw [Engine.mem_lvl4Sms_iff, h]
  rfl

theorem reconnect_spec (hw : w.SocketsSucceed) {s : Fd} {t : Target} (hs : s ∈ e.lvl4Sms)
    (ht : e.socketsTargets[s]? = some t) :
    Runs (reconnect w cfg s t) e (fun _ e' => ∃ n, Reopen s n t e e')
      (fun f _ => f = .availSocks) := by
  unfold reconnect
  refine Runs.bind (Q := fun _ e' => e = e') ?_ ?_
  · refine (lvl4Sm_spec s).mono (fun sm e' h => ?_) (fun _ _ h => h.elim)
    exact (h.present hs).symm
  rintro sm _ rfl
  refine Runs.bind (Runs.update rfl : Runs _ e (fun _ e' =>
    (e.removeConnectedSocket s).closeSocket s = e') _) ?_
  rintro _ _ rfl
  refine Runs.bind ((createSocket_spec hw t).mono (fun _ _ h => h) (fun _ _ h => h.1)) ?_
  rintro ⟨_, err⟩ e₁ ⟨n, rfl, hfresh, _, hreg⟩
  let e₂ : Engine ω F := { e₁ with log := .reconnected s n :: e₁.log }
  refine Runs.bind (Runs.update rfl : Runs _ e₁ (fun _ e' => e₂ = e') _) ?_
  rintro _ _ rfl
  have hn : (n : Fd) ∈ e₁.lvl4Sms := by
    apply mem_lvl4Sms_of_validAt
    rw [hreg.valid, if_pos rfl]
  refine Runs.bind (Q := fun _ e' => e₂ = e') ?_ ?_
  · refine (lvl4Sm_spec (n : Fd)).mono (fun sm e' h => ?_) (fun _ _ h => h.elim)
    exact (h.present hn).symm
  rintro _ _ rfl
  have hq : Quiet w e₂ (e₂.modifySm n (·.setOnConnect sm.funcConnect)) :=
    Quiet.modifySm (n : Fd) (fun _ => rfl) (fun _ _ h => h)
  have hres : Reopen s n t e
      ((e₂.modifySm n (·.setOnConnect sm.funcConnect)).addConnectingSocket n) := by
    refine ⟨ht, hfresh, hreg.targets, ?_, fun a => ?_, err, ?_⟩
    · change (Kernel.epollAdd e₁.kernel n .epollout).socks = _
      rw [Kernel.epollAdd_socks, hreg.socks]
      rfl
    · exact (hq.valid a).trans (hreg.valid a)
    · change .reconnected s n :: e₁.log = _
      rw [hreg.log]
      rfl
  exact ⟨n, hres⟩

theorem ownCalls_reconnect {s : Fd} {cs : List (Call F)}
    (h : ∀ c ∈ cs, c.enablesReconnect = false) {sm : Lvl4SM F}
    (hr : (sm.callAll (ownCalls s cs)).reconnect = true) : sm.reconnect = true := by
  have hown : ∀ c ∈ ownCalls s cs, c ≠ .setReconnect true := by
    intro c hc heq
    obtain ⟨d, hd, hdc⟩ := List.mem_filterMap.mp hc
    cases d with
    | ensureAvailableSockets n => simp at hdc
    | setOnAlive ip a => simp at hdc
    | onSm s' c' =>
      have hcc : c' = c := by
        by_cases hs : s' = s
        · simpa [hs] using hdc
        · simp [hs] at hdc
      have hfalse := h _ hd
      rw [hcc, heq] at hfalse
      simp [Call.enablesReconnect] at hfalse
  generalize ownCalls s cs = own at hown hr
  induction own generalizing sm with
  | nil => exact hr
  | cons c own ih =>
    have hstep := ih (fun d hd => hown d (by simp [hd])) hr
    have hc := hown c (by simp)
    cases c with
    | setReconnect v => cases v <;> simp_all [Lvl4SM.call, Lvl4SM.setReconnect]
    | _ => exact hstep

theorem callAll_valid (sm : Lvl4SM F) (cs : List (SmCall F)) :
    (sm.callAll cs).valid = sm.valid := by
  induction cs generalizing sm with
  | nil => rfl
  | cons c cs ih =>
    have hc : (sm.call c).valid = sm.valid := by cases c <;> rfl
    exact (ih (sm.call c)).trans hc

theorem called_quiet (s : Fd) {cb : Callback F} (h : (Event.called cb).isQuiet = true) :
    Quiet w e (called w s cb e).2 := by
  let r := w.callback cb e.world
  let e₁ : Engine ω F := { e with log := .called cb :: e.log }
  let e₂ : Engine ω F := { e₁ with log := .returned cb (cb.goesOn r.1.1) r.1.2 :: e₁.log }
  have h₁ : Quiet w e e₁ := Quiet.log_cons h rfl
  have h₂ : Quiet w e₁ e₂ := Quiet.log_cons rfl rfl
  have hworld : Quiet w e₂ { e₂ with world := r.2 } := Quiet.of_eq rfl rfl rfl rfl rfl rfl rfl
  refine ((h₁.trans h₂).trans hworld).trans (Quiet.callAll (fun hw c hc => ?_))
  exact hw cb e.world c (List.mem_of_mem_filter hc)

/-- What the trigger callbacks of the machine of `s` keep. -/
theorem actions_kept (s : Fd) (t : Target) (sm : Lvl4SM F) :
    Lvl4SM.Kept (actions w) ⟨t, s⟩ (fun sm' e' => Quiet w e e' ∧ sm'.valid = sm.valid ∧
      (w.NeverReconnects → sm'.reconnect = true → sm.reconnect = true)) where
  buf := fun _ h => h
  data := by
    rintro sm' e' f chunk ⟨hq, hv, hr⟩
    refine ⟨hq.trans (called_quiet s rfl), (callAll_valid _ _).trans hv, fun hw h => hr hw ?_⟩
    exact ownCalls_reconnect (fun c hc => hw _ _ c hc) h
  python := by
    rintro sm' e' obj buf prevPos ⟨hq, hv, hr⟩
    refine ⟨hq.trans (called_quiet s rfl), (callAll_valid _ _).trans hv, fun hw h => hr hw ?_⟩
    exact ownCalls_reconnect (fun c hc => hw _ _ c hc) h

/-- Work on a machine leaves the registry alone, or faults in the trigger. -/
theorem onLvl4Sm_spec (s : Fd) (t : Target)
    {f : Lvl4SM F → Engine ω F → Except Fault (Bool × Lvl4SM F × Engine ω F)}
    (hok : ∀ {I : Lvl4SM F → Engine ω F → Prop} {sm sm' : Lvl4SM F} {e e' : Engine ω F} {v : Bool},
      Lvl4SM.Kept (actions w) ⟨t, s⟩ I → I sm e → f sm e = .ok (v, sm', e') → I sm' e')
    (herr : ∀ {sm : Lvl4SM F} {e : Engine ω F} {fault : Fault},
      f sm e = .error fault → fault.inTrigger = true) :
    Runs (onLvl4Sm s f) e (fun _ e' => Quiet w e e')
      (fun fault e' => e' = e ∧ fault.inTrigger = true) := by
  unfold onLvl4Sm
  apply Runs.read
  cases hs : e.lvl4Sms[s]? with
  | none => exact ⟨rfl, rfl⟩
  | some sm =>
    cases hf : f sm e with
    | error fault =>
      simp only [hf]
      exact ⟨rfl, herr hf⟩
    | ok r =>
      obtain ⟨v, sm', e'⟩ := r
      simp only [hf]
      have hI := hok (actions_kept (w := w) (e := e) s t sm)
        ⟨Quiet.refl e, rfl, fun _ h => h⟩ hf
      exact hI.1.insertSm hs hI.2.1 hI.2.2

theorem onConnect_quiet {s : Fd} (hs : s ∈ e.lvl4Sms) (t : Target) :
    QuietRun w (onConnect w s t) e := by
  unfold onConnect
  refine Runs.bind (Q := fun _ e' => e = e') ?_ ?_
  · exact (lvl4Sm_spec s).mono (fun sm e' h => (h.present hs).symm) (fun _ _ h => h)
  rintro sm _ rfl
  cases sm.funcConnect with
  | none => exact QuietRun.ret false
  | some f => exact QuietRun.callback (.connected f ⟨t, s⟩) rfl

theorem timeoutOfTarget_quiet (s : Fd) : QuietRun w (timeoutOfTarget w cfg s) e := by
  unfold timeoutOfTarget
  apply Runs.read
  refine QuietRun.bind (QuietRun.ask _) (fun peer e₁ _ => ?_)
  by_cases h : cfg.hasTimeoutTarget = true
  · rw [if_pos h]
    exact QuietRun.callback (.timeoutOfTarget peer) rfl
  · rw [if_neg h]
    exact QuietRun.ret _

theorem hasWatchTimedout_quiet (ts : ℤ) (s : Fd) (watchTs : ℤ) :
    QuietRun w (hasWatchTimedout w cfg ts s watchTs) e := by
  unfold hasWatchTimedout
  split_ifs
  · exact QuietRun.ret _
  · apply Runs.read
    refine QuietRun.bind (QuietRun.ask _) (fun peer e₁ _ => ?_)
    refine QuietRun.bind (QuietRun.callback (.watchTimeout ⟨peer, s⟩) rfl)
      (fun goOn e₂ _ => ?_)
    split_ifs
    · exact QuietRun.update (w := w) (Quiet.modifySm s (fun _ => rfl) (fun _ _ h => h))
    · exact QuietRun.ret _
  · exact QuietRun.ret _

theorem hasTimedout_quiet (ts : ℤ) (s : Fd) (sm : Lvl4SM F) :
    QuietRun w (hasTimedout w cfg ts s sm) e := by
  refine QuietRun.bind (timeoutOfTarget_quiet s) (fun timeoutTarget e₁ _ => ?_)
  split_ifs
  · exact QuietRun.ret _
  · exact hasWatchTimedout_quiet ts s _

theorem shouldCallStatusDisplay_quiet : QuietRun w (shouldCallStatusDisplay w cfg) e := by
  unfold shouldCallStatusDisplay
  split_ifs
  · exact QuietRun.ret _
  · refine QuietRun.bind (QuietRun.ask _) (fun now e₁ _ => ?_)
    apply Runs.read
    split_ifs
    · exact Quiet.of_eq rfl rfl rfl rfl rfl rfl rfl
    · exact QuietRun.ret _

end Nodescan
