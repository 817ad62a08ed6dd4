import Nodescan.SocketRegistry

/-!
# The callback protocol of a connection

`Stage` says where a connection stands between its `create_socket` and its finish callback, and
`Stage.next` what may come next: `on_connect` first and once, the trigger callbacks only after it
has returned true, nothing but the end with error 0 after a callback has returned false, and
nothing after the finish callback. The engine enforces this through the epoll registrations and the
reprocess flags only, so the invariant ties the stage of a socket to both.
-/

namespace Nodescan

open FaultM EngineM

variable {ω F : Type}

/-- What can happen to the connection of a socket. -/
inductive Signal
  | create
  | onConnect
  | trigger
  | ret (goesOn : Bool)
  | socketFinished
  | finish (err : ℤ)
  deriving DecidableEq, Repr

/-- What an event is for the connection of `s`. The finish callback does not name its socket; it
is for the one that is finishing. -/
def Event.signal (s : Fd) : Event F → Option Signal
  | .connect n _ _ => if n = s then some .create else none
  | .called (.connected _ ct) => if ct.s = s then some .onConnect else none
  | .called (.data _ ct _) => if ct.s = s then some .trigger else none
  | .called (.python _ ct _ _) => if ct.s = s then some .trigger else none
  | .called (.finish _ _ err) => some (.finish err)
  | .returned (.connected _ ct) goesOn _ => if ct.s = s then some (.ret goesOn) else none
  | .returned (.data _ ct _) goesOn _ => if ct.s = s then some (.ret goesOn) else none
  | .returned (.python _ ct _ _) goesOn _ => if ct.s = s then some (.ret goesOn) else none
  | .socketFinished n => if n = s then some .socketFinished else none
  | _ => none

/-- Where the connection of a socket stands. `finishing told` is the time from `socket_finished`
to the finish callback; it is `told` after a callback has returned false. -/
inductive Stage
  | closed
  | connecting
  | asked
  | connected
  | working
  | ending
  | finishing (told : Bool)
  | broken
  deriving DecidableEq, Repr

/-- Without a finish callback to wait for, `socket_finished` is the end. -/
def Stage.next (hasFinish : Bool) : Stage → Signal → Stage
  | .closed, .create => .connecting
  | .connecting, .onConnect => .asked
  | .asked, .ret goesOn => if goesOn then .connected else .ending
  | .connected, .trigger => .working
  | .working, .ret goesOn => if goesOn then .connected else .ending
  | .connecting, .socketFinished => if hasFinish then .finishing false else .closed
  | .connected, .socketFinished => if hasFinish then .finishing false else .closed
  | .ending, .socketFinished => if hasFinish then .finishing true else .closed
  | .finishing told, .finish err => if told && err ≠ 0 then .broken else .closed
  | st, .finish _ => st
  | _, _ => .broken

/-- Between two phases no callback is at work and no end is due. -/
def Stage.betweenPhases : Stage → Bool
  | .closed => true
  | .connecting => true
  | .connected => true
  | _ => false

/-- The stage of `s` after the events of a log. -/
def track (hasFinish : Bool) (s : Fd) : List (Event F) → Stage
  | [] => .closed
  | ev :: l =>
    match ev.signal s with
    | none => track hasFinish s l
    | some sig => (track hasFinish s l).next hasFinish sig

/-- Whether the machine of `s` has been handed out since the socket was made. -/
def handed (s : Fd) : List (Event F) → Bool
  | [] => false
  | ev :: l =>
    match ev.signal s with
    | some .create => false
    | some .onConnect => true
    | _ => handed s l

/-- Whether a call is no call on a machine, or one on a machine that has been handed out. -/
def Call.held (l : List (Event F)) : Call F → Bool
  | .onSm s _ => handed s l
  | .ensureAvailableSockets _ => true
  | .setOnAlive _ _ => true

/-- The callbacks make calls only on machines they were handed a reference to; the engine hands
out no other. -/
def HeldReferences : List (Event F) → Prop
  | [] => True
  | .returned _ _ calls :: l => (∀ c ∈ calls, c.held l = true) ∧ HeldReferences l
  | _ :: l => HeldReferences l

instance HeldReferences.decidable : (l : List (Event F)) → Decidable (HeldReferences l)
  | [] => .isTrue trivial
  | ev :: l =>
    have := HeldReferences.decidable l
    match ev with
    | .returned _ _ _ => inferInstanceAs (Decidable (_ ∧ _))
    | .hostFinished _ _ _ => this
    | .launched _ => this
    | .connect _ _ _ => this
    | .socketFinished _ => this
    | .reconnected _ _ => this
    | .added _ => this
    | .onAliveSet _ _ => this
    | .freeSocks => this
    | .called _ => this

theorem HeldReferences.tail {ev : Event F} {l : List (Event F)} (h : HeldReferences (ev :: l)) :
    HeldReferences l := by
  cases ev with
  | returned cb v calls => exact h.2
  | _ => exact h

variable {b : Bool} {s a : Fd}

theorem track_of_none {ev : Event F} (h : ev.signal s = none) (l : List (Event F)) :
    track b s (ev :: l) = track b s l := by
  rw [track, h]

theorem track_of_some {ev : Event F} {sig : Signal} (h : ev.signal s = some sig)
    (l : List (Event F)) : track b s (ev :: l) = (track b s l).next b sig := by
  rw [track, h]

theorem Stage.next_connecting {st : Stage} {sig : Signal} (h : st.next b sig = .connecting) :
    sig = .create ∨ (st = .connecting ∧ sig ≠ .onConnect) := by
  cases sig with
  | create => exact Or.inl rfl
  | onConnect => cases st <;> simp [Stage.next] at h
  | trigger => cases st <;> simp [Stage.next] at h
  | ret goesOn => cases st <;> cases goesOn <;> simp [Stage.next] at h
  | socketFinished => cases st <;> cases b <;> simp [Stage.next] at h
  | finish err =>
    refine Or.inr ⟨?_, by simp⟩
    cases st with
    | finishing told =>
      rw [Stage.next] at h
      split_ifs at h
    | _ => exact h

theorem not_handed_of_connecting {l : List (Event F)} (h : track b s l = .connecting) :
    handed s l = false := by
  induction l with
  | nil => rfl
  | cons ev l ih =>
    rw [handed]
    cases hsig : ev.signal s with
    | none =>
      rw [track_of_none hsig] at h
      exact ih h
    | some sig =>
      rw [track_of_some hsig] at h
      rcases Stage.next_connecting h with rfl | ⟨hst, hne⟩
      · rfl
      · have hl := ih hst
        cases sig with
        | create => rfl
        | onConnect => exact absurd rfl hne
        | _ => exact hl

theorem track_broken {l l' : List (Event F)} (h : track b s l = .broken) :
    track b s (l' ++ l) = .broken := by
  induction l' with
  | nil => exact h
  | cons ev l' ih =>
    rw [List.cons_append]
    cases hsig : ev.signal s with
    | none => rw [track_of_none hsig, ih]
    | some sig =>
      rw [track_of_some hsig, ih]
      cases sig <;> rfl

/-! The invariant of one socket. -/

/-- The socket `s` is open and its connection stands at `st`. -/
structure Open (b : Bool) (st : Stage) (e : Engine ω F) (s : Fd) : Prop where
  stage : track b s e.log = st
  socket : s ∈ e.kernel.socks
  calm : ∀ sm, e.lvl4Sms[s]? = some sm → sm.reconnect = false

structure Closed (b : Bool) (e : Engine ω F) (s : Fd) : Prop where
  stage : track b s e.log = .closed
  socket : s ∉ e.kernel.socks
  machine : s ∉ e.lvl4Sms
  target : s ∉ e.socketsTargets

/-- A connecting socket is not watched for input, and its machine has nothing to reprocess. -/
structure Connecting (b : Bool) (e : Engine ω F) (s : Fd) : Prop extends
    Open b .connecting e s where
  epoll : e.kernel.epoll[s]? ≠ some .epollin
  clean : ∀ sm, e.lvl4Sms[s]? = some sm → sm.reprocess = false

structure Connected (b : Bool) (e : Engine ω F) (s : Fd) : Prop extends
    Open b .connected e s where
  epoll : e.kernel.epoll[s]? ≠ some .epollout

inductive Settled (b : Bool) (e : Engine ω F) (s : Fd) : Prop
  | closed (h : Closed b e s)
  | connecting (h : Connecting b e s)
  | connected (h : Connected b e s)

theorem Settled.betweenPhases {e : Engine ω F} (h : Settled b e s) :
    (track b s e.log).betweenPhases = true := by
  cases h with
  | closed h => rw [h.stage]; rfl
  | connecting h => rw [h.stage]; rfl
  | connected h => rw [h.stage]; rfl

theorem Settled.of_target {e : Engine ω F} (h : Settled b e s) (hs : s ∈ e.socketsTargets) :
    Open b .connecting e s ∨ Open b .connected e s := by
  cases h with
  | closed h => exact absurd hs h.target
  | connecting h => exact Or.inl h.toOpen
  | connected h => exact Or.inr h.toOpen

theorem Settled.frame {e e' : Engine ω F} (h : Settled b e a)
    (hstage : track b a e'.log = track b a e.log)
    (hsocks : a ∈ e'.kernel.socks ↔ a ∈ e.kernel.socks)
    (hepoll : e'.kernel.epoll[a]? = e.kernel.epoll[a]?)
    (htargets : a ∈ e'.socketsTargets ↔ a ∈ e.socketsTargets)
    (hmachine : ∀ sm', e'.lvl4Sms[a]? = some sm' → ∃ sm, e.lvl4Sms[a]? = some sm ∧
      (sm.reconnect = false → sm'.reconnect = false) ∧
      (track b a e.log = .connecting → sm.reprocess = false → sm'.reprocess = false)) :
    Settled b e' a := by
  have hcalm : (∀ sm, e.lvl4Sms[a]? = some sm → sm.reconnect = false) →
      ∀ sm', e'.lvl4Sms[a]? = some sm' → sm'.reconnect = false := by
    intro hc sm' hsm'
    obtain ⟨sm, hsm, hrec, -⟩ := hmachine sm' hsm'
    exact hrec (hc sm hsm)
  cases h with
  | closed h =>
    refine .closed ⟨hstage.trans h.stage, by rw [hsocks]; exact h.socket, ?_,
      by rw [htargets]; exact h.target⟩
    intro hmem
    obtain ⟨sm', hsm'⟩ := Option.isSome_iff_exists.mp
      (Std.ExtTreeMap.mem_iff_isSome_getElem?.mp hmem)
    obtain ⟨sm, hsm, -⟩ := hmachine sm' hsm'
    exact h.machine (TreeMaps.mem_of_getElem? hsm)
  | connecting h =>
    refine .connecting ⟨⟨hstage.trans h.stage, hsocks.mpr h.socket, hcalm h.calm⟩,
      by rw [hepoll]; exact h.epoll, ?_⟩
    intro sm' hsm'
    obtain ⟨sm, hsm, -, hrep⟩ := hmachine sm' hsm'
    exact hrep h.stage (h.clean sm hsm)
  | connected h =>
    exact .connected ⟨⟨hstage.trans h.stage, hsocks.mpr h.socket, hcalm h.calm⟩,
      by rw [hepoll]; exact h.epoll⟩

/-- From `e` to `e'` the sockets outside `x` kept their stage and their registration, and stayed
settled. -/
structure Apart (b : Bool) (x : Fd → Prop) (e e' : Engine ω F) : Prop where
  held : HeldReferences e'.log → HeldReferences e.log
  others : HeldReferences e'.log → ∀ a, ¬ x a → Settled b e a →
    Settled b e' a ∧ track b a e'.log = track b a e.log ∧
      e'.kernel.epoll[a]? = e.kernel.epoll[a]?

namespace Apart

variable {x y : Fd → Prop} {e e' e'' : Engine ω F}

theorem refl (e : Engine ω F) : Apart b x e e := ⟨fun h => h, fun _ _ _ h => ⟨h, rfl, rfl⟩⟩

theorem trans (h : Apart b x e e') (h' : Apart b x e' e'') : Apart b x e e'' where
  held := fun hh => h.held (h'.held hh)
  others := by
    intro hh a ha hs
    obtain ⟨hs₁, ht₁, he₁⟩ := h.others (h'.held hh) a ha hs
    obtain ⟨hs₂, ht₂, he₂⟩ := h'.others hh a ha hs₁
    exact ⟨hs₂, ht₂.trans ht₁, he₂.trans he₁⟩

theorem of_eq (hlog : e'.log = e.log)
    (hsocks : ∀ a, ¬ x a → (a ∈ e'.kernel.socks ↔ a ∈ e.kernel.socks))
    (hepoll : ∀ a, ¬ x a → e'.kernel.epoll[a]? = e.kernel.epoll[a]?)
    (htargets : ∀ a, ¬ x a → (a ∈ e'.socketsTargets ↔ a ∈ e.socketsTargets))
    (hmachine : ∀ a, ¬ x a → e'.lvl4Sms[a]? = e.lvl4Sms[a]?) : Apart b x e e' where
  held := by rw [hlog]; exact fun h => h
  others := by
    intro _ a ha hs
    refine ⟨?_, by rw [hlog], hepoll a ha⟩
    refine hs.frame (by rw [hlog]) (hsocks a ha) (hepoll a ha) (htargets a ha) ?_
    intro sm' hsm'
    rw [hmachine a ha] at hsm'
    exact ⟨sm', hsm', fun h => h, fun _ h => h⟩

theorem note {ev : Event F}
    (h : ∀ a, ¬ x a → ev.signal a = none ∨ ∃ err, ev.signal a = some (.finish err)) :
    Apart b x e { e with log := ev :: e.log } where
  held := HeldReferences.tail
  others := by
    intro _ a ha hs
    have hstage : track b a (ev :: e.log) = track b a e.log := by
      rcases h a ha with hsig | ⟨err, hsig⟩
      · exact track_of_none hsig _
      · rw [track_of_some hsig]
        cases hs with
        | closed hs => rw [hs.stage]; rfl
        | connecting hs => rw [hs.stage]; rfl
        | connected hs => rw [hs.stage]; rfl
    refine ⟨hs.frame hstage Iff.rfl rfl Iff.rfl ?_, hstage, rfl⟩
    exact fun sm' hsm' => ⟨sm', hsm', fun h => h, fun _ h => h⟩

end Apart

/-! The calls a callback makes. -/

section Calls

variable {e : Engine ω F} {cs : List (Call F)}

theorem callAll_kernel (cs : List (Call F)) (e : Engine ω F) :
    (e.callAll cs).kernel = e.kernel ∧ (e.callAll cs).socketsTargets = e.socketsTargets := by
  induction cs generalizing e with
  | nil => exact ⟨rfl, rfl⟩
  | cons c cs ih =>
    obtain ⟨hk, ht⟩ := ih (e.call c)
    have hc : (e.call c).kernel = e.kernel ∧ (e.call c).socketsTargets = e.socketsTargets := by
      cases c with
      | onSm s d => exact ⟨rfl, rfl⟩
      | ensureAvailableSockets n =>
        simp only [Engine.call, Engine.ensureAvailableSockets]
        split_ifs
        · exact ⟨rfl, rfl⟩
        · exact ⟨rfl, rfl⟩
      | setOnAlive ip a =>
        simp only [Engine.call, Engine.setOnAlive]
        split_ifs
        · exact ⟨rfl, rfl⟩
        · exact ⟨rfl, rfl⟩
    exact ⟨hk.trans hc.1, ht.trans hc.2⟩

theorem callAll_log (cs : List (Call F)) (e : Engine ω F) :
    (∀ a, track b a (e.callAll cs).log = track b a e.log) ∧
      (HeldReferences (e.callAll cs).log → HeldReferences e.log) := by
  induction cs generalizing e with
  | nil => exact ⟨fun _ => rfl, fun h => h⟩
  | cons c cs ih =>
    obtain ⟨ht, hh⟩ := ih (e.call c)
    have hc : (∀ a, track b a (e.call c).log = track b a e.log) ∧
        (HeldReferences (e.call c).log → HeldReferences e.log) := by
      cases c with
      | onSm s d => exact ⟨fun _ => rfl, fun h => h⟩
      | ensureAvailableSockets n =>
        simp only [Engine.call, Engine.ensureAvailableSockets]
        split_ifs
        · exact ⟨fun a => track_of_none rfl _, fun h => h⟩
        · exact ⟨fun _ => rfl, fun h => h⟩
      | setOnAlive ip a =>
        simp only [Engine.call, Engine.setOnAlive]
        split_ifs
        · exact ⟨fun a => track_of_none rfl _, fun h => h⟩
        · exact ⟨fun _ => rfl, fun h => h⟩
    exact ⟨fun a => (ht a).trans (hc.1 a), fun h => hc.2 (hh h)⟩

theorem callAll_machine (hcs : ∀ c ∈ cs, c.enablesReconnect = false) {sm' : Lvl4SM F}
    (h : (e.callAll cs).lvl4Sms[a]? = some sm') :
    ∃ sm, e.lvl4Sms[a]? = some sm ∧ (sm.reconnect = false → sm'.reconnect = false) ∧
      ((∀ d, .onSm a d ∉ cs) → sm' = sm) := by
  induction cs generalizing e with
  | nil => exact ⟨sm', h, fun h => h, fun _ => rfl⟩
  | cons c cs ih =>
    obtain ⟨sm₁, hsm₁, hrec₁, hsame₁⟩ := ih (fun d hd => hcs d (by simp [hd])) h
    have hone : ∃ sm, e.lvl4Sms[a]? = some sm ∧ (sm.reconnect = false → sm₁.reconnect = false) ∧
        ((∀ d, c ≠ .onSm a d) → sm₁ = sm) := by
      cases c with
      | ensureAvailableSockets n =>
        simp only [Engine.call, Engine.ensureAvailableSockets] at hsm₁
        split_ifs at hsm₁
        · exact ⟨sm₁, hsm₁, fun h => h, fun _ => rfl⟩
        · exact ⟨sm₁, hsm₁, fun h => h, fun _ => rfl⟩
      | setOnAlive ip n =>
        simp only [Engine.call, Engine.setOnAlive] at hsm₁
        split_ifs at hsm₁
        · exact ⟨sm₁, hsm₁, fun h => h, fun _ => rfl⟩
        · exact ⟨sm₁, hsm₁, fun h => h, fun _ => rfl⟩
      | onSm s d =>
        simp only [Engine.call, Engine.modifySm, TreeMaps.getElem?_modify] at hsm₁
        by_cases has : a = s
        · rw [if_pos has] at hsm₁
          obtain ⟨sm, hsm, rfl⟩ := Option.map_eq_some_iff.mp hsm₁
          refine ⟨sm, by rw [has, hsm], fun hr => ?_, fun hne => ?_⟩
          · have hd := hcs (.onSm s d) (by simp)
            cases d with
            | setReconnect v =>
              cases v with
              | true => simp [Call.enablesReconnect] at hd
              | false => rfl
            | _ => exact hr
          · exact absurd rfl (by rw [has] at hne; exact hne d)
        · rw [if_neg has] at hsm₁
          exact ⟨sm₁, hsm₁, fun h => h, fun _ => rfl⟩
    obtain ⟨sm, hsm, hrec, hsame⟩ := hone
    refine ⟨sm, hsm, fun hr => hrec₁ (hrec hr), fun hnot => ?_⟩
    rw [hsame₁ (fun d hd => hnot d (by simp [hd])), hsame]
    intro d hd
    exact hnot d (by simp [hd])

end Calls

/-- The socket whose machine a callback is called for. -/
def Callback.socket : Callback F → Option Fd
  | .connected _ ct => some ct.s
  | .data _ ct _ => some ct.s
  | .python _ ct _ _ => some ct.s
  | _ => none

theorem signal_called {cb : Callback F} (h : cb.socket ≠ some a) :
    (Event.called cb).signal a = none ∨ ∃ err, (Event.called cb).signal a = some (.finish err) := by
  cases cb with
  | connected f ct => simpa [Event.signal, Callback.socket] using h
  | data f ct chunk => simpa [Event.signal, Callback.socket] using h
  | python obj ct buf prevPos => simpa [Event.signal, Callback.socket] using h
  | finish t buf err => exact Or.inr ⟨err, rfl⟩
  | _ => exact Or.inl rfl

theorem signal_returned {cb : Callback F} (h : cb.socket ≠ some a) (v : Bool)
    (calls : List (Call F)) : (Event.returned cb v calls).signal a = none := by
  cases cb with
  | connected f ct => simpa [Event.signal, Callback.socket] using h
  | data f ct chunk => simpa [Event.signal, Callback.socket] using h
  | python obj ct buf prevPos => simpa [Event.signal, Callback.socket] using h
  | _ => rfl

/-- The engine after the callback `cb` and the calls `cs` of those it made. -/
def answered (w : World ω F) (cb : Callback F) (cs : List (Call F)) (e : Engine ω F) :
    Engine ω F :=
  let r := w.callback cb e.world
  Engine.callAll { e with
    world := r.2
    log := .returned cb (cb.goesOn r.1.1) r.1.2 :: .called cb :: e.log } cs

section Answers

variable {w : World ω F} {cfg : Config F} {fuel : ℕ} {e : Engine ω F} {cb : Callback F}
  {cs : List (Call F)} {x : Fd → Prop}

theorem answered_kernel (w : World ω F) (cb : Callback F) (cs : List (Call F)) (e : Engine ω F) :
    (answered w cb cs e).kernel = e.kernel := (callAll_kernel cs _).1

theorem answered_apart (hw : w.NeverReconnects) (hcs : ∀ c ∈ cs, c ∈ (w.callback cb e.world).1.2)
    (hx : ∀ a, ¬ x a → cb.socket ≠ some a) : Apart b x e (answered w cb cs e) := by
  let r := w.callback cb e.world
  let e₁ : Engine ω F := { e with log := .called cb :: e.log }
  let e₂ : Engine ω F := { e₁ with log := .returned cb (cb.goesOn r.1.1) r.1.2 :: e₁.log }
  let e₃ : Engine ω F := { e₂ with world := r.2 }
  have h₁ : Apart b x e e₁ := Apart.note (fun a ha => signal_called (hx a ha))
  have h₂ : Apart b x e₁ e₂ := Apart.note (fun a ha => Or.inl (signal_returned (hx a ha) _ _))
  have h₃ : Apart b x e₂ e₃ := Apart.of_eq rfl (fun _ _ => Iff.rfl) (fun _ _ => rfl)
    (fun _ _ => Iff.rfl) (fun _ _ => rfl)
  have h₄ : Apart b x e₃ (e₃.callAll cs) := by
    refine ⟨(callAll_log (b := b) cs e₃).2, fun hh a ha hs => ?_⟩
    obtain ⟨hk, ht⟩ := callAll_kernel cs e₃
    have hstage := (callAll_log (b := b) cs e₃).1 a
    refine ⟨hs.frame hstage (by rw [hk]) (by rw [hk]) (by rw [ht]) ?_, hstage, by rw [hk]⟩
    intro sm' hsm'
    obtain ⟨sm, hsm, hrec, hsame⟩ := callAll_machine
      (fun c hc => hw cb e.world c (hcs c hc)) hsm'
    refine ⟨sm, hsm, hrec, fun hconn hclean => ?_⟩
    -- a call on the machine of a connecting socket would need a reference nobody holds
    have hfree : ∀ d, .onSm a d ∉ cs := by
      intro d hd
      have hheld : HeldReferences (.returned cb (cb.goesOn r.1.1) r.1.2 :: .called cb :: e.log) :=
        (callAll_log (b := b) cs e₃).2 hh
      have hhanded : handed a (.called cb :: e.log) = true := hheld.1 _ (hcs _ hd)
      have hconn' : track b a (.called cb :: e.log) = .connecting := by
        rw [← hconn]
        exact (track_of_none (signal_returned (hx a ha) _ _) _).symm
      rw [not_handed_of_connecting hconn'] at hhanded
      exact absurd hhanded (by simp)
    rwa [hsame hfree]
  exact ((h₁.trans h₂).trans h₃).trans h₄

/-- The connection a callback is called for goes on, or comes to its end. -/
theorem answered_open (hw : w.NeverReconnects) (hcs : ∀ c ∈ cs, c ∈ (w.callback cb e.world).1.2)
    {st st' : Stage} {sig : Signal} (h : Open b st e s)
    (hcalled : (Event.called cb).signal s = some sig) (hst : st.next b sig = st')
    (hret : ∀ v calls, (Event.returned cb v calls).signal s = some (.ret v)) :
    Open b (st'.next b (.ret (cb.goesOn (w.callback cb e.world).1.1))) (answered w cb cs e) s where
  stage := by
    refine ((callAll_log (b := b) cs _).1 s).trans ?_
    rw [track_of_some (hret _ _), track_of_some hcalled, h.stage, hst]
  socket := by
    rw [answered_kernel]
    exact h.socket
  calm := by
    intro sm' hsm'
    obtain ⟨sm, hsm, hrec, -⟩ := callAll_machine (fun c hc => hw cb e.world c (hcs c hc)) hsm'
    exact hrec (h.calm sm hsm)

theorem callback_apart (hw : w.NeverReconnects) (hx : ∀ a, ¬ x a → cb.socket ≠ some a) :
    Runs (callback w cb) e (fun r e' => r = (w.callback cb e.world).1.1 ∧
      e' = answered w cb (w.callback cb e.world).1.2 e ∧ Apart b x e e') (fun _ _ => False) :=
  ⟨rfl, rfl, answered_apart hw (fun _ h => h) hx⟩

end Answers

/-- What leaves the sockets and their machines alone and is no signal to any connection. -/
structure Silent (b : Bool) (e e' : Engine ω F) : Prop where
  stage : ∀ a, track b a e'.log = track b a e.log
  held : HeldReferences e'.log → HeldReferences e.log
  kernel : e'.kernel = e.kernel
  targets : e'.socketsTargets = e.socketsTargets
  machines : e'.lvl4Sms = e.lvl4Sms

namespace Silent

variable {e e' e'' : Engine ω F} {st : Stage}

theorem of_eq (hlog : e'.log = e.log) (hk : e'.kernel = e.kernel)
    (ht : e'.socketsTargets = e.socketsTargets) (hm : e'.lvl4Sms = e.lvl4Sms) :
    Silent b e e' :=
  ⟨fun _ => by rw [hlog], fun h => by rwa [hlog] at h, hk, ht, hm⟩

theorem note {ev : Event F} (h : ∀ a, ev.signal a = none) :
    Silent b e { e with log := ev :: e.log } :=
  ⟨fun a => track_of_none (h a) _, HeldReferences.tail, rfl, rfl, rfl⟩

theorem trans (h : Silent b e e') (h' : Silent b e' e'') : Silent b e e'' where
  stage := fun a => (h'.stage a).trans (h.stage a)
  held := fun hh => h.held (h'.held hh)
  kernel := h'.kernel.trans h.kernel
  targets := h'.targets.trans h.targets
  machines := h'.machines.trans h.machines

theorem settled (h : Silent b e e') {a : Fd} (hs : Settled b e a) : Settled b e' a := by
  refine hs.frame (h.stage a) (by rw [h.kernel]) (by rw [h.kernel]) (by rw [h.targets]) ?_
  intro sm' hsm'
  rw [h.machines] at hsm'
  exact ⟨sm', hsm', fun h => h, fun _ h => h⟩

theorem apart {x : Fd → Prop} (h : Silent b e e') : Apart b x e e' where
  held := h.held
  others := fun _ a _ hs => ⟨h.settled hs, h.stage a, by rw [h.kernel]⟩

theorem opened (h : Silent b e e') (ho : Open b st e s) : Open b st e' s where
  stage := (h.stage s).trans ho.stage
  socket := by
    rw [h.kernel]
    exact ho.socket
  calm := by
    rw [h.machines]
    exact ho.calm

end Silent

end Nodescan
