import Nodescan.CallbackProtocol
import Nodescan.HostInvariants

/-!
# The order of the callbacks

Each function of the engine acts on one connection and moves it along the protocol; the others
stay where they are. The events of one `epoll_wait` are for different sockets, registered for the
stage they are in, and the sockets the dirty pass works on are connected, so every phase keeps all
connections settled.
-/

namespace Nodescan

open FaultM EngineM

variable {ω F : Type} {b : Bool} {s a : Fd}
variable {w : World ω F} {cfg : Config F} {fuel : ℕ} {e e' : Engine ω F} {st : Stage} {α β : Type}

/-- `x` from `e` returns only with what `Q` says. -/
abbrev IfReturns (x : EngineM ω F α) (e : Engine ω F) (Q : α → Engine ω F → Prop) : Prop :=
  Runs x e Q (fun _ _ => True)

theorem ask_silent (f : ω → α × ω) :
    IfReturns (ask (F := F) f) e (fun _ e' => Silent b e e') :=
  Silent.of_eq rfl rfl rfl rfl

theorem targetFromSocket_returns (s : Fd) :
    IfReturns (targetFromSocket s) e (fun _ e' => e = e' ∧ s ∈ e.socketsTargets) := by
  refine (targetFromSocket_spec s).mono (fun t e' h => ?_) (fun _ _ _ => trivial)
  exact ⟨h.1.symm, TreeMaps.mem_of_getElem? h.2⟩

theorem hostSm_silent (ip : UInt32) :
    IfReturns (hostSm ip) e (fun _ e' => Silent b e e') := by
  unfold hostSm
  apply Runs.read
  cases e.hostsSms[ip]? with
  | some hsm => exact Silent.of_eq rfl rfl rfl rfl
  | none => exact Silent.of_eq rfl rfl rfl rfl

theorem hostFinished_silent (t : Target) :
    IfReturns (hostFinished w t) e (fun _ e' => Silent b e e') := by
  refine Runs.bind (hostSm_silent (b := b) t.ipv4) (fun hsm e₁ h₁ => ?_)
  refine Runs.bind (ask_silent (b := b) _) (fun r e₂ h₂ => ?_)
  have hnote : Silent b e₂ { e₂ with log := .hostFinished t hsm r.1 :: e₂.log } :=
    Silent.note (fun _ => rfl)
  cases hr : r.1 with
  | true =>
    rw [hr] at hnote
    exact ((h₁.trans h₂).trans hnote).trans (Silent.of_eq rfl rfl rfl rfl)
  | false =>
    rw [hr] at hnote
    exact ((h₁.trans h₂).trans hnote).trans (Silent.of_eq rfl rfl rfl rfl)

/-- A change of the machine of `s` alone, which does not turn `reconnect` on. -/
structure OwnMachine (s : Fd) (e e' : Engine ω F) : Prop where
  log : e'.log = e.log
  kernel : e'.kernel = e.kernel
  targets : e'.socketsTargets = e.socketsTargets
  others : ∀ a, a ≠ s → e'.lvl4Sms[a]? = e.lvl4Sms[a]?
  calm : ∀ sm', e'.lvl4Sms[s]? = some sm' →
    (∀ sm, e.lvl4Sms[s]? = some sm → sm.reconnect = false) → sm'.reconnect = false

theorem OwnMachine.apart (h : OwnMachine s e e') : Apart b (· = s) e e' :=
  Apart.of_eq h.log (fun _ _ => by rw [h.kernel]) (fun _ _ => by rw [h.kernel])
    (fun _ _ => by rw [h.targets]) (fun a ha => h.others a ha)

theorem OwnMachine.opened (h : OwnMachine s e e') (ho : Open b st e s) : Open b st e' s where
  stage := by
    rw [h.log]
    exact ho.stage
  socket := by
    rw [h.kernel]
    exact ho.socket
  calm := fun sm' hsm' => h.calm sm' hsm' ho.calm

theorem OwnMachine.modifySm (s : Fd) {f : Lvl4SM F → Lvl4SM F}
    (hf : ∀ sm, (f sm).reconnect = sm.reconnect) : OwnMachine s e (e.modifySm s f) where
  log := rfl
  kernel := rfl
  targets := rfl
  others := fun a ha => (TreeMaps.getElem?_modify _ _ _ _).trans (if_neg ha)
  calm := by
    intro sm' hsm' hcalm
    simp only [Engine.modifySm, TreeMaps.getElem?_modify, if_true] at hsm'
    obtain ⟨sm, hsm, rfl⟩ := Option.map_eq_some_iff.mp hsm'
    rw [hf]
    exact hcalm sm hsm

theorem OwnMachine.of_touch {sm : Lvl4SM F} (h : Touch s sm e e') : OwnMachine s e e' where
  log := h.log
  kernel := h.kernel
  targets := h.targets
  others := h.away
  calm := by
    intro sm' hsm' hcalm
    by_cases hs : s ∈ e.lvl4Sms
    · rw [h.present hs] at hsm'
      exact hcalm sm' hsm'
    · rw [h.here] at hsm'
      rw [← Option.some.inj hsm']
      exact (h.absent hs).2

theorem updateTs_own (s : Fd) :
    IfReturns (updateTs w s) e (fun _ e' => OwnMachine s e e') := by
  let e₁ : Engine ω F := { e with world := (w.timestamp e.world).2 }
  have h : OwnMachine s e₁ (e₁.modifySm s ({ · with ts := (w.timestamp e.world).1 })) :=
    OwnMachine.modifySm s (fun _ => rfl)
  exact ⟨h.log, h.kernel, h.targets, h.others, h.calm⟩

/-- From which stages `socket_finished` may be called with the error `err`. -/
def Stage.MayFinish (st : Stage) (err : ℤ) : Prop :=
  st = .connecting ∨ st = .connected ∨ (st = .ending ∧ err = 0)

/-- The finish callback comes at the end of the stage `finishing`. -/
theorem Stage.MayFinish.closed {err : ℤ} (h : st.MayFinish err) :
    (b = true → (st.next b .socketFinished).next b (.finish err) = .closed) ∧
      (b = false → st.next b .socketFinished = .closed) := by
  rcases h with rfl | rfl | ⟨rfl, rfl⟩
  · exact ⟨by rintro rfl; rfl, by rintro rfl; rfl⟩
  · exact ⟨by rintro rfl; rfl, by rintro rfl; rfl⟩
  · exact ⟨by rintro rfl; rfl, by rintro rfl; rfl⟩

theorem freeSocket_apart (s : Fd) : Apart b (· = s) e (e.freeSocket s) := by
  refine Apart.of_eq rfl (fun a ha => ?_) (fun a ha => ?_) (fun a ha => ?_) (fun a ha => ?_)
  · change a ∈ e.kernel.socks.erase s ↔ _
    rw [TreeMaps.mem_erase]
    exact and_iff_right ha
  · change (((e.kernel.epoll.erase s).erase s).erase s)[a]? = _
    rw [TreeMaps.getElem?_erase, if_neg ha, TreeMaps.getElem?_erase, if_neg ha,
      TreeMaps.getElem?_erase, if_neg ha]
  · change a ∈ e.socketsTargets.erase s ↔ _
    rw [TreeMaps.mem_erase]
    exact and_iff_right ha
  · rw [freeSocket_getElem?, if_neg ha]

/-- `socket_finished` ends the connection of `s`, and no other. -/
theorem socketFinished_settled (hw : w.NeverReconnects) {err : ℤ}
    (ho : Open cfg.hasFinish st e s) (hst : st.MayFinish err) :
    IfReturns (socketFinished w cfg s err) e (fun _ e' =>
      Apart cfg.hasFinish (· = s) e e' ∧ Settled cfg.hasFinish e' s) := by
  have hclosed := hst.closed (b := cfg.hasFinish)
  unfold socketFinished
  let e₁ : Engine ω F := { e with log := .socketFinished s :: e.log }
  have h₁ : Apart cfg.hasFinish (· = s) e e₁ := by
    apply Apart.note
    intro a ha
    exact Or.inl (if_neg (fun h => ha h.symm))
  have h₂ : Silent cfg.hasFinish e₁ (e.countFinish s) := Silent.of_eq rfl rfl rfl rfl
  have hstage₂ : track cfg.hasFinish s (e.countFinish s).log =
      st.next cfg.hasFinish .socketFinished := by
    change track cfg.hasFinish s (.socketFinished s :: e.log) = _
    have hsig : (Event.socketFinished s : Event F).signal s = some .socketFinished := if_pos rfl
    rw [track_of_some hsig, ho.stage]
  refine Runs.bind (Runs.update rfl : Runs _ e (fun _ e' => e.countFinish s = e') _) ?_
  rintro _ _ rfl
  refine Runs.bind (targetFromSocket_returns s) ?_
  rintro t _ ⟨rfl, -⟩
  refine Runs.bind ((lvl4Sm_spec s).noFault) (fun sm e₃ h₃ => ?_)
  have h₃' := OwnMachine.of_touch h₃
  have hfin : IfReturns (callbackFinish w cfg t sm.buf err) e₃ (fun _ e' =>
      Apart cfg.hasFinish (· = s) e₃ e' ∧ track cfg.hasFinish s e'.log = .closed) := by
    unfold callbackFinish
    by_cases hf : cfg.hasFinish = true
    · rw [if_pos hf]
      refine (callback_apart (b := cfg.hasFinish) (x := (· = s)) hw
        (fun a _ => by simp [Callback.socket])).mono (fun r e' h => ⟨h.2.2, ?_⟩)
          (fun _ _ h => h.elim)
      rw [h.2.1, answered, (callAll_log _ _).1, track_of_none rfl]
      rw [track_of_some (rfl : (Event.called (Callback.finish t sm.buf err)).signal s = _), h₃.log,
        hstage₂]
      exact hclosed.1 hf
    · rw [if_neg hf]
      refine ⟨Apart.refl e₃, ?_⟩
      rw [h₃.log, hstage₂]
      exact hclosed.2 (by simpa using hf)
  refine Runs.bind hfin (fun _ e₄ h₄ => ?_)
  have h₅ : OwnMachine s e₄ (e₄.modifySm s Lvl4SM.freeBuffer) :=
    OwnMachine.modifySm s (fun _ => rfl)
  refine Runs.bind (Runs.update rfl : Runs _ e₄
    (fun _ e' => e₄.modifySm s Lvl4SM.freeBuffer = e') _) ?_
  rintro _ _ rfl
  refine Runs.bind (hostFinished_silent (b := cfg.hasFinish) t) (fun _ e₆ h₆ => ?_)
  refine ⟨((((h₁.trans h₂.apart).trans h₃'.apart).trans h₄.1).trans h₅.apart).trans
    (h₆.apart.trans (freeSocket_apart s)), .closed ⟨?_, ?_, ?_, ?_⟩⟩
  · exact (h₆.stage s).trans h₄.2
  · change s ∉ e₆.kernel.socks.erase s
    simp
  · change s ∉ e₆.lvl4Sms.erase s
    simp
  · change s ∉ e₆.socketsTargets.erase s
    simp

/-- `on_connect` lets the connection go on, or it is to be finished with error 0. -/
theorem onConnect_opened (hw : w.NeverReconnects) (ho : Open b .connecting e s) (t : Target) :
    IfReturns (onConnect w s t) e (fun ret e' => Apart b (· = s) e e' ∧ e'.kernel = e.kernel ∧
      (ret = true → Open b .connected e' s) ∧
      (ret = false → ∃ st, Open b st e' s ∧ st.MayFinish 0)) := by
  unfold onConnect
  refine Runs.bind ((lvl4Sm_spec s).noFault) (fun sm e₁ h₁ => ?_)
  have hown := OwnMachine.of_touch h₁
  have ho₁ := hown.opened ho
  cases sm.funcConnect with
  | none =>
    exact ⟨hown.apart, hown.kernel, by simp, fun _ => ⟨.connecting, ho₁, Or.inl rfl⟩⟩
  | some f =>
    refine (callback_apart (b := b) (x := (· = s)) hw (fun a ha => ?_)).mono
      (fun ret e' h => ?_) (fun _ _ h => h.elim)
    · simpa [Callback.socket] using fun h : s = a => ha h.symm
    obtain ⟨hret, rfl, hap⟩ := h
    have hsig : (Event.called (.connected f ⟨t, s⟩)).signal s = some .onConnect := if_pos rfl
    have hopen := answered_open hw (fun _ h => h) ho₁ hsig rfl (fun _ _ => if_pos rfl)
    have hgoes : (Callback.connected f ⟨t, s⟩).goesOn
        (w.callback (.connected f ⟨t, s⟩) e₁.world).1.1 = ret := hret.symm
    rw [hgoes] at hopen
    refine ⟨hown.apart.trans hap, (answered_kernel _ _ _ _).trans hown.kernel, ?_, ?_⟩
    · rintro rfl
      exact hopen
    · rintro rfl
      exact ⟨.ending, hopen, Or.inr (Or.inr ⟨rfl, rfl⟩)⟩

/-- A socket that `on_connect` let go on is watched for input only. -/
theorem watchInput_apart (ho : Open b .connected e s) :
    Apart b (· = s) e ((e.removeConnectingSocket s).addConnectedSocket s) ∧
      Connected b ((e.removeConnectingSocket s).addConnectedSocket s) s := by
  have hsocks : ((e.removeConnectingSocket s).addConnectedSocket s).kernel.socks =
      e.kernel.socks := Kernel.epollAdd_socks _ _ _
  refine ⟨Apart.of_eq rfl (fun a _ => by rw [hsocks]) (fun a ha => ?_) (fun a _ => Iff.rfl)
    (fun a _ => rfl), ⟨ho.stage, by rw [hsocks]; exact ho.socket, ho.calm⟩, ?_⟩
  · exact (Kernel.epollAdd_of_ne _ _ ha).trans (Kernel.epollDel_of_ne _ ha)
  · change ((e.kernel.epollDel s).epollAdd s .epollin).epoll[s]? ≠ _
    have hnone : (e.kernel.epollDel s).epoll[s]? = none :=
      (TreeMaps.getElem?_erase _ _ _).trans (if_pos rfl)
    rw [Kernel.epollAdd_self _ _ (by simpa using ho.socket), hnone]
    simp

theorem processConnectingReady_settled (hw : w.NeverReconnects)
    (ho : Open cfg.hasFinish .connecting e s) :
    IfReturns (processConnectingReady w cfg s) e (fun _ e' =>
      Apart cfg.hasFinish (· = s) e e' ∧ Settled cfg.hasFinish e' s) := by
  unfold processConnectingReady
  apply Runs.read
  refine Runs.bind (ask_silent (b := cfg.hasFinish) _) (fun err e₁ h₁ => ?_)
  have ho₁ := h₁.opened ho
  by_cases herr : err ≠ 0
  · rw [if_pos herr]
    exact (socketFinished_settled hw ho₁ (Or.inl rfl)).mono
      (fun _ _ h => ⟨h₁.apart.trans h.1, h.2⟩) (fun _ _ h => h)
  · rw [if_neg herr]
    refine Runs.bind (targetFromSocket_returns s) ?_
    rintro t _ ⟨rfl, -⟩
    refine Runs.bind (hostSm_silent (b := cfg.hasFinish) t.ipv4) (fun _ e₂ h₂ => ?_)
    have hap₂ : Apart cfg.hasFinish (· = s) e e₂ := (h₁.trans h₂).apart
    refine Runs.bind (onConnect_opened hw (h₂.opened ho₁) t) (fun ret e₃ h₃ => ?_)
    obtain ⟨hap₃, -, hgo, hend⟩ := h₃
    cases ret with
    | true =>
      rw [if_pos rfl]
      obtain ⟨hap₄, hcon⟩ := watchInput_apart (hgo rfl)
      refine Runs.bind (Runs.update rfl : Runs _ e₃
        (fun _ e' => (e₃.removeConnectingSocket s).addConnectedSocket s = e') _) ?_
      rintro _ _ rfl
      refine (updateTs_own s).mono (fun _ e₅ h₅ => ?_) (fun _ _ h => h)
      refine ⟨((hap₂.trans hap₃).trans hap₄).trans h₅.apart, .connected ⟨h₅.opened hcon.toOpen, ?_⟩⟩
      rw [h₅.kernel]
      exact hcon.epoll
    | false =>
      simp only [Bool.false_eq_true, if_false]
      obtain ⟨st, ho₃, hst⟩ := hend rfl
      exact (socketFinished_settled hw ho₃ hst).mono
        (fun _ _ h => ⟨(hap₂.trans hap₃).trans h.1, h.2⟩) (fun _ _ h => h)

/-! The trigger callbacks. -/

/-- The machine of `s` is being worked on, from `e`; its connection stands at `st`. -/
structure Working (b : Bool) (st : Stage) (s : Fd) (e : Engine ω F) (sm : Lvl4SM F)
    (e' : Engine ω F) : Prop where
  apart : Apart b (· = s) e e'
  kernel : e'.kernel = e.kernel
  opened : Open b st e' s
  calm : sm.reconnect = false

theorem mem_of_mem_otherCalls {cs : List (Call F)} {c : Call F} (h : c ∈ otherCalls s cs) :
    c ∈ cs := List.mem_of_mem_filter h

/-- A trigger callback: the connection goes on as its answer says. -/
theorem Working.called (hw : w.NeverReconnects) {sm : Lvl4SM F} {e₁ : Engine ω F}
    (cb : Callback F) (h : Working b .connected s e sm e₁) (hsocket : cb.socket = some s)
    (hsig : (Event.called cb).signal s = some .trigger)
    (hret : ∀ v calls, (Event.returned cb v calls).signal s = some (.ret v)) :
    Working b (Stage.next b .working (.ret (cb.goesOn (w.callback cb e₁.world).1.1))) s e
      (sm.callAll (called w s cb e₁).1.2) (called w s cb e₁).2 where
  apart := by
    refine h.apart.trans (answered_apart hw (fun _ hc => mem_of_mem_otherCalls hc) (fun a ha => ?_))
    rw [hsocket]
    exact fun heq => ha (Option.some.inj heq).symm
  kernel := (answered_kernel w cb _ e₁).trans h.kernel
  opened := answered_open hw (fun _ hc => mem_of_mem_otherCalls hc) h.opened hsig rfl hret
  calm := by
    by_contra hrec
    rw [Bool.not_eq_false] at hrec
    have hold := ownCalls_reconnect (fun c hc => hw cb e₁.world c hc) hrec
    rw [h.calm] at hold
    exact absurd hold (by simp)

theorem actions_working (hw : w.NeverReconnects) (t : Target) :
    Lvl4SM.KeptUntil (actions w) ⟨t, s⟩ (Working b .connected s e) (Working b .ending s e) where
  buf := fun _ h => ⟨h.apart, h.kernel, h.opened, h.calm⟩
  bufEnd := fun _ h => ⟨h.apart, h.kernel, h.opened, h.calm⟩
  data := by
    intro sm e₁ f chunk h hret
    have hstep := Working.called hw (.data f ⟨t, s⟩ chunk) h rfl (if_pos rfl)
      (fun _ _ => if_pos rfl)
    have hgoes : (Callback.data f ⟨t, s⟩ chunk).goesOn
      (w.callback (.data f ⟨t, s⟩ chunk) e₁.world).1.1 = true := hret
    rw [hgoes] at hstep
    exact hstep
  dataEnd := by
    intro sm e₁ f chunk h hret
    have hstep := Working.called hw (.data f ⟨t, s⟩ chunk) h rfl (if_pos rfl)
      (fun _ _ => if_pos rfl)
    have hgoes : (Callback.data f ⟨t, s⟩ chunk).goesOn
      (w.callback (.data f ⟨t, s⟩ chunk) e₁.world).1.1 = false := hret
    rw [hgoes] at hstep
    exact hstep
  python := by
    intro sm e₁ obj buf prevPos h hcode
    have hstep := Working.called hw (.python obj ⟨t, s⟩ buf prevPos) h rfl (if_pos rfl)
      (fun _ _ => if_pos rfl)
    have hgoes : (Callback.python obj ⟨t, s⟩ buf prevPos).goesOn
      (w.callback (.python obj ⟨t, s⟩ buf prevPos) e₁.world).1.1 = true := decide_eq_true hcode
    rw [hgoes] at hstep
    exact hstep
  pythonEnd := by
    intro sm e₁ obj buf prevPos h hcode
    have hstep := Working.called hw (.python obj ⟨t, s⟩ buf prevPos) h rfl (if_pos rfl)
      (fun _ _ => if_pos rfl)
    have hgoes : (Callback.python obj ⟨t, s⟩ buf prevPos).goesOn
      (w.callback (.python obj ⟨t, s⟩ buf prevPos) e₁.world).1.1 = false :=
      decide_eq_false (fun h => h hcode)
    rw [hgoes] at hstep
    exact hstep

/-- Work on the machine of a connected socket: the connection goes on, or it is to be finished
with error 0. -/
theorem onLvl4Sm_opened {f : Lvl4SM F → Engine ω F → Except Fault (Bool × Lvl4SM F × Engine ω F)}
    (hf : ∀ {sm sm' : Lvl4SM F} {e' : Engine ω F} {v : Bool},
      Working b .connected s e sm e → f sm e = .ok (v, sm', e') →
        (v = true → Working b .connected s e sm' e') ∧
        (v = false → Working b .connected s e sm' e' ∨ Working b .ending s e sm' e'))
    (ho : Open b .connected e s) :
    IfReturns (onLvl4Sm s f) e (fun ret e' => Apart b (· = s) e e' ∧ e'.kernel = e.kernel ∧
      (ret = true → Open b .connected e' s) ∧
      (ret = false → ∃ st, Open b st e' s ∧ st.MayFinish 0)) := by
  have hput : ∀ {st : Stage} {sm' : Lvl4SM F} {e' : Engine ω F}, Working b st s e sm' e' →
      Apart b (· = s) e { e' with lvl4Sms := e'.lvl4Sms.insert s sm' } ∧
        e'.kernel = e.kernel ∧ Open b st { e' with lvl4Sms := e'.lvl4Sms.insert s sm' } s := by
    intro st sm' e' h
    refine ⟨h.apart.trans (Apart.of_eq rfl (fun _ _ => Iff.rfl) (fun _ _ => rfl)
      (fun _ _ => Iff.rfl) (fun a ha => ?_)), h.kernel, h.opened.stage, h.opened.socket, ?_⟩
    · exact (TreeMaps.getElem?_insert _ _ _ _).trans (if_neg ha)
    · intro sm hsm
      have heq : sm' = sm := by simpa [TreeMaps.getElem?_insert] using hsm
      rw [← heq]
      exact h.calm
  unfold onLvl4Sm
  apply Runs.read
  cases hs : e.lvl4Sms[s]? with
  | none => trivial
  | some sm =>
    cases hr : f sm e with
    | error fault =>
      simp only [hr]
      trivial
    | ok r =>
      obtain ⟨v, sm', e'⟩ := r
      simp only [hr]
      obtain ⟨hgo, hend⟩ := hf ⟨Apart.refl e, rfl, ho, ho.calm sm hs⟩ hr
      cases v with
      | true =>
        obtain ⟨hap, hk, hopen⟩ := hput (hgo rfl)
        exact ⟨hap, hk, fun _ => hopen, by simp⟩
      | false =>
        rcases hend rfl with h | h
        · obtain ⟨hap, hk, hopen⟩ := hput h
          exact ⟨hap, hk, by simp, fun _ => ⟨.connected, hopen, Or.inr (Or.inl rfl)⟩⟩
        · obtain ⟨hap, hk, hopen⟩ := hput h
          exact ⟨hap, hk, by simp, fun _ => ⟨.ending, hopen, Or.inr (Or.inr ⟨rfl, rfl⟩)⟩⟩

theorem processConnectedReady_settled (hw : w.NeverReconnects) (hc : Connected cfg.hasFinish e s)
    (t : Target) :
    IfReturns (processConnectedReady w cfg fuel s t) e (fun _ e' =>
      Apart cfg.hasFinish (· = s) e e' ∧ Settled cfg.hasFinish e' s) := by
  unfold processConnectedReady
  apply Runs.read
  refine Runs.bind (ask_silent (b := cfg.hasFinish) _) (fun navail e₁ h₁ => ?_)
  refine Runs.bind ((lvl4Sm_spec s).noFault) (fun sm e₂ h₂ => ?_)
  have hown := OwnMachine.of_touch h₂
  have ho₂ := hown.opened (h₁.opened hc.toOpen)
  have hap₂ : Apart cfg.hasFinish (· = s) e e₂ := h₁.apart.trans hown.apart
  have hk₂ : e₂.kernel = e.kernel := hown.kernel.trans h₁.kernel
  by_cases hnav : navail = 0
  · rw [if_pos hnav, if_neg (by simp [ho₂.calm sm h₂.here])]
    exact (socketFinished_settled hw ho₂ (Or.inr (Or.inl rfl))).mono
      (fun _ _ h => ⟨hap₂.trans h.1, h.2⟩) (fun _ _ h => h)
  · rw [if_neg hnav]
    refine Runs.bind (hostSm_silent (b := cfg.hasFinish) t.ipv4) (fun _ e₃ h₃ => ?_)
    refine Runs.bind (ask_silent (b := cfg.hasFinish) _) (fun r e₄ h₄ => ?_)
    have h₃₄ := h₃.trans h₄
    refine Runs.bind (onLvl4Sm_opened
      (fun hI hr => (actions_working hw t).processLvl4Data hI hr) (h₃₄.opened ho₂)) ?_
    intro ret e₅ h₅
    obtain ⟨hap₅, hk₅, hgo, hend⟩ := h₅
    have hap : Apart cfg.hasFinish (· = s) e e₅ := (hap₂.trans h₃₄.apart).trans hap₅
    have hk : e₅.kernel = e.kernel := (hk₅.trans h₃₄.kernel).trans hk₂
    refine Runs.bind (updateTs_own s) (fun _ e₆ h₆ => ?_)
    cases ret with
    | true =>
      refine ⟨hap.trans h₆.apart, .connected ⟨h₆.opened (hgo rfl), ?_⟩⟩
      rw [h₆.kernel, hk]
      exact hc.epoll
    | false =>
      obtain ⟨st, ho₅, hst⟩ := hend rfl
      exact (socketFinished_settled hw (h₆.opened ho₅) hst).mono
        (fun _ _ h => ⟨(hap.trans h₆.apart).trans h.1, h.2⟩) (fun _ _ h => h)

/-! The events phase. -/

/-- The stage an event is reported for. -/
theorem Settled.of_event {ev : EpollEvent} (h : Settled b e ev.fd) (hs : ev.fd ∈ e.kernel.epoll)
    (hout : ev.epollout = true → e.kernel.epoll[ev.fd]? = some .epollout)
    (hin : ev.epollin = true → e.kernel.epoll[ev.fd]? = some .epollin) :
    (ev.epollout = true → Connecting b e ev.fd) ∧ (ev.epollin = true → Connected b e ev.fd) := by
  cases h with
  | closed h => exact absurd (e.kernel.epoll_open _ hs) h.socket
  | connecting h => exact ⟨fun _ => h, fun hi => absurd (hin hi) h.epoll⟩
  | connected h => exact ⟨fun ho => absurd (hout ho) h.epoll, fun _ => h⟩

theorem processEvent_settled (hw : w.NeverReconnects) {ev : EpollEvent}
    (hs : Settled cfg.hasFinish e ev.fd) (hreg : ev.fd ∈ e.kernel.epoll)
    (hout : ev.epollout = true → e.kernel.epoll[ev.fd]? = some .epollout)
    (hin : ev.epollin = true → e.kernel.epoll[ev.fd]? = some .epollin) :
    IfReturns (processEvent w cfg fuel ev) e (fun _ e' =>
      Apart cfg.hasFinish (· = ev.fd) e e' ∧ Settled cfg.hasFinish e' ev.fd) := by
  obtain ⟨hconnecting, hconnected⟩ := hs.of_event hreg hout hin
  unfold processEvent
  by_cases ho : ev.epollout = true
  · rw [if_pos ho]
    refine Runs.bind ((lvl4Sm_spec ev.fd).noFault) (fun sm e₁ h₁ => ?_)
    have hown := OwnMachine.of_touch h₁
    exact (processConnectingReady_settled hw (hown.opened (hconnecting ho).toOpen)).mono
      (fun _ _ h => ⟨hown.apart.trans h.1, h.2⟩) (fun _ _ h => h)
  · rw [if_neg ho]
    by_cases hi : ev.epollin = true
    · rw [if_pos hi]
      refine Runs.bind (targetFromSocket_returns ev.fd) ?_
      rintro t _ ⟨rfl, -⟩
      refine Runs.bind ((lvl4Sm_spec ev.fd).noFault) (fun sm e₁ h₁ => ?_)
      have hown := OwnMachine.of_touch h₁
      have hc₁ : Connected cfg.hasFinish e₁ ev.fd :=
        ⟨hown.opened (hconnected hi).toOpen, by rw [hown.kernel]; exact (hconnected hi).epoll⟩
      exact (processConnectedReady_settled hw hc₁ t).mono
        (fun _ _ h => ⟨hown.apart.trans h.1, h.2⟩) (fun _ _ h => h)
    · rw [if_neg hi]
      exact ⟨Apart.refl e, hs⟩

/-! From one socket to all. A run in which a callback uses a reference it was not handed says
nothing about the engine, so the phases are followed as long as none does. -/

theorem unheld_invariant (w : World ω F) : HostInvariant w (fun _ _ => True) (fun _ => True)
    (fun _ _ => True) (fun e => ¬ HeldReferences e.log) where
  congr := by
    intro e e' h _ hl _ _
    rwa [hl]
  note := fun _ _ h hh => h hh.tail
  insert := fun _ h _ => h
  known := fun _ _ => trivial
  onAlive := by
    intro e ip a h hip hh
    rw [Engine.setOnAlive_of_mem a hip] at hh
    exact h hh.tail
  made := fun h _ => h
  passed := fun h _ hh => h hh.tail
  next := fun h => h
  emitted := fun _ _ _ => ⟨trivial, trivial⟩
  emitted_same := fun _ _ => trivial
  launched := fun h _ hh => h hh.tail
  finished := fun h _ _ hh => h hh.tail
  initialised := fun h _ _ => h

/-- What `x` returns with if no callback has used a reference it does not hold. -/
def IfHeld (x : EngineM ω F α) (e : Engine ω F) (Q : α → Engine ω F → Prop) : Prop :=
  IfReturns x e (fun a e' => HeldReferences e'.log → Q a e')

def Mute (x : EngineM ω F α) : Prop := Keeps (fun e => ¬ HeldReferences e.log) x

/-- A run that is mute need only be followed while the references are held. -/
theorem IfHeld.of_mute {x : EngineM ω F α} {Q : α → Engine ω F → Prop} (hmute : Mute x)
    (hx : HeldReferences e.log → IfHeld x e Q) : IfHeld x e Q := by
  by_cases hh : HeldReferences e.log
  · exact hx hh
  · exact (hmute e hh).mono (fun _ _ h hh' => absurd hh' h) (fun _ _ _ => trivial)

theorem IfHeld.bind {x : EngineM ω F α} {f : α → EngineM ω F β} {Q : α → Engine ω F → Prop}
    {R : β → Engine ω F → Prop} (hx : IfHeld x e Q) (hmute : ∀ a, Mute (f a))
    (hf : ∀ a e₁, HeldReferences e₁.log → Q a e₁ → IfHeld (f a) e₁ R) : IfHeld (x >>= f) e R := by
  refine Runs.bind hx (fun a e₁ h₁ => ?_)
  exact IfHeld.of_mute (hmute a) (fun hh => hf a e₁ hh (h₁ hh))

def AllSettled (b : Bool) (e : Engine ω F) : Prop := ∀ a, Settled b e a

theorem AllSettled.of_apart {x : Fd → Prop} (h : AllSettled b e) (hap : Apart b x e e')
    (hx : ∀ a, x a → Settled b e' a) (hh : HeldReferences e'.log) : AllSettled b e' := by
  intro a
  by_cases ha : x a
  · exact hx a ha
  · exact (hap.others hh a ha (h a)).1

theorem AllSettled.of_silent (h : AllSettled b e) (hs : Silent b e e') : AllSettled b e' :=
  fun a => hs.settled (h a)

/-- A function that acts on `s` and leaves it settled. -/
theorem AllSettled.of_one {x : EngineM ω F α} (h : AllSettled b e)
    (hx : IfReturns x e (fun _ e' => Apart b (· = s) e e' ∧ Settled b e' s)) :
    IfHeld x e (fun _ e' => AllSettled b e' ∧ ∀ a, a ≠ s →
      track b a e'.log = track b a e.log ∧ e'.kernel.epoll[a]? = e.kernel.epoll[a]?) := by
  refine hx.mono (fun _ e' h' hh => ⟨h.of_apart h'.1 ?_ hh, fun a ha => ?_⟩) (fun _ _ h => h)
  · rintro a rfl
    exact h'.2
  · exact (h'.1.others hh a ha (h a)).2

theorem processEventList_settled (hw : w.NeverReconnects) (evs : List EpollEvent)
    (hnd : (evs.map EpollEvent.fd).Nodup) (h : AllSettled cfg.hasFinish e)
    (hreg : ∀ ev ∈ evs, ev.fd ∈ e.kernel.epoll ∧
      (ev.epollout → e.kernel.epoll[ev.fd]? = some .epollout) ∧
      (ev.epollin → e.kernel.epoll[ev.fd]? = some .epollin)) :
    IfHeld (evs.forM (processEvent w cfg fuel)) e (fun _ e' => AllSettled cfg.hasFinish e') := by
  induction evs generalizing e with
  | nil => exact fun _ => h
  | cons ev evs ih =>
    rw [List.map_cons, List.nodup_cons] at hnd
    obtain ⟨hmem, hout, hin⟩ := hreg ev (by simp)
    refine IfHeld.bind (h.of_one (processEvent_settled hw (h ev.fd) hmem hout hin)) (fun _ => ?_)
      (fun _ e₁ _ h₁ => ih hnd.2 h₁.1 (fun ev' hev' => ?_))
    · exact Keeps.forM (fun ev => (unheld_invariant w).processEvent w.leaves_true ev) evs
    · have hne : ev'.fd ≠ ev.fd := by
        intro heq
        apply hnd.1
        rw [← heq]
        exact List.mem_map_of_mem hev'
      have hepoll := (h₁.2 ev'.fd hne).2
      rw [Std.ExtTreeMap.mem_iff_isSome_getElem?, hepoll,
        ← Std.ExtTreeMap.mem_iff_isSome_getElem?]
      exact hreg ev' (by simp [hev'])

theorem processEvents_settled (hw : w.NeverReconnects) (h : AllSettled cfg.hasFinish e) :
    IfHeld (processEvents w cfg fuel) e (fun _ e' => AllSettled cfg.hasFinish e') := by
  unfold processEvents
  apply Runs.read
  let e₁ : Engine ω F := { e with world := (w.epollWait e.kernel e.world).2 }
  have h₁ : AllSettled cfg.hasFinish e₁ := by
    intro a
    exact (h a).frame rfl Iff.rfl rfl Iff.rfl (fun sm hsm => ⟨sm, hsm, fun h => h, fun _ h => h⟩)
  refine Runs.bind (Q := fun r e' => e₁ = e' ∧ (w.epollWait e.kernel e.world).1 = r)
    ⟨rfl, rfl⟩ ?_
  rintro r _ ⟨rfl, hr⟩
  cases r with
  | none => exact fun _ => h₁
  | some evs =>
    refine Runs.bind (processEventList_settled hw evs (w.epollWait_nodup hr) h₁
      (w.epollWait_registered hr)) (fun _ e₂ h₂ => ?_)
    exact h₂

/-! The dirty pass. -/

/-- An update of a machine that asks for nothing. -/
theorem modifySm_apart {x : Fd → Prop} (s : Fd) {f : Lvl4SM F → Lvl4SM F}
    (hrec : ∀ sm, (f sm).reconnect = sm.reconnect)
    (hrep : ∀ sm, sm.reprocess = false → (f sm).reprocess = false) :
    Apart b x e (e.modifySm s f) := by
  refine ⟨fun h => h, fun _ a _ hs => ⟨?_, rfl, rfl⟩⟩
  refine hs.frame rfl Iff.rfl rfl Iff.rfl (fun sm' hsm' => ?_)
  simp only [Engine.modifySm, TreeMaps.getElem?_modify] at hsm'
  by_cases ha : a = s
  · rw [if_pos ha] at hsm'
    obtain ⟨sm, hsm, rfl⟩ := Option.map_eq_some_iff.mp hsm'
    exact ⟨sm, by rw [ha, hsm], fun h => (hrec sm).trans h, fun _ h => hrep sm h⟩
  · rw [if_neg ha] at hsm'
    exact ⟨sm', hsm', fun h => h, fun _ h => h⟩

/-- Every connection is where it was. -/
abbrev Still (b : Bool) (e e' : Engine ω F) : Prop := Apart b (fun _ => False) e e'

theorem callback_still (hw : w.NeverReconnects) {cb : Callback F} (hcb : cb.socket = none) :
    IfReturns (callback w cb) e (fun _ e' => Still b e e') := by
  refine (callback_apart hw (fun a _ => ?_)).mono (fun _ _ h => h.2.2) (fun _ _ h => h.elim)
  rw [hcb]
  simp

theorem hasTimedout_still (hw : w.NeverReconnects) (ts : ℤ) (s : Fd) (sm : Lvl4SM F) :
    IfReturns (hasTimedout w cfg ts s sm) e (fun _ e' => Still b e e') := by
  have htimeout : IfReturns (timeoutOfTarget w cfg s) e (fun _ e' => Still b e e') := by
    unfold timeoutOfTarget
    apply Runs.read
    refine Runs.bind (ask_silent (b := b) _) (fun peer e₁ h₁ => ?_)
    split_ifs
    · exact (callback_still hw rfl).mono (fun _ _ h => h₁.apart.trans h) (fun _ _ h => h)
    · exact h₁.apart
  refine Runs.bind htimeout (fun timeoutTarget e₁ h₁ => ?_)
  split_ifs
  · exact h₁
  · unfold hasWatchTimedout
    split_ifs
    · exact h₁
    · apply Runs.read
      refine Runs.bind (ask_silent (b := b) _) (fun peer e₂ h₂ => ?_)
      refine Runs.bind (callback_still (b := b) hw rfl) (fun goOn e₃ h₃ => ?_)
      have hap : Still b e e₃ := (h₁.trans h₂.apart).trans h₃
      split_ifs
      · exact hap.trans (modifySm_apart s (fun _ => rfl) (fun _ h => h))
      · exact hap
    · exact h₁

/-- The first loop puts a socket on the list of the second if its machine asks for it. -/
theorem inspect_still (hw : w.NeverReconnects) (ts : ℤ) (s : Fd) (l : WorkLists) :
    IfReturns (inspect w cfg ts s l) e (fun l' e' => Still b e e' ∧
      (l'.toProcess = l.toProcess ∨ l'.toProcess = l.toProcess ++ [s] ∧
        ∃ sm, e.lvl4Sms[s]? = some sm ∧ sm.reprocess = true)) := by
  unfold inspect
  apply Runs.read
  cases hs : e.lvl4Sms[s]? with
  | none => exact ⟨Apart.refl e, Or.inl rfl⟩
  | some sm =>
    by_cases hv : sm.valid = true
    · simp only [hv, if_true]
      have h₁ : Still b e (e.modifySm s fun sm => sm.shouldProcessBuffer.2) :=
        modifySm_apart s (fun _ => rfl) (fun _ _ => rfl)
      refine Runs.bind (Runs.update rfl : Runs _ e
        (fun _ e' => (e.modifySm s fun sm => sm.shouldProcessBuffer.2) = e') _) ?_
      rintro _ _ rfl
      refine Runs.bind (hasTimedout_still (b := b) hw ts s sm) (fun out e₂ h₂ => ?_)
      refine ⟨h₁.trans h₂, ?_⟩
      cases hrep : sm.reprocess with
      | true =>
        exact Or.inr ⟨by simp [WorkLists.add, Lvl4SM.shouldProcessBuffer, hrep], sm, rfl, hrep⟩
      | false => exact Or.inl (by simp [WorkLists.add, Lvl4SM.shouldProcessBuffer, hrep])
    · simp only [hv]
      exact ⟨Apart.refl e, Or.inl rfl⟩

/-- Only a connected socket can have its buffer reprocessed. -/
theorem Settled.of_reprocess {sm : Lvl4SM F} (h : Settled b e s) (hsm : e.lvl4Sms[s]? = some sm)
    (hrep : sm.reprocess = true) : track b s e.log = .connected := by
  cases h with
  | closed h => exact absurd (TreeMaps.mem_of_getElem? hsm) h.machine
  | connecting h =>
    rw [h.clean sm hsm] at hrep
    exact absurd hrep (by simp)
  | connected h => exact h.stage

/-- All connections are settled, and those on the list are connected. -/
def Ready (b : Bool) (ss : List Fd) (e : Engine ω F) : Prop :=
  AllSettled b e ∧ ∀ a ∈ ss, track b a e.log = .connected

theorem inspectAll_ready (hw : w.NeverReconnects) (ts : ℤ) (ss : List Fd) (l : WorkLists)
    (h : Ready b l.toProcess e) :
    IfHeld (inspectAll w cfg ts ss l) e (fun l' e' => Ready b l'.toProcess e') := by
  induction ss generalizing e l with
  | nil => exact fun _ => h
  | cons s ss ih =>
    have hone : IfHeld (inspect w cfg ts s l) e (fun l' e' => Ready b l'.toProcess e') := by
      refine (inspect_still (b := b) hw ts s l).mono (fun l' e' h' hh => ?_) (fun _ _ h => h)
      obtain ⟨hap, hlist⟩ := h'
      have hstage : ∀ a, track b a e'.log = track b a e.log :=
        fun a => (hap.others hh a (fun h => h) (h.1 a)).2.1
      refine ⟨h.1.of_apart hap (fun _ h => h.elim) hh, fun a ha => ?_⟩
      rw [hstage]
      rcases hlist with heq | ⟨heq, sm, hsm, hrep⟩
      · rw [heq] at ha
        exact h.2 a ha
      · rw [heq, List.mem_append, List.mem_singleton] at ha
        rcases ha with ha | rfl
        · exact h.2 a ha
        · exact (h.1 a).of_reprocess hsm hrep
    refine IfHeld.bind hone (fun l₁ => ?_) (fun l₁ e₁ _ h₁ => ih l₁ h₁)
    exact (unheld_invariant w).toFramed.inspectAll w.leaves_true ts ss l₁

theorem workLists_ready (hw : w.NeverReconnects) (h : AllSettled b e) :
    IfHeld (workLists w cfg) e (fun l e' => Ready b l.toProcess e') := by
  unfold workLists
  refine Runs.bind (ask_silent (b := b) _) (fun ts e₁ h₁ => ?_)
  apply Runs.read
  apply inspectAll_ready hw
  exact ⟨h.of_silent h₁, by simp⟩

theorem Settled.connected_of_stage (h : Settled b e s) (hst : track b s e.log = .connected) :
    Connected b e s := by
  cases h with
  | closed h =>
    rw [h.stage] at hst
    cases hst
  | connecting h =>
    rw [h.stage] at hst
    cases hst
  | connected h => exact h

/-- The round of the second loop for a connected socket. -/
theorem reprocessBuffer_settled (hw : w.NeverReconnects) (hc : Connected b e s) (t : Target) :
    IfReturns (onLvl4Sm s (fun sm e => sm.processBuffer (actions w) ⟨t, s⟩ fuel e)) e
      (fun ret e' => Apart b (· = s) e e' ∧ (ret = true → Settled b e' s) ∧
        (ret = false → ∃ st, Open b st e' s ∧ st.MayFinish 0)) := by
  refine (onLvl4Sm_opened (fun hI hr => ?_) hc.toOpen).mono (fun ret e' h => ?_) (fun _ _ h => h)
  · obtain ⟨hgo, hend⟩ := (actions_working hw t).processLoop hI hr
    exact ⟨hgo, fun hv => Or.inr (hend hv)⟩
  · obtain ⟨hap, hk, hgo, hend⟩ := h
    exact ⟨hap, fun hret => .connected ⟨hgo hret, by rw [hk]; exact hc.epoll⟩, hend⟩

theorem reprocess_settled (hw : w.NeverReconnects) (ss : List Fd) (hnd : ss.Nodup)
    (h : Ready cfg.hasFinish ss e) :
    IfHeld (reprocess w cfg fuel ss) e (fun _ e' => AllSettled cfg.hasFinish e') := by
  induction ss generalizing e with
  | nil => exact fun _ => h.1
  | cons s ss ih =>
    rw [List.nodup_cons] at hnd
    have hrest : ∀ {e' : Engine ω F}, Apart cfg.hasFinish (· = s) e e' →
        Settled cfg.hasFinish e' s → HeldReferences e'.log → Ready cfg.hasFinish ss e' := by
      intro e' hap hs hh
      refine ⟨h.1.of_apart hap (by rintro a rfl; exact hs) hh, fun a ha => ?_⟩
      have hne : a ≠ s := by
        rintro rfl
        exact hnd.1 ha
      rw [(hap.others hh a hne (h.1 a)).2.1]
      exact h.2 a (by simp [ha])
    rw [reprocess]
    refine Runs.bind (targetFromSocket_returns s) ?_
    rintro t _ ⟨rfl, -⟩
    refine Runs.bind (hostSm_silent (b := cfg.hasFinish) t.ipv4) (fun _ e₁ h₁ => ?_)
    have hcon := (h.1 s).connected_of_stage (h.2 s (by simp))
    have hcon₁ : Connected cfg.hasFinish e₁ s :=
      ⟨h₁.opened hcon.toOpen, by rw [h₁.kernel]; exact hcon.epoll⟩
    refine Runs.bind (reprocessBuffer_settled hw hcon₁ t) (fun ret e₂ h₂ => ?_)
    obtain ⟨hap₂, hgo, hend⟩ := h₂
    have hap : Apart cfg.hasFinish (· = s) e e₂ := h₁.apart.trans hap₂
    have hmute : Mute (reprocess w cfg fuel ss) := (unheld_invariant w).reprocess w.leaves_true ss
    cases ret with
    | true =>
      exact IfHeld.of_mute hmute (fun hh => ih hnd.2 (hrest hap (hgo rfl) hh))
    | false =>
      obtain ⟨st, ho₂, hst⟩ := hend rfl
      have hfin : IfHeld (socketFinished w cfg s 0) e₂
          (fun _ e' => Ready cfg.hasFinish ss e') :=
        (socketFinished_settled hw ho₂ hst).mono
          (fun _ _ h' hh => hrest (hap.trans h'.1) h'.2 hh) (fun _ _ h => h)
      refine IfHeld.bind hfin (fun _ => Keeps.bind hmute (fun _ => Keeps.ret _))
        (fun _ e₃ _ h₃ => ?_)
      exact IfHeld.bind (ih hnd.2 h₃) (fun _ => Keeps.ret _) (fun _ e₄ _ h₄ _ => h₄)

/-- `socket_finished` on any socket, between two rounds. -/
theorem socketFinished_allSettled (hw : w.NeverReconnects) (h : AllSettled cfg.hasFinish e)
    (s : Fd) (err : ℤ) :
    IfHeld (socketFinished w cfg s err) e (fun _ e' => AllSettled cfg.hasFinish e') := by
  by_cases hs : s ∈ e.socketsTargets
  · have hone : IfReturns (socketFinished w cfg s err) e (fun _ e' =>
        Apart cfg.hasFinish (· = s) e e' ∧ Settled cfg.hasFinish e' s) := by
      rcases (h s).of_target hs with ho | ho
      · exact socketFinished_settled hw ho (Or.inl rfl)
      · exact socketFinished_settled hw ho (Or.inr (Or.inl rfl))
    exact (h.of_one hone).mono (fun _ _ h' hh => (h' hh).1) (fun _ _ h => h)
  · refine Runs.intro (fun _ e' hr => ?_) (fun _ _ _ => trivial)
    rw [socketFinished_absent hs] at hr
    simp at hr

theorem finishTimeouted_settled (hw : w.NeverReconnects) (ss : List Fd)
    (h : AllSettled cfg.hasFinish e) :
    IfHeld (finishTimeouted w cfg ss) e (fun _ e' => AllSettled cfg.hasFinish e') := by
  induction ss generalizing e with
  | nil => exact fun _ => h
  | cons s ss ih =>
    refine IfHeld.bind (socketFinished_allSettled hw h s _) (fun _ => ?_)
      (fun _ e₁ _ h₁ => ih h₁)
    exact (unheld_invariant w).finishTimeouted w.leaves_true ss

theorem processDirtyAndTimeouts_settled (hw : w.NeverReconnects) (h : AllSettled cfg.hasFinish e) :
    IfHeld (processDirtyAndTimeouts w cfg fuel) e (fun _ e' => AllSettled cfg.hasFinish e') := by
  have hmute := unheld_invariant w
  unfold processDirtyAndTimeouts
  have hlists : IfHeld (workLists w cfg) e
      (fun l e' => Ready cfg.hasFinish l.toProcess e' ∧ l.toProcess.Nodup) := by
    refine ((workLists_ready hw h).both (workLists_spec (w := w))).mono (fun l e' h' hh => ?_)
      (fun _ _ _ => trivial)
    exact ⟨h'.1 hh, h'.2.2.processed_nodup⟩
  refine IfHeld.bind hlists (fun l => ?_) (fun l e₁ _ h₁ => ?_)
  · refine Keeps.bind (hmute.reprocess w.leaves_true _) (fun _ => ?_)
    exact Keeps.bind (hmute.finishTimeouted w.leaves_true _) (fun _ => Keeps.ret _)
  refine IfHeld.bind (reprocess_settled hw l.toProcess h₁.2 h₁.1) (fun _ => ?_)
    (fun _ e₂ _ h₂ => ?_)
  · exact Keeps.bind (hmute.finishTimeouted w.leaves_true _) (fun _ => Keeps.ret _)
  exact IfHeld.bind (finishTimeouted_settled hw l.timeouted h₂) (fun _ => Keeps.ret _)
    (fun _ e₃ _ h₃ _ => h₃)

/-! The launches. -/

/-- A new socket begins a connection. -/
theorem register_connecting {n : ℕ} (hc : Closed b e (n : Fd)) (t : Target) :
    IfReturns (register w cfg n t) e (fun _ e' =>
      Apart b (· = (n : Fd)) e e' ∧ Connecting b e' (n : Fd)) := by
  refine (register_run n t).noFault.mono (fun err e' h => ?_) (fun _ _ h => h)
  let e₁ : Engine ω F := { e with log := .connect n t err :: e.log }
  have h₁ : Apart b (· = (n : Fd)) e e₁ := by
    apply Apart.note
    intro a ha
    exact Or.inl (if_neg (fun h => ha h.symm))
  have h₂ : Apart b (· = (n : Fd)) e₁ e' := by
    refine Apart.of_eq h.log (fun a ha => ?_) (fun a _ => by rw [h.kernel]; rfl) (fun a ha => ?_)
      (fun a ha => ?_)
    · rw [h.socks, TreeMaps.mem_insert, or_iff_right ha]
    · rw [h.targets, TreeMaps.mem_insertIfNew, or_iff_right ha]
    · rw [h.machines, if_neg ha]
  have hnew : ∀ sm, e'.lvl4Sms[(n : Fd)]? = some sm →
      sm.reconnect = false ∧ sm.reprocess = false := by
    intro sm hsm
    have hnone : e.lvl4Sms[(n : Fd)]? = none := Std.ExtTreeMap.getElem?_eq_none hc.machine
    rw [h.machines, if_pos rfl, registeredSm, hnone] at hsm
    rw [← Option.some.inj hsm]
    exact ⟨rfl, rfl⟩
  have hepoll : e'.kernel.epoll[(n : Fd)]? = none := by
    rw [h.kernel]
    exact Std.ExtTreeMap.getElem?_eq_none (fun hm => hc.socket (e.kernel.epoll_open _ hm))
  have hstage : track b n e'.log = .connecting := by
    have hsig : (Event.connect n t err : Event F).signal n = some .create := if_pos rfl
    rw [h.log, track_of_some hsig, hc.stage]
    rfl
  refine ⟨h₁.trans h₂, ⟨⟨hstage, ?_, fun sm hsm => (hnew sm hsm).1⟩, ?_,
    fun sm hsm => (hnew sm hsm).2⟩⟩
  · rw [h.socks]
    simp
  · rw [hepoll]
    simp

theorem createSocket_settled (h : AllSettled b e) (t : Target) :
    IfHeld (createSocket w cfg t) e (fun r e' => AllSettled b e' ∧
      (r.2 = 0 ∨ r.2 = EINPROGRESS → Connecting b e' r.1)) := by
  unfold createSocket
  apply Runs.read
  split_ifs
  · trivial
  · let e₁ : Engine ω F := { e with world := (w.socket e.kernel t.port.protocol e.world).2 }
    have h₁ : AllSettled b e₁ := h.of_silent (Silent.of_eq rfl rfl rfl rfl)
    refine Runs.bind (Q := fun r e' => e₁ = e' ∧
      (w.socket e.kernel t.port.protocol e.world).1 = r) ⟨rfl, rfl⟩ ?_
    rintro r _ ⟨rfl, hr⟩
    cases r with
    | none =>
      have herr : ¬ (EBADF = 0 ∨ EBADF = EINPROGRESS) := by decide
      exact fun _ => ⟨h₁, fun h => absurd h herr⟩
    | some n =>
      have hclosed : Closed b e₁ (n : Fd) := by
        cases h₁ n with
        | closed h => exact h
        | connecting h => exact absurd h.socket (w.socket_fresh hr)
        | connected h => exact absurd h.socket (w.socket_fresh hr)
      refine Runs.bind (register_connecting hclosed t) (fun err e₂ h₂ hh => ?_)
      refine ⟨h₁.of_apart h₂.1 ?_ hh, fun _ => h₂.2⟩
      rintro a rfl
      exact .connecting h₂.2

theorem launchLoop_mute (fuel : ℕ) : Mute (launchLoop w cfg fuel) :=
  fun _ hh => ((unheld_invariant w).launchLoop w.leaves_true hh).mono (fun _ _ h => h.1)
    (fun _ _ h => h)

theorem launchLoop_settled (hw : w.NeverReconnects) (h : AllSettled cfg.hasFinish e) :
    IfHeld (launchLoop w cfg fuel) e (fun r e' => AllSettled cfg.hasFinish e' ∧
      ∀ s t, r = .started s t → Connecting cfg.hasFinish e' s) := by
  induction fuel generalizing e with
  | zero => trivial
  | succ fuel ih =>
    rw [launchLoop]
    refine Runs.bind (ask_silent (b := cfg.hasFinish) _) (fun r e₁ h₁ => ?_)
    cases r with
    | wouldBlock => exact fun _ => ⟨h.of_silent h₁, by simp⟩
    | target t =>
      by_cases hend : t.isEnd = true
      · simp only [hend, if_true]
        exact fun _ => ⟨h.of_silent h₁, by simp⟩
      · simp only [hend]
        let e₂ : Engine ω F := { e₁ with log := .launched t :: e₁.log }
        have h₂ : Silent cfg.hasFinish e₁ e₂ := Silent.note (fun _ => rfl)
        have h₃ : Silent cfg.hasFinish e₂ (e₁.countLaunch t) := Silent.of_eq rfl rfl rfl rfl
        refine Runs.bind (Runs.update rfl : Runs _ e₁ (fun _ e' => e₁.countLaunch t = e') _) ?_
        rintro _ _ rfl
        refine IfHeld.bind (createSocket_settled (h.of_silent ((h₁.trans h₂).trans h₃)) t)
          (fun r => ?_) (fun r e₄ _ h₄ => ?_)
        · split_ifs
          · exact Keeps.ret _
          · exact Keeps.bind ((unheld_invariant w).socketFinished w.leaves_true _ _)
              (fun _ => launchLoop_mute fuel)
        · by_cases herr : r.2 = 0 ∨ r.2 = EINPROGRESS
          · rw [if_pos herr]
            refine fun _ => ⟨h₄.1, fun s t' heq => ?_⟩
            simp only [LaunchResult.started.injEq] at heq
            rw [← heq.1]
            exact h₄.2 herr
          · rw [if_neg herr]
            exact IfHeld.bind (socketFinished_allSettled hw h₄.1 r.1 r.2)
              (fun _ => launchLoop_mute fuel) (fun _ e₅ _ h₅ => ih h₅)

/-- A started socket is watched for output only. -/
theorem addStarted_settled (h : AllSettled b e) (hc : Connecting b e s) (t : Target) :
    IfHeld (addStarted w s t) e (fun _ e' => AllSettled b e') := by
  unfold addStarted
  refine Runs.bind (hostSm_silent (b := b) t.ipv4) (fun hsm e₁ h₁ => ?_)
  refine Runs.bind (ask_silent (b := b) _) (fun hsm' e₂ h₂ => ?_)
  let e₃ : Engine ω F := { e₂ with hostsSms := e₂.hostsSms.insert t.ipv4 hsm' }
  have h₃ : Silent b e e₃ := (h₁.trans h₂).trans (Silent.of_eq rfl rfl rfl rfl)
  have ho₃ := h₃.opened hc.toOpen
  have hsocks : (e₃.addConnectingSocket s).kernel.socks = e₃.kernel.socks :=
    Kernel.epollAdd_socks _ _ _
  have h₄ : Apart b (· = s) e₃ (e₃.addConnectingSocket s) :=
    Apart.of_eq rfl (fun a _ => by rw [hsocks]) (fun a ha => Kernel.epollAdd_of_ne _ _ ha)
      (fun a _ => Iff.rfl) (fun a _ => rfl)
  have hs : Settled b (e₃.addConnectingSocket s) s := by
    refine .connecting ⟨⟨ho₃.stage, by rw [hsocks]; exact ho₃.socket, ho₃.calm⟩, ?_, ?_⟩
    · change (e₃.kernel.epollAdd s .epollout).epoll[s]? ≠ _
      have hepoll : e₃.kernel.epoll[s]? ≠ some .epollin := by
        rw [h₃.kernel]
        exact hc.epoll
      rw [Kernel.epollAdd_self _ _ ho₃.socket]
      cases hi : e₃.kernel.epoll[s]? with
      | none => simp
      | some i =>
        rw [hi] at hepoll
        exact hepoll
    · intro sm hsm
      change e₃.lvl4Sms[s]? = some sm at hsm
      rw [h₃.machines] at hsm
      exact hc.clean sm hsm
  exact fun hh => h.of_apart (h₃.apart.trans h₄) (by rintro a rfl; exact hs) hh

theorem freeSocksLoop_settled (hw : w.NeverReconnects) (n : ℕ) (h : AllSettled cfg.hasFinish e) :
    IfHeld (freeSocksLoop w cfg fuel n) e (fun _ e' => AllSettled cfg.hasFinish e') := by
  have hmute := unheld_invariant w
  induction n generalizing e with
  | zero => exact fun _ => h
  | succ n ih =>
    rw [freeSocksLoop]
    refine IfHeld.bind (launchLoop_settled hw h) (fun r => ?_) (fun r e₁ _ h₁ => ?_)
    · cases r with
      | started s t =>
        refine fun e' hh =>
          Runs.bind (hmute.addStarted w.leaves_true hh trivial) (fun _ e₂ h₂ => ?_)
        exact hmute.freeSocksLoop w.leaves_true n e₂ h₂
      | _ => exact Keeps.ret _
    · cases r with
      | noTarget => exact fun _ => h₁.1
      | wouldBlock => exact fun _ => h₁.1
      | started s t =>
        exact IfHeld.bind (addStarted_settled h₁.1 (h₁.2 s t rfl) t)
          (fun _ => hmute.freeSocksLoop w.leaves_true n) (fun _ e₂ _ h₂ => ih h₂)

theorem processFreeSocks_settled (hw : w.NeverReconnects) (h : AllSettled cfg.hasFinish e) :
    IfHeld (processFreeSocks w cfg fuel) e (fun _ e' => AllSettled cfg.hasFinish e') := by
  unfold processFreeSocks
  let e₁ : Engine ω F := { e with log := .freeSocks :: e.log }
  have h₁ : Silent cfg.hasFinish e e₁ := Silent.note (fun _ => rfl)
  refine Runs.bind (Runs.update rfl : Runs _ e (fun _ e' => e₁ = e') _) ?_
  rintro _ _ rfl
  apply Runs.read
  exact freeSocksLoop_settled hw _ (h.of_silent h₁)

theorem displayStatus_settled (hw : w.NeverReconnects) (h : AllSettled b e) :
    IfHeld (displayStatus w cfg) e (fun _ e' => AllSettled b e') := by
  have hshould : IfReturns (shouldCallStatusDisplay w cfg) e (fun _ e' => Still b e e') := by
    unfold shouldCallStatusDisplay
    split_ifs
    · exact Apart.refl e
    · refine Runs.bind (ask_silent (b := b) _) (fun now e₁ h₁ => ?_)
      apply Runs.read
      have h₂ : Silent b e₁ { e₁ with lastTimeStatusDisplay := now } := Silent.of_eq rfl rfl rfl rfl
      split_ifs
      · exact (h₁.trans h₂).apart
      · exact h₁.apart
  have hstill : IfReturns (displayStatus w cfg) e (fun _ e' => Still b e e') := by
    unfold displayStatus
    refine Runs.bind hshould (fun v e₁ h₁ => ?_)
    split_ifs
    · apply Runs.read
      exact (callback_still hw rfl).mono (fun _ _ h => h₁.trans h) (fun _ _ h => h)
    · exact h₁
  exact hstill.mono (fun _ _ h' hh => h.of_apart h' (fun _ h => h.elim) hh) (fun _ _ h => h)

theorem Phase.settled (hw : w.NeverReconnects) (p : Phase) (h : AllSettled cfg.hasFinish e) :
    IfHeld (p.run w cfg fuel) e (fun _ e' => AllSettled cfg.hasFinish e') := by
  cases p with
  | freeSocks => exact Runs.bind (processFreeSocks_settled hw h) (fun _ _ h => h)
  | events => exact Runs.bind (processEvents_settled hw h) (fun _ _ h => h)
  | dirty => exact Runs.bind (processDirtyAndTimeouts_settled hw h) (fun _ _ h => h)
  | status => exact displayStatus_settled hw h

theorem Reachable.allSettled (hw : w.NeverReconnects) (h : Reachable w cfg e)
    (hheld : HeldReferences e.log) : AllSettled cfg.hasFinish e := by
  induction h with
  | init o =>
    exact fun a => .closed ⟨rfl, by simp [Engine.init, Kernel.empty], by simp [Engine.init],
      by simp [Engine.init]⟩
  | @phase e₁ e₂ fuel p _ hr ih =>
    have hheld₁ : HeldReferences e₁.log := by
      by_contra hno
      exact ((unheld_invariant w).phase w.leaves_true p _ hno).of_ok hr hheld
    exact (Phase.settled hw p (ih hheld₁)).of_ok hr hheld

/-- In every run no connection ever leaves the protocol, and after each phase every connection is
at a stage between two callbacks. -/
theorem callbacks_in_order {w : World ω F} {cfg : Config F} {e : Engine ω F}
    (hw : w.NeverReconnects) (h : Reachable w cfg e) (hheld : HeldReferences e.log) (s : Fd) :
    (track cfg.hasFinish s e.log).betweenPhases = true ∧
      ∀ l : List (Event F), l <:+ e.log → track cfg.hasFinish s l ≠ .broken := by
  have hend := (h.allSettled hw hheld s).betweenPhases
  refine ⟨hend, fun l hl hbroken => ?_⟩
  obtain ⟨l', hl'⟩ := hl
  rw [← hl', track_broken hbroken] at hend
  exact absurd hend (by simp [Stage.betweenPhases])

/-- An `on_connect` action that waits for one byte. -/
def waitForByte : (cb : Callback Unit) → cb.Answer × List (Call Unit)
  | .connected _ ct => (true, [.onSm ct.s (.setTrigger (.size 1 (some ())))])
  | cb => Script.goOn cb

theorem waitForByte_neverReconnects : (Script.world waitForByte).NeverReconnects := by
  intro cb sc c hc
  cases cb with
  | connected f ct =>
    simp only [Script.world, waitForByte, List.mem_singleton] at hc
    rw [hc]
    rfl
  | _ => simp [Script.world, waitForByte, Script.goOn] at hc

/-- One byte is there to read for each event that is still to come. -/
def byteWorld : World Script Unit :=
  { Script.world waitForByte with
    bytesAvail := fun _ _ sc => (sc.events.length, sc)
    read := fun _ n sc => (⟨n, List.replicate n 7⟩, sc) }

/-- A connection on descriptor 5 that sends one byte and is then closed by its peer. -/
def byteRun : Except Fault Unit × Engine Script Unit :=
  (runPhases byteWorld stayConfig 2 [.freeSocks, .events, .dirty, .events, .events]).runFrom
    (.init stayConfig ⟨[⟨1, ⟨80, .tcp⟩⟩], [5], [],
      [some (5, .epollout), some (5, .epollin), some (5, .epollin)], 0, 0⟩)

theorem callbacks_in_order_one_byte :
    .called (.data () ⟨⟨1, ⟨80, .tcp⟩⟩, 5⟩ [7]) ∈ byteRun.2.log ∧
      .called (.finish ⟨1, ⟨80, .tcp⟩⟩ [] ECONNRESET) ∈ byteRun.2.log ∧
      (track true 5 byteRun.2.log).betweenPhases = true ∧
      ∀ l : List (Event Unit), l <:+ byteRun.2.log → track true 5 l ≠ .broken := by
  have hreach : Reachable byteWorld stayConfig byteRun.2 :=
    Reachable.phases (.init _) (by decide +kernel)
  have hnever : byteWorld.NeverReconnects := waitForByte_neverReconnects
  exact ⟨by decide +kernel, by decide +kernel,
    callbacks_in_order hnever hreach (by decide +kernel) 5⟩

end Nodescan
