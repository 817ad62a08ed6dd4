import Nodescan.Connections
import Nodescan.Script

/-!
# Connections do not disturb each other

Every function of the engine is a sequence of steps in the life of each connection; for most of
them it is a step in the life of one and nothing in the lives of the others. So every run of the
engine, seen on one descriptor, is a run of the life of one connection: whatever the engine does in
between for the others does not show.

An event is handled as if it had just been reported. This is right because the events that are
handled before it in the same batch are those of other sockets.
-/

namespace Nodescan

open FaultM EngineM

variable {ω υ F α β : Type} {w : World ω F} {p : Program υ F} {cfg : Config F} {s : Fd} {fuel : ℕ}
  {e e' : Engine (WithSessions ω υ) F}

theorem ConnSteps.book {c : Conn υ F} {f : Lvl4SM F → Lvl4SM F} (hf : ∀ sm, Booked sm (f sm)) :
    ConnSteps p cfg s c { c with machine := c.machine.map f } := by
  cases hm : c.machine with
  | none =>
    have hc : { c with machine := none } = c := by rw [← hm]
    rw [Option.map_none, hc]
  | some sm => exact .single (.booked hm (hf sm))

/-- Reconnection is not asked for. -/
def Conn.Calm (c : Conn υ F) : Prop := ∀ sm, c.machine = some sm → sm.reconnect = false

theorem Lvl4SM.callAll_reconnect {cs : List (SmCall F)} (h : SmCall.setReconnect true ∉ cs)
    {sm : Lvl4SM F} (hs : sm.reconnect = false) : (sm.callAll cs).reconnect = false := by
  induction cs generalizing sm with
  | nil => exact hs
  | cons c cs ih =>
    refine ih (fun hmem => h (List.mem_cons_of_mem c hmem)) ?_
    cases c with
    | setReconnect v =>
      cases v with
      | true => exact absurd List.mem_cons_self h
      | false => rfl
    | _ => exact hs

theorem Program.NeverReconnects.kept (hp : p.NeverReconnects) (ct : ConnectedTarget) :
    Lvl4SM.Kept p.actions ct (fun sm _ => sm.reconnect = false) where
  buf := fun _ h => h
  data := fun _ _ h => Lvl4SM.callAll_reconnect (hp _ _) h
  python := fun _ _ _ h => Lvl4SM.callAll_reconnect (hp _ _) h

theorem Conn.Calm.worked {c : Conn υ F} {v : Bool} {sm : Lvl4SM F} {u : υ}
    (h : sm.reconnect = false) : (c.worked v sm u).Calm := by
  intro sm' hm
  cases v with
  | true => exact Option.some.inj hm ▸ h
  | false => simp [Conn.worked, Conn.close] at hm

theorem ConnStep.calm (hp : p.NeverReconnects) {c c' : Conn υ F} (h : ConnStep p cfg s c c')
    (hc : c.Calm) : c'.Calm := by
  cases h with
  | booked hm h =>
    intro sm' hm'
    rw [← Option.some.inj hm', h.reconnect, hc _ hm]
  | made hm now =>
    intro sm' hm'
    rw [← Option.some.inj hm']
    rfl
  | created _ _ t hm h =>
    intro sm' hm'
    rw [← Option.some.inj hm', h.reconnect]
    rcases hm with hm | ⟨-, now, rfl⟩
    · exact hc _ hm ▸ rfl
    · rfl
  | watched _ => exact hc
  | connected hi ht hm hf => exact .worked (Lvl4SM.callAll_reconnect (hp _ _) (hc _ hm))
  | received hi ht hm h => exact .worked ((hp.kept _).processLvl4Data (hc _ hm) h)
  | passed ht hm h => exact .worked ((hp.kept _).processLoop (hc _ hm) h)
  | warned hm peer =>
    intro sm' hm'
    rw [← Option.some.inj hm']
    exact Lvl4SM.callAll_reconnect (hp _ _) (hc _ hm)
  | closed =>
    intro sm' hm'
    simp [Conn.close] at hm'

theorem ConnSteps.calm (hp : p.NeverReconnects) {c c' : Conn υ F} (h : ConnSteps p cfg s c c')
    (hc : c.Calm) : c'.Calm := by
  induction h with
  | refl => exact hc
  | tail _ hs ih => exact hs.calm hp ih

/-- `x` is a sequence of steps in the life of the connection of `s`, and nothing to the others. -/
def Lives (p : Program υ F) (cfg : Config F) (s : Fd) (x : EngineM (WithSessions ω υ) F α)
    (e : Engine (WithSessions ω υ) F) : Prop :=
  Touches s x e (fun _ c => ConnSteps p cfg s (e.connection s) c)

/-- `x` is a sequence of steps in the life of every connection. -/
def AllLive (p : Program υ F) (cfg : Config F) (x : EngineM (WithSessions ω υ) F α)
    (e : Engine (WithSessions ω υ) F) : Prop :=
  Runs x e (fun _ e' => ∀ a, ConnSteps p cfg a (e.connection a) (e'.connection a))
    (fun _ _ => True)

theorem ConnSteps.of_touched (h : (∀ a, a ≠ s → e'.connection a = e.connection a) ∧
    ConnSteps p cfg s (e.connection s) (e'.connection s)) (a : Fd) :
    ConnSteps p cfg a (e.connection a) (e'.connection a) := by
  by_cases ha : a = s
  · rw [ha]
    exact h.2
  · rw [h.1 a ha]

namespace Lives

theorem all {x : EngineM (WithSessions ω υ) F α} (h : Lives p cfg s x e) :
    AllLive p cfg x e :=
  Runs.mono h (fun _ _ hs => ConnSteps.of_touched hs) (fun _ _ h => h)

/-- What follows on something that changes no connection. -/
theorem after {x : EngineM (WithSessions ω υ) F β}
    {f : β → EngineM (WithSessions ω υ) F α} (hx : Untouched x e)
    (hf : ∀ v e', e'.connection s = e.connection s → Lives p cfg s (f v) e') :
    Lives p cfg s (x >>= f) e := by
  refine Touches.after hx (fun v e' h => ?_)
  rw [← h]
  exact hf v e' h

theorem bind {x : EngineM (WithSessions ω υ) F β}
    {f : β → EngineM (WithSessions ω υ) F α} {R : β → Conn υ F → Prop}
    (hx : Touches s x e (fun v c => ConnSteps p cfg s (e.connection s) c ∧ R v c))
    (hf : ∀ v e', R v (e'.connection s) → Lives p cfg s (f v) e') :
    Lives p cfg s (x >>= f) e := by
  refine Touches.bind hx (fun v e' h => ?_)
  exact (hf v e' h.2).mono (fun _ _ h' => h.1.trans h')

theorem ret (v : α) : Lives p cfg s (pure v : EngineM (WithSessions ω υ) F α) e :=
  Touches.ret .refl

theorem socketFinished (err : ℤ) :
    Lives p cfg s (EngineM.socketFinished (w.sessions p) cfg s err) e := by
  refine (Touches.socketFinished err).mono (fun _ c hc => ?_)
  rw [hc]
  exact .single (.closed _)

theorem updateTs : Lives p cfg s (EngineM.updateTs (w.sessions p) s) e := by
  refine Touches.updateTs.mono (fun _ c hc => ?_)
  obtain ⟨now, rfl⟩ := hc
  exact ConnSteps.book (fun _ => ⟨rfl, rfl, rfl, rfl⟩)

theorem lvl4Sm : Touches s (EngineM.lvl4Sm (w.sessions p) s) e (fun sm c =>
    ConnSteps p cfg s (e.connection s) c ∧ c = { e.connection s with machine := some sm } ∧
      (sm.reconnect = true → (e.connection s).machine = some sm)) := by
  refine Touches.lvl4Sm.mono (fun sm c h => ?_)
  obtain ⟨hm, rfl | ⟨hnone, now, rfl, rfl⟩⟩ := h
  · have hc : { e.connection s with machine := some sm } = e.connection s := by rw [← hm]
    exact ⟨.refl, hc.symm, fun _ => hm⟩
  · exact ⟨.single (.made hnone now), rfl, fun h => by simp [Lvl4SM.new] at h⟩

theorem hasWatchTimedout (ts watchTs : ℤ) {sm : Lvl4SM F} (hm : (e.connection s).machine = some sm) :
    Lives p cfg s (EngineM.hasWatchTimedout (w.sessions p) cfg ts s watchTs) e := by
  unfold EngineM.hasWatchTimedout
  split_ifs
  · exact ret _
  · refine Touches.read (after (Untouched.ask (fun _ => rfl)) (fun peer e₁ h₁ => ?_))
    rw [← h₁] at hm
    refine bind (R := fun _ _ => True) (Touches.callback rfl |>.mono ?_) (fun goOn e₂ _ => ?_)
    · rintro _ c ⟨-, rfl⟩
      rw [hm, Option.map_some]
      exact ⟨.single (.warned hm peer), trivial⟩
    · split_ifs
      · refine bind (R := fun _ _ => True) (Touches.modifySm.mono ?_) (fun _ _ _ => ret _)
        rintro _ c rfl
        exact ⟨ConnSteps.book (fun _ => ⟨rfl, rfl, rfl, rfl⟩), trivial⟩
      · exact ret _
  · exact ret _

theorem hasTimedout (ts : ℤ) (sm : Lvl4SM F) {sm₀ : Lvl4SM F}
    (hm : (e.connection s).machine = some sm₀) :
    Lives p cfg s (EngineM.hasTimedout (w.sessions p) cfg ts s sm) e := by
  refine after (Untouched.timeoutOfTarget s) (fun timeoutTarget e₁ h₁ => ?_)
  split_ifs
  · exact ret _
  · exact hasWatchTimedout ts _ (h₁ ▸ hm)

theorem inspect (ts : ℤ) (l : WorkLists) :
    Lives p cfg s (EngineM.inspect (w.sessions p) cfg ts s l) e := by
  unfold EngineM.inspect
  apply Touches.read
  cases hs : e.lvl4Sms[s]? with
  | none => exact ret l
  | some sm =>
    have hm : (e.connection s).machine = some sm := hs
    dsimp only
    split_ifs
    · refine bind (R := fun _ c => c.machine = some sm.shouldProcessBuffer.2)
        (Touches.modifySm.mono ?_) (fun _ e₁ h₁ => ?_)
      · rintro _ c rfl
        refine ⟨ConnSteps.book (fun _ => ⟨rfl, rfl, rfl, rfl⟩), ?_⟩
        rw [hm, Option.map_some]
      · refine bind (R := fun _ _ => True) ?_ (fun out e₂ _ => ret _)
        exact (hasTimedout ts sm h₁).mono (fun _ _ h => ⟨h, trivial⟩)
    · exact ret l

theorem processConnectingReady (hi : (e.connection s).interest = some .epollout) :
    Lives p cfg s (EngineM.processConnectingReady (w.sessions p) cfg s) e := by
  unfold EngineM.processConnectingReady
  refine Touches.read (after (Untouched.ask (fun _ => rfl)) (fun err e₁ h₁ => ?_))
  rw [← h₁] at hi
  split_ifs
  · exact socketFinished err
  refine bind (R := fun t c => c = e₁.connection s ∧ c.target = some t)
    (Touches.targetFromSocket.mono ?_) (fun t e₂ h₂ => ?_)
  · rintro t c ⟨rfl, ht⟩
    exact ⟨.refl, rfl, ht⟩
  refine after (Untouched.hostSm _) (fun _ e₃ h₃ => ?_)
  have hi₃ : (e₃.connection s).interest = some .epollout := by rw [h₃, h₂.1, hi]
  have ht₃ : (e₃.connection s).target = some t := by rw [h₃, h₂.2]
  rw [EngineM.onConnect, bind_assoc]
  refine bind lvl4Sm (fun sm e₄ h₄ => ?_)
  have hi₄ : (e₄.connection s).interest = some .epollout := by rw [h₄.1, hi₃]
  have ht₄ : (e₄.connection s).target = some t := by rw [h₄.1, ht₃]
  have hm₄ : (e₄.connection s).machine = some sm := by rw [h₄.1]
  cases hf : sm.funcConnect with
  | none =>
    simp only [pure_bind]
    exact socketFinished 0
  | some f =>
    have hstep : ConnStep p cfg s _ _ := .connected hi₄ ht₄ hm₄ hf
    refine Touches.bind (Touches.callback rfl) (fun ret e₅ h₅ => ?_)
    obtain ⟨rfl, hc₅⟩ := h₅
    rw [hm₄, Option.map_some] at hc₅
    split_ifs with hret
    · have ho₅ : (e₅.connection s).isOpen = true := by
        rw [hc₅]
        exact Engine.connection_open hi₄
      refine Touches.bind (Touches.watchInput ho₅) (fun _ e₆ h₆ => ?_)
      have hbook : Lives p cfg s (EngineM.updateTs (w.sessions p) s) e₆ := updateTs
      refine hbook.mono (fun _ c hc => .head hstep ?_)
      rw [hret, Conn.worked, if_pos rfl]
      rw [h₆, hc₅] at hc
      exact hc
    · refine (Touches.socketFinished 0).mono (fun _ c hc => ?_)
      rw [hc, hc₅]
      rw [Bool.not_eq_true] at hret
      rw [hret, Conn.worked] at hstep
      exact .single hstep

/-- With no reconnection asked for. -/
theorem processConnectedReady {t : Target} (hi : (e.connection s).interest = some .epollin)
    (ht : (e.connection s).target = some t)
    (hcalm : ∀ sm, (e.connection s).machine = some sm → sm.reconnect = false) :
    Lives p cfg s (EngineM.processConnectedReady (w.sessions p) cfg fuel s t) e := by
  unfold EngineM.processConnectedReady
  refine Touches.read (after (Untouched.ask (fun _ => rfl)) (fun navail e₁ h₁ => ?_))
  rw [← h₁] at hi ht hcalm
  refine bind lvl4Sm (fun sm e₂ h₂ => ?_)
  have hi₂ : (e₂.connection s).interest = some .epollin := by rw [h₂.1, hi]
  have ht₂ : (e₂.connection s).target = some t := by rw [h₂.1, ht]
  have hm₂ : (e₂.connection s).machine = some sm := by rw [h₂.1]
  split_ifs with hzero hrec
  · have hfalse := hcalm sm (h₂.2 hrec)
    rw [hrec] at hfalse
    simp at hfalse
  · exact socketFinished _
  refine after (Untouched.hostSm _) (fun _ e₃ h₃ => ?_)
  rw [← h₃] at hi₂ ht₂ hm₂
  refine Touches.bind (Touches.receives navail) (fun r e₄ h₄ => ?_)
  refine Touches.bind (Touches.onLvl4Sm (fun sm =>
    (OnlyUser.renamed s t e₄).processLvl4Data ⟨fun _ _ => rfl, rfl⟩ fuel navail r sm))
    (fun v e₅ h₅ => ?_)
  obtain ⟨sm₄, sm', u, hm₄, hwork, hc₅⟩ := h₅
  have hsm : sm₄ = sm := by
    rw [h₄] at hm₄
    exact Option.some.inj (hm₄.symm.trans hm₂)
  subst hsm
  have huser : (e₄.connection s).session.user = (e₃.connection s).session.user := by rw [h₄]; rfl
  rw [huser] at hwork
  have hstep : ConnStep p cfg s _ _ := .received hi₂ ht₂ hm₂ hwork
  refine Touches.bind Touches.updateTs (fun _ e₆ h₆ => ?_)
  obtain ⟨now, hc₆⟩ := h₆
  cases v with
  | true =>
    refine Touches.ret (.head hstep ?_)
    rw [hc₆, hc₅, h₄]
    exact ConnSteps.book (fun _ => ⟨rfl, rfl, rfl, rfl⟩)
  | false =>
    refine (Touches.socketFinished 0).mono (fun _ c hc => ?_)
    rw [hc, hc₆, hc₅, h₄]
    exact .single hstep

theorem processEvent {ev : EpollEvent}
    (hout : ev.epollout = true → (e.connection ev.fd).interest = some .epollout)
    (hin : ev.epollin = true → (e.connection ev.fd).interest = some .epollin)
    (hcalm : (e.connection ev.fd).Calm) :
    Lives p cfg ev.fd (EngineM.processEvent (w.sessions p) cfg fuel ev) e := by
  unfold EngineM.processEvent
  split_ifs with h₁ h₂
  · refine bind lvl4Sm (fun sm e₁ h => processConnectingReady ?_)
    rw [h.1]
    exact hout h₁
  · refine bind (R := fun t c => c = e.connection ev.fd ∧ c.target = some t)
      (Touches.targetFromSocket.mono ?_) (fun t e₁ h => ?_)
    · rintro t c ⟨rfl, ht⟩
      exact ⟨.refl, rfl, ht⟩
    refine bind lvl4Sm (fun sm e₂ h' => ?_)
    rw [h.1] at h'
    refine processConnectedReady ?_ ?_ (fun sm' hm => ?_)
    · rw [h'.1]
      exact hin h₂
    · rw [h'.1, ← h.1]
      exact h.2
    · rw [h'.1] at hm
      rw [← Option.some.inj hm]
      by_contra hrec
      rw [Bool.not_eq_false] at hrec
      exact absurd (hcalm sm (h'.2 hrec)) (by simp [hrec])
  · exact ret ()

end Lives

namespace AllLive

theorem bind {x : EngineM (WithSessions ω υ) F β}
    {f : β → EngineM (WithSessions ω υ) F α} (hx : AllLive p cfg x e)
    (hf : ∀ v e', (∀ a, ConnSteps p cfg a (e.connection a) (e'.connection a)) →
      AllLive p cfg (f v) e') : AllLive p cfg (x >>= f) e := by
  refine Runs.bind hx (fun v e' h => ?_)
  exact (hf v e' h).mono (fun _ _ h' a => (h a).trans (h' a)) (fun _ _ h' => h')

theorem of_untouched {x : EngineM (WithSessions ω υ) F α} (hx : Untouched x e) : AllLive p cfg x e := by
  refine Runs.mono hx (fun _ _ h a => ?_) (fun _ _ h => h)
  rw [h a]

theorem ret (v : α) : AllLive p cfg (pure v : EngineM (WithSessions ω υ) F α) e :=
  fun _ => .refl

theorem forM {f : β → EngineM (WithSessions ω υ) F Unit} (xs : List β)
    (hf : ∀ v e, AllLive p cfg (f v) e) : AllLive p cfg (xs.forM f) e := by
  induction xs generalizing e with
  | nil => exact ret ()
  | cons v xs ih => exact bind (hf v e) (fun _ _ _ => ih)

theorem processEventList (hp : p.NeverReconnects) (evs : List EpollEvent)
    (hnodup : (evs.map EpollEvent.fd).Nodup)
    (hreg : ∀ ev ∈ evs, (ev.epollout = true → (e.connection ev.fd).interest = some .epollout) ∧
      (ev.epollin = true → (e.connection ev.fd).interest = some .epollin))
    (hcalm : ∀ a, (e.connection a).Calm) :
    AllLive p cfg (evs.forM (EngineM.processEvent (w.sessions p) cfg fuel)) e := by
  induction evs generalizing e with
  | nil => exact ret ()
  | cons ev evs ih =>
    obtain ⟨hout, hin⟩ := hreg ev List.mem_cons_self
    rw [List.map_cons, List.nodup_cons] at hnodup
    have hlives : Lives p cfg ev.fd (EngineM.processEvent (w.sessions p) cfg fuel ev) e :=
      Lives.processEvent hout hin (hcalm _)
    refine Runs.bind hlives (fun _ e₁ h₁ => ?_)
    have hsteps := ConnSteps.of_touched h₁
    have hsame : ∀ ev' ∈ evs, e₁.connection ev'.fd = e.connection ev'.fd := by
      intro ev' hmem
      refine h₁.1 _ (fun heq => hnodup.1 ?_)
      rw [← heq]
      exact List.mem_map_of_mem hmem
    refine Runs.mono (ih hnodup.2 (fun ev' hmem => ?_) (fun a => (hsteps a).calm hp (hcalm a)))
      (fun _ _ h₂ a => (hsteps a).trans (h₂ a)) (fun _ _ h => h)
    rw [hsame ev' hmem]
    exact hreg ev' (List.mem_cons_of_mem ev hmem)

theorem processEvents (hp : p.NeverReconnects) (hcalm : ∀ a, (e.connection a).Calm) :
    AllLive p cfg (EngineM.processEvents (w.sessions p) cfg fuel) e := by
  unfold EngineM.processEvents
  refine Runs.read (Runs.bind (Q := fun r e' => r = ((w.sessions p).epollWait e.kernel e.world).1 ∧
    ∀ a, e'.connection a = e.connection a) ⟨rfl, fun _ => rfl⟩ (fun r e₁ h₁ => ?_))
  obtain ⟨hr, hsame⟩ := h₁
  cases r with
  | none =>
    refine Runs.ret (fun a => ?_)
    rw [hsame a]
  | some evs =>
    have hevents : AllLive p cfg (evs.forM (EngineM.processEvent (w.sessions p) cfg fuel)) e₁ := by
      refine processEventList hp evs ((w.sessions p).epollWait_nodup hr.symm) (fun ev hmem => ?_)
        (fun a => (hsame a).symm ▸ hcalm a)
      rw [hsame]
      exact ((w.sessions p).epollWait_registered hr.symm ev hmem).2
    refine Runs.bind hevents (fun _ e₂ h₂ => Runs.ret (fun a => ?_))
    rw [← hsame a]
    exact h₂ a

theorem inspectAll (ts : ℤ) (ss : List Fd) (l : WorkLists) :
    AllLive p cfg (EngineM.inspectAll (w.sessions p) cfg ts ss l) e := by
  induction ss generalizing e l with
  | nil => exact ret l
  | cons s ss ih => exact bind (Lives.inspect ts l).all (fun l' _ _ => ih l')

/-- A machine on the list goes on, or its connection ends. -/
theorem reprocess (ss : List Fd) :
    AllLive p cfg (EngineM.reprocess (w.sessions p) cfg fuel ss) e := by
  induction ss generalizing e with
  | nil => exact ret []
  | cons s ss ih =>
    rw [EngineM.reprocess]
    refine Runs.bind Touches.targetFromSocket (fun t e₁ h₁ => ?_)
    obtain ⟨hothers₁, hc₁, ht⟩ := h₁
    refine Runs.bind (Untouched.hostSm _) (fun _ e₂ h₂ => ?_)
    rw [← h₂ s] at ht
    refine Runs.bind (Touches.onLvl4Sm (fun sm =>
      (OnlyUser.renamed s t e₂).processLoop ⟨fun _ _ => rfl, rfl⟩ fuel sm 0)) (fun v e₃ h₃ => ?_)
    obtain ⟨hothers₃, sm, sm', u, hm, hwork, hc₃⟩ := h₃
    have hothers : ∀ a, a ≠ s → e₃.connection a = e.connection a :=
      fun a ha => (hothers₃ a ha).trans ((h₂ a).trans (hothers₁ a ha))
    have hstep : ConnStep p cfg s _ _ := .passed ht hm hwork
    rw [h₂ s, hc₁] at hstep hc₃
    cases v with
    | true =>
      have hown : ConnSteps p cfg s (e.connection s) (e₃.connection s) := by
        rw [hc₃]
        exact .single hstep
      have hsteps := ConnSteps.of_touched ⟨hothers, hown⟩
      exact (ih (e := e₃)).mono (fun _ _ h a => (hsteps a).trans (h a)) (fun _ _ h => h)
    | false =>
      refine Runs.bind (Touches.socketFinished 0) (fun _ e₄ h₄ => ?_)
      have hown : ConnSteps p cfg s (e.connection s) (e₄.connection s) := by
        rw [h₄.2, hc₃]
        exact .single hstep
      have hsteps := ConnSteps.of_touched
        ⟨fun a ha => (h₄.1 a ha).trans (hothers a ha), hown⟩
      refine Runs.bind (ih (e := e₄)) (fun _ _ h => Runs.ret (fun a => ?_))
      exact (hsteps a).trans (h a)

theorem processDirtyAndTimeouts :
    AllLive p cfg (EngineM.processDirtyAndTimeouts (w.sessions p) cfg fuel) e := by
  have hlists : AllLive p cfg (workLists (w.sessions p) cfg) e := by
    unfold workLists
    refine bind (of_untouched (Untouched.ask (fun _ => rfl))) (fun ts e₁ _ => ?_)
    exact Runs.read (inspectAll ts _ _)
  unfold EngineM.processDirtyAndTimeouts
  refine bind hlists (fun l e₁ _ => bind (reprocess l.toProcess) (fun _ e₂ _ => ?_))
  refine bind (forM l.timeouted (fun s _ => ?_)) (fun _ _ _ => ret _)
  exact (Lives.socketFinished _).all

/-- A new connection, on a descriptor that was not open. -/
theorem register {n : ℕ} (t : Target) (hn : (n : Fd) ∉ e.kernel.socks) :
    Lives p cfg n (EngineM.register (w.sessions p) cfg n t) e := by
  obtain ⟨ho, hi⟩ := Engine.connection_closed hn
  unfold EngineM.register
  refine Touches.bind (Touches.opens rfl rfl rfl rfl rfl) (fun _ e₁ h₁ => ?_)
  refine Touches.read (Touches.bind (Touches.connects _ t) (fun err e₂ h₂ => ?_))
  refine Touches.bind (Touches.opens rfl rfl rfl rfl rfl) (fun _ e₃ h₃ => ?_)
  refine Touches.bind Touches.newLvl4Sm (fun _ e₄ h₄ => ?_)
  obtain ⟨now, h₄⟩ := h₄
  refine Touches.bind Touches.modifySm (fun _ e₅ h₅ => ?_)
  refine Touches.bind Touches.updateTs (fun _ e₆ h₆ => ?_)
  obtain ⟨now', h₆⟩ := h₆
  refine Touches.bind (Touches.insertTarget n t) (fun _ e₇ h₇ => Touches.ret ?_)
  have hm : (e.connection n).machine = some ((e.connection n).machine.getD (.new now)) ∨
      (e.connection n).machine = none ∧ ∃ now', (e.connection n).machine.getD (.new now) =
        Lvl4SM.new now' := by
    cases (e.connection n).machine with
    | none => exact Or.inr ⟨rfl, now, rfl⟩
    | some sm => exact Or.inl rfl
  rw [h₇, h₆, h₅, h₄, h₃, h₂, h₁]
  refine .single ?_
  dsimp only [Option.map_some]
  rw [hi]
  exact .created ho hi t hm ⟨rfl, rfl, rfl, rfl⟩

theorem createSocket (t : Target) :
    AllLive p cfg (EngineM.createSocket (w.sessions p) cfg t) e := by
  unfold EngineM.createSocket
  apply Runs.read
  split_ifs
  · exact trivial
  · refine Runs.bind (Q := fun r e' =>
      r = ((w.sessions p).socket e.kernel t.port.protocol e.world).1 ∧ e'.kernel = e.kernel ∧
        ∀ a, e'.connection a = e.connection a) ⟨rfl, rfl, fun _ => rfl⟩ (fun r e₁ h₁ => ?_)
    obtain ⟨hr, hkernel, hsame⟩ := h₁
    cases r with
    | none =>
      refine Runs.ret (fun a => ?_)
      rw [hsame a]
    | some n =>
      have hn : (n : Fd) ∉ e₁.kernel.socks := by
        rw [hkernel]
        exact (w.sessions p).socket_fresh hr.symm
      refine Runs.bind (register t hn).all (fun _ e₂ h₂ => Runs.ret (fun a => ?_))
      rw [← hsame a]
      exact h₂ a

theorem launchLoop : AllLive p cfg (EngineM.launchLoop (w.sessions p) cfg fuel) e := by
  induction fuel generalizing e with
  | zero => exact trivial
  | succ fuel ih =>
    rw [EngineM.launchLoop]
    refine bind (of_untouched (Untouched.ask (fun _ => rfl))) (fun r e₁ _ => ?_)
    cases r with
    | wouldBlock => exact ret _
    | target t =>
      dsimp only
      split_ifs
      · exact ret _
      · refine bind (of_untouched (Untouched.update (fun _ => rfl))) (fun _ e₂ _ => ?_)
        refine bind (createSocket t) (fun r e₃ _ => ?_)
        split_ifs
        · exact ret _
        · exact bind (Lives.socketFinished _).all (fun _ _ _ => ih)

theorem addStarted (s : Fd) (t : Target) :
    AllLive p cfg (EngineM.addStarted (w.sessions p) s t) e := by
  unfold EngineM.addStarted
  refine bind (of_untouched (Untouched.hostSm _)) (fun hsm e₁ _ => ?_)
  refine bind (of_untouched (Untouched.ask (fun _ => rfl))) (fun hsm' e₂ _ => ?_)
  refine bind (of_untouched (Untouched.update (fun _ => rfl))) (fun _ e₃ _ => Lives.all (s := s) ?_)
  refine Touches.addConnectingSocket.mono (fun _ c hc => ?_)
  rcases hc with rfl | ⟨ho, rfl⟩
  · exact .refl
  · exact .single (.watched ho)

theorem freeSocksLoop (n : ℕ) :
    AllLive p cfg (EngineM.freeSocksLoop (w.sessions p) cfg fuel n) e := by
  induction n generalizing e with
  | zero => exact ret true
  | succ n ih =>
    rw [EngineM.freeSocksLoop]
    refine bind launchLoop (fun r e₁ _ => ?_)
    cases r with
    | noTarget => exact ret false
    | wouldBlock => exact ret true
    | started s t => exact bind (addStarted s t) (fun _ _ _ => ih)

theorem processFreeSocks : AllLive p cfg (EngineM.processFreeSocks (w.sessions p) cfg fuel) e :=
  bind (of_untouched (Untouched.note _)) (fun _ e₁ _ => Runs.read (freeSocksLoop e₁.availSocks))

theorem scanPass (hp : p.NeverReconnects) (hcalm : ∀ a, (e.connection a).Calm) :
    AllLive p cfg (EngineM.scanPass (w.sessions p) cfg fuel) e := by
  unfold EngineM.scanPass
  refine bind (processEvents hp hcalm) (fun nfds e₁ _ => ?_)
  refine bind processDirtyAndTimeouts (fun nValid e₂ _ => ?_)
  refine bind processFreeSocks (fun more e₃ _ => ?_)
  split_ifs
  · exact ret true
  · refine bind (of_untouched Untouched.displayStatus) (fun _ e₄ _ => ?_)
    exact bind (of_untouched (Untouched.update (fun _ => rfl))) (fun _ _ _ => ret false)

theorem scanLoop (hp : p.NeverReconnects) (n : ℕ) (hcalm : ∀ a, (e.connection a).Calm) :
    AllLive p cfg (EngineM.scanLoop (w.sessions p) cfg fuel n) e := by
  induction n generalizing e with
  | zero => exact ret false
  | succ n ih =>
    rw [EngineM.scanLoop]
    refine bind (scanPass hp hcalm) (fun b e₁ h₁ => ?_)
    split_ifs
    · exact ret true
    · exact ih (fun a => (h₁ a).calm hp (hcalm a))

theorem launch (hp : p.NeverReconnects) (n : ℕ) (o : WithSessions ω υ) :
    AllLive p cfg (EngineM.launch (w.sessions p) cfg fuel n) (.init cfg o) := by
  have hstart : ∀ a, ((Engine.init (F := F) cfg o).connection a).Calm := by
    intro a sm hm
    simp [Engine.init, Engine.connection] at hm
  -- the epoll set of a new engine is empty, and so is the one that the scan creates
  let e₀ : Engine (WithSessions ω υ) F := { Engine.init cfg o with
    world := (w.sessions p).initTargets o
    kernel := Kernel.empty.epollCreate }
  have hsame : ∀ a, e₀.connection a = (Engine.init cfg o).connection a := fun _ => rfl
  have hscan : AllLive p cfg (do
      let _ ← EngineM.processFreeSocks (w.sessions p) cfg fuel
      EngineM.scanLoop (w.sessions p) cfg fuel n) e₀ := by
    refine bind processFreeSocks (fun _ e₁ h₁ => scanLoop hp n (fun a => (h₁ a).calm hp ?_))
    rw [hsame a]
    exact hstart a
  exact Runs.mono hscan (fun _ _ h => h) (fun _ _ h => h)

end AllLive

def listening (k : UInt32) : Config Unit :=
  { (Config.plain k : Config Unit) with callbackLvl4Connected := some () }

end Nodescan
