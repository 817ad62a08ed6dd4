import Nodescan.EngineSteps

/-!
# Runs of the engine as sequences of moves

A move is one of the relations of the previous module. Every phase of the engine, whatever the
world answers, is a sequence of moves; a phase that faults has made moves up to there. An
invariant of the engine is therefore shown for each move once.
-/

namespace Nodescan

open FaultM EngineM

variable {ω F : Type}

inductive Move (w : World ω F) : Engine ω F → Engine ω F → Prop
  | quiet {e e'} (h : Quiet w e e') : Move w e e'
  | mark (e) : Move w e { e with log := .freeSocks :: e.log }
  | status (e) : Move w e { e with
      log := .called (.status (e.nlaunched % 2 ^ 32) (e.ndone % 2 ^ 32)) :: e.log }
  | touch {e e' s sm} (hs : s ∈ e.kernel.socks) (hn : s ∉ e.lvl4Sms) (h : Touch s sm e e') :
      Move w e e'
  | launch {e e' n t err} (hn : ((n : ℕ) : Fd) ∉ e.kernel.socks) (ha : 0 < e.availSocks)
      (h : Register n t err (e.countLaunch t) e') : Move w e e'
  | finish {e e' s} (h : Finish w s e e') : Move w e e'
  | reconnect {e e₁ e' s n t} (hs : e.ReconnectsAt s) (hq : Quiet w e e₁)
      (h : Reopen s n t e₁ e') : Move w e e'

abbrev Moves (w : World ω F) : Engine ω F → Engine ω F → Prop := Relation.ReflTransGen (Move w)

variable {w : World ω F} {cfg : Config F} {fuel : ℕ} {e e' e'' : Engine ω F}

theorem Quiet.moves (h : Quiet w e e') : Moves w e e' := .single (.quiet h)

theorem Finish.moves {s : Fd} (h : Finish w s e e') : Moves w e e' := .single (.finish h)

/-- What an invariant has to meet to hold along every run. -/
theorem Moves.invariant {I : Engine ω F → Prop} (hstep : ∀ e e', Move w e e' → I e → I e')
    (h : Moves w e e') (he : I e) : I e' := by
  induction h with
  | refl => exact he
  | tail _ hmove ih => exact hstep _ _ hmove ih

theorem Move.log (h : Move w e e') : ∃ l, e'.log = l ++ e.log := by
  cases h with
  | quiet h => exact ⟨_, h.log.choose_spec.1⟩
  | mark => exact ⟨[_], rfl⟩
  | status => exact ⟨[_], rfl⟩
  | touch hs hn h => exact ⟨[], h.log⟩
  | launch hn ha h => exact ⟨[_, _], h.log⟩
  | finish h =>
    obtain ⟨l, hl, _⟩ := h.log
    exact ⟨l ++ [_], by rw [hl, List.append_assoc]; rfl⟩
  | reconnect hs hq h =>
    obtain ⟨err, hl⟩ := h.log
    obtain ⟨l, hl', _⟩ := hq.log
    exact ⟨_ :: _ :: l, by rw [hl, hl']; rfl⟩

theorem Moves.log (h : Moves w e e') : ∃ l, e'.log = l ++ e.log := by
  induction h with
  | refl => exact ⟨[], rfl⟩
  | tail _ hmove ih =>
    obtain ⟨l, hl⟩ := ih
    obtain ⟨l', hl'⟩ := hmove.log
    exact ⟨l' ++ l, by rw [hl', hl, List.append_assoc]⟩

/-! The events phase. -/

/-- A sequence of moves for the socket `s`: no other socket is closed. -/
structure Acts (w : World ω F) (s : Fd) (e e' : Engine ω F) : Prop where
  moves : Moves w e e'
  others : ∀ a, a ≠ s → a ∈ e.kernel.socks → a ∈ e'.kernel.socks

namespace Acts

variable {s : Fd}

theorem trans (h : Acts w s e e') (h' : Acts w s e' e'') : Acts w s e e'' where
  moves := h.moves.trans h'.moves
  others := fun a ha hs => h'.others a ha (h.others a ha hs)

theorem of_quiet (h : Quiet w e e') : Acts w s e e' where
  moves := h.moves
  others := fun a _ ha => by rwa [h.socks]

theorem of_finish (h : Finish w s e e') : Acts w s e e' where
  moves := h.moves
  others := by
    intro a ha hs
    rw [h.socks, TreeMaps.mem_erase]
    exact ⟨ha, hs⟩

theorem of_reconnect {e₁ : Engine ω F} {n : ℕ} {t : Target} (hf : e.ReconnectsAt s)
    (hq : Quiet w e e₁) (h : Reopen s n t e₁ e') : Acts w s e e' where
  moves := .single (.reconnect hf hq h)
  others := by
    intro a ha hs
    rw [h.socks, hq.socks, TreeMaps.mem_insert, TreeMaps.mem_erase]
    exact Or.inr ⟨ha, hs⟩

theorem of_touch {sm : Lvl4SM F} (hs : s ∈ e.kernel.socks) (h : Touch s sm e e') :
    Acts w s e e' := by
  by_cases hn : s ∈ e.lvl4Sms
  · rw [h.present hn]
    exact of_quiet (Quiet.refl e)
  · exact ⟨.single (.touch hs hn h), fun a _ ha => by rwa [h.kernel]⟩

end Acts

/-- The failed `assert(_avail_socks > 0)` of a phase without launches: some machine on the way had
asked to be reconnected. -/
def ReconnectFault (w : World ω F) (e : Engine ω F) (f : Fault) : Prop :=
  f = .availSocks → ∃ e' s, Moves w e e' ∧ e'.ReconnectsAt s

theorem ReconnectFault.after {f : Fault} (h : ReconnectFault w e' f) (hm : Moves w e e') :
    ReconnectFault w e f := by
  intro hf
  obtain ⟨e₁, s, hm₁, hs⟩ := h hf
  exact ⟨e₁, s, hm.trans hm₁, hs⟩

theorem ReconnectFault.of_ne {f : Fault} (h : f ≠ .availSocks) : ReconnectFault w e f :=
  fun hf => absurd hf h

/-- A run for the socket `s`. -/
def ActsRun (w : World ω F) (s : Fd) (x : EngineM ω F Unit) (e : Engine ω F) : Prop :=
  Runs x e (fun _ e' => Acts w s e e') (fun f _ => ReconnectFault w e f)

theorem ActsRun.after_quiet {α : Type} {s : Fd} {x : EngineM ω F α} {f : α → EngineM ω F Unit}
    (hx : QuietRun w x e) (hf : ∀ a e', Quiet w e e' → ActsRun w s (f a) e') :
    ActsRun w s (x >>= f) e := by
  refine Runs.bind (hx.noFault) (fun a e' h => ?_)
  exact (hf a e' h).mono (fun _ _ h' => (Acts.of_quiet h).trans h') (fun _ _ h' => h'.after h.moves)

theorem ActsRun.of_quiet {s : Fd} {x : EngineM ω F Unit} (hx : QuietRun w x e) :
    ActsRun w s x e :=
  hx.mono (fun _ _ h => Acts.of_quiet h) (fun _ _ h => h.elim)

theorem socketFinished_cases (s : Fd) (err : ℤ) :
    Runs (socketFinished w cfg s err) e (fun _ e' => Finish w s e e')
      (fun f e' => f = .targetFromSocket s ∧ s ∉ e.socketsTargets ∧ e' = e.countFinish s) := by
  by_cases hs : s ∈ e.socketsTargets
  · exact (socketFinished_spec hs err).noFault
  · refine Runs.intro (fun a t hr => ?_) (fun f t hr => ?_)
    · rw [socketFinished_absent hs] at hr
      simp at hr
    · rw [socketFinished_absent hs] at hr
      obtain ⟨hf, ht⟩ := Prod.mk.inj hr
      exact ⟨(Except.error.inj hf).symm, hs, ht.symm⟩

theorem socketFinished_acts (s : Fd) (err : ℤ) : ActsRun w s (socketFinished w cfg s err) e := by
  refine (socketFinished_cases s err).mono (fun _ _ h => Acts.of_finish h) (fun f _ h => ?_)
  exact ReconnectFault.of_ne (by rw [h.1]; simp)

theorem processConnectingReady_acts {s : Fd} (hs : s ∈ e.lvl4Sms) :
    ActsRun w s (processConnectingReady w cfg s) e := by
  unfold processConnectingReady
  apply Runs.read
  refine ActsRun.after_quiet (QuietRun.ask _) (fun err e₁ h₁ => ?_)
  split_ifs
  · exact socketFinished_acts s err
  · refine Runs.bind (Q := fun _ e' => e₁ = e') ?_ ?_
    · refine (targetFromSocket_spec s).mono (fun _ _ h => h.1.symm) (fun f _ h => ?_)
      exact ReconnectFault.of_ne (by rw [h.2.1]; simp)
    rintro t _ rfl
    refine ActsRun.after_quiet (QuietRun.hostSm _) (fun _ e₂ h₂ => ?_)
    have hs₂ : s ∈ e₂.lvl4Sms := ((h₁.trans h₂).mem_lvl4Sms s).mpr hs
    refine ActsRun.after_quiet (onConnect_quiet hs₂ t) (fun ret e₃ h₃ => ?_)
    split_ifs
    · apply ActsRun.of_quiet
      refine QuietRun.bind (QuietRun.update ?_) (fun _ e₄ _ => QuietRun.updateTs s)
      exact Quiet.of_eq rfl (by simp [Engine.addConnectedSocket, Engine.removeConnectingSocket])
        rfl rfl rfl rfl rfl
    · exact socketFinished_acts s 0

theorem processConnectedReady_acts (hw : w.SocketsSucceed) {s : Fd} {t : Target}
    (hs : s ∈ e.lvl4Sms) (ht : e.socketsTargets[s]? = some t) :
    ActsRun w s (processConnectedReady w cfg fuel s t) e := by
  unfold processConnectedReady
  apply Runs.read
  refine ActsRun.after_quiet (QuietRun.ask _) (fun navail e₁ h₁ => ?_)
  have hs₁ : s ∈ e₁.lvl4Sms := (h₁.mem_lvl4Sms s).mpr hs
  have ht₁ : e₁.socketsTargets[s]? = some t := by rw [h₁.targets, ht]
  refine Runs.bind (Q := fun sm e' => e₁ = e' ∧ e₁.lvl4Sms[s]? = some sm) ?_ ?_
  · refine (lvl4Sm_spec s).mono (fun sm e' h => ?_) (fun _ _ h => h.elim)
    have he := h.present hs₁
    exact ⟨he.symm, he ▸ h.here⟩
  rintro sm _ ⟨rfl, hsm⟩
  by_cases hnav : navail = 0
  · rw [if_pos hnav]
    by_cases hrec : sm.reconnect = true
    · rw [if_pos hrec]
      -- the flag is read before the callback, which may clear it
      have hflag : e₁.ReconnectsAt s := ⟨sm, hsm, hrec⟩
      refine Runs.bind ((QuietRun.callbackFinish t sm.buf _).noFault) (fun _ e₂ h₂ => ?_)
      refine Runs.bind ((QuietRun.freeBuffer (w := w) s).noFault) (fun _ e₃ h₃ => ?_)
      have hq := h₂.trans h₃
      refine (reconnect_spec hw ((hq.mem_lvl4Sms s).mpr hs₁) (by rw [hq.targets, ht₁])).mono
        (fun _ _ h => ?_) (fun _ _ _ _ => ⟨e₁, s, .refl, hflag⟩)
      obtain ⟨n, hn⟩ := h
      exact Acts.of_reconnect hflag hq hn
    · rw [if_neg hrec]
      exact socketFinished_acts s _
  · rw [if_neg hnav]
    refine ActsRun.after_quiet (QuietRun.hostSm _) (fun _ e₂ h₂ => ?_)
    refine ActsRun.after_quiet (QuietRun.ask _) (fun r e₃ h₃ => ?_)
    refine Runs.bind ((onLvl4Sm_spec s t (fun hI h hr => hI.processLvl4Data h hr)
      (fun hr => Lvl4SM.processLvl4Data_fault hr)).mono (fun _ _ h => h) (fun f _ h => ?_)) ?_
    · exact ReconnectFault.of_ne (by rintro rfl; simp [Fault.inTrigger] at h)
    · intro ret e₄ h₄
      refine Runs.mono (ActsRun.after_quiet (QuietRun.updateTs s) (fun _ e₅ h₅ => ?_))
        (fun _ _ h => (Acts.of_quiet h₄).trans h) (fun _ _ h => h.after h₄.moves)
      split_ifs
      · exact ActsRun.of_quiet (QuietRun.ret ())
      · exact socketFinished_acts s 0

theorem processEvent_acts (hw : w.SocketsSucceed) {ev : EpollEvent}
    (hs : ev.fd ∈ e.kernel.socks) : ActsRun w ev.fd (processEvent w cfg fuel ev) e := by
  have htouch : Runs (lvl4Sm w ev.fd) e (fun sm e' => Touch ev.fd sm e e' ∧ ev.fd ∈ e'.lvl4Sms)
      (fun f _ => ReconnectFault w e f) := by
    refine (lvl4Sm_spec ev.fd).mono (fun sm e' h => ⟨h, ?_⟩) (fun _ _ h => h.elim)
    exact TreeMaps.mem_of_getElem? h.here
  unfold processEvent
  by_cases hout : ev.epollout = true
  · rw [if_pos hout]
    refine Runs.bind htouch (fun sm e₁ h₁ => ?_)
    have ha := Acts.of_touch (w := w) hs h₁.1
    exact (processConnectingReady_acts h₁.2).mono (fun _ _ h => ha.trans h)
      (fun _ _ h => h.after ha.moves)
  · rw [if_neg hout]
    by_cases hin : ev.epollin = true
    · rw [if_pos hin]
      refine Runs.bind (Q := fun t e' => e = e' ∧ e.socketsTargets[ev.fd]? = some t) ?_ ?_
      · refine (targetFromSocket_spec ev.fd).mono (fun _ _ h => ⟨h.1.symm, h.2⟩) (fun f _ h => ?_)
        exact ReconnectFault.of_ne (by rw [h.2.1]; simp)
      rintro t _ ⟨rfl, ht⟩
      refine Runs.bind htouch (fun sm e₁ h₁ => ?_)
      have ha := Acts.of_touch (w := w) hs h₁.1
      exact (processConnectedReady_acts hw h₁.2 (by rw [h₁.1.targets, ht])).mono
        (fun _ _ h => ha.trans h) (fun _ _ h => h.after ha.moves)
    · rw [if_neg hin]
      exact ActsRun.of_quiet (QuietRun.ret ())

/-- The loop over the events: an event is for a socket of its own, so the sockets of the events
still to come stay open. -/
theorem processEventList_moves (hw : w.SocketsSucceed) (evs : List EpollEvent)
    (hnd : (evs.map EpollEvent.fd).Nodup) (hs : ∀ ev ∈ evs, ev.fd ∈ e.kernel.socks) :
    Runs (evs.forM (processEvent w cfg fuel)) e (fun _ e' => Moves w e e')
      (fun f _ => ReconnectFault w e f) := by
  induction evs generalizing e with
  | nil => exact Relation.ReflTransGen.refl
  | cons ev evs ih =>
    rw [List.map_cons, List.nodup_cons] at hnd
    refine Runs.bind (processEvent_acts hw (hs ev (by simp))) (fun _ e₁ h₁ => ?_)
    have hs₁ : ∀ ev' ∈ evs, ev'.fd ∈ e₁.kernel.socks := by
      intro ev' hev'
      have hne : ev'.fd ≠ ev.fd := by
        intro heq
        apply hnd.1
        rw [← heq]
        exact List.mem_map_of_mem hev'
      exact h₁.others _ hne (hs ev' (by simp [hev']))
    exact (ih hnd.2 hs₁).mono (fun _ _ h => h₁.moves.trans h) (fun _ _ h => h.after h₁.moves)

theorem processEvents_moves (hw : w.SocketsSucceed) :
    Runs (processEvents w cfg fuel) e (fun _ e' => Moves w e e')
      (fun f _ => ReconnectFault w e f) := by
  unfold processEvents
  apply Runs.read
  let e₁ : Engine ω F := { e with world := (w.epollWait e.kernel e.world).2 }
  have hq : Quiet w e e₁ := Quiet.of_eq rfl rfl rfl rfl rfl rfl rfl
  refine Runs.bind (Q := fun r e' => e₁ = e' ∧ (w.epollWait e.kernel e.world).1 = r)
    ⟨rfl, rfl⟩ ?_
  rintro r _ ⟨rfl, hr⟩
  cases r with
  | none => exact hq.moves
  | some evs =>
    have hs : ∀ ev ∈ evs, ev.fd ∈ e₁.kernel.socks := fun ev hev =>
      e.kernel.epoll_open _ (w.epollWait_registered hr ev hev).1
    refine Runs.bind ((processEventList_moves hw evs (w.epollWait_nodup hr) hs).mono
      (fun _ _ h => h) (fun _ _ h => h.after hq.moves)) (fun _ e₂ h₂ => ?_)
    exact hq.moves.trans h₂

/-! The launch phase. -/

/-- A `connect` that did not fail at once. -/
def Event.connectOk : Event F → Bool
  | .connect _ _ err => err = 0 ∨ err = EINPROGRESS
  | _ => false

def Event.isFreeSocks : Event F → Bool
  | .freeSocks => true
  | _ => false

theorem Event.not_connectOk_of_isQuiet {ev : Event F} (h : ev.isQuiet = true) :
    ev.connectOk = false ∧ ev.isFreeSocks = false := by
  cases ev with
  | called cb => exact ⟨rfl, rfl⟩
  | returned cb v calls => exact ⟨rfl, rfl⟩
  | hostFinished t hsm complete => exact ⟨rfl, rfl⟩
  | added k => exact ⟨rfl, rfl⟩
  | onAliveSet ip a => exact ⟨rfl, rfl⟩
  | _ => simp [isQuiet] at h

/-- A sequence of launches that started the sockets `ss`; those that failed at once are gone. -/
structure Launches (w : World ω F) (ss : List Fd) (e e' : Engine ω F) : Prop where
  moves : Moves w e e'
  size : e'.socketsTargets.size ≤ e.socketsTargets.size + ss.length
  kept : ∀ a, a ∈ e.kernel.socks → e.validAt a = some true →
    a ∈ e'.kernel.socks ∧ e'.validAt a = some true
  started : ∀ a ∈ ss, a ∈ e'.kernel.socks ∧ e'.validAt a = some true
  new : ∀ a, e'.validAt a = some true → e.validAt a = some true ∨ a ∈ ss
  log : ∃ l, e'.log = l ++ e.log ∧ (∀ ev ∈ l, ev.isFreeSocks = false) ∧
    (ss = [] ↔ ∀ ev ∈ l, ev.connectOk = false)

namespace Launches

variable {ss ss' : List Fd}

theorem of_quiet (h : Quiet w e e') : Launches w [] e e' where
  moves := h.moves
  size := by simp [h.targets]
  kept := fun a ha hv => ⟨by rwa [h.socks], by rw [h.valid, hv]⟩
  started := by simp
  new := fun a ha => Or.inl (by rwa [← h.valid])
  log := by
    obtain ⟨l, hl, hq⟩ := h.log
    refine ⟨l, hl, fun ev hev => (Event.not_connectOk_of_isQuiet (hq ev hev)).2, ?_⟩
    simpa using fun ev hev => (Event.not_connectOk_of_isQuiet (hq ev hev)).1

theorem trans (h : Launches w ss e e') (h' : Launches w ss' e' e'') :
    Launches w (ss ++ ss') e e'' where
  moves := h.moves.trans h'.moves
  size := by
    have h₁ := h.size
    have h₂ := h'.size
    rw [List.length_append]
    omega
  kept := by
    intro a ha hv
    obtain ⟨ha', hv'⟩ := h.kept a ha hv
    exact h'.kept a ha' hv'
  started := by
    intro a ha
    rcases List.mem_append.mp ha with hm | hm
    · obtain ⟨ha', hv'⟩ := h.started a hm
      exact h'.kept a ha' hv'
    · exact h'.started a hm
  new := by
    intro a ha
    rcases h'.new a ha with hv | hm
    · rcases h.new a hv with hv | hm
      · exact Or.inl hv
      · exact Or.inr (List.mem_append_left _ hm)
    · exact Or.inr (List.mem_append_right _ hm)
  log := by
    obtain ⟨l, hl, hf, hc⟩ := h.log
    obtain ⟨l', hl', hf', hc'⟩ := h'.log
    refine ⟨l' ++ l, by rw [hl', hl, List.append_assoc], ?_, ?_⟩
    · intro ev hev
      rcases List.mem_append.mp hev with hm | hm
      · exact hf' ev hm
      · exact hf ev hm
    · rw [List.append_eq_nil_iff, hc, hc', List.forall_mem_append]
      exact and_comm

/-- A connection under way. -/
theorem of_register {n : ℕ} {t : Target} {err : ℤ} (hn : (n : Fd) ∉ e.kernel.socks)
    (ha : 0 < e.availSocks) (h : Register n t err (e.countLaunch t) e')
    (herr : err = 0 ∨ err = EINPROGRESS) : Launches w [(n : Fd)] e e' where
  moves := .single (.launch hn ha h)
  size := by
    rw [h.targets]
    exact Std.ExtTreeMap.size_insertIfNew_le
  kept := by
    intro a has hv
    have hne : a ≠ n := by
      rintro rfl
      exact hn has
    rw [h.socks, h.valid, if_neg hne]
    exact ⟨(TreeMaps.mem_insert _ _ _ _).mpr (Or.inr has), hv⟩
  started := by
    intro a has
    rw [List.mem_singleton] at has
    rw [has, h.socks, h.valid, if_pos rfl]
    simp
  new := by
    intro a hv
    by_cases hne : a = n
    · exact Or.inr (by simp [hne])
    · rw [h.valid, if_neg hne] at hv
      exact Or.inl hv
  log := by
    refine ⟨[.connect n t err, .launched t], h.log, by simp [Event.isFreeSocks], ?_⟩
    have herr' : decide (err = 0 ∨ err = EINPROGRESS) = true := decide_eq_true herr
    simp only [List.mem_cons, List.not_mem_nil, or_false, forall_eq_or_imp, forall_eq,
      Event.connectOk, herr']
    simp

/-- A connection that failed at once and was finished. -/
theorem of_register_finish {n : ℕ} {t : Target} {err : ℤ} (hn : (n : Fd) ∉ e.kernel.socks)
    (ha : 0 < e.availSocks) (h : Register n t err (e.countLaunch t) e')
    (herr : ¬ (err = 0 ∨ err = EINPROGRESS)) (hf : Finish w (n : Fd) e' e'') :
    Launches w [] e e'' where
  moves := (Relation.ReflTransGen.single (.launch hn ha h)).trans hf.moves
  size := by
    have hle : e'.socketsTargets.size ≤ e.socketsTargets.size + 1 := by
      rw [h.targets]
      exact Std.ExtTreeMap.size_insertIfNew_le
    have hreg := hf.registered
    rw [hf.targets, Std.ExtTreeMap.size_erase, if_pos (Std.ExtTreeMap.contains_iff_mem.mpr hreg)]
    simp only [List.length_nil]
    omega
  kept := by
    intro a has hv
    have hne : a ≠ n := by
      rintro rfl
      exact hn has
    rw [hf.socks, hf.valid, if_neg hne, h.valid, if_neg hne, h.socks, TreeMaps.mem_erase,
      TreeMaps.mem_insert]
    exact ⟨⟨hne, Or.inr has⟩, hv⟩
  started := by simp
  new := by
    intro a hv
    by_cases hne : a = n
    · simp [hf.valid, hne] at hv
    · rw [hf.valid, if_neg hne, h.valid, if_neg hne] at hv
      exact Or.inl hv
  log := by
    obtain ⟨l, hl, hq⟩ := hf.log
    have herr' : decide (err = 0 ∨ err = EINPROGRESS) = false := decide_eq_false herr
    refine ⟨l ++ [.socketFinished n, .connect n t err, .launched t], ?_, ?_, ?_⟩
    · rw [hl, h.log, List.append_assoc]
      rfl
    · intro ev hev
      rcases List.mem_append.mp hev with hm | hm
      · exact (Event.not_connectOk_of_isQuiet (hq ev hm)).2
      · simp only [List.mem_cons, List.not_mem_nil, or_false] at hm
        rcases hm with rfl | rfl | rfl <;> rfl
    · rw [List.forall_mem_append]
      simp only [List.mem_cons, List.not_mem_nil, or_false, forall_eq_or_imp, forall_eq,
        Event.connectOk, herr', and_true, true_iff]
      exact fun ev hev => (Event.not_connectOk_of_isQuiet (hq ev hev)).1

end Launches

def EngineM.LaunchResult.sockets : LaunchResult → List Fd
  | .started s _ => [s]
  | _ => []

/-- The failed `assert(_avail_socks > 0)` of a launch, after fewer than `n` sockets started. -/
def LaunchFault (w : World ω F) (n : ℕ) (e : Engine ω F) (f : Fault) (e' : Engine ω F) : Prop :=
  f = .availSocks → ∃ e₁ ss, Launches w ss e e₁ ∧ ss.length < n ∧ e₁.availSocks = 0 ∧
    added e'.log = added e₁.log

theorem LaunchFault.after {n : ℕ} {ss : List Fd} {f : Fault} (h : LaunchFault w n e' f e'')
    (hl : Launches w ss e e') : LaunchFault w (ss.length + n) e f e'' := by
  intro hf
  obtain ⟨e₁, ss₁, hl₁, hn, ha⟩ := h hf
  refine ⟨e₁, ss ++ ss₁, hl.trans hl₁, ?_, ha⟩
  rw [List.length_append]
  omega

theorem launchLoop_launches (hw : w.SocketsSucceed) (fuel : ℕ) :
    Runs (launchLoop w cfg fuel) e (fun r e' => Launches w r.sockets e e')
      (LaunchFault w 1 e) := by
  induction fuel generalizing e with
  | zero => exact fun h => absurd h (by simp)
  | succ fuel ih =>
    rw [launchLoop]
    refine Runs.bind ((QuietRun.ask (w := w) w.nextTarget).noFault) ?_
    intro r e₁ h₁
    have hl₁ := Launches.of_quiet h₁
    cases r with
    | wouldBlock => exact hl₁
    | target t =>
      by_cases hend : t.isEnd = true
      · simp only [hend, if_true]
        exact hl₁
      · simp only [hend]
        refine Runs.bind (Runs.update rfl : Runs _ e₁ (fun _ e' => e₁.countLaunch t = e') _) ?_
        rintro _ _ rfl
        refine Runs.bind ((createSocket_spec hw t).mono (fun _ _ h => h) (fun f e' h _ => ?_)) ?_
        · refine ⟨e₁, [], hl₁, by simp, h.2.2, ?_⟩
          simp [h.2.1, Engine.countLaunch, Event.addedBy]
        rintro ⟨_, err⟩ e₂ ⟨n, rfl, hn, ha, hreg⟩
        by_cases herr : err = 0 ∨ err = EINPROGRESS
        · simp only [herr, if_true]
          exact hl₁.trans (Launches.of_register hn ha hreg herr)
        · simp only [herr, if_false]
          have hmem : (n : Fd) ∈ e₂.socketsTargets := by
            rw [hreg.targets]
            simp
          refine Runs.bind ((socketFinished_spec hmem err).noFault) (fun _ e₃ hf => ?_)
          have hl₃ := hl₁.trans (Launches.of_register_finish hn ha hreg herr hf)
          exact ih.mono (fun r e' h => hl₃.trans h) (fun _ _ h => h.after hl₃)

theorem addStarted_quiet (s : Fd) (t : Target) : QuietRun w (addStarted w s t) e := by
  refine QuietRun.bind (QuietRun.hostSm _) (fun hsm e₁ _ => ?_)
  refine QuietRun.bind (QuietRun.ask _) (fun hsm' e₂ _ => ?_)
  refine QuietRun.bind (QuietRun.update (Quiet.of_eq rfl rfl rfl rfl rfl rfl rfl))
    (fun _ e₃ _ => ?_)
  apply QuietRun.update
  exact Quiet.of_eq rfl (by simp [Engine.addConnectingSocket]) rfl rfl rfl rfl rfl

theorem freeSocksLoop_launches (hw : w.SocketsSucceed) (fuel n : ℕ) :
    Runs (freeSocksLoop w cfg fuel n) e
      (fun _ e' => ∃ ss, ss.length ≤ n ∧ Launches w ss e e') (LaunchFault w n e) := by
  induction n generalizing e with
  | zero => exact ⟨[], by simp, Launches.of_quiet (Quiet.refl e)⟩
  | succ n ih =>
    rw [freeSocksLoop]
    refine Runs.bind ((launchLoop_launches hw fuel).mono (fun _ _ h => h) (fun f _ h hf => ?_)) ?_
    · obtain ⟨e₁, ss, hl, hlen, ha⟩ := h hf
      exact ⟨e₁, ss, hl, by omega, ha⟩
    intro r e₁ h₁
    cases r with
    | noTarget => exact ⟨[], by simp, h₁⟩
    | wouldBlock => exact ⟨[], by simp, h₁⟩
    | started s t =>
      refine Runs.bind ((addStarted_quiet (w := w) s t).noFault) (fun _ e₂ h₂ => ?_)
      have hl : Launches w [s] e e₂ := h₁.trans (Launches.of_quiet h₂)
      refine ih.mono (fun _ e' h => ?_) (fun f _ h hf => ?_)
      · obtain ⟨ss, hlen, hss⟩ := h
        exact ⟨[s] ++ ss, by simpa using hlen, hl.trans hss⟩
      · obtain ⟨e₃, ss, hss, hlen, ha⟩ := h.after hl hf
        exact ⟨e₃, ss, hss, by simpa [Nat.add_comm] using hlen, ha⟩

/-- A call of `process_free_socks`: the mark of its start, then launches for at most the sockets
that were available. -/
theorem processFreeSocks_launches (hw : w.SocketsSucceed) :
    Runs (processFreeSocks w cfg fuel) e
      (fun _ e' => ∃ ss, ss.length ≤ e.availSocks ∧
        Launches w ss { e with log := .freeSocks :: e.log } e')
      (LaunchFault w e.availSocks { e with log := .freeSocks :: e.log }) := by
  exact freeSocksLoop_launches hw fuel e.availSocks

theorem processFreeSocks_moves (hw : w.SocketsSucceed) {e' : Engine ω F} {b : Bool}
    (h : (processFreeSocks w cfg fuel).runFrom e = (.ok b, e')) : Moves w e e' := by
  obtain ⟨ss, _, hl⟩ := (processFreeSocks_launches hw).of_ok h
  exact Relation.ReflTransGen.head (.mark e) hl.moves

theorem displayStatus_moves :
    Runs (displayStatus w cfg) e (fun _ e' => Moves w e e') (fun _ _ => False) := by
  unfold displayStatus
  refine Runs.bind shouldCallStatusDisplay_quiet (fun b e₁ h₁ => ?_)
  by_cases hb : b = true
  · rw [if_pos hb]
    apply Runs.read
    let cb : Callback F := .status (e₁.nlaunched % 2 ^ 32) (e₁.ndone % 2 ^ 32)
    let r := w.callback cb e₁.world
    let e₂ : Engine ω F := { e₁ with log := .called cb :: e₁.log }
    let e₃ : Engine ω F := { e₂ with log := .returned cb (cb.goesOn r.1.1) r.1.2 :: e₂.log }
    have h₂ : Move w e₁ e₂ := .status e₁
    have h₃ : Quiet w e₂ e₃ := Quiet.log_cons rfl rfl
    have h₄ : Quiet w e₃ { e₃ with world := r.2 } := Quiet.of_eq rfl rfl rfl rfl rfl rfl rfl
    have h₅ : Quiet w { e₃ with world := r.2 } (Engine.callAll { e₃ with world := r.2 } r.1.2) :=
      Quiet.callAll (fun hw c hc => hw cb e₁.world c hc)
    exact (h₁.moves.tail h₂).trans ((h₃.trans h₄).trans h₅).moves
  · rw [if_neg hb]
    exact h₁.moves

end Nodescan
