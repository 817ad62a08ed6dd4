import Nodescan.CharTriggers
import Nodescan.Steady

/-!
# Every machine is scanned when data arrives

Between two phases of the engine, and between two events of one, every machine is scanned. Only
the dirty pass leaves this for a while: its first loop takes the flags down, its second loop runs
the buffers. A connection that an action ends is not scanned either, but it is freed at once.
-/

namespace Nodescan

open FaultM EngineM

variable {ω F α : Type}

/-- Every machine is scanned, except for those of the sockets in `x`. -/
def Engine.ScannedBut (x : Fd → Prop) (e : Engine ω F) : Prop :=
  ∀ s sm, ¬ x s → e.lvl4Sms[s]? = some sm → sm.Scanned

def Engine.AllScanned (e : Engine ω F) : Prop := e.ScannedBut (fun _ => False)

namespace ScannedBut

variable {w : World ω F} {cfg : Config F} {x y : Fd → Prop} {e e' : Engine ω F} {fuel : ℕ}

theorem mono (h : e.ScannedBut x) (hxy : ∀ s, x s → y s) : e.ScannedBut y :=
  fun s sm hs => h s sm (fun hx => hs (hxy s hx))

theorem congr (h : e.ScannedBut x) (hs : e'.lvl4Sms = e.lvl4Sms) : e'.ScannedBut x := by
  unfold Engine.ScannedBut
  rw [hs]
  exact h

theorem init (cfg : Config F) (o : ω) : (Engine.init cfg o).ScannedBut x := by
  intro s sm _ hs
  simp [Engine.init] at hs

theorem insert {s : Fd} {sm : Lvl4SM F} (h : e.ScannedBut x) (hsm : ¬ y s → sm.Scanned)
    (hxy : ∀ a, a ≠ s → x a → y a) :
    Engine.ScannedBut y { e with lvl4Sms := e.lvl4Sms.insert s sm } := by
  intro a sm' ha hget
  simp only [TreeMaps.getElem?_insert] at hget
  split_ifs at hget with heq
  · subst heq
    rw [← Option.some.inj hget]
    exact hsm ha
  · exact h a sm' (fun hx => ha (hxy a heq hx)) hget

theorem modified {f : Lvl4SM F → Lvl4SM F} (s : Fd) (h : e.ScannedBut x)
    (hf : ∀ sm, sm.Scanned → (f sm).Scanned) : (e.modifySm s f).ScannedBut x := by
  intro a sm ha hget
  simp only [Engine.modifySm, TreeMaps.getElem?_modify] at hget
  split_ifs at hget with heq
  · obtain ⟨sm₀, hsm₀, rfl⟩ := Option.map_eq_some_iff.mp hget
    exact hf sm₀ (h s sm₀ (heq ▸ ha) hsm₀)
  · exact h a sm ha hget

theorem freeSocket (h : e.ScannedBut x) (s : Fd) :
    (e.freeSocket s).ScannedBut (fun a => x a ∧ a ≠ s) := by
  intro a sm ha hget
  have herase : (e.freeSocket s).lvl4Sms[a]? = if a = s then none else e.lvl4Sms[a]? :=
    TreeMaps.getElem?_erase _ _ _
  rw [herase] at hget
  split_ifs at hget with heq
  exact h a sm (fun hx => ha ⟨hx, heq⟩) hget

theorem update {f : Engine ω F → Engine ω F} (hf : ∀ e, (f e).lvl4Sms = e.lvl4Sms) :
    Keeps (Engine.ScannedBut x) (modify f : EngineM ω F Unit) :=
  Keeps.update (fun e he => congr he (hf e))

theorem ask (f : ω → α × ω) : Keeps (Engine.ScannedBut x) (EngineM.ask (F := F) f) :=
  fun _ he => congr he rfl

theorem note (ev : Event F) : Keeps (Engine.ScannedBut (ω := ω) x) (EngineM.note ev) :=
  update (fun _ => rfl)

/-- What does not process data leaves the machines of the others as scanned as they are. -/
theorem steady : Steady w (fun _ => True) (Engine.ScannedBut x) where
  congr := fun he _ hs _ _ _ => congr he hs
  insert := fun _ he _ => congr he rfl
  onAlive := by
    intro e ip a he hip
    rw [Engine.setOnAlive, if_pos hip]
    exact congr he rfl
  asked := fun he _ => congr he rfl
  note := fun _ _ he => congr he rfl
  fresh := fun he _ => insert he (fun _ => Lvl4SM.new_scanned _) (fun _ _ hx => hx)
  book := fun s he hf =>
    modified s he (fun sm h => h.congr (hf.trigger sm) (hf.reprocess sm) (hf.buf sm))
  freed := fun s he => modified s he (fun sm _ => sm.freeBuffer_scanned)
  call := fun s c he => modified s he (fun _ h => h.call c)

theorem hostSm (ip : UInt32) :
    Keeps (Engine.ScannedBut (ω := ω) (F := F) x) (EngineM.hostSm ip) := by
  intro e he
  refine (hostSm_insertIfNew ip).mono (fun _ e' h => ?_) (fun _ _ h => h.elim)
  rw [h]
  exact congr he rfl

theorem hostFinished (t : Target) :
    Keeps (Engine.ScannedBut x) (EngineM.hostFinished w t) := by
  unfold EngineM.hostFinished
  refine Keeps.bind (hostSm _) (fun hsm => ?_)
  refine Keeps.bind (ask _) (fun r => ?_)
  refine Keeps.bind (note _) (fun _ => ?_)
  refine Keeps.bind (update (fun _ => rfl)) (fun _ => ?_)
  split_ifs
  · exact update (fun _ => rfl)
  · exact Keeps.ret ()

theorem onConnect (s : Fd) (t : Target) :
    Keeps (Engine.ScannedBut x) (EngineM.onConnect w s t) := by
  unfold EngineM.onConnect
  refine Keeps.bind (steady.lvl4Sm s) (fun sm => ?_)
  cases sm.funcConnect with
  | none => exact Keeps.ret _
  | some f => exact fun _ he => steady.answer _ (congr he rfl)

/-! The end of a connection, and the loops over the machines. -/

theorem returns {m : EngineM ω F α} (hm : Keeps (Engine.ScannedBut x) m) (he : e.ScannedBut x) :
    Runs m e (fun _ => Engine.ScannedBut x) (fun _ _ => True) :=
  (hm e he).mono (fun _ _ h => h) (fun _ _ _ => trivial)

/-- A finished socket is no exception any more. -/
theorem socketFinished (s : Fd) (err : ℤ) (he : e.ScannedBut x) :
    Runs (EngineM.socketFinished w cfg s err) e
      (fun _ => Engine.ScannedBut (fun a => x a ∧ a ≠ s)) (fun _ _ => True) := by
  unfold EngineM.socketFinished
  refine Runs.bind (returns (update (f := (·.countFinish s)) (fun _ => rfl)) he) (fun _ e₁ h₁ => ?_)
  refine Runs.bind (returns (Steady.targetFromSocket s) h₁) (fun t e₂ h₂ => ?_)
  refine Runs.bind (returns (steady.lvl4Sm s) h₂) (fun sm e₃ h₃ => ?_)
  refine Runs.bind (returns (steady.callbackFinish t sm.buf err) h₃) (fun _ e₄ h₄ => ?_)
  refine Runs.bind (returns ((steady (w := w)).freeBuffer s) h₄) (fun _ e₅ h₅ => ?_)
  refine Runs.bind (returns (hostFinished t) h₅) (fun _ e₆ h₆ => ?_)
  exact freeSocket h₆ s

/-- Work on the machine of `s`: it is scanned if the connection goes on. -/
theorem onLvl4Sm {f : Lvl4SM F → Engine ω F → Except Fault (Bool × Lvl4SM F × Engine ω F)} (s : Fd)
    (hothers : ∀ {sm sm' : Lvl4SM F} {e' : Engine ω F} {v : Bool}, f sm e = .ok (v, sm', e') →
      e'.ScannedBut x)
    (hown : ∀ {sm sm' : Lvl4SM F} {e' : Engine ω F}, e.lvl4Sms[s]? = some sm →
      f sm e = .ok (true, sm', e') → sm'.Scanned) :
    Runs (EngineM.onLvl4Sm s f) e
      (fun ret => Engine.ScannedBut (fun a => if ret then x a ∧ a ≠ s else x a ∨ a = s))
      (fun _ _ => True) := by
  unfold EngineM.onLvl4Sm
  apply Runs.read
  cases hs : e.lvl4Sms[s]? with
  | none => trivial
  | some sm =>
    cases hr : f sm e with
    | error fault =>
      simp only [hr]
      trivial
    | ok r =>
      obtain ⟨v, sm', e'⟩ := r
      simp only [hr]
      cases v with
      | true => exact insert (hothers hr) (fun _ => hown hs hr) (fun a ha hx => by simp [hx, ha])
      | false =>
        exact insert (hothers hr) (fun hnot => absurd (by simp) hnot) (fun a _ hx => by simp [hx])

theorem processConnectingReady (s : Fd) (he : e.ScannedBut x) :
    Runs (EngineM.processConnectingReady w cfg s) e (fun _ => Engine.ScannedBut x)
      (fun _ _ => True) := by
  have hend : ∀ {e : Engine ω F} (err : ℤ), e.ScannedBut x →
      Runs (EngineM.socketFinished w cfg s err) e (fun _ => Engine.ScannedBut x)
        (fun _ _ => True) :=
    fun err h => (socketFinished s err h).mono (fun _ _ h => mono h (fun _ ha => ha.1))
      (fun _ _ h => h)
  unfold EngineM.processConnectingReady
  apply Runs.read
  refine Runs.bind (returns (ask _) he) (fun err e₁ h₁ => ?_)
  split_ifs
  · exact hend err h₁
  · refine Runs.bind (returns (Steady.targetFromSocket s) h₁) (fun t e₂ h₂ => ?_)
    refine Runs.bind (returns (hostSm t.ipv4) h₂) (fun _ e₃ h₃ => ?_)
    refine Runs.bind (returns (onConnect s t) h₃) (fun ret e₄ h₄ => ?_)
    split_ifs
    · refine Runs.bind (returns (update
        (f := fun e => (e.removeConnectingSocket s).addConnectedSocket s) (fun _ => rfl)) h₄)
        (fun _ e₅ h₅ => returns (steady.updateTs s) h₅)
    · exact hend 0 h₄

theorem socketFinished_scanned (s : Fd) (err : ℤ) (he : e.ScannedBut x)
    (hx : ∀ a, x a → a = s) :
    Runs (EngineM.socketFinished w cfg s err) e (fun _ => Engine.AllScanned) (fun _ _ => True) :=
  (socketFinished s err he).mono (fun _ _ h => mono h (fun a ha => ha.2 (hx a ha.1)))
    (fun _ _ h => h)

theorem processConnectedReady (s : Fd) (t : Target) (he : e.AllScanned) :
    Runs (EngineM.processConnectedReady w cfg fuel s t) e (fun _ => Engine.AllScanned)
      (fun _ _ => True) := by
  unfold EngineM.processConnectedReady
  apply Runs.read
  refine Runs.bind (returns (ask _) he) (fun navail e₁ h₁ => ?_)
  refine Runs.bind (returns (steady.lvl4Sm s) h₁) (fun sm e₂ h₂ => ?_)
  split_ifs
  · refine Runs.bind (returns (steady.callbackFinish t sm.buf _) h₂) (fun _ e₃ h₃ => ?_)
    refine Runs.bind (returns ((steady (w := w)).freeBuffer s) h₃)
      (fun _ e₄ h₄ => returns (steady.reconnect s trivial) h₄)
  · exact socketFinished_scanned s _ h₂ (fun _ ha => ha.elim)
  · refine Runs.bind (returns (hostSm t.ipv4) h₂) (fun _ e₃ h₃ => ?_)
    refine Runs.bind (returns (ask _) h₃) (fun r e₄ h₄ => ?_)
    refine Runs.bind (onLvl4Sm s (fun hr => (steady.kept _).processLvl4Data h₄ hr)
      (fun hs hr => (h₄ s _ not_false hs).processLvl4Data hr)) (fun ret e₅ h₅ => ?_)
    refine Runs.bind (returns (steady.updateTs s) h₅) (fun _ e₆ h₆ => ?_)
    cases ret with
    | true => exact mono h₆ (fun a ha => by simp at ha)
    | false => exact socketFinished_scanned s 0 h₆ (fun a ha => by simpa using ha)

theorem processEvent (ev : EpollEvent) (he : e.AllScanned) :
    Runs (EngineM.processEvent w cfg fuel ev) e (fun _ => Engine.AllScanned) (fun _ _ => True) := by
  unfold EngineM.processEvent
  split_ifs
  · exact Runs.bind (returns (steady.lvl4Sm ev.fd) he)
      (fun _ e₁ h₁ => processConnectingReady ev.fd h₁)
  · refine Runs.bind (returns (Steady.targetFromSocket ev.fd) he) (fun t e₁ h₁ => ?_)
    exact Runs.bind (returns (steady.lvl4Sm ev.fd) h₁)
      (fun _ e₂ h₂ => processConnectedReady ev.fd t h₂)
  · exact he

theorem processEventList (evs : List EpollEvent) (he : e.AllScanned) :
    Runs (evs.forM (EngineM.processEvent w cfg fuel)) e (fun _ => Engine.AllScanned)
      (fun _ _ => True) := by
  induction evs generalizing e with
  | nil => exact he
  | cons ev evs ih => exact Runs.bind (processEvent ev he) (fun _ e₁ h₁ => ih h₁)

/-- The first loop of the dirty pass: the machines whose flag it took down are on its list. -/
theorem inspect (ts : ℤ) (s : Fd) (l : WorkLists) (he : e.ScannedBut (· ∈ l.toProcess)) :
    Runs (EngineM.inspect w cfg ts s l) e (fun l' => Engine.ScannedBut (· ∈ l'.toProcess))
      (fun _ _ => True) := by
  unfold EngineM.inspect
  apply Runs.read
  cases hs : e.lvl4Sms[s]? with
  | none => exact he
  | some sm =>
    dsimp only
    split_ifs
    · let x : Fd → Prop := fun a => a ∈ l.toProcess ∨ (a = s ∧ sm.reprocess = true)
      have hflag : (e.modifySm s fun sm => sm.shouldProcessBuffer.2).ScannedBut x := by
        intro a sm' ha hget
        have hold : a ∉ l.toProcess := fun hmem => ha (Or.inl hmem)
        simp only [Engine.modifySm, TreeMaps.getElem?_modify, hs, Option.map_some] at hget
        split_ifs at hget with heq
        · have hdown : sm.reprocess = false := by
            simpa using fun hup => ha (Or.inr ⟨heq, hup⟩)
          rw [← Option.some.inj hget]
          exact (he s sm (heq ▸ hold) hs).congr rfl hdown.symm rfl
        · exact he a sm' hold hget
      refine Runs.bind (Q := fun _ => Engine.ScannedBut x) hflag (fun _ e₁ h₁ => ?_)
      refine Runs.bind (returns (steady.hasTimedout ts s sm) h₁) (fun out e₂ h₂ => ?_)
      refine mono h₂ (fun a ha => ?_)
      rcases ha with hmem | ⟨rfl, hup⟩
      · simp only [WorkLists.add]
        split_ifs
        · exact List.mem_append_left _ hmem
        · exact hmem
      · simp [WorkLists.add, Lvl4SM.shouldProcessBuffer, hup]
    · exact he

theorem inspectAll (ts : ℤ) (ss : List Fd) (l : WorkLists) (he : e.ScannedBut (· ∈ l.toProcess)) :
    Runs (EngineM.inspectAll w cfg ts ss l) e (fun l' => Engine.ScannedBut (· ∈ l'.toProcess))
      (fun _ _ => True) := by
  induction ss generalizing e l with
  | nil => exact he
  | cons s ss ih => exact Runs.bind (inspect ts s l he) (fun l' e₁ h₁ => ih l' h₁)

/-- The second loop runs all the machines of the list. -/
theorem reprocess (ss : List Fd) (he : e.ScannedBut (· ∈ ss)) :
    Runs (EngineM.reprocess w cfg fuel ss) e (fun _ => Engine.AllScanned) (fun _ _ => True) := by
  induction ss generalizing e with
  | nil => exact mono he (fun a ha => absurd ha List.not_mem_nil)
  | cons s ss ih =>
    have hrest : ∀ {e : Engine ω F}, e.ScannedBut (fun a => a ∈ s :: ss ∧ a ≠ s) →
        e.ScannedBut (· ∈ ss) :=
      fun h => mono h (fun a ha => (List.mem_cons.mp ha.1).resolve_left ha.2)
    rw [EngineM.reprocess]
    refine Runs.bind (returns (Steady.targetFromSocket s) he) (fun t e₁ h₁ => ?_)
    refine Runs.bind (returns (hostSm t.ipv4) h₁) (fun _ e₂ h₂ => ?_)
    refine Runs.bind (onLvl4Sm s (fun hr => (steady.kept _).processLoop h₂ hr)
      (fun _ hr => Lvl4SM.processBuffer_scanned hr)) (fun ret e₃ h₃ => ?_)
    cases ret with
    | true => exact ih (hrest (by simpa using h₃))
    | false =>
      refine Runs.bind (socketFinished s 0 h₃) (fun _ e₄ h₄ => ?_)
      refine Runs.bind (ih (hrest (mono h₄ (fun a ha => ?_)))) (fun _ e₅ h₅ => h₅)
      have hmem : a ∈ s :: ss := by simpa [or_comm] using ha.1
      exact ⟨hmem, ha.2⟩

theorem finishTimeouted (ss : List Fd) (he : e.AllScanned) :
    Runs (EngineM.finishTimeouted w cfg ss) e (fun _ => Engine.AllScanned) (fun _ _ => True) := by
  induction ss generalizing e with
  | nil => exact he
  | cons s ss ih =>
    exact Runs.bind (socketFinished_scanned s _ he (fun _ ha => ha.elim)) (fun _ e₁ h₁ => ih h₁)

theorem processDirtyAndTimeouts (he : e.AllScanned) :
    Runs (EngineM.processDirtyAndTimeouts w cfg fuel) e (fun _ => Engine.AllScanned)
      (fun _ _ => True) := by
  unfold EngineM.processDirtyAndTimeouts workLists
  refine Runs.bind (Q := fun l => Engine.ScannedBut (· ∈ l.toProcess)) ?_ (fun l e₁ h₁ => ?_)
  · refine Runs.bind (returns (ask _) he) (fun ts e₁ h₁ => ?_)
    apply Runs.read
    exact inspectAll ts _ ⟨[], [], 0⟩ (mono h₁ (fun _ ha => ha.elim))
  · refine Runs.bind (reprocess l.toProcess h₁) (fun _ e₂ h₂ => ?_)
    exact Runs.bind (finishTimeouted l.timeouted h₂) (fun _ e₃ h₃ => h₃)

theorem launchLoop (he : e.AllScanned) :
    Runs (EngineM.launchLoop w cfg fuel) e (fun _ => Engine.AllScanned) (fun _ _ => True) := by
  induction fuel generalizing e with
  | zero => trivial
  | succ fuel ih =>
    rw [EngineM.launchLoop]
    refine Runs.bind (returns (ask _) he) (fun r e₁ h₁ => ?_)
    cases r with
    | wouldBlock => exact h₁
    | target t =>
      dsimp only
      split_ifs
      · exact h₁
      · refine Runs.bind (returns (update (f := (·.countLaunch t)) (fun _ => rfl)) h₁)
          (fun _ e₂ h₂ => ?_)
        refine Runs.bind (returns (steady.createSocket trivial) h₂) (fun r e₃ h₃ => ?_)
        split_ifs
        · exact h₃
        · exact Runs.bind (socketFinished_scanned r.1 r.2 h₃ (fun _ ha => ha.elim))
            (fun _ e₄ h₄ => ih h₄)

theorem addStarted (s : Fd) (t : Target) :
    Keeps (Engine.ScannedBut x) (EngineM.addStarted w s t) := by
  unfold EngineM.addStarted
  refine Keeps.bind (hostSm _) (fun hsm => ?_)
  refine Keeps.bind (ask _) (fun hsm' => ?_)
  refine Keeps.bind (update (fun _ => rfl)) (fun _ => ?_)
  exact update (fun _ => rfl)

theorem freeSocksLoop (n : ℕ) (he : e.AllScanned) :
    Runs (EngineM.freeSocksLoop w cfg fuel n) e (fun _ => Engine.AllScanned) (fun _ _ => True) := by
  induction n generalizing e with
  | zero => exact he
  | succ n ih =>
    rw [EngineM.freeSocksLoop]
    refine Runs.bind (launchLoop he) (fun r e₁ h₁ => ?_)
    cases r with
    | noTarget => exact h₁
    | wouldBlock => exact h₁
    | started s t => exact Runs.bind (returns (addStarted s t) h₁) (fun _ e₂ h₂ => ih h₂)

theorem phase (p : Phase) (he : e.AllScanned) :
    Runs (p.run w cfg fuel) e (fun _ => Engine.AllScanned) (fun _ _ => True) := by
  cases p with
  | freeSocks =>
    refine Runs.bind (Q := fun _ => Engine.AllScanned) ?_ (fun _ e₁ h₁ => h₁)
    refine Runs.bind (returns (note _) he) (fun _ e₁ h₁ => ?_)
    exact Runs.read (freeSocksLoop _ h₁)
  | events =>
    refine Runs.bind (Q := fun _ => Engine.AllScanned) ?_ (fun _ e₁ h₁ => h₁)
    apply Runs.read
    refine Runs.bind (returns (ask _) he) (fun r e₁ h₁ => ?_)
    cases r with
    | none => exact h₁
    | some evs => exact Runs.bind (processEventList evs h₁) (fun _ e₂ h₂ => h₂)
  | dirty => exact Runs.bind (processDirtyAndTimeouts he) (fun _ e₁ h₁ => h₁)
  | status => exact returns steady.displayStatus he

end ScannedBut

/-- `process_events` on a readable socket of the target `t`, up to the call of
`process_lvl4_data`. -/
def receive (w : World ω F) (s : Fd) (t : Target) : EngineM ω F (ℕ × ReadResult) := do
  let _ ← lvl4Sm w s
  let e ← get
  let navail ← ask (w.bytesAvail e.kernel s)
  let _ ← lvl4Sm w s
  let _ ← hostSm t.ipv4
  let r ← ask (w.read s navail)
  pure (navail, r)

variable {w : World ω F} {cfg : Config F} {fuel : ℕ} {e e₂ : Engine ω F} {s : Fd} {t : Target}
  {sm : Lvl4SM F} {navail : ℕ} {r : ReadResult}

/-- From there on, `process_events` works on the data. -/
theorem processEvent_receive {ev : EpollEvent} {e₁ : Engine ω F} (hout : ev.epollout = false)
    (hin : ev.epollin = true) (ht : e₁.socketsTargets[ev.fd]? = some t)
    (hr : (receive w ev.fd t).runFrom e₁ = (.ok (navail, r), e₂)) (hn : navail ≠ 0) :
    (processEvent w cfg fuel ev).runFrom e₁ = (do
      let ret ← onLvl4Sm ev.fd
        (fun sm e => sm.processLvl4Data (actions w) ⟨t, ev.fd⟩ fuel navail r e)
      updateTs w ev.fd
      if ret then pure () else socketFinished w cfg ev.fd 0 : EngineM ω F Unit).runFrom e₂ := by
  obtain ⟨sm₁, a₁, h₁, hr₁⟩ := bind_eq_ok.mp hr
  obtain ⟨a, a', hget, hr₁'⟩ := bind_eq_ok.mp hr₁
  simp only [runFrom_get, Prod.mk.injEq, Except.ok.injEq] at hget
  obtain ⟨rfl, rfl⟩ := hget
  obtain ⟨n, a₂, h₂, hr₂⟩ := bind_eq_ok.mp hr₁'
  obtain ⟨sm₂, a₃, h₃, hr₃⟩ := bind_eq_ok.mp hr₂
  obtain ⟨hsm, a₄, h₄, hr₄⟩ := bind_eq_ok.mp hr₃
  obtain ⟨r', a₅, h₅, hr₅⟩ := bind_eq_ok.mp hr₄
  simp only [runFrom_pure, Prod.mk.injEq, Except.ok.injEq] at hr₅
  obtain ⟨⟨rfl, rfl⟩, rfl⟩ := hr₅
  have htarget : (targetFromSocket ev.fd).runFrom e₁ = (.ok t, e₁) := by
    simp only [targetFromSocket, runFrom_bind, runFrom_get, ht, runFrom_pure]
  rw [processEvent, if_neg (by simp [hout]), if_pos hin]
  simp only [processConnectedReady, runFrom_bind, htarget, h₁, runFrom_get, h₂, h₃, if_neg hn, h₄,
    h₅]

end Nodescan
