import Nodescan.TargetFile
import Nodescan.EngineSteps

/-!
# The bytes a `read` leaves in a buffer

Both readers grow their buffer by the count that `ioctl` announced and do not shrink it when `read`
has given less or has failed. The buffer that the triggers, the parser of lines and the finish
callback are given is right only if `read` has filled all of it.
-/

namespace Nodescan

open FaultM EngineM

theorem ReadResult.length_bytes (r : ReadResult) (n : ℕ) : (r.bytes n).length = n := by
  simp only [ReadResult.bytes, List.length_append, List.length_take, List.length_replicate]
  omega

def ReadResult.stored (r : ReadResult) : List UInt8 := r.bytes r.nread.toNat

theorem grown_eq_stored_iff (buf : List UInt8) {navail : ℕ} {r : ReadResult} :
    buf ++ r.bytes navail = buf ++ r.stored ↔ (navail : ℤ) = max r.nread 0 := by
  rw [List.append_cancel_left_eq, ReadResult.stored]
  constructor
  · intro heq
    have hlen := congrArg List.length heq
    rw [r.length_bytes, r.length_bytes] at hlen
    omega
  · intro heq
    have hn : r.nread.toNat = navail := by omega
    rw [hn]

/-- A machine with the buffer `buf` keeps it if nothing was received, and otherwise its triggers
are run on it with the bytes received behind. -/
def TriggersExact (buf : List UInt8) (navail : ℕ) (r : ReadResult) : Prop :=
  ∀ {F κ : Type} (acts : Actions F κ) (ct : ConnectedTarget) (fuel : ℕ) (sm : Lvl4SM F) (k : κ),
    sm.buf = buf →
      sm.processLvl4Data acts ct fuel navail r k =
        if r.nread ≤ 0 then .ok (false, sm, k)
        else { sm with buf := buf ++ r.stored }.processLoop acts ct fuel buf.length k

/-- What `next_target` does on a file that has the buffer `buf` once it gave no target, when `read`
is asked for `navail` bytes. -/
def LinesExact (buf : List UInt8) (navail : ℕ) (r : ReadResult) : Prop :=
  ∀ {κ : Type} (ipv4toi : List UInt8 → Option UInt32) (poll : κ → Poll × κ)
    (f g : TargetAsyncFile) (k k' : κ), f.nextTargetInBuf ipv4toi = (.endMark, g) → g.buf = buf →
      poll k = (.avail navail r, k') → navail ≠ 0 →
      f.nextTarget ipv4toi poll k =
        if r.nread ≤ 0 then (.target .endMark, g, k')
        else
          let ret := { g with buf := buf ++ r.stored }.nextTargetInBuf ipv4toi
          (if ret.1 = .endMark then .wouldBlock else .target ret.1, ret.2, k')

/-- The connected socket `s` of `t` has `navail` bytes announced, and `read` answers `r`. -/
structure Reads {ω F : Type} (w : World ω F) (e : Engine ω F) (s : Fd) (t : Target)
    (sm : Lvl4SM F) (navail : ℕ) (r : ReadResult) : Prop where
  target : e.socketsTargets[s]? = some t
  machine : e.lvl4Sms[s]? = some sm
  announced : (w.bytesAvail e.kernel s e.world).1 = navail
  some_announced : navail ≠ 0
  result : (w.read s navail (w.bytesAvail e.kernel s e.world).2).1 = r

def afterRead {ω F : Type} (w : World ω F) (s : Fd) (t : Target) (navail : ℕ) (e : Engine ω F) :
    Engine ω F :=
  { e with
    hostsSms := e.hostsSms.insertIfNew t.ipv4 .new
    world := (w.read s navail (w.bytesAvail e.kernel s e.world).2).2 }

/-- If `read` gives nothing, the finish callback is given `buf`; if the triggers end the connection
on `buf` and the bytes received, it is given what they leave of it. -/
def FinishExact (buf : List UInt8) (navail : ℕ) (r : ReadResult) : Prop :=
  ∀ {ω F : Type} (w : World ω F) (cfg : Config F) (fuel : ℕ) (e : Engine ω F) (s : Fd)
    (t : Target) (sm : Lvl4SM F), cfg.hasFinish = true → sm.buf = buf → Reads w e s t sm navail r →
      if r.nread ≤ 0 then
        ∃ l, ((processConnectedReady w cfg fuel s t).runFrom e).2.log = l ++ e.log ∧
          .called (.finish t buf 0) ∈ l
      else
        ∀ sm' e', { sm with buf := buf ++ r.stored }.processLoop (actions w) ⟨t, s⟩ fuel buf.length
            (afterRead w s t navail e) = .ok (false, sm', e') →
          ∃ l, ((processConnectedReady w cfg fuel s t).runFrom e).2.log = l ++ e'.log ∧
            .called (.finish t sm'.buf 0) ∈ l

theorem triggersExact_iff (buf : List UInt8) (navail : ℕ) (r : ReadResult) :
    TriggersExact buf navail r ↔ (navail : ℤ) = max r.nread 0 := by
  constructor
  · intro h
    -- a machine without a trigger keeps what it is given
    have hbase := h (F := Unit) (κ := Unit) ⟨fun _ _ _ k => (⟨true, [], []⟩, k),
      fun _ _ _ _ k => (⟨.noMoreToProcess, 0, []⟩, k)⟩ ⟨.endMark, 0⟩ 1
      { Lvl4SM.new 0 with buf := buf } () rfl
    rw [← grown_eq_stored_iff buf]
    by_cases hread : r.nread ≤ 0
    · have hnone : r.stored = [] := by
        rw [← List.length_eq_zero_iff, ReadResult.stored, r.length_bytes]
        omega
      rw [hnone, List.append_nil]
      simpa [Lvl4SM.processLvl4Data, hread, Lvl4SM.growBy, Lvl4SM.new] using hbase
    · simpa [Lvl4SM.processLvl4Data, hread, Lvl4SM.growBy, Lvl4SM.new, Lvl4SM.processLoop,
        Lvl4SM.processTrigger] using hbase
  · intro h F κ acts ct fuel sm k hbuf
    have hgrown := (grown_eq_stored_iff buf).mpr h
    subst hbuf
    rw [Lvl4SM.processLvl4Data, Lvl4SM.growBy, hgrown]
    by_cases hread : r.nread ≤ 0
    · have hzero : navail = 0 := by omega
      have hnone : r.bytes navail = [] := by
        rw [← List.length_eq_zero_iff, r.length_bytes, hzero]
      rw [if_pos hread, if_pos hread, ← hgrown, hnone, List.append_nil]
    · rw [if_neg hread, if_neg hread]

theorem linesExact_of_eq (buf : List UInt8) {navail : ℕ} {r : ReadResult}
    (h : (navail : ℤ) = max r.nread 0) : LinesExact buf navail r := by
  intro κ ipv4toi poll f g k k' hempty hbuf hpoll hsome
  have hgrown := (grown_eq_stored_iff buf).mpr h
  have hread : ¬ r.nread ≤ 0 := by omega
  rw [TargetAsyncFile.nextTarget_eq, hempty, hpoll, if_neg (by simp)]
  simp only [TargetAsyncFile.pollTarget, if_neg hsome, TargetAsyncFile.readTarget, hbuf, hgrown,
    if_neg hread]
  split_ifs <;> rfl

variable {ω F : Type} {w : World ω F} {cfg : Config F} {e : Engine ω F} {s : Fd} {t : Target}
  {sm : Lvl4SM F} {navail : ℕ} {r : ReadResult}

theorem callback_called (cb : Callback F) :
    Runs (callback w cb) e (fun _ e' => ∃ l, e'.log = l ++ .called cb :: e.log)
      (fun _ _ => False) := by
  let ans := w.callback cb e.world
  let e₁ : Engine ω F := { e with
    world := ans.2
    log := .returned cb (cb.goesOn ans.1.1) ans.1.2 :: .called cb :: e.log }
  obtain ⟨l, hl, _⟩ := (Quiet.callAll (e := e₁) (fun hw c hc => hw cb e.world c hc)).log
  exact ⟨l ++ [.returned cb (cb.goesOn ans.1.1) ans.1.2], by rw [List.append_assoc]; exact hl⟩

theorem socketFinished_calls (hfin : cfg.hasFinish = true) (ht : e.socketsTargets[s]? = some t)
    (hsm : e.lvl4Sms[s]? = some sm) (err : ℤ) :
    Runs (socketFinished w cfg s err) e
      (fun _ e' => ∃ l, e'.log = l ++ e.log ∧ .called (.finish t sm.buf err) ∈ l)
      (fun _ _ => False) := by
  unfold socketFinished
  refine Runs.bind (Q := fun _ e' => e.countFinish s = e') rfl ?_
  rintro _ _ rfl
  refine Runs.bind (Q := fun t' e' => t = t' ∧ e.countFinish s = e') ?_ ?_
  · refine (targetFromSocket_spec s).mono (fun t' e' h => ?_) (fun f e' h => ?_)
    · exact ⟨Option.some.inj (ht.symm.trans h.2), h.1.symm⟩
    · exact h.2.2 (TreeMaps.mem_of_getElem? ht)
  rintro _ _ ⟨rfl, rfl⟩
  refine Runs.bind (Q := fun sm' e' => sm = sm' ∧ e.countFinish s = e') ?_ ?_
  · refine (lvl4Sm_spec s).mono (fun sm' e' h => ?_) (fun _ _ h => h)
    have he' : e' = e.countFinish s := h.present (TreeMaps.mem_of_getElem? hsm)
    have hhere := h.here
    rw [he'] at hhere
    exact ⟨Option.some.inj (hsm.symm.trans hhere), he'.symm⟩
  rintro _ _ ⟨rfl, rfl⟩
  unfold callbackFinish
  rw [if_pos hfin]
  refine Runs.bind (callback_called _) (fun _ e₁ h₁ => ?_)
  refine Runs.bind (QuietRun.freeBuffer (w := w) s) (fun _ e₂ h₂ => ?_)
  refine Runs.bind (QuietRun.hostFinished t) (fun _ e₃ h₃ => ?_)
  obtain ⟨l, hl⟩ := h₁
  obtain ⟨l', hl', _⟩ := (h₂.trans h₃).log
  refine ⟨l' ++ l ++ [.called (.finish t sm.buf err), .socketFinished s], ?_, by simp⟩
  change e₃.log = _
  rw [hl', hl]
  simp [Engine.countFinish]

theorem Reads.finish (h : Reads w e s t sm navail r) (hfin : cfg.hasFinish = true) {fuel : ℕ}
    {sm' : Lvl4SM F} {e' : Engine ω F}
    (hproc : sm.processLvl4Data (actions w) ⟨t, s⟩ fuel navail r (afterRead w s t navail e) =
      .ok (false, sm', e')) :
    Runs (processConnectedReady w cfg fuel s t) e
      (fun _ e'' => ∃ l, e''.log = l ++ e'.log ∧ .called (.finish t sm'.buf 0) ∈ l)
      (fun _ _ => False) := by
  unfold processConnectedReady
  apply Runs.read
  let e₁ : Engine ω F := { e with world := (w.bytesAvail e.kernel s e.world).2 }
  refine Runs.bind (Q := fun n e' => navail = n ∧ e₁ = e') ⟨h.announced.symm, rfl⟩ ?_
  rintro _ _ ⟨rfl, rfl⟩
  refine Runs.bind (Q := fun _ e' => e₁ = e') ?_ ?_
  · refine (lvl4Sm_spec s).mono (fun sm' e' ht => ?_) (fun _ _ h => h)
    exact (ht.present (TreeMaps.mem_of_getElem? h.machine)).symm
  rintro _ _ rfl
  rw [if_neg h.some_announced]
  refine Runs.bind (hostSm_insertIfNew t.ipv4) ?_
  rintro _ _ rfl
  let e₂ : Engine ω F := afterRead w s t navail e
  refine Runs.bind (Q := fun r' e' => r = r' ∧ e₂ = e') ⟨h.result.symm, rfl⟩ ?_
  rintro _ _ ⟨rfl, rfl⟩
  let e₃ : Engine ω F := { e' with lvl4Sms := e'.lvl4Sms.insert s sm' }
  refine Runs.bind (Q := fun ret e'' => ret = false ∧ e₃ = e'') ?_ ?_
  · unfold onLvl4Sm
    apply Runs.read
    have hsm : e₂.lvl4Sms[s]? = some sm := h.machine
    simp only [hsm, e₂, hproc]
    exact ⟨rfl, rfl⟩
  rintro _ _ ⟨rfl, rfl⟩
  let now := w.timestamp e₃.world
  let e₄ : Engine ω F := { e₃ with world := now.2 }.modifySm s ({ · with ts := now.1 })
  refine Runs.bind (Q := fun _ e'' => e₄ = e'') rfl ?_
  rintro _ _ rfl
  have hsm : e₄.lvl4Sms[s]? = some { sm' with ts := now.1 } := by
    change ((e'.lvl4Sms.insert s sm').modify s ({ · with ts := now.1 }))[s]? = _
    rw [TreeMaps.getElem?_modify, TreeMaps.getElem?_insert]
    simp
  -- the triggers leave the registry alone
  have hquiet : Quiet w e₂ e' := ((actions_kept (w := w) (e := e₂) s t sm).processLvl4Data
    ⟨Quiet.refl e₂, rfl, fun _ h => h⟩ hproc).1
  have ht : e₄.socketsTargets[s]? = some t := by
    change e'.socketsTargets[s]? = _
    rw [hquiet.targets]
    exact h.target
  exact socketFinished_calls (e := e₄) hfin ht hsm 0

/-- What the triggers, the parser of lines and the finish callback are given after a `read` is the
old contents of the buffer and the bytes received, exactly if all that was announced was read. -/
theorem reads_exact_iff (buf : List UInt8) (navail : ℕ) (r : ReadResult) :
    (TriggersExact buf navail r ∧ LinesExact buf navail r ∧ FinishExact buf navail r) ↔
      (navail : ℤ) = max r.nread 0 := by
  constructor
  · rintro ⟨htriggers, _, _⟩
    exact (triggersExact_iff buf navail r).mp htriggers
  · intro heq
    refine ⟨(triggersExact_iff buf navail r).mpr heq, linesExact_of_eq buf heq, ?_⟩
    intro ω F w cfg fuel e s t sm hfin hbuf hreads
    have hsome := hreads.some_announced
    have hread : ¬ r.nread ≤ 0 := by omega
    rw [if_neg hread]
    intro sm' e' hloop
    have hproc := (triggersExact_iff buf navail r).mpr heq (actions w) ⟨t, s⟩ fuel sm
      (afterRead w s t navail e) hbuf
    rw [if_neg hread, hloop] at hproc
    have hrun := hreads.finish hfin hproc
    rcases hr : (processConnectedReady w cfg fuel s t).runFrom e with ⟨f | _, e''⟩
    · exact (hrun.of_error hr).elim
    · exact hrun.of_ok hr

/-- A `read` that fails after three bytes were announced leaves three bytes in the buffer. -/
theorem failed_read_not_exact :
    ¬ (TriggersExact [] 3 ⟨-1, []⟩ ∧ LinesExact [] 3 ⟨-1, []⟩ ∧ FinishExact [] 3 ⟨-1, []⟩) := by
  rintro ⟨htriggers, _, _⟩
  have heq := (triggersExact_iff [] 3 ⟨-1, []⟩).mp htriggers
  norm_num at heq

end Nodescan
