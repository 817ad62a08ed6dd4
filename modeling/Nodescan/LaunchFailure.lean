import Nodescan.Launching

/-!
# When `socket()` fails

`create_socket` returns before it registers anything if there is no descriptor to be had, and both
of its callers go on as if it had. A launch then looks up the target of descriptor -1, which is
never registered; a reconnection makes a machine for descriptor -1 and reports no end of the
target. So neither caller handles this as a launch that failed.
-/

namespace Nodescan

open FaultM EngineM

variable {ω F : Type}

/-- A finish callback for `t` that is not the announcement of a reconnection. -/
def Event.isFinalFinish (t : Target) : Event F → Bool
  | .called (.finish t' _ err) => t' = t && err ≠ Errors.willReconnect.code
  | _ => false

/-- The run `r` from `e` met a failed `socket()` for `t` as an ordinary launch failure. -/
structure FailureHandled {α : Type} (t : Target) (e : Engine ω F)
    (r : Except Fault α × Engine ω F) : Prop where
  lookups : ∀ s, r.1 ≠ .error (.targetFromSocket s)
  finished : ∃ l, r.2.log = l ++ e.log ∧ (l.filter (Event.isFinalFinish t)).length = 1
  no_entry : -1 ∉ r.2.lvl4Sms ∧ -1 ∉ r.2.socketsTargets
  balance : r.2.availSocks + r.2.kernel.socks.size = e.availSocks + e.kernel.socks.size
  others : ∀ s : Fd, e.socketsTargets[s]? ≠ some t → r.2.lvl4Sms[s]? = e.lvl4Sms[s]?

variable {w : World ω F} {cfg : Config F} {e : Engine ω F}

theorem createSocket_failed {t : Target} (ha : 0 < e.availSocks)
    (hs : (w.socket e.kernel t.port.protocol e.world).1 = none) :
    (createSocket w cfg t).runFrom e = (.ok (-1, EBADF),
      { e with world := (w.socket e.kernel t.port.protocol e.world).2 }) := by
  have hne : e.availSocks ≠ 0 := by omega
  simp only [createSocket, runFrom_bind, runFrom_get, if_neg hne, ask, runFrom_modifyGet, hs,
    runFrom_pure]

/-- Descriptor -1 is never registered. -/
theorem neg_one_not_registered (e : Engine ω F) : -1 ∉ e.socketsTargets := by
  intro h
  have hpos := e.fds_nonneg (-1) h
  norm_num at hpos

theorem launchLoop_failed {t : Target} (fuel : ℕ) (ha : 0 < e.availSocks)
    (hn : (w.nextTarget e.world).1 = .target t) (hend : t.isEnd = false)
    (hs : (w.socket e.kernel t.port.protocol (w.nextTarget e.world).2).1 = none) :
    ((launchLoop w cfg (fuel + 1)).runFrom e).1 = .error (.targetFromSocket (-1)) := by
  have hgiven : Given w cfg t (.ok (-1, EBADF)) e _ :=
    ⟨hn, hend, createSocket_failed (e := (e.afterDraw w).countLaunch t) ha hs⟩
  have herr : ¬ IsStarted (-1, EBADF) := by decide
  rw [hgiven.launchLoop]
  simp only [if_neg herr, runFrom_bind, socketFinished_absent (neg_one_not_registered _)]

theorem reconnect_failed {s : Fd} {t : Target} (hsm : s ∈ e.lvl4Sms)
    (ha : 0 < (e.availSocks + 1) % 2 ^ 32)
    (hs : (w.socket ((e.kernel.epollDel s).close s) t.port.protocol e.world).1 = none) :
    Runs (reconnect w cfg s t) e (fun _ e' => -1 ∈ e'.lvl4Sms) (fun _ _ => False) := by
  unfold reconnect
  refine Runs.bind (Q := fun _ e' => e = e') ?_ ?_
  · exact (lvl4Sm_spec s).mono (fun sm e' h => (h.present hsm).symm) (fun _ _ h => h)
  rintro sm _ rfl
  let e₁ : Engine ω F := (e.removeConnectedSocket s).closeSocket s
  refine Runs.bind (Runs.update rfl : Runs _ e (fun _ e' => e₁ = e') _) ?_
  rintro _ _ rfl
  have hcreate : (createSocket w cfg t).runFrom e₁ = (.ok (-1, EBADF),
      { e₁ with world := (w.socket e₁.kernel t.port.protocol e₁.world).2 }) :=
    createSocket_failed ha hs
  refine Runs.bind (Q := fun r _ => r = (-1, EBADF)) ?_ ?_
  · refine Runs.intro (fun r e' hr => ?_) (fun f e' hr => ?_)
    · rw [hcreate] at hr
      exact (Except.ok.inj (Prod.mk.inj hr).1).symm
    · rw [hcreate] at hr
      simp at hr
  rintro _ e₂ rfl
  refine Runs.bind (Q := fun _ _ => True) trivial (fun _ e₃ _ => ?_)
  refine Runs.bind ((lvl4Sm_spec (-1)).mono (fun _ _ h => h) (fun _ _ h => h)) ?_
  intro _ e₄ h₄
  have hmem : -1 ∈ e₄.lvl4Sms := TreeMaps.mem_of_getElem? h₄.here
  have hq : Quiet w e₄ (e₄.modifySm (-1) (·.setOnConnect sm.funcConnect)) :=
    Quiet.modifySm (-1) (fun _ => rfl) (fun _ _ h => h)
  exact (hq.mem_lvl4Sms (-1)).mpr hmem

/-- Neither caller of `create_socket` handles a failed `socket()`, from any state and for any
target. -/
theorem socket_failure_not_handled (w : World ω F) (cfg : Config F) (e : Engine ω F) (t : Target) :
    (∀ fuel, 0 < e.availSocks → (w.nextTarget e.world).1 = .target t → t.isEnd = false →
      (w.socket e.kernel t.port.protocol (w.nextTarget e.world).2).1 = none →
      ¬ FailureHandled t e ((launchLoop w cfg (fuel + 1)).runFrom e)) ∧
    (∀ s, s ∈ e.lvl4Sms → 0 < (e.availSocks + 1) % 2 ^ 32 →
      (w.socket ((e.kernel.epollDel s).close s) t.port.protocol e.world).1 = none →
      ¬ FailureHandled t e ((reconnect w cfg s t).runFrom e)) := by
  constructor
  · intro fuel ha hn hend hs h
    exact h.lookups (-1) (launchLoop_failed fuel ha hn hend hs)
  · intro s hsm ha hs h
    have hrun : Runs (reconnect w cfg s t) e (fun _ e' => -1 ∈ e'.lvl4Sms) (fun _ _ => False) :=
      reconnect_failed hsm ha hs
    rcases hr : (reconnect w cfg s t).runFrom e with ⟨f | _, e'⟩
    · exact hrun.of_error hr
    · rw [hr] at h
      exact h.no_entry.1 (hrun.of_ok hr)

/-- A world without descriptors. -/
def exhausted : World Script Unit :=
  { Script.world Script.goOn with
    socket := fun _ _ sc => (none, sc)
    socket_fresh := by simp }

def oneTarget : Script where
  targets := [⟨1, ⟨80, .tcp⟩⟩]
  fds := []
  connects := []
  events := []
  clock := 0
  tick := 0

theorem first_launch_not_handled :
    ¬ FailureHandled ⟨1, ⟨80, .tcp⟩⟩ (.init (.plain 1) oneTarget)
      ((launchLoop exhausted (.plain 1) 1).runFrom (.init (.plain 1) oneTarget)) := by
  intro h
  exact h.lookups (-1) (by decide +kernel)

theorem socket_failure_not_handled_first :
    ¬ FailureHandled ⟨1, ⟨80, .tcp⟩⟩ (.init (.plain 1) oneTarget)
      ((launchLoop exhausted (.plain 1) 2).runFrom (.init (.plain 1) oneTarget)) :=
  (socket_failure_not_handled exhausted (.plain 1) (.init (.plain 1) oneTarget)
    ⟨1, ⟨80, .tcp⟩⟩).1 1 (by decide) rfl rfl rfl

end Nodescan
