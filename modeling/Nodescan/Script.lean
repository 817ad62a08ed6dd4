import Nodescan.AsyncEngine

/-!
# A world that plays a script

The targets, the answers of `connect` and the ready sockets come from lists; the clock advances by
`tick` at each `epoll_wait`; every socket is closed by its peer once it is connected. It shows that
the laws of `World` can be met, and the concrete runs below are played on it.
-/

namespace Nodescan

structure Script where
  targets : List Target
  fds : List ℕ
  connects : List ℤ
  events : List (Option (Fd × Interest))
  clock : ℤ
  tick : ℤ

namespace Script

/-- A descriptor above every open one. -/
def freshFd (k : Kernel) : ℕ := (k.socks.keys.map Int.natAbs).sum + 1

theorem freshFd_not_mem (k : Kernel) : (freshFd k : Fd) ∉ k.socks := by
  intro hmem
  have hkey : (freshFd k : Fd) ∈ k.socks.keys := Std.ExtTreeMap.mem_keys.mpr hmem
  have habs : freshFd k ∈ k.socks.keys.map Int.natAbs :=
    List.mem_map.mpr ⟨_, hkey, Int.natAbs_natCast _⟩
  have hle := List.le_sum_of_mem habs
  unfold freshFd at hle
  omega

/-- The next descriptor of the script, if it is free. -/
def pickFd (k : Kernel) (sc : Script) : ℕ :=
  match sc.fds with
  | [] => freshFd k
  | n :: _ => if (n : Fd) ∈ k.socks then freshFd k else n

theorem pickFd_not_mem (k : Kernel) (sc : Script) : (sc.pickFd k : Fd) ∉ k.socks := by
  unfold pickFd
  split
  · exact freshFd_not_mem k
  · split_ifs with h
    · exact freshFd_not_mem k
    · exact h

/-- An event of the script happens if its socket is registered for it. -/
def ready (k : Kernel) (sc : Script) : List EpollEvent :=
  match sc.events with
  | some (s, i) :: _ =>
    if k.epoll[s]? = some i then [⟨s, i = .epollin, i = .epollout⟩] else []
  | _ => []

theorem ready_length (k : Kernel) (sc : Script) : (sc.ready k).length ≤ 1 := by
  unfold ready
  split
  · split_ifs <;> simp
  · simp

theorem ready_registered {k : Kernel} {sc : Script} {ev : EpollEvent} (h : ev ∈ sc.ready k) :
    ev.fd ∈ k.epoll ∧ (ev.epollout → k.epoll[ev.fd]? = some .epollout) ∧
      (ev.epollin → k.epoll[ev.fd]? = some .epollin) := by
  unfold ready at h
  split at h
  · next s i _ _ =>
    by_cases hreg : k.epoll[s]? = some i
    · rw [if_pos hreg, List.mem_singleton] at h
      have hmem : s ∈ k.epoll := TreeMaps.mem_of_getElem? hreg
      subst h
      refine ⟨hmem, ?_, ?_⟩
      · intro hout
        rw [hreg, of_decide_eq_true hout]
      · intro hin
        rw [hreg, of_decide_eq_true hin]
    · simp [hreg] at h
  · simp at h

variable {F : Type}

def world (answer : (cb : Callback F) → cb.Answer × List (Call F)) : World Script F where
  socket k _ sc := (some (sc.pickFd k), { sc with fds := sc.fds.tail })
  connect _ _ _ sc := (sc.connects.headD EINPROGRESS, { sc with connects := sc.connects.tail })
  epollWait k sc :=
    (some (sc.ready k), { sc with events := sc.events.tail, clock := sc.clock + sc.tick })
  soError _ _ sc := (0, sc)
  bytesAvail _ _ sc := (0, sc)
  read _ _ sc := (⟨0, []⟩, sc)
  getpeername k s sc := ((k.socks[s]?.join).getD .endMark, sc)
  timestamp sc := (sc.clock, sc)
  initTargets sc := sc
  nextTarget sc := (.target (sc.targets.headD .endMark), { sc with targets := sc.targets.tail })
  targetFinished _ hsm sc := ((false, hsm), sc)
  initHostSm _ hsm sc := (hsm, sc)
  saveState sc := sc
  callback cb sc := (answer cb, sc)
  socket_fresh := by
    intro k p sc n h
    simp only [Option.some.injEq] at h
    rw [← h]
    exact pickFd_not_mem k sc
  epollWait_registered := by
    intro k sc evs h ev hev
    simp only [Option.some.injEq] at h
    rw [← h] at hev
    exact ready_registered hev
  epollWait_nodup := by
    intro k sc evs h
    simp only [Option.some.injEq] at h
    have hl := sc.ready_length k
    rw [← h]
    match hr : sc.ready k with
    | [] => simp
    | [ev] => simp
    | _ :: _ :: _ => simp [hr] at hl
  epollWait_length := by
    intro k sc evs h
    simp only [Option.some.injEq] at h
    have hl := sc.ready_length k
    rw [← h]
    omega

theorem world_socketsSucceed (answer : (cb : Callback F) → cb.Answer × List (Call F)) :
    (world answer).SocketsSucceed := by
  intro k p sc h
  simp [world] at h

/-- Callbacks that only let a connection go on. -/
def goOn : (cb : Callback F) → cb.Answer × List (Call F)
  | .connected _ _ => (true, [])
  | .data _ _ chunk => ((true, chunk), [])
  | .python _ _ _ _ => ((.noMoreToProcess, 0), [])
  | .finish _ _ _ => ((), [])
  | .watchTimeout _ => (true, [])
  | .timeoutOfTarget _ => ((5 : ℕ), [])
  | .status _ _ => ((), [])

theorem goOn_neverReconnects : (world (F := F) goOn).NeverReconnects := by
  intro cb sc c hc
  cases cb <;> simp [world, goOn] at hc

end Script

/-- An engine of `n` sockets with a timeout of five seconds. -/
def Config.plain {F : Type} (n : UInt32) : Config F where
  nsockets := n
  timeout := 5
  watchTimeout := 0
  timeoutStatusDisplay := 0
  callbackLvl4Connected := none
  hasFinish := true
  hasWatchTimeout := false
  hasTimeoutTarget := false
  hasStatus := false

end Nodescan
