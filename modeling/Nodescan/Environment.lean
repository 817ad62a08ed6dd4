import Nodescan.Lvl4StateMachine
import Nodescan.TreeMaps

/-!
# What the engine runs against

The kernel holds the open sockets and the epoll set. Everything else the engine cannot decide
itself is answered by a `World` over a state `ω`: the system calls, the clock, the target set and
the user's callbacks. A callback answers and names the public calls it made on the engine and on
the state machines it holds references to.
-/

namespace Nodescan

inductive Interest
  | epollout
  | epollin
  deriving DecidableEq, Repr

/-- The open sockets, each with the target of the last `connect` made on it, and the epoll set. A
closed socket leaves the epoll set with it. -/
structure Kernel where
  socks : Std.ExtTreeMap Fd (Option Target)
  epoll : Std.ExtTreeMap Fd Interest
  epoll_open : ∀ s ∈ epoll, s ∈ socks

namespace Kernel

def empty : Kernel := ⟨∅, ∅, by simp⟩

def openSocket (k : Kernel) (s : Fd) : Kernel where
  socks := k.socks.insert s none
  epoll := k.epoll
  epoll_open := by
    intro a ha
    simp [k.epoll_open a ha]

def connected (k : Kernel) (s : Fd) (t : Target) : Kernel where
  socks := k.socks.insert s (some t)
  epoll := k.epoll
  epoll_open := by
    intro a ha
    simp [k.epoll_open a ha]

def close (k : Kernel) (s : Fd) : Kernel where
  socks := k.socks.erase s
  epoll := k.epoll.erase s
  epoll_open := by
    intro a ha
    rw [TreeMaps.mem_erase] at ha ⊢
    exact ⟨ha.1, k.epoll_open a ha.2⟩

/-- `EPOLL_CTL_ADD` fails on a socket that is closed or already there. -/
def epollAdd (k : Kernel) (s : Fd) (i : Interest) : Kernel :=
  if h : s ∈ k.socks then
    { k with
      epoll := k.epoll.insertIfNew s i
      epoll_open := by
        intro a ha
        rcases (TreeMaps.mem_insertIfNew _ _ _ _).mp ha with rfl | hmem
        · exact h
        · exact k.epoll_open a hmem }
  else k

def epollDel (k : Kernel) (s : Fd) : Kernel where
  socks := k.socks
  epoll := k.epoll.erase s
  epoll_open := by
    intro a ha
    exact k.epoll_open a (Std.ExtTreeMap.mem_of_mem_erase ha)

/-- A new, empty epoll set. -/
def epollCreate (k : Kernel) : Kernel := ⟨k.socks, ∅, by simp⟩

@[simp] theorem epollAdd_socks (k : Kernel) (s : Fd) (i : Interest) :
    (k.epollAdd s i).socks = k.socks := by
  unfold epollAdd
  split_ifs <;> rfl

@[simp] theorem epollDel_socks (k : Kernel) (s : Fd) : (k.epollDel s).socks = k.socks := rfl

@[simp] theorem epollCreate_socks (k : Kernel) : k.epollCreate.socks = k.socks := rfl

@[simp] theorem close_socks (k : Kernel) (s : Fd) : (k.close s).socks = k.socks.erase s := rfl

theorem epollAdd_of_ne (k : Kernel) {s a : Fd} (i : Interest) (h : a ≠ s) :
    (k.epollAdd s i).epoll[a]? = k.epoll[a]? := by
  unfold epollAdd
  split_ifs
  · exact (TreeMaps.getElem?_insertIfNew _ _ _ _).trans (if_neg h)
  · rfl

theorem epollDel_of_ne (k : Kernel) {s a : Fd} (h : a ≠ s) :
    (k.epollDel s).epoll[a]? = k.epoll[a]? :=
  (TreeMaps.getElem?_erase _ _ _).trans (if_neg h)

/-- An open socket that is registered anew is registered for this interest, and one that was there
already keeps the one it had. -/
theorem epollAdd_self (k : Kernel) {s : Fd} (i : Interest) (h : s ∈ k.socks) :
    (k.epollAdd s i).epoll[s]? = some (k.epoll[s]?.getD i) := by
  rw [epollAdd, dif_pos h]
  exact (TreeMaps.getElem?_insertIfNew _ _ _ _).trans (if_pos rfl)

end Kernel

structure EpollEvent where
  fd : Fd
  epollin : Bool
  epollout : Bool
  deriving DecidableEq, Repr

/-- The step of the address is unset until `init_host_sm`. The action of `set_on_alive`, which the
engine never calls, is known by a number. -/
structure HostSM where
  portsDone : List Port
  randIdxIp : Option ℕ
  onAlive : Option ℕ
  deriving DecidableEq, Repr

namespace HostSM

def new : HostSM := ⟨[], none, none⟩

def setOnAlive (a : ℕ) (hsm : HostSM) : HostSM := { hsm with onAlive := some a }

/-- `HostSM::port_done`. -/
def portDone (p : Port) (hsm : HostSM) : HostSM := { hsm with portsDone := hsm.portsDone ++ [p] }

end HostSM

/-- `next_target`: a target, or `NextTargetWouldBlock` thrown. -/
inductive NextTarget
  | target (t : Target)
  | wouldBlock
  deriving DecidableEq, Repr

/-- A call of a user callback with its arguments. -/
inductive Callback (F : Type)
  | connected (f : F) (ct : ConnectedTarget)
  | data (f : F) (ct : ConnectedTarget) (chunk : List UInt8)
  | python (obj : F) (ct : ConnectedTarget) (buf : List UInt8) (prevPos : ℕ)
  | finish (t : Target) (buf : List UInt8) (err : ℤ)
  | watchTimeout (ct : ConnectedTarget)
  | timeoutOfTarget (t : Target)
  | status (nlaunched ndone : ℕ)
  deriving DecidableEq, Repr

/-- What the callback returns; a data action may also write to the bytes it was handed. -/
abbrev Callback.Answer {F : Type} : Callback F → Type
  | .connected _ _ => Bool
  | .data _ _ _ => Bool × List UInt8
  | .python _ _ _ _ => ProcessReturnCode × ℕ
  | .finish _ _ _ => Unit
  | .watchTimeout _ => Bool
  | .timeoutOfTarget _ => ℕ
  | .status _ _ => Unit

/-- Whether the answer lets the connection go on. -/
def Callback.goesOn {F : Type} : (cb : Callback F) → cb.Answer → Bool
  | .connected _ _, ret => ret
  | .data _ _ _, ans => ans.1
  | .python _ _ _ _, ans => ans.1 ≠ .connectionEnd
  | .watchTimeout _, ret => ret
  | _, _ => true

/-- The public calls open to a callback. -/
inductive Call (F : Type)
  | onSm (s : Fd) (c : SmCall F)
  | ensureAvailableSockets (n : ℕ)
  | setOnAlive (ip : UInt32) (a : ℕ)
  deriving DecidableEq, Repr

/-- `socket` answers no descriptor, or one that is not open; `connect` answers 0 or its `errno`;
`epollWait` answers at most `MAX_EVENTS` events, one for a socket, of the kind it is registered
for, or fails. -/
structure World (ω F : Type) where
  socket : Kernel → Protocol → ω → Option ℕ × ω
  connect : Kernel → Fd → Target → ω → ℤ × ω
  epollWait : Kernel → ω → Option (List EpollEvent) × ω
  soError : Kernel → Fd → ω → ℤ × ω
  bytesAvail : Kernel → Fd → ω → ℕ × ω
  read : Fd → ℕ → ω → ReadResult × ω
  getpeername : Kernel → Fd → ω → Target × ω
  timestamp : ω → ℤ × ω
  initTargets : ω → ω
  nextTarget : ω → NextTarget × ω
  targetFinished : Target → HostSM → ω → (Bool × HostSM) × ω
  initHostSm : Target → HostSM → ω → HostSM × ω
  saveState : ω → ω
  callback : (cb : Callback F) → ω → (cb.Answer × List (Call F)) × ω
  socket_fresh : ∀ {k p o n}, (socket k p o).1 = some n → (n : Fd) ∉ k.socks
  epollWait_registered : ∀ {k o evs}, (epollWait k o).1 = some evs → ∀ ev ∈ evs,
    ev.fd ∈ k.epoll ∧ (ev.epollout → k.epoll[ev.fd]? = some .epollout) ∧
      (ev.epollin → k.epoll[ev.fd]? = some .epollin)
  epollWait_nodup : ∀ {k o evs}, (epollWait k o).1 = some evs → (evs.map EpollEvent.fd).Nodup
  epollWait_length : ∀ {k o evs}, (epollWait k o).1 = some evs → evs.length ≤ 1024

/-- `socket()` never runs out of descriptors. -/
def World.SocketsSucceed {ω F : Type} (w : World ω F) : Prop :=
  ∀ k p o, (w.socket k p o).1 ≠ none

def Call.enablesReconnect {F : Type} : Call F → Bool
  | .onSm _ (.setReconnect true) => true
  | _ => false

/-- No callback calls `set_reconnect(true)`. -/
def World.NeverReconnects {ω F : Type} (w : World ω F) : Prop :=
  ∀ cb o, ∀ c ∈ (w.callback cb o).1.2, c.enablesReconnect = false

end Nodescan
