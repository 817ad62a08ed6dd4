import Nodescan.FaultState
import Nodescan.Environment

/-!
# The asynchronous engine

The two maps, the counters and the functions of `AsyncEngine`, run against a kernel and a world.
`log` is not in the source: it lists, the latest first, what the engine did that later statements
speak about. `_avail_socks` is a `uint32_t`, so the two places that can carry it out of range
reduce it; the loops of the source that may not end count down a fuel.
-/

namespace Nodescan

inductive Event (F : Type)
  | launched (t : Target)
  | connect (s : Fd) (t : Target) (err : ℤ)
  | socketFinished (s : Fd)
  | reconnected (s s' : Fd)
  | added (k : ℕ)
  | onAliveSet (ip : UInt32) (a : ℕ)
  | freeSocks
  | called (cb : Callback F)
  | returned (cb : Callback F) (goesOn : Bool) (calls : List (Call F))
  | hostFinished (t : Target) (hsm : HostSM) (complete : Bool)
  deriving DecidableEq, Repr

structure Engine (ω F : Type) where
  hostsSms : Std.ExtTreeMap UInt32 HostSM
  lvl4Sms : Std.ExtTreeMap Fd (Lvl4SM F)
  socketsTargets : Std.ExtTreeMap Fd Target
  availSocks : ℕ
  nlaunched : ℕ
  ndone : ℕ
  lastTimeStatusDisplay : ℤ
  kernel : Kernel
  world : ω
  log : List (Event F)
  fds_nonneg : ∀ s ∈ socketsTargets, 0 ≤ s

structure Config (F : Type) where
  nsockets : UInt32
  timeout : ℕ
  watchTimeout : ℕ
  timeoutStatusDisplay : ℕ
  callbackLvl4Connected : Option F
  hasFinish : Bool
  hasWatchTimeout : Bool
  hasTimeoutTarget : Bool
  hasStatus : Bool

namespace Engine

variable {ω F : Type}

/-- `AsyncEngine::AsyncEngine`. -/
def init (cfg : Config F) (o : ω) : Engine ω F where
  hostsSms := ∅
  lvl4Sms := ∅
  socketsTargets := ∅
  availSocks := cfg.nsockets.toNat
  nlaunched := 0
  ndone := 0
  lastTimeStatusDisplay := 0
  kernel := .empty
  world := o
  log := []
  fds_nonneg := by simp

def ensureAvailableSockets (e : Engine ω F) (n : ℕ) : Engine ω F :=
  if e.availSocks < n then
    { e with
      availSocks := (e.availSocks + (n - e.availSocks)) % 2 ^ 32
      log := .added (n - e.availSocks) :: e.log }
  else e

/-- `set_on_alive` on the state of a host that is there. -/
def setOnAlive (ip : UInt32) (a : ℕ) (e : Engine ω F) : Engine ω F :=
  if ip ∈ e.hostsSms then
    { e with
      hostsSms := e.hostsSms.modify ip (·.setOnAlive a)
      log := .onAliveSet ip a :: e.log }
  else e

def modifySm (s : Fd) (f : Lvl4SM F → Lvl4SM F) (e : Engine ω F) : Engine ω F :=
  { e with lvl4Sms := e.lvl4Sms.modify s f }

def call (e : Engine ω F) : Call F → Engine ω F
  | .onSm s c => e.modifySm s (·.call c)
  | .ensureAvailableSockets n => e.ensureAvailableSockets n
  | .setOnAlive ip a => e.setOnAlive ip a

def callAll (e : Engine ω F) (cs : List (Call F)) : Engine ω F := cs.foldl call e

def addConnectingSocket (s : Fd) (e : Engine ω F) : Engine ω F :=
  { e with kernel := e.kernel.epollAdd s .epollout }

def addConnectedSocket (s : Fd) (e : Engine ω F) : Engine ω F :=
  { e with kernel := e.kernel.epollAdd s .epollin }

def removeConnectingSocket (s : Fd) (e : Engine ω F) : Engine ω F :=
  { e with kernel := e.kernel.epollDel s }

def removeConnectedSocket (s : Fd) (e : Engine ω F) : Engine ω F :=
  { e with kernel := e.kernel.epollDel s }

/-- `close(s)` and `_avail_socks++`. -/
def closeSocket (s : Fd) (e : Engine ω F) : Engine ω F :=
  { e with kernel := e.kernel.close s, availSocks := (e.availSocks + 1) % 2 ^ 32 }

def freeSocket (s : Fd) (e : Engine ω F) : Engine ω F :=
  let e₁ := ((e.removeConnectingSocket s).removeConnectedSocket s).closeSocket s
  { e₁ with
    lvl4Sms := e₁.lvl4Sms.erase s
    socketsTargets := e₁.socketsTargets.erase s
    fds_nonneg := fun a ha => e₁.fds_nonneg a (Std.ExtTreeMap.mem_of_mem_erase ha) }

/-- `_sockets_targets.insert`: an entry that is there stays as it is. -/
def insertTarget (n : ℕ) (t : Target) (e : Engine ω F) : Engine ω F :=
  { e with
    socketsTargets := e.socketsTargets.insertIfNew (n : Fd) t
    fds_nonneg := by
      intro a ha
      rcases (TreeMaps.mem_insertIfNew _ _ _ _).mp ha with rfl | hmem
      · exact Int.natCast_nonneg n
      · exact e.fds_nonneg a hmem }

def countLaunch (t : Target) (e : Engine ω F) : Engine ω F :=
  { e with nlaunched := e.nlaunched + 1, log := .launched t :: e.log }

def countFinish (s : Fd) (e : Engine ω F) : Engine ω F :=
  { e with ndone := e.ndone + 1, log := .socketFinished s :: e.log }

end Engine

abbrev EngineM (ω F : Type) := FaultM Fault (Engine ω F)

variable {ω F : Type} (w : World ω F) (cfg : Config F)

namespace EngineM

def ask {α : Type} (f : ω → α × ω) : EngineM ω F α :=
  modifyGet fun e => ((f e.world).1, { e with world := (f e.world).2 })

def note (ev : Event F) : EngineM ω F Unit := modify fun e => { e with log := ev :: e.log }

/-- Call a user callback: its answer, after the calls it made. -/
def callback (cb : Callback F) : EngineM ω F cb.Answer := do
  note (.called cb)
  let r ← ask (w.callback cb)
  note (.returned cb (cb.goesOn r.1) r.2)
  modify (·.callAll r.2)
  pure r.1

/-- `target_from_socket`, with its `assert`. -/
def targetFromSocket (s : Fd) : EngineM ω F Target := do
  let e ← get
  match e.socketsTargets[s]? with
  | some t => pure t
  | none => throw (.targetFromSocket s)

/-- `new_lvl4_sm`: an entry that is there stays as it is. -/
def newLvl4Sm (s : Fd) : EngineM ω F Unit := do
  let now ← ask w.timestamp
  modify fun e => { e with lvl4Sms := e.lvl4Sms.insertIfNew s (.new now) }

/-- `_lvl4_sms[s]`, which makes an entry where there is none. -/
def lvl4Sm (s : Fd) : EngineM ω F (Lvl4SM F) := do
  let e ← get
  match e.lvl4Sms[s]? with
  | some sm => pure sm
  | none =>
    let now ← ask w.timestamp
    modify fun e => { e with lvl4Sms := e.lvl4Sms.insert s (.new now) }
    pure (.new now)

def hostSm (ip : UInt32) : EngineM ω F HostSM := do
  let e ← get
  match e.hostsSms[ip]? with
  | some hsm => pure hsm
  | none =>
    modify fun e => { e with hostsSms := e.hostsSms.insert ip .new }
    pure .new

def setHostSm (ip : UInt32) (hsm : HostSM) : EngineM ω F Unit :=
  modify fun e => { e with hostsSms := e.hostsSms.insert ip hsm }

def delHostSm (ip : UInt32) : EngineM ω F Unit :=
  modify fun e => { e with hostsSms := e.hostsSms.erase ip }

def updateTs (s : Fd) : EngineM ω F Unit := do
  let now ← ask w.timestamp
  modify (·.modifySm s ({ · with ts := now }))

def callbackFinish (t : Target) (buf : List UInt8) (err : ℤ) : EngineM ω F Unit :=
  if cfg.hasFinish then callback w (.finish t buf err) else pure ()

/-- The end of a target for its host: `target_finished`, and `del_host_sm` if it says so. -/
def hostFinished (t : Target) : EngineM ω F Unit := do
  let hsm ← hostSm t.ipv4
  let r ← ask (w.targetFinished t hsm)
  note (.hostFinished t hsm r.1)
  setHostSm t.ipv4 r.2
  if r.1 then delHostSm t.ipv4 else pure ()

def socketFinished (s : Fd) (err : ℤ) : EngineM ω F Unit := do
  modify (·.countFinish s)
  let t ← targetFromSocket s
  let sm ← lvl4Sm w s
  callbackFinish w cfg t sm.buf err
  modify (·.modifySm s Lvl4SM.freeBuffer)
  hostFinished w t
  modify (·.freeSocket s)

/-- `connect` and the registration that follows it in `create_socket`. -/
def register (n : ℕ) (t : Target) : EngineM ω F ℤ := do
  modify fun e => { e with availSocks := e.availSocks - 1, kernel := e.kernel.openSocket n }
  let e ← get
  let err ← ask (w.connect e.kernel n t)
  modify fun e => { e with kernel := e.kernel.connected n t, log := .connect n t err :: e.log }
  newLvl4Sm w n
  modify (·.modifySm n ({ · with valid := true, funcConnect := cfg.callbackLvl4Connected }))
  updateTs w n
  modify (·.insertTarget n t)
  pure err

/-- `create_socket`: the descriptor, and the `errno` of the call that failed or 0. After a failed
`socket()` the two `fcntl` calls leave `EBADF`. -/
def createSocket (t : Target) : EngineM ω F (Fd × ℤ) := do
  let e ← get
  if e.availSocks = 0 then throw .availSocks
  else
    match ← ask (w.socket e.kernel t.port.protocol) with
    | none => pure (-1, EBADF)
    | some n =>
      let err ← register w cfg n t
      pure (n, err)

def reconnect (s : Fd) (t : Target) : EngineM ω F Unit := do
  let sm ← lvl4Sm w s
  modify fun e => (e.removeConnectedSocket s).closeSocket s
  let r ← createSocket w cfg t
  note (.reconnected s r.1)
  let _ ← lvl4Sm w r.1
  modify (·.modifySm r.1 (·.setOnConnect sm.funcConnect))
  modify (·.addConnectingSocket r.1)

/-- `Lvl4SM::on_connect`: a machine without an action answers false. -/
def onConnect (s : Fd) (t : Target) : EngineM ω F Bool := do
  let sm ← lvl4Sm w s
  match sm.funcConnect with
  | none => pure false
  | some f => callback w (.connected f ⟨t, s⟩)

def processConnectingReady (s : Fd) : EngineM ω F Unit := do
  let e ← get
  let err ← ask (w.soError e.kernel s)
  if err ≠ 0 then socketFinished w cfg s err
  else
    let t ← targetFromSocket s
    let _ ← hostSm t.ipv4
    if ← onConnect w s t then
      modify fun e => (e.removeConnectingSocket s).addConnectedSocket s
      updateTs w s
    else socketFinished w cfg s 0

/-- The calls a callback made on the machine of `s`. -/
def ownCalls (s : Fd) (cs : List (Call F)) : List (SmCall F) :=
  cs.filterMap fun
    | .onSm s' c => if s' = s then some c else none
    | _ => none

def otherCalls (s : Fd) (cs : List (Call F)) : List (Call F) :=
  cs.filter fun
    | .onSm s' _ => s' ≠ s
    | _ => true

/-- The callback of a trigger, called while the machine of its socket is worked on: the calls on
that machine go to it, the others to the engine. -/
def called (s : Fd) (cb : Callback F) (e : Engine ω F) :
    (cb.Answer × List (SmCall F)) × Engine ω F :=
  let r := w.callback cb e.world
  ((r.1.1, ownCalls s r.1.2),
    { e with
      world := r.2
      log := .returned cb (cb.goesOn r.1.1) r.1.2 :: .called cb :: e.log }.callAll
        (otherCalls s r.1.2))

def actions : Actions F (Engine ω F) where
  data f ct chunk e :=
    let r := called w ct.s (.data f ct chunk) e
    (⟨r.1.1.1, r.1.1.2, r.1.2⟩, r.2)
  python obj ct buf prevPos e :=
    let r := called w ct.s (.python obj ct buf prevPos) e
    (⟨r.1.1.1, r.1.1.2, r.1.2⟩, r.2)

/-- Work on the machine of `s` and put it back. -/
def onLvl4Sm (s : Fd)
    (f : Lvl4SM F → Engine ω F → Except Fault (Bool × Lvl4SM F × Engine ω F)) :
    EngineM ω F Bool := do
  let e ← get
  match e.lvl4Sms[s]? with
  | none => throw (.danglingSm s)
  | some sm =>
    match f sm e with
    | .error fault => throw fault
    | .ok (ret, sm', e') =>
      set { e' with lvl4Sms := e'.lvl4Sms.insert s sm' }
      pure ret

def processConnectedReady (fuel : ℕ) (s : Fd) (t : Target) : EngineM ω F Unit := do
  let e ← get
  let navail ← ask (w.bytesAvail e.kernel s)
  let sm ← lvl4Sm w s
  if navail = 0 then
    if sm.reconnect then
      callbackFinish w cfg t sm.buf Errors.willReconnect.code
      modify (·.modifySm s Lvl4SM.freeBuffer)
      reconnect w cfg s t
    else socketFinished w cfg s ECONNRESET
  else
    let _ ← hostSm t.ipv4
    let r ← ask (w.read s navail)
    let ret ← onLvl4Sm s (fun sm e => sm.processLvl4Data (actions w) ⟨t, s⟩ fuel navail r e)
    updateTs w s
    if ret then pure () else socketFinished w cfg s 0

inductive LaunchResult
  | started (s : Fd) (t : Target)
  | noTarget
  | wouldBlock
  deriving DecidableEq

/-- The `while (true)` of `process_free_socks`: targets are taken until one can be connected. -/
def launchLoop : ℕ → EngineM ω F LaunchResult
  | 0 => throw .outOfFuel
  | fuel + 1 => do
    match ← ask w.nextTarget with
    | .wouldBlock => pure .wouldBlock
    | .target t =>
      if t.isEnd then pure .noTarget
      else
        modify (·.countLaunch t)
        let r ← createSocket w cfg t
        if r.2 = 0 ∨ r.2 = EINPROGRESS then pure (.started r.1 t)
        else
          socketFinished w cfg r.1 r.2
          launchLoop fuel

/-- The end of a round of the `for`, for the socket it started. -/
def addStarted (s : Fd) (t : Target) : EngineM ω F Unit := do
  let hsm ← hostSm t.ipv4
  let hsm' ← ask (w.initHostSm t hsm)
  setHostSm t.ipv4 hsm'
  modify (·.addConnectingSocket s)

/-- The rounds of the `for`; false when the targets have come to their end. -/
def freeSocksLoop (fuel : ℕ) : ℕ → EngineM ω F Bool
  | 0 => pure true
  | n + 1 => do
    match ← launchLoop w cfg fuel with
    | .noTarget => pure false
    | .wouldBlock => pure true
    | .started s t =>
      addStarted w s t
      freeSocksLoop fuel n

def processFreeSocks (fuel : ℕ) : EngineM ω F Bool := do
  note .freeSocks
  let e ← get
  freeSocksLoop w cfg fuel e.availSocks

def processEvent (fuel : ℕ) (ev : EpollEvent) : EngineM ω F Unit :=
  if ev.epollout then do
    let _ ← lvl4Sm w ev.fd
    processConnectingReady w cfg ev.fd
  else if ev.epollin then do
    let t ← targetFromSocket ev.fd
    let _ ← lvl4Sm w ev.fd
    processConnectedReady w cfg fuel ev.fd t
  else pure ()

def processEvents (fuel : ℕ) : EngineM ω F ℤ := do
  let e ← get
  match ← ask (w.epollWait e.kernel) with
  | none => pure (-1)
  | some evs =>
    evs.forM (processEvent w cfg fuel)
    pure evs.length

/-- `timeout_of_target(Target::from_socket(s))`. -/
def timeoutOfTarget (s : Fd) : EngineM ω F ℕ := do
  let e ← get
  let peer ← ask (w.getpeername e.kernel s)
  if cfg.hasTimeoutTarget then callback w (.timeoutOfTarget peer) else pure cfg.timeout

def hasWatchTimedout (ts : ℤ) (s : Fd) (watchTs : ℤ) : EngineM ω F Bool :=
  if !cfg.hasWatchTimeout || cfg.watchTimeout = 0 then pure false
  else if ts - watchTs ≥ cfg.watchTimeout then do
    let e ← get
    let peer ← ask (w.getpeername e.kernel s)
    let goOn : Bool ← callback w (.watchTimeout ⟨peer, s⟩)
    if goOn then
      modify (·.modifySm s ({ · with watchTs := ts }))
      pure false
    else pure true
  else pure false

def hasTimedout (ts : ℤ) (s : Fd) (sm : Lvl4SM F) : EngineM ω F Bool := do
  let timeoutTarget ← timeoutOfTarget w cfg s
  if ts - sm.ts ≥ timeoutTarget then pure true
  else hasWatchTimedout w cfg ts s sm.watchTs

/-- The work lists of `process_dirty_and_timeouts`. -/
structure WorkLists where
  toProcess : List Fd
  timeouted : List Fd
  nValid : ℕ
  deriving DecidableEq, Repr

def WorkLists.add (l : WorkLists) (s : Fd) (dirty out : Bool) : WorkLists where
  toProcess := if dirty then l.toProcess ++ [s] else l.toProcess
  timeouted := if out then l.timeouted ++ [s] else l.timeouted
  nValid := if out then l.nValid else l.nValid + 1

/-- The round of the first loop for the machine of `s`. -/
def inspect (ts : ℤ) (s : Fd) (l : WorkLists) : EngineM ω F WorkLists := do
  let e ← get
  match e.lvl4Sms[s]? with
  | none => pure l
  | some sm =>
    if sm.valid then
      modify (·.modifySm s fun sm => sm.shouldProcessBuffer.2)
      let out ← hasTimedout w cfg ts s sm
      pure (l.add s sm.shouldProcessBuffer.1 out)
    else pure l

def inspectAll (ts : ℤ) : List Fd → WorkLists → EngineM ω F WorkLists
  | [], l => pure l
  | s :: ss, l => do
    let l' ← inspect w cfg ts s l
    inspectAll ts ss l'

/-- The second loop; the sockets it finished. -/
def reprocess (fuel : ℕ) : List Fd → EngineM ω F (List Fd)
  | [] => pure []
  | s :: ss => do
    let t ← targetFromSocket s
    let _ ← hostSm t.ipv4
    if ← onLvl4Sm s (fun sm e => sm.processBuffer (actions w) ⟨t, s⟩ fuel e) then
      reprocess fuel ss
    else
      socketFinished w cfg s 0
      let ended ← reprocess fuel ss
      pure (s :: ended)

/-- The first loop over every machine. -/
def workLists : EngineM ω F WorkLists := do
  let ts ← ask w.timestamp
  let e ← get
  inspectAll w cfg ts e.lvl4Sms.keys ⟨[], [], 0⟩

def finishTimeouted (timeouted : List Fd) : EngineM ω F Unit :=
  timeouted.forM (fun s => socketFinished w cfg s Errors.nsTimeout.code)

def processDirtyAndTimeouts (fuel : ℕ) : EngineM ω F ℕ := do
  let l ← workLists w cfg
  let _ ← reprocess w cfg fuel l.toProcess
  finishTimeouted w cfg l.timeouted
  pure l.nValid

def shouldCallStatusDisplay : EngineM ω F Bool :=
  if !cfg.hasStatus || cfg.timeoutStatusDisplay = 0 then pure false
  else do
    let now ← ask w.timestamp
    let e ← get
    if now - e.lastTimeStatusDisplay ≥ cfg.timeoutStatusDisplay then
      modify fun e => { e with lastTimeStatusDisplay := now }
      pure true
    else pure false

/-- The status callback takes `uint32_t` arguments. -/
def displayStatus : EngineM ω F Unit := do
  if ← shouldCallStatusDisplay w cfg then
    let e ← get
    callback w (.status (e.nlaunched % 2 ^ 32) (e.ndone % 2 ^ 32))

/-- A round of `do_async_scan`; true when it takes the `break`. -/
def scanPass (fuel : ℕ) : EngineM ω F Bool := do
  let nfds ← processEvents w cfg fuel
  let nLvl4SmsValid ← processDirtyAndTimeouts w cfg fuel
  let moreTargets ← processFreeSocks w cfg fuel
  if nfds = 0 ∧ nLvl4SmsValid = 0 ∧ moreTargets = false then pure true
  else
    displayStatus w cfg
    modify fun e => { e with world := w.saveState e.world }
    pure false

/-- At most `n` rounds; whether the `break` was taken. -/
def scanLoop (fuel : ℕ) : ℕ → EngineM ω F Bool
  | 0 => pure false
  | n + 1 => do
    if ← scanPass w cfg fuel then pure true else scanLoop fuel n

def doAsyncScan (fuel n : ℕ) : EngineM ω F Bool := do
  modify fun e => { e with
    kernel := e.kernel.epollCreate, nlaunched := 0, ndone := 0, lastTimeStatusDisplay := 0 }
  let _ ← processFreeSocks w cfg fuel
  scanLoop w cfg fuel n

def launch (fuel n : ℕ) : EngineM ω F Bool := do
  modify fun e => { e with world := w.initTargets e.world }
  doAsyncScan w cfg fuel n

end EngineM
end Nodescan
