import Nodescan.Environment

/-!
# The target set of a list of addresses and a list of ports

The generators of an `IPV4TargetSet` belong to the leeloo library, which is not part of the
repository: they are parameters, with the behaviour the target set relies on as laws. The laws are
stated over what a generator still has to give. A generator of addresses numbers its steps and
promises to give again, after a restore, every step that was not marked done; a generator of ports
resumes where it was. `ρ` is the state of the source of random numbers.
-/

namespace Nodescan

/-- `leeloo::list_intervals_random_promise` over the addresses. -/
structure PromiseGenerator (γ ρ : Type) where
  init : List UInt32 → ρ → γ × ρ
  next : γ → γ
  isEnd : γ → Bool
  getCurrent : List UInt32 → γ → UInt32
  getCurrentStep : γ → ℕ
  stepDone : ℕ → γ → γ
  restore : List UInt32 → γ → ρ → γ × ρ
  /-- The permutation being enumerated: the address of each step. -/
  order : γ → List UInt32
  todo : γ → List ℕ
  done : γ → Finset ℕ
  init_order : ∀ ips r, (order (init ips r).1).Perm ips
  init_todo : ∀ ips r, todo (init ips r).1 = List.range ips.length
  init_done : ∀ ips r, done (init ips r).1 = ∅
  next_order : ∀ g, order (next g) = order g
  next_todo : ∀ g, todo (next g) = (todo g).tail
  next_done : ∀ g, done (next g) = done g
  isEnd_iff : ∀ g, isEnd g = true ↔ todo g = []
  getCurrent_eq : ∀ {ips g k l}, (order g).Perm ips → todo g = k :: l →
    (order g)[k]? = some (getCurrent ips g)
  getCurrentStep_eq : ∀ {g k l}, todo g = k :: l → getCurrentStep g = k
  stepDone_order : ∀ k g, order (stepDone k g) = order g
  stepDone_todo : ∀ k g, todo (stepDone k g) = todo g
  stepDone_done : ∀ k g, done (stepDone k g) = insert k (done g)
  restore_order : ∀ ips g r, order (restore ips g r).1 = order g
  restore_done : ∀ ips g r, done (restore ips g r).1 = done g
  restore_nodup : ∀ ips g r, (todo (restore ips g r).1).Nodup
  mem_restore_todo : ∀ {ips g r k}, k ∈ todo (restore ips g r).1 ↔
    k < (order g).length ∧ k ∉ done g

/-- `leeloo::list_intervals_random` over the ports. -/
structure PortGenerator (δ ρ : Type) where
  init : List Port → ρ → δ × ρ
  draw : List Port → δ → Port × δ
  isEnd : δ → Bool
  sizeOriginal : δ → ℕ
  restore : List Port → δ → ρ → δ × ρ
  rest : δ → List Port
  init_rest : ∀ ps r, (rest (init ps r).1).Perm ps
  init_size : ∀ ps r, sizeOriginal (init ps r).1 = ps.length
  draw_eq : ∀ {ps d p l}, rest d = p :: l → (draw ps d).1 = p ∧ rest (draw ps d).2 = l
  draw_size : ∀ ps d, sizeOriginal (draw ps d).2 = sizeOriginal d
  isEnd_iff : ∀ d, isEnd d = true ↔ rest d = []
  restore_rest : ∀ ps d r, rest (restore ps d r).1 = rest d
  restore_size : ∀ ps d r, sizeOriginal (restore ps d r).1 = sizeOriginal d

/-- The library, as far as the target sets use it. `portsSize` is `size()` of the list of ports a
`HostSM` has collected by `port_done`, which counts a port again unless the list was aggregated. -/
structure Leeloo (γ δ ρ : Type) where
  v4 : PromiseGenerator γ ρ
  port : PortGenerator δ ρ
  portsSize : List Port → ℕ
  portsSize_nodup : ∀ {l}, l.Nodup → portsSize l = l.length
  portsSize_le : ∀ l, portsSize l ≤ l.length

structure InOrder where
  ips : List UInt32
  steps : List ℕ
  finished : Finset ℕ
  steps_lt : ∀ k ∈ steps, k < ips.length

def PromiseGenerator.inOrder : PromiseGenerator InOrder Unit where
  init ips r := (⟨ips, List.range ips.length, ∅, by simp⟩, r)
  next g := { g with
    steps := g.steps.tail
    steps_lt := fun k hk => g.steps_lt k (List.mem_of_mem_tail hk) }
  isEnd g := g.steps.isEmpty
  getCurrent _ g := g.ips.getD (g.steps.headD 0) 0
  getCurrentStep g := g.steps.headD 0
  stepDone k g := { g with finished := insert k g.finished }
  restore _ g r := ({ g with
    steps := (List.range g.ips.length).filter (· ∉ g.finished)
    steps_lt := fun k hk => List.mem_range.mp (List.mem_of_mem_filter hk) }, r)
  order g := g.ips
  todo g := g.steps
  done g := g.finished
  init_order := by simp
  init_todo := by simp
  init_done := by simp
  next_order := by simp
  next_todo := by simp
  next_done := by simp
  isEnd_iff := by simp
  getCurrent_eq := by
    intro ips g k l _ htodo
    have hk : k < g.ips.length := g.steps_lt k (by simp [htodo])
    simp [htodo, hk]
  getCurrentStep_eq := by
    intro g k l htodo
    simp [htodo]
  stepDone_order := by simp
  stepDone_todo := by simp
  stepDone_done := by simp
  restore_order := by simp
  restore_done := by simp
  restore_nodup := fun _ _ _ => List.nodup_range.filter _
  mem_restore_todo := by simp

def PortGenerator.inOrder : PortGenerator (List Port × ℕ) Unit where
  init ps r := ((ps, ps.length), r)
  draw _ d := (d.1.headD ⟨0, .unsupported⟩, (d.1.tail, d.2))
  isEnd d := d.1.isEmpty
  sizeOriginal d := d.2
  restore _ d r := (d, r)
  rest d := d.1
  init_rest := by simp
  init_size := by simp
  draw_eq := by
    intro _ d p l h
    simp [h]
  draw_size := by simp
  isEnd_iff := by simp
  restore_rest := by simp
  restore_size := by simp

def Leeloo.inOrder : Leeloo InOrder (List Port × ℕ) Unit where
  v4 := .inOrder
  port := .inOrder
  portsSize := List.length
  portsSize_nodup := fun _ => rfl
  portsSize_le := fun _ => le_refl _

structure IPV4TargetSet (γ δ ρ : Type) where
  ipv4s : List UInt32
  ports : List Port
  randV4 : γ
  randPort : δ
  mtRandIps : ρ
  mtRandPorts : ρ

namespace IPV4TargetSet

variable {γ δ ρ : Type} (lib : Leeloo γ δ ρ)

def init (ts : IPV4TargetSet γ δ ρ) : IPV4TargetSet γ δ ρ :=
  let v4 := lib.v4.init ts.ipv4s ts.mtRandIps
  let port := lib.port.init ts.ports ts.mtRandPorts
  { ts with randV4 := v4.1, mtRandIps := v4.2, randPort := port.1, mtRandPorts := port.2 }

/-- The step to the next address at the start of `next_target`, once the ports have come to their
end. -/
def advance (ts : IPV4TargetSet γ δ ρ) : IPV4TargetSet γ δ ρ :=
  if lib.port.isEnd ts.randPort then
    let port := lib.port.init ts.ports ts.mtRandPorts
    { ts with randV4 := lib.v4.next ts.randV4, randPort := port.1, mtRandPorts := port.2 }
  else ts

def nextTarget (ts : IPV4TargetSet γ δ ρ) : Target × IPV4TargetSet γ δ ρ :=
  let ts := ts.advance lib
  if lib.v4.isEnd ts.randV4 then (.endMark, ts)
  else
    let port := lib.port.draw ts.ports ts.randPort
    (⟨lib.v4.getCurrent ts.ipv4s ts.randV4, port.1⟩, { ts with randPort := port.2 })

def portsCount (ts : IPV4TargetSet γ δ ρ) : ℕ := lib.port.sizeOriginal ts.randPort

/-- `target_finished`. `stray` is what an index that was never set holds. -/
def targetFinished (stray : ℕ) (t : Target) (hsm : HostSM) (ts : IPV4TargetSet γ δ ρ) :
    (Bool × HostSM) × IPV4TargetSet γ δ ρ :=
  let hsm := hsm.portDone t.port
  if lib.portsSize hsm.portsDone = ts.portsCount lib then
    ((true, hsm), { ts with randV4 := lib.v4.stepDone (hsm.randIdxIp.getD stray) ts.randV4 })
  else ((false, hsm), ts)

variable {lib} in
theorem targetFinished_fst (stray : ℕ) (t : Target) (hsm : HostSM) (ts : IPV4TargetSet γ δ ρ) :
    (ts.targetFinished lib stray t hsm).1 =
      (decide (lib.portsSize (hsm.portDone t.port).portsDone = ts.portsCount lib),
        hsm.portDone t.port) := by
  dsimp only [targetFinished]
  split_ifs with h
  · rw [decide_eq_true h]
  · rw [decide_eq_false h]

def initHostSm (hsm : HostSM) (ts : IPV4TargetSet γ δ ρ) : HostSM :=
  { hsm with randIdxIp := some (lib.v4.getCurrentStep ts.randV4) }

/-- `restore_state` of what `save_state` wrote, into a set with its own sources of random numbers. -/
def restoreState (saved : IPV4TargetSet γ δ ρ) (mtRandIps mtRandPorts : ρ) :
    IPV4TargetSet γ δ ρ :=
  let v4 := lib.v4.restore saved.ipv4s saved.randV4 mtRandIps
  let port := lib.port.restore saved.ports saved.randPort mtRandPorts
  { saved with randV4 := v4.1, mtRandIps := v4.2, randPort := port.1, mtRandPorts := port.2 }

end IPV4TargetSet

/-- `RepeatableTargetSet<IPV4TargetSet>::next_target`. -/
def repeatableNextTarget {γ δ ρ : Type} (lib : Leeloo γ δ ρ) (ts : IPV4TargetSet γ δ ρ) :
    Target × IPV4TargetSet γ δ ρ :=
  let r := ts.nextTarget lib
  if r.1.isEnd then (r.2.init lib).nextTarget lib else r

/-- The targets in the order of the `std::set`, and those from the iterator on. -/
structure SimpleTargetSet where
  targets : List Target
  it : List Target

namespace SimpleTargetSet

def init (ts : SimpleTargetSet) : SimpleTargetSet := { ts with it := ts.targets }

def nextTarget (ts : SimpleTargetSet) : Target × SimpleTargetSet :=
  match ts.it with
  | [] => (.endMark, ts)
  | t :: rest => (t, { ts with it := rest })

/-- `target_finished`, also that of `TargetAsyncFile`: the host's state can always go. -/
def targetFinished (_t : Target) (hsm : HostSM) : Bool × HostSM := (true, hsm)

end SimpleTargetSet

/-- The functions of a `TargetSet` that the engine calls, for a set with states in `σ`. -/
structure TargetSet (σ : Type) where
  init : σ → σ
  nextTarget : σ → NextTarget × σ
  targetFinished : Target → HostSM → σ → (Bool × HostSM) × σ
  initHostSm : Target → HostSM → σ → HostSM × σ

variable {ω F σ γ δ ρ : Type}

def IPV4TargetSet.targetSet (lib : Leeloo γ δ ρ) (stray : ℕ) :
    TargetSet (IPV4TargetSet γ δ ρ) where
  init ts := ts.init lib
  nextTarget ts := (.target (ts.nextTarget lib).1, (ts.nextTarget lib).2)
  targetFinished t hsm ts := ts.targetFinished lib stray t hsm
  initHostSm _ hsm ts := (ts.initHostSm lib hsm, ts)

def SimpleTargetSet.targetSet : TargetSet SimpleTargetSet where
  init := SimpleTargetSet.init
  nextTarget ts := (.target ts.nextTarget.1, ts.nextTarget.2)
  targetFinished t hsm ts := (SimpleTargetSet.targetFinished t hsm, ts)
  initHostSm _ hsm ts := (hsm, ts)

/-- `RepeatableTargetSet`. -/
def TargetSet.repeatable (ts : TargetSet σ) : TargetSet σ :=
  { ts with
    nextTarget := fun x =>
      match ts.nextTarget x with
      | (.target t, x') => if t.isEnd then ts.nextTarget (ts.init x') else (.target t, x')
      | (.wouldBlock, x') => (.wouldBlock, x') }

/-- `ReinjectableTargetSet`, with the queue of the added targets. -/
def TargetSet.reinjectable (ts : TargetSet σ) : TargetSet (List Target × σ) where
  init x := (x.1, ts.init x.2)
  nextTarget x :=
    match x.1 with
    | t :: queue => (.target t, (queue, x.2))
    | [] => ((ts.nextTarget x.2).1, ([], (ts.nextTarget x.2).2))
  targetFinished t hsm x :=
    ((ts.targetFinished t hsm x.2).1, (x.1, (ts.targetFinished t hsm x.2).2))
  initHostSm t hsm x := ((ts.initHostSm t hsm x.2).1, (x.1, (ts.initHostSm t hsm x.2).2))

def World.withTargets (w : World ω F) (ts : TargetSet σ) : World (ω × σ) F where
  socket k p o := ((w.socket k p o.1).1, ((w.socket k p o.1).2, o.2))
  connect k s t o := ((w.connect k s t o.1).1, ((w.connect k s t o.1).2, o.2))
  epollWait k o := ((w.epollWait k o.1).1, ((w.epollWait k o.1).2, o.2))
  soError k s o := ((w.soError k s o.1).1, ((w.soError k s o.1).2, o.2))
  bytesAvail k s o := ((w.bytesAvail k s o.1).1, ((w.bytesAvail k s o.1).2, o.2))
  read s n o := ((w.read s n o.1).1, ((w.read s n o.1).2, o.2))
  getpeername k s o := ((w.getpeername k s o.1).1, ((w.getpeername k s o.1).2, o.2))
  timestamp o := ((w.timestamp o.1).1, ((w.timestamp o.1).2, o.2))
  initTargets o := (o.1, ts.init o.2)
  nextTarget o := ((ts.nextTarget o.2).1, (o.1, (ts.nextTarget o.2).2))
  targetFinished t hsm o :=
    ((ts.targetFinished t hsm o.2).1, (o.1, (ts.targetFinished t hsm o.2).2))
  initHostSm t hsm o := ((ts.initHostSm t hsm o.2).1, (o.1, (ts.initHostSm t hsm o.2).2))
  saveState o := (w.saveState o.1, o.2)
  callback cb o := ((w.callback cb o.1).1, ((w.callback cb o.1).2, o.2))
  socket_fresh := fun h => w.socket_fresh h
  epollWait_registered := fun h => w.epollWait_registered h
  epollWait_nodup := fun h => w.epollWait_nodup h
  epollWait_length := fun h => w.epollWait_length h

/-- The same, where the callbacks change the set by its public functions. -/
def World.changing (w : World ω F) (ts : TargetSet σ) (change : Callback F → ω → σ → σ) :
    World (ω × σ) F :=
  { w.withTargets ts with
    callback := fun cb o => ((w.callback cb o.1).1, ((w.callback cb o.1).2, change cb o.1 o.2)) }

end Nodescan
