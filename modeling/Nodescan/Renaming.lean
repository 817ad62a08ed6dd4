import Nodescan.SocketRegistry

/-!
# Renaming file descriptors

The engine never looks at the number of a descriptor, except for the order in which the dirty pass
visits the machines. If the kernel and the callbacks answer alike up to a renaming of descriptors,
two runs from engines that are alike up to the renaming stay so, function by function.
-/

namespace Nodescan

open FaultM EngineM

variable {ω F : Type}

def ConnectedTarget.rename (π : Equiv.Perm Fd) (ct : ConnectedTarget) : ConnectedTarget :=
  ⟨ct.target, π ct.s⟩

def EpollEvent.rename (π : Equiv.Perm Fd) (ev : EpollEvent) : EpollEvent :=
  { ev with fd := π ev.fd }

def Fault.rename (π : Equiv.Perm Fd) : Fault → Fault
  | .targetFromSocket s => .targetFromSocket (π s)
  | .danglingSm s => .danglingSm (π s)
  | f => f

def Callback.rename (π : Equiv.Perm Fd) : Callback F → Callback F
  | .connected f ct => .connected f (ct.rename π)
  | .data f ct chunk => .data f (ct.rename π) chunk
  | .python obj ct buf prevPos => .python obj (ct.rename π) buf prevPos
  | .finish t buf err => .finish t buf err
  | .watchTimeout ct => .watchTimeout (ct.rename π)
  | .timeoutOfTarget t => .timeoutOfTarget t
  | .status nlaunched ndone => .status nlaunched ndone

/-- The answer to the renamed callback, as one to the callback. -/
def Callback.unrename (π : Equiv.Perm Fd) : (cb : Callback F) → (cb.rename π).Answer → cb.Answer
  | .connected _ _, ans => ans
  | .data _ _ _, ans => ans
  | .python _ _ _ _, ans => ans
  | .finish _ _ _, ans => ans
  | .watchTimeout _, ans => ans
  | .timeoutOfTarget _, ans => ans
  | .status _ _, ans => ans

def Call.rename (π : Equiv.Perm Fd) : Call F → Call F
  | .onSm s c => .onSm (π s) c
  | .ensureAvailableSockets n => .ensureAvailableSockets n
  | .setOnAlive ip a => .setOnAlive ip a

def Event.rename (π : Equiv.Perm Fd) : Event F → Event F
  | .launched t => .launched t
  | .connect s t err => .connect (π s) t err
  | .socketFinished s => .socketFinished (π s)
  | .reconnected s s' => .reconnected (π s) (π s')
  | .added k => .added k
  | .onAliveSet ip a => .onAliveSet ip a
  | .freeSocks => .freeSocks
  | .called cb => .called (cb.rename π)
  | .returned cb goesOn calls => .returned (cb.rename π) goesOn (calls.map (Call.rename π))
  | .hostFinished t hsm complete => .hostFinished t hsm complete

theorem Callback.goesOn_unrename (π : Equiv.Perm Fd) (cb : Callback F)
    (ans : (cb.rename π).Answer) : (cb.rename π).goesOn ans = cb.goesOn (cb.unrename π ans) := by
  cases cb <;> rfl

structure Kernel.Renamed (π : Equiv.Perm Fd) (k k' : Kernel) : Prop where
  socks : TreeMaps.Renamed π k.socks k'.socks
  epoll : TreeMaps.Renamed π k.epoll k'.epoll

namespace Kernel.Renamed

variable {π : Equiv.Perm Fd} {k k' : Kernel}

theorem openSocket (h : k.Renamed π k') (s : Fd) :
    (k.openSocket s).Renamed π (k'.openSocket (π s)) :=
  ⟨h.socks.insert s none, h.epoll⟩

theorem connected (h : k.Renamed π k') (s : Fd) (t : Target) :
    (k.connected s t).Renamed π (k'.connected (π s) t) :=
  ⟨h.socks.insert s (some t), h.epoll⟩

theorem close (h : k.Renamed π k') (s : Fd) : (k.close s).Renamed π (k'.close (π s)) :=
  ⟨h.socks.erase s, h.epoll.erase s⟩

theorem epollDel (h : k.Renamed π k') (s : Fd) : (k.epollDel s).Renamed π (k'.epollDel (π s)) :=
  ⟨h.socks, h.epoll.erase s⟩

theorem epollAdd (h : k.Renamed π k') (s : Fd) (i : Interest) :
    (k.epollAdd s i).Renamed π (k'.epollAdd (π s) i) := by
  unfold Kernel.epollAdd
  by_cases hs : s ∈ k.socks
  · rw [dif_pos hs, dif_pos ((h.socks.mem_iff s).mpr hs)]
    exact ⟨h.socks, h.epoll.insertIfNew s i⟩
  · rw [dif_neg hs, dif_neg (fun hs' => hs ((h.socks.mem_iff s).mp hs'))]
    exact h

end Kernel.Renamed

/-- `w'` answers to everything as `w` does, up to the renaming of descriptors. -/
structure World.Renamed (π : Equiv.Perm Fd) (w w' : World ω F) : Prop where
  noFd : π (-1) = -1
  socket : ∀ {k k' : Kernel}, k.Renamed π k' → ∀ p o,
    (w'.socket k' p o).1.map (fun n : ℕ => (n : Fd)) = (w.socket k p o).1.map (fun n : ℕ => π n) ∧
      (w'.socket k' p o).2 = (w.socket k p o).2
  connect : ∀ {k k' : Kernel}, k.Renamed π k' → ∀ s t o,
    w'.connect k' (π s) t o = w.connect k s t o
  epollWait : ∀ {k k' : Kernel}, k.Renamed π k' → ∀ o, w'.epollWait k' o =
    ((w.epollWait k o).1.map (List.map (EpollEvent.rename π)), (w.epollWait k o).2)
  soError : ∀ {k k' : Kernel}, k.Renamed π k' → ∀ s o, w'.soError k' (π s) o = w.soError k s o
  bytesAvail : ∀ {k k' : Kernel}, k.Renamed π k' → ∀ s o,
    w'.bytesAvail k' (π s) o = w.bytesAvail k s o
  read : ∀ s n o, w'.read (π s) n o = w.read s n o
  getpeername : ∀ {k k' : Kernel}, k.Renamed π k' → ∀ s o,
    w'.getpeername k' (π s) o = w.getpeername k s o
  timestamp : ∀ o, w'.timestamp o = w.timestamp o
  nextTarget : ∀ o, w'.nextTarget o = w.nextTarget o
  targetFinished : ∀ t hsm o, w'.targetFinished t hsm o = w.targetFinished t hsm o
  initHostSm : ∀ t hsm o, w'.initHostSm t hsm o = w.initHostSm t hsm o
  callback : ∀ cb o, cb.unrename π (w'.callback (cb.rename π) o).1.1 = (w.callback cb o).1.1 ∧
    (w'.callback (cb.rename π) o).1.2 = (w.callback cb o).1.2.map (Call.rename π) ∧
      (w'.callback (cb.rename π) o).2 = (w.callback cb o).2

/-- The two engines are alike up to the renaming, and have done alike since their logs were `l` and
`l'`. -/
structure Alike (π : Equiv.Perm Fd) (l l' : List (Event F)) (e e' : Engine ω F) : Prop where
  hosts : e'.hostsSms = e.hostsSms
  machines : TreeMaps.Renamed π e.lvl4Sms e'.lvl4Sms
  targets : TreeMaps.Renamed π e.socketsTargets e'.socketsTargets
  avail : e'.availSocks = e.availSocks
  nlaunched : e'.nlaunched = e.nlaunched
  ndone : e'.ndone = e.ndone
  lastTime : e'.lastTimeStatusDisplay = e.lastTimeStatusDisplay
  kernel : e.kernel.Renamed π e'.kernel
  world : e'.world = e.world
  log : ∃ done, e.log = done ++ l ∧ e'.log = done.map (Event.rename π) ++ l'

namespace Alike

variable {π : Equiv.Perm Fd} {l l' : List (Event F)} {e e' : Engine ω F}

theorem note (h : Alike π l l' e e') (ev : Event F) :
    Alike π l l' { e with log := ev :: e.log } { e' with log := ev.rename π :: e'.log } := by
  refine ⟨h.hosts, h.machines, h.targets, h.avail, h.nlaunched, h.ndone, h.lastTime, h.kernel,
    h.world, ?_⟩
  obtain ⟨done, hl, hl'⟩ := h.log
  refine ⟨ev :: done, ?_, ?_⟩
  · rw [hl]
    rfl
  · rw [hl']
    rfl

theorem modifySm (h : Alike π l l' e e') (s : Fd) (f : Lvl4SM F → Lvl4SM F) :
    Alike π l l' (e.modifySm s f) (e'.modifySm (π s) f) :=
  ⟨h.hosts, h.machines.modify s f, h.targets, h.avail, h.nlaunched, h.ndone, h.lastTime, h.kernel,
    h.world, h.log⟩

theorem withKernel (h : Alike π l l' e e') {k k' : Kernel} (hk : k.Renamed π k') :
    Alike π l l' { e with kernel := k } { e' with kernel := k' } :=
  ⟨h.hosts, h.machines, h.targets, h.avail, h.nlaunched, h.ndone, h.lastTime, hk, h.world, h.log⟩

theorem withWorld (h : Alike π l l' e e') {o o' : ω} (ho : o' = o) :
    Alike π l l' { e with world := o } { e' with world := o' } :=
  ⟨h.hosts, h.machines, h.targets, h.avail, h.nlaunched, h.ndone, h.lastTime, h.kernel, ho, h.log⟩

theorem withHosts (h : Alike π l l' e e') {m m' : Std.ExtTreeMap UInt32 HostSM} (hm : m' = m) :
    Alike π l l' { e with hostsSms := m } { e' with hostsSms := m' } :=
  ⟨hm, h.machines, h.targets, h.avail, h.nlaunched, h.ndone, h.lastTime, h.kernel, h.world, h.log⟩

theorem withMachines (h : Alike π l l' e e') {m m' : Std.ExtTreeMap Fd (Lvl4SM F)}
    (hm : TreeMaps.Renamed π m m') :
    Alike π l l' { e with lvl4Sms := m } { e' with lvl4Sms := m' } :=
  ⟨h.hosts, hm, h.targets, h.avail, h.nlaunched, h.ndone, h.lastTime, h.kernel, h.world, h.log⟩

theorem withAvail (h : Alike π l l' e e') {n n' : ℕ} (hn : n' = n) :
    Alike π l l' { e with availSocks := n } { e' with availSocks := n' } :=
  ⟨h.hosts, h.machines, h.targets, hn, h.nlaunched, h.ndone, h.lastTime, h.kernel, h.world, h.log⟩

theorem withLastTime (h : Alike π l l' e e') (now : ℤ) :
    Alike π l l' { e with lastTimeStatusDisplay := now }
      { e' with lastTimeStatusDisplay := now } :=
  ⟨h.hosts, h.machines, h.targets, h.avail, h.nlaunched, h.ndone, rfl, h.kernel, h.world, h.log⟩

theorem countLaunch (h : Alike π l l' e e') (t : Target) :
    Alike π l l' (e.countLaunch t) (e'.countLaunch t) := by
  have hn := h.note (.launched t)
  exact ⟨hn.hosts, hn.machines, hn.targets, hn.avail, congrArg (· + 1) hn.nlaunched, hn.ndone,
    hn.lastTime, hn.kernel, hn.world, hn.log⟩

theorem countFinish (h : Alike π l l' e e') (s : Fd) :
    Alike π l l' (e.countFinish s) (e'.countFinish (π s)) := by
  have hn := h.note (.socketFinished s)
  exact ⟨hn.hosts, hn.machines, hn.targets, hn.avail, hn.nlaunched, congrArg (· + 1) hn.ndone,
    hn.lastTime, hn.kernel, hn.world, hn.log⟩

theorem closeSocket (h : Alike π l l' e e') (s : Fd) :
    Alike π l l' (e.closeSocket s) (e'.closeSocket (π s)) :=
  (h.withKernel (h.kernel.close s)).withAvail (by rw [h.avail])

theorem freeSocket (h : Alike π l l' e e') (s : Fd) :
    Alike π l l' (e.freeSocket s) (e'.freeSocket (π s)) := by
  have hk := h.withKernel ((h.kernel.epollDel s).epollDel s)
  have hc := hk.closeSocket s
  exact ⟨hc.hosts, hc.machines.erase s, hc.targets.erase s, hc.avail, hc.nlaunched, hc.ndone,
    hc.lastTime, hc.kernel, hc.world, hc.log⟩

theorem insertTarget (h : Alike π l l' e e') {n n' : ℕ} (hn : (n' : Fd) = π n) (t : Target) :
    Alike π l l' (e.insertTarget n t) (e'.insertTarget n' t) := by
  have ht : TreeMaps.Renamed π (e.insertTarget n t).socketsTargets
      (e'.insertTarget n' t).socketsTargets := by
    have hi := h.targets.insertIfNew n t
    rw [← hn] at hi
    exact hi
  exact ⟨h.hosts, h.machines, ht, h.avail, h.nlaunched, h.ndone, h.lastTime, h.kernel, h.world,
    h.log⟩

theorem callAll (h : Alike π l l' e e') (cs : List (Call F)) :
    Alike π l l' (e.callAll cs) (e'.callAll (cs.map (Call.rename π))) := by
  induction cs generalizing e e' with
  | nil => exact h
  | cons c cs ih =>
    apply ih
    cases c with
    | onSm s d => exact h.modifySm s _
    | ensureAvailableSockets n =>
      simp only [Call.rename, Engine.call, Engine.ensureAvailableSockets, h.avail]
      split_ifs
      · exact (h.note (.added (n - e.availSocks))).withAvail rfl
      · exact h
    | setOnAlive ip a =>
      simp only [Call.rename, Engine.call, Engine.setOnAlive, h.hosts]
      split_ifs
      · exact (h.note (.onAliveSet ip a)).withHosts rfl
      · exact h

end Alike

/-- From engines that are alike, `y` ends as `x` does: with values related by `V`, or with the same
fault, and in engines that are alike. -/
def Follows {α α' : Type} (π : Equiv.Perm Fd) (V : α → α' → Prop) (x : EngineM ω F α)
    (y : EngineM ω F α') : Prop :=
  ∀ {l l' e e'}, Alike π l l' e e' →
    Paired (Alike π l l') (fun f f' => f' = f.rename π) V x y e e'

namespace Follows

variable {α α' β β' : Type} {π : Equiv.Perm Fd} {V : α → α' → Prop} {W : β → β' → Prop}
  {x : EngineM ω F α} {y : EngineM ω F α'}

theorem bind {f : α → EngineM ω F β} {g : α' → EngineM ω F β'} (h : Follows π V x y)
    (hf : ∀ a b, V a b → Follows π W (f a) (g b)) : Follows π W (x >>= f) (y >>= g) := by
  intro l l' e e' he
  exact Paired.bind (h he) (fun a b _ _ hV hR => hf a b hV hR)

theorem ret {a : α} {b : α'} (h : V a b) : Follows π V (pure a : EngineM ω F α) (pure b) :=
  fun he => Paired.ret h he

theorem fault {f f' : Fault} (h : f' = f.rename π) :
    Follows π V (throw f : EngineM ω F α) (throw f') :=
  fun he => Paired.fault h he

theorem read {f : Engine ω F → EngineM ω F α} {g : Engine ω F → EngineM ω F α'}
    (h : ∀ {l l' e e'}, Alike π l l' e e' → Follows π V (f e) (g e')) :
    Follows π V (get >>= f) (get >>= g) :=
  fun he => Paired.read (h he he)

theorem update {f g : Engine ω F → Engine ω F}
    (h : ∀ {l l' e e'}, Alike π l l' e e' → Alike π l l' (f e) (g e')) :
    Follows π Eq (modify f : EngineM ω F PUnit) (modify g) :=
  fun he => Paired.update (h he)

/-- For a callback whose answer has no descriptor in it. -/
theorem flip {x y : EngineM ω F α} (h : Follows π (fun a b => b = a) x y) : Follows π Eq x y :=
  fun he => Paired.mono (h he) (fun _ _ hab => hab.symm)

theorem ask {f : ω → α × ω} {g : ω → α' × ω} (hV : ∀ o, V (f o).1 (g o).1)
    (ho : ∀ o, (g o).2 = (f o).2) :
    Follows π V (EngineM.ask f : EngineM ω F α) (EngineM.ask g) := by
  intro l l' e e' he
  apply Paired.updateGet
  · rw [he.world]
    exact hV e.world
  · apply he.withWorld
    rw [he.world]
    exact ho e.world

theorem askEq {f g : ω → α × ω} (h : ∀ o, g o = f o) :
    Follows π Eq (EngineM.ask f : EngineM ω F α) (EngineM.ask g) :=
  ask (fun o => by rw [h]) (fun o => by rw [h])

theorem note (ev : Event F) :
    Follows π Eq (EngineM.note ev : EngineM ω F Unit) (EngineM.note (ev.rename π)) :=
  update (fun he => he.note ev)

theorem modifySm (s : Fd) (f : Lvl4SM F → Lvl4SM F) :
    Follows π Eq (modify (·.modifySm s f) : EngineM ω F PUnit) (modify (·.modifySm (π s) f)) :=
  update (fun he => he.modifySm s f)

end Follows

/-! The trigger of a machine, worked on with two sets of actions. -/

section Trigger

variable {κ κ' γ : Type} {π : Equiv.Perm Fd} {R : κ → κ' → Prop} {acts : Actions F κ}
  {acts' : Actions F κ'} {ct : ConnectedTarget}

/-- The actions answer alike, and keep the two states related. -/
structure Actions.Renamed (π : Equiv.Perm Fd) (R : κ → κ' → Prop) (ct : ConnectedTarget)
    (acts : Actions F κ) (acts' : Actions F κ') : Prop where
  data : ∀ {k k'}, R k k' → ∀ f chunk,
    (acts'.data f (ct.rename π) chunk k').1 = (acts.data f ct chunk k).1 ∧
      R (acts.data f ct chunk k).2 (acts'.data f (ct.rename π) chunk k').2
  python : ∀ {k k'}, R k k' → ∀ obj buf prevPos,
    (acts'.python obj (ct.rename π) buf prevPos k').1 = (acts.python obj ct buf prevPos k).1 ∧
      R (acts.python obj ct buf prevPos k).2 (acts'.python obj (ct.rename π) buf prevPos k').2

/-- The same machine and answer, or the same fault. -/
def Lvl4SM.Matched (π : Equiv.Perm Fd) (R : κ → κ' → Prop) :
    Except Fault (γ × Lvl4SM F × κ) → Except Fault (γ × Lvl4SM F × κ') → Prop
  | .ok (r, sm, k), .ok (r', sm', k') => r' = r ∧ sm' = sm ∧ R k k'
  | .error f, .error f' => f' = f.rename π
  | _, _ => False

namespace Actions.Renamed

theorem fire (h : acts.Renamed π R ct acts') {k : κ} {k' : κ'} (hR : R k k') (f : F)
    (size pop : ℕ) (sm : Lvl4SM F) :
    Lvl4SM.Matched π R (.ok (sm.fire acts ct f size pop k))
      (.ok (sm.fire acts' (ct.rename π) f size pop k')) := by
  obtain ⟨ha, hk⟩ := h.data hR f (sm.buf.take size)
  simp only [Lvl4SM.fire, ha]
  split_ifs
  · exact ⟨rfl, rfl, hk⟩
  · exact ⟨rfl, rfl, hk⟩

theorem processTrigger (h : acts.Renamed π R ct acts') {k : κ} {k' : κ'} (hR : R k k')
    (sm : Lvl4SM F) (prevPos : ℕ) :
    Lvl4SM.Matched π R (sm.processTrigger acts ct prevPos k)
      (sm.processTrigger acts' (ct.rename π) prevPos k') := by
  unfold Lvl4SM.processTrigger
  cases sm.trigger with
  | base => exact ⟨rfl, rfl, hR⟩
  | size n f =>
    simp only [Lvl4SM.processSize]
    split_ifs
    · exact ⟨rfl, rfl, hR⟩
    · cases f with
      | none => exact rfl
      | some f => exact h.fire hR f n n sm
  | char c f =>
    simp only [Lvl4SM.processChar]
    cases findFrom sm.buf prevPos c with
    | none => exact ⟨rfl, rfl, hR⟩
    | some pos =>
      cases f with
      | none => exact rfl
      | some f => exact h.fire hR f pos (pos + 1) sm
  | python obj =>
    obtain ⟨ha, hk⟩ := h.python hR obj sm.buf prevPos
    simp only [Lvl4SM.processPython, ha]
    split_ifs
    · exact rfl
    · exact ⟨rfl, rfl, hk⟩

theorem processLoop (h : acts.Renamed π R ct acts') {k : κ} {k' : κ'} (hR : R k k') (fuel : ℕ)
    (sm : Lvl4SM F) (prevPos : ℕ) :
    Lvl4SM.Matched π R (sm.processLoop acts ct fuel prevPos k)
      (sm.processLoop acts' (ct.rename π) fuel prevPos k') := by
  induction fuel generalizing sm prevPos k k' with
  | zero => exact rfl
  | succ fuel ih =>
    have ht := h.processTrigger hR sm prevPos
    unfold Lvl4SM.processLoop
    rcases hr : sm.processTrigger acts ct prevPos k with f | ⟨c, sm₁, k₁⟩ <;>
      rcases hr' : sm.processTrigger acts' (ct.rename π) prevPos k' with f' | ⟨c', sm₁', k₁'⟩ <;>
      simp only [hr, hr', Lvl4SM.Matched] at ht
    · exact ht
    · obtain ⟨rfl, rfl, hR₁⟩ := ht
      cases c' with
      | canProcessAgain => exact ih hR₁ sm₁' 0
      | noMoreToProcess => exact ⟨rfl, rfl, hR₁⟩
      | connectionEnd => exact ⟨rfl, rfl, hR₁⟩

theorem processLvl4Data (h : acts.Renamed π R ct acts') {k : κ} {k' : κ'} (hR : R k k')
    (fuel navail : ℕ) (r : ReadResult) (sm : Lvl4SM F) :
    Lvl4SM.Matched π R (sm.processLvl4Data acts ct fuel navail r k)
      (sm.processLvl4Data acts' (ct.rename π) fuel navail r k') := by
  unfold Lvl4SM.processLvl4Data
  split_ifs
  · exact ⟨rfl, rfl, hR⟩
  · exact h.processLoop hR fuel _ sm.buf.length

end Actions.Renamed

end Trigger

theorem ownCalls_rename (π : Equiv.Perm Fd) (s : Fd) (cs : List (Call F)) :
    ownCalls (π s) (cs.map (Call.rename π)) = ownCalls s cs := by
  induction cs with
  | nil => rfl
  | cons c cs ih =>
    rw [List.map_cons]
    unfold ownCalls at ih ⊢
    cases c with
    | onSm s' d =>
      simp only [List.filterMap_cons, Call.rename, π.apply_eq_iff_eq, ih]
    | ensureAvailableSockets n =>
      simp only [List.filterMap_cons, Call.rename, ih]
    | setOnAlive ip a =>
      simp only [List.filterMap_cons, Call.rename, ih]

theorem otherCalls_rename (π : Equiv.Perm Fd) (s : Fd) (cs : List (Call F)) :
    otherCalls (π s) (cs.map (Call.rename π)) = (otherCalls s cs).map (Call.rename π) := by
  unfold otherCalls
  rw [List.filter_map]
  congr 2
  funext c
  cases c with
  | onSm s' d => simp [Call.rename]
  | ensureAvailableSockets n => rfl
  | setOnAlive ip a => rfl

def EngineM.LaunchResult.rename (π : Equiv.Perm Fd) : LaunchResult → LaunchResult
  | .started s t => .started (π s) t
  | .noTarget => .noTarget
  | .wouldBlock => .wouldBlock

def EngineM.WorkLists.rename (π : Equiv.Perm Fd) (l : WorkLists) : WorkLists :=
  ⟨l.toProcess.map π, l.timeouted.map π, l.nValid⟩

theorem WorkLists.rename_add (π : Equiv.Perm Fd) (l : WorkLists) (s : Fd) (dirty out : Bool) :
    (l.add s dirty out).rename π = (l.rename π).add (π s) dirty out := by
  cases dirty <;> cases out <;> simp [WorkLists.add, WorkLists.rename]

section Engine

variable {π : Equiv.Perm Fd} {w w' : World ω F} (hw : w.Renamed π w') (cfg : Config F)
include hw

theorem callback_follows (cb : Callback F) :
    Follows π (fun r r' => cb.unrename π r' = r) (callback w cb) (callback w' (cb.rename π)) := by
  apply Follows.bind (Follows.note (.called cb))
  intro _ _ _
  apply Follows.bind (Follows.ask (V := fun r r' => cb.unrename π r'.1 = r.1 ∧
    r'.2 = r.2.map (Call.rename π)) (fun o => ⟨(hw.callback cb o).1, (hw.callback cb o).2.1⟩)
    (fun o => (hw.callback cb o).2.2))
  rintro ⟨r, cs⟩ ⟨r', cs'⟩ ⟨hr, hcs⟩
  have hev : Event.returned (cb.rename π) ((cb.rename π).goesOn r') cs' =
      (Event.returned cb (cb.goesOn r) cs).rename π := by
    rw [Callback.goesOn_unrename, hr]
    exact congrArg _ hcs
  rw [hev]
  apply Follows.bind (Follows.note _)
  intro _ _ _
  apply Follows.bind (Follows.update (fun he => ?_))
  · intro _ _ _
    exact Follows.ret hr
  · rw [hcs]
    exact he.callAll cs

omit hw in
theorem targetFromSocket_follows (s : Fd) :
    Follows π Eq (targetFromSocket s : EngineM ω F Target) (targetFromSocket (π s)) := by
  apply Follows.read
  intro l l' e e' he
  rw [he.targets s]
  cases e.socketsTargets[s]? with
  | none => exact Follows.fault rfl
  | some t => exact Follows.ret rfl

theorem newLvl4Sm_follows (s : Fd) :
    Follows π Eq (newLvl4Sm w s) (newLvl4Sm w' (π s)) := by
  apply Follows.bind (Follows.askEq hw.timestamp)
  rintro now _ rfl
  exact Follows.update (fun he => he.withMachines (he.machines.insertIfNew s _))

theorem lvl4Sm_follows (s : Fd) : Follows π Eq (lvl4Sm w s) (lvl4Sm w' (π s)) := by
  apply Follows.read
  intro l l' e e' he
  rw [he.machines s]
  cases e.lvl4Sms[s]? with
  | some sm => exact Follows.ret rfl
  | none =>
    apply Follows.bind (Follows.askEq hw.timestamp)
    rintro now _ rfl
    apply Follows.bind (Follows.update (fun he => he.withMachines (he.machines.insert s _)))
    intro _ _ _
    exact Follows.ret rfl

omit hw in
theorem setHostSm_follows (ip : UInt32) (hsm : HostSM) :
    Follows π Eq (setHostSm ip hsm : EngineM ω F Unit) (setHostSm ip hsm) :=
  Follows.update (fun he => he.withHosts (by rw [he.hosts]))

omit hw in
theorem delHostSm_follows (ip : UInt32) :
    Follows π Eq (delHostSm ip : EngineM ω F Unit) (delHostSm ip) :=
  Follows.update (fun he => he.withHosts (by rw [he.hosts]))

omit hw in
theorem hostSm_follows (ip : UInt32) :
    Follows π Eq (hostSm ip : EngineM ω F HostSM) (hostSm ip) := by
  apply Follows.read
  intro l l' e e' he
  rw [he.hosts]
  cases e.hostsSms[ip]? with
  | some hsm => exact Follows.ret rfl
  | none =>
    apply Follows.bind (setHostSm_follows ip .new)
    intro _ _ _
    exact Follows.ret rfl

theorem updateTs_follows (s : Fd) : Follows π Eq (updateTs w s) (updateTs w' (π s)) := by
  apply Follows.bind (Follows.askEq hw.timestamp)
  rintro now _ rfl
  exact Follows.modifySm s _

theorem callbackFinish_follows (t : Target) (buf : List UInt8) (err : ℤ) :
    Follows π Eq (callbackFinish w cfg t buf err) (callbackFinish w' cfg t buf err) := by
  unfold callbackFinish
  split_ifs
  · exact callback_follows hw (.finish t buf err)
  · exact Follows.ret rfl

theorem hostFinished_follows (t : Target) :
    Follows π Eq (hostFinished w t) (hostFinished w' t) := by
  apply Follows.bind (hostSm_follows t.ipv4)
  rintro hsm _ rfl
  apply Follows.bind (Follows.askEq (hw.targetFinished t hsm))
  rintro r _ rfl
  apply Follows.bind (Follows.note (.hostFinished t hsm r.1))
  intro _ _ _
  apply Follows.bind (setHostSm_follows t.ipv4 r.2)
  intro _ _ _
  split_ifs
  · exact delHostSm_follows t.ipv4
  · exact Follows.ret rfl

theorem socketFinished_follows (s : Fd) (err : ℤ) :
    Follows π Eq (socketFinished w cfg s err) (socketFinished w' cfg (π s) err) := by
  apply Follows.bind (Follows.update (fun he => he.countFinish s))
  intro _ _ _
  apply Follows.bind (targetFromSocket_follows s)
  rintro t _ rfl
  apply Follows.bind (lvl4Sm_follows hw s)
  rintro sm _ rfl
  apply Follows.bind (callbackFinish_follows hw cfg t sm.buf err)
  intro _ _ _
  apply Follows.bind (Follows.modifySm s Lvl4SM.freeBuffer)
  intro _ _ _
  apply Follows.bind (hostFinished_follows hw t)
  intro _ _ _
  exact Follows.update (fun he => he.freeSocket s)

theorem register_follows {n n' : ℕ} (hn : (n' : Fd) = π n) (t : Target) :
    Follows π Eq (register w cfg n t) (register w' cfg n' t) := by
  unfold register
  simp only [hn]
  apply Follows.bind (Follows.update (fun he =>
    (he.withKernel (he.kernel.openSocket n)).withAvail (by rw [he.avail])))
  intro _ _ _
  apply Follows.read
  intro l l' e e' he
  apply Follows.bind (Follows.askEq (hw.connect he.kernel n t))
  rintro err _ rfl
  apply Follows.bind (Follows.update (fun he =>
    (he.withKernel (he.kernel.connected n t)).note (.connect n t err)))
  intro _ _ _
  apply Follows.bind (newLvl4Sm_follows hw n)
  intro _ _ _
  apply Follows.bind (Follows.modifySm n _)
  intro _ _ _
  apply Follows.bind (updateTs_follows hw n)
  intro _ _ _
  apply Follows.bind (Follows.update (fun he => he.insertTarget hn t))
  intro _ _ _
  exact Follows.ret rfl

theorem createSocket_follows (t : Target) :
    Follows π (fun r r' => r' = (π r.1, r.2)) (createSocket w cfg t) (createSocket w' cfg t) := by
  apply Follows.read
  intro l l' e e' he
  rw [he.avail]
  split_ifs
  · exact Follows.fault rfl
  · apply Follows.bind (Follows.ask (V := fun r r' => r'.map (fun n : ℕ => (n : Fd)) =
        r.map (fun n : ℕ => π n)) (fun o => (hw.socket he.kernel t.port.protocol o).1)
      (fun o => (hw.socket he.kernel t.port.protocol o).2))
    intro r r' hr
    cases r with
    | none =>
      obtain rfl : r' = none := by simpa using hr
      exact Follows.ret (by rw [hw.noFd])
    | some n =>
      obtain ⟨n', rfl, hn⟩ : ∃ n', r' = some n' ∧ (n' : Fd) = π n := by simpa using hr
      apply Follows.bind (register_follows hw cfg hn t)
      rintro err _ rfl
      exact Follows.ret (by rw [hn])

theorem reconnect_follows (s : Fd) (t : Target) :
    Follows π Eq (reconnect w cfg s t) (reconnect w' cfg (π s) t) := by
  apply Follows.bind (lvl4Sm_follows hw s)
  rintro sm _ rfl
  apply Follows.bind (Follows.update (fun he =>
    (he.withKernel (he.kernel.epollDel s)).closeSocket s))
  intro _ _ _
  apply Follows.bind (createSocket_follows hw cfg t)
  rintro r _ rfl
  apply Follows.bind (Follows.note (.reconnected s r.1))
  intro _ _ _
  apply Follows.bind (lvl4Sm_follows hw r.1)
  intro _ _ _
  apply Follows.bind (Follows.modifySm r.1 _)
  intro _ _ _
  exact Follows.update (fun he => he.withKernel (he.kernel.epollAdd r.1 _))

theorem onConnect_follows (s : Fd) (t : Target) :
    Follows π Eq (onConnect w s t) (onConnect w' (π s) t) := by
  apply Follows.bind (lvl4Sm_follows hw s)
  rintro sm _ rfl
  cases sm.funcConnect with
  | none => exact Follows.ret rfl
  | some f => exact Follows.flip (callback_follows hw (.connected f ⟨t, s⟩))

theorem processConnectingReady_follows (s : Fd) :
    Follows π Eq (processConnectingReady w cfg s) (processConnectingReady w' cfg (π s)) := by
  apply Follows.read
  intro l l' e e' he
  apply Follows.bind (Follows.askEq (hw.soError he.kernel s))
  rintro err _ rfl
  split_ifs
  · exact socketFinished_follows hw cfg s err
  · apply Follows.bind (targetFromSocket_follows s)
    rintro t _ rfl
    apply Follows.bind (hostSm_follows t.ipv4)
    intro _ _ _
    apply Follows.bind (onConnect_follows hw s t)
    rintro ret _ rfl
    split_ifs
    · apply Follows.bind (Follows.update (fun he =>
        he.withKernel ((he.kernel.epollDel s).epollAdd s .epollin)))
      intro _ _ _
      exact updateTs_follows hw s
    · exact socketFinished_follows hw cfg s 0

theorem called_renamed (s : Fd) (cb : Callback F) {l l' : List (Event F)} {e e' : Engine ω F}
    (he : Alike π l l' e e') :
    cb.unrename π (called w' (π s) (cb.rename π) e').1.1 = (called w s cb e).1.1 ∧
      (called w' (π s) (cb.rename π) e').1.2 = (called w s cb e).1.2 ∧
        Alike π l l' (called w s cb e).2 (called w' (π s) (cb.rename π) e').2 := by
  obtain ⟨hr, hcs, ho⟩ := hw.callback cb e.world
  simp only [called, he.world, hcs, Callback.goesOn_unrename, hr]
  refine ⟨trivial, ownCalls_rename π s _, ?_⟩
  rw [otherCalls_rename]
  apply Alike.callAll
  exact ((he.withWorld ho).note (.called cb)).note
    (.returned cb (cb.goesOn (w.callback cb e.world).1.1) (w.callback cb e.world).1.2)

theorem actions_renamed (ct : ConnectedTarget) (l l' : List (Event F)) :
    (actions w).Renamed π (Alike π l l') ct (actions w') where
  data := by
    intro e e' he f chunk
    obtain ⟨hr, hcs, ha⟩ := called_renamed hw ct.s (.data f ct chunk) he
    exact ⟨congrArg₂ (fun r cs => DataAnswer.mk r.1 r.2 cs) hr hcs, ha⟩
  python := by
    intro e e' he obj buf prevPos
    obtain ⟨hr, hcs, ha⟩ := called_renamed hw ct.s (.python obj ct buf prevPos) he
    exact ⟨congrArg₂ (fun r cs => PythonAnswer.mk r.1 r.2 cs) hr hcs, ha⟩

omit hw in
theorem onLvl4Sm_follows (s : Fd)
    {f f' : Lvl4SM F → Engine ω F → Except Fault (Bool × Lvl4SM F × Engine ω F)}
    (hf : ∀ {l l' e e'}, Alike π l l' e e' → ∀ sm,
      Lvl4SM.Matched π (Alike π l l') (f sm e) (f' sm e')) :
    Follows π Eq (onLvl4Sm s f) (onLvl4Sm (π s) f') := by
  intro l l' e e' he
  apply Paired.read
  rw [he.machines s]
  cases e.lvl4Sms[s]? with
  | none => exact Paired.fault rfl he
  | some sm =>
    have hm := hf he sm
    rcases hr : f sm e with x | ⟨r, sm₁, e₁⟩ <;> rcases hr' : f' sm e' with x' | ⟨r', sm₁', e₁'⟩ <;>
      simp only [hr, hr', Lvl4SM.Matched] at hm
    · simp only [hr, hr']
      exact Paired.fault hm he
    · obtain ⟨rfl, rfl, he₁⟩ := hm
      simp only [hr, hr']
      exact ⟨rfl, he₁.withMachines (he₁.machines.insert s sm₁')⟩

theorem processConnectedReady_follows (fuel : ℕ) (s : Fd) (t : Target) :
    Follows π Eq (processConnectedReady w cfg fuel s t)
      (processConnectedReady w' cfg fuel (π s) t) := by
  apply Follows.read
  intro l l' e e' he
  apply Follows.bind (Follows.askEq (hw.bytesAvail he.kernel s))
  rintro navail _ rfl
  apply Follows.bind (lvl4Sm_follows hw s)
  rintro sm _ rfl
  split_ifs
  · apply Follows.bind (callbackFinish_follows hw cfg t sm.buf _)
    intro _ _ _
    apply Follows.bind (Follows.modifySm s Lvl4SM.freeBuffer)
    intro _ _ _
    exact reconnect_follows hw cfg s t
  · exact socketFinished_follows hw cfg s _
  · apply Follows.bind (hostSm_follows t.ipv4)
    intro _ _ _
    apply Follows.bind (Follows.askEq (hw.read s navail))
    rintro r _ rfl
    apply Follows.bind (onLvl4Sm_follows s (fun he sm =>
      (actions_renamed hw ⟨t, s⟩ _ _).processLvl4Data he fuel navail r sm))
    rintro ret _ rfl
    apply Follows.bind (updateTs_follows hw s)
    intro _ _ _
    split_ifs
    · exact Follows.ret rfl
    · exact socketFinished_follows hw cfg s 0

theorem launchLoop_follows (fuel : ℕ) :
    Follows π (fun r r' => r' = r.rename π) (launchLoop w cfg fuel) (launchLoop w' cfg fuel) := by
  induction fuel with
  | zero => exact Follows.fault rfl
  | succ fuel ih =>
    apply Follows.bind (Follows.askEq hw.nextTarget)
    rintro r _ rfl
    cases r with
    | wouldBlock => exact Follows.ret rfl
    | target t =>
      dsimp only
      split_ifs
      · exact Follows.ret rfl
      · apply Follows.bind (Follows.update (fun he => he.countLaunch t))
        intro _ _ _
        apply Follows.bind (createSocket_follows hw cfg t)
        rintro r _ rfl
        dsimp only
        split_ifs
        · exact Follows.ret rfl
        · apply Follows.bind (socketFinished_follows hw cfg r.1 r.2)
          intro _ _ _
          exact ih

theorem addStarted_follows (s : Fd) (t : Target) :
    Follows π Eq (addStarted w s t) (addStarted w' (π s) t) := by
  apply Follows.bind (hostSm_follows t.ipv4)
  rintro hsm _ rfl
  apply Follows.bind (Follows.askEq (hw.initHostSm t hsm))
  rintro hsm' _ rfl
  apply Follows.bind (setHostSm_follows t.ipv4 hsm')
  intro _ _ _
  exact Follows.update (fun he => he.withKernel (he.kernel.epollAdd s .epollout))

theorem freeSocksLoop_follows (fuel n : ℕ) :
    Follows π Eq (freeSocksLoop w cfg fuel n) (freeSocksLoop w' cfg fuel n) := by
  induction n with
  | zero => exact Follows.ret rfl
  | succ n ih =>
    apply Follows.bind (launchLoop_follows hw cfg fuel)
    rintro r _ rfl
    cases r with
    | noTarget => exact Follows.ret rfl
    | wouldBlock => exact Follows.ret rfl
    | started s t =>
      apply Follows.bind (addStarted_follows hw s t)
      intro _ _ _
      exact ih

theorem processFreeSocks_follows (fuel : ℕ) :
    Follows π Eq (processFreeSocks w cfg fuel) (processFreeSocks w' cfg fuel) := by
  apply Follows.bind (Follows.note .freeSocks)
  intro _ _ _
  apply Follows.read
  intro l l' e e' he
  rw [he.avail]
  exact freeSocksLoop_follows hw cfg fuel e.availSocks

theorem processEvent_follows (fuel : ℕ) (ev : EpollEvent) :
    Follows π Eq (processEvent w cfg fuel ev) (processEvent w' cfg fuel (ev.rename π)) := by
  unfold processEvent EpollEvent.rename
  split_ifs
  · apply Follows.bind (lvl4Sm_follows hw ev.fd)
    intro _ _ _
    exact processConnectingReady_follows hw cfg ev.fd
  · apply Follows.bind (targetFromSocket_follows ev.fd)
    rintro t _ rfl
    apply Follows.bind (lvl4Sm_follows hw ev.fd)
    intro _ _ _
    exact processConnectedReady_follows hw cfg fuel ev.fd t
  · exact Follows.ret rfl

theorem processEvents_follows (fuel : ℕ) :
    Follows π Eq (processEvents w cfg fuel) (processEvents w' cfg fuel) := by
  apply Follows.read
  intro l l' e e' he
  apply Follows.bind (Follows.ask (V := fun (r r' : Option (List EpollEvent)) =>
    r' = r.map (List.map (EpollEvent.rename π)))
    (fun o => by rw [hw.epollWait he.kernel]) (fun o => by rw [hw.epollWait he.kernel]))
  rintro r _ rfl
  cases r with
  | none => exact Follows.ret rfl
  | some evs =>
    apply Follows.bind (V := Eq) (fun he => Paired.forM evs he
      (fun ev _ _ he => processEvent_follows hw cfg fuel ev he))
    intro _ _ _
    exact Follows.ret (by simp)

theorem timeoutOfTarget_follows (s : Fd) :
    Follows π Eq (timeoutOfTarget w cfg s) (timeoutOfTarget w' cfg (π s)) := by
  apply Follows.read
  intro l l' e e' he
  apply Follows.bind (Follows.askEq (hw.getpeername he.kernel s))
  rintro peer _ rfl
  split_ifs
  · exact Follows.flip (callback_follows hw (.timeoutOfTarget peer))
  · exact Follows.ret rfl

theorem hasWatchTimedout_follows (ts : ℤ) (s : Fd) (watchTs : ℤ) :
    Follows π Eq (hasWatchTimedout w cfg ts s watchTs)
      (hasWatchTimedout w' cfg ts (π s) watchTs) := by
  unfold hasWatchTimedout
  split_ifs
  · exact Follows.ret rfl
  · apply Follows.read
    intro l l' e e' he
    apply Follows.bind (Follows.askEq (hw.getpeername he.kernel s))
    rintro peer _ rfl
    apply Follows.bind (Follows.flip (callback_follows hw (.watchTimeout ⟨peer, s⟩)))
    rintro goOn _ rfl
    split_ifs
    · apply Follows.bind (Follows.modifySm s _)
      intro _ _ _
      exact Follows.ret rfl
    · exact Follows.ret rfl
  · exact Follows.ret rfl

theorem hasTimedout_follows (ts : ℤ) (s : Fd) (sm : Lvl4SM F) :
    Follows π Eq (hasTimedout w cfg ts s sm) (hasTimedout w' cfg ts (π s) sm) := by
  apply Follows.bind (timeoutOfTarget_follows hw cfg s)
  rintro timeoutTarget _ rfl
  split_ifs
  · exact Follows.ret rfl
  · exact hasWatchTimedout_follows hw cfg ts s sm.watchTs

theorem inspect_follows (ts : ℤ) (s : Fd) (wl : WorkLists) :
    Follows π (fun r r' => r' = r.rename π) (inspect w cfg ts s wl)
      (inspect w' cfg ts (π s) (wl.rename π)) := by
  apply Follows.read
  intro l l' e e' he
  rw [he.machines s]
  cases e.lvl4Sms[s]? with
  | none => exact Follows.ret rfl
  | some sm =>
    dsimp only
    split_ifs
    · apply Follows.bind (Follows.modifySm s _)
      intro _ _ _
      apply Follows.bind (hasTimedout_follows hw cfg ts s sm)
      rintro out _ rfl
      exact Follows.ret (WorkLists.rename_add π wl s _ out).symm
    · exact Follows.ret rfl

theorem inspectAll_follows (ts : ℤ) (ss : List Fd) (wl : WorkLists) :
    Follows π (fun r r' => r' = r.rename π) (inspectAll w cfg ts ss wl)
      (inspectAll w' cfg ts (ss.map π) (wl.rename π)) := by
  induction ss generalizing wl with
  | nil => exact Follows.ret rfl
  | cons s ss ih =>
    apply Follows.bind (inspect_follows hw cfg ts s wl)
    rintro wl' _ rfl
    exact ih wl'

theorem reprocess_follows (fuel : ℕ) (ss : List Fd) :
    Follows π (fun r r' => r' = r.map π) (reprocess w cfg fuel ss)
      (reprocess w' cfg fuel (ss.map π)) := by
  induction ss with
  | nil => exact Follows.ret rfl
  | cons s ss ih =>
    apply Follows.bind (targetFromSocket_follows s)
    rintro t _ rfl
    apply Follows.bind (hostSm_follows t.ipv4)
    intro _ _ _
    apply Follows.bind (onLvl4Sm_follows s (fun he sm =>
      (actions_renamed hw ⟨t, s⟩ _ _).processLoop he fuel sm 0))
    rintro ret _ rfl
    split_ifs
    · exact ih
    · apply Follows.bind (socketFinished_follows hw cfg s 0)
      intro _ _ _
      apply Follows.bind ih
      rintro ended _ rfl
      exact Follows.ret rfl

theorem finishTimeouted_follows (ss : List Fd) :
    Follows π Eq (finishTimeouted w cfg ss) (finishTimeouted w' cfg (ss.map π)) :=
  fun he => Paired.forM ss he (fun s _ _ he => socketFinished_follows hw cfg s _ he)

theorem shouldCallStatusDisplay_follows :
    Follows π Eq (shouldCallStatusDisplay w cfg) (shouldCallStatusDisplay w' cfg) := by
  unfold shouldCallStatusDisplay
  split_ifs
  · exact Follows.ret rfl
  · apply Follows.bind (Follows.askEq hw.timestamp)
    rintro now _ rfl
    apply Follows.read
    intro l l' e e' he
    rw [he.lastTime]
    split_ifs
    · apply Follows.bind (Follows.update (fun he => he.withLastTime now))
      intro _ _ _
      exact Follows.ret rfl
    · exact Follows.ret rfl

theorem displayStatus_follows :
    Follows π Eq (displayStatus w cfg) (displayStatus w' cfg) := by
  apply Follows.bind (shouldCallStatusDisplay_follows hw cfg)
  rintro b _ rfl
  split_ifs
  · apply Follows.read
    intro l l' e e' he
    rw [he.nlaunched, he.ndone]
    exact callback_follows hw (.status _ _)
  · exact Follows.ret rfl

end Engine

end Nodescan
