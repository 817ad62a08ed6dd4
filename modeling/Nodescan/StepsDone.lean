import Nodescan.ScanCoverage
import Nodescan.SaveRestore

/-!
# The steps that a scan has marked done

What `save_state` keeps of a scan is, above all, which steps of the generator of addresses are
marked done. The marks are set by `target_finished` from what the state of a host has collected,
and the state of a host is made, initialised and deleted by the engine. Over a whole scan the marks
say exactly which addresses have ended all their ports; only an address none of whose connections
was ever started gets the stray mark in place of its own.
-/

namespace Nodescan

open FaultM EngineM

variable {ω F γ δ ρ : Type}

/-- The ports of `ip` whose targets have ended, the latest first. -/
def portsEnded (ip : UInt32) (log : List (Event F)) : List Port :=
  (endedTargets log).filterMap fun t => if t.ipv4 = ip then some t.port else none

/-- Every port of `ip` has ended. -/
def AllEnded (ports : List Port) (log : List (Event F)) (ip : UInt32) : Prop :=
  ∀ p ∈ ports, (⟨ip, p⟩ : Target) ∈ endedTargets log

/-- A connection to `ip` was started. -/
def StartedIn (log : List (Event F)) (ip : UInt32) : Prop :=
  ∃ c ∈ connectCalls log, c.1.ipv4 = ip ∧ (c.2 = 0 ∨ c.2 = EINPROGRESS)

theorem mem_portsEnded {ip : UInt32} {p : Port} {log : List (Event F)} :
    p ∈ portsEnded ip log ↔ (⟨ip, p⟩ : Target) ∈ endedTargets log := by
  rw [portsEnded, List.mem_filterMap]
  constructor
  · rintro ⟨t, ht, htp⟩
    split_ifs at htp with hip
    rw [← Option.some.inj htp, ← hip]
    exact ht
  · intro h
    exact ⟨_, h, by simp⟩

theorem portsEnded_nodup (ip : UInt32) {log : List (Event F)} (h : (endedTargets log).Nodup) :
    (portsEnded ip log).Nodup := by
  refine h.filterMap (fun t t' p hp hp' => ?_)
  simp only [Option.mem_def, Option.ite_none_right_eq_some, Option.some.injEq] at hp hp'
  obtain ⟨ip', p'⟩ := t
  obtain ⟨ip'', p''⟩ := t'
  simp_all

theorem allEnded_congr {ports : List Port} {log log' : List (Event F)} {ip : UInt32}
    (h : endedTargets log' = endedTargets log) : AllEnded ports log' ip ↔ AllEnded ports log ip := by
  rw [AllEnded, AllEnded, h]

theorem startedIn_congr {log log' : List (Event F)} {ip : UInt32}
    (h : connectCalls log' = connectCalls log) : StartedIn log' ip ↔ StartedIn log ip := by
  rw [StartedIn, StartedIn, h]

namespace IPV4TargetSet

variable (lib : Leeloo γ δ ρ)

theorem nextTarget_done (ts : IPV4TargetSet γ δ ρ) :
    lib.v4.done (ts.nextTarget lib).2.randV4 = lib.v4.done ts.randV4 := by
  have hadv : lib.v4.done (ts.advance lib).randV4 = lib.v4.done ts.randV4 := by
    unfold advance
    split_ifs
    · exact lib.v4.next_done _
    · rfl
  unfold nextTarget
  dsimp only
  split_ifs
  · exact hadv
  · exact hadv

/-- What the hosts and the marks have to do with the log, in a scan that began with the permutation
`order` of the addresses. -/
structure Books (stray : ℕ) (order : List UInt32) (ports : List Port)
    (e : Engine (ω × IPV4TargetSet γ δ ρ) F) : Prop where
  collected : ∀ ip, ¬ AllEnded ports e.log ip →
    (e.hostOf ip).portsDone = (portsEnded ip e.log).reverse
  indexed : ∀ ip (k : ℕ), order[k]? = some ip → ¬ AllEnded ports e.log ip → StartedIn e.log ip →
    (e.hostOf ip).randIdxIp = some k
  unindexed : ∀ ip, ¬ AllEnded ports e.log ip → ¬ StartedIn e.log ip →
    (e.hostOf ip).randIdxIp = none
  done : ∀ k, k ∈ lib.v4.done e.world.2.randV4 ↔
    (∃ ip, order[k]? = some ip ∧ AllEnded ports e.log ip ∧ StartedIn e.log ip) ∨
      k = stray ∧ ∃ ip, AllEnded ports e.log ip ∧ ¬ StartedIn e.log ip

variable {lib} {stray : ℕ} {order : List UInt32} {ports : List Port}
  {e e' : Engine (ω × IPV4TargetSet γ δ ρ) F}

theorem Books.of_same (h : Books lib stray order ports e) (hh : KeepsHosts e e')
    (hen : endedTargets e'.log = endedTargets e.log)
    (hst : ∀ ip, StartedIn e'.log ip ↔ StartedIn e.log ip)
    (hdone : lib.v4.done e'.world.2.randV4 = lib.v4.done e.world.2.randV4) :
    Books lib stray order ports e' where
  collected := by
    intro ip hip
    rw [allEnded_congr hen] at hip
    rw [(hh ip).portsDone, portsEnded, hen]
    exact h.collected ip hip
  indexed := by
    intro ip k hk hip hs
    rw [allEnded_congr hen] at hip
    rw [(hh ip).randIdxIp]
    exact h.indexed ip k hk hip ((hst ip).mp hs)
  unindexed := by
    intro ip hip hs
    rw [allEnded_congr hen] at hip
    rw [(hh ip).randIdxIp]
    exact h.unindexed ip hip (fun hs' => hs ((hst ip).mpr hs'))
  done := by
    intro k
    simp only [hdone, h.done, allEnded_congr hen, hst]

/-- What `target_finished` collects for the host of `t` is complete exactly if the ports of the
address have all ended with `t`. -/
theorem portsSize_eq_iff (lib : Leeloo γ δ ρ) {log : List (Event F)} {t : Target}
    {done : List Port} (hp : ports.Nodup)
    (hdone : done = (portsEnded t.ipv4 log).reverse) (hend : (t :: endedTargets log).Nodup)
    (hmem : ∀ u ∈ t :: endedTargets log, u.port ∈ ports) :
    lib.portsSize (done ++ [t.port]) = ports.length ↔
      ∀ p ∈ ports, p = t.port ∨ (⟨t.ipv4, p⟩ : Target) ∈ endedTargets log := by
  obtain ⟨hfresh, hnd⟩ := List.nodup_cons.mp hend
  have hlist : done ++ [t.port] = (t.port :: portsEnded t.ipv4 log).reverse := by
    rw [List.reverse_cons, hdone]
  have hcons : (t.port :: portsEnded t.ipv4 log).Nodup :=
    List.nodup_cons.mpr ⟨fun h => hfresh (mem_portsEnded.mp h), portsEnded_nodup _ hnd⟩
  have hsub : t.port :: portsEnded t.ipv4 log ⊆ ports := by
    intro p hp'
    rcases List.mem_cons.mp hp' with rfl | hp'
    · exact hmem t List.mem_cons_self
    · exact hmem _ (List.mem_cons_of_mem _ (mem_portsEnded.mp hp'))
  rw [hlist, lib.portsSize_nodup (List.nodup_reverse.mpr hcons), List.length_reverse]
  have hperm := List.subperm_of_subset hcons hsub
  constructor
  · intro hlen p hp'
    have hmem' := (hperm.perm_of_length_le hlen.ge).mem_iff.mpr hp'
    rwa [List.mem_cons, mem_portsEnded] at hmem'
  · intro hall
    have hsub' : ports ⊆ t.port :: portsEnded t.ipv4 log := by
      intro p hp'
      rw [List.mem_cons, mem_portsEnded]
      exact hall p hp'
    exact Nat.le_antisymm hperm.length_le (List.subperm_of_subset hp hsub').length_le

/-- The entries of a target that has ended. -/
structure Ended (t : Target) (e e' : Engine (ω × IPV4TargetSet γ δ ρ) F) : Prop where
  ended : endedTargets e'.log = t :: endedTargets e.log
  started : ∀ ip, StartedIn e'.log ip ↔ StartedIn e.log ip

theorem Ended.of_settles {w : World (ω × IPV4TargetSet γ δ ρ) F} {cfg : Config F} {s : Fd}
    {t : Target} (h : Settles w cfg s t e e') : Ended t e e' := by
  obtain ⟨hsm, c, buf, err, hentries⟩ := h.entries
  constructor
  · rw [hentries.ended]
    split_ifs <;> rfl
  · intro ip
    apply startedIn_congr
    rw [hentries.connects]
    split_ifs <;> rfl

namespace Ended

variable {t : Target}

theorem allEnded_other (h : Ended t e e') {ip : UInt32} (hip : ip ≠ t.ipv4) :
    AllEnded ports e'.log ip ↔ AllEnded ports e.log ip := by
  unfold AllEnded
  rw [h.ended]
  refine forall₂_congr (fun p _ => ?_)
  rw [List.mem_cons, or_iff_right]
  rintro rfl
  exact hip rfl

theorem allEnded_own (h : Ended t e e') : AllEnded ports e'.log t.ipv4 ↔
    ∀ p ∈ ports, p = t.port ∨ (⟨t.ipv4, p⟩ : Target) ∈ endedTargets e.log := by
  unfold AllEnded
  rw [h.ended]
  refine forall₂_congr (fun p _ => ?_)
  rw [List.mem_cons]
  refine or_congr_left ⟨fun heq => ?_, fun heq => ?_⟩
  · rw [← heq]
  · rw [heq]

theorem portsEnded_other (h : Ended t e e') {ip : UInt32} (hip : ip ≠ t.ipv4) :
    portsEnded ip e'.log = portsEnded ip e.log := by
  rw [portsEnded, portsEnded, h.ended, List.filterMap_cons, if_neg (Ne.symm hip)]

theorem portsEnded_own (h : Ended t e e') :
    portsEnded t.ipv4 e'.log = t.port :: portsEnded t.ipv4 e.log := by
  rw [portsEnded, portsEnded, h.ended, List.filterMap_cons, if_pos rfl]

end Ended

/-- What has to hold of a target for its end to be booked right. -/
structure Bookable (lib : Leeloo γ δ ρ) (order : List UInt32) (ports : List Port) (t : Target)
    (e : Engine (ω × IPV4TargetSet γ δ ρ) F) : Prop where
  ports_nodup : ports.Nodup
  count : e.world.2.portsCount lib = ports.length
  ended_nodup : (t :: endedTargets e.log).Nodup
  ended_mem : ∀ u ∈ t :: endedTargets e.log, u.port ∈ ports
  order_nodup : order.Nodup
  order_mem : t.ipv4 ∈ order

theorem Bookable.not_allEnded {t : Target} (h : Bookable lib order ports t e) :
    ¬ AllEnded ports e.log t.ipv4 := by
  intro hall
  exact (List.nodup_cons.mp h.ended_nodup).1
    (hall t.port (h.ended_mem t List.mem_cons_self))

/-- The mark that is set when the last port of the address of `t` has ended. -/
theorem Books.done_insert {t : Target} (hb : Books lib stray order ports e)
    (ht : Bookable lib order ports t e) (hended : Ended t e e')
    (hcomplete : AllEnded ports e'.log t.ipv4) (k : ℕ) :
    k ∈ lib.v4.done
        (lib.v4.stepDone ((e.hostOf t.ipv4).randIdxIp.getD stray) e.world.2.randV4) ↔
      (∃ ip, order[k]? = some ip ∧ AllEnded ports e'.log ip ∧ StartedIn e'.log ip) ∨
        k = stray ∧ ∃ ip, AllEnded ports e'.log ip ∧ ¬ StartedIn e'.log ip := by
  have hnot := ht.not_allEnded
  have hall : ∀ ip, AllEnded ports e'.log ip ↔ ip = t.ipv4 ∨ AllEnded ports e.log ip := by
    intro ip
    by_cases heq : ip = t.ipv4
    · subst heq
      exact iff_of_true hcomplete (Or.inl rfl)
    · rw [hended.allEnded_other heq, or_iff_right heq]
  rw [lib.v4.stepDone_done, Finset.mem_insert, hb.done]
  simp only [hall, hended.started, or_and_right, and_or_left, exists_or, exists_eq_left]
  by_cases hst : StartedIn e.log t.ipv4
  · obtain ⟨j, hj⟩ := List.mem_iff_getElem?.mp ht.order_mem
    have hidx : (e.hostOf t.ipv4).randIdxIp.getD stray = j := by
      rw [hb.indexed _ j hj hnot hst]
      rfl
    have hkj : k = j ↔ order[k]? = some t.ipv4 := by
      constructor
      · rintro rfl
        exact hj
      · intro hk
        have hlt := (List.getElem?_eq_some_iff.mp hk).1
        exact (List.getElem?_inj hlt ht.order_nodup).mp (hk.trans hj.symm)
    rw [hidx, hkj]
    constructor
    · rintro (hk | h | h)
      · exact Or.inl (Or.inl ⟨t.ipv4, hk, rfl, hst⟩)
      · exact Or.inl (Or.inr h)
      · exact Or.inr (Or.inr h)
    · rintro ((⟨ip, hk, rfl, -⟩ | h) | (⟨-, h⟩ | h))
      · exact Or.inl hk
      · exact Or.inr (Or.inl h)
      · exact absurd hst h
      · exact Or.inr (Or.inr h)
  · have hidx : (e.hostOf t.ipv4).randIdxIp.getD stray = stray := by
      rw [hb.unindexed _ hnot hst]
      rfl
    rw [hidx]
    constructor
    · rintro (hk | h | h)
      · exact Or.inr (Or.inl ⟨hk, hst⟩)
      · exact Or.inl (Or.inr h)
      · exact Or.inr (Or.inr h)
    · rintro ((⟨ip, hk, rfl, h⟩ | h) | (⟨hk, -⟩ | h))
      · exact absurd h hst
      · exact Or.inr (Or.inl h)
      · exact Or.inl hk
      · exact Or.inr (Or.inr h)

/-- The end of a target keeps the books. -/
theorem Books.settle {w : World ω F} {cfg : Config F} {s : Fd} {t : Target}
    (hb : Books lib stray order ports e) (ht : Bookable lib order ports t e)
    (hs : Settles (w.withTargets (targetSet lib stray)) cfg s t e e') :
    Books lib stray order ports e' := by
  have hended := Ended.of_settles hs
  have hnot := ht.not_allEnded
  obtain ⟨e₁, hkeeps, hasked, htold⟩ := hs.told
  have hset : e₁.world.2 = e.world.2 := asked_withTargets hasked
  have hcollected : (e₁.hostOf t.ipv4).portsDone = (portsEnded t.ipv4 e.log).reverse :=
    (hkeeps _).portsDone.trans (hb.collected _ hnot)
  have hothers : ∀ ip, ip ≠ t.ipv4 → (e.hostOf ip).SameCount (e'.hostOf ip) := by
    intro ip hip
    have hsame : e'.hostOf ip = e₁.hostOf ip := by
      rw [Engine.hostOf, Engine.hostOf, htold.others ip hip]
    rw [hsame]
    exact hkeeps ip
  have hall : lib.portsSize ((e₁.hostOf t.ipv4).portDone t.port).portsDone =
      portsCount lib e.world.2 ↔ AllEnded ports e'.log t.ipv4 := by
    rw [ht.count]
    exact (portsSize_eq_iff lib ht.ports_nodup hcollected ht.ended_nodup
      ht.ended_mem).trans hended.allEnded_own.symm
  -- what `target_finished` answers for the host of `t`
  have htoldOf : e₁.toldOf (w.withTargets (targetSet lib stray)) t =
      (((e.world.2.targetFinished lib stray t (e₁.hostOf t.ipv4)).1),
        (e₁.world.1, (e.world.2.targetFinished lib stray t (e₁.hostOf t.ipv4)).2)) := by
    rw [← hset]
    rfl
  have hworld := htold.world
  have hown := htold.host
  rw [htoldOf] at hworld hown
  have hhost' : ¬ AllEnded ports e'.log t.ipv4 →
      e'.hostOf t.ipv4 = (e₁.hostOf t.ipv4).portDone t.port := by
    intro hcomplete
    have hfalse : (e.world.2.targetFinished lib stray t (e₁.hostOf t.ipv4)).1 =
        (false, (e₁.hostOf t.ipv4).portDone t.port) := by
      dsimp only [targetFinished]
      rw [if_neg (fun heq => hcomplete (hall.mp heq))]
    rw [hfalse] at hown
    rw [Engine.hostOf, hown]
    rfl
  have hother : ∀ ip, ip ≠ t.ipv4 → ¬ AllEnded ports e'.log ip → ¬ AllEnded ports e.log ip :=
    fun ip heq hip h => hip ((hended.allEnded_other heq).mpr h)
  refine ⟨fun ip hip => ?_, fun ip k hk hip hst => ?_, fun ip hip hst => ?_, ?_⟩
  · by_cases heq : ip = t.ipv4
    · subst heq
      rw [hhost' hip, hended.portsEnded_own, List.reverse_cons, ← hcollected]
      rfl
    · rw [(hothers ip heq).portsDone, hended.portsEnded_other heq]
      exact hb.collected ip (hother ip heq hip)
  · rw [hended.started] at hst
    by_cases heq : ip = t.ipv4
    · subst heq
      rw [hhost' hip]
      exact (hkeeps _).randIdxIp.trans (hb.indexed _ k hk hnot hst)
    · rw [(hothers ip heq).randIdxIp]
      exact hb.indexed ip k hk (hother ip heq hip) hst
  · rw [hended.started] at hst
    by_cases heq : ip = t.ipv4
    · subst heq
      rw [hhost' hip]
      exact (hkeeps _).randIdxIp.trans (hb.unindexed _ hnot hst)
    · rw [(hothers ip heq).randIdxIp]
      exact hb.unindexed ip (hother ip heq hip) hst
  · have hset' : e'.world.2 = (e.world.2.targetFinished lib stray t (e₁.hostOf t.ipv4)).2 := by
      rw [hworld]
    rw [hset']
    dsimp only [targetFinished]
    by_cases hcomplete : AllEnded ports e'.log t.ipv4
    · rw [if_pos (hall.mpr hcomplete)]
      simp only [HostSM.portDone, (hkeeps _).randIdxIp]
      exact hb.done_insert ht hended hcomplete
    · rw [if_neg (fun heq => hcomplete (hall.mp heq))]
      -- no other address has ended by the end of `t`
      have hsame : ∀ ip, AllEnded ports e'.log ip ↔ AllEnded ports e.log ip := by
        intro ip
        by_cases heq : ip = t.ipv4
        · subst heq
          exact iff_of_false hcomplete hnot
        · exact hended.allEnded_other heq
      intro k
      simp only [hb.done, hsame, hended.started]

/-- The scan of `ts`, as far as its targets go. -/
structure InScan (lib : Leeloo γ δ ρ) (stray : ℕ) (cfg : Config F) (ts : IPV4TargetSet γ δ ρ)
    (e : Engine (ω × IPV4TargetSet γ δ ρ) F) : Prop where
  follows : FollowsDraws (targetSet lib stray) (SameDraws lib) (ts.init lib) e
  ledger : Ledger cfg.hasFinish e.socketsTargets e.kernel.socks e.log

namespace InScan

variable {cfg : Config F} {ts : IPV4TargetSet γ δ ρ} {t : Target} {s : Fd}

theorem drawn (h : InScan lib stray cfg ts e) : ∃ m,
    SameDraws lib (afterDraws (nextTarget lib) m (ts.init lib)) e.world.2 ∧
      (launchedTargets e.log).reverse =
        givenTargets ((draws (nextTarget lib) m (ts.init lib)).map .target) := by
  obtain ⟨m, hr, hm⟩ := h.follows
  obtain ⟨hmap, hafter⟩ := targetSet_draws lib stray m (ts.init lib)
  rw [hafter] at hr
  rw [hmap] at hm
  exact ⟨m, hr, hm⟩

theorem scanning (h : InScan lib stray cfg ts e) (hl : Enumerable ts.ipv4s ts.ports) :
    Scanning lib e.world.2 ∧ e.world.2.ipv4s = ts.ipv4s ∧ e.world.2.ports = ts.ports ∧
      lib.v4.order e.world.2.randV4 = lib.v4.order (ts.init lib).randV4 := by
  obtain ⟨m, hr, -⟩ := h.drawn
  have hstart : Scanning lib (ts.init lib) := (Called.init hl).scanning
  have hdraws : Scanning lib (afterDraws (nextTarget lib) m (ts.init lib)) ∧
      SameScan lib (ts.init lib) (afterDraws (nextTarget lib) m (ts.init lib)) :=
    Draws.afterDraws_invariant (I := fun x => Scanning lib x ∧ SameScan lib (ts.init lib) x)
      (fun x hx => ⟨hx.1.next.1, hx.2.trans hx.1.next.2⟩) m ⟨hstart, SameScan.refl _⟩
  obtain ⟨hscan, hsame⟩ := hdraws
  refine ⟨⟨?_, ?_, ?_, ?_⟩, hr.ipv4s.trans hsame.ipv4s, hr.ports.trans hsame.ports,
    hr.order.trans hsame.order⟩
  · rw [hr.order, hr.ipv4s]
    exact hscan.order
  · rw [hr.randPort, hr.ports]
    exact hscan.size
  · rw [hr.randPort, hr.ports]
    exact hscan.rest
  · rw [hr.ipv4s, hr.ports]
    exact hscan.lists

section Launched

variable (h : InScan lib stray cfg ts e) (hl : Enumerable ts.ipv4s ts.ports)
  (hres : NoneReserved ts.ipv4s ts.ports)

include h hl hres

theorem launched_nodup : (launchedTargets e.log).Nodup := by
  obtain ⟨m, -, hm⟩ := h.drawn
  obtain ⟨henum, -⟩ := init_enumerates lib ts hl
  rw [← List.nodup_reverse, hm]
  exact henum.nodup.sublist (givenTargets_begin lib ts hl hres m).sublist

theorem launched_mem (ht : t ∈ launchedTargets e.log) :
    t.ipv4 ∈ ts.ipv4s ∧ t.port ∈ ts.ports := by
  obtain ⟨m, -, hm⟩ := h.drawn
  obtain ⟨henum, -⟩ := init_enumerates lib ts hl
  rw [← List.mem_reverse, hm] at ht
  have hmem := (givenTargets_begin lib ts hl hres m).subset ht
  rw [henum.perm.mem_iff, List.mem_map] at hmem
  obtain ⟨⟨ip, p⟩, hmem, rfl⟩ := hmem
  exact List.mem_product.mp hmem

theorem ended_nodup : (endedTargets e.log).Nodup :=
  (List.nodup_append.mp (h.ledger.balance.nodup_iff.mp (h.launched_nodup hl hres))).1

theorem ended_mem (ht : t ∈ endedTargets e.log) : t.ipv4 ∈ ts.ipv4s ∧ t.port ∈ ts.ports :=
  h.launched_mem hl hres (h.ledger.balance.mem_iff.mpr (List.mem_append_left _ ht))

/-- A target that is registered has not ended. -/
theorem registered_mem (ht : e.socketsTargets[s]? = some t) :
    t ∉ endedTargets e.log ∧ t.ipv4 ∈ ts.ipv4s ∧ t.port ∈ ts.ports := by
  have hflight : t ∈ (Nodescan.inFlight e.log).map Prod.snd :=
    List.mem_map.mpr ⟨(s, t), (h.ledger.registered s t).mpr ht, rfl⟩
  have hnd := h.ledger.balance.nodup_iff.mp (h.launched_nodup hl hres)
  refine ⟨fun hend => ?_, h.launched_mem hl hres
    (h.ledger.balance.mem_iff.mpr (List.mem_append_right _ hflight))⟩
  exact (List.nodup_append.mp hnd).2.2 t hend t hflight rfl

end Launched

end InScan

/-- After a target was drawn the generator of addresses stands at its address. -/
theorem nextTarget_current {ts : IPV4TargetSet γ δ ρ} (h : Scanning lib ts)
    (hend : (ts.nextTarget lib).1.isEnd = false) :
    (lib.v4.order ts.randV4)[lib.v4.getCurrentStep (ts.nextTarget lib).2.randV4]? =
      some (ts.nextTarget lib).1.ipv4 := by
  obtain ⟨hadv, hsame, -⟩ := h.advance
  have hne : lib.v4.isEnd (ts.advance lib).randV4 = false := by
    by_contra hcon
    rw [Bool.not_eq_false] at hcon
    simp only [nextTarget, hcon, if_true] at hend
    exact absurd hend (by decide)
  cases htodo : lib.v4.todo (ts.advance lib).randV4 with
  | nil =>
    rw [(lib.v4.isEnd_iff _).mpr htodo] at hne
    simp at hne
  | cons k l =>
    have hget := lib.v4.getCurrent_eq hadv.order htodo
    have hstep := lib.v4.getCurrentStep_eq htodo
    simp only [nextTarget, hne, Bool.false_eq_true, if_false, hstep, ← hsame.order]
    exact hget

section Steps

variable {w : World ω F} {cfg : Config F} {ts : IPV4TargetSet γ δ ρ} {t : Target}

theorem startedIn_cons {log log' : List (Event F)} {t : Target} {err : ℤ} {ip : UInt32}
    (h : connectCalls log' = (t, err) :: connectCalls log) :
    StartedIn log' ip ↔ (t.ipv4 = ip ∧ (err = 0 ∨ err = EINPROGRESS)) ∨ StartedIn log ip := by
  rw [StartedIn, StartedIn, h]
  simp only [List.mem_cons, exists_eq_or_imp]

/-- A target that has just been launched can end. -/
theorem InScan.bookable_of_launched {order : List UInt32} (h : InScan lib stray cfg ts e)
    (hl : Enumerable ts.ipv4s ts.ports) (hres : NoneReserved ts.ipv4s ts.ports)
    (ho : order = lib.v4.order (ts.init lib).randV4) (hnot : t ∉ endedTargets e.log)
    (hip : t.ipv4 ∈ ts.ipv4s) (hport : t.port ∈ ts.ports) :
    Bookable lib order ts.ports t e := by
  obtain ⟨hscan, hips, hports, -⟩ := h.scanning hl
  have hperm : order.Perm ts.ipv4s := ho ▸ lib.v4.init_order _ _
  refine ⟨hl.ports_nodup, ?_, ?_, ?_, hperm.nodup_iff.mpr hl.ips_nodup, hperm.mem_iff.mpr hip⟩
  · rw [portsCount, hscan.size, hports]
  · exact List.nodup_cons.mpr ⟨hnot, h.ended_nodup hl hres⟩
  · intro u hu
    rcases List.mem_cons.mp hu with rfl | hu
    · exact hport
    · exact (h.ended_mem hl hres hu).2

/-- The books of a scan, as long as every reconnection gets the descriptor it closed. -/
structure ScanBooks (lib : Leeloo γ δ ρ) (stray : ℕ) (cfg : Config F) (ts : IPV4TargetSet γ δ ρ)
    (e : Engine (ω × IPV4TargetSet γ δ ρ) F) : Prop where
  follows : FollowsDraws (targetSet lib stray) (SameDraws lib) (ts.init lib) e
  ledger : KeepsLedger cfg e
  books : SameFds e → Books lib stray (lib.v4.order (ts.init lib).randV4) ts.ports e
  started : SameFds e → ∀ (s : Fd) t, e.socketsTargets[s]? = some t → StartedIn e.log t.ipv4

theorem ScanBooks.inScan (h : ScanBooks lib stray cfg ts e) (hsame : SameFds e) :
    InScan lib stray cfg ts e :=
  ⟨h.follows, h.ledger hsame⟩

theorem ScanBooks.idle (h : ScanBooks lib stray cfg ts e)
    (hi : Idle (w.withTargets (targetSet lib stray)) e e') : ScanBooks lib stray cfg ts e' := by
  obtain ⟨l, hlog, hidle⟩ := hi.log
  have hold : SameFds e' → SameFds e := fun hs => hs.of_suffix ⟨l, hlog.symm⟩
  have hentries := SameEntries.append hidle e.log
  rw [← hlog] at hentries
  refine ⟨((undisturbed lib stray).launchInvariant w _).idle h.follows hi, h.ledger.idle hi, fun hs => ?_, fun hs s t ht => ?_⟩
  · refine (h.books (hold hs)).of_same hi.hosts hentries.ended
      (fun ip => startedIn_congr hentries.connects) ?_
    rw [asked_withTargets hi.asked]
  · rw [hi.targets] at ht
    exact (startedIn_congr hentries.connects).mpr (h.started (hold hs) s t ht)

section Laws

variable (hl : Enumerable ts.ipv4s ts.ports) (hres : NoneReserved ts.ipv4s ts.ports)

include hl hres

/-- A target that was launched is new and belongs to the product. -/
theorem InScan.launched_new {r : Fd × ℤ} (h : InScan lib stray cfg ts e')
    (hc : Connects (w.withTargets (targetSet lib stray)) t r e e')
    (hledger : Ledger cfg.hasFinish e.socketsTargets e.kernel.socks e.log) :
    t ∉ endedTargets e.log ∧ t.ipv4 ∈ ts.ipv4s ∧ t.port ∈ ts.ports := by
  have hlaunched : launchedTargets e'.log = t :: launchedTargets e.log := by
    rw [hc.log]
    rfl
  have hnd := h.launched_nodup hl hres
  rw [hlaunched, List.nodup_cons] at hnd
  refine ⟨fun hend => hnd.1 ?_, h.launched_mem hl hres (by rw [hlaunched]; exact List.mem_cons_self)⟩
  exact hledger.balance.mem_iff.mpr (List.mem_append_left _ hend)

theorem ScanBooks.settle {s : Fd} (h : ScanBooks lib stray cfg ts e)
    (hs : Settles (w.withTargets (targetSet lib stray)) cfg s t e e') :
    ScanBooks lib stray cfg ts e' := by
  have hold : SameFds e' → SameFds e := fun hsame => hsame.of_suffix hs.log
  refine ⟨((undisturbed lib stray).launchInvariant w _).settle h.follows hs, h.ledger.settle hs, fun hsame => ?_,
    fun hsame a u hu => ?_⟩
  · have hin := h.inScan (hold hsame)
    obtain ⟨hnot, hip, hport⟩ := hin.registered_mem hl hres hs.target
    exact (h.books (hold hsame)).settle
      (hin.bookable_of_launched hl hres rfl hnot hip hport) hs
  · rw [hs.targets, TreeMaps.getElem?_erase] at hu
    split_ifs at hu
    exact ((Ended.of_settles hs).started _).mpr (h.started (hold hsame) a u hu)

/-- The mark of a connection that was started goes to its address. -/
theorem ScanBooks.start {e₁ : Engine (ω × IPV4TargetSet γ δ ρ) F} {r : Fd × ℤ}
    (h : ScanBooks lib stray cfg ts e)
    (hg : Given (w.withTargets (targetSet lib stray)) cfg t (.ok r) e e₁) (hr : IsStarted r)
    (hs : StartsHost (w.withTargets (targetSet lib stray)) t e₁ e')
    (hfollows : FollowsDraws (targetSet lib stray) (SameDraws lib) (ts.init lib) e')
    (hledger : KeepsLedger cfg e') : ScanBooks lib stray cfg ts e' := by
  have hc := hg.connects_of_started hr
  have hcalls : connectCalls e'.log = (t, r.2) :: connectCalls e.log := by
    rw [hs.log, hc.calls]
  have hstarted : ∀ ip, StartedIn e'.log ip ↔ t.ipv4 = ip ∨ StartedIn e.log ip := by
    intro ip
    rw [startedIn_cons hcalls, and_iff_left hr]
  have hended : endedTargets e'.log = endedTargets e.log := by
    rw [hs.log, hc.log]
    rfl
  have hold : SameFds e' → SameFds e := by
    intro hsame
    refine hsame.of_suffix ?_
    rw [hs.log, hc.log]
    exact (List.suffix_cons _ _).trans (List.suffix_cons _ _)
  refine ⟨hfollows, hledger, fun hsame => ?_, fun hsame a u hu => ?_⟩
  · have hin := h.inScan (hold hsame)
    have hb := h.books (hold hsame)
    obtain ⟨hscan, -, -, horder⟩ := hin.scanning hl
    have hdrawn : (nextTarget lib e.world.2).1 = t := NextTarget.target.inj hg.drawn
    have hset₁ : e₁.world.2 = (nextTarget lib e.world.2).2 := asked_withTargets hc.asked
    have hset : e'.world.2 = (nextTarget lib e.world.2).2 := by
      rw [hs.world]
      exact hset₁
    have hnew : t ∉ endedTargets e.log ∧ t.ipv4 ∈ ts.ipv4s ∧ t.port ∈ ts.ports := by
      have hin₁ : InScan lib stray cfg ts e₁ :=
        ⟨((undisturbed lib stray).launchInvariant w _).launch h.follows hc hg.drawn hg.not_end,
          h.ledger.launch hc (hsame.of_suffix (hs.log ▸ List.suffix_refl _))⟩
      exact hin₁.launched_new hl hres hc hin.ledger
    have hnot : ¬ AllEnded ts.ports e.log t.ipv4 := fun hall => hnew.1 (hall _ hnew.2.2)
    have hcurrent := nextTarget_current hscan (hdrawn ▸ hg.not_end)
    rw [hdrawn, horder] at hcurrent
    have hnd := (lib.v4.init_order ts.ipv4s ts.mtRandIps).nodup_iff.mpr hl.ips_nodup
    have hown : e'.hostOf t.ipv4 = { e₁.hostOf t.ipv4 with
        randIdxIp := some (lib.v4.getCurrentStep (nextTarget lib e.world.2).2.randV4) } := by
      rw [Engine.hostOf, hs.hosts, if_pos rfl, ← hset₁]
      rfl
    have hothers : ∀ ip, ip ≠ t.ipv4 → (e.hostOf ip).SameCount (e'.hostOf ip) := by
      intro ip hip
      have hsame : e'.hostOf ip = e₁.hostOf ip := by
        rw [Engine.hostOf, hs.hosts, if_neg hip]
        rfl
      rw [hsame]
      exact hc.hosts ip
    refine ⟨fun ip hip => ?_, fun ip k hk hip hst => ?_, fun ip hip hst => ?_, fun k => ?_⟩
    · rw [allEnded_congr hended] at hip
      rw [portsEnded, hended, ← portsEnded]
      by_cases heq : ip = t.ipv4
      · subst heq
        rw [hown]
        exact (hc.hosts _).portsDone.trans (hb.collected _ hip)
      · rw [(hothers ip heq).portsDone]
        exact hb.collected ip hip
    · rw [allEnded_congr hended] at hip
      by_cases heq : ip = t.ipv4
      · subst heq
        rw [hown]
        have hlt := (List.getElem?_eq_some_iff.mp hk).1
        exact congrArg some ((List.getElem?_inj hlt hnd).mp (hk.trans hcurrent.symm)).symm
      · rw [(hothers ip heq).randIdxIp]
        exact hb.indexed ip k hk hip (((hstarted ip).mp hst).resolve_left (Ne.symm heq))
    · rw [allEnded_congr hended] at hip
      rw [hstarted, not_or] at hst
      rw [(hothers ip (Ne.symm hst.1)).randIdxIp]
      exact hb.unindexed ip hip hst.2
    · rw [hset, nextTarget_done, hb.done]
      -- no address that has ended gets a new connection
      have hsame : ∀ ip, AllEnded ts.ports e'.log ip → (StartedIn e'.log ip ↔ StartedIn e.log ip) := by
        intro ip hall
        rw [hstarted, or_iff_right]
        rintro rfl
        exact hnot ((allEnded_congr hended).mp hall)
      have hall : ∀ ip, AllEnded ts.ports e'.log ip ↔ AllEnded ts.ports e.log ip :=
        fun ip => allEnded_congr hended
      simp only [← hall]
      refine or_congr (exists_congr fun ip => and_congr_right fun _ => ?_)
        (and_congr_right fun _ => exists_congr fun ip => ?_)
      · exact and_congr_right (fun hall => (hsame ip hall).symm)
      · exact and_congr_right (fun hall => not_congr (hsame ip hall).symm)
  · rw [hs.targets] at hu
    rw [hstarted]
    rcases hc.registered_cases (h.ledger (hold hsame)) hu with ⟨-, rfl⟩ | hu
    · exact Or.inl rfl
    · exact Or.inr (h.started (hold hsame) a u hu)

theorem ScanBooks.refuse {e₁ : Engine (ω × IPV4TargetSet γ δ ρ) F} {r : Fd × ℤ} {t' : Target}
    (h : ScanBooks lib stray cfg ts e) (hdrawn : (nextTarget lib e.world.2).1 = t)
    (hend : t.isEnd = false) (hc : Connects (w.withTargets (targetSet lib stray)) t r e e₁)
    (hr : ¬ IsStarted r)
    (hs : Settles (w.withTargets (targetSet lib stray)) cfg r.1 t' e₁ e') :
    ScanBooks lib stray cfg ts e' := by
  have hfollows := ((undisturbed lib stray).launchInvariant w _).launch h.follows hc (congrArg _ hdrawn) hend
  have hledger := h.ledger.launch hc
  have hstarted : ∀ ip, StartedIn e₁.log ip ↔ StartedIn e.log ip := by
    intro ip
    rw [startedIn_cons hc.calls, or_iff_right (fun h => hr h.2)]
  have hold : SameFds e₁ → SameFds e := by
    intro hsame
    refine hsame.of_suffix ?_
    rw [hc.log]
    exact (List.suffix_cons _ _).trans (List.suffix_cons _ _)
  have hbooks : SameFds e₁ → Books lib stray (lib.v4.order (ts.init lib).randV4) ts.ports e₁ := by
    intro hsame
    refine (h.books (hold hsame)).of_same hc.hosts ?_ hstarted ?_
    · rw [hc.log]
      rfl
    · have hset : e₁.world.2 = (nextTarget lib e.world.2).2 := asked_withTargets hc.asked
      rw [hset, nextTarget_done]
  refine ⟨((undisturbed lib stray).launchInvariant w _).settle hfollows hs, hledger.settle hs, fun hsame => ?_,
    fun hsame a u hu => ?_⟩
  · have hsame₁ : SameFds e₁ := hsame.of_suffix hs.log
    have hin : InScan lib stray cfg ts e₁ := ⟨hfollows, hledger hsame₁⟩
    obtain ⟨hnot, hip, hport⟩ := hin.registered_mem hl hres hs.target
    exact (hbooks hsame₁).settle (hin.bookable_of_launched hl hres rfl hnot hip hport) hs
  · have hsame₁ : SameFds e₁ := hsame.of_suffix hs.log
    rw [hs.targets, TreeMaps.getElem?_erase] at hu
    split_ifs at hu with ha
    rcases hc.registered_cases (h.ledger (hold hsame₁)) hu with ⟨heq, -⟩ | hu
    · exact absurd heq ha
    · rw [(Ended.of_settles hs).started, hstarted]
      exact h.started (hold hsame₁) a u hu

theorem ScanBooks.step (h : ScanBooks lib stray cfg ts e)
    (hs : Step (w.withTargets (targetSet lib stray)) cfg e e') : ScanBooks lib stray cfg ts e' := by
  have hfollows := ((undisturbed lib stray).launchInvariant w _).step h.follows hs
  have hledger := h.ledger.step hs
  have hsuffix := hs.suffix
  cases hs with
  | neutral hn => exact h.idle (Idle.of_neutral hn)
  | marked => exact h.idle (w := w) (Idle.note rfl)
  | saved =>
    exact ⟨hfollows, hledger, fun hsame => (h.books hsame).of_same (.of_eq rfl) rfl
      (fun _ => Iff.rfl) rfl, h.started⟩
  | called hcb => exact h.idle ((Idle.note (isPlain_not_entry hcb)).trans (Idle.answered _ _))
  | worked ht hs hw =>
    have hidle := h.idle (Idle.worked hw)
    exact ⟨hfollows, hledger, fun hsame => (hidle.books hsame).of_same (.of_eq rfl) rfl
      (fun _ => Iff.rfl) rfl, hidle.started⟩
  | drawn hend =>
    refine ⟨hfollows, hledger, fun hsame => ?_, h.started⟩
    exact (h.books hsame).of_same (.of_eq rfl) rfl (fun _ => Iff.rfl) (nextTarget_done lib _)
  | started hg hr ha =>
    exact h.start hl hres hg hr ((addStarted_startsHost _ _).of_ok ha) hfollows hledger
  | refused hf =>
    obtain ⟨r, e₁, t', hc, hr, hsettles⟩ := hf.connects
    obtain ⟨_, _, hg, _⟩ := hf
    exact h.refuse hl hres (NextTarget.target.inj hg.drawn) hg.not_end hc hr hsettles
  | finished hf =>
    obtain ⟨t, hsettles⟩ := socketFinished_settles hf
    exact h.settle hl hres hsettles
  | @reconnected _ s t buf ht hrec =>
    have hold : SameFds e' → SameFds e := fun hsame => hsame.of_suffix hsuffix
    obtain ⟨-, -, s', hmem, hre⟩ := announceReconnect_reopens hrec
    have hpos := e.fds_nonneg _ (TreeMaps.mem_of_getElem? ht)
    have hhosts := announceReconnect_steady (steady_hosts e) (.of_eq rfl) hrec
    have hset := asked_withTargets (announceReconnect_steady (steady_asked e.world) .refl hrec)
    -- the target that is reconnected was started before
    have hstarted : SameFds e' → ∀ ip, StartedIn e'.log ip ↔ StartedIn e.log ip := by
      intro hsame ip
      obtain ⟨buf, err, err', hentries⟩ := (hre hpos (hsame _ _ hmem)).entries
      have hcalls : connectCalls e'.log = (t, err') :: connectCalls e.log := by
        rw [hentries.connects]
        split_ifs <;> rfl
      rw [startedIn_cons hcalls]
      refine ⟨fun hor => hor.elim (fun hnew => ?_) id, Or.inr⟩
      rw [← hnew.1]
      exact h.started (hold hsame) _ _ ht
    refine ⟨hfollows, hledger, fun hsame => ?_, fun hsame a u hu => ?_⟩
    · obtain ⟨buf, err, err', hentries⟩ := (hre hpos (hsame _ _ hmem)).entries
      refine (h.books (hold hsame)).of_same hhosts ?_ (hstarted hsame) ?_
      · rw [hentries.ended]
        split_ifs <;> rfl
      · rw [hset]
    · rw [(hre hpos (hsame _ _ hmem)).targets,
        TreeMaps.insertIfNew_of_mem _ _ _ (TreeMaps.mem_of_getElem? ht)] at hu
      exact (hstarted hsame _).mpr (h.started (hold hsame) a u hu)

theorem launch_scanBooks (o : ω) {fuel n : ℕ} {b : Bool}
    (h : (launch (w.withTargets (targetSet lib stray)) cfg fuel n).runFrom (.init cfg (o, ts)) =
      (.ok b, e')) : ScanBooks lib stray cfg ts e' := by
  have hscan : (doAsyncScan (w.withTargets (targetSet lib stray)) cfg fuel n).runFrom
      (.init cfg (o, ts.init lib)) = (.ok b, e') := h
  have hstart : ScanBooks lib stray cfg ts (Engine.init (F := F) cfg (o, ts.init lib)) := by
    have hports : ∀ ip, ¬ AllEnded ts.ports ([] : List (Event F)) ip := by
      intro ip hall
      obtain ⟨p, hp⟩ := List.exists_mem_of_ne_nil _ hl.ports_ne
      exact absurd (hall p hp) (by simp [endedTargets])
    have hnone : ∀ ip, ¬ StartedIn ([] : List (Event F)) ip := by simp [StartedIn, connectCalls]
    refine ⟨⟨0, ⟨rfl, rfl, rfl, rfl, rfl, rfl, lib.v4.init_order _ _⟩, rfl⟩, fun _ => Ledger.empty,
      fun _ => ⟨fun _ _ => rfl, fun ip _ _ _ hst => absurd hst (hnone ip), fun _ _ _ => rfl,
        fun k => ?_⟩, ?_⟩
    · have hdone : k ∉ lib.v4.done (ts.init lib).randV4 := by
        rw [init, lib.v4.init_done]
        exact Finset.notMem_empty k
      refine iff_of_false hdone ?_
      rintro (⟨ip, -, hall, -⟩ | ⟨-, ip, hall, -⟩)
      · exact hports ip hall
      · exact hports ip hall
    · simp [Engine.init]
  exact ((doAsyncScan_steps n).of_ok hscan).invariant (fun _ _ hs h => h.step hl hres hs) hstart

end Laws

end Steps

/-- After any number of rounds of a scan, which is where `auto_save_state` saves it. -/
theorem step_done_iff (w : World ω F) (cfg : Config F) (lib : Leeloo γ δ ρ) (stray : ℕ) (o : ω)
    (ts : IPV4TargetSet γ δ ρ) (hl : Enumerable ts.ipv4s ts.ports)
    (hres : NoneReserved ts.ipv4s ts.ports) {fuel n : ℕ} {b : Bool}
    (h : (launch (w.withTargets (targetSet lib stray)) cfg fuel n).runFrom (.init cfg (o, ts)) =
      (.ok b, e)) (hsame : SameFds e) (k : ℕ) :
    k ∈ lib.v4.done e.world.2.randV4 ↔
      (∃ ip, (lib.v4.order e.world.2.randV4)[k]? = some ip ∧ AllEnded ts.ports e.log ip ∧
        StartedIn e.log ip) ∨
      k = stray ∧ ∃ ip, AllEnded ts.ports e.log ip ∧ ¬ StartedIn e.log ip := by
  have hbooks := launch_scanBooks hl hres o h
  obtain ⟨-, -, -, horder⟩ := (hbooks.inScan hsame).scanning hl
  rw [horder]
  exact (hbooks.books hsame).done k

/-- What a set restored from `saved` gives, after a scan with this log: every pair that had not
ended, except for ports of one address, and no address that has ended. -/
structure Resumed (lib : Leeloo γ δ ρ) (ts : IPV4TargetSet γ δ ρ) (log : List (Event F))
    (saved : IPV4TargetSet γ δ ρ) (r₁ r₂ : ρ) : Prop where
  again : ∃ lost, ∀ ip ∈ ts.ipv4s, ∀ p ∈ ts.ports, ⟨ip, p⟩ ∉ endedTargets log →
    (saved.restoreState lib r₁ r₂).Yields lib ⟨ip, p⟩ ∨
      ip = lost ∧ p ∉ lib.port.rest saved.randPort
  not_ended : ∀ t, (saved.restoreState lib r₁ r₂).Yields lib t → ¬ AllEnded ts.ports log t.ipv4

theorem launch_resumed (w : World ω F) (cfg : Config F) (lib : Leeloo γ δ ρ) (stray : ℕ)
    (o : ω) (ts : IPV4TargetSet γ δ ρ) (hl : Enumerable ts.ipv4s ts.ports)
    (hres : NoneReserved ts.ipv4s ts.ports) {fuel n : ℕ} {b : Bool}
    (h : (launch (w.withTargets (targetSet lib stray)) cfg fuel n).runFrom (.init cfg (o, ts)) =
      (.ok b, e)) (hsame : SameFds e)
    (hstarted : ∀ ip, AllEnded ts.ports e.log ip → StartedIn e.log ip) (r₁ r₂ : ρ) :
    Resumed lib ts e.log e.world.2 r₁ r₂ := by
  have hbooks := launch_scanBooks hl hres o h
  obtain ⟨hs, hips, hports, horder⟩ := (hbooks.inScan hsame).scanning hl
  have hdone : ∀ {k : ℕ} {ip}, (lib.v4.order e.world.2.randV4)[k]? = some ip →
      (k ∈ lib.v4.done e.world.2.randV4 ↔ AllEnded ts.ports e.log ip) := by
    intro k ip hk
    rw [(hbooks.books hsame).done]
    constructor
    · rintro (⟨ip', hk', hall, -⟩ | ⟨-, ip', hall, hnot⟩)
      · rw [← horder, hk] at hk'
        rw [Option.some.inj hk']
        exact hall
      · exact absurd (hstarted ip' hall) hnot
    · intro hall
      exact Or.inl ⟨ip, horder ▸ hk, hall, hstarted ip hall⟩
  have htodo : ∀ {k : ℕ} {ip}, (lib.v4.order e.world.2.randV4)[k]? = some ip →
      (k ∈ lib.v4.todo (lib.v4.restore e.world.2.ipv4s e.world.2.randV4 r₁).1 ↔
        ¬ AllEnded ts.ports e.log ip) := by
    intro k ip hk
    rw [mem_restored_iff r₁ hk, hdone hk]
  have hstep : ∀ ip ∈ ts.ipv4s, ∃ k : ℕ, (lib.v4.order e.world.2.randV4)[k]? = some ip :=
    fun ip hip => exists_step hs (hips ▸ hip)
  have hnot : ∀ {ip p}, p ∈ ts.ports → (⟨ip, p⟩ : Target) ∉ endedTargets e.log →
      ¬ AllEnded ts.ports e.log ip := fun hp hnot hall => hnot (hall _ hp)
  cases hrest : lib.v4.todo (lib.v4.restore e.world.2.ipv4s e.world.2.randV4 r₁).1 with
  | nil =>
    refine ⟨⟨0, fun ip hip p hp hend => ?_⟩, fun t ht => ?_⟩
    · obtain ⟨k, hk⟩ := hstep ip hip
      have hmem := (htodo hk).mpr (hnot hp hend)
      simp [hrest] at hmem
    · exact absurd ht (hs.restored_yields_nothing hrest)
  | cons k ks =>
    refine ⟨⟨((lib.v4.order e.world.2.randV4)[k]?).getD 0, fun ip hip p hp hend => ?_⟩,
      fun t ht => ?_⟩
    · obtain ⟨j, hj⟩ := hstep ip hip
      have hmem := (htodo hj).mpr (hnot hp hend)
      rw [hrest] at hmem
      rw [hs.restored_yields hrest, hports]
      rcases List.mem_cons.mp hmem with rfl | hmem
      · by_cases hleft : p ∈ lib.port.rest e.world.2.randPort
        · exact Or.inl (Or.inl ⟨hj, hleft⟩)
        · exact Or.inr ⟨by rw [hj]; rfl, hleft⟩
      · exact Or.inl (Or.inr ⟨j, hmem, hj, hp⟩)
    · rw [hs.restored_yields hrest] at ht
      rcases ht with ⟨hk, -⟩ | ⟨j, hj, hk, -⟩
      · exact (htodo hk).mp (hrest ▸ List.mem_cons_self)
      · exact (htodo hk).mp (hrest ▸ List.mem_cons_of_mem k hj)

/-- What is lost between a save and a restore belongs to one address, and no address that has ended
is given again. -/
theorem crash_loses_one_address (w : World ω F) (cfg : Config F) (lib : Leeloo γ δ ρ) (stray : ℕ)
    (o : ω) (ts : IPV4TargetSet γ δ ρ) (hl : Enumerable ts.ipv4s ts.ports)
    (hres : NoneReserved ts.ipv4s ts.ports) {fuel n : ℕ} {b : Bool}
    (h : (launch (w.withTargets (targetSet lib stray)) cfg fuel n).runFrom (.init cfg (o, ts)) =
      (.ok b, e)) (hsame : SameFds e)
    (hstarted : ∀ ip, AllEnded ts.ports e.log ip → StartedIn e.log ip) (r₁ r₂ : ρ) :
    (∃ lost, ∀ ip ∈ ts.ipv4s, ∀ p ∈ ts.ports, ⟨ip, p⟩ ∉ endedTargets e.log →
      (e.world.2.restoreState lib r₁ r₂).Yields lib ⟨ip, p⟩ ∨
        ip = lost ∧ p ∉ lib.port.rest e.world.2.randPort) ∧
    ∀ t, (e.world.2.restoreState lib r₁ r₂).Yields lib t → ¬ AllEnded ts.ports e.log t.ipv4 := by
  have hresumed := launch_resumed w cfg lib stray o ts hl hres h hsame hstarted r₁ r₂
  exact ⟨hresumed.again, hresumed.not_ended⟩

/-- In the first round both ports of the first address run into their timeout. -/
theorem smallScan_ended : endedTargets (smallScan 2 1).2.log = [⟨1, ⟨443, .tcp⟩⟩, ⟨1, ⟨80, .tcp⟩⟩] := by
  decide +kernel

theorem smallScan_started (ip : UInt32) (h : AllEnded small.ports (smallScan 2 1).2.log ip) :
    StartedIn (smallScan 2 1).2.log ip := by
  have hmem := h ⟨80, .tcp⟩ (by decide)
  rw [smallScan_ended] at hmem
  have hip : ip = 1 := by simpa using hmem
  have hcall : (⟨⟨1, ⟨80, .tcp⟩⟩, EINPROGRESS⟩ : Target × ℤ) ∈ connectCalls (smallScan 2 1).2.log := by
    decide +kernel
  exact ⟨_, hcall, hip.symm, Or.inr rfl⟩

theorem smallScan_ok : (smallScan 2 1).1 = .ok false := by decide +kernel

theorem smallScan_sameFds : SameFds (smallScan 2 1).2 := by decide +kernel

theorem step_done_iff_small :
    (smallScan 2 1).1 = .ok false ∧ SameFds (smallScan 2 1).2 ∧
      ∀ k, k ∈ Leeloo.inOrder.v4.done (smallScan 2 1).2.world.2.randV4 ↔
        (∃ ip, (Leeloo.inOrder.v4.order (smallScan 2 1).2.world.2.randV4)[k]? = some ip ∧
          AllEnded small.ports (smallScan 2 1).2.log ip ∧ StartedIn (smallScan 2 1).2.log ip) ∨
        k = 0 ∧ ∃ ip, AllEnded small.ports (smallScan 2 1).2.log ip ∧
          ¬ StartedIn (smallScan 2 1).2.log ip := by
  refine ⟨smallScan_ok, smallScan_sameFds, fun k => ?_⟩
  exact step_done_iff _ _ Leeloo.inOrder 0 _ small ⟨by decide, by decide, by decide, by decide⟩
    (by decide) (smallScan_eq smallScan_ok) smallScan_sameFds k

theorem crash_loses_one_address_small :
    ∃ lost, ∀ ip ∈ small.ipv4s, ∀ p ∈ small.ports,
      ⟨ip, p⟩ ∉ endedTargets (smallScan 2 1).2.log →
        ((smallScan 2 1).2.world.2.restoreState Leeloo.inOrder () ()).Yields Leeloo.inOrder ⟨ip, p⟩ ∨
          ip = lost ∧ p ∉ Leeloo.inOrder.port.rest (smallScan 2 1).2.world.2.randPort :=
  (crash_loses_one_address _ _ Leeloo.inOrder 0 _ small
    ⟨by decide, by decide, by decide, by decide⟩ (by decide) (smallScan_eq smallScan_ok)
    smallScan_sameFds smallScan_started () ()).1

end IPV4TargetSet

end Nodescan
