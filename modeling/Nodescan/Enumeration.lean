import Nodescan.Draws
import Nodescan.TargetSets

/-!
# The enumeration of a target set

`next_target` takes the ports of the current address one by one and turns to the next address at
the start of the call after the last port. Seen over a whole enumeration, the targets come in
blocks, one for each address, and the end is reached after the last port of the last address and
then stays.
-/

namespace Nodescan
namespace IPV4TargetSet

variable {γ δ ρ : Type} (lib : Leeloo γ δ ρ)

/-- The set stands at the first of `steps`, with the ports `q` of that address to come. -/
structure At (ts : IPV4TargetSet γ δ ρ) (steps : List ℕ) (q : List Port) : Prop where
  order : (lib.v4.order ts.randV4).Perm ts.ipv4s
  todo : lib.v4.todo ts.randV4 = steps
  rest : lib.port.rest ts.randPort = q
  size : lib.port.sizeOriginal ts.randPort = ts.ports.length

/-- The lists and the permutation of the addresses are as before, and so are the steps done. -/
structure SameScan (ts ts' : IPV4TargetSet γ δ ρ) : Prop where
  ipv4s : ts'.ipv4s = ts.ipv4s
  ports : ts'.ports = ts.ports
  order : lib.v4.order ts'.randV4 = lib.v4.order ts.randV4
  done : lib.v4.done ts'.randV4 = lib.v4.done ts.randV4

def ipAt (ts : IPV4TargetSet γ δ ρ) (k : ℕ) : UInt32 := (lib.v4.order ts.randV4).getD k 0

/-- The targets of the addresses `ips` in blocks, the ports of each in some order. -/
inductive Blocks (ports : List Port) : List UInt32 → List Target → Prop
  | nil : Blocks ports [] []
  | cons {ip : UInt32} {ips : List UInt32} {q : List Port} {l : List Target} :
      q.Perm ports → Blocks ports ips l →
        Blocks ports (ip :: ips) (q.map (Target.mk ip) ++ l)

variable {lib} {ts ts' ts'' : IPV4TargetSet γ δ ρ} {k : ℕ} {ks : List ℕ} {p : Port}
  {q : List Port}

theorem SameScan.refl (ts : IPV4TargetSet γ δ ρ) : SameScan lib ts ts := ⟨rfl, rfl, rfl, rfl⟩

theorem SameScan.trans (h : SameScan lib ts ts') (h' : SameScan lib ts' ts'') :
    SameScan lib ts ts'' :=
  ⟨h'.ipv4s.trans h.ipv4s, h'.ports.trans h.ports, h'.order.trans h.order, h'.done.trans h.done⟩

theorem SameScan.ipAt (h : SameScan lib ts ts') (k : ℕ) : ts'.ipAt lib k = ts.ipAt lib k := by
  rw [IPV4TargetSet.ipAt, IPV4TargetSet.ipAt, h.order]

theorem At.getCurrent (h : At lib ts (k :: ks) q) :
    lib.v4.getCurrent ts.ipv4s ts.randV4 = ts.ipAt lib k := by
  have hk := lib.v4.getCurrent_eq h.order h.todo
  rw [ipAt, List.getD_eq_getElem?_getD, hk, Option.getD_some]

theorem At.no_turn (h : At lib ts ks q) (hq : q ≠ []) : ts.advance lib = ts := by
  have hend : ¬ lib.port.isEnd ts.randPort = true := by
    rw [lib.port.isEnd_iff, h.rest]
    exact hq
  rw [IPV4TargetSet.advance, if_neg hend]

theorem At.drawn (h : At lib ts (k :: ks) (p :: q)) :
    (ts.nextTarget lib).1 = ⟨ts.ipAt lib k, p⟩ ∧ At lib (ts.nextTarget lib).2 (k :: ks) q ∧
      SameScan lib ts (ts.nextTarget lib).2 := by
  have hend : ¬ lib.v4.isEnd ts.randV4 = true := by
    rw [lib.v4.isEnd_iff, h.todo]
    simp
  obtain ⟨hp, hrest⟩ : (lib.port.draw ts.ports ts.randPort).1 = p ∧
      lib.port.rest (lib.port.draw ts.ports ts.randPort).2 = q := lib.port.draw_eq h.rest
  have hsize := (lib.port.draw_size ts.ports ts.randPort).trans h.size
  have heq : ts.nextTarget lib = (⟨ts.ipAt lib k, p⟩,
      { ts with randPort := (lib.port.draw ts.ports ts.randPort).2 }) := by
    simp only [nextTarget, h.no_turn (List.cons_ne_nil p q), if_neg hend, hp, h.getCurrent]
  rw [heq]
  exact ⟨rfl, ⟨h.order, h.todo, hrest, hsize⟩, rfl, rfl, rfl, rfl⟩

theorem At.block (h : At lib ts (k :: ks) q) :
    draws (nextTarget lib) q.length ts = q.map (Target.mk (ts.ipAt lib k)) ∧
      At lib (afterDraws (nextTarget lib) q.length ts) (k :: ks) [] ∧
      SameScan lib ts (afterDraws (nextTarget lib) q.length ts) := by
  induction q generalizing ts with
  | nil => exact ⟨rfl, h, SameScan.refl ts⟩
  | cons p q ih =>
    obtain ⟨hp, hat, hsame⟩ := h.drawn
    obtain ⟨hd, hat', hsame'⟩ := ih hat
    refine ⟨?_, hat', hsame.trans hsame'⟩
    rw [List.length_cons, draws, hp, hd, List.map_cons, hsame.ipAt]

theorem At.turn (h : At lib ts ks []) :
    ∃ q, q.Perm ts.ports ∧ At lib (ts.advance lib) ks.tail q ∧
      SameScan lib ts (ts.advance lib) := by
  have hend : lib.port.isEnd ts.randPort = true := by rw [lib.port.isEnd_iff, h.rest]
  have hperm := lib.port.init_rest ts.ports ts.mtRandPorts
  refine ⟨lib.port.rest (lib.port.init ts.ports ts.mtRandPorts).1, hperm, ?_⟩
  rw [IPV4TargetSet.advance, if_pos hend]
  constructor
  · refine ⟨?_, ?_, rfl, lib.port.init_size _ _⟩
    · simpa only [lib.v4.next_order] using h.order
    · simp only [lib.v4.next_todo, h.todo]
  · exact ⟨rfl, rfl, lib.v4.next_order _, lib.v4.next_done _⟩

theorem nextTarget_advance (h : At lib ts ks []) (hports : ts.ports ≠ []) :
    (ts.advance lib).nextTarget lib = ts.nextTarget lib := by
  obtain ⟨q, hq, hat, _⟩ := h.turn
  have hne : q ≠ [] := fun hnil => hports (by rwa [hnil, List.nil_perm] at hq)
  rw [IPV4TargetSet.nextTarget, hat.no_turn hne, IPV4TargetSet.nextTarget]

theorem length_pos_of_ports (hports : ts.ports ≠ []) : 0 < ts.ports.length :=
  List.length_pos_iff.mpr hports

theorem At.rounds (h : At lib ts (k :: ks) []) (hports : ts.ports ≠ []) :
    Blocks ts.ports (ks.map (ts.ipAt lib))
        (draws (nextTarget lib) (ks.length * ts.ports.length) ts) ∧
      (∃ k', At lib (afterDraws (nextTarget lib) (ks.length * ts.ports.length) ts) [k'] []) ∧
      SameScan lib ts (afterDraws (nextTarget lib) (ks.length * ts.ports.length) ts) := by
  induction ks generalizing ts k with
  | nil =>
    rw [List.length_nil, Nat.zero_mul]
    exact ⟨.nil, ⟨k, h⟩, SameScan.refl ts⟩
  | cons k' ks ih =>
    obtain ⟨q, hq, hat, hsame⟩ := h.turn
    obtain ⟨hd, hat₁, hsame₁⟩ := hat.block
    have hlen : q.length = ts.ports.length := hq.length_eq
    have hstart := Draws.draws_congr (nextTarget_advance h hports).symm
      (length_pos_of_ports hports)
    rw [hlen, ← hstart.2] at hat₁ hsame₁
    rw [hlen, ← hstart.1] at hd
    have hsame₂ := hsame.trans hsame₁
    have hports₁ : (afterDraws (nextTarget lib) ts.ports.length ts).ports = ts.ports :=
      hsame₂.ports
    have hrest := ih hat₁ (by rwa [hports₁])
    rw [hports₁] at hrest
    have hmul : (k' :: ks).length * ts.ports.length =
        ts.ports.length + ks.length * ts.ports.length := by
      rw [List.length_cons, Nat.succ_mul, Nat.add_comm]
    rw [hmul, Draws.draws_add, Draws.afterDraws_add, hd, List.map_cons, hsame.ipAt]
    have hips : ks.map ((afterDraws (nextTarget lib) ts.ports.length ts).ipAt lib) =
        ks.map (ts.ipAt lib) :=
      List.map_congr_left (fun j _ => hsame₂.ipAt j)
    rw [hips] at hrest
    exact ⟨.cons hq hrest.1, hrest.2.1, hsame₂.trans hrest.2.2⟩

theorem At.drain (h : At lib ts (k :: ks) q) (hports : ts.ports ≠ []) :
    ∃ l, draws (nextTarget lib) (q.length + ks.length * ts.ports.length) ts =
        q.map (Target.mk (ts.ipAt lib k)) ++ l ∧ Blocks ts.ports (ks.map (ts.ipAt lib)) l ∧
      (∃ k', At lib (afterDraws (nextTarget lib) (q.length + ks.length * ts.ports.length) ts)
        [k'] []) ∧
      SameScan lib ts
        (afterDraws (nextTarget lib) (q.length + ks.length * ts.ports.length) ts) := by
  obtain ⟨hd, hat, hsame⟩ := h.block
  have hr := hat.rounds (by rwa [hsame.ports])
  have hips : ks.map ((afterDraws (IPV4TargetSet.nextTarget lib) q.length ts).ipAt lib) =
      ks.map (ts.ipAt lib) :=
    List.map_congr_left (fun j _ => hsame.ipAt j)
  rw [hsame.ports, hips] at hr
  rw [Draws.draws_add, Draws.afterDraws_add, hd]
  exact ⟨_, rfl, hr.1, hr.2.1, hsame.trans hr.2.2⟩

theorem At.ended (h : At lib ts [] q) (hq : q ≠ []) : ts.nextTarget lib = (.endMark, ts) := by
  have hend : lib.v4.isEnd ts.randV4 = true := by rw [lib.v4.isEnd_iff, h.todo]
  rw [IPV4TargetSet.nextTarget, h.no_turn hq, if_pos hend]

theorem At.end_stays (h : At lib ts [k] []) (hports : ts.ports ≠ []) (n : ℕ) :
    ((afterDraws (nextTarget lib) n ts).nextTarget lib).1 = .endMark := by
  obtain ⟨q, hq, hat, _⟩ := h.turn
  have hne : q ≠ [] := fun hnil => hports (by rwa [hnil, List.nil_perm] at hq)
  have hend := hat.ended hne
  have hstay : ∀ n, afterDraws (nextTarget lib) n (ts.advance lib) = ts.advance lib := by
    intro n
    induction n with
    | zero => rfl
    | succ n ih => rw [afterDraws, hend, ih]
  cases n with
  | zero => rw [afterDraws, ← nextTarget_advance h hports, hend]
  | succ n => rw [afterDraws, ← nextTarget_advance h hports, hend, hstay, hend]

theorem init_at (ts : IPV4TargetSet γ δ ρ) :
    ∃ q, q.Perm ts.ports ∧ At lib (ts.init lib) (List.range ts.ipv4s.length) q :=
  ⟨_, lib.port.init_rest ts.ports ts.mtRandPorts, lib.v4.init_order _ _, lib.v4.init_todo _ _, rfl,
    lib.port.init_size _ _⟩

theorem map_ipAt_range (h : (lib.v4.order ts.randV4).Perm ts.ipv4s) :
    (List.range ts.ipv4s.length).map (ts.ipAt lib) = lib.v4.order ts.randV4 := by
  apply List.ext_getElem
  · simp [h.length_eq]
  · intro i hi hi'
    simp [ipAt, List.getD_eq_getElem?_getD, hi']

theorem Blocks.perm {ports : List Port} {ips : List UInt32} {l : List Target}
    (h : Blocks ports ips l) : l.Perm (ips.flatMap fun ip => ports.map (Target.mk ip)) := by
  induction h with
  | nil => exact List.Perm.refl []
  | cons hq _ ih =>
    rw [List.flatMap_cons]
    exact (hq.map _).append ih

/-- Every pair of an address and a port exactly once, all ports of an address together. -/
structure CompleteEnumeration (ips : List UInt32) (ports : List Port) (l : List Target) : Prop where
  perm : l.Perm ((ips ×ˢ ports).map fun x => ⟨x.1, x.2⟩)
  nodup : l.Nodup
  blocks : ∃ order, order.Perm ips ∧ Blocks ports order l

theorem CompleteEnumeration.of_blocks {ips order : List UInt32} {ports : List Port}
    {l : List Target} (hi : ips.Nodup) (hp : ports.Nodup) (ho : order.Perm ips)
    (h : Blocks ports order l) : CompleteEnumeration ips ports l := by
  have hprod : ∀ is : List UInt32, (is ×ˢ ports).map (fun x => (⟨x.1, x.2⟩ : Target)) =
      is.flatMap fun ip => ports.map (Target.mk ip) := by
    intro is
    induction is with
    | nil => rfl
    | cons ip is ih =>
      rw [List.product_cons, List.map_append, ih, List.flatMap_cons, List.map_map]
      rfl
  have hperm : l.Perm ((ips ×ˢ ports).map fun x => ⟨x.1, x.2⟩) := by
    rw [hprod]
    exact h.perm.trans (ho.flatMap_right _)
  refine ⟨hperm, ?_, order, ho, h⟩
  rw [hperm.nodup_iff]
  apply (hi.product hp).map
  rintro ⟨a, b⟩ ⟨a', b'⟩ heq
  obtain ⟨ha, hb⟩ := Target.mk.inj heq
  exact Prod.ext ha hb

/-- Lists that have a product to enumerate. -/
structure Enumerable (ips : List UInt32) (ports : List Port) : Prop where
  ips_nodup : ips.Nodup
  ports_nodup : ports.Nodup
  ips_ne : ips ≠ []
  ports_ne : ports ≠ []

theorem Enumerable.pos {ips : List UInt32} {ports : List Port} (h : Enumerable ips ports) :
    0 < ips.length * ports.length :=
  Nat.mul_pos (List.length_pos_iff.mpr h.ips_ne) (List.length_pos_iff.mpr h.ports_ne)

/-- The start of an enumeration. -/
structure Fresh (lib : Leeloo γ δ ρ) (ips : List UInt32) (ports : List Port)
    (ts : IPV4TargetSet γ δ ρ) : Prop where
  at_start : ∃ q, q.Perm ports ∧ At lib ts (List.range ips.length) q
  ipv4s_eq : ts.ipv4s = ips
  ports_eq : ts.ports = ports

theorem Fresh.enumerates {ips : List UInt32} {ports : List Port} (h : Fresh lib ips ports ts)
    (hl : Enumerable ips ports) :
    CompleteEnumeration ips ports (draws (nextTarget lib) (ips.length * ports.length) ts) ∧
      (∃ k', At lib (afterDraws (nextTarget lib) (ips.length * ports.length) ts) [k'] []) ∧
      SameScan lib ts (afterDraws (nextTarget lib) (ips.length * ports.length) ts) := by
  obtain ⟨⟨q, hq, hat⟩, rfl, rfl⟩ := h
  have hpos : 0 < ts.ipv4s.length := List.length_pos_iff.mpr hl.ips_ne
  obtain ⟨n, hn⟩ : ∃ n, ts.ipv4s.length = n + 1 := ⟨ts.ipv4s.length - 1, by omega⟩
  have hips := map_ipAt_range hat.order
  have ho := hat.order
  rw [hn, List.range_succ_eq_map] at hat hips
  obtain ⟨l, hd, hb, hend, hsame⟩ := hat.drain hl.ports_ne
  have hlen : q.length + (List.map Nat.succ (List.range n)).length * ts.ports.length =
      ts.ipv4s.length * ts.ports.length := by
    rw [hq.length_eq, List.length_map, List.length_range, hn, Nat.succ_mul, Nat.add_comm]
  rw [hlen] at hd hend hsame
  refine ⟨?_, hend, hsame⟩
  rw [hd]
  apply CompleteEnumeration.of_blocks hl.ips_nodup hl.ports_nodup ho
  rw [← hips, List.map_cons]
  exact .cons hq hb

section Repeatable

variable {ips : List UInt32} {ports : List Port}

/-- No pair of the product is the value that announces the end. -/
def NoneReserved (ips : List UInt32) (ports : List Port) : Prop :=
  ∀ ip ∈ ips, ∀ p ∈ ports, (⟨ip, p⟩ : Target).isEnd = false

instance (ips : List UInt32) (ports : List Port) : Decidable (NoneReserved ips ports) :=
  List.decidableBAll (fun ip => ∀ p ∈ ports, (⟨ip, p⟩ : Target).isEnd = false) ips

theorem CompleteEnumeration.not_isEnd {l : List Target} (h : CompleteEnumeration ips ports l)
    (hres : NoneReserved ips ports) {t : Target} (ht : t ∈ l) : t.isEnd = false := by
  rw [h.perm.mem_iff, List.mem_map] at ht
  obtain ⟨⟨ip, p⟩, hmem, rfl⟩ := ht
  obtain ⟨hip, hport⟩ := List.mem_product.mp hmem
  exact hres ip hip p hport

theorem init_fresh (hi : ts.ipv4s = ips) (hp : ts.ports = ports) :
    Fresh lib ips ports (ts.init lib) := by
  subst hi hp
  exact ⟨init_at ts, rfl, rfl⟩

/-- Over one enumeration the repeatable set gives what the plain one gives. -/
theorem Fresh.repeatable (h : Fresh lib ips ports ts) (hl : Enumerable ips ports)
    (hres : NoneReserved ips ports) :
    draws (nextTarget lib) (ips.length * ports.length) ts =
        draws (repeatableNextTarget lib) (ips.length * ports.length) ts ∧
      afterDraws (nextTarget lib) (ips.length * ports.length) ts =
        afterDraws (repeatableNextTarget lib) (ips.length * ports.length) ts := by
  have henum := (h.enumerates hl).1
  apply Draws.draws_eq_of_agree
  intro m hm
  have hmem := List.mem_of_getElem? (Draws.getElem?_draws (nextTarget lib) ts hm)
  rw [repeatableNextTarget, henum.not_isEnd hres hmem]
  rfl

/-- Between two rounds the repeatable set is at a start, or past the last port. -/
def Between (lib : Leeloo γ δ ρ) (ips : List UInt32) (ports : List Port)
    (ts : IPV4TargetSet γ δ ρ) : Prop :=
  Fresh lib ips ports ts ∨ (∃ k, At lib ts [k] []) ∧ ts.ipv4s = ips ∧ ts.ports = ports

theorem Fresh.round (h : Fresh lib ips ports ts) (hl : Enumerable ips ports)
    (hres : NoneReserved ips ports) :
    CompleteEnumeration ips ports
        (draws (repeatableNextTarget lib) (ips.length * ports.length) ts) ∧
      Between lib ips ports
        (afterDraws (repeatableNextTarget lib) (ips.length * ports.length) ts) := by
  obtain ⟨henum, hend, hsame⟩ := h.enumerates hl
  obtain ⟨hd, ha⟩ := h.repeatable hl hres
  rw [← hd, ← ha]
  exact ⟨henum, Or.inr ⟨hend, hsame.ipv4s.trans h.ipv4s_eq, hsame.ports.trans h.ports_eq⟩⟩

theorem Between.round (h : Between lib ips ports ts) (hl : Enumerable ips ports)
    (hres : NoneReserved ips ports) :
    CompleteEnumeration ips ports
        (draws (repeatableNextTarget lib) (ips.length * ports.length) ts) ∧
      Between lib ips ports
        (afterDraws (repeatableNextTarget lib) (ips.length * ports.length) ts) := by
  rcases h with h | ⟨⟨k, hat⟩, hips, hports⟩
  · exact h.round hl hres
  · -- the call finds the end, starts again and answers the first target of the new round
    have hpos := hl.pos
    obtain ⟨q, hq, hturn, hsame⟩ := hat.turn
    have hne : q ≠ [] := fun hnil => hl.ports_ne (by rwa [hnil, hports, List.nil_perm] at hq)
    have hend : ts.nextTarget lib = (.endMark, ts.advance lib) := by
      rw [← nextTarget_advance hat (by rw [hports]; exact hl.ports_ne), hturn.ended hne]
    have hfresh : Fresh lib ips ports ((ts.advance lib).init lib) :=
      init_fresh (hsame.ipv4s.trans hips) (hsame.ports.trans hports)
    have hfirst : ((ts.advance lib).init lib).nextTarget lib =
        repeatableNextTarget lib ((ts.advance lib).init lib) := by
      have hmem := List.mem_of_getElem?
        (Draws.getElem?_draws (nextTarget lib) ((ts.advance lib).init lib) hpos)
      have hnot := (hfresh.enumerates hl).1.not_isEnd hres hmem
      rw [afterDraws] at hnot
      rw [repeatableNextTarget, hnot]
      rfl
    have hstep : repeatableNextTarget lib ts =
        repeatableNextTarget lib ((ts.advance lib).init lib) := by
      rw [← hfirst, repeatableNextTarget, hend]
      rfl
    obtain ⟨hd, ha⟩ := Draws.draws_congr hstep hpos
    rw [hd, ha]
    exact hfresh.round hl hres

theorem repeatable_rounds (lib : Leeloo γ δ ρ) (ts : IPV4TargetSet γ δ ρ)
    (hl : Enumerable ts.ipv4s ts.ports) (hres : NoneReserved ts.ipv4s ts.ports) (r : ℕ) :
    Between lib ts.ipv4s ts.ports (afterDraws (repeatableNextTarget lib)
      (r * (ts.ipv4s.length * ts.ports.length)) (ts.init lib)) := by
  induction r with
  | zero =>
    rw [Nat.zero_mul]
    exact Or.inl (init_fresh rfl rfl)
  | succ r ih =>
    rw [Nat.succ_mul, Draws.afterDraws_add]
    exact (ih.round hl hres).2

end Repeatable

/-- The plain set enumerates the product once and then answers the end; the repeatable set
enumerates it again and again and never answers the end. -/
theorem exact_enumeration (lib : Leeloo γ δ ρ) (ts : IPV4TargetSet γ δ ρ)
    (hl : Enumerable ts.ipv4s ts.ports) (hres : NoneReserved ts.ipv4s ts.ports) :
    (CompleteEnumeration ts.ipv4s ts.ports
        (draws (nextTarget lib) (ts.ipv4s.length * ts.ports.length) (ts.init lib)) ∧
      ∀ n, ts.ipv4s.length * ts.ports.length ≤ n →
        ((afterDraws (nextTarget lib) n (ts.init lib)).nextTarget lib).1 = .endMark) ∧
    (∀ n, (repeatableNextTarget lib
        (afterDraws (repeatableNextTarget lib) n (ts.init lib))).1.isEnd = false) ∧
    ∀ r, CompleteEnumeration ts.ipv4s ts.ports
      (draws (repeatableNextTarget lib) (ts.ipv4s.length * ts.ports.length)
        (afterDraws (repeatableNextTarget lib) (r * (ts.ipv4s.length * ts.ports.length))
          (ts.init lib))) := by
  have hfresh : Fresh lib ts.ipv4s ts.ports (ts.init lib) := init_fresh rfl rfl
  obtain ⟨henum, ⟨k, hend⟩, hsame⟩ := hfresh.enumerates hl
  have hrounds := fun r =>
    ((repeatable_rounds lib ts hl hres r).round hl hres).1
  refine ⟨⟨henum, fun n hn => ?_⟩, fun n => ?_, hrounds⟩
  · obtain ⟨m, rfl⟩ := Nat.exists_eq_add_of_le hn
    rw [Draws.afterDraws_add]
    exact hend.end_stays (by rw [hsame.ports]; exact hl.ports_ne) m
  · -- the call is number `n % N` of the round `n / N`
    have hdiv := Nat.div_add_mod n (ts.ipv4s.length * ts.ports.length)
    rw [Nat.mul_comm] at hdiv
    have hmem := List.mem_of_getElem? (Draws.getElem?_draws (repeatableNextTarget lib)
      (afterDraws (repeatableNextTarget lib)
        (n / (ts.ipv4s.length * ts.ports.length) * (ts.ipv4s.length * ts.ports.length))
        (ts.init lib)) (Nat.mod_lt n hl.pos))
    rw [← Draws.afterDraws_add, hdiv] at hmem
    exact (hrounds _).not_isEnd hres hmem

/-- Two addresses and two ports, in the order of their lists. -/
def small : IPV4TargetSet InOrder (List Port × ℕ) Unit where
  ipv4s := [1, 2]
  ports := [⟨80, .tcp⟩, ⟨443, .tcp⟩]
  randV4 := ⟨[], [], ∅, by simp⟩
  randPort := ([], 0)
  mtRandIps := ()
  mtRandPorts := ()

theorem exact_enumeration_small :
    CompleteEnumeration [1, 2] [⟨80, .tcp⟩, ⟨443, .tcp⟩]
        (draws (nextTarget Leeloo.inOrder) 4 (small.init Leeloo.inOrder)) ∧
      ∀ n, (repeatableNextTarget Leeloo.inOrder (afterDraws (repeatableNextTarget Leeloo.inOrder) n
        (small.init Leeloo.inOrder))).1.isEnd = false := by
  have h := exact_enumeration Leeloo.inOrder small ⟨by decide, by decide, by decide, by decide⟩
    (by decide)
  have hn : small.ipv4s.length * small.ports.length = 4 := rfl
  rw [hn] at h
  exact ⟨h.1.1, h.2.1⟩

end IPV4TargetSet
end Nodescan
