import Nodescan.Buffer

/-!
# When the receive buffer is as large as it claims

The bytes asked for are counted in 32 bits, four for each element, and so is the size of the buffer.
For most sizes from `2 ^ 30` on the request wraps to less than the size; from `2 ^ 32` on the size
itself wraps. Up to there a buffer whose request was large enough stays large enough.
-/

namespace Nodescan

open BlockHeap

variable {ω : Type}

/-- What is done to the receive buffer of a connection. -/
inductive SizeOp
  | growBy (n : UInt32)
  | popBy (n : UInt32)
  | free
  deriving DecidableEq, Repr

/-- The number of bytes last asked of the allocator. -/
def lastRequest (h : Heap ω) : ℕ := h.requests.headD 0

namespace SizeOp

def run (A : Allocator ω) (b : Buffer) (h : Heap ω) : SizeOp → Option (Buffer × Heap ω)
  | .growBy n => (b.growBy .lvl4 A n.toNat h).map (·.2)
  | .popBy n => b.popBy .lvl4 n.toNat h
  | .free => b.free h

def InBounds (b : Buffer) : SizeOp → Prop
  | .popBy n => n.toNat ≤ b.size
  | _ => True

/-- The size after the operation is covered by the last request, and `grow_by` has added what it
was asked to. -/
def Right (A : Allocator ω) (b : Buffer) (h : Heap ω) (op : SizeOp) : Prop :=
  ∃ b' h', op.run A b h = some (b', h') ∧ b'.size ≤ lastRequest h' ∧
    ∀ n, op = .growBy n → b'.size = b.size + n.toNat

/-- Four times `m`, in 32 bits, is at least `m`. -/
def Requestable (m : ℕ) : Prop :=
  m < 2 ^ 30 ∨ 1431655766 ≤ m ∧ m < 2 ^ 31 ∨ 2863311531 ≤ m ∧ m < 3 * 2 ^ 30

/-- A `grow_by` to a size of 32 bits that there is room for or that can be requested. -/
def Safe (b : Buffer) : SizeOp → Prop
  | .growBy n => b.size + n.toNat < 2 ^ 32 ∧
      (b.HasRoom (b.size + n.toNat) ∨ Requestable (b.size + n.toNat))
  | _ => True

/-- Each operation of the sequence is `P` of the state it finds. -/
def Along (A : Allocator ω) (P : Buffer → Heap ω → SizeOp → Prop) :
    List SizeOp → Buffer → Heap ω → Prop
  | [], _, _ => True
  | op :: ops, b, h => P b h op ∧ ∀ b' h', op.run A b h = some (b', h') → Along A P ops b' h'

/-- The last request covers the allocated size, and this one the size. -/
structure Covered (b : Buffer) (h : Heap ω) : Prop extends b.Backed .lvl4 h where
  size_le : b.size ≤ b.allocatedSize
  allocatedSize_le : b.allocatedSize ≤ Buffer.sizeBuf .lvl4 b.allocatedSize
  requested : Buffer.sizeBuf .lvl4 b.allocatedSize ≤ lastRequest h

variable {A : Allocator ω} {b b' : Buffer} {h h' : Heap ω}

theorem covered_empty (h : Heap ω) : Covered .empty h where
  toBacked := Buffer.backed_empty h
  size_le := le_rfl
  allocatedSize_le := Nat.zero_le _
  requested := Nat.zero_le _

theorem Covered.size_le_lastRequest (hb : Covered b h) : b.size ≤ lastRequest h :=
  (hb.size_le.trans hb.allocatedSize_le).trans hb.requested

theorem wrap_lvl4_eq_self_iff {m : ℕ} : Layout.lvl4.wrap m = m ↔ m < 2 ^ 32 := by
  simp only [Layout.wrap, Layout.lvl4]
  omega

theorem requestable_iff {m : ℕ} (hm : m < 2 ^ 32) :
    Requestable m ↔ m ≤ Buffer.sizeBuf .lvl4 m := by
  simp only [Requestable, Buffer.sizeBuf, Layout.wrap, Layout.lvl4]
  omega

theorem growBy_run (A : Allocator ω) (hb : b.Backed .lvl4 h) (n : UInt32) :
    ∃ b' h', b.Allocated .lvl4 (Layout.lvl4.wrap (b.size + n.toNat)) h b' h' ∧
      (SizeOp.growBy n).run A b h =
        some ({ b' with bufPos := Layout.lvl4.wrap (b.size + n.toNat) }, h') := by
  obtain ⟨b', h', hrun, ha⟩ := Buffer.allocate_spec A hb (Layout.lvl4.wrap (b.size + n.toNat))
  refine ⟨b', h', ha, ?_⟩
  simp only [run, Buffer.growBy, hrun, Option.bind_eq_bind, Option.bind_some, Option.map_some,
    ha.size_eq]

theorem growBy_right_iff (hb : Covered b h) (n : UInt32) :
    (SizeOp.growBy n).Right A b h ↔ (SizeOp.growBy n).Safe b := by
  obtain ⟨b', h', ha, hrun⟩ := growBy_run A hb.toBacked n
  have hright : (SizeOp.growBy n).Right A b h ↔ b.size + n.toNat < 2 ^ 32 ∧
      b.size + n.toNat ≤ lastRequest h' := by
    refine (Buffer.exists_run_iff hrun).trans ⟨?_, ?_⟩
    · rintro ⟨hle, hsize⟩
      have hwrap := hsize n rfl
      exact ⟨wrap_lvl4_eq_self_iff.mp hwrap, hwrap ▸ hle⟩
    · rintro ⟨hlt, hle⟩
      have hwrap := wrap_lvl4_eq_self_iff.mpr hlt
      refine ⟨hwrap.trans_le hle, fun m hm => ?_⟩
      rw [← SizeOp.growBy.inj hm]
      exact hwrap
  rw [hright, Safe]
  refine and_congr_right (fun hlt => ?_)
  rw [wrap_lvl4_eq_self_iff.mpr hlt] at ha
  by_cases hroom : b.HasRoom (b.size + n.toNat)
  · have hle := (hroom.2.trans hb.allocatedSize_le).trans hb.requested
    rw [(ha.same hroom).2]
    exact iff_of_true hle (Or.inl hroom)
  · have hlast : lastRequest h' = Buffer.sizeBuf .lvl4 (b.size + n.toNat) := by
      rw [lastRequest, (ha.grown hroom).2.1, List.headD_cons]
    rw [hlast, ← requestable_iff hlt]
    exact (or_iff_right hroom).symm

theorem growBy_covered (hb : Covered b h) {n : UInt32} (hs : (SizeOp.growBy n).Safe b)
    (hrun : (SizeOp.growBy n).run A b h = some (b', h')) : Covered b' h' := by
  obtain ⟨hlt, hreq⟩ := hs
  obtain ⟨b₁, h₁, ha, hrun₁⟩ := growBy_run A hb.toBacked n
  obtain ⟨rfl, rfl⟩ := Prod.mk.inj (Option.some.inj (hrun₁.symm.trans hrun))
  rw [wrap_lvl4_eq_self_iff.mpr hlt] at ha ⊢
  refine ⟨⟨ha.backed.live, ha.backed.length_eq⟩, ha.le, ?_, ?_⟩
  · change b₁.allocatedSize ≤ Buffer.sizeBuf .lvl4 b₁.allocatedSize
    by_cases hroom : b.HasRoom (b.size + n.toNat)
    · rw [(ha.same hroom).1]
      exact hb.allocatedSize_le
    · rw [(ha.grown hroom).1]
      exact (requestable_iff hlt).mp (hreq.resolve_left hroom)
  · change Buffer.sizeBuf .lvl4 b₁.allocatedSize ≤ lastRequest h₁
    by_cases hroom : b.HasRoom (b.size + n.toNat)
    · obtain ⟨rfl, rfl⟩ := ha.same hroom
      exact hb.requested
    · rw [(ha.grown hroom).1, lastRequest, (ha.grown hroom).2.1, List.headD_cons]

theorem popBy_covered (A : Allocator ω) (hb : Covered b h) {n : UInt32} (hn : n.toNat ≤ b.size) :
    ∃ b' h', (SizeOp.popBy n).run A b h = some (b', h') ∧ Covered b' h' := by
  have hin : n.toNat * Layout.lvl4.sizeofValue + (b.size - n.toNat) ≤
      (h.block b.buffer).length := by
    have hle := hb.size_le.trans hb.allocatedSize_le
    rw [hb.length_eq, Layout.lvl4, Nat.mul_one]
    rw [Layout.lvl4] at hle
    omega
  obtain ⟨b', h', hrun, hback, _, hcap, hsize, _, _, hreq⟩ := Buffer.popBy_spec hb.toBacked hn hin
  refine ⟨b', h', hrun, hback, ?_, ?_, ?_⟩
  · rw [hsize, hcap]
    exact (Nat.sub_le _ _).trans hb.size_le
  · rw [hcap]
    exact hb.allocatedSize_le
  · rw [hcap, lastRequest, hreq]
    exact hb.requested

theorem free_covered (A : Allocator ω) (hb : Covered b h) :
    ∃ b' h', SizeOp.free.run A b h = some (b', h') ∧ Covered b' h' := by
  obtain ⟨p, cap, pos⟩ := b
  cases p with
  | none => exact ⟨_, h, rfl, hb⟩
  | some a =>
    obtain ⟨h', hfree, _, _⟩ := Heap.free_spec hb.live
    refine ⟨.empty, h', ?_, covered_empty h'⟩
    simp only [run, Buffer.free, hfree, Option.bind_eq_bind, Option.bind_some]
    rfl

theorem right_iff_safe (hb : Covered b h) {op : SizeOp} (hop : op.InBounds b) :
    (op.Right A b h ↔ op.Safe b) ∧
      (op.Safe b → ∀ b' h', op.run A b h = some (b', h') → Covered b' h') := by
  have hother : ∀ {b₁ h₁}, op.run A b h = some (b₁, h₁) → Covered b₁ h₁ →
      (∀ n, op ≠ .growBy n) → op.Right A b h ∧
        ∀ b' h', op.run A b h = some (b', h') → Covered b' h' := by
    intro b₁ h₁ hrun hc hne
    refine ⟨⟨b₁, h₁, hrun, hc.size_le_lastRequest, fun n hn => absurd hn (hne n)⟩, ?_⟩
    intro b' h' hrun'
    obtain ⟨rfl, rfl⟩ := Prod.mk.inj (Option.some.inj (hrun.symm.trans hrun'))
    exact hc
  cases op with
  | growBy n => exact ⟨growBy_right_iff hb n, fun hs b' h' hrun => growBy_covered hb hs hrun⟩
  | popBy n =>
    obtain ⟨b₁, h₁, hrun, hc⟩ := popBy_covered A hb hop
    obtain ⟨hright, hcov⟩ := hother hrun hc nofun
    exact ⟨iff_of_true hright trivial, fun _ => hcov⟩
  | free =>
    obtain ⟨b₁, h₁, hrun, hc⟩ := free_covered A hb
    obtain ⟨hright, hcov⟩ := hother hrun hc nofun
    exact ⟨iff_of_true hright trivial, fun _ => hcov⟩

theorem along_right_iff (hb : Covered b h) {ops : List SizeOp}
    (hops : Along A (fun b _ op => op.InBounds b) ops b h) :
    Along A (fun b h op => op.Right A b h) ops b h ↔ Along A (fun b _ op => op.Safe b) ops b h := by
  induction ops generalizing b h with
  | nil => exact Iff.rfl
  | cons op ops ih =>
    obtain ⟨hiff, hcov⟩ := right_iff_safe (A := A) hb hops.1
    refine (and_congr_left' hiff).trans (and_congr_right fun hs => ?_)
    refine forall_congr' fun b' => forall_congr' fun h' => forall_congr' fun hrun => ?_
    exact ih (hcov hs b' h' hrun) (hops.2 b' h' hrun)

end SizeOp

/-- In every sequence of operations on a fresh buffer whose pops are in bounds: all of them leave it
covered by the last request, with the size they should, exactly if every `grow_by` is safe. -/
theorem buffer_covered_iff (A : Allocator ω) (o : ω) (ops : List SizeOp)
    (hops : SizeOp.Along A (fun b _ op => op.InBounds b) ops .empty (Heap.start o)) :
    SizeOp.Along A (fun b h op => op.Right A b h) ops .empty (Heap.start o) ↔
      SizeOp.Along A (fun b _ op => op.Safe b) ops .empty (Heap.start o) :=
  SizeOp.along_right_iff (SizeOp.covered_empty _) hops

theorem buffer_covered_short :
    SizeOp.Along .bump (fun b h op => op.Right .bump b h) [.growBy 3, .popBy 2, .free] .empty
      (Heap.start ()) := by
  refine (buffer_covered_iff .bump () [.growBy 3, .popBy 2, .free] ⟨trivial, ?_⟩).mpr ⟨?_, ?_⟩
  · intro b' h' hrun
    obtain ⟨b₁, h₁, _, hrun₁⟩ := SizeOp.growBy_run .bump (Buffer.backed_empty (Heap.start ())) 3
    obtain ⟨rfl, rfl⟩ := Prod.mk.inj (Option.some.inj (hrun₁.symm.trans hrun))
    exact ⟨(by decide : (2 : UInt32).toNat ≤ Layout.lvl4.wrap (0 + (3 : UInt32).toNat)),
      fun _ _ _ => ⟨trivial, fun _ _ _ => trivial⟩⟩
  · exact ⟨by decide, Or.inr (Or.inl (by decide))⟩
  · exact fun _ _ _ => ⟨trivial, fun _ _ _ => ⟨trivial, fun _ _ _ => trivial⟩⟩

/-- For `2 ^ 30` elements no bytes are requested. -/
theorem gigabyte_not_covered :
    SizeOp.Along .bump (fun b _ op => op.InBounds b) [.growBy 0x40000000] .empty (Heap.start ()) ∧
      ¬ SizeOp.Along .bump (fun b h op => op.Right .bump b h) [.growBy 0x40000000] .empty
        (Heap.start ()) := by
  refine ⟨⟨trivial, fun _ _ _ => trivial⟩, fun hright => ?_⟩
  have hsafe := (SizeOp.growBy_right_iff (SizeOp.covered_empty _) _).mp hright.1
  simp [SizeOp.Safe, SizeOp.Requestable, Buffer.HasRoom, Buffer.empty, Buffer.size] at hsafe

end Nodescan
