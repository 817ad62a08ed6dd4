import Nodescan.SSL

/-!
# How far the SSL module looks

A handler stays inside its chunk unless the record has one of three shapes. A server hello whose
body is shorter than three bytes has no room for the cipher, and the unsigned position wraps. A
list of certificates that ends in a cut item after whole ones makes the failure callback see the
size of the whole list from where the item starts. An item whose length leaves no room for its own
three length bytes passes the check and makes the certificate callback see past the end.
-/

namespace Nodescan
namespace SSL

variable {κ : Type} (ssl : SSL κ) (ct : ConnectedTarget)

/-- A server hello record, of the announced length, with a body of less than three bytes. -/
def ShortHello (chunk : List UInt8) : Prop :=
  4 ≤ chunk.length ∧ chunk.length < 7 ∧ byteAt chunk 0 = 2 ∧ be24At chunk 1 = chunk.length - 4

/-- A certificate record with a list, both of the announced length. -/
def CertificateRecord (chunk : List UInt8) : Prop :=
  7 ≤ chunk.length ∧ byteAt chunk 0 = 11 ∧ be24At chunk 1 = chunk.length - 4 ∧
    be24At chunk 4 = chunk.length - 7

/-- From the item at `pos`, over whole items that the certificate callback accepts. -/
inductive Comes (chunk : List UInt8) : ℕ → κ → ℕ → κ → Prop
  | here (pos : ℕ) (k : κ) : Comes chunk pos k pos k
  | next {pos pos' : ℕ} {k k' : κ} :
      pos + 3 + be24At chunk pos ≤ chunk.length →
      (ssl.certif ct chunk (pos + 3) (be24At chunk pos) k).ret = true →
      Comes chunk (pos + 3 + be24At chunk pos)
        (ssl.certif ct chunk (pos + 3) (be24At chunk pos) k).state pos' k' →
      Comes chunk pos k pos' k'

/-- The item at `pos` is whole, or what is wrong with it is shown to no callback, or it is the
first item and reported as a whole. -/
structure ItemSafe (chunk : List UInt8) (pos : ℕ) : Prop where
  cut : 0 < chunk.length - pos →
    chunk.length - pos < 3 ∨ chunk.length - pos < be24At chunk pos →
    ssl.onFailure.isSome → pos = 7
  tight : 3 ≤ chunk.length - pos → be24At chunk pos ≤ chunk.length - pos →
    ssl.onCertif.isSome → pos + 3 + be24At chunk pos ≤ chunk.length

/-- The handler finds nothing in the chunk that leads it outside. -/
def Safe (chunk : List UInt8) (k : κ) : Handler → Prop
  | .onTlsHeader _ => True
  | .onHandshake .handshake1 => ¬ ShortHello chunk
  | .onHandshake .handshake2 => CertificateRecord chunk →
      ∀ pos k', Comes ssl ct chunk 7 k pos k' → ssl.ItemSafe chunk pos

/-- Every use of a chunk lies within it. -/
def Inside (chunk : List UInt8) (accesses : List Access) : Prop :=
  ∀ a ∈ accesses, a.stop ≤ chunk.length

instance (chunk : List UInt8) (accesses : List Access) : Decidable (Inside chunk accesses) :=
  inferInstanceAs (Decidable (∀ a ∈ accesses, a.stop ≤ chunk.length))

variable {ssl ct} {chunk : List UInt8}

theorem inside_cons {a : Access} {accesses : List Access} :
    Inside chunk (a :: accesses) ↔ a.stop ≤ chunk.length ∧ Inside chunk accesses :=
  List.forall_mem_cons

theorem inside_append {as bs : List Access} :
    Inside chunk (as ++ bs) ↔ Inside chunk as ∧ Inside chunk bs :=
  List.forall_mem_append

theorem inside_nil : Inside chunk [] := by simp [Inside]

theorem failure_inside {pos size : ℕ} {k : κ} :
    Inside chunk (ssl.failure ct chunk pos size k).accesses ↔
      (ssl.onFailure.isSome → pos + size ≤ chunk.length) :=
  callCb_inside

theorem certif_inside {pos size : ℕ} {k : κ} :
    Inside chunk (ssl.certif ct chunk pos size k).accesses ↔
      (ssl.onCertif.isSome → pos + size ≤ chunk.length) :=
  callCb_inside

theorem onTlsHeader_inside (onHs : OnHandshake) (k : κ) (hl : chunk.length = sizeofTLS) :
    Inside chunk (ssl.onTlsHeader ct onHs chunk k).accesses := by
  have h5 : chunk.length = 5 := hl
  unfold onTlsHeader
  split_ifs
  · rw [Handling.after_accesses, inside_append, failure_inside]
    simp [Inside, Access.stop]
    omega
  · simp [Inside, Access.stop]
    omega

theorem cipherPos_stop (size : ℕ) : cipherPos size + 2 ≤ size + 4 ↔ 3 ≤ size := by
  unfold cipherPos sizeofHandshake
  omega

theorem onHandshake1_inside_iff (k : κ) :
    Inside chunk (ssl.onHandshake1 ct chunk k).accesses ↔ ¬ ShortHello chunk := by
  unfold onHandshake1 ShortHello
  by_cases h4 : chunk.length < sizeofHandshake
  · have : chunk.length < 4 := h4
    simp only [if_pos h4, failure_inside]
    omega
  · have hl : 4 ≤ chunk.length := Nat.not_lt.mp h4
    have hs : chunk.length - sizeofHandshake = chunk.length - 4 := rfl
    simp only [if_neg h4, hs]
    by_cases h2 : byteAt chunk 0 = 2
    · by_cases hlen : be24At chunk 1 = chunk.length - 4
      · have hpos := cipherPos_stop (chunk.length - 4)
        simp [h2, hlen, Inside, Access.stop]
        omega
      · simp only [h2, hlen, ne_eq, not_true_eq_false, if_false, not_false_eq_true, if_true,
          Handling.after_accesses, inside_append, failure_inside]
        simp [Inside, Access.stop]
        omega
    · simp only [h2, ne_eq, not_false_eq_true, if_true, Handling.after_accesses, inside_append,
        failure_inside]
      simp [Inside, Access.stop]
      omega

/-- The list is left at `pos`: the item there is not whole, or the callback refuses it. -/
theorem forall_comes_stop {pos : ℕ} {k : κ} {P : ℕ → Prop}
    (hf : pos + 3 + be24At chunk pos ≤ chunk.length →
      (ssl.certif ct chunk (pos + 3) (be24At chunk pos) k).ret ≠ true) :
    (∀ pos' k', Comes ssl ct chunk pos k pos' k' → P pos') ↔ P pos := by
  constructor
  · exact fun h => h pos k (.here pos k)
  · intro h pos' k' hc
    cases hc with
    | here => exact h
    | next hle hret _ => exact absurd hret (hf hle)

theorem forall_comes_next {pos : ℕ} {k : κ} {P : ℕ → Prop}
    (hle : pos + 3 + be24At chunk pos ≤ chunk.length)
    (hret : (ssl.certif ct chunk (pos + 3) (be24At chunk pos) k).ret = true) :
    (∀ pos' k', Comes ssl ct chunk pos k pos' k' → P pos') ↔ P pos ∧
      ∀ pos' k', Comes ssl ct chunk (pos + 3 + be24At chunk pos)
        (ssl.certif ct chunk (pos + 3) (be24At chunk pos) k).state pos' k' → P pos' := by
  constructor
  · exact fun h => ⟨h pos k (.here pos k), fun pos' k' hc => h pos' k' (.next hle hret hc)⟩
  · intro h pos' k' hc
    cases hc with
    | here => exact h.1
    | next _ _ hc => exact h.2 pos' k' hc

theorem itemSafe_past {pos : ℕ} (h : chunk.length ≤ pos) : ssl.ItemSafe chunk pos :=
  ⟨fun _ => by omega, fun _ => by omega⟩

/-- An item the loop takes is safe exactly if it is whole or nobody is shown it. -/
theorem itemSafe_iff {pos : ℕ} (h3 : 3 ≤ chunk.length - pos)
    (hle : be24At chunk pos ≤ chunk.length - pos) :
    ssl.ItemSafe chunk pos ↔
      (ssl.onCertif.isSome → pos + 3 + be24At chunk pos ≤ chunk.length) := by
  constructor
  · exact fun h => h.tight h3 hle
  · exact fun h => ⟨fun _ => by omega, fun _ _ => h⟩

/-- The loop with `crtsLen` bytes left of the chunk. -/
theorem certLoop_inside_iff {size pos : ℕ} {crtsLen : ℤ} {k : κ}
    (hs : size + 7 = chunk.length) (hpos : 7 ≤ pos) (hlen : pos + crtsLen = chunk.length) :
    Inside chunk (ssl.certLoop ct chunk size pos crtsLen k).accesses ↔
      ∀ pos' k', Comes ssl ct chunk pos k pos' k' → ssl.ItemSafe chunk pos' := by
  fun_induction certLoop with
  | case1 pos crtsLen k h0 h3 =>
    rw [forall_comes_stop (by omega), failure_inside]
    constructor
    · intro h
      exact ⟨fun _ _ hf => by have := h hf; omega, fun _ _ _ => by omega⟩
    · intro h hf
      have := h.cut (by omega) (by omega) hf
      omega
  | case2 pos crtsLen k h0 h3 hcut =>
    have hread : Inside chunk [.read pos 3] := by
      simp [Inside, Access.stop]
      omega
    rw [forall_comes_stop (by omega), Handling.after_accesses, inside_append, failure_inside]
    constructor
    · intro h
      exact ⟨fun _ _ hf => by have := h.2 hf; omega, fun _ _ _ => by omega⟩
    · intro h
      refine ⟨hread, fun hf => ?_⟩
      have := h.cut (by omega) (by omega) hf
      omega
  | case3 pos crtsLen k h0 h3 hcut c hret ih =>
    have hread : (Access.read pos 3).stop ≤ chunk.length := by
      simp only [Access.stop]
      omega
    have hitem : ssl.ItemSafe chunk pos ↔ _ := itemSafe_iff (by omega) (by omega)
    rw [Handling.after_accesses, List.cons_append, inside_cons, inside_append, certif_inside,
      ih (by omega) (by omega), ← hitem]
    by_cases hle : pos + 3 + be24At chunk pos ≤ chunk.length
    · rw [forall_comes_next hle hret]
      exact and_iff_right hread
    · -- the length runs into the item's own header: the loop ends behind the chunk
      rw [forall_comes_stop (fun h => absurd h hle), forall_comes_stop (by omega)]
      have hpast : ssl.ItemSafe chunk (pos + 3 + be24At chunk pos) := itemSafe_past (by omega)
      tauto
  | case4 pos crtsLen k h0 h3 hcut c hret =>
    have hread : (Access.read pos 3).stop ≤ chunk.length := by
      simp only [Access.stop]
      omega
    have hitem : ssl.ItemSafe chunk pos ↔ _ := itemSafe_iff (by omega) (by omega)
    rw [inside_cons, certif_inside, ← hitem, forall_comes_stop (fun _ => hret)]
    exact and_iff_right hread
  | case5 pos crtsLen k h0 =>
    rw [forall_comes_stop (by omega)]
    exact ⟨fun _ => itemSafe_past (by omega), fun _ => inside_nil⟩

theorem failure_after_inside {as : List Access} {pos size : ℕ} {k : κ} (has : Inside chunk as)
    (h : pos + size ≤ chunk.length) :
    Inside chunk ((ssl.failure ct chunk pos size k).after as).accesses := by
  rw [Handling.after_accesses, inside_append, failure_inside]
  exact ⟨has, fun _ => h⟩

theorem onHandshake2_inside_iff (k : κ) :
    Inside chunk (ssl.onHandshake2 ct chunk k).accesses ↔
      (CertificateRecord chunk → ∀ pos k', Comes ssl ct chunk 7 k pos k' →
        ssl.ItemSafe chunk pos) := by
  have hsize : sizeofHandshake = 4 := rfl
  unfold onHandshake2 CertificateRecord
  by_cases h4 : chunk.length < sizeofHandshake
  · have : chunk.length < 4 := h4
    simp only [if_pos h4, failure_inside]
    omega
  have hl : 4 ≤ chunk.length := Nat.not_lt.mp h4
  have hhead : Inside chunk [.read 1 3, .read 0 1] := by
    simp [Inside, Access.stop]
    omega
  simp only [if_neg h4]
  simp only [hsize]
  by_cases h11 : byteAt chunk 0 = 11
  swap
  · rw [if_pos h11]
    exact iff_of_true (failure_after_inside hhead (by omega)) (fun h => absurd h.2.1 h11)
  by_cases hlen : be24At chunk 1 = chunk.length - 4
  swap
  · rw [if_neg (not_not.mpr h11), if_pos hlen]
    exact iff_of_true (failure_after_inside hhead (by omega)) (fun h => absurd h.2.2.1 hlen)
  rw [if_neg (not_not.mpr h11), if_neg (not_not.mpr hlen)]
  by_cases h3 : chunk.length - 4 < 3
  · rw [if_pos h3]
    exact iff_of_true (failure_after_inside hhead (by omega)) (fun h => by omega)
  have hhead' : Inside chunk [.read 1 3, .read 0 1, .read 4 3] := by
    simp [Inside, Access.stop]
    omega
  rw [if_neg h3]
  by_cases hcrts : be24At chunk 4 = chunk.length - 4 - 3
  swap
  · rw [if_pos hcrts]
    exact iff_of_true (failure_after_inside hhead' (by omega)) (fun h => by omega)
  rw [if_neg (not_not.mpr hcrts), Handling.after_accesses, inside_append,
    certLoop_inside_iff (by omega) (le_refl 7) (by omega), and_iff_right hhead']
  have hrecord : 7 ≤ chunk.length ∧ byteAt chunk 0 = 11 ∧ be24At chunk 1 = chunk.length - 4 ∧
      be24At chunk 4 = chunk.length - 7 := ⟨by omega, h11, hlen, by omega⟩
  exact ⟨fun h _ => h, fun h => h hrecord⟩

/-- One call of a handler, a header having been awaited with its size. -/
theorem handle_inside_iff (f : Handler) (k : κ)
    (hl : ∀ onHs, f = .onTlsHeader onHs → chunk.length = sizeofTLS) :
    Inside chunk (ssl.handle f ct chunk k).accesses ↔ ssl.Safe ct chunk k f := by
  match f with
  | .onTlsHeader onHs => exact iff_of_true (onTlsHeader_inside onHs k (hl onHs rfl)) trivial
  | .onHandshake .handshake1 => exact onHandshake1_inside_iff k
  | .onHandshake .handshake2 => exact onHandshake2_inside_iff k

section Runs

variable (ssl ct)

theorem recording_sets : ssl.protocol.recording.Sets Installed :=
  fun f ct chunk k _ hc => ssl.handle_calls ct f chunk k.1 hc

/-- A recorded call: its uses are those of the handler, and a header had its size. -/
structure Faithful (e : HandlerCall Handler κ) : Prop where
  accesses : e.accesses = (ssl.handle e.handler ct e.chunk e.state).accesses
  header : ∀ onHs, e.handler = .onTlsHeader onHs → e.chunk.length = sizeofTLS

theorem Faithful.inside_iff {e : HandlerCall Handler κ} (h : Faithful ssl ct e) :
    Inside e.chunk e.accesses ↔ ssl.Safe ct e.chunk e.state e.handler := by
  rw [h.accesses]
  exact handle_inside_iff e.handler e.state h.header

def Recorded (sm : Lvl4SM Handler) (k : κ × List (HandlerCall Handler κ)) : Prop :=
  Installed sm.trigger ∧ ∀ e ∈ k.2, Faithful ssl ct e

theorem Recorded.processTrigger {sm sm' : Lvl4SM Handler}
    {k k' : κ × List (HandlerCall Handler κ)} {prevPos : ℕ} {c : ProcessReturnCode}
    (h : Recorded ssl ct sm k)
    (hr : sm.processTrigger ssl.protocol.recording ct prevPos k = .ok (c, sm', k')) :
    Recorded ssl ct sm' k' := by
  obtain ⟨ht, hk⟩ := h
  rcases Lvl4SM.processTrigger_cases hr with ⟨_, rfl, rfl⟩ | ⟨f, n, pop, hfires, hf⟩ | ⟨obj, hpy⟩
  · exact ⟨ht, hk⟩
  · have hle := hfires.le.1
    refine ⟨(recording_sets ssl).fire hle ht hf, ?_⟩
    rw [(Lvl4SM.fire_cases hle hf).2.1]
    intro e he
    rcases List.mem_append.mp he with he | he
    · exact hk e he
    · rw [List.mem_singleton.mp he]
      refine ⟨rfl, fun onHs hon => ?_⟩
      -- only a size trigger is ever installed, and a header's is of its size
      have hsize : n = sizeofTLS := by
        rcases hfires with ⟨htr, _⟩ | ⟨c, htr, _⟩
        · have hon' : f = .onTlsHeader onHs := hon
          rw [htr, hon'] at ht
          exact ht
        · rw [htr] at ht
          exact ht.elim
      exact hfires.length_take.trans hsize
  · rw [hpy] at ht
    exact ht.elim

/-- Over every stream of bytes and every way it is cut, read and asked for: the calls of the
handlers stay inside their chunks exactly as long as no chunk is of a shape that leads out. -/
theorem served_inside_iff (sm₀ : Lvl4SM Handler) (k₀ : κ) {v : Bool} {sm : Lvl4SM Handler}
    {k : κ × List (HandlerCall Handler κ)}
    (h : Served ssl.protocol.recording ct (sm₀.callAll ssl.protocol.connect) (k₀, []) v sm k) :
    (∀ e ∈ k.2, Inside e.chunk e.accesses) ↔
      ∀ e ∈ k.2, ssl.Safe ct e.chunk e.state e.handler := by
  have hstart : Recorded ssl ct (sm₀.callAll ssl.protocol.connect) (k₀, []) := ⟨rfl, by simp⟩
  have hrec : Recorded ssl ct sm k :=
    h.invariant hstart (fun _ hI => hI) (fun _ hI hr => hI.processTrigger ssl ct hr)
  constructor
  · exact fun hin e he => ((hrec.2 e he).inside_iff ssl ct).mp (hin e he)
  · exact fun hsafe e he => ((hrec.2 e he).inside_iff ssl ct).mpr (hsafe e he)

def bare : SSL Unit := ⟨none, none, none, fun _ _ => 0⟩

def server : ConnectedTarget := ⟨⟨1, ⟨443, .tcp⟩⟩, 5⟩

/-- One record that holds a server hello with this body. -/
def helloRecord (body : List UInt8) : List UInt8 :=
  [0x16, 3, 0, 0, body.length.toUInt8 + 4] ++ [2, 0, 0, body.length.toUInt8] ++ body

/-- The handler calls that the record leads to, the cipher being looked for at `pos`. -/
def helloCalls (body : List UInt8) (pos : ℕ) : List (HandlerCall Handler Unit) :=
  [⟨.onTlsHeader .handshake1, [0x16, 3, 0, 0, body.length.toUInt8 + 4], (),
      [.read 0 1, .read 3 2]⟩,
    ⟨.onHandshake .handshake1, [2, 0, 0, body.length.toUInt8] ++ body, (),
      [.read 0 1, .read 1 3, .read pos 2]⟩]

def afterHello : Lvl4SM Handler :=
  { Lvl4SM.new 0 with trigger := headerTrigger .handshake2, reprocess := true }

theorem feed_helloRecord_empty :
    feed bare.protocol.recording server 3 [.data (helloRecord [])]
      ((Lvl4SM.new 0).callAll bare.protocol.connect) ((), []) =
        .ok (true, afterHello, (), helloCalls [] 4294967297) := by
  rfl

/-- A server hello without a body: two bytes are read four gigabytes behind the record. -/
theorem short_hello_reads_outside :
    ∃ sm k, Served bare.protocol.recording server
        ((Lvl4SM.new 0).callAll bare.protocol.connect) ((), []) true sm k ∧
      ¬ ∀ e ∈ k.2, Inside e.chunk e.accesses := by
  have hserved := Served.connect.feed (by simp [helloRecord]) feed_helloRecord_empty
  exact ⟨_, _, hserved, by decide⟩

def listening : SSL Unit where
  onCertif := some fun _ _ _ _ k => (true, k)
  onCipher := some fun _ _ k => (true, k)
  onFailure := some fun _ _ _ _ k => (true, k)
  stray _ _ := 0

/-- A list of certificates of two, no and one bytes. -/
def threeCertificates : List UInt8 := [11, 0, 0, 15, 0, 0, 12, 0, 0, 2, 1, 2, 0, 0, 0, 0, 0, 1, 9]

/-- The handler calls that its record leads to after a hello. -/
def certificateCalls : List (HandlerCall Handler Unit) :=
  [⟨.onTlsHeader .handshake2, [0x16, 3, 0, 0, 19], (), [.read 0 1, .read 3 2]⟩,
    ⟨.onHandshake .handshake2, threeCertificates, (), [.read 1 3, .read 0 1, .read 4 3,
      .read 7 3, .pass 10 2, .read 12 3, .pass 15 0, .read 15 3, .pass 18 1]⟩]

theorem feed_threeCertificates : ∃ sm,
    feed listening.protocol.recording server 9
      [.data (helloRecord [7, 7, 7]), .pass, .data ([0x16, 3, 0, 0, 19] ++ threeCertificates)]
      ((Lvl4SM.new 0).callAll listening.protocol.connect) ((), []) =
        .ok (false, sm, (), helloCalls [7, 7, 7] 4 ++ certificateCalls) :=
  ⟨_, by with_unfolding_all rfl⟩

theorem threeCertificates_itemSafe (pos : ℕ) (k : Unit)
    (h : Comes listening server threeCertificates 7 () pos k) :
    listening.ItemSafe threeCertificates pos := by
  revert pos k
  rw [forall_comes_next (by decide) rfl, forall_comes_next (by decide) rfl,
    forall_comes_next (by decide) rfl, forall_comes_stop (by decide)]
  exact ⟨⟨by decide, by decide⟩, ⟨by decide, by decide⟩, ⟨by decide, by decide⟩,
    ⟨by decide, by decide⟩⟩

theorem served_inside_three_certificates :
    (∀ e ∈ helloCalls [7, 7, 7] 4 ++ certificateCalls,
      listening.Safe server e.chunk e.state e.handler) ∧
    ∀ e ∈ helloCalls [7, 7, 7] 4 ++ certificateCalls, Inside e.chunk e.accesses := by
  obtain ⟨sm, hrun⟩ := feed_threeCertificates
  have hserved := Served.connect.feed (by simp [helloRecord]) hrun
  have hsafe : ∀ e ∈ helloCalls [7, 7, 7] 4 ++ certificateCalls,
      listening.Safe server e.chunk e.state e.handler := by
    simp only [helloCalls, certificateCalls, List.cons_append, List.nil_append,
      List.forall_mem_cons]
    refine ⟨trivial, ?_, trivial, fun _ => threeCertificates_itemSafe, by simp⟩
    change ¬ ShortHello _
    unfold ShortHello
    decide
  exact ⟨hsafe, (served_inside_iff listening server (Lvl4SM.new 0) () hserved).mpr hsafe⟩

end Runs

end SSL
end Nodescan
