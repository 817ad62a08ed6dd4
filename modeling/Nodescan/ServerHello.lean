import Nodescan.SSLDecoding

/-!
# The cipher suite of a server hello

The suite stands behind a session id of any length and before an optional block of extensions. The
module counts three bytes back from the end of the message, which is right for a hello without
extensions only.
-/

namespace Nodescan
namespace SSL

variable {κ : Type}

structure ServerHello where
  major : UInt8
  minor : UInt8
  random : List UInt8
  sessionId : List UInt8
  c₀ : UInt8
  c₁ : UInt8
  compression : UInt8
  extensions : Option (List UInt8)
  random_length : random.length = 32
  sessionId_length : sessionId.length ≤ 32
  extensions_length : ∀ ext ∈ extensions, ext.length < 65536

namespace ServerHello

variable (h : ServerHello)

def block : List UInt8 :=
  match h.extensions with
  | none => []
  | some ext => be16 ext.length ++ ext

/-- What comes before the cipher suite. -/
def front : List UInt8 :=
  h.major :: h.minor :: (h.random ++ UInt8.ofNat h.sessionId.length :: h.sessionId)

def body : List UInt8 := h.front ++ h.c₀ :: h.c₁ :: h.compression :: h.block

def message : List UInt8 := handshake 2 h.body

end ServerHello

/-- `on_cipher` is called on the two bytes of the suite, and nothing else is called. -/
def Reports (ssl : SSL κ) (ct : ConnectedTarget) (h : ServerHello) (k : κ) : Prop :=
  (ssl.noted.onHandshake1 ct h.message (k, [])).state.2 = [.cipher (cipherValue h.c₀ h.c₁)]

theorem toNat_cipherValue (c₀ c₁ : UInt8) :
    (cipherValue c₀ c₁).toNat = c₀.toNat + 256 * c₁.toNat := by
  have h₀ := c₀.toNat_lt
  have h₁ := c₁.toNat_lt
  simp only [cipherValue, UInt16.toNat_add, UInt16.toNat_shiftLeft, UInt8.toNat_toUInt16,
    Nat.shiftLeft_eq]
  have h8 : 2 ^ (UInt16.toNat 8 % 16) = 256 := rfl
  rw [h8]
  omega

theorem cipherValue_inj {c₀ c₁ d₀ d₁ : UInt8} :
    cipherValue c₀ c₁ = cipherValue d₀ d₁ ↔ c₀ = d₀ ∧ c₁ = d₁ := by
  constructor
  · intro h
    have hn := congrArg UInt16.toNat h
    rw [toNat_cipherValue, toNat_cipherValue] at hn
    have h₀ := c₀.toNat_lt
    have h₁ := d₀.toNat_lt
    exact ⟨UInt8.toNat_inj.mp (by omega), UInt8.toNat_inj.mp (by omega)⟩
  · rintro ⟨rfl, rfl⟩
    rfl

variable {ssl : SSL κ} (ct : ConnectedTarget)

/-- Whatever comes before them, the two bytes before the last one are reported. -/
theorem noted_onHandshake1 {f : ConnectedTarget → UInt16 → κ → Bool × κ}
    (hf : ssl.onCipher = some f) (pre : List UInt8) (x y z : UInt8)
    (hl : (pre ++ [x, y, z]).length < 16777216) (k : κ) :
    (ssl.noted.onHandshake1 ct (handshake 2 (pre ++ [x, y, z])) (k, [])).state.2 =
      [.cipher (cipherValue x y)] := by
  obtain ⟨as, hbody⟩ := onHandshake1_of_body ct ssl.noted pre x y z hl (k, [])
  rw [hbody]
  simp [cipher, noted, hf]

theorem exists_last_three {l : List UInt8} (h : 3 ≤ l.length) :
    ∃ pre x y z, l = pre ++ [x, y, z] := by
  obtain ⟨pre, last, rfl, hlast⟩ : ∃ pre last, l = pre ++ last ∧ last.length = 3 :=
    ⟨l.take (l.length - 3), l.drop (l.length - 3), (List.take_append_drop _ _).symm,
      by rw [List.length_drop]; omega⟩
  obtain ⟨x, y, z, rfl⟩ := List.length_eq_three.mp hlast
  exact ⟨pre, x, y, z, rfl⟩

/-- For every hello that fits in a record of its own: the suite is reported if no extensions follow
it, or if by chance the same two bytes stand before the last one of the message. -/
theorem reports_cipher_iff (ssl : SSL κ) {f : ConnectedTarget → UInt16 → κ → Bool × κ}
    (hf : ssl.onCipher = some f) (h : ServerHello) (hfits : h.message.length < 65536) (k : κ) :
    ssl.Reports ct h k ↔
      h.extensions = none ∨ ∃ pre z, h.compression :: h.block = pre ++ [h.c₀, h.c₁, z] := by
  have hlen : h.body.length < 16777216 := by
    rw [ServerHello.message, length_handshake] at hfits
    omega
  cases hext : h.extensions with
  | none =>
    have hbody : h.body = h.front ++ [h.c₀, h.c₁, h.compression] := by
      simp [ServerHello.body, ServerHello.block, hext]
    refine iff_of_true ?_ (Or.inl rfl)
    rw [hbody] at hlen
    rw [Reports, ServerHello.message, hbody]
    exact noted_onHandshake1 ct hf _ _ _ _ hlen k
  | some ext =>
    have hthree : 3 ≤ (h.compression :: h.block).length := by
      simp only [ServerHello.block, hext, List.length_cons, List.length_append, length_be16]
      omega
    obtain ⟨pre, x, y, z, hlast⟩ := exists_last_three hthree
    have hbody : h.body = (h.front ++ [h.c₀, h.c₁] ++ pre) ++ [x, y, z] := by
      simp [ServerHello.body, hlast]
    have hreport : ssl.Reports ct h k ↔ x = h.c₀ ∧ y = h.c₁ := by
      rw [hbody] at hlen
      rw [Reports, ServerHello.message, hbody, noted_onHandshake1 ct hf _ _ _ _ hlen k]
      simp [cipherValue_inj]
    rw [hreport, hlast]
    constructor
    · rintro ⟨rfl, rfl⟩
      exact Or.inr ⟨pre, z, rfl⟩
    · rintro (hnone | ⟨pre', z', heq⟩)
      · cases hnone
      · have hxyz := (List.append_inj_right' heq rfl)
        simp only [List.cons.injEq] at hxyz
        exact ⟨hxyz.1, hxyz.2.1⟩

/-- A hello with an empty session id that has chosen the suite `00 2f`. -/
def helloWith (extensions : Option (List UInt8)) (h : ∀ ext ∈ extensions, ext.length < 65536) :
    ServerHello where
  major := 3
  minor := 3
  random := List.replicate 32 0xAA
  sessionId := []
  c₀ := 0x00
  c₁ := 0x2f
  compression := 0
  extensions := extensions
  random_length := rfl
  sessionId_length := by simp
  extensions_length := h

theorem reports_cipher_plain :
    listening.Reports ⟨⟨1, ⟨443, .tcp⟩⟩, 5⟩ (helloWith none (by simp)) () :=
  (reports_cipher_iff ⟨⟨1, ⟨443, .tcp⟩⟩, 5⟩ listening rfl (helloWith none (by simp)) (by decide)
    ()).mpr (Or.inl rfl)

/-- An empty block of extensions is enough: the suite `00 00` is reported. -/
theorem extensions_hide_cipher :
    ¬ listening.Reports ⟨⟨1, ⟨443, .tcp⟩⟩, 5⟩ (helloWith (some []) (by rintro _ ⟨⟩; decide))
      () := by
  unfold Reports
  decide +kernel

end SSL
end Nodescan
