import Nodescan.Protocols

/-!
# The SSH module

The module reads the banner up to a newline, then packets: five bytes with the length and the
padding of a packet, then the rest of it. The answer to the key exchange is skipped and the one to
the Diffie-Hellman request is searched for the host key.
-/

namespace Nodescan

variable {κ : Type}

structure SSH (κ : Type) where
  cbCertif : Option (DataCallback κ)
  cbInvalid : Option (DataCallback κ)

namespace SSH

/-- What an `SSHAnswer` goes on with. -/
inductive Next
  | keyExchange
  | getCertificate
  deriving DecidableEq, Repr

inductive Handler
  | banner
  | answer (next : Option Next)
  | payload (next : Next)
  deriving DecidableEq, Repr

/-- `"SSH-2.0"`. -/
def version : List UInt8 := [0x53, 0x53, 0x48, 0x2D, 0x32, 0x2E, 0x30]

def answerTrigger (next : Next) : DataTrigger Handler := .size 5 (some (.answer (some next)))

variable (ssh : SSH κ) (ct : ConnectedTarget)

def invalid (chunk : List UInt8) (pos size : ℕ) (k : κ) : Handling Handler κ :=
  callCb false ssh.cbInvalid ct chunk pos size k

def onBanner (chunk : List UInt8) (k : κ) : Handling Handler κ :=
  if chunk.length < 7 then ssh.invalid ct chunk 0 chunk.length k
  else if chunk.take 7 ≠ version then
    (ssh.invalid ct chunk 0 chunk.length k).after [.read 0 7]
  else ⟨true, chunk, [.setTrigger (answerTrigger .keyExchange)], [.read 0 7], k⟩

/-- The size of what is awaited after the first five bytes of a packet, when there is any; the sum
is a `uint32_t`. -/
def payloadSize (chunk : List UInt8) : Option ℕ :=
  let len := (be32At chunk 0 + (byteAt chunk 4).toNat) % 2 ^ 32
  if len ≤ 7 then none else some (len - 7)

/-- `SSHAnswer::operator()`. -/
def onAnswer (next : Option Next) (chunk : List UInt8) (k : κ) : Handling Handler κ :=
  match next with
  | none => ⟨false, chunk, [], [], k⟩
  | some next => match payloadSize chunk with
    | none => ⟨false, chunk, [], [.read 0 4, .read 4 1], k⟩
    | some len => ⟨true, chunk, [.setTrigger (.size len (some (.payload next)))],
        [.read 0 4, .read 4 1], k⟩

/-- `SSHGetCertificate::operator()`. -/
def getCertificate (chunk : List UInt8) (k : κ) : Handling Handler κ :=
  let size := chunk.length
  if size < 1 then ssh.invalid ct chunk 0 size k
  else if byteAt chunk 0 ≠ 0x1f then (ssh.invalid ct chunk 0 size k).after [.read 0 1]
  else
    let size := size - 1
    if size < 4 then (ssh.invalid ct chunk 1 size k).after [.read 0 1]
    else
      let size := size - 4
      if size < be32At chunk 1 then
        (ssh.invalid ct chunk 5 size k).after [.read 0 1, .read 1 4]
      else (callCb false ssh.cbCertif ct chunk 5 size k).after [.read 0 1, .read 1 4]

def handle : Handler → ConnectedTarget → List UInt8 → κ → Handling Handler κ
  | .banner, ct, chunk, k => ssh.onBanner ct chunk k
  | .answer next, _, chunk, k => onAnswer next chunk k
  | .payload .keyExchange, _, chunk, k =>
      ⟨true, chunk, [.setTrigger (answerTrigger .getCertificate)], [], k⟩
  | .payload .getCertificate, ct, chunk, k => ssh.getCertificate ct chunk k

/-- `SSH::operator()`. -/
def protocol : ProtocolModule Handler κ where
  connect := [.setTrigger (.char 0x0A (some .banner))]
  handle := ssh.handle

theorem payloadSize_pos {chunk : List UInt8} {len : ℕ} (h : payloadSize chunk = some len) :
    0 < len := by
  simp only [payloadSize, Option.ite_none_left_eq_some, Option.some.injEq] at h
  omega

theorem answerTrigger_armed (next : Next) : (answerTrigger next).Armed := by
  simp [answerTrigger, DataTrigger.Armed]

theorem handle_calls (f : Handler) (chunk : List UInt8) (k : κ) {c : SmCall Handler}
    (hc : c ∈ (ssh.handle f ct chunk k).calls) : ∃ t, c = .setTrigger t ∧ t.Armed := by
  have hinvalid : ∀ pos size, (ssh.invalid ct chunk pos size k).calls = [] :=
    fun pos size => callCb_calls ..
  match f with
  | .banner =>
    simp only [handle, onBanner] at hc
    split_ifs at hc <;> simp only [Handling.after_calls, hinvalid, List.not_mem_nil] at hc
    exact ⟨_, List.mem_singleton.mp hc, answerTrigger_armed _⟩
  | .answer none => exact absurd hc List.not_mem_nil
  | .answer (some next) =>
    simp only [handle, onAnswer] at hc
    cases hp : payloadSize chunk with
    | none => simp [hp] at hc
    | some len =>
      simp only [hp] at hc
      exact ⟨_, List.mem_singleton.mp hc, payloadSize_pos hp, rfl⟩
  | .payload .keyExchange => exact ⟨_, List.mem_singleton.mp hc, answerTrigger_armed _⟩
  | .payload .getCertificate =>
    simp only [handle, getCertificate] at hc
    split_ifs at hc <;>
      simp only [Handling.after_calls, hinvalid, callCb_calls, List.not_mem_nil] at hc

end SSH
end Nodescan
