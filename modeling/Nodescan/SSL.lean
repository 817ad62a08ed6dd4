import Nodescan.Protocols

/-!
# The SSL module

The module waits for a TLS header, then for a record of the length it gives: the server's hello
first, its certificates second. Positions are relative to the chunk a handler was handed; `buf += n`
in the source moves them by `n`.
-/

namespace Nodescan

variable {κ : Type}

/-- The callbacks of the user. `stray` is what a read beyond the chunk finds in memory. -/
structure SSL (κ : Type) where
  onCertif : Option (DataCallback κ)
  onCipher : Option (ConnectedTarget → UInt16 → κ → Bool × κ)
  onFailure : Option (DataCallback κ)
  stray : κ → ℕ → UInt8

namespace SSL

inductive OnHandshake
  | handshake1
  | handshake2
  deriving DecidableEq, Repr

inductive Handler
  | onTlsHeader (onHs : OnHandshake)
  | onHandshake (hs : OnHandshake)
  deriving DecidableEq, Repr

/-- `sizeof(TLS)` and `sizeof(Handshake)`, both packed. -/
def sizeofTLS : ℕ := 5

def sizeofHandshake : ℕ := 4

/-- The trigger that waits for a TLS header. -/
def headerTrigger (onHs : OnHandshake) : DataTrigger Handler :=
  .size sizeofTLS (some (.onTlsHeader onHs))

variable (ssl : SSL κ) (ct : ConnectedTarget)

def failure (chunk : List UInt8) (pos size : ℕ) (k : κ) : Handling Handler κ :=
  callCb false ssl.onFailure ct chunk pos size k

def certif (chunk : List UInt8) (pos size : ℕ) (k : κ) : Handling Handler κ :=
  callCb true ssl.onCertif ct chunk pos size k

/-- `call_cb<true>(_on_cipher, …)`. -/
def cipher (value : UInt16) (k : κ) : Bool × κ :=
  match ssl.onCipher with
  | none => (true, k)
  | some f => f ct value k

/-- A `uint16_t` in the order of the machine, little-endian. -/
def cipherAt (chunk : List UInt8) (pos : ℕ) (k : κ) : UInt16 :=
  (chunk.getD pos (ssl.stray k pos)).toUInt16 +
    ((chunk.getD (pos + 1) (ssl.stray k (pos + 1))).toUInt16 <<< 8)

def onTlsHeader (onHs : OnHandshake) (chunk : List UInt8) (k : κ) : Handling Handler κ :=
  if byteAt chunk 0 ≠ 0x16 then
    (ssl.failure ct chunk 0 chunk.length k).after [.read 0 1]
  else
    ⟨true, chunk, [.setTrigger (.size (be16At chunk 3) (some (.onHandshake onHs)))],
      [.read 0 1, .read 3 2], k⟩

/-- Where `on_handshake1` looks for the cipher: `buf[size-3]` behind the handshake header, the
difference taken in `uint32_t`. -/
def cipherPos (size : ℕ) : ℕ := sizeofHandshake + (size + (2 ^ 32 - 3)) % 2 ^ 32

def onHandshake1 (chunk : List UInt8) (k : κ) : Handling Handler κ :=
  if chunk.length < sizeofHandshake then ssl.failure ct chunk 0 chunk.length k
  else
    let size := chunk.length - sizeofHandshake
    if byteAt chunk 0 ≠ 2 then (ssl.failure ct chunk 0 size k).after [.read 0 1]
    else if be24At chunk 1 ≠ size then
      (ssl.failure ct chunk 0 size k).after [.read 0 1, .read 1 3]
    else
      let c := ssl.cipher ct (ssl.cipherAt chunk (cipherPos size) k) k
      ⟨c.1, chunk, if c.1 then [.setTrigger (headerTrigger .handshake2)] else [],
        [.read 0 1, .read 1 3, .read (cipherPos size) 2], c.2⟩

/-- The loop over the certificates. `size` is not updated in it; `crtsLen` is an `int` and may
become negative. -/
def certLoop (chunk : List UInt8) (size pos : ℕ) (crtsLen : ℤ) (k : κ) : Handling Handler κ :=
  if 0 < crtsLen then
    if crtsLen < 3 then ssl.failure ct chunk pos size k
    else if crtsLen < be24At chunk pos then
      (ssl.failure ct chunk pos size k).after [.read pos 3]
    else
      let c := ssl.certif ct chunk (pos + 3) (be24At chunk pos) k
      if c.ret then
        (certLoop chunk size (pos + 3 + be24At chunk pos) (crtsLen - 3 - be24At chunk pos)
          c.state).after (.read pos 3 :: c.accesses)
      else ⟨false, chunk, [], .read pos 3 :: c.accesses, c.state⟩
  else ⟨false, chunk, [], [], k⟩
termination_by crtsLen.toNat
decreasing_by omega

def onHandshake2 (chunk : List UInt8) (k : κ) : Handling Handler κ :=
  if chunk.length < sizeofHandshake then ssl.failure ct chunk 0 chunk.length k
  else
    let size := chunk.length - sizeofHandshake
    if byteAt chunk 0 ≠ 11 then (ssl.failure ct chunk 0 size k).after [.read 1 3, .read 0 1]
    else if be24At chunk 1 ≠ size then
      (ssl.failure ct chunk 0 size k).after [.read 1 3, .read 0 1]
    else if size < 3 then
      (ssl.failure ct chunk sizeofHandshake size k).after [.read 1 3, .read 0 1]
    else
      let pos := sizeofHandshake + 3
      if be24At chunk sizeofHandshake ≠ size - 3 then
        (ssl.failure ct chunk pos (size - 3) k).after
          [.read 1 3, .read 0 1, .read sizeofHandshake 3]
      else
        (ssl.certLoop ct chunk (size - 3) pos (be24At chunk sizeofHandshake) k).after
          [.read 1 3, .read 0 1, .read sizeofHandshake 3]

def handle : Handler → ConnectedTarget → List UInt8 → κ → Handling Handler κ
  | .onTlsHeader onHs, ct, chunk, k => ssl.onTlsHeader ct onHs chunk k
  | .onHandshake .handshake1, ct, chunk, k => ssl.onHandshake1 ct chunk k
  | .onHandshake .handshake2, ct, chunk, k => ssl.onHandshake2 ct chunk k

/-- `SSL::operator()`: the client's hello is sent and the first header awaited. -/
def protocol : ProtocolModule Handler κ where
  connect := [.setTrigger (headerTrigger .handshake1)]
  handle := ssl.handle

/-- The triggers the module sets: a header is always awaited with its size. -/
def Installed : DataTrigger Handler → Prop
  | .size n (some (.onTlsHeader _)) => n = sizeofTLS
  | .size _ (some (.onHandshake _)) => True
  | _ => False

theorem certLoop_calls (chunk : List UInt8) (size pos : ℕ) (crtsLen : ℤ) (k : κ) :
    (ssl.certLoop ct chunk size pos crtsLen k).calls = [] := by
  fun_induction certLoop with
  | case1 => exact callCb_calls ..
  | case2 => exact callCb_calls ..
  | case3 _ _ _ _ _ _ _ _ ih => exact ih
  | case4 => rfl
  | case5 => rfl

theorem handle_calls (f : Handler) (chunk : List UInt8) (k : κ) {c : SmCall Handler}
    (hc : c ∈ (ssl.handle f ct chunk k).calls) : ∃ t, c = .setTrigger t ∧ Installed t := by
  have hfail : ∀ pos size, (ssl.failure ct chunk pos size k).calls = [] :=
    fun pos size => callCb_calls ..
  match f with
  | .onTlsHeader onHs =>
    simp only [handle, onTlsHeader] at hc
    split_ifs at hc
    · simp [hfail] at hc
    · exact ⟨_, List.mem_singleton.mp hc, trivial⟩
  | .onHandshake .handshake1 =>
    simp only [handle, onHandshake1] at hc
    split_ifs at hc <;> simp only [Handling.after_calls, hfail, List.not_mem_nil] at hc
    exact ⟨_, List.mem_singleton.mp hc, rfl⟩
  | .onHandshake .handshake2 =>
    simp only [handle, onHandshake2] at hc
    split_ifs at hc <;>
      simp only [Handling.after_calls, hfail, certLoop_calls, List.not_mem_nil] at hc

end SSL
end Nodescan
