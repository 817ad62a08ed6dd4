import Mathlib.Tactic

/-!
# Targets

A target is an IPv4 address and a port with its protocol. The end of a target set is announced by
a target value, `Target.endMark`; the engine recognises it by `isEnd`, which looks at the address
and the port number only.
-/

namespace Nodescan

/-- A file descriptor. The kernel answers `-1` where it has none to give. -/
abbrev Fd := ℤ

inductive Protocol
  | tcp
  | udp
  | unsupported
  deriving DecidableEq, Repr

structure Port where
  value : UInt16
  protocol : Protocol
  deriving DecidableEq, Repr

/-- `leeloo::port::as_u32`. All that is needed of it is that it tells ports apart. -/
structure PortCode where
  asU32 : Port → UInt32
  injective : Function.Injective asU32

/-- The protocol in the upper half, the port number in the lower one. -/
def PortCode.packed : PortCode where
  asU32 p := p.value.toUInt32 + match p.protocol with
    | .tcp => 0
    | .udp => 0x10000
    | .unsupported => 0x20000
  injective := by
    rintro ⟨v, p⟩ ⟨v', p'⟩ h
    have hnat := congrArg UInt32.toNat h
    have hv := v.toNat_lt
    have hv' := v'.toNat_lt
    rw [Port.mk.injEq, ← UInt16.toNat_inj]
    cases p <;> cases p' <;> simp [UInt32.toNat_add] at hnat ⊢ <;> omega

structure Target where
  ipv4 : UInt32
  port : Port
  deriving DecidableEq, Repr

namespace Target

def isEnd (t : Target) : Bool := t.ipv4 == 0xFFFFFFFF && t.port.value == 0xFFFF

/-- `Target::end()`. -/
def endMark : Target := ⟨0xFFFFFFFF, ⟨0xFFFF, .unsupported⟩⟩

theorem isEnd_endMark : endMark.isEnd = true := by decide

theorem ne_endMark {t : Target} (h : t.isEnd = false) : t ≠ endMark := by
  rintro rfl
  simp [isEnd_endMark] at h

end Target

structure ConnectedTarget where
  target : Target
  s : Fd
  deriving DecidableEq, Repr

/-! Error codes: those of the system that the engine tests or reports, and those of `errors.h`. -/

def EBADF : ℤ := 9
def ECONNRESET : ℤ := 104
def EINPROGRESS : ℤ := 115

inductive Errors
  | nsTimeout
  | willReconnect
  deriving DecidableEq, Repr

def Errors.code : Errors → ℤ
  | .nsTimeout => 1000
  | .willReconnect => 1001

end Nodescan
