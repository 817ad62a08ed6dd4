import Nodescan.Protocols

/-!
# The SIP module

The answer to an `OPTIONS` request is read line by line. A line is cut in place into a key and a
value, both ended by a zero byte, and handed to the header callback as two strings in the chunk.
-/

namespace Nodescan

variable {κ : Type}

/-- The header callback gets the chunk after the cut and the position of the value; the key starts
at 0. -/
structure SIP (κ : Type) where
  cbHeader : Option (ConnectedTarget → List UInt8 → ℕ → κ → Bool × κ)
  cbInvalidHeader : Option (DataCallback κ)

namespace SIP

inductive Handler
  | line
  deriving DecidableEq, Repr

/-- `"SIP/2.0"`. -/
def sip20 : List UInt8 := [0x53, 0x49, 0x50, 0x2F, 0x32, 0x2E, 0x30]

variable (sip : SIP κ) (ct : ConnectedTarget)

def invalidHeader (chunk : List UInt8) (k : κ) : Handling Handler κ :=
  callCb false sip.cbInvalidHeader ct chunk 0 chunk.length k

/-- `call_cb<true>(cb_header, …)`. -/
def header (chunk : List UInt8) (value : ℕ) (k : κ) : Bool × κ :=
  match sip.cbHeader with
  | none => (true, k)
  | some f => f ct chunk value k

/-- A line with a colon at `dot`. A space is skipped if it is the second byte of the value. -/
def onKeyValue (chunk : List UInt8) (dot : ℕ) (k : κ) : Handling Handler κ :=
  let chunk := chunk.set dot 0
  let value := dot + 1
  if byteAt chunk value ≠ 0 then
    let value' := if byteAt chunk (value + 1) = 0x20 then value + 1 else value
    ⟨(sip.header ct chunk value' k).1, chunk, [],
      [.write dot, .read value 1, .read (value + 1) 1], (sip.header ct chunk value' k).2⟩
  else
    ⟨(sip.header ct chunk value k).1, chunk, [], [.write dot, .read value 1],
      (sip.header ct chunk value k).2⟩

def onLine (chunk : List UInt8) (k : κ) : Handling Handler κ :=
  let size := chunk.length
  if size < 1 then sip.invalidHeader ct chunk k
  else if byteAt chunk (size - 1) ≠ 0x0D then
    (sip.invalidHeader ct chunk k).after [.read (size - 1) 1]
  else
    let chunk := chunk.set (size - 1) 0
    let start := [.read (size - 1) 1, .write (size - 1)]
    if size = 1 then ⟨false, chunk, [], start, k⟩
    else match chunk.idxOf? 0x3A with
      | some dot => (sip.onKeyValue ct chunk dot k).after (start ++ [.read 0 (dot + 1)])
      | none =>
        if 7 < size then
          if chunk.take 7 = sip20 then
            ⟨true, chunk, [], start ++ [.read 0 size, .read 0 7], k⟩
          else (sip.invalidHeader ct chunk k).after (start ++ [.read 0 size, .read 0 7])
        else (sip.invalidHeader ct chunk k).after (start ++ [.read 0 size])

def handle : Handler → ConnectedTarget → List UInt8 → κ → Handling Handler κ
  | .line, ct, chunk, k => sip.onLine ct chunk k

/-- `SIP::operator()`. -/
def protocol : ProtocolModule Handler κ where
  connect := [.setTrigger (.char 0x0A (some .line))]
  handle := sip.handle

end SIP
end Nodescan
