import Nodescan.ConnectionTokens
import Nodescan.SIPHeaders
import Nodescan.SSHFraming
import Nodescan.SSLDecoding

/-!
# Scans with a protocol module

A protocol module is the connected callback of a scan. What it makes of a whole answer was shown for
one connection, with its bytes cut in any way. Here the connection is one of many of a running scan,
and its answer may still be on the way.
-/

namespace Nodescan

open FaultM EngineM

variable {ω κ ν F : Type}

namespace ProtocolModule

def began (m : ProtocolModule F κ) : Lvl4SM F := (Lvl4SM.new 0).callAll m.connect

def AddsNotes (m : ProtocolModule F (κ × List ν)) : Prop :=
  ∀ f ct chunk k, k.2 <+: (m.handle f ct chunk k).state.2

section Program

variable {m : ProtocolModule F κ} {watch : ConnectedTarget → κ → Bool} {k : κ}

end Program

theorem AddsNotes.drain {m : ProtocolModule F (κ × List ν)} (hm : m.AddsNotes) {ct : ConnectedTarget}
    {p q : Lvl4SM F × κ × List ν} {xs rest : List UInt8} {v : Bool}
    (h : ((scanner m.actions ct).drain p xs).2 = .ok (v, q, rest)) : p.2.2 <+: q.2.2 := by
  have hact : ∀ {a b : Lvl4SM F × κ × List ν} {chunk v}, p.2.2 <+: a.2.2 →
      (scanner m.actions ct).act a chunk = .ok (v, b) → p.2.2 <+: b.2.2 := by
    intro a b chunk v ha hb
    rcases Lvl4SM.act_cases m.actions ct hb with rfl | ⟨f, rfl⟩
    · exact ha
    · exact ha.trans (hm f ct chunk a.2)
  exact Scanner.drain_keeps _ hact (List.prefix_refl _) h

section Stream

variable {m : ProtocolModule F (κ × List ν)} {watch : ConnectedTarget → κ × List ν → Bool}
  {k : κ × List ν} {cfg : Config F} {s : Fd} {c : Conn (κ × List ν) F} {ct : ConnectedTarget}
  {xs ys : List UInt8} {N : List ν → Prop}

end Stream

def scanning (f : F) : Config F :=
  { (Config.plain 2 : Config F) with callbackLvl4Connected := some f }

end ProtocolModule

namespace SSL

variable {ssl : SSL κ}

end SSL

namespace SIP

variable {sip : SIP κ}

end SIP

namespace SSH

variable {ssh : SSH κ}

end SSH
end Nodescan
