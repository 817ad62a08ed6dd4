import Nodescan.LoopsEnd
import Nodescan.RecordBounds

/-!
# What the SSH module makes of a packet

A packet announces the length of what follows its first four bytes. After the five bytes of a
header `SSHAnswer` waits for the announced length plus that of the padding, less seven; a packet is
consumed whole only where this is the announced length less one. `SSHGetCertificate` checks the
length of the host key against what is left of the packet, and hands on what is left.
-/

namespace Nodescan
namespace SSH

variable {κ : Type}

/-- An unencrypted binary packet. -/
structure Packet where
  packetLength : UInt32
  paddingLength : UInt8
  payload : List UInt8
  padding : List UInt8
  padding_lt : paddingLength.toNat < packetLength.toNat
  length_payload : payload.length = packetLength.toNat - paddingLength.toNat - 1
  length_padding : padding.length = paddingLength.toNat

namespace Packet

def header (p : Packet) : List UInt8 := be32 p.packetLength.toNat ++ [p.paddingLength]

/-- What follows the header. -/
def body (p : Packet) : List UInt8 := p.payload ++ p.padding

def bytes (p : Packet) : List UInt8 := p.header ++ p.body

theorem length_body (p : Packet) : p.body.length = p.packetLength.toNat - 1 := by
  have hlt := p.padding_lt
  rw [body, List.length_append, p.length_payload, p.length_padding]
  omega

/-- The size that `SSHAnswer` computes is that of the rest of the packet. -/
def WellSized (p : Packet) : Prop := payloadSize p.header = some p.body.length

theorem payloadSize_header (p : Packet) : payloadSize p.header =
    if (p.packetLength.toNat + p.paddingLength.toNat) % 4294967296 ≤ 7 then none
    else some ((p.packetLength.toNat + p.paddingLength.toNat) % 4294967296 - 7) := by
  have hlen : be32At p.header 0 = p.packetLength.toNat :=
    be32At_be32 p.packetLength.toNat_lt [p.paddingLength]
  have hpad : byteAt p.header 4 = p.paddingLength := rfl
  simp only [payloadSize, hlen, hpad]
  rfl

theorem wellSized_iff (p : Packet) :
    p.WellSized ↔ p.paddingLength = 6 ∧ p.packetLength.toNat + 6 < 4294967296 := by
  have hlt := p.padding_lt
  have hsix : p.paddingLength = 6 ↔ p.paddingLength.toNat = 6 := by
    rw [← UInt8.toNat_inj]
    rfl
  have hlen := p.packetLength.toNat_lt
  have hpad := p.paddingLength.toNat_lt
  rw [WellSized, payloadSize_header, length_body, hsix]
  split_ifs with h7
  · simp only [false_iff]
    omega
  · rw [Option.some.injEq]
    omega

end Packet

/-- A line that the module takes for the banner. -/
structure Banner (line : List UInt8) : Prop where
  version : line.take 7 = version
  one_line : 0x0A ∉ line

/-- The calls due after the banner: for each of the first two packets its header, and then its rest,
which starts with the payload. -/
def chain : List Packet → List (Handler × List UInt8)
  | [] => []
  | [p] => [(.answer (some .keyExchange), p.header), (.payload .keyExchange, p.body)]
  | p :: q :: _ => [(.answer (some .keyExchange), p.header), (.payload .keyExchange, p.body),
      (.answer (some .getCertificate), q.header), (.payload .getCertificate, q.body)]

/-- The handlers called and what they were handed. -/
def seen (log : List (HandlerCall Handler κ)) : List (Handler × List UInt8) :=
  log.map fun c => (c.handler, c.chunk)

/-- A connection on which the banner `line` and the packets `ps` arrive makes the calls that are
due; it makes more of them only where the last action answered true and was left in place. -/
structure Framed (ssh : SSH κ) (ct : ConnectedTarget) (line : List UInt8) (ps : List Packet) (k : κ)
    (sm : Lvl4SM Handler) (as : List Arrival) (fuel : ℕ) : Prop where
  calls : ∃ v sm' k' log more,
    feed ssh.protocol.recording ct fuel as (sm.callAll ssh.protocol.connect) (k, []) =
      .ok (v, sm', k', log) ∧
    seen log = (.banner, line) :: (chain ps ++ more) ∧
    (more ≠ [] → ∃ q, ps[1]? = some q ∧ (ssh.getCertificate ct q.body k).ret = true)
  no_wrap : ∀ p ∈ ps.take 2, p.packetLength.toNat + p.paddingLength.toNat < 4294967296

variable {ssh : SSH κ} {ct : ConnectedTarget} {sm : Lvl4SM Handler} {k : κ}
  {log : List (HandlerCall Handler κ)} {next : Next} {p : Packet} {ys : List UInt8}

theorem seen_append (log log' : List (HandlerCall Handler κ)) :
    seen (log ++ log') = seen log ++ seen log' := List.map_append

theorem recording_armed : ssh.protocol.recording.Sets DataTrigger.Armed :=
  fun f ct chunk k _ hc => ssh.handle_calls ct f chunk k.1 hc

theorem handle_banner (ssh : SSH κ) (ct : ConnectedTarget) {line : List UInt8} (h : Banner line)
    (k : κ) : ssh.protocol.handle .banner ct line k =
      ⟨true, line, [.setTrigger (answerTrigger .keyExchange)], [.read 0 7], k⟩ := by
  have h7 : ¬ line.length < 7 := by
    have hlen := congrArg List.length h.version
    rw [List.length_take] at hlen
    have hv : version.length = 7 := rfl
    omega
  simp only [protocol, handle, onBanner, if_neg h7, h.version, ne_eq, not_true_eq_false, if_false]

theorem handle_answer (ssh : SSH κ) (ct : ConnectedTarget) (next : Next) {s : ℕ}
    (hs : payloadSize p.header = some s) (k : κ) :
    ssh.protocol.handle (.answer (some next)) ct p.header k =
      ⟨true, p.header, [.setTrigger (.size s (some (.payload next)))], [.read 0 4, .read 4 1], k⟩ := by
  simp only [protocol, handle, onAnswer, hs]

theorem leads_banner (ssh : SSH κ) (ct : ConnectedTarget) {line : List UInt8} (h : Banner line)
    (sm : Lvl4SM Handler) (k : κ) (ys : List UInt8) :
    ∃ sm' log, (scanner ssh.protocol.recording ct).Leads (fun p => p.1.trigger.Tokenising)
        ((sm.callAll ssh.protocol.connect).control, k, []) (line ++ 0x0A :: ys) (sm', k, log) ys ∧
      sm'.trigger = answerTrigger .keyExchange ∧ seen log = [(.banner, line)] :=
  ⟨_, _, ProtocolModule.leads_recorded (.char rfl h.one_line) (handle_banner ssh ct h k), rfl, rfl⟩

theorem finds_header (ht : sm.trigger = answerTrigger next) (p : Packet) (ys : List UInt8) :
    Finds sm (.answer (some next)) p.header (p.bytes ++ ys) (p.body ++ ys) := by
  rw [Packet.bytes, List.append_assoc]
  exact .size ht (List.cons_ne_nil _ _)

theorem leads_answer {s : ℕ} (ht : sm.trigger = answerTrigger next)
    (hs : payloadSize p.header = some s) :
    (scanner ssh.protocol.recording ct).Leads (fun p => p.1.trigger.Tokenising) (sm, k, log)
      (p.bytes ++ ys) (sm.setTrigger (.size s (some (.payload next))), k,
        log ++ [⟨.answer (some next), p.header, k, [.read 0 4, .read 4 1]⟩]) (p.body ++ ys) :=
  ProtocolModule.leads_recorded (finds_header ht p ys) (handle_answer ssh ct next hs k)

/-- The calls of a header and of the rest of its packet show that the rest was well sized. -/
theorem wellSized_of_seen {q : Lvl4SM Handler × κ × List (HandlerCall Handler κ)}
    {rest : List UInt8} {v : Bool} {more : List (Handler × List UInt8)}
    (ht : sm.trigger = answerTrigger next)
    (hd : ((scanner ssh.protocol.recording ct).drain (sm, k, log) (p.bytes ++ ys)).2 =
      .ok (v, q, rest))
    (hseen : seen q.2.2 = seen log ++ (.answer (some next), p.header) :: (.payload next, p.body) ::
      more) : p.WellSized := by
  cases hs : payloadSize p.header with
  | none =>
    have hh : ssh.protocol.recording.data (.answer (some next)) ct p.header (k, log) =
        (⟨false, p.header, []⟩, k,
          log ++ [⟨.answer (some next), p.header, k, [.read 0 4, .read 4 1]⟩]) := by
      simp only [ProtocolModule.recording, protocol, handle, onAnswer, hs]
    rw [(finds_header ht p ys).drain_stops hh] at hd
    simp only [Except.ok.injEq, Prod.mk.injEq] at hd
    rw [← hd.2.1, seen_append, List.append_cancel_left_eq] at hseen
    simp [seen] at hseen
  | some s =>
    rw [(leads_answer ht hs).drain] at hd
    have hsize := ProtocolModule.drain_size rfl (payloadSize_pos hs) hd
    rcases hsize with hlog | ⟨c, more', hlog, -, hlen⟩
    · rw [hlog, seen_append, List.append_cancel_left_eq] at hseen
      simp [seen] at hseen
    · rw [hlog, List.append_assoc, seen_append, List.append_cancel_left_eq] at hseen
      simp only [seen, List.cons_append, List.nil_append, List.map_cons, List.cons.injEq,
        Prod.mk.injEq] at hseen
      rw [Packet.WellSized, hs, ← hseen.2.1.2, hlen]

theorem finds_body (h : p.WellSized) (sm : Lvl4SM Handler) (next : Next) (ys : List UInt8) :
    Finds (sm.setTrigger (.size p.body.length (some (.payload next)))) (.payload next) p.body
      (p.body ++ ys) ys := by
  have hpos := payloadSize_pos h
  exact .size rfl (List.length_pos_iff.mp hpos)

/-- The answer to the key exchange is skipped whole. -/
theorem leads_first (h : p.WellSized) (ht : sm.trigger = answerTrigger .keyExchange) :
    ∃ sm' log', (scanner ssh.protocol.recording ct).Leads (fun p => p.1.trigger.Tokenising)
        (sm, k, log) (p.bytes ++ ys) (sm', k, log') ys ∧
      sm'.trigger = answerTrigger .getCertificate ∧
      seen log' = seen log ++ [(.answer (some .keyExchange), p.header),
        (.payload .keyExchange, p.body)] := by
  have hh : ssh.protocol.handle (.payload .keyExchange) ct p.body k =
      ⟨true, p.body, [.setTrigger (answerTrigger .getCertificate)], [], k⟩ := rfl
  refine ⟨_, _, (leads_answer ht h).trans
    (ProtocolModule.leads_recorded (finds_body h sm .keyExchange ys) hh), rfl, ?_⟩
  simp [seen]

/-- The whole run, read off a scan from a point on the way. -/
theorem run_of_leads {xs : List UInt8} {sm' : Lvl4SM Handler}
    {log' : List (HandlerCall Handler κ)} {as : List Arrival} {fuel : ℕ} (hb : sm.buf = [])
    (has : ∀ a ∈ as, a ≠ .data []) (hfuel : (received as).length < fuel)
    (hl : (scanner ssh.protocol.recording ct).Leads (fun p => p.1.trigger.Tokenising)
      ((sm.callAll ssh.protocol.connect).control, k, []) (received as) (sm', k, log') xs) :
    ∃ v sm₁ k₁ log₁ rest,
      feed ssh.protocol.recording ct fuel as (sm.callAll ssh.protocol.connect) (k, []) =
        .ok (v, sm₁, k₁, log₁) ∧
      ((scanner ssh.protocol.recording ct).drain (sm', k, log') xs).2 =
        .ok (v, (sm₁.control, k₁, log₁), rest) := by
  have hempty : (sm.callAll ssh.protocol.connect).buf = [] := hb
  have harmed : (sm.callAll ssh.protocol.connect).trigger.Armed := rfl
  obtain ⟨v, sm₁, ⟨k₁, log₁⟩, rest, hfeed, hd⟩ :=
    recording_armed.feed_drain (k, []) harmed hempty has hfuel
  rw [hl.drain] at hd
  exact ⟨v, sm₁, k₁, log₁, rest, hfeed, hd⟩

section Run

variable {line : List UInt8} {ps : List Packet} {as : List Arrival} {fuel : ℕ}

/-- Once all bytes are consumed, the connection waits. -/
theorem seen_of_leads_nil {sm' : Lvl4SM Handler} {log' : List (HandlerCall Handler κ)}
    (hb : sm.buf = []) (has : ∀ a ∈ as, a ≠ .data []) (hfuel : (received as).length < fuel)
    (hl : (scanner ssh.protocol.recording ct).Leads (fun p => p.1.trigger.Tokenising)
      ((sm.callAll ssh.protocol.connect).control, k, []) (received as) (sm', k, log') []) :
    ∃ v sm₁ k₁, feed ssh.protocol.recording ct fuel as (sm.callAll ssh.protocol.connect) (k, []) =
      .ok (v, sm₁, k₁, log') := by
  obtain ⟨v, sm₁, k₁, log₁, rest, hfeed, hd⟩ := run_of_leads hb has hfuel hl
  rw [Scanner.drain_none _ (next_nil _ ct _)] at hd
  simp only [Except.ok.injEq, Prod.mk.injEq] at hd
  exact ⟨v, sm₁, k₁, by rw [hfeed, hd.2.1.2.2]⟩

theorem calls_of_wellSized (hline : Banner line) (hb : sm.buf = [])
    (has : ∀ a ∈ as, a ≠ .data [])
    (hstream : received as = line ++ 0x0A :: ps.flatMap Packet.bytes)
    (hfuel : (received as).length < fuel) (hw : ∀ p ∈ ps.take 2, p.WellSized) :
    ∃ v sm' k' log more,
      feed ssh.protocol.recording ct fuel as (sm.callAll ssh.protocol.connect) (k, []) =
        .ok (v, sm', k', log) ∧
      seen log = (.banner, line) :: (chain ps ++ more) ∧
      (more ≠ [] → ∃ q, ps[1]? = some q ∧ (ssh.getCertificate ct q.body k).ret = true) := by
  obtain ⟨sm₀, log₀, hbanner, ht₀, hseen₀⟩ :=
    leads_banner ssh ct hline sm k (ps.flatMap Packet.bytes)
  rw [← hstream] at hbanner
  match ps with
  | [] =>
    obtain ⟨v, sm₁, k₁, hfeed⟩ := seen_of_leads_nil hb has hfuel hbanner
    exact ⟨v, sm₁, k₁, log₀, [], hfeed, by simp [hseen₀, chain], by simp⟩
  | [p] =>
    rw [List.flatMap_cons] at hbanner
    obtain ⟨sm', log', hfirst, -, hseen⟩ := leads_first (hw p (by simp)) ht₀
    obtain ⟨v, sm₁, k₁, hfeed⟩ := seen_of_leads_nil hb has hfuel (hbanner.trans hfirst)
    exact ⟨v, sm₁, k₁, log', [], hfeed, by simp [hseen, hseen₀, chain], by simp⟩
  | p :: q :: ps =>
    rw [List.flatMap_cons, List.flatMap_cons] at hbanner
    obtain ⟨sm', log', hfirst, ht', hseen⟩ := leads_first (hw p (by simp)) ht₀
    have hq : q.WellSized := hw q (by simp)
    have hpath := (hbanner.trans hfirst).trans (leads_answer ht' hq)
    obtain ⟨v, sm₁, k₁, log₁, rest, hfeed, hd⟩ := run_of_leads hb has hfuel hpath
    have hfinds := finds_body hq sm' .getCertificate (ps.flatMap Packet.bytes)
    rcases hh : ssh.protocol.handle (.payload .getCertificate) ct q.body k with
      ⟨ret, left, calls, accesses, k'⟩
    have hret : (ssh.getCertificate ct q.body k).ret = ret := congrArg Handling.ret hh
    cases ret with
    | true =>
      -- the action stays in place and may be called again
      rw [(ProtocolModule.leads_recorded hfinds hh).drain] at hd
      obtain ⟨more, hmore⟩ := ProtocolModule.drain_recorded hd
      refine ⟨v, sm₁, k₁, log₁, seen more, hfeed, ?_, fun _ => ⟨q, rfl, hret⟩⟩
      have hlog : log₁ = _ ++ more := hmore
      rw [hlog, seen_append, seen_append, seen_append, hseen, hseen₀]
      simp [seen, chain]
    | false =>
      have hdata : ssh.protocol.recording.data (.payload .getCertificate) ct q.body
          (k, log' ++ [⟨.answer (some .getCertificate), q.header, k, [.read 0 4, .read 4 1]⟩]) =
          (⟨false, left, calls⟩, k', log' ++ [⟨.answer (some .getCertificate), q.header, k,
            [.read 0 4, .read 4 1]⟩] ++ [⟨.payload .getCertificate, q.body, k, accesses⟩]) := by
        simp only [ProtocolModule.recording, hh]
      rw [hfinds.drain_stops hdata] at hd
      simp only [Except.ok.injEq, Prod.mk.injEq] at hd
      refine ⟨v, sm₁, k₁, log₁, [], hfeed, ?_, by simp⟩
      rw [← hd.2.1.2.2, seen_append, seen_append, hseen, hseen₀]
      simp [seen, chain]

theorem wellSized_of_calls (hline : Banner line) (hb : sm.buf = [])
    (has : ∀ a ∈ as, a ≠ .data [])
    (hstream : received as = line ++ 0x0A :: ps.flatMap Packet.bytes)
    (hfuel : (received as).length < fuel) {v : Bool} {sm' : Lvl4SM Handler} {k' : κ}
    {log' : List (HandlerCall Handler κ)} {more : List (Handler × List UInt8)}
    (hfeed : feed ssh.protocol.recording ct fuel as (sm.callAll ssh.protocol.connect) (k, []) =
      .ok (v, sm', k', log'))
    (hseen : seen log' = (.banner, line) :: (chain ps ++ more)) : ∀ p ∈ ps.take 2, p.WellSized := by
  obtain ⟨sm₀, log₀, hbanner, ht₀, hseen₀⟩ :=
    leads_banner ssh ct hline sm k (ps.flatMap Packet.bytes)
  rw [← hstream] at hbanner
  have hsame : ∀ {sm₁ : Lvl4SM Handler} {log₁ xs}, (scanner ssh.protocol.recording ct).Leads
      (fun p => p.1.trigger.Tokenising) ((sm.callAll ssh.protocol.connect).control, k, [])
      (received as) (sm₁, k, log₁) xs →
      ∃ rest, ((scanner ssh.protocol.recording ct).drain (sm₁, k, log₁) xs).2 =
        .ok (v, (sm'.control, k', log'), rest) := by
    intro sm₁ log₁ xs hl
    obtain ⟨v₁, sm₂, k₂, log₂, rest, hfeed₁, hd⟩ := run_of_leads hb has hfuel hl
    rw [hfeed, Except.ok.injEq, Prod.mk.injEq, Prod.mk.injEq, Prod.mk.injEq] at hfeed₁
    obtain ⟨rfl, rfl, rfl, rfl⟩ := hfeed₁
    exact ⟨rest, hd⟩
  match ps with
  | [] => simp
  | [p] =>
    rw [List.flatMap_cons] at hbanner
    obtain ⟨rest, hd⟩ := hsame hbanner
    have hp : p.WellSized := wellSized_of_seen ht₀ hd (by rw [hseen, hseen₀]; rfl)
    simpa using hp
  | p :: q :: ps =>
    rw [List.flatMap_cons, List.flatMap_cons] at hbanner
    obtain ⟨rest, hd⟩ := hsame hbanner
    have hp : p.WellSized := wellSized_of_seen ht₀ hd (by rw [hseen, hseen₀]; rfl)
    obtain ⟨sm₁, log₁, hfirst, ht₁, hseen₁⟩ := leads_first hp ht₀
    obtain ⟨rest, hd⟩ := hsame (hbanner.trans hfirst)
    have hq : q.WellSized := wellSized_of_seen ht₁ hd (by rw [hseen, hseen₁, hseen₀]; rfl)
    intro p' hp'
    rcases List.mem_pair.mp hp' with rfl | rfl
    · exact hp
    · exact hq

/-- A packet is no longer than the stream it comes in. -/
theorem packetLength_le_of_stream (hstream : received as = line ++ 0x0A :: ps.flatMap Packet.bytes)
    {p : Packet} (hp : p ∈ ps) : p.packetLength.toNat ≤ (received as).length := by
  have hbytes : p.bytes.length ≤ (ps.flatMap Packet.bytes).length :=
    (List.sublist_flatten_of_mem (List.mem_map_of_mem hp)).length_le
  have hheader : p.header.length = 5 := rfl
  rw [Packet.bytes, List.length_append, hheader, p.length_body] at hbytes
  rw [hstream, List.length_append, List.length_cons]
  omega

/-- However the banner and the packets are cut into reads, as long as the receive buffer can hold
all of them. -/
theorem framed_iff (hline : Banner line) (hb : sm.buf = []) (has : ∀ a ∈ as, a ≠ .data [])
    (hstream : received as = line ++ 0x0A :: ps.flatMap Packet.bytes)
    (hsmall : (received as).length < 2 ^ 30) (hfuel : (received as).length < fuel) :
    ssh.Framed ct line ps k sm as fuel ↔ ∀ p ∈ ps.take 2, p.paddingLength = 6 := by
  constructor
  · rintro ⟨⟨v, sm', k', log, more, hfeed, hseen, -⟩, -⟩ p hp
    exact (p.wellSized_iff.mp (wellSized_of_calls hline hb has hstream hfuel hfeed hseen p hp)).1
  · intro h
    have hlen : ∀ p ∈ ps.take 2, p.packetLength.toNat + 6 < 4294967296 := by
      intro p hp
      have hle := packetLength_le_of_stream hstream (List.mem_of_mem_take hp)
      omega
    have hw : ∀ p ∈ ps.take 2, p.WellSized :=
      fun p hp => p.wellSized_iff.mpr ⟨h p hp, hlen p hp⟩
    refine ⟨calls_of_wellSized hline hb has hstream hfuel hw, fun p hp => ?_⟩
    rw [h p hp]
    exact hlen p hp

end Run

/-- `SSH-2.0`, and a packet with six bytes of padding. -/
def sixPadded : Packet := ⟨12, 6, [1, 2, 3, 4, 5], [0, 0, 0, 0, 0, 0], by decide, rfl, rfl⟩

def fourPadded : Packet := ⟨12, 4, [1, 2, 3, 4, 5, 6, 7], [0, 0, 0, 0], by decide, rfl, rfl⟩

theorem version_banner : Banner version := ⟨rfl, by decide⟩

theorem framed_two_packets :
    (⟨none, none⟩ : SSH Unit).Framed ⟨⟨1, ⟨22, .tcp⟩⟩, 5⟩ version [sixPadded, sixPadded] () (Lvl4SM.new 0)
      [.data version, .pass, .data (0x0A :: sixPadded.bytes ++ [0, 0]),
        .data (sixPadded.bytes.drop 2)] 41 :=
  (framed_iff version_banner rfl (by decide) (by decide) (by decide) (by decide)).mpr (by decide)

/-- Nine bytes are awaited after the header of a packet that has eleven. -/
theorem four_padded_not_framed :
    ¬ (⟨none, none⟩ : SSH Unit).Framed ⟨⟨1, ⟨22, .tcp⟩⟩, 5⟩ version [fourPadded] () (Lvl4SM.new 0)
      [.data (version ++ 0x0A :: fourPadded.bytes)] 25 := by
  rintro ⟨⟨v, sm', k', log, more, hfeed, hseen, -⟩, -⟩
  have hw := wellSized_of_calls version_banner rfl (by decide) (by decide) (by decide) hfeed hseen
    fourPadded (by simp)
  revert hw
  unfold Packet.WellSized
  decide

/-! The host key. -/

inductive Note
  | certificate (r : Region)
  | invalid (r : Region)
  deriving DecidableEq, Repr

/-- The same module, with a note taken of each call of a callback. -/
def noted (ssh : SSH κ) : SSH (κ × List Note) where
  cbCertif := ssh.cbCertif.map (DataCallback.noted .certificate)
  cbInvalid := ssh.cbInvalid.map (DataCallback.noted .invalid)

/-- The calls of callbacks that `SSHGetCertificate` makes on a chunk. -/
def notes (ssh : SSH κ) (ct : ConnectedTarget) (chunk : List UInt8) (k : κ) : List Note :=
  (ssh.noted.getCertificate ct chunk (k, [])).state.2

/-- The chunk holds the host key `blob`, and `rest` behind it. -/
def KeyReply (chunk blob rest : List UInt8) : Prop :=
  blob.length < 4294967296 ∧ chunk = 0x1f :: (be32 blob.length ++ (blob ++ rest))

structure ExtractsKey (ssh : SSH κ) (ct : ConnectedTarget) (chunk : List UInt8) (k : κ) :
    Prop where
  accepts : (∃ r, Note.certificate r ∈ ssh.notes ct chunk k) ↔ ∃ blob rest, KeyReply chunk blob rest
  blob : ∀ blob rest, KeyReply chunk blob rest →
    ssh.notes ct chunk k = [.certificate ⟨5, blob.length, blob⟩]
  invalid : (¬ ∃ blob rest, KeyReply chunk blob rest) →
    (ssh.cbInvalid.isSome → ∃ r, ssh.notes ct chunk k = [.invalid r] ∧
      r.pos + r.size ≤ chunk.length) ∧
    (ssh.cbInvalid = none → ssh.notes ct chunk k = [])
  inside : ∀ a ∈ (ssh.getCertificate ct chunk k).accesses, a.stop ≤ chunk.length

/-- The checks of `SSHGetCertificate`. -/
def KeyChunk (chunk : List UInt8) : Prop :=
  5 ≤ chunk.length ∧ byteAt chunk 0 = 0x1f ∧ be32At chunk 1 ≤ chunk.length - 5

theorem KeyReply.chunk {chunk blob rest : List UInt8} (h : KeyReply chunk blob rest) :
    KeyChunk chunk ∧ be32At chunk 1 = blob.length ∧ chunk.length = blob.length + rest.length + 5 ∧
      regionAt chunk 5 blob.length = ⟨5, blob.length, blob⟩ := by
  obtain ⟨hlt, rfl⟩ := h
  have hat : be32At (0x1f :: (be32 blob.length ++ (blob ++ rest))) 1 = blob.length :=
    be32At_be32 hlt (blob ++ rest)
  have hlen : (0x1f :: (be32 blob.length ++ (blob ++ rest))).length =
      blob.length + rest.length + 5 := by
    simp only [List.length_cons, List.length_append, length_be32]
    omega
  refine ⟨⟨by omega, rfl, by omega⟩, hat, hlen, ?_⟩
  have hdrop : (0x1f :: (be32 blob.length ++ (blob ++ rest))).drop 5 = blob ++ rest := rfl
  rw [regionAt, hdrop, List.take_left]

theorem KeyReply.region {chunk blob rest : List UInt8} (h : KeyReply chunk blob rest) :
    (regionAt chunk 5 (chunk.length - 5)).bytes = blob ++ rest := by
  obtain ⟨-, -, hlen, -⟩ := h.chunk
  have hdrop : chunk.drop 5 = blob ++ rest := by
    rw [h.2]
    rfl
  rw [regionAt, hdrop, hlen]
  exact List.take_of_length_le (by rw [List.length_append]; omega)

theorem KeyChunk.reply {chunk : List UInt8} (h : KeyChunk chunk) :
    ∃ blob rest, KeyReply chunk blob rest := by
  obtain ⟨h5, htype, hle⟩ := h
  match chunk, h5 with
  | a :: b :: c :: d :: e :: list, _ =>
    have hlt := be32At_lt (a :: b :: c :: d :: e :: list) 1
    have hbytes := be32_be32At (a :: b :: c :: d :: e :: list) 1
    have ha : a = 0x1f := htype
    have hlist : be32At (a :: b :: c :: d :: e :: list) 1 ≤ list.length := by simpa using hle
    have hlen : (list.take (be32At (a :: b :: c :: d :: e :: list) 1)).length =
        be32At (a :: b :: c :: d :: e :: list) 1 := by
      rw [List.length_take]
      omega
    refine ⟨list.take (be32At (a :: b :: c :: d :: e :: list) 1),
      list.drop (be32At (a :: b :: c :: d :: e :: list) 1), by rw [hlen]; exact hlt, ?_⟩
    rw [hlen, hbytes, List.take_append_drop, ha]
    rfl

theorem getCertificate_accepts (ssh : SSH κ) (ct : ConnectedTarget) {chunk : List UInt8}
    (h : KeyChunk chunk) (k : κ) : ssh.getCertificate ct chunk k =
      (callCb false ssh.cbCertif ct chunk 5 (chunk.length - 5) k).after [.read 0 1, .read 1 4] := by
  obtain ⟨h5, htype, hle⟩ := h
  simp only [getCertificate, htype, ne_eq, not_true_eq_false, if_false]
  rw [if_neg (by omega), if_neg (by omega), if_neg (by omega)]
  rfl

theorem getCertificate_rejects (ssh : SSH κ) (ct : ConnectedTarget) {chunk : List UInt8}
    (h : ¬ KeyChunk chunk) (k : κ) : ∃ pos size as, pos + size ≤ chunk.length ∧
      (∀ a ∈ as, a.stop ≤ chunk.length) ∧
      ssh.getCertificate ct chunk k = (ssh.invalid ct chunk pos size k).after as := by
  unfold getCertificate
  dsimp only
  split_ifs with h1 htype h4 hlen
  · exact ⟨0, chunk.length, [], by omega, by simp, rfl⟩
  · exact ⟨0, chunk.length, [.read 0 1], by omega, by simp [Access.stop]; omega, rfl⟩
  · exact ⟨1, chunk.length - 1, [.read 0 1], by omega, by simp [Access.stop]; omega, rfl⟩
  · exact ⟨5, chunk.length - 1 - 4, [.read 0 1, .read 1 4], by omega,
      by simp [Access.stop]; omega, rfl⟩
  · exact absurd ⟨by omega, by simpa using htype, by omega⟩ h

theorem notes_accepts (hc : ssh.cbCertif.isSome) {chunk : List UInt8} (h : KeyChunk chunk) (k : κ) :
    ssh.notes ct chunk k = [.certificate (regionAt chunk 5 (chunk.length - 5))] := by
  obtain ⟨f, hf⟩ := Option.isSome_iff_exists.mp hc
  rw [notes, getCertificate_accepts ssh.noted ct h]
  simp [noted, hf, callCb, DataCallback.noted, Handling.after]

theorem notes_rejects {chunk : List UInt8} (h : ¬ KeyChunk chunk) (k : κ) :
    (ssh.cbInvalid.isSome → ∃ r, ssh.notes ct chunk k = [.invalid r] ∧
        r.pos + r.size ≤ chunk.length) ∧
      (ssh.cbInvalid = none → ssh.notes ct chunk k = []) := by
  obtain ⟨pos, size, as, hle, -, heq⟩ := getCertificate_rejects ssh.noted ct h (k, [])
  constructor
  · intro hi
    obtain ⟨f, hf⟩ := Option.isSome_iff_exists.mp hi
    refine ⟨regionAt chunk pos size, ?_, hle⟩
    rw [notes, heq]
    simp [invalid, noted, hf, callCb, DataCallback.noted, Handling.after]
  · intro hi
    rw [notes, heq]
    simp [invalid, noted, hi, callCb, Handling.after]

theorem getCertificate_inside (ssh : SSH κ) (ct : ConnectedTarget) (chunk : List UInt8) (k : κ) :
    ∀ a ∈ (ssh.getCertificate ct chunk k).accesses, a.stop ≤ chunk.length := by
  by_cases h : KeyChunk chunk
  · have h5 := h.1
    rw [getCertificate_accepts ssh ct h, Handling.after_accesses, List.forall_mem_append]
    refine ⟨by simp [Access.stop]; omega, callCb_inside.mpr fun _ => by omega⟩
  · obtain ⟨pos, size, as, hle, has, heq⟩ := getCertificate_rejects ssh ct h k
    rw [heq, Handling.after_accesses, List.forall_mem_append]
    exact ⟨has, callCb_inside.mpr fun _ => hle⟩

theorem extracts_key_iff (hc : ssh.cbCertif.isSome) (chunk : List UInt8) (k : κ) :
    ssh.ExtractsKey ct chunk k ↔ ∀ blob rest, KeyReply chunk blob rest → rest = [] := by
  have hreply : (∃ blob rest, KeyReply chunk blob rest) ↔ KeyChunk chunk := by
    constructor
    · rintro ⟨blob, rest, h⟩
      exact h.chunk.1
    · exact fun h => h.reply
  constructor
  · intro hx blob rest hkey
    obtain ⟨hchunk, -, hlen, -⟩ := hkey.chunk
    have hnotes := hx.blob blob rest hkey
    rw [notes_accepts hc hchunk] at hnotes
    have hsize : chunk.length - 5 = blob.length :=
      congrArg Region.size (Note.certificate.inj (List.singleton_injective hnotes))
    apply List.length_eq_zero_iff.mp
    omega
  · intro hwhole
    refine ⟨?_, ?_, ?_, getCertificate_inside ssh ct chunk k⟩
    · rw [hreply]
      constructor
      · rintro ⟨r, hr⟩
        by_contra hno
        obtain ⟨hset, hunset⟩ : (ssh.cbInvalid.isSome → ∃ r, ssh.notes ct chunk k = [.invalid r] ∧
            r.pos + r.size ≤ chunk.length) ∧ _ := notes_rejects hno k
        cases hi : ssh.cbInvalid with
        | none => simp [hunset hi] at hr
        | some f =>
          obtain ⟨r', hnotes, -⟩ := hset (by rw [hi]; rfl)
          simp [hnotes] at hr
      · intro hchunk
        exact ⟨_, by rw [notes_accepts hc hchunk]; exact List.mem_singleton_self _⟩
    · intro blob rest hkey
      obtain ⟨hchunk, -, hlen, hregion⟩ := hkey.chunk
      rw [hwhole blob rest hkey, List.length_nil, Nat.add_zero] at hlen
      rw [notes_accepts hc hchunk, hlen, Nat.add_sub_cancel, hregion]
    · intro hno
      rw [hreply] at hno
      exact notes_rejects hno k

def keyOnly : List UInt8 := [0x1f, 0, 0, 0, 2, 7, 8]

def listening : SSH Unit := ⟨some fun _ _ _ _ k => (false, k), some fun _ _ _ _ k => (false, k)⟩

theorem extracts_key_alone : listening.ExtractsKey ⟨⟨1, ⟨22, .tcp⟩⟩, 5⟩ keyOnly () := by
  apply (extracts_key_iff rfl keyOnly ()).mpr
  intro blob rest h
  obtain ⟨-, hat, hlen, -⟩ := h.chunk
  have hkey : be32At keyOnly 1 = 2 := by decide
  have hlen' : keyOnly.length = 7 := rfl
  apply List.length_eq_zero_iff.mp
  omega

/-- One byte after the key is handed to the callback with it. -/
theorem key_with_rest_not_extracted :
    ¬ listening.ExtractsKey ⟨⟨1, ⟨22, .tcp⟩⟩, 5⟩ (keyOnly ++ [9]) () := by
  intro h
  have hkey := h.blob [7, 8] [9] ⟨by decide, rfl⟩
  revert hkey
  decide

end SSH
end Nodescan
