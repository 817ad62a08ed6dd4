import Nodescan.TargetFile

/-!
# A stream of lines read as it arrives

Bytes arrive on a descriptor and are read, all that are there, by those calls of `next_target` that
find no target in the buffer. Over every schedule of arrivals and calls the targets are those of
the valid lines, in order: what a call takes from the buffer is always a whole number of lines, and
it answers the target of the only one of them that has one.

The answer to a closed input does not follow from that. A call that meets a line without a target
looks at no other line before it asks for input, so it can announce the end over a buffer with
valid lines.
-/

namespace Nodescan

/-- The descriptor as the kernel has it. `received` are the bytes read from it so far. -/
structure Stream where
  isStdin : Bool
  pending : List UInt8
  closed : Bool
  received : List UInt8

/-- The system calls that may fail within a call of `next_target`. -/
inductive Mishap
  | noMishap
  | select
  | ioctl
  deriving DecidableEq

namespace Stream

/-- The answer of `select`. It is asked about the standard input, whatever the descriptor is;
`stdin` is its answer where the two differ. -/
def ready (stdin : Bool) (s : Stream) : Bool :=
  if s.isStdin then !s.pending.isEmpty || s.closed else stdin

def poll (m : Mishap) (stdin : Bool) (s : Stream) : Poll × Stream :=
  if m = .select then (.selectFailed, s)
  else if s.ready stdin = false then (.notReady, s)
  else if m = .ioctl then (.ioctlFailed, s)
  else (.avail s.pending.length ⟨s.pending.length, s.pending⟩,
    { s with pending := [], received := s.received ++ s.pending })

end Stream

/-- The targets among the answers of `next_target`. -/
def NextTarget.answered : NextTarget → List Target
  | .wouldBlock => []
  | .target t => if t = .endMark then [] else [t]

@[simp] theorem NextTarget.answered_endMark : (NextTarget.target .endMark).answered = [] := rfl

/-- The bytes that the system has put into the buffer. -/
def Poll.bytes : Poll → List UInt8
  | .avail navail r => r.bytes navail
  | _ => []

theorem Stream.poll_received (m : Mishap) (stdin : Bool) (s : Stream) :
    (s.poll m stdin).2.received = s.received ++ (s.poll m stdin).1.bytes := by
  unfold Stream.poll
  split_ifs
  · simp [Poll.bytes]
  · simp [Poll.bytes]
  · simp [Poll.bytes]
  · simp [Poll.bytes, ReadResult.bytes]

/-- No bytes, or bytes up to a newline. -/
def Whole (bytes : List UInt8) : Prop := bytes = [] ∨ ∃ line, bytes = line ++ [newline]

theorem Whole.append {front bytes : List UInt8} (h : Whole front)
    (h' : Whole bytes) : Whole (front ++ bytes) := by
  rcases h' with rfl | ⟨line, rfl⟩
  · rwa [List.append_nil]
  · exact Or.inr ⟨front ++ line, by rw [List.append_assoc]⟩

namespace TargetAsyncFile

variable {ipv4toi : List UInt8 → Option UInt32} {κ : Type} {port : Port}

theorem targets_whole {front : List UInt8} (h : Whole front) (rest : List UInt8) :
    targets ipv4toi port (front ++ rest) =
      targets ipv4toi port front ++ targets ipv4toi port rest := by
  rcases h with rfl | ⟨line, rfl⟩
  · simp [targets, lines]
  · rw [List.append_assoc, List.singleton_append, targets_append]

/-- From `bytes` a part of it was taken, with `f` left, and `answer` is all it has for targets. -/
structure Takes (ipv4toi : List UInt8 → Option UInt32) (port : Port) (bytes : List UInt8)
    (answer : List Target) (f : TargetAsyncFile) : Prop where
  defPort : f.defPort = port
  taken : ∃ front, bytes = front ++ f.buf ∧ Whole front ∧ answer = targets ipv4toi port front

theorem Takes.none (f : TargetAsyncFile) : Takes ipv4toi f.defPort f.buf [] f where
  defPort := rfl
  taken := ⟨[], rfl, Or.inl rfl, rfl⟩

theorem Takes.trans {bytes more : List UInt8} {answer answer' : List Target}
    {f f' : TargetAsyncFile} (h : Takes ipv4toi port bytes answer f)
    (h' : Takes ipv4toi port (f.buf ++ more) answer' f') :
    Takes ipv4toi port (bytes ++ more) (answer ++ answer') f' := by
  obtain ⟨front, hbytes, hwhole, hanswer⟩ := h.taken
  obtain ⟨front', hbytes', hwhole', hanswer'⟩ := h'.taken
  refine ⟨h'.defPort, front ++ front', ?_, hwhole.append hwhole', ?_⟩
  · rw [hbytes, List.append_assoc, hbytes', List.append_assoc]
  · rw [targets_whole hwhole, hanswer, hanswer']

theorem answered_targetOf (hport : port.protocol ≠ .unsupported) (line : List UInt8) :
    (NextTarget.target ((targetOf ipv4toi port line).getD .endMark)).answered =
      (targetOf ipv4toi port line).toList := by
  cases hline : ipv4toi line with
  | none => simp [targetOf, hline, NextTarget.answered]
  | some ipv4 =>
    have hne : (⟨ipv4, port⟩ : Target) ≠ .endMark := by
      intro heq
      exact hport (congrArg (fun t : Target => t.port.protocol) heq)
    simp [targetOf, hline, NextTarget.answered, hne]

variable (ipv4toi) in
theorem nextTargetInBuf_takes (f : TargetAsyncFile) (hport : f.defPort.protocol ≠ .unsupported) :
    Takes ipv4toi f.defPort f.buf (NextTarget.target (f.nextTargetInBuf ipv4toi).1).answered
      (f.nextTargetInBuf ipv4toi).2 := by
  rcases first_line f.buf with hnone | ⟨line, rest, hline, hbuf⟩
  · rw [nextTargetInBuf_none hnone]
    exact Takes.none f
  · rw [nextTargetInBuf_line hline hbuf, answered_targetOf hport]
    refine ⟨rfl, line ++ [newline], by simp [hbuf], Or.inr ⟨line, rfl⟩, ?_⟩
    rw [targets_cons ipv4toi hline]
    simp [targets, lines]

variable (ipv4toi) in
theorem pollTarget_takes (f : TargetAsyncFile) (hport : f.defPort.protocol ≠ .unsupported)
    (p : Poll) :
    Takes ipv4toi f.defPort (f.buf ++ p.bytes) (f.pollTarget ipv4toi p).1.answered
      (f.pollTarget ipv4toi p).2 := by
  cases p with
  | selectFailed => simpa [Poll.bytes, pollTarget] using Takes.none f
  | notReady => simpa [Poll.bytes, pollTarget, NextTarget.answered] using Takes.none f
  | ioctlFailed => simpa [Poll.bytes, pollTarget] using Takes.none f
  | avail navail r =>
    by_cases hzero : navail = 0
    · simpa [Poll.bytes, ReadResult.bytes, pollTarget, hzero] using Takes.none f
    let g : TargetAsyncFile := { f with buf := f.buf ++ r.bytes navail }
    rw [pollTarget, if_neg hzero]
    change Takes ipv4toi g.defPort g.buf _ _
    by_cases hread : r.nread ≤ 0
    · simp only [readTarget, if_pos hread]
      exact Takes.none g
    · have hg := nextTargetInBuf_takes ipv4toi g hport
      simp only [readTarget, if_neg hread]
      by_cases hend : (g.nextTargetInBuf ipv4toi).1 = .endMark
      · rw [if_pos hend]
        rwa [hend] at hg
      · rw [if_neg hend]
        exact hg

variable (ipv4toi) in
/-- What a call takes, of the buffer and of what it reads, if it reads. -/
theorem nextTarget_takes (poll : κ → Poll × κ) (f : TargetAsyncFile)
    (hport : f.defPort.protocol ≠ .unsupported) (k : κ) :
    (Takes ipv4toi f.defPort f.buf (f.nextTarget ipv4toi poll k).1.answered
        (f.nextTarget ipv4toi poll k).2.1 ∧ (f.nextTarget ipv4toi poll k).2.2 = k) ∨
      (Takes ipv4toi f.defPort (f.buf ++ (poll k).1.bytes)
        (f.nextTarget ipv4toi poll k).1.answered (f.nextTarget ipv4toi poll k).2.1 ∧
        (f.nextTarget ipv4toi poll k).2.2 = (poll k).2) := by
  have hret := nextTargetInBuf_takes ipv4toi f hport
  rw [nextTarget_eq]
  split_ifs with hend
  · exact Or.inl ⟨hret, rfl⟩
  · right
    refine ⟨?_, rfl⟩
    have hpoll := pollTarget_takes ipv4toi _ (by rwa [hret.defPort]) (poll k).1
    rw [hret.defPort] at hpoll
    rw [not_not.mp hend, NextTarget.answered_endMark] at hret
    exact hret.trans hpoll

variable (ipv4toi) in
theorem nextTarget_defPort (poll : κ → Poll × κ) (f : TargetAsyncFile) (k : κ) :
    (f.nextTarget ipv4toi poll k).2.1.defPort = f.defPort := by
  have hbuf : ∀ g : TargetAsyncFile, (g.nextTargetInBuf ipv4toi).2.defPort = g.defPort := by
    intro g
    rcases first_line g.buf with hnone | ⟨line, rest, hline, hbuf⟩
    · rw [nextTargetInBuf_none hnone]
    · rw [nextTargetInBuf_line hline hbuf]
  have hpoll : ∀ (g : TargetAsyncFile) p, (g.pollTarget ipv4toi p).2.defPort = g.defPort := by
    intro g p
    cases p with
    | avail navail r =>
      simp only [pollTarget, readTarget]
      split_ifs
      · rfl
      · rfl
      · exact hbuf _
      · exact hbuf _
    | _ => rfl
  rw [nextTarget_eq]
  split_ifs
  · exact hbuf f
  · exact (hpoll _ _).trans (hbuf f)

end TargetAsyncFile

/-- The file and its descriptor in use, and the targets it has returned so far. -/
structure Session where
  file : TargetAsyncFile
  stream : Stream
  returned : List Target

namespace Session

open TargetAsyncFile

inductive Act
  | arrive (bytes : List UInt8)
  | close
  | next (m : Mishap) (stdin : Bool)

def start (isStdin : Bool) (port : Port) : Session := ⟨⟨[], port⟩, ⟨isStdin, [], false, []⟩, []⟩

variable (ipv4toi : List UInt8 → Option UInt32)

/-- `next_target` in the session. -/
def call (m : Mishap) (stdin : Bool) (s : Session) : NextTarget × TargetAsyncFile × Stream :=
  s.file.nextTarget ipv4toi (Stream.poll m stdin) s.stream

def step (s : Session) : Act → Session
  | .arrive bytes =>
    if s.stream.closed then s
    else { s with stream := { s.stream with pending := s.stream.pending ++ bytes } }
  | .close => { s with stream := { s.stream with closed := true } }
  | .next m stdin =>
    let r := s.call ipv4toi m stdin
    ⟨r.2.1, r.2.2, s.returned ++ r.1.answered⟩

def run (s : Session) (acts : List Act) : Session := acts.foldl (step ipv4toi) s

/-- What was received was taken line by line, and answered. -/
def Conserved (port : Port) (s : Session) : Prop :=
  Takes ipv4toi port s.stream.received s.returned s.file

variable {ipv4toi} {port : Port} {s : Session}

theorem step_conserved (hport : port.protocol ≠ .unsupported) (a : Act)
    (h : s.Conserved ipv4toi port) : (s.step ipv4toi a).Conserved ipv4toi port := by
  cases a with
  | arrive bytes =>
    rw [step]
    split_ifs <;> exact h
  | close => exact h
  | next m stdin =>
    have hfile : s.file.defPort = port := h.defPort
    have hcall := nextTarget_takes ipv4toi (Stream.poll m stdin) s.file
      (by rwa [hfile]) s.stream
    rw [hfile] at hcall
    rcases hcall with ⟨htakes, hstream⟩ | ⟨htakes, hstream⟩
    · -- the buffer had a target, and the descriptor was not looked at
      rw [← List.append_nil s.file.buf] at htakes
      have hall := h.trans htakes
      rw [List.append_nil] at hall
      rwa [Conserved, step, call, hstream]
    · have hall := h.trans htakes
      rwa [Conserved, step, call, hstream, Stream.poll_received]

theorem run_conserved (hport : port.protocol ≠ .unsupported) (acts : List Act)
    (h : s.Conserved ipv4toi port) : (s.run ipv4toi acts).Conserved ipv4toi port := by
  induction acts generalizing s with
  | nil => exact h
  | cons a acts ih => exact ih (step_conserved hport a h)

/-- Over every schedule the targets returned so far, followed by those of the valid lines still in
the buffer, are those of the valid lines received so far. -/
theorem returned_in_order (ipv4toi : List UInt8 → Option UInt32) (isStdin : Bool) {port : Port}
    (hport : port.protocol ≠ .unsupported) (acts : List Act) :
    ((start isStdin port).run ipv4toi acts).returned ++
        targets ipv4toi port ((start isStdin port).run ipv4toi acts).file.buf =
      targets ipv4toi port ((start isStdin port).run ipv4toi acts).stream.received := by
  have hstart : (start isStdin port).Conserved ipv4toi port := Takes.none (start isStdin port).file
  obtain ⟨front, hbytes, hwhole, hanswer⟩ := (run_conserved hport acts hstart).taken
  rw [hbytes, targets_whole hwhole, hanswer]

def dotted (line : List UInt8) : Option UInt32 :=
  let octet (digits : List UInt8) : Option ℕ :=
    let value := digits.foldl (fun v d => 10 * v + (d.toNat - 0x30)) 0
    if digits ≠ [] ∧ digits.all (fun d => 0x30 ≤ d && d ≤ 0x39) ∧ value < 256 then some value
    else none
  match (line.splitOn 0x2E).map octet with
  | [some a, some b, some c, some d] => some (((a * 256 + b) * 256 + c) * 256 + d).toUInt32
  | _ => none

def quad (d : UInt8) : List UInt8 :=
  [0x30 + d, 0x2E, 0x30 + d, 0x2E, 0x30 + d, 0x2E, 0x30 + d, newline]

def noise : List UInt8 := [0x78, newline]

theorem returned_in_order_split :
    ((start true ⟨80, .tcp⟩).run dotted [.arrive [0x31, 0x2E, 0x31], .next .noMishap false,
      .arrive ([0x2E, 0x31, 0x2E, 0x31, newline] ++ quad 2), .next .noMishap false]).returned ++
        targets dotted ⟨80, .tcp⟩ (quad 2) = targets dotted ⟨80, .tcp⟩ (quad 1 ++ quad 2) :=
  returned_in_order dotted true (by decide) [.arrive [0x31, 0x2E, 0x31], .next .noMishap false,
    .arrive ([0x2E, 0x31, 0x2E, 0x31, newline] ++ quad 2), .next .noMishap false]

/-- The input passes for closed: `select` finds it ready, and no byte can be read. -/
def AtEnd (stdin : Bool) (s : Session) : Prop :=
  s.stream.ready stdin = true ∧ s.stream.pending = []

/-- A line that gives no target stands before a valid one. -/
def Buried (ipv4toi : List UInt8 → Option UInt32) (f : TargetAsyncFile) : Prop :=
  ∃ line rest, newline ∉ line ∧ f.buf = line ++ newline :: rest ∧
    (targetOf ipv4toi f.defPort line).getD .endMark = .endMark ∧
    targets ipv4toi f.defPort rest ≠ []

theorem poll_atEnd {stdin : Bool} (h : s.AtEnd stdin) :
    (s.stream.poll .noMishap stdin).1 = .avail 0 ⟨0, []⟩ := by
  simp [Stream.poll, h.1, h.2]

variable (ipv4toi) in
theorem call_atEnd {stdin : Bool} (h : s.AtEnd stdin) {line rest : List UInt8}
    (hline : newline ∉ line) (hbuf : s.file.buf = line ++ newline :: rest) :
    (s.call ipv4toi .noMishap stdin).1 =
        .target ((targetOf ipv4toi s.file.defPort line).getD .endMark) ∧
      (s.call ipv4toi .noMishap stdin).2.1 = { s.file with buf := rest } := by
  rw [call, nextTarget_eq, nextTargetInBuf_line hline hbuf]
  simp only [poll_atEnd h, pollTarget, if_true]
  split_ifs with hend
  · exact ⟨rfl, rfl⟩
  · exact ⟨by rw [not_not.mp hend], rfl⟩

theorem call_atEnd_none {stdin : Bool} (h : s.AtEnd stdin) (hnone : newline ∉ s.file.buf) :
    (s.call ipv4toi .noMishap stdin).1 = .target .endMark ∧
      (s.call ipv4toi .noMishap stdin).2.1 = s.file := by
  rw [call, nextTarget_eq, nextTargetInBuf_none hnone]
  simp [poll_atEnd h, pollTarget]

variable (ipv4toi) in
/-- The end that a call announces there is the end of the valid lines, unless one of them was
buried. -/
theorem call_drains_iff {stdin : Bool} (h : s.AtEnd stdin) :
    ((s.call ipv4toi .noMishap stdin).1 = .target .endMark →
        targets ipv4toi s.file.defPort (s.call ipv4toi .noMishap stdin).2.1.buf = []) ↔
      ¬ Buried ipv4toi s.file := by
  rcases first_line s.file.buf with hnone | ⟨line, rest, hline, hbuf⟩
  · have hlines : targets ipv4toi s.file.defPort s.file.buf = [] := by
      rw [targets, lines_of_not_mem hnone]
      rfl
    refine iff_of_true (fun _ => ?_) ?_
    · rwa [(call_atEnd_none h hnone).2]
    · rintro ⟨line, rest, _, hbuf, _⟩
      exact hnone (by simp [hbuf])
  · obtain ⟨hanswer, hfile⟩ := call_atEnd ipv4toi h hline hbuf
    rw [hanswer, hfile, NextTarget.target.injEq]
    constructor
    · rintro hdrained ⟨line', rest', hline', hbuf', hend, hvalid⟩
      obtain ⟨rfl, rfl⟩ := first_line_unique hline hline' (hbuf.symm.trans hbuf')
      exact hvalid (hdrained hend)
    · intro hburied hend
      by_contra hvalid
      exact hburied ⟨line, rest, hline, hbuf, hend, hvalid⟩

theorem run_defPort (acts : List Act) :
    (s.run ipv4toi acts).file.defPort = s.file.defPort := by
  induction acts generalizing s with
  | nil => rfl
  | cons a acts ih =>
    rw [run, List.foldl_cons]
    refine ih.trans ?_
    cases a with
    | arrive bytes =>
      rw [step]
      split_ifs <;> rfl
    | close => rfl
    | next m stdin => exact nextTarget_defPort ipv4toi (Stream.poll m stdin) s.file s.stream

/-- Along every schedule: the calls that announce the end of a closed input leave no valid line in
the buffer, exactly if none of them is made on a buffer with a buried one. -/
theorem ends_drained_iff (ipv4toi : List UInt8 → Option UInt32) (isStdin : Bool) (port : Port)
    (acts : List Act) :
    (∀ pre stdin post, acts = pre ++ .next .noMishap stdin :: post →
        ((start isStdin port).run ipv4toi pre).AtEnd stdin →
        (((start isStdin port).run ipv4toi pre).call ipv4toi .noMishap stdin).1 = .target .endMark →
        targets ipv4toi port
          ((start isStdin port).run ipv4toi (pre ++ [.next .noMishap stdin])).file.buf = []) ↔
      ∀ pre stdin post, acts = pre ++ .next .noMishap stdin :: post →
        ((start isStdin port).run ipv4toi pre).AtEnd stdin →
        ¬ Buried ipv4toi ((start isStdin port).run ipv4toi pre).file := by
  have hport : ∀ pre, ((start isStdin port).run ipv4toi pre).file.defPort = port := run_defPort
  have hstep : ∀ pre stdin,
      ((start isStdin port).run ipv4toi (pre ++ [.next .noMishap stdin])).file =
      (((start isStdin port).run ipv4toi pre).call ipv4toi .noMishap stdin).2.1 := by
    intro pre stdin
    rw [run, List.foldl_append]
    rfl
  refine forall_congr' (fun pre => forall_congr' (fun stdin => forall_congr' (fun post => ?_)))
  refine imp_congr_right (fun _ => imp_congr_right (fun hend => ?_))
  have hcall := call_drains_iff ipv4toi hend
  rwa [hport, ← hstep] at hcall

/-- An address, a line that is none and an address arrive together; the input is closed after the
first call, and the second call announces the end. -/
theorem end_over_valid_line :
    ¬ ∀ pre stdin post, [.arrive (quad 1 ++ noise ++ quad 2), .next .noMishap false, .close,
        .next .noMishap false] = pre ++ .next .noMishap stdin :: post →
      ((start true ⟨80, .tcp⟩).run dotted pre).AtEnd stdin →
      (((start true ⟨80, .tcp⟩).run dotted pre).call dotted .noMishap stdin).1 = .target .endMark →
      targets dotted ⟨80, .tcp⟩
        ((start true ⟨80, .tcp⟩).run dotted (pre ++ [.next .noMishap stdin])).file.buf = [] := by
  intro h
  have hlast := h [.arrive (quad 1 ++ noise ++ quad 2), .next .noMishap false, .close] false [] rfl
    ⟨by decide +kernel, by decide +kernel⟩ (by decide +kernel)
  exact absurd hlast (by decide +kernel)

end Session

end Nodescan
