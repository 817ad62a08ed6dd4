import Nodescan.TargetSets

/-!
# Targets read from a file descriptor

`TargetAsyncFile` keeps the bytes it has read in a buffer and takes one line of it at a time. The
parser of addresses belongs to the leeloo library and is a parameter, `ipv4toi`, a function of the
line that answers nothing for a line that is not an address.

One value, `Target::end()`, stands for a buffer without a whole line, for a line that is not an
address and for the end of the input. A line that is not an address is gone from the buffer after
the call that met it.
-/

namespace Nodescan

def newline : UInt8 := 0x0A

/-- The lines of `buf` that are ended by a newline. -/
def lines (buf : List UInt8) : List (List UInt8) := (buf.splitOn newline).dropLast

theorem lines_of_not_mem {buf : List UInt8} (h : newline ∉ buf) : lines buf = [] := by
  rw [lines, List.splitOn_eq_singleton h]
  rfl

theorem lines_cons {line : List UInt8} (h : newline ∉ line) (rest : List UInt8) :
    lines (line ++ newline :: rest) = line :: lines rest := by
  rw [lines, List.splitOn_append_cons_self_of_not_mem h,
    List.dropLast_cons_of_ne_nil (List.splitOn_ne_nil _ _)]
  rfl

theorem lines_append (line rest : List UInt8) :
    lines (line ++ newline :: rest) = lines (line ++ [newline]) ++ lines rest := by
  rw [lines, lines, lines, List.splitOn_append_cons_self, List.splitOn_append_cons_self,
    List.dropLast_append_of_ne_nil (List.splitOn_ne_nil _ _)]
  simp

theorem first_line (buf : List UInt8) : newline ∉ buf ∨
    ∃ line rest, newline ∉ line ∧ buf = line ++ newline :: rest := by
  by_cases hmem : newline ∈ buf
  · obtain ⟨line, rest, hbuf, hline⟩ := List.eq_append_cons_of_mem hmem
    exact Or.inr ⟨line, rest, hline, hbuf⟩
  · exact Or.inl hmem

theorem first_line_unique {line line' rest rest' : List UInt8} (h : newline ∉ line)
    (h' : newline ∉ line') (heq : line ++ newline :: rest = line' ++ newline :: rest') :
    line = line' ∧ rest = rest' := by
  have hidx := congrArg (List.idxOf? newline) heq
  rw [idxOf?_append_cons h, idxOf?_append_cons h'] at hidx
  obtain ⟨hl, hr⟩ := List.append_inj heq (Option.some.inj hidx)
  exact ⟨hl, (List.cons.inj hr).2⟩

/-- What the system answers to a call that the buffer cannot serve: to `select`, then to `ioctl`,
then to `read`. With `navail = 0` nothing is read. -/
inductive Poll
  | selectFailed
  | notReady
  | ioctlFailed
  | avail (navail : ℕ) (r : ReadResult)

structure TargetAsyncFile where
  buf : List UInt8
  defPort : Port

namespace TargetAsyncFile

variable (ipv4toi : List UInt8 → Option UInt32)

/-- `next_target_in_buf`. -/
def nextTargetInBuf (f : TargetAsyncFile) : Target × TargetAsyncFile :=
  match f.buf.idxOf? newline with
  | none => (.endMark, f)
  | some size =>
    let f' := { f with buf := f.buf.drop (size + 1) }
    match ipv4toi (f.buf.take size) with
    | none => (.endMark, f')
    | some ipv4 => (⟨ipv4, f.defPort⟩, f')

/-- The part of `next_target` from `read` on. -/
def readTarget (navail : ℕ) (r : ReadResult) (f : TargetAsyncFile) :
    NextTarget × TargetAsyncFile :=
  let f := { f with buf := f.buf ++ r.bytes navail }
  if r.nread ≤ 0 then (.target .endMark, f)
  else
    let ret := f.nextTargetInBuf ipv4toi
    if ret.1 = .endMark then (.wouldBlock, ret.2) else (.target ret.1, ret.2)

/-- The part of `next_target` from `select` on. -/
def pollTarget (f : TargetAsyncFile) : Poll → NextTarget × TargetAsyncFile
  | .selectFailed => (.target .endMark, f)
  | .notReady => (.wouldBlock, f)
  | .ioctlFailed => (.target .endMark, f)
  | .avail navail r =>
    if navail = 0 then (.target .endMark, f) else f.readTarget ipv4toi navail r

variable {κ : Type} (poll : κ → Poll × κ)

/-- `next_target`. The system is asked only if the buffer gives no target. -/
def nextTarget (f : TargetAsyncFile) (k : κ) : NextTarget × TargetAsyncFile × κ :=
  let ret := if 0 < f.buf.length then f.nextTargetInBuf ipv4toi else (.endMark, f)
  if ret.1 ≠ .endMark then (.target ret.1, ret.2, k)
  else
    let p := poll k
    ((ret.2.pollTarget ipv4toi p.1).1, (ret.2.pollTarget ipv4toi p.1).2, p.2)

def targetSet : TargetSet (TargetAsyncFile × κ) where
  init x := x
  nextTarget x := nextTarget ipv4toi poll x.1 x.2
  targetFinished t hsm x := (SimpleTargetSet.targetFinished t hsm, x)
  initHostSm _ hsm x := (hsm, x)

/-- The target a line stands for. -/
def targetOf (port : Port) (line : List UInt8) : Option Target :=
  (ipv4toi line).map (⟨·, port⟩)

/-- The targets of the valid lines of `buf`. -/
def targets (port : Port) (buf : List UInt8) : List Target :=
  (lines buf).filterMap (targetOf ipv4toi port)

theorem targets_cons {port : Port} {line : List UInt8} (h : newline ∉ line) (rest : List UInt8) :
    targets ipv4toi port (line ++ newline :: rest) =
      (targetOf ipv4toi port line).toList ++ targets ipv4toi port rest := by
  rw [targets, lines_cons h, List.filterMap_cons]
  cases targetOf ipv4toi port line <;> rfl

theorem targets_append {port : Port} (line rest : List UInt8) :
    targets ipv4toi port (line ++ newline :: rest) =
      targets ipv4toi port (line ++ [newline]) ++ targets ipv4toi port rest := by
  rw [targets, lines_append, List.filterMap_append]
  rfl

variable {ipv4toi}

theorem nextTargetInBuf_line {f : TargetAsyncFile} {line rest : List UInt8}
    (h : newline ∉ line) (hbuf : f.buf = line ++ newline :: rest) :
    f.nextTargetInBuf ipv4toi =
      ((targetOf ipv4toi f.defPort line).getD .endMark, { f with buf := rest }) := by
  have hidx : f.buf.idxOf? newline = some line.length := by rw [hbuf, idxOf?_append_cons h]
  have htake : f.buf.take line.length = line := by rw [hbuf, List.take_left]
  have hdrop : f.buf.drop (line.length + 1) = rest := by
    rw [hbuf, List.drop_append, List.drop_eq_nil_of_le (by omega)]
    simp
  rw [nextTargetInBuf, hidx]
  simp only [htake, hdrop, targetOf]
  cases ipv4toi line <;> rfl

theorem nextTargetInBuf_none {f : TargetAsyncFile} (h : newline ∉ f.buf) :
    f.nextTargetInBuf ipv4toi = (.endMark, f) := by
  rw [nextTargetInBuf, List.idxOf?_eq_none_iff.mpr h]

variable (ipv4toi) in
theorem nextTarget_eq (f : TargetAsyncFile) (k : κ) :
    f.nextTarget ipv4toi poll k =
      if (f.nextTargetInBuf ipv4toi).1 ≠ .endMark then
        (.target (f.nextTargetInBuf ipv4toi).1, (f.nextTargetInBuf ipv4toi).2, k)
      else
        (((f.nextTargetInBuf ipv4toi).2.pollTarget ipv4toi (poll k).1).1,
          ((f.nextTargetInBuf ipv4toi).2.pollTarget ipv4toi (poll k).1).2, (poll k).2) := by
  have hret : (if 0 < f.buf.length then f.nextTargetInBuf ipv4toi else (.endMark, f)) =
      f.nextTargetInBuf ipv4toi := by
    by_cases hpos : 0 < f.buf.length
    · rw [if_pos hpos]
    · have hnil : f.buf = [] := List.length_eq_zero_iff.mp (by omega)
      rw [if_neg hpos, nextTargetInBuf_none (by simp [hnil])]
  simp only [nextTarget, hret]

end TargetAsyncFile
end Nodescan
