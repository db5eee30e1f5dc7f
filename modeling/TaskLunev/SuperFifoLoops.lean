import TaskLunev.RecordedRuns
import TaskLunev.SuperFifoModel

/-!
# Copying and printing after a failed read

The loops of `writer` and `reader` read into a buffer and pass what was read to
`write` or `fwrite`, until a read gives 0. A read that fails gives -1, which is
not 0, and becomes the length of the next call. `CHECK_ERROR` looks at the
result of that call only; for `fwrite`, which gives a number of items, it never
finds an error.
-/
namespace TaskLunev.SuperFifoLoops
open ByteMemory RecordedRuns RecordedRuns.Recorded SuperFifoModel

def EXIT_SUCCESS : ℤ := 0

def EXIT_FAILURE : ℤ := 1

/-- An integer converted to `size_t`. -/
def sizeT (x : ℤ) : ℕ := (BitVec.ofInt 64 x).toNat

/-- What the calls of one pass give: the bytes read, or `none` for -1, and the
result of `write` or `fwrite`. -/
structure Pass where
  read : Option (List Byte)
  answer : ℤ
  deriving DecidableEq, Repr

/-- The result of the call of `read`. -/
def Pass.ret (pass : Pass) : ℤ :=
  match pass.read with
  | none => -1
  | some bytes => bytes.length

/-- The buffer behind the call of `read`. -/
def Pass.fill (pass : Pass) (buf : List Byte) : List Byte :=
  match pass.read with
  | none => buf
  | some bytes => bytes ++ buf.drop bytes.length

/-- A call of `write` or `fwrite`. -/
structure Passed where
  len : ℕ
  buf : List Byte
  deriving DecidableEq, Repr

def Passed.data (call : Passed) : List Byte := call.buf.take call.len

inductive Stop where
  | waiting | outside
  deriving DecidableEq, Repr

/-- Both loops, up to the read that has not come back yet. `sink` says of a call
with this length and result whether `CHECK_ERROR` finds an error. -/
def transferLoop (sink : ℕ → ℤ → Except Stop Bool) :
    List Pass → List Byte → Recorded Passed Stop ℤ
  | [], _ => stop .waiting
  | pass :: rest, buf =>
      if pass.ret = 0 then pure EXIT_SUCCESS
      else do
        touch [⟨sizeT pass.ret, pass.fill buf⟩]
        let error ← lift (sink (sizeT pass.ret) pass.answer)
        if error then return EXIT_FAILURE
        else transferLoop sink rest (pass.fill buf)

/-- The kernel looks at the length. -/
def writeSink (_len : ℕ) (answer : ℤ) : Except Stop Bool := .ok (answer = -1)

/-- A length above that of the buffer makes `fwrite` read behind it. Its result
is compared as a `size_t`. -/
def fwriteSink (len : ℕ) (answer : ℤ) : Except Stop Bool :=
  if PIPE_BUF < len then .error .outside else .ok (sizeT answer = sizeT (-1))

def writerLoop (passes : List Pass) (buf : List Byte) : Recorded Passed Stop ℤ :=
  transferLoop writeSink passes buf

def readerLoop (passes : List Pass) (buf : List Byte) : Recorded Passed Stop ℤ :=
  transferLoop fwriteSink passes buf

/-- The reads that a loop comes to make. -/
def readsMade (sink : ℕ → ℤ → Except Stop Bool) : List Pass → List (Option (List Byte))
  | [] => []
  | pass :: rest =>
      if pass.ret ≠ 0 ∧ sink (sizeT pass.ret) pass.answer = .ok false then
        pass.read :: readsMade sink rest
      else [pass.read]

/-- The lengths are those of a chunk, and a failed read makes the function
fail. -/
structure Checked (loop : Recorded Passed Stop ℤ) (reads : List (Option (List Byte))) : Prop where
  lengths : ∀ call ∈ loop.log, 1 ≤ call.len ∧ call.len ≤ PIPE_BUF
  failure : none ∈ reads → loop.result = .ok EXIT_FAILURE

/-- No read gives more than was asked for. -/
def Fits (passes : List Pass) : Prop :=
  ∀ pass ∈ passes, ∀ bytes, pass.read = some bytes → bytes.length ≤ PIPE_BUF

/-! ## Lengths -/

theorem sizeT_natCast {n : ℕ} (h : n < 2 ^ 64) : sizeT n = n := by
  rw [sizeT, BitVec.ofInt_natCast, BitVec.toNat_ofNat, Nat.mod_eq_of_lt h]

/-- What a failed read becomes. -/
theorem sizeT_minus_one : sizeT (-1) = 2 ^ 64 - 1 := by decide

/-- The length of a chunk, or that of a failed read. -/
theorem Pass.length_iff {pass : Pass}
    (hfits : ∀ bytes, pass.read = some bytes → bytes.length ≤ PIPE_BUF) (hret : pass.ret ≠ 0) :
    1 ≤ sizeT pass.ret ∧ sizeT pass.ret ≤ PIPE_BUF ↔ pass.read ≠ none := by
  unfold Pass.ret at hret ⊢
  cases hread : pass.read with
  | none => simp [sizeT_minus_one, PIPE_BUF]
  | some bytes =>
      have hle := hfits bytes hread
      simp only [hread, PIPE_BUF] at hret hle ⊢
      rw [sizeT_natCast (by omega)]
      exact iff_of_true ⟨by omega, hle⟩ (by simp)

/-! ## The loops -/

section
variable {sink : ℕ → ℤ → Except Stop Bool} {passes : List Pass}

/-- A loop passes on lengths of chunks exactly as long as no read fails. -/
theorem transferLoop_lengths_iff (hfits : Fits passes) (buf : List Byte) :
    (transferLoop sink passes buf).All (fun call => 1 ≤ call.len ∧ call.len ≤ PIPE_BUF) ↔
      none ∉ readsMade sink passes := by
  induction passes generalizing buf with
  | nil => exact iff_of_true (all_stop _) List.not_mem_nil
  | cons pass rest ih =>
      have hpass : ∀ bytes, pass.read = some bytes → bytes.length ≤ PIPE_BUF :=
        hfits pass List.mem_cons_self
      rw [transferLoop, readsMade]
      by_cases hret : pass.ret = 0
      · have hread : pass.read ≠ none := by
          intro hnone
          simp [Pass.ret, hnone] at hret
        rw [if_pos hret, if_neg (fun h => h.1 hret), List.mem_singleton]
        exact iff_of_true (all_pure _) (Ne.symm hread)
      · rw [if_neg hret, all_touch_bind, List.forall_mem_singleton, Pass.length_iff hpass hret,
          all_lift_bind]
        by_cases hsink : sink (sizeT pass.ret) pass.answer = .ok false
        · rw [if_pos ⟨hret, hsink⟩, List.mem_cons, not_or]
          refine and_congr ne_comm ?_
          rw [← ih (fun p hp => hfits p (List.mem_cons_of_mem pass hp)) (pass.fill buf)]
          constructor
          · intro h
            exact h false hsink
          · intro h error herror
            cases hsink.symm.trans herror
            exact h
        · rw [if_neg (fun h => hsink h.2), List.mem_singleton]
          refine (and_iff_left fun error herror => ?_).trans ne_comm
          cases error with
          | true => exact all_pure _
          | false => exact absurd herror hsink

theorem transferLoop_checked_iff (hfits : Fits passes) (buf : List Byte) :
    Checked (transferLoop sink passes buf) (readsMade sink passes) ↔
      none ∉ readsMade sink passes := by
  rw [← transferLoop_lengths_iff hfits buf]
  constructor
  · intro h
    exact ⟨h.lengths⟩
  · intro h
    have hnone := (transferLoop_lengths_iff hfits buf).mp h
    exact ⟨h.forall_log, fun hfailed => absurd hfailed hnone⟩

/-- As long as no read fails, what is passed on are the bytes read, in order. -/
theorem transferLoop_data (hfits : Fits passes) (hgood : none ∉ readsMade sink passes)
    (buf : List Byte) :
    (transferLoop sink passes buf).log.flatMap Passed.data =
      (readsMade sink passes).flatMap fun bytes => bytes.getD [] := by
  induction passes generalizing buf with
  | nil => rfl
  | cons pass rest ih =>
      rw [readsMade] at hgood ⊢
      rw [transferLoop]
      have hmade : pass.read ≠ none := by
        intro hnone
        rw [hnone] at hgood
        split_ifs at hgood <;> simp at hgood
      obtain ⟨bytes, hread⟩ := Option.ne_none_iff_exists'.mp hmade
      have hle := hfits pass List.mem_cons_self bytes hread
      have hret : pass.ret = bytes.length := by rw [Pass.ret, hread]
      have hdata : Passed.data ⟨sizeT pass.ret, pass.fill buf⟩ = bytes := by
        rw [Passed.data, hret, sizeT_natCast (by rw [PIPE_BUF] at hle; omega), Pass.fill, hread]
        exact List.take_left
      by_cases hend : pass.ret = 0
      · have hempty : bytes = [] := List.length_eq_zero_iff.mp (by omega)
        rw [if_pos hend, if_neg (fun h => h.1 hend), List.flatMap_singleton, hread, hempty]
        rfl
      · rw [if_neg hend, log_touch_bind, List.flatMap_append, List.flatMap_singleton, hdata]
        cases hsink : sink (sizeT pass.ret) pass.answer with
        | error e =>
            rw [if_neg (fun h => nomatch h.2), log_lift_error, List.flatMap_singleton, hread]
            exact List.append_nil _
        | ok error =>
            cases error with
            | true =>
                rw [if_neg (fun h => nomatch h.2), log_lift_ok, List.flatMap_singleton, hread]
                exact List.append_nil _
            | false =>
                rw [hsink, if_pos ⟨hend, rfl⟩, List.mem_cons, not_or] at hgood
                rw [if_pos ⟨hend, rfl⟩, log_lift_ok, List.flatMap_cons, hread]
                exact congrArg (bytes ++ ·)
                  (ih (fun p hp => hfits p (List.mem_cons_of_mem pass hp)) hgood.2 (pass.fill buf))

/-- `fwrite` gives 0 or 1, and the function of the loop never fails. -/
theorem readerLoop_ne_failure (hanswers : ∀ pass ∈ passes, pass.answer = 0 ∨ pass.answer = 1)
    (buf : List Byte) : (readerLoop passes buf).result ≠ .ok EXIT_FAILURE := by
  unfold readerLoop
  induction passes generalizing buf with
  | nil => nofun
  | cons pass rest ih =>
      have hno : fwriteSink (sizeT pass.ret) pass.answer ≠ .ok true := by
        unfold fwriteSink
        split_ifs
        · nofun
        · rcases hanswers pass List.mem_cons_self with h | h
          · rw [h]
            decide
          · rw [h]
            decide
      rw [transferLoop]
      split_ifs
      · exact fun h => nomatch h
      · have hrest := ih (fun p hp => hanswers p (List.mem_cons_of_mem pass hp)) (pass.fill buf)
        simp only [result_bind, result_touch, result_lift, result_ite, result_pure, pure_bind]
        cases hsink : fwriteSink (sizeT pass.ret) pass.answer with
        | error e => nofun
        | ok error =>
            cases error with
            | true => exact absurd hsink hno
            | false => exact hrest

end

/-- Whatever their calls give, both loops pass on only lengths of chunks and
report a failed read exactly when no read that they make fails. -/
theorem loops_checked_iff {passes : List Pass} (hfits : Fits passes) (buf : List Byte) :
    (Checked (writerLoop passes buf) (readsMade writeSink passes) ↔
        none ∉ readsMade writeSink passes) ∧
      (Checked (readerLoop passes buf) (readsMade fwriteSink passes) ↔
        none ∉ readsMade fwriteSink passes) :=
  ⟨transferLoop_checked_iff hfits buf, transferLoop_checked_iff hfits buf⟩

/-- Two chunks and the end of the file; `write` takes only a byte of the first. -/
theorem loops_checked_two :
    (Checked
        (writerLoop [⟨some [1, 2, 3], 1⟩, ⟨some [4], 1⟩, ⟨some [], 0⟩] (List.replicate 4096 0))
        (readsMade writeSink [⟨some [1, 2, 3], 1⟩, ⟨some [4], 1⟩, ⟨some [], 0⟩]) ↔
        none ∉ readsMade writeSink [⟨some [1, 2, 3], 1⟩, ⟨some [4], 1⟩, ⟨some [], 0⟩]) ∧
      (Checked
        (readerLoop [⟨some [1, 2, 3], 1⟩, ⟨some [4], 1⟩, ⟨some [], 0⟩] (List.replicate 4096 0))
        (readsMade fwriteSink [⟨some [1, 2, 3], 1⟩, ⟨some [4], 1⟩, ⟨some [], 0⟩]) ↔
        none ∉ readsMade fwriteSink [⟨some [1, 2, 3], 1⟩, ⟨some [4], 1⟩, ⟨some [], 0⟩]) :=
  loops_checked_iff (by simp [Fits, PIPE_BUF]) _

/-- The second read fails: its result is passed on as a length by both loops. -/
theorem failed_read_passed :
    ¬ Checked (writerLoop [⟨some [1, 2, 3], 3⟩, ⟨none, -1⟩] (List.replicate 4096 0))
        (readsMade writeSink [⟨some [1, 2, 3], 3⟩, ⟨none, -1⟩]) ∧
      ¬ Checked (readerLoop [⟨some [1, 2, 3], 1⟩, ⟨none, 0⟩] (List.replicate 4096 0))
        (readsMade fwriteSink [⟨some [1, 2, 3], 1⟩, ⟨none, 0⟩]) := by
  constructor
  · intro h
    exact absurd (h.lengths _ (List.mem_cons_of_mem _ List.mem_cons_self)).2 (by decide)
  · intro h
    exact absurd (h.lengths _ (List.mem_cons_of_mem _ List.mem_cons_self)).2 (by decide)

end TaskLunev.SuperFifoLoops
