import Mathlib.Data.Int.Notation
import Mathlib.Data.Nat.Notation
import Mathlib.Logic.Function.Basic
import Mathlib.Tactic.Common

/-!
# The status flags of a descriptor

`SetFlag` and `RemoveFlag`, in the proxy and in SuperFIFO, read the status flags
of a descriptor, work out the new ones and install 0 in their place. They do so
only if there is something to do: none of the bits to be set is set, or one of
the bits to be cleared is. So the word a descriptor starts with stays until the
first call with something to do, and is 0 from then on.
-/
namespace TaskLunev.StatusFlags

abbrev Word := BitVec 32

/-- The status flags of every open file by its descriptor. -/
abbrev Files := ℤ → Word

def O_NONBLOCK : Word := 0o4000

/-- `fcntl (fd, F_SETFL, word)` -/
def setfl (files : Files) (fd : ℤ) (word : Word) : Files := Function.update files fd word

/-- Whether the two calls of `fcntl` succeed. -/
structure Fcntl where
  getfl : Bool
  setfl : Bool
  deriving DecidableEq, Repr

inductive Program where
  | proxy | superFifo
  deriving DecidableEq, Repr

/-- What `CHECK_ERROR` returns. -/
def Program.failure : Program → ℤ
  | .proxy => -1
  | .superFifo => 1

/-- The body of `SetFlag` and `RemoveFlag`, which test the word differently. The
word they work out is assigned to `flags` and not given to `fcntl`. -/
def changeFlags (todo : Word → Bool) (program : Program) (answers : Fcntl) (fd : ℤ)
    (files : Files) : ℤ × Files :=
  let flags := if answers.getfl then files fd else -1
  if flags = -1 then (program.failure, files)
  else if todo flags then
    if answers.setfl then (0, setfl files fd 0) else (program.failure, files)
  else (0, files)

def setFlag (program : Program) (answers : Fcntl) (fd : ℤ) (flag : Word) (files : Files) :
    ℤ × Files :=
  changeFlags (fun flags => flags &&& flag = 0) program answers fd files

def removeFlag (program : Program) (answers : Fcntl) (fd : ℤ) (flag : Word) (files : Files) :
    ℤ × Files :=
  changeFlags (fun flags => flags &&& flag ≠ 0) program answers fd files

def setBlock (program : Program) (answers : Fcntl) (fd : ℤ) (files : Files) : ℤ × Files :=
  removeFlag program answers fd O_NONBLOCK files

def setNonBlock (program : Program) (answers : Fcntl) (fd : ℤ) (files : Files) : ℤ × Files :=
  setFlag program answers fd O_NONBLOCK files

/-! ## Sequences of calls -/

inductive Call where
  | setFlag (flag : Word)
  | removeFlag (flag : Word)
  | setBlock
  | setNonBlock
  deriving DecidableEq, Repr

namespace Call

/-- The bits a call names. -/
def flag : Call → Word
  | .setFlag flag => flag
  | .removeFlag flag => flag
  | .setBlock => O_NONBLOCK
  | .setNonBlock => O_NONBLOCK

/-- What a call asks of the bits it names. -/
def sets : Call → Bool
  | .setFlag _ => true
  | .removeFlag _ => false
  | .setBlock => false
  | .setNonBlock => true

/-- The test of the call on the word it has read. -/
def todo (c : Call) (flags : Word) : Bool :=
  if c.sets then flags &&& c.flag = 0 else flags &&& c.flag ≠ 0

def run (program : Program) (answers : Fcntl) (fd : ℤ) (files : Files) : Call → ℤ × Files
  | .setFlag flag => StatusFlags.setFlag program answers fd flag files
  | .removeFlag flag => StatusFlags.removeFlag program answers fd flag files
  | .setBlock => StatusFlags.setBlock program answers fd files
  | .setNonBlock => StatusFlags.setNonBlock program answers fd files

theorem run_eq (c : Call) (program : Program) (answers : Fcntl) (fd : ℤ) (files : Files) :
    c.run program answers fd files = changeFlags c.todo program answers fd files := by
  cases c <;> rfl

end Call

/-- The calls one after the other on one descriptor, with no `fcntl` failing. -/
def runCalls (program : Program) (fd : ℤ) (calls : List Call) (files : Files) : Files :=
  calls.foldl (fun files c => (c.run program ⟨true, true⟩ fd files).2) files

/-- What the last call that names bit `i` asks of it. -/
def lastAsked : List Call → ℕ → Option Bool
  | [], _ => none
  | c :: rest, i => (lastAsked rest i).or (if c.flag.getLsbD i then some c.sets else none)

/-- No call has anything to do. -/
def Idle (calls : List Call) (word : Word) : Prop := ∀ c ∈ calls, c.todo word = false

instance (calls : List Call) (word : Word) : Decidable (Idle calls word) :=
  inferInstanceAs (Decidable (∀ c ∈ calls, _))

theorem idle_cons {c : Call} {calls : List Call} {word : Word} :
    Idle (c :: calls) word ↔ c.todo word = false ∧ Idle calls word := List.forall_mem_cons

/-! ## One call -/

section
variable {todo : Word → Bool} {program : Program} {fd : ℤ} {files : Files}

theorem changeFlags_todo (hread : files fd ≠ -1) (htodo : todo (files fd) = true) :
    (changeFlags todo program ⟨true, true⟩ fd files).2 fd = 0 := by
  simp only [changeFlags, if_true, if_neg hread, htodo]
  exact Function.update_self ..

theorem changeFlags_idle (htodo : todo (files fd) = false) :
    (changeFlags todo program ⟨true, true⟩ fd files).2 = files := by
  simp only [changeFlags, if_true, htodo, Bool.false_eq_true, if_false]
  split_ifs <;> rfl

end

/-! ## What a sequence leaves -/

section
variable (program : Program) {files : Files} {fd : ℤ} {calls : List Call}

/-- The word stays until the first call with something to do. -/
theorem runCalls_eq (hread : files fd ≠ -1) :
    runCalls program fd calls files fd =
      if Idle calls (files fd) then files fd else 0 := by
  induction calls generalizing files with
  | nil => exact (if_pos (List.forall_mem_nil _)).symm
  | cons c rest ih =>
      change runCalls program fd rest (c.run program ⟨true, true⟩ fd files).2 fd = _
      rw [Call.run_eq]
      cases htodo : c.todo (files fd) with
      | true =>
          have hzero : (changeFlags c.todo program ⟨true, true⟩ fd files).2 fd = 0 :=
            changeFlags_todo hread htodo
          have hbusy : ¬ Idle (c :: rest) (files fd) := fun h => by
            rw [idle_cons, htodo] at h
            cases h.1
          rw [ih (by rw [hzero]; decide), hzero, if_neg hbusy, ite_self]
      | false =>
          rw [changeFlags_idle htodo, ih hread]
          simp only [idle_cons, htodo, true_and]

/-- What was asked last was asked by a call that names the bit. -/
theorem exists_of_lastAsked {i : ℕ} {b : Bool} (h : lastAsked calls i = some b) :
    ∃ c ∈ calls, c.flag.getLsbD i = true ∧ c.sets = b := by
  induction calls with
  | nil => cases h
  | cons c rest ih =>
      rw [lastAsked, Option.or_eq_some_iff] at h
      rcases h with h | ⟨-, h⟩
      · obtain ⟨c', hc', hasked⟩ := ih h
        exact ⟨c', List.mem_cons_of_mem c hc', hasked⟩
      · split_ifs at h with hnamed
        exact ⟨c, List.mem_cons_self, hnamed, Option.some.inj h⟩

/-- Calls with nothing to do ask for no bit that is set to be cleared. -/
theorem not_asked_to_clear {word : Word} (hidle : Idle calls word) {i : ℕ}
    (hset : word.getLsbD i = true) : lastAsked calls i ≠ some false := by
  intro h
  obtain ⟨c, hc, hnamed, hclears⟩ := exists_of_lastAsked h
  have hnone : word &&& c.flag = 0 := by
    have htest := hidle c hc
    simpa [Call.todo, hclears] using htest
  have hbit := congrArg (fun w : Word => w.getLsbD i) hnone
  simp [hset, hnamed] at hbit

/-- A bit that is as it was. -/
theorem kept_iff {b : Bool} {asked : Option Bool} (h : b = true → asked ≠ some false) :
    b = asked.getD b ↔ (b = false → asked ≠ some true) := by
  cases asked with
  | none => exact iff_of_true rfl fun _ => nofun
  | some a =>
      cases b with
      | true =>
          have ha : a = true := eq_true_of_ne_false fun ha => h rfl (congrArg some ha)
          exact iff_of_true ha.symm fun hb => nomatch hb
      | false => cases a <;> simp

/-- A bit that is 0. -/
theorem cleared_iff {b : Bool} {asked : Option Bool} :
    false = asked.getD b ↔ if b then asked = some false else asked ≠ some true := by
  cases asked with
  | none => cases b <;> simp
  | some a => cases a <;> cases b <;> simp

end

/-- The final word is as asked exactly when no bit that is not set at first is
last asked to be set, and each bit that is set at first is last asked to be
cleared unless no call has anything to do. -/
theorem final_flags_iff (program : Program) (files : Files) (fd : ℤ) (calls : List Call)
    (hread : files fd ≠ -1) :
    (∀ i < 32, (runCalls program fd calls files fd).getLsbD i =
        (lastAsked calls i).getD ((files fd).getLsbD i)) ↔
      ∀ i < 32, if (files fd).getLsbD i then
        Idle calls (files fd) ∨ lastAsked calls i = some false
      else lastAsked calls i ≠ some true := by
  rw [runCalls_eq program hread]
  refine forall₂_congr fun i _ => ?_
  by_cases hidle : Idle calls (files fd)
  · rw [if_pos hidle, kept_iff fun hset => not_asked_to_clear hidle hset]
    split_ifs with hset
    · exact iff_of_true (fun h => nomatch hset.symm.trans h) (.inl hidle)
    · exact imp_iff_right (eq_false_of_ne_true hset)
  · have hzero : (0 : Word).getLsbD i = false := BitVec.getLsbD_zero
    rw [if_neg hidle, hzero, cleared_iff, or_iff_right hidle]

/-- `O_APPEND` and `O_RDWR` are set, and reads are made to block. -/
theorem final_flags_block :
    (∀ i < 32, (runCalls .superFifo 3 [.setBlock] (fun _ => 0x402) 3).getLsbD i =
        (lastAsked [.setBlock] i).getD ((0x402 : Word).getLsbD i)) ↔
      ∀ i < 32, if (0x402 : Word).getLsbD i then
        Idle [.setBlock] 0x402 ∨ lastAsked [.setBlock] i = some false
      else lastAsked [.setBlock] i ≠ some true :=
  final_flags_iff .superFifo (fun _ => 0x402) 3 [.setBlock] (by decide)

/-- Neither is `O_NONBLOCK` set, nor are the other two as they were. -/
theorem nonblock_lost : ¬ ∀ i < 32,
    (runCalls .proxy 3 [.setNonBlock] (fun _ => 0x402) 3).getLsbD i =
      (lastAsked [.setNonBlock] i).getD ((0x402 : Word).getLsbD i) := by
  decide

end TaskLunev.StatusFlags
