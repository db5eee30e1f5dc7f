import TaskLunev.BlockHeap
import TaskLunev.DescriptorTable
import TaskLunev.ExceptRules
import TaskLunev.ResourceOwnership
import TaskLunev.StatusFlags
import TaskLunev.TransitionRuns

/-!
# The descriptors of semaphores

`mysem_open` opens the two ends of a FIFO, and whatever fails on the way it
closes what it has opened. `mysem_close` gives `close` the outcome of a
comparison: it closes 0 and 1, whatever the descriptors of its semaphore are,
and then forgets these. A call on a semaphore that is not open reads a block
that is not live, and such a call is not a step.
-/
namespace TaskLunev.SemaphoreDescriptors
open BlockHeap DescriptorTable ExceptRules ResourceOwnership StatusFlags TransitionRuns

/-- `mysem_t` -/
structure Mysem where
  semFd0 : ℤ
  semFd1 : ℤ
  semMagic : BitVec 32
  deriving DecidableEq, Repr

def SEM_MAGIC : BitVec 32 := 0x87654321

def O_RDONLY : Word := 0o0

def O_WRONLY : Word := 0o1

def O_CREAT : Word := 0o100

def O_EXCL : Word := 0o200

/-- The semaphores and the descriptors of a process. -/
structure World where
  heap : Heap Mysem
  fds : Descriptors
  files : Files

/-! ## The functions -/

/-- `open` with these flags, if the system grants it. -/
def openFile (granted : Bool) (flags : Word) (w : World) : ℤ × World :=
  if granted then
    let (fd, fds) := w.fds.acquire
    (fd, { w with fds, files := setfl w.files fd flags })
  else (-1, w)

def closeFile (fd : ℤ) (fds : Descriptors) : ℤ × Descriptors :=
  if 0 ≤ fd ∧ fd.toNat ∈ fds.opened then (0, fds.close fd.toNat) else (-1, fds)

inductive Mkfifo where
  | made | found | failed
  deriving DecidableEq, Repr

/-- What the system answers in one `mysem_open`; `write` is about the initial
byte with each number. -/
structure Answers where
  mkfifo : Mkfifo
  calloc : Bool
  openRead : Bool
  openWrite : Bool
  getfl : Bool
  setfl : Bool
  write : ℕ → Bool

/-- The FIFO is made if that is asked for, and then `oflag` says whether it is
new. -/
def makeFifo (answer : Mkfifo) (oflag : Word) : Option Word :=
  if oflag &&& O_CREAT ≠ 0 then
    match answer with
    | .made => some oflag
    | .found => if oflag &&& O_EXCL = 0 then some (oflag &&& ~~~O_CREAT) else none
    | .failed => none
  else some oflag

/-- The loop over the initial bytes with so many to go. -/
def writeInitial (write : ℕ → Bool) : ℕ → ℕ → Bool
  | 0, _ => true
  | left + 1, i => if write i then writeInitial write left (i + 1) else false

/-- The descriptors of the semaphore are opened and set up. An error comes with
what the semaphore has by then. -/
def setUp (answers : Answers) (oflag : Word) (value : ℕ) (w : World) :
    Except (Mysem × World) (Mysem × World) :=
  let (fd0, w) := openFile answers.openRead (O_RDONLY ||| O_NONBLOCK) w
  if fd0 < 0 then .error (⟨fd0, -1, 0⟩, w)
  else
    let (fd1, w) := openFile answers.openWrite (O_WRONLY ||| O_NONBLOCK) w
    if fd1 < 0 then .error (⟨fd0, fd1, 0⟩, w)
    else
      let flags := if answers.getfl then w.files fd0 else -1
      if flags.msb then .error (⟨fd0, fd1, 0⟩, w)
      else if answers.setfl then
        let w := { w with files := setfl w.files fd0 (flags &&& ~~~O_NONBLOCK) }
        if oflag &&& O_CREAT ≠ 0 ∧ writeInitial answers.write value 0 = false then
          .error (⟨fd0, fd1, 0⟩, w)
        else .ok (⟨fd0, fd1, SEM_MAGIC⟩, w)
      else .error (⟨fd0, fd1, 0⟩, w)

/-- The semaphore, or `none` for `SEM_FAILED`. -/
def mysemOpen (answers : Answers) (oflag : Word) (value : ℕ) (w : World) :
    Option (Option ℕ × World) :=
  match makeFifo answers.mkfifo oflag with
  | none => some (none, w)
  | some oflag =>
      if answers.calloc then
        let (sem, heap) := allocate w.heap ⟨-1, -1, 0⟩
        match setUp answers oflag value { w with heap } with
        | .ok (fields, w) => some (some sem, { w with heap := store w.heap sem fields })
        | .error (fields, w) => do
            let (_, fds) := closeFile fields.semFd0 w.fds
            let (_, fds) := closeFile fields.semFd1 fds
            let heap ← free w.heap sem
            return (none, { w with heap, fds })
      else some (none, w)

/-- Each descriptor is compared with -1 inside the call of `close`. -/
def mysemClose (sem : ℕ) (w : World) : Option (ℤ × World) := do
  let fields ← load w.heap sem
  if fields.semMagic ≠ SEM_MAGIC then return (-1, w)
  else
    let heap := store w.heap sem { fields with semMagic := 0 }
    let (ret, fds) := closeFile (if fields.semFd0 = -1 then 1 else 0) w.fds
    if ret ≠ 0 then
      let heap ← free heap sem
      return (-1, { w with heap, fds })
    else
      let (ret, fds) := closeFile (if fields.semFd1 ≠ -1 then 1 else 0) fds
      let heap ← free heap sem
      return (if ret ≠ 0 then -1 else 0, { w with heap, fds })

/-- `mysem_post` and `mysem_wait` with the result of their call of `write` or
`read`. -/
def moveByte (answer : ℤ) (sem : ℕ) (w : World) : Option (ℤ × World) := do
  let fields ← load w.heap sem
  if fields.semMagic ≠ SEM_MAGIC then return (-1, w)
  else return (if answer = 1 then 0 else -1, w)

def mysemPost (answer : ℤ) (sem : ℕ) (w : World) : Option (ℤ × World) := moveByte answer sem w

def mysemWait (answer : ℤ) (sem : ℕ) (w : World) : Option (ℤ × World) := moveByte answer sem w

inductive Event where
  | openSem (answers : Answers) (oflag : Word) (value : ℕ)
  | post (sem : ℕ) (answer : ℤ)
  | wait (sem : ℕ) (answer : ℤ)
  | closeSem (sem : ℕ)

def World.next (w : World) : Event → Option World
  | .openSem answers oflag value => (mysemOpen answers oflag value w).map Prod.snd
  | .post sem answer => (mysemPost answer sem w).map Prod.snd
  | .wait sem answer => (mysemWait answer sem w).map Prod.snd
  | .closeSem sem => (mysemClose sem w).map Prod.snd

def Step (w : World) (e : Event) (w' : World) : Prop := w.next e = some w'

/-- A process that has these descriptors and no semaphore. -/
def World.start (inherited : Finset ℕ) (files : Files) : World :=
  ⟨[], Descriptors.before inherited, files⟩

/-! ## Who owns which descriptor -/

/-- The two descriptors of each open semaphore. -/
def held (heap : Heap Mysem) : ℕ × Bool → Option ℕ
  | (sem, writeEnd) =>
      (load heap sem).map fun fields => (if writeEnd then fields.semFd1 else fields.semFd0).toNat

/-- What is open of the functions' own are the two descriptors of each open
semaphore, and none of the others has been closed. -/
structure Owned (inherited : Finset ℕ) (w : World) : Prop where
  sole : Owns (held w.heap) {fd | fd ∈ w.fds.own}
  inherited : w.fds.inherited = inherited

/-- A semaphore is closed that has the descriptors 0 and 1. -/
def Meets (w : World) : Event → Prop
  | .closeSem sem => ∀ fields, load w.heap sem = some fields → fields.semFd0 ≤ 1 ∧ fields.semFd1 ≤ 1
  | _ => True

/-! ## Opening -/

section
variable {fds : Descriptors} {w : World} {answers : Answers} {oflag : Word} {value : ℕ}

/-- What `setUp` may have opened when it stops. -/
inductive Opened (fds : Descriptors) : Mysem → Descriptors → Prop
  | nothing {magic : BitVec 32} : Opened fds ⟨-1, -1, magic⟩ fds
  | readEnd {magic : BitVec 32} : Opened fds ⟨fds.acquire.1, -1, magic⟩ fds.acquire.2
  | bothEnds {magic : BitVec 32} : Opened fds ⟨fds.pipe.1.1, fds.pipe.1.2, magic⟩ fds.pipe.2

theorem closeFile_minus_one (fds : Descriptors) : closeFile (-1) fds = (-1, fds) :=
  if_neg (by omega)

theorem closeFile_of_mem {fd : ℕ} (h : fd ∈ fds.opened) : closeFile fd fds = (0, fds.close fd) :=
  if_pos ⟨Int.natCast_nonneg fd, h⟩

theorem closeFile_of_notMem {fd : ℕ} (h : fd ∉ fds.opened) : closeFile fd fds = (-1, fds) :=
  if_neg fun hin => h hin.2

theorem closeFile_snd (fd : ℕ) (fds : Descriptors) : (closeFile fd fds).2 = fds.close fd := by
  by_cases h : fd ∈ fds.opened
  · rw [closeFile_of_mem h]
  · rw [closeFile_of_notMem h, Descriptors.close_of_notMem h]

/-- The error path closes what was opened. -/
theorem Opened.closed {sem : Mysem} {fds' : Descriptors} (h : Opened fds sem fds') :
    (closeFile sem.semFd1 (closeFile sem.semFd0 fds').2).2 = fds := by
  cases h with
  | nothing => rw [closeFile_minus_one, closeFile_minus_one]
  | readEnd => rw [closeFile_snd, closeFile_minus_one, Descriptors.close_acquire]
  | bothEnds =>
      rw [closeFile_snd, closeFile_snd, Descriptors.close_comm]
      exact (congrArg (·.close fds.acquire.1) (Descriptors.close_acquire fds.acquire.2)).trans
        (Descriptors.close_acquire fds)

/-- Wherever it stops, `setUp` has opened the descriptors that it gives; at its
end there are two, and reads from the first one block. -/
theorem setUp_spec (answers : Answers) (oflag : Word) (value : ℕ) (w : World) :
    Ends (fun r => r.2.heap = w.heap ∧ Opened w.fds r.1 r.2.fds)
      (fun r => r.2.heap = w.heap ∧ r.1 = ⟨w.fds.pipe.1.1, w.fds.pipe.1.2, SEM_MAGIC⟩ ∧
        r.2.fds = w.fds.pipe.2 ∧ r.2.files r.1.semFd0 &&& O_NONBLOCK = 0)
      (setUp answers oflag value w) := by
  unfold setUp openFile
  cases answers.openRead with
  | false => exact ⟨rfl, .nothing⟩
  | true =>
      have hread : ¬ (w.fds.acquire.1 : ℤ) < 0 := by omega
      simp only [if_true, if_neg hread]
      cases answers.openWrite with
      | false => exact ⟨rfl, .readEnd⟩
      | true =>
          have hwrite : ¬ (w.fds.acquire.2.acquire.1 : ℤ) < 0 := by omega
          simp only [if_true, if_neg hwrite]
          refine .ite (fun _ => ⟨rfl, .bothEnds⟩) fun _ => .ite (fun _ => ?_) fun _ =>
            ⟨rfl, .bothEnds⟩
          refine .ite (fun _ => ⟨rfl, .bothEnds⟩) fun _ => ⟨rfl, rfl, rfl, ?_⟩
          have hcleared : ~~~O_NONBLOCK &&& O_NONBLOCK = 0 := by decide
          simp only [setfl, Function.update_self, BitVec.and_assoc, hcleared]
          exact BitVec.and_zero

/-- `mysem_open` opens nothing, or both ends of a new semaphore. -/
theorem mysemOpen_cases (answers : Answers) (oflag : Word) (value : ℕ) (w : World) :
    (∃ heap files, mysemOpen answers oflag value w = some (none, ⟨heap, w.fds, files⟩) ∧
      ∀ a, load heap a = load w.heap a) ∨
    ∃ heap files, mysemOpen answers oflag value w =
        some (some w.heap.length, ⟨heap, w.fds.pipe.2, files⟩) ∧
      load heap w.heap.length = some ⟨w.fds.pipe.1.1, w.fds.pipe.1.2, SEM_MAGIC⟩ ∧
      ∀ a, a ≠ w.heap.length → load heap a = load w.heap a := by
  have hlive : Live (allocate w.heap ⟨-1, -1, 0⟩).2 w.heap.length := live_allocate
  unfold mysemOpen
  cases makeFifo answers.mkfifo oflag with
  | none => exact .inl ⟨_, _, rfl, fun _ => rfl⟩
  | some oflag =>
      dsimp only
      split_ifs
      · have hspec := setUp_spec answers oflag value
          { w with heap := (allocate w.heap ⟨-1, -1, 0⟩).2 }
        cases hset : setUp answers oflag value
          { w with heap := (allocate w.heap ⟨-1, -1, 0⟩).2 } with
        | ok r =>
            obtain ⟨fields, w'⟩ := r
            rw [hset] at hspec
            obtain ⟨hheap, hfields, hfds, -⟩ := hspec
            dsimp only at hheap hfields hfds
            refine .inr ⟨store w'.heap w.heap.length fields, w'.files, ?_, ?_, fun a hne => ?_⟩
            · rw [← hfds]
              rfl
            · rw [hheap, load_store_self hlive, hfields]
            · rw [hheap, load_store_of_ne (Ne.symm hne), load_allocate_of_ne hne]
        | error r =>
            obtain ⟨fields, w'⟩ := r
            rw [hset] at hspec
            obtain ⟨hheap, hopened⟩ := hspec
            dsimp only at hheap hopened
            obtain ⟨heap', hfree, hsame⟩ := exists_free_allocate w.heap (⟨-1, -1, 0⟩ : Mysem)
            rw [← hheap] at hfree
            refine .inl ⟨heap', w'.files, ?_, hsame⟩
            simp only [hfree, hopened.closed]
            rfl
      · exact .inl ⟨_, _, rfl, fun _ => rfl⟩

/-- An open semaphore has its mark and two descriptors. -/
def Regular (w : World) : Prop :=
  ∀ sem fields, load w.heap sem = some fields →
    fields.semMagic = SEM_MAGIC ∧ 0 ≤ fields.semFd0 ∧ 0 ≤ fields.semFd1

/-- `mysem_close` gives up the semaphore, and closes 0 and 1 if 0 is open. -/
theorem mysemClose_spec {sem : ℕ} {fields : Mysem} (hr : Regular w)
    (hload : load w.heap sem = some fields) :
    ∃ ret heap, mysemClose sem w = some (ret, ⟨heap,
        if 0 ∈ w.fds.opened then (w.fds.close 0).close 1 else w.fds, w.files⟩) ∧
      load heap sem = none ∧ ∀ a, a ≠ sem → load heap a = load w.heap a := by
  obtain ⟨hmagic, hread, hwrite⟩ := hr sem fields hload
  have hlive : Live w.heap sem := by rw [Live, hload, Option.isSome_some]
  have hfree := free_of_live (Keeps.store (x := sem) (b := { fields with semMagic := 0 }) sem hlive)
  have hread' : (if fields.semFd0 = -1 then 1 else 0 : ℤ) = (0 : ℕ) := if_neg (by omega)
  have hwrite' : (if fields.semFd1 ≠ -1 then 1 else 0 : ℤ) = (1 : ℕ) := if_pos (by omega)
  have hfreed := load_of_not_live (not_live_of_free hfree)
  have hothers : ∀ a, a ≠ sem →
      load ((store w.heap sem { fields with semMagic := 0 }).set sem none) a = load w.heap a := by
    intro a hne
    rw [load_free_of_ne hfree hne, load_store_of_ne (Ne.symm hne)]
  unfold mysemClose
  simp only [hload, Option.bind_eq_bind, Option.bind_some, hmagic, ne_eq, not_true_eq_false,
    if_false, hread', hwrite', hfree]
  by_cases hopen : 0 ∈ w.fds.opened
  · simp only [closeFile_of_mem hopen, if_pos hopen, not_true_eq_false, if_false, closeFile_snd]
    exact ⟨_, _, rfl, hfreed, hothers⟩
  · simp only [closeFile_of_notMem hopen, if_neg hopen]
    exact ⟨_, _, rfl, hfreed, hothers⟩

theorem moveByte_eq_some {answer ret : ℤ} {sem : ℕ} {w' : World}
    (h : moveByte answer sem w = some (ret, w')) : w' = w := by
  unfold moveByte at h
  rw [Option.bind_eq_bind, Option.bind_eq_some_iff] at h
  obtain ⟨fields, -, h⟩ := h
  split_ifs at h <;> cases h <;> rfl

/-! ## Steps -/

/-- What a step does to the blocks and the descriptors. -/
inductive Effect (w w' : World) : Event → Prop
  | quiet {e : Event} : (∀ sem, e ≠ .closeSem sem) → w'.fds = w.fds →
      (∀ a, load w'.heap a = load w.heap a) → Effect w w' e
  | opens {answers : Answers} {oflag : Word} {value sem : ℕ} : w'.fds = w.fds.pipe.2 →
      load w.heap sem = none →
      load w'.heap sem = some ⟨w.fds.pipe.1.1, w.fds.pipe.1.2, SEM_MAGIC⟩ →
      (∀ a, a ≠ sem → load w'.heap a = load w.heap a) → Effect w w' (.openSem answers oflag value)
  | closes {sem : ℕ} {fields : Mysem} : load w.heap sem = some fields →
      w'.fds = (if 0 ∈ w.fds.opened then (w.fds.close 0).close 1 else w.fds) →
      load w'.heap sem = none → (∀ a, a ≠ sem → load w'.heap a = load w.heap a) →
      Effect w w' (.closeSem sem)

theorem Effect.of_moveByte {w' : World} {e : Event} {answer : ℤ} {sem : ℕ}
    (hnot : ∀ sem, e ≠ .closeSem sem) (h : (moveByte answer sem w).map Prod.snd = some w') :
    Effect w w' e := by
  obtain ⟨⟨ret, w''⟩, hcall, rfl⟩ := Option.map_eq_some_iff.mp h
  obtain rfl := moveByte_eq_some hcall
  exact .quiet hnot rfl fun _ => rfl

theorem Step.effect {w' : World} {e : Event} (hr : Regular w) (ht : Step w e w') :
    Effect w w' e := by
  cases e with
  | openSem answers oflag value =>
      have hcall : (mysemOpen answers oflag value w).map Prod.snd = some w' := ht
      rcases mysemOpen_cases answers oflag value w with ⟨heap, files, hopen, hsame⟩ |
        ⟨heap, files, hopen, hsem, hothers⟩
      · rw [hopen] at hcall
        cases hcall
        exact .quiet nofun rfl hsame
      · rw [hopen] at hcall
        cases hcall
        have hnew : load w.heap (allocate w.heap (⟨-1, -1, 0⟩ : Mysem)).1 = none :=
          load_of_not_live not_live_allocated
        exact .opens rfl hnew hsem hothers
  | post sem answer => exact Effect.of_moveByte nofun ht
  | wait sem answer => exact Effect.of_moveByte nofun ht
  | closeSem sem =>
      have hcall : (mysemClose sem w).map Prod.snd = some w' := ht
      cases hload : load w.heap sem with
      | none => simp [mysemClose, hload] at hcall
      | some fields =>
          obtain ⟨ret, heap, hclose, hsem, hothers⟩ := mysemClose_spec hr hload
          rw [hclose] at hcall
          cases hcall
          exact .closes hload rfl hsem hothers

theorem Regular.effect {w' : World} {e : Event} (hr : Regular w) (h : Effect w w' e) :
    Regular w' := by
  intro sem fields hload
  cases h with
  | quiet _ _ hsame => exact hr sem fields (hsame sem ▸ hload)
  | @opens _ _ _ new _ _ hsem hothers =>
      by_cases hne : sem = new
      · rw [hne, hsem] at hload
        cases hload
        exact ⟨rfl, Int.natCast_nonneg _, Int.natCast_nonneg _⟩
      · exact hr sem fields (hothers sem hne ▸ hload)
  | @closes old _ _ _ hsem hothers =>
      have hne : sem ≠ old := by
        intro he
        rw [he, hsem] at hload
        cases hload
      exact hr sem fields (hothers sem hne ▸ hload)

/-! ## The owners -/

section
variable {heap heap' : Heap Mysem} {sem : ℕ}

theorem held_congr (h : ∀ a, load heap' a = load heap a) : held heap' = held heap := by
  funext x
  rw [held, held, h]

/-- Where only one semaphore has changed. -/
theorem held_update {fd0 fd1 : Option ℕ} (hread : held heap' (sem, false) = fd0)
    (hwrite : held heap' (sem, true) = fd1)
    (hothers : ∀ a, a ≠ sem → load heap' a = load heap a) :
    held heap' =
      Function.update (Function.update (held heap) (sem, false) fd0) (sem, true) fd1 := by
  funext x
  obtain ⟨a, writeEnd⟩ := x
  by_cases ha : a = sem
  · subst ha
    cases writeEnd with
    | true => rw [hwrite, Function.update_self]
    | false => rw [hread, Function.update_of_ne (by simp), Function.update_self]
  · rw [Function.update_of_ne (by simp [ha]), Function.update_of_ne (by simp [ha]), held, held,
      hothers a ha]

theorem held_of_none (h : load heap sem = none) (writeEnd : Bool) :
    held heap (sem, writeEnd) = none := by
  rw [held, h, Option.map_none]

theorem held_of_some {fields : Mysem} (h : load heap sem = some fields) :
    held heap (sem, false) = some fields.semFd0.toNat ∧
      held heap (sem, true) = some fields.semFd1.toNat := by
  rw [held, held, h]
  exact ⟨rfl, rfl⟩

end

variable {inherited : Finset ℕ} {w' : World}

/-- A new semaphore gets two descriptors that nobody has. -/
theorem Owned.opens {sem : ℕ} (h : Owned inherited w) (hfds : w'.fds = w.fds.pipe.2)
    (hnone : load w.heap sem = none)
    (hsem : load w'.heap sem = some ⟨w.fds.pipe.1.1, w.fds.pipe.1.2, SEM_MAGIC⟩)
    (hothers : ∀ a, a ≠ sem → load w'.heap a = load w.heap a) : Owned inherited w' := by
  have hpipe := Descriptors.pipe_opens w.fds
  obtain ⟨hread, hwrite⟩ := held_of_some hsem
  have hfirst := h.sole.acquire (held_of_none hnone false) hpipe.read_fresh
  have hsecond := hfirst.acquire (x := (sem, true)) (r := w.fds.pipe.1.2)
    ((Function.update_of_ne (by simp) ..).trans (held_of_none hnone true))
    (fun hin => hpipe.write_fresh (by simpa using hin))
  constructor
  · rw [held_update hread hwrite hothers, hfds, hpipe.own]
    simpa [Set.insert_def] using hsecond
  · rw [hfds, hpipe.inherited, h.inherited]

/-- What a closed semaphore had is still open unless it was 0 or 1. -/
theorem Owned.closed_le {sem fd : ℕ} {writeEnd : Bool} (h : Owned inherited w)
    (h' : Owned inherited w')
    (hfds : w'.fds = if 0 ∈ w.fds.opened then (w.fds.close 0).close 1 else w.fds)
    (hsem : load w'.heap sem = none) (hothers : ∀ a, a ≠ sem → load w'.heap a = load w.heap a)
    (hheld : held w.heap (sem, writeEnd) = some fd) : fd ≤ 1 := by
  by_contra hlt
  have hopen : fd ∈ w'.fds.own := by
    have hown : fd ∈ w.fds.own := h.sole.live_of_held _ _ hheld
    rw [hfds]
    split_ifs
    · rw [Descriptors.close_own, Descriptors.close_own, Finset.mem_erase, Finset.mem_erase]
      exact ⟨by omega, by omega, hown⟩
    · exact hown
  obtain ⟨⟨a, side⟩, ha⟩ := h'.sole.held_of_live fd hopen
  by_cases hne : a = sem
  · rw [hne, held_of_none hsem] at ha
    cases ha
  · rw [held, hothers a hne] at ha
    have hsame := h.sole.unique (a, side) (sem, writeEnd) fd ha hheld
    exact hne (congrArg Prod.fst hsame)

/-- A semaphore with the descriptors 0 and 1 has both of them closed. -/
theorem Owned.closes {sem : ℕ} {fields : Mysem} (h : Owned inherited w)
    (hload : load w.heap sem = some fields)
    (hfds : w'.fds = if 0 ∈ w.fds.opened then (w.fds.close 0).close 1 else w.fds)
    (hsem : load w'.heap sem = none) (hothers : ∀ a, a ≠ sem → load w'.heap a = load w.heap a)
    (hread : fields.semFd0 ≤ 1) (hwrite : fields.semFd1 ≤ 1) : Owned inherited w' := by
  obtain ⟨hheld0, hheld1⟩ := held_of_some hload
  have hown0 : fields.semFd0.toNat ∈ w.fds.own := h.sole.live_of_held _ _ hheld0
  have hown1 : fields.semFd1.toNat ∈ w.fds.own := h.sole.live_of_held _ _ hheld1
  have hne : fields.semFd0.toNat ≠ fields.semFd1.toNat := by
    intro he
    rw [he] at hheld0
    cases h.sole.unique _ _ _ hheld0 hheld1
  -- the two are 0 and 1 in one order or the other
  have hboth : ∀ fd, fd ≤ 1 ↔ fd = fields.semFd0.toNat ∨ fd = fields.semFd1.toNat := by
    intro fd
    omega
  have hmem : ∀ fd, fd ≤ 1 → fd ∈ w.fds.own := by
    intro fd hfd
    rcases (hboth fd).mp hfd with he | he
    · exact he ▸ hown0
    · exact he ▸ hown1
  have hclosed : w'.fds = (w.fds.close 0).close 1 :=
    hfds.trans (if_pos (Finset.mem_union_right _ (hmem 0 (by omega))))
  have hfirst := h.sole.release hheld0
  have hsecond := hfirst.release (x := (sem, true))
    ((Function.update_of_ne (by simp) ..).trans hheld1)
  constructor
  · rw [held_update (held_of_none hsem false) (held_of_none hsem true) hothers, hclosed]
    convert hsecond using 1
    ext fd
    have hfd := hboth fd
    simp only [Descriptors.close_own, Finset.mem_erase, Set.mem_ofPred_eq, Set.mem_sdiff,
      Set.mem_singleton_iff]
    constructor
    · intro hin
      exact ⟨⟨hin.2.2, by omega⟩, by omega⟩
    · intro hin
      exact ⟨by omega, by omega, hin.1.1⟩
  · rw [hclosed, Descriptors.close_inherited, Descriptors.close_inherited,
      Descriptors.erase_inherited (hmem 0 (by omega)), ← h.inherited]
    exact Descriptors.erase_inherited (hmem 1 (by omega))

/-- One step keeps the descriptors with their owners exactly when it meets the
condition. -/
theorem Owned.step_iff {e : Event} (hr : Regular w) (h : Owned inherited w) (ht : Step w e w') :
    Owned inherited w' ↔ Meets w e := by
  cases ht.effect hr with
  | quiet hnot hfds hsame =>
      have hmeets : Meets w e := by
        cases e with
        | closeSem sem => exact absurd rfl (hnot sem)
        | _ => trivial
      refine iff_of_true ⟨?_, ?_⟩ hmeets
      · rw [held_congr hsame, hfds]
        exact h.sole
      · rw [hfds, h.inherited]
  | opens hfds hnone hsem hothers => exact iff_of_true (h.opens hfds hnone hsem hothers) trivial
  | @closes sem fields hload hfds hsem hothers =>
      obtain ⟨hheld0, hheld1⟩ := held_of_some hload
      constructor
      · intro h' fields' hload'
        obtain rfl : fields = fields' := Option.some.inj (hload.symm.trans hload')
        have hread := h.closed_le h' hfds hsem hothers hheld0
        have hwrite := h.closed_le h' hfds hsem hothers hheld1
        omega
      · intro hmeets
        obtain ⟨hread, hwrite⟩ := hmeets fields hload
        exact h.closes hload hfds hsem hothers hread hwrite

end

/-! ## Runs -/

theorem regular_start (inherited : Finset ℕ) (files : Files) :
    Regular (World.start inherited files) := by
  intro sem fields hload
  simp [World.start, load] at hload

theorem owned_start (inherited : Finset ℕ) (files : Files) :
    Owned inherited (World.start inherited files) where
  sole := by
    have hnone : held (World.start inherited files).heap = fun _ => none := by
      funext x
      simp [held, World.start, load]
    rw [hnone]
    simpa [World.start] using Owns.empty
  inherited := rfl

/-- In every state of a run the descriptors have their owners and no others were
closed, exactly when no semaphore is closed but with the descriptors 0 and 1. -/
theorem descriptors_owned_iff {inherited : Finset ℕ} {files : Files}
    {trace : List (Event × World)} (h : Path Step (World.start inherited files) trace) :
    (∀ p ∈ trace, Owned inherited p.2) ↔
      ∀ m ∈ moves (World.start inherited files) trace, Meets m.1 m.2 :=
  h.states_iff_moves (fun _ _ _ hr ht => hr.effect (ht.effect hr))
    (fun _ _ _ hr ho ht => ho.step_iff hr ht) (regular_start inherited files)
    (owned_start inherited files)

/-- Everything is granted, and the FIFO is new. -/
def granted : Answers := ⟨.made, true, true, true, true, true, fun _ => true⟩

/-- A process without standard input and output; the second end of its first
semaphore cannot be opened, and its second one is closed. -/
theorem descriptors_owned_two :
    (∀ p ∈ walk World.next (World.start {2} fun _ => 0)
        [.openSem { granted with openWrite := false } O_CREAT 1, .openSem granted O_CREAT 1,
          .post 1 1, .wait 1 1, .closeSem 1], Owned {2} p.2) ↔
      ∀ m ∈ moves (World.start {2} fun _ => 0)
        (walk World.next (World.start {2} fun _ => 0)
          [.openSem { granted with openWrite := false } O_CREAT 1, .openSem granted O_CREAT 1,
            .post 1 1, .wait 1 1, .closeSem 1]), Meets m.1 m.2 :=
  descriptors_owned_iff (path_walk World.next (World.start {2} fun _ => 0) _)

/-- A semaphore is opened and closed: the process has lost its standard input
and output, and the two ends of the FIFO are open with no owner. -/
theorem standard_descriptors_closed :
    ¬ ∀ p ∈ walk World.next (World.start {0, 1, 2} fun _ => 0)
      [.openSem granted O_CREAT 1, .closeSem 0], Owned {0, 1, 2} p.2 := by
  intro h
  have hlost := (h _ (List.mem_cons_of_mem _ List.mem_cons_self)).inherited
  exact absurd hlost (by decide)

end TaskLunev.SemaphoreDescriptors
