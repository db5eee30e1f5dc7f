import TaskLunev.ByteMemory
import TaskLunev.NamedPipe
import TaskLunev.TransitionRuns
import Mathlib.Logic.Function.Basic

/-!
# A semaphore in a FIFO

`semaphore.cpp` keeps the value of a semaphore as the number of bytes in a
FIFO. Any number of processes call `mysem_open` with `O_CREAT` and without
`O_EXCL`; the one whose `mkfifo` succeeds writes the initial bytes, while others
may post and wait already. A step that a process takes only when a call fails is
not there, but for `mysem_post`, which fails on a full FIFO and leaves it as it is.
A process may end at any time, and its ends of the FIFO are closed then.
-/
namespace TaskLunev.FifoSemaphore
open ByteMemory NamedPipe TransitionRuns

/-- The next step of a process in `mysem_open`; from `opened` on it has the
semaphore. -/
inductive Pc where
  | mkfifo
  | openingRead
  | openingWrite
  | fcntl
  | writing
  | opened
  deriving DecidableEq, Repr

/-- `creat` is the bit `O_CREAT` of `oflag`, `i` counts the bytes written. -/
structure Process where
  pc : Pc
  creat : Bool
  i : ℕ
  exited : Bool
  deriving DecidableEq, Repr

/-- `present` says that there is a FIFO at the path, and `capacity` is how many
bytes it has room for. The initial bytes written, the posts completed and the
waits completed are counted. -/
structure State (ι : Type*) where
  value : ℕ
  capacity : ℕ
  present : Bool
  fifo : Fifo ι Byte
  process : ι → Process
  initial : ℕ
  posts : ℕ
  waits : ℕ

namespace State
variable {ι : Type*} [DecidableEq ι]

/-- No process has the FIFO open yet, and so it is empty if there is one. -/
def start (value capacity : ℕ) (present : Bool) : State ι where
  value := value
  capacity := capacity
  present := present
  fifo := .empty
  process := fun _ => ⟨.mkfifo, true, 0, false⟩
  initial := 0
  posts := 0
  waits := 0

def set (s : State ι) (p : ι) (r : Process) : State ι :=
  { s with process := Function.update s.process p r }

/-- One byte through the nonblocking end. -/
def writeByte (s : State ι) : Option (State ι) :=
  if s.fifo.buf.length < s.capacity then (s.fifo.write [0]).map fun fifo => { s with fifo }
  else none

/-- The next step of `mysem_open`. -/
def openStep (s : State ι) (p : ι) : Option (State ι) :=
  let r := s.process p
  match r.pc with
  | .mkfifo =>
      if s.present then some (s.set p { r with pc := .openingRead, creat := false })
      else some ({ s with present := true }.set p { r with pc := .openingRead })
  | .openingRead => some ({ s with fifo := s.fifo.openRead p }.set p { r with pc := .openingWrite })
  | .openingWrite =>
      if s.fifo.readers.Nonempty then
        some ({ s with fifo := s.fifo.openWrite p }.set p { r with pc := .fcntl })
      else none
  | .fcntl => some (s.set p { r with pc := .writing })
  | .writing =>
      if r.creat ∧ r.i < s.value then
        s.writeByte.map fun t => { t with initial := t.initial + 1 }.set p { r with i := r.i + 1 }
      else some (s.set p { r with pc := .opened })
  | .opened => none

def mysemPost (s : State ι) : State ι :=
  match s.writeByte with
  | some t => { t with posts := t.posts + 1 }
  | none => s

/-- Only a read of a byte completes. -/
def mysemWait (s : State ι) : Option (State ι) :=
  (s.fifo.read 1).map fun (bytes, fifo) =>
    if bytes.length = 1 then { s with fifo, waits := s.waits + 1 } else { s with fifo }

end State

inductive Event (ι : Type*) where
  | openStep (p : ι)
  | post (p : ι)
  | wait (p : ι)
  | exit (p : ι)
  | closeRead (p : ι)
  | closeWrite (p : ι)
  deriving DecidableEq, Repr

section
variable {ι : Type*} [DecidableEq ι]

/-- The kernel closes the ends of a process that has ended one by one. -/
def State.next (s : State ι) : Event ι → Option (State ι)
  | .openStep p => if (s.process p).exited then none else s.openStep p
  | .post p =>
      if (s.process p).pc = .opened ∧ (s.process p).exited = false then some s.mysemPost else none
  | .wait p =>
      if (s.process p).pc = .opened ∧ (s.process p).exited = false then s.mysemWait else none
  | .exit p => some (s.set p { s.process p with exited := true })
  | .closeRead p =>
      if (s.process p).exited ∧ p ∈ s.fifo.readers then some { s with fifo := s.fifo.closeRead p }
      else none
  | .closeWrite p =>
      if (s.process p).exited ∧ p ∈ s.fifo.writers then some { s with fifo := s.fifo.closeWrite p }
      else none

def Step (s : State ι) (e : Event ι) (t : State ι) : Prop := s.next e = some t

/-- Some process keeps the FIFO open when one of the others closes it. -/
def Event.Keeps (s : State ι) : Event ι → Prop
  | .closeRead p => (s.fifo.closeRead p).Held
  | .closeWrite p => (s.fifo.closeWrite p).Held
  | _ => True

instance (s : State ι) : (e : Event ι) → Decidable (e.Keeps s)
  | .closeRead p => inferInstanceAs (Decidable (s.fifo.closeRead p).Held)
  | .closeWrite p => inferInstanceAs (Decidable (s.fifo.closeWrite p).Held)
  | .openStep _ => inferInstanceAs (Decidable True)
  | .post _ => inferInstanceAs (Decidable True)
  | .wait _ => inferInstanceAs (Decidable True)
  | .exit _ => inferInstanceAs (Decidable True)

/-- The bytes in the FIFO are the initial ones and those of the posts, less the
ones that waits have taken. -/
structure Conserves (s : State ι) : Prop where
  bytes : s.fifo.buf.length + s.waits = s.initial + s.posts
  initial : s.initial ≤ s.value
  waits : s.waits ≤ s.value + s.posts

end

/-! ## One creator -/

section
variable {ι : Type*}

/-- The `mkfifo` of the process has made the FIFO. -/
def Created (s : State ι) (p : ι) : Prop :=
  (s.process p).pc ≠ .mkfifo ∧ (s.process p).creat = true

/-- There is at most one creator, and it counts the initial bytes. -/
structure Inv (s : State ι) : Prop where
  bytes : s.fifo.buf.length + s.waits = s.initial + s.posts
  initial : s.initial ≤ s.value
  starts : ∀ p, (s.process p).pc = .mkfifo → (s.process p).creat = true ∧ (s.process p).i = 0
  present : ∀ p, Created s p → s.present = true
  unique : ∀ p q, Created s p → Created s q → p = q
  counted : ∀ p, Created s p → (s.process p).i = s.initial
  uncreated : (∀ p, ¬ Created s p) → s.initial = 0

theorem inv_start (value capacity : ℕ) (present : Bool) :
    Inv (State.start value capacity present : State ι) where
  bytes := rfl
  initial := Nat.zero_le _
  starts _ _ := ⟨rfl, rfl⟩
  present _ hp := absurd rfl hp.1
  unique _ _ hp _ := absurd rfl hp.1
  counted _ hp := absurd rfl hp.1
  uncreated _ := rfl

variable {s t : State ι} {p : ι}

theorem writeByte_eq_some (ht : s.writeByte = some t) :
    ∃ fifo, t = { s with fifo } ∧ fifo.buf.length = s.fifo.buf.length + 1 := by
  unfold State.writeByte at ht
  split_ifs at ht
  obtain ⟨fifo, hwrite, rfl⟩ := Option.map_eq_some_iff.mp ht
  obtain ⟨-, hfifo⟩ := Fifo.write_eq_some hwrite
  exact ⟨fifo, rfl, by rw [hfifo, List.length_append, List.length_singleton]⟩

variable [DecidableEq ι]

/-- The step of a process that is a creator after it if it was one before. Only
a creator changes the number of initial bytes. -/
theorem Inv.set (h : Inv s) (r : Process)
    (hstart : r.pc = .mkfifo → (s.process p).pc = .mkfifo ∧ r.creat = (s.process p).creat ∧
      r.i = (s.process p).i)
    (hcreated : r.pc ≠ .mkfifo ∧ r.creat = true ↔ Created s p)
    (hcounted : Created s p → r.i = t.initial) (hother : ¬ Created s p → t.initial = s.initial)
    (hprocess : t.process = Function.update s.process p r) (hpresent : t.present = s.present)
    (hbytes : t.fifo.buf.length + t.waits = t.initial + t.posts) (hinitial : t.initial ≤ t.value) :
    Inv t := by
  have hself : t.process p = r := by rw [hprocess, Function.update_self]
  have hne : ∀ q, q ≠ p → t.process q = s.process q := fun q hq => by
    rw [hprocess, Function.update_of_ne hq]
  have hsame : ∀ q, Created t q ↔ Created s q := by
    intro q
    by_cases hq : q = p
    · subst hq
      rw [← hcreated, Created, hself]
    · rw [Created, Created, hne q hq]
  constructor
  case bytes => exact hbytes
  case initial => exact hinitial
  case starts =>
    intro q hq
    by_cases hqp : q = p
    · subst hqp
      rw [hself] at hq ⊢
      obtain ⟨hpc, hcreat, hi⟩ := hstart hq
      rw [hcreat, hi]
      exact h.starts q hpc
    · rw [hne q hqp] at hq ⊢
      exact h.starts q hq
  case present => exact fun q hq => hpresent ▸ h.present q ((hsame q).mp hq)
  case unique => exact fun q q' hq hq' => h.unique q q' ((hsame q).mp hq) ((hsame q').mp hq')
  case counted =>
    intro q hq
    have hs := (hsame q).mp hq
    by_cases hqp : q = p
    · subst hqp
      rw [hself]
      exact hcounted hs
    · rw [hne q hqp, h.counted q hs, hother fun hp => hqp (h.unique q p hs hp)]
  case uncreated =>
    intro hnone
    have hs : ∀ q, ¬ Created s q := fun q hq => hnone q ((hsame q).mpr hq)
    rw [hother (hs p)]
    exact h.uncreated hs

/-- A step that leaves the process behind its `mkfifo` or at it. -/
theorem Inv.move (h : Inv s) (r : Process) (hpc : r.pc = .mkfifo ↔ (s.process p).pc = .mkfifo)
    (hcreat : r.creat = (s.process p).creat) (hi : r.i = (s.process p).i)
    (hprocess : t.process = Function.update s.process p r) (hpresent : t.present = s.present)
    (hvalue : t.value = s.value) (hinitial : t.initial = s.initial)
    (hbytes : t.fifo.buf.length + t.waits = t.initial + t.posts) : Inv t := by
  refine h.set r (fun hr => ⟨hpc.mp hr, hcreat, hi⟩) ?_ ?_ (fun _ => hinitial) hprocess hpresent
    hbytes (hinitial ▸ hvalue ▸ h.initial)
  · rw [Created, ne_eq, ne_eq, hpc, hcreat]
  · intro hp
    rw [hi, hinitial]
    exact h.counted p hp

/-- A step of the process on the FIFO alone. -/
theorem Inv.keep (h : Inv s) (p : ι) (hprocess : t.process = s.process)
    (hpresent : t.present = s.present) (hvalue : t.value = s.value)
    (hinitial : t.initial = s.initial)
    (hbytes : t.fifo.buf.length + t.waits = t.initial + t.posts) : Inv t :=
  h.move (s.process p) Iff.rfl rfl rfl
    (hprocess.trans (Function.update_eq_self p s.process).symm) hpresent hvalue hinitial hbytes

/-- A step of `mysem_open` behind `mkfifo` that writes no byte. -/
theorem Inv.advance (h : Inv s) (pc : Pc) (fifo : Fifo ι Byte) (hbehind : (s.process p).pc ≠ .mkfifo)
    (hpc : pc ≠ .mkfifo) (hbuf : fifo.buf = s.fifo.buf) :
    Inv ({ s with fifo }.set p { s.process p with pc }) := by
  refine h.move { s.process p with pc } (iff_of_false hpc hbehind) rfl rfl rfl rfl rfl rfl ?_
  change fifo.buf.length + s.waits = s.initial + s.posts
  rw [hbuf]
  exact h.bytes

/-- The path was free, so nobody is a creator yet. -/
theorem Inv.creates (h : Inv s) (hpc : (s.process p).pc = .mkfifo) (hfree : s.present = false) :
    Inv ({ s with present := true }.set p { s.process p with pc := .openingRead }) := by
  have hnone : ∀ q, ¬ Created s q := by
    intro q hq
    simp [h.present q hq] at hfree
  have hne : ∀ q, q ≠ p → ({ s with present := true }.set p
      { s.process p with pc := .openingRead }).process q = s.process q :=
    fun q hq => Function.update_of_ne hq ..
  have honly : ∀ q, Created ({ s with present := true }.set p
      { s.process p with pc := .openingRead }) q → q = p := by
    intro q hq
    by_contra hqp
    rw [Created, hne q hqp] at hq
    exact hnone q hq
  constructor
  case bytes => exact h.bytes
  case initial => exact h.initial
  case starts =>
    intro q hq
    have hqp : q ≠ p := by
      rintro rfl
      simp [State.set] at hq
    rw [hne q hqp] at hq ⊢
    exact h.starts q hq
  case present => exact fun _ _ => rfl
  case unique => exact fun q q' hq hq' => (honly q hq).trans (honly q' hq').symm
  case counted =>
    intro q hq
    obtain rfl := honly q hq
    simp only [State.set, Function.update_self]
    rw [(h.starts q hpc).2]
    exact (h.uncreated hnone).symm
  case uncreated => exact fun _ => h.uncreated hnone

/-- The others leave the path as it is and are no creators. -/
theorem Inv.finds (h : Inv s) (hpc : (s.process p).pc = .mkfifo) :
    Inv (s.set p { s.process p with pc := .openingRead, creat := false }) := by
  have hp : ¬ Created s p := fun hp => hp.1 hpc
  refine h.set { s.process p with pc := .openingRead, creat := false } (by simp) ?_
    (fun hc => absurd hc hp) (fun _ => rfl) rfl rfl h.bytes h.initial
  exact iff_of_false (by simp) hp

/-- The creator writes one of the initial bytes. -/
theorem Inv.writes (h : Inv s) (hpc : (s.process p).pc = .writing)
    (hcreat : (s.process p).creat = true) (hi : (s.process p).i < s.value)
    (ht : s.writeByte = some t) :
    Inv ({ t with initial := t.initial + 1 }.set p
      { s.process p with i := (s.process p).i + 1 }) := by
  obtain ⟨fifo, rfl, hlength⟩ := writeByte_eq_some ht
  have hp : Created s p := ⟨by simp [hpc], hcreat⟩
  have hcounted := h.counted p hp
  refine h.set { s.process p with i := (s.process p).i + 1 } (by simp [hpc]) Iff.rfl
    (fun _ => congrArg (· + 1) hcounted) (fun hc => absurd hp hc) rfl rfl ?_ ?_
  · have hbytes := h.bytes
    change fifo.buf.length + s.waits = s.initial + 1 + s.posts
    omega
  · change s.initial + 1 ≤ s.value
    omega

/-! ## Steps and runs -/

theorem Inv.openStep (h : Inv s) (ht : s.openStep p = some t) : Inv t := by
  cases hpc : (s.process p).pc with
  | mkfifo =>
      simp only [State.openStep, hpc] at ht
      split_ifs at ht with hpresent
      · cases ht
        exact h.finds hpc
      · cases ht
        exact h.creates hpc (by simpa using hpresent)
  | openingRead =>
      simp only [State.openStep, hpc] at ht
      cases ht
      exact h.advance .openingWrite (s.fifo.openRead p) (by simp [hpc]) (by simp) rfl
  | openingWrite =>
      simp only [State.openStep, hpc] at ht
      split_ifs at ht
      cases ht
      exact h.advance .fcntl (s.fifo.openWrite p) (by simp [hpc]) (by simp) rfl
  | fcntl =>
      simp only [State.openStep, hpc] at ht
      cases ht
      exact h.advance .writing s.fifo (by simp [hpc]) (by simp) rfl
  | writing =>
      simp only [State.openStep, hpc] at ht
      split_ifs at ht with hmore
      · obtain ⟨u, hu, rfl⟩ := Option.map_eq_some_iff.mp ht
        have hnext := h.writes hpc hmore.1 hmore.2 hu
        simpa only [hpc] using hnext
      · cases ht
        exact h.advance .opened s.fifo (by simp [hpc]) (by simp) rfl
  | opened => simp [State.openStep, hpc] at ht

theorem Inv.post (h : Inv s) (p : ι) : Inv s.mysemPost := by
  unfold State.mysemPost
  split
  next t ht =>
    obtain ⟨fifo, rfl, hlength⟩ := writeByte_eq_some ht
    have hbytes := h.bytes
    refine h.keep p rfl rfl rfl rfl ?_
    change fifo.buf.length + s.waits = s.initial + (s.posts + 1)
    omega
  next => exact h

theorem Inv.wait (h : Inv s) (p : ι) (ht : s.mysemWait = some t) : Inv t := by
  unfold State.mysemWait at ht
  obtain ⟨⟨items, fifo⟩, hread, rfl⟩ := Option.map_eq_some_iff.mp ht
  obtain ⟨rfl, rfl, -⟩ := Fifo.read_eq_some hread
  have hbytes := h.bytes
  simp only [List.length_take]
  split_ifs with hone
  · refine h.keep p rfl rfl rfl rfl ?_
    change (s.fifo.buf.drop 1).length + (s.waits + 1) = s.initial + s.posts
    rw [List.length_drop]
    omega
  · refine h.keep p rfl rfl rfl rfl ?_
    change (s.fifo.buf.drop 1).length + s.waits = s.initial + s.posts
    rw [List.length_drop]
    omega

theorem Inv.next {e : Event ι} (h : Inv s) (hkeeps : e.Keeps s) (ht : Step s e t) : Inv t := by
  unfold Step at ht
  cases e with
  | openStep p =>
      simp only [State.next] at ht
      split_ifs at ht
      exact h.openStep ht
  | post p =>
      simp only [State.next] at ht
      split_ifs at ht
      cases ht
      exact h.post p
  | wait p =>
      simp only [State.next] at ht
      split_ifs at ht
      exact h.wait p ht
  | exit p =>
      simp only [State.next] at ht
      cases ht
      exact h.move { s.process p with exited := true } Iff.rfl rfl rfl rfl rfl rfl rfl h.bytes
  | closeRead p =>
      simp only [State.next] at ht
      split_ifs at ht
      cases ht
      refine h.keep p rfl rfl rfl rfl ?_
      change (s.fifo.closeRead p).buf.length + s.waits = s.initial + s.posts
      rw [Fifo.closeRead_buf_of_held hkeeps]
      exact h.bytes
  | closeWrite p =>
      simp only [State.next] at ht
      split_ifs at ht
      cases ht
      refine h.keep p rfl rfl rfl rfl ?_
      change (s.fifo.closeWrite p).buf.length + s.waits = s.initial + s.posts
      rw [Fifo.closeWrite_buf_of_held hkeeps]
      exact h.bytes

omit [DecidableEq ι] in
theorem Inv.conserves (h : Inv s) : Conserves s where
  bytes := h.bytes
  initial := h.initial
  waits := by
    have hbytes := h.bytes
    have hinitial := h.initial
    omega

/-- In every state of every run in which the FIFO stays open. -/
theorem fifo_conserves {value capacity : ℕ} {present : Bool} {trace : List (Event ι × State ι)}
    (h : Path Step (State.start value capacity present) trace)
    (hkeeps : ∀ m ∈ moves (State.start value capacity present) trace, m.2.Keeps m.1) :
    ∀ p ∈ trace, Conserves p.2 := by
  have hinv := h.invariant_of_moves (fun s e t hs hm ht => hs.next hm ht)
    (inv_start value capacity present) hkeeps
  exact fun p hp => (hinv p hp).conserves

end

/-- Both processes come to `mkfifo`, the second one posts while the first one
still writes the initial bytes, and the first one ends. -/
def race : List (Event Bool) :=
  [.openStep false, .openStep true, .openStep true, .openStep true, .openStep true, .openStep true,
    .openStep false, .openStep false, .openStep false, .openStep false, .post true,
    .openStep false, .wait true, .exit false, .closeRead false, .closeWrite false]

theorem fifo_conserves_race :
    Conserves (final (State.start 2 4 false) (walk State.next (State.start 2 4 false) race)) :=
  final_of_forall (inv_start 2 4 false).conserves
    (fifo_conserves (path_walk State.next (State.start 2 4 false) race) (by decide))

end TaskLunev.FifoSemaphore
