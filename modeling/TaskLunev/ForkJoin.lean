import Mathlib
import TaskLunev.CompletedRuns

/-!
# Workers started and joined in order

A parent starts workers one by one, each on a record of its own, and joins them
in the same order. In between the workers take their passes whenever they like.
When a start fails the parent leaves, and the workers it has started go on. The
results joined do not depend on the order of the passes.
-/
namespace TaskLunev.ForkJoin
open TransitionRuns CompletedRuns
open scoped BigOperators

variable {ω ρ : Type*}

inductive Status (ω ρ : Type*) where
  | idle
  | running (w : ω)
  | ended (r : ρ)

/-- The next step of the parent; `failed` is a parent that left after a start
that failed. -/
inductive Parent (ρ : Type*) where
  | starting (i : ℕ)
  | joining (i : ℕ) (got : List ρ)
  | returned (got : List ρ)
  | failed

structure State (ω ρ : Type*) where
  parent : Parent ρ
  worker : ℕ → Status ω ρ

def State.start : State ω ρ := ⟨.starting 0, fun _ => .idle⟩

inductive Event where
  | parent
  | startFails
  | work (i : ℕ)
  deriving DecidableEq, Repr

section
variable (pass : ω → ω ⊕ ρ) (jobs : List ω)

/-- A join waits for the worker's end. -/
def parentNext (s : State ω ρ) : Option (State ω ρ) :=
  match s.parent with
  | .starting i =>
      match jobs[i]? with
      | some w => some ⟨.starting (i + 1), Function.update s.worker i (.running w)⟩
      | none => some { s with parent := .joining 0 [] }
  | .joining i got =>
      if i < jobs.length then
        match s.worker i with
        | .ended r => some { s with parent := .joining (i + 1) (got ++ [r]) }
        | _ => none
      else some { s with parent := .returned got }
  | .returned _ => none
  | .failed => none

def startFails (s : State ω ρ) : Option (State ω ρ) :=
  match s.parent with
  | .starting i => if i < jobs.length then some { s with parent := .failed } else none
  | _ => none

def workNext (s : State ω ρ) (i : ℕ) : Option (State ω ρ) :=
  match s.worker i with
  | .running w =>
      match pass w with
      | .inl w' => some { s with worker := Function.update s.worker i (.running w') }
      | .inr r => some { s with worker := Function.update s.worker i (.ended r) }
  | _ => none

def next (s : State ω ρ) : Event → Option (State ω ρ)
  | .parent => parentNext jobs s
  | .startFails => startFails jobs s
  | .work i => workNext pass s i

def Step (s : State ω ρ) (e : Event) (t : State ω ρ) : Prop := next pass jobs s e = some t

/-- Starts fail from outside. -/
def own : Event → Bool
  | .startFails => false
  | _ => true

/-- On good workers a pass lowers the cost and keeps the result, which is what
the last pass gives. -/
structure Measured (Good : ω → Prop) (cost : ω → ℕ) (result : ω → ρ) : Prop where
  goes : ∀ w w', Good w → pass w = .inl w' → Good w' ∧ cost w' < cost w ∧ result w' = result w
  ends : ∀ w r, Good w → pass w = .inr r → r = result w

end

/-! ## What the workers hold -/

/-- A worker is on its way to the result of its job, or has it. -/
def Serves (jobs : List ω) (Good : ω → Prop) (result : ω → ρ) (i : ℕ) : Status ω ρ → Prop
  | .idle => True
  | .running w => Good w ∧ ∃ job, jobs[i]? = some job ∧ result w = result job
  | .ended r => ∃ job, jobs[i]? = some job ∧ r = result job

/-- Where the parent stands fits the workers. -/
def Attends (jobs : List ω) (result : ω → ρ) (worker : ℕ → Status ω ρ) : Parent ρ → Prop
  | .starting k => k ≤ jobs.length ∧ ∀ i < k, worker i ≠ .idle
  | .joining k got => k ≤ jobs.length ∧ (∀ i < jobs.length, worker i ≠ .idle) ∧
      (∀ i < k, ∃ r, worker i = .ended r) ∧ got = (jobs.take k).map result
  | .returned got => (∀ i < jobs.length, ∃ r, worker i = .ended r) ∧ got = jobs.map result
  | .failed => True

structure Books (jobs : List ω) (Good : ω → Prop) (result : ω → ρ) (s : State ω ρ) : Prop where
  worker : ∀ i, Serves jobs Good result i (s.worker i)
  parent : Attends jobs result s.worker s.parent

section
variable {pass : ω → ω ⊕ ρ} {jobs : List ω} {Good : ω → Prop} {cost : ω → ℕ} {result : ω → ρ}
  {s t : State ω ρ} {i : ℕ}

theorem books_start : Books jobs Good result State.start where
  worker _ := trivial
  parent := ⟨Nat.zero_le _, fun i hi => absurd hi (Nat.not_lt_zero i)⟩

theorem Serves.update {status : Status ω ρ} (h : ∀ j, Serves jobs Good result j (s.worker j))
    (hi : Serves jobs Good result i status) (j : ℕ) :
    Serves jobs Good result j (Function.update s.worker i status j) := by
  by_cases hj : j = i
  · subst hj
    rwa [Function.update_self]
  · rw [Function.update_of_ne hj]
    exact h j

/-- A worker that goes on or ends is none that was idle or had ended. -/
theorem Attends.update {status : Status ω ρ} {p : Parent ρ} (h : Attends jobs result s.worker p)
    {w : ω} (hw : s.worker i = .running w) (hstatus : status ≠ .idle) :
    Attends jobs result (Function.update s.worker i status) p := by
  have hidle : ∀ j, s.worker j ≠ .idle → Function.update s.worker i status j ≠ .idle := by
    intro j hj
    by_cases hji : j = i
    · subst hji
      rwa [Function.update_self]
    · rwa [Function.update_of_ne hji]
  have hended : ∀ j, (∃ r, s.worker j = .ended r) →
      ∃ r, Function.update s.worker i status j = .ended r := by
    rintro j ⟨r, hr⟩
    have hji : j ≠ i := fun hji => by
      rw [hji, hw] at hr
      cases hr
    exact ⟨r, by rw [Function.update_of_ne hji, hr]⟩
  cases p with
  | starting k => exact ⟨h.1, fun j hj => hidle j (h.2 j hj)⟩
  | joining k got =>
      exact ⟨h.1, fun j hj => hidle j (h.2.1 j hj), fun j hj => hended j (h.2.2.1 j hj), h.2.2.2⟩
  | returned got => exact ⟨fun j hj => hended j (h.1 j hj), h.2⟩
  | failed => trivial

theorem Books.work (hm : Measured pass Good cost result) (h : Books jobs Good result s)
    (ht : workNext pass s i = some t) : Books jobs Good result t := by
  have hserves := h.worker i
  unfold workNext at ht
  split at ht
  next w hw =>
    rw [hw] at hserves
    obtain ⟨hgood, job, hjob, hresult⟩ := hserves
    split at ht
    next w' hpass =>
      cases ht
      obtain ⟨hgood', -, hsame⟩ := hm.goes w w' hgood hpass
      exact ⟨Serves.update h.worker ⟨hgood', job, hjob, hsame.trans hresult⟩,
        h.parent.update hw (by simp)⟩
    next r hpass =>
      cases ht
      exact ⟨Serves.update h.worker ⟨job, hjob, (hm.ends w r hgood hpass).trans hresult⟩,
        h.parent.update hw (by simp)⟩
  next => cases ht

/-- The parent joins a worker that has ended. -/
theorem Attends.join {k : ℕ} {got : List ρ} {r : ρ} {worker : ℕ → Status ω ρ}
    (h : Attends jobs result worker (.joining k got)) (hlt : k < jobs.length)
    (hserves : Serves jobs Good result k (worker k)) (hr : worker k = .ended r) :
    Attends jobs result worker (.joining (k + 1) (got ++ [r])) := by
  obtain ⟨-, hidle, hended, hgot⟩ := h
  refine ⟨hlt, hidle, fun j hj => ?_, ?_⟩
  · by_cases hjk : j = k
    · exact ⟨r, hjk ▸ hr⟩
    · exact hended j (by omega)
  · rw [hr] at hserves
    obtain ⟨job, hjob, hres⟩ := hserves
    rw [List.getElem?_eq_getElem hlt] at hjob
    rw [List.take_succ_eq_append_getElem hlt, List.map_append, ← hgot, Option.some.inj hjob, hres]
    rfl

theorem Books.parentNext (hgood : ∀ w ∈ jobs, Good w) (h : Books jobs Good result s)
    (ht : parentNext jobs s = some t) : Books jobs Good result t := by
  have hparent := h.parent
  unfold ForkJoin.parentNext at ht
  split at ht
  next k hk =>
    rw [hk] at hparent
    obtain ⟨-, hidle⟩ := hparent
    split at ht
    next w hw =>
      cases ht
      obtain ⟨hlt, hget⟩ := List.getElem?_eq_some_iff.mp hw
      refine ⟨Serves.update h.worker ⟨hgood w (List.mem_of_getElem? hw), w, hw, rfl⟩, hlt, ?_⟩
      intro j hj
      by_cases hjk : j = k
      · subst hjk
        simp
      · simp only [Function.update_of_ne hjk]
        exact hidle j (by omega)
    next hnone =>
      cases ht
      have hge := List.getElem?_eq_none_iff.mp hnone
      exact ⟨h.worker, Nat.zero_le _, fun j hj => hidle j (by omega),
        fun j hj => absurd hj (Nat.not_lt_zero j), rfl⟩
  next k got hk =>
    rw [hk] at hparent
    split at ht
    next hlt =>
      split at ht
      next r hr =>
        cases ht
        exact ⟨h.worker, hparent.join hlt (h.worker k) hr⟩
      next => cases ht
    next hge =>
      cases ht
      obtain ⟨hle, -, hended, hgot⟩ := hparent
      obtain rfl : k = jobs.length := by omega
      exact ⟨h.worker, hended, by rw [hgot, List.take_length]⟩
  next => cases ht
  next => cases ht

theorem Books.next (hm : Measured pass Good cost result) (hgood : ∀ w ∈ jobs, Good w) {e : Event}
    (h : Books jobs Good result s) (ht : Step pass jobs s e t) : Books jobs Good result t := by
  cases e with
  | parent => exact h.parentNext hgood ht
  | work i => exact h.work hm ht
  | startFails =>
      have hstep : startFails jobs s = some t := ht
      unfold startFails at hstep
      split at hstep
      next k hk =>
        split at hstep
        · cases hstep
          exact ⟨h.worker, trivial⟩
        · cases hstep
      next => cases hstep

end

/-! ## The steps left -/

def statusRank (cost : ω → ℕ) : Status ω ρ → ℕ
  | .running w => cost w + 1
  | _ => 0

/-- What the workers still to be started will cost. -/
def startCost (cost : ω → ℕ) (jobs : List ω) : ℕ := (jobs.map fun w => cost w + 2).sum

def parentRank (cost : ω → ℕ) (jobs : List ω) : Parent ρ → ℕ
  | .starting i => startCost cost (jobs.drop i) + jobs.length + 2
  | .joining i _ => jobs.length - i + 1
  | .returned _ => 0
  | .failed => 0

def rank (cost : ω → ℕ) (jobs : List ω) (s : State ω ρ) : ℕ :=
  parentRank cost jobs s.parent + ∑ i ∈ Finset.range jobs.length, statusRank cost (s.worker i)

section
variable {pass : ω → ω ⊕ ρ} {jobs : List ω} {Good : ω → Prop} {cost : ω → ℕ} {result : ω → ρ}
  {s t : State ω ρ} {i : ℕ}

theorem sum_statusRank_update (cost : ω → ℕ) (worker : ℕ → Status ω ρ) (status : Status ω ρ)
    {n : ℕ} (hi : i < n) :
    ∑ j ∈ Finset.range n, statusRank cost (Function.update worker i status j) +
        statusRank cost (worker i) =
      ∑ j ∈ Finset.range n, statusRank cost (worker j) + statusRank cost status := by
  have hmem := Finset.mem_range.mpr hi
  have hrest : ∀ j ∈ (Finset.range n).erase i,
      statusRank cost (Function.update worker i status j) = statusRank cost (worker j) :=
    fun j hj => by rw [Function.update_of_ne (Finset.ne_of_mem_erase hj)]
  rw [← Finset.sum_erase_add _ _ hmem, Finset.sum_congr rfl hrest, Function.update_self,
    ← Finset.sum_erase_add _ (fun j => statusRank cost (worker j)) hmem]
  omega

theorem rank_work (hm : Measured pass Good cost result) (h : Books jobs Good result s)
    (ht : workNext pass s i = some t) : rank cost jobs t < rank cost jobs s := by
  have hserves := h.worker i
  unfold workNext at ht
  split at ht
  next w hw =>
    rw [hw] at hserves
    obtain ⟨hgood, job, hjob, -⟩ := hserves
    have hlt := (List.getElem?_eq_some_iff.mp hjob).1
    have hbefore : statusRank cost (s.worker i) = cost w + 1 := by rw [hw]; rfl
    split at ht
    next w' hpass =>
      cases ht
      have hcost := (hm.goes w w' hgood hpass).2.1
      have hsum := sum_statusRank_update cost s.worker (.running w') hlt
      have hafter : statusRank cost (.running w' : Status ω ρ) = cost w' + 1 := rfl
      simp only [rank]
      omega
    next r hpass =>
      cases ht
      have hsum := sum_statusRank_update cost s.worker (.ended r) hlt
      have hafter : statusRank cost (.ended r : Status ω ρ) = 0 := rfl
      simp only [rank]
      omega
  next => cases ht

theorem startCost_drop {w : ω} (hw : jobs[i]? = some w) :
    startCost cost (jobs.drop i) = cost w + 2 + startCost cost (jobs.drop (i + 1)) := by
  obtain ⟨hlt, hget⟩ := List.getElem?_eq_some_iff.mp hw
  rw [List.drop_eq_getElem_cons hlt, hget, startCost, List.map_cons, List.sum_cons, startCost]

theorem rank_parentNext (ht : parentNext jobs s = some t) : rank cost jobs t < rank cost jobs s := by
  unfold parentNext at ht
  split at ht
  next k hk =>
    split at ht
    next w hw =>
      cases ht
      have hlt := (List.getElem?_eq_some_iff.mp hw).1
      have hsum := sum_statusRank_update cost s.worker (.running w) hlt
      have hafter : statusRank cost (.running w : Status ω ρ) = cost w + 1 := rfl
      have hdrop : startCost cost (jobs.drop k) = cost w + 2 + startCost cost (jobs.drop (k + 1)) :=
        startCost_drop hw
      simp only [rank, hk, parentRank]
      omega
    next =>
      cases ht
      simp only [rank, hk, parentRank]
      omega
  next k got hk =>
    split at ht
    next hlt =>
      split at ht
      next r hr =>
        cases ht
        simp only [rank, hk, parentRank]
        omega
      next => cases ht
    next =>
      cases ht
      simp only [rank, hk, parentRank]
      omega
  next => cases ht
  next => cases ht

theorem rank_startFails (ht : startFails jobs s = some t) : rank cost jobs t ≤ rank cost jobs s := by
  unfold startFails at ht
  split at ht
  next k hk =>
    split at ht
    · cases ht
      simp only [rank, hk, parentRank]
      omega
    · cases ht
  next => cases ht

theorem rank_start (cost : ω → ℕ) (jobs : List ω) :
    rank cost jobs (State.start : State ω ρ) = startCost cost jobs + jobs.length + 2 := by
  simp [rank, State.start, parentRank, statusRank]

/-! ## The end -/

/-- Nobody is at work any more, and all results are joined unless a start
failed. -/
structure Joined (jobs : List ω) (result : ω → ρ) (s : State ω ρ) : Prop where
  parent : s.parent = .returned (jobs.map result) ∨ s.parent = .failed
  worker : ∀ i w, s.worker i ≠ .running w

theorem joined_of_atRest (h : Books jobs Good result s)
    (hrest : AtRest (Step pass jobs) own s) : Joined jobs result s := by
  have hnone : ∀ e, own e = true → next pass jobs s e = none := fun e he =>
    AtRest.eq_none (f := next pass jobs) hrest he
  have hworker : ∀ i w, s.worker i ≠ .running w := by
    intro i w hw
    have hstop := hnone (.work i) rfl
    simp only [next, workNext, hw] at hstop
    split at hstop <;> cases hstop
  have hstop : parentNext jobs s = none := hnone .parent rfl
  refine ⟨?_, hworker⟩
  have hparent := h.parent
  unfold parentNext at hstop
  cases hp : s.parent with
  | starting k =>
      simp only [hp] at hstop
      split at hstop <;> cases hstop
  | joining k got =>
      rw [hp] at hparent
      simp only [hp] at hstop
      split at hstop
      next hlt =>
        cases hk : s.worker k with
        | idle => exact absurd hk (hparent.2.1 k hlt)
        | running w => exact absurd hk (hworker k w)
        | ended r => simp [hk] at hstop
      next => cases hstop
  | returned got =>
      rw [hp] at hparent
      exact .inl (by rw [hparent.2])
  | failed => exact .inr rfl

/-- The order of the passes does not matter: the passes run out, and the
results joined are those of the jobs. -/
theorem completes (hm : Measured pass Good cost result) (hgood : ∀ w ∈ jobs, Good w) :
    Completes (Step pass jobs) own State.start (startCost cost jobs + jobs.length + 2)
      (Joined jobs result) := by
  have hranked : Ranked (Step pass jobs) own (Books jobs Good result) (rank cost jobs)
      (Joined jobs result) :=
    { keeps := fun _ _ _ h ht => h.next hm hgood ht
      lowers := fun s e t h ht => by
        cases e with
        | parent => exact rank_parentNext ht
        | work i => exact rank_work hm h ht
        | startFails => exact rank_startFails ht
      goal := fun _ h hrest => joined_of_atRest h hrest }
  exact rank_start (ρ := ρ) cost jobs ▸ hranked.completes books_start

/-- A parent that returns results leaves no worker behind. -/
theorem returned_run (hm : Measured pass Good cost result) (hgood : ∀ w ∈ jobs, Good w)
    {trace : List (Event × State ω ρ)} (h : Path (Step pass jobs) State.start trace) {got : List ρ}
    (hret : (final State.start trace).parent = .returned got) :
    got = jobs.map result ∧ ∀ i < jobs.length, ∃ r, (final State.start trace).worker i = .ended r := by
  have hbooks := h.final_invariant (fun _ _ _ hs ht => hs.next hm hgood ht) books_start
  have hparent := hbooks.parent
  rw [hret] at hparent
  exact ⟨hparent.2, hparent.1⟩

end

end TaskLunev.ForkJoin
