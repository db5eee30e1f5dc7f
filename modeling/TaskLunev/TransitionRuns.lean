import Mathlib.Logic.Relation
import Mathlib.Tactic.Common

/-!
# Runs of a transition system

A run is written as its events, each with the state it leads to. Facts about
one step are carried along a whole run here, once: an invariant, and the
equivalence between what the states reached satisfy and what the steps taken
satisfy. Where the events do not matter the run is the closure of the step
relation, and a rank that every step lowers brings it to its end.
-/
namespace TaskLunev.TransitionRuns

variable {σ ε : Type*}

inductive Path (step : σ → ε → σ → Prop) : σ → List (ε × σ) → Prop
  | nil {s : σ} : Path step s []
  | cons {s t : σ} {e : ε} {rest : List (ε × σ)} :
      step s e t → Path step t rest → Path step s ((e, t) :: rest)

/-- Each event of a run with the state it was taken in. -/
def moves : σ → List (ε × σ) → List (σ × ε)
  | _, [] => []
  | s, (e, t) :: rest => (s, e) :: moves t rest

/-- What depends on the events alone. -/
theorem forall_moves_iff {P : ε → Prop} {s : σ} {trace : List (ε × σ)} :
    (∀ m ∈ moves s trace, P m.2) ↔ ∀ p ∈ trace, P p.1 := by
  induction trace generalizing s with
  | nil => simp [moves]
  | cons p rest ih => simp only [moves, List.forall_mem_cons, ih]

/-- The state a run ends in. -/
def final : σ → List (ε × σ) → σ
  | s, [] => s
  | _, (_, t) :: rest => final t rest

/-- What holds at the start and in every state of a run holds at its end. -/
theorem final_of_forall {P : σ → Prop} {s : σ} {trace : List (ε × σ)} (hs : P s)
    (h : ∀ p ∈ trace, P p.2) : P (final s trace) := by
  induction trace generalizing s with
  | nil => exact hs
  | cons p rest ih =>
      rw [List.forall_mem_cons] at h
      exact ih h.1 h.2

variable {step : σ → ε → σ → Prop} {Inv : σ → Prop}

theorem Path.final_invariant (hstep : ∀ s e t, Inv s → step s e t → Inv t) {s : σ}
    {trace : List (ε × σ)} (h : Path step s trace) (hs : Inv s) : Inv (final s trace) := by
  induction h with
  | nil => exact hs
  | cons hst _ ih => exact ih (hstep _ _ _ hs hst)

theorem Path.invariant (hstep : ∀ s e t, Inv s → step s e t → Inv t) {s : σ}
    {trace : List (ε × σ)} (h : Path step s trace) (hs : Inv s) : ∀ p ∈ trace, Inv p.2 := by
  induction h with
  | nil => exact fun p hp => absurd hp (by simp)
  | cons hst _ ih =>
      have ht := hstep _ _ _ hs hst
      exact List.forall_mem_cons.mpr ⟨ht, ih ht⟩

/-- When a step keeps `Good` exactly if it `Meets` a condition, a run stays in
good states exactly if all its steps meet it. -/
theorem Path.states_iff_moves {Good : σ → Prop} {Meets : σ → ε → Prop}
    (hinv : ∀ s e t, Inv s → step s e t → Inv t)
    (hgood : ∀ s e t, Inv s → Good s → step s e t → (Good t ↔ Meets s e)) {s : σ}
    {trace : List (ε × σ)} (h : Path step s trace) (hs : Inv s) (hg : Good s) :
    (∀ p ∈ trace, Good p.2) ↔ ∀ m ∈ moves s trace, Meets m.1 m.2 := by
  induction h with
  | nil => simp [moves]
  | cons hst _ ih =>
      simp only [moves, List.forall_mem_cons]
      have hiff := hgood _ _ _ hs hg hst
      constructor
      · rintro ⟨ht, hrest⟩
        exact ⟨hiff.mp ht, (ih (hinv _ _ _ hs hst) ht).mp hrest⟩
      · rintro ⟨hm, hrest⟩
        have ht := hiff.mpr hm
        exact ⟨ht, (ih (hinv _ _ _ hs hst) ht).mpr hrest⟩

/-- An invariant that only steps meeting a condition keep. -/
theorem Path.invariant_of_moves {Meets : σ → ε → Prop}
    (hstep : ∀ s e t, Inv s → Meets s e → step s e t → Inv t) {s : σ} {trace : List (ε × σ)}
    (h : Path step s trace) (hs : Inv s) (hm : ∀ m ∈ moves s trace, Meets m.1 m.2) :
    ∀ p ∈ trace, Inv p.2 := by
  induction h with
  | nil => exact fun p hp => absurd hp (by simp)
  | cons hst _ ih =>
      rw [moves, List.forall_mem_cons] at hm
      have ht := hstep _ _ _ hs hm.1 hst
      exact List.forall_mem_cons.mpr ⟨ht, ih ht hm.2⟩

/-- A run whose steps lower a rank is no longer than the rank is high. -/
theorem Path.length_le {Meets : σ → ε → Prop} (rank : σ → ℕ)
    (hstep : ∀ s e t, Inv s → Meets s e → step s e t → Inv t ∧ rank t < rank s) {s : σ}
    {trace : List (ε × σ)} (h : Path step s trace) (hs : Inv s)
    (hm : ∀ m ∈ moves s trace, Meets m.1 m.2) :
    Inv (final s trace) ∧ trace.length + rank (final s trace) ≤ rank s := by
  induction h with
  | nil => exact ⟨hs, by simp [final]⟩
  | cons hst _ ih =>
      rw [moves, List.forall_mem_cons] at hm
      obtain ⟨ht, hlt⟩ := hstep _ _ _ hs hm.1 hst
      obtain ⟨hfinal, hle⟩ := ih ht hm.2
      rw [final, List.length_cons]
      exact ⟨hfinal, by omega⟩

/-! ## Runs of a step function -/

/-- The run that takes these events, up to the first one that is blocked. -/
def walk (next : σ → ε → Option σ) : σ → List ε → List (ε × σ)
  | _, [] => []
  | s, e :: events =>
      match next s e with
      | some t => (e, t) :: walk next t events
      | none => []

theorem path_walk (next : σ → ε → Option σ) (s : σ) (events : List ε) :
    Path (fun s e t => next s e = some t) s (walk next s events) := by
  induction events generalizing s with
  | nil => exact .nil
  | cons e events ih =>
      rw [walk]
      split
      next t ht => exact .cons ht (ih t)
      next => exact .nil

theorem mem_walk {next : σ → ε → Option σ} {s : σ} {events : List ε} {x : ε × σ}
    (hx : x ∈ walk next s events) : x.1 ∈ events := by
  induction events generalizing s with
  | nil => exact absurd hx List.not_mem_nil
  | cons e events ih =>
      rw [walk] at hx
      split at hx
      next t _ =>
        rcases List.mem_cons.mp hx with rfl | hx
        · exact List.mem_cons_self
        · exact List.mem_cons_of_mem e (ih hx)
      next => exact absurd hx List.not_mem_nil

/-! ## Steps without events -/

/-- Any number of steps are a run. -/
theorem exists_path {s t : σ} (h : Relation.ReflTransGen (fun s t => ∃ e, step s e t) s t) :
    ∃ trace, Path step s trace ∧ final s trace = t := by
  induction h using Relation.ReflTransGen.head_induction_on with
  | refl => exact ⟨[], .nil, rfl⟩
  | head hst _ ih =>
      obtain ⟨e, hst⟩ := hst
      obtain ⟨trace, htrace, hfinal⟩ := ih
      exact ⟨(e, _) :: trace, .cons hst htrace, hfinal⟩

section
variable {r : σ → σ → Prop} {End : σ → Prop}

/-- An invariant that a step keeps unless it ends the run. -/
theorem invariant_or_end (hstep : ∀ s t, Inv s → r s t → End t ∨ Inv t)
    (hend : ∀ s t, End s → r s t → End t) {s t : σ} (h : Relation.ReflTransGen r s t)
    (hs : Inv s) : End t ∨ Inv t := by
  induction h with
  | refl => exact .inr hs
  | tail _ hst ih =>
      rcases ih with he | hi
      · exact .inl (hend _ _ he hst)
      · exact hstep _ _ hi hst

/-- A run that can always go on and whose steps lower a rank can be brought to
its end from everywhere. -/
theorem exists_end (rank : σ → ℕ) (hprogress : ∀ s, Inv s → End s ∨ ∃ t, r s t)
    (hstep : ∀ s t, Inv s → r s t → End t ∨ (Inv t ∧ rank t < rank s)) {s : σ} (hs : Inv s) :
    ∃ t, Relation.ReflTransGen r s t ∧ End t := by
  induction hn : rank s using Nat.strongRecOn generalizing s with
  | _ n ih =>
      rcases hprogress s hs with he | ⟨t, hst⟩
      · exact ⟨s, .refl, he⟩
      · rcases hstep s t hs hst with he | ⟨ht, hlt⟩
        · exact ⟨t, .single hst, he⟩
        · obtain ⟨u, hu, he⟩ := ih (rank t) (hn ▸ hlt) ht rfl
          exact ⟨u, .head hst hu, he⟩

end

end TaskLunev.TransitionRuns
