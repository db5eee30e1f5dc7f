import Mathlib.Data.List.Basic
import TaskLunev.TransitionRuns

/-!
# Runs that come to their end

Where the active events lower a rank a run takes only finitely many of them,
and what remains to be seen is that a system at rest has reached its goal. The
other events may come at any time and as often as they like.
-/
namespace TaskLunev.CompletedRuns
open TransitionRuns

variable {σ ε : Type*} {step : σ → ε → σ → Prop}

/-! ## Runs in parts -/

theorem final_append (s : σ) (trace more : List (ε × σ)) :
    final s (trace ++ more) = final (final s trace) more := by
  induction trace generalizing s with
  | nil => rfl
  | cons p rest ih => exact ih p.2

theorem path_append {s : σ} {trace more : List (ε × σ)} (h : Path step s trace)
    (hmore : Path step (final s trace) more) : Path step s (trace ++ more) := by
  induction h with
  | nil => exact hmore
  | cons hst _ ih => exact .cons hst (ih hmore)

/-! ## Rest -/

variable (step) (active : ε → Bool)

/-- No active event is left. -/
def AtRest (s : σ) : Prop := ∀ e t, active e = true → ¬ step s e t

/-- A step function gives nothing on the active events of a system at rest. -/
theorem AtRest.eq_none {active : ε → Bool} {f : σ → ε → Option σ} {s : σ}
    (h : AtRest (fun s e t => f s e = some t) active s) {e : ε} (he : active e = true) :
    f s e = none :=
  Option.eq_none_iff_forall_ne_some.mpr fun t => h e t he

/-- However the events come from `s` on, at most `bound` of them are active,
the goal is reached when the system comes to rest, and it still can. -/
structure Completes (s : σ) (bound : ℕ) (Goal : σ → Prop) : Prop where
  bounded : ∀ trace, Path step s trace → trace.countP (fun p => active p.1) ≤ bound
  goal : ∀ trace, Path step s trace → AtRest step active (final s trace) → Goal (final s trace)
  ends : ∀ trace, Path step s trace → ∃ more, Path step s (trace ++ more) ∧
    AtRest step active (final s (trace ++ more))

/-- An invariant under which active events lower a rank, the others do not
raise it, and rest means the goal. -/
structure Ranked (Inv : σ → Prop) (rank : σ → ℕ) (Goal : σ → Prop) : Prop where
  keeps : ∀ s e t, Inv s → step s e t → Inv t
  lowers : ∀ s e t, Inv s → step s e t → rank t + (if active e then 1 else 0) ≤ rank s
  goal : ∀ s, Inv s → AtRest step active s → Goal s

section
variable {step active} {Inv Goal : σ → Prop} {rank : σ → ℕ} {s : σ} {trace : List (ε × σ)}

theorem Ranked.countP_le (h : Ranked step active Inv rank Goal) (hs : Inv s)
    (htrace : Path step s trace) :
    trace.countP (fun p => active p.1) + rank (final s trace) ≤ rank s := by
  induction htrace with
  | nil => simp [final]
  | cons hst _ ih =>
      have hlow := h.lowers _ _ _ hs hst
      have hrest := ih (h.keeps _ _ _ hs hst)
      simp only [List.countP_cons, final]
      omega

/-- Steps can be taken until the system is at rest. -/
theorem Ranked.exists_rest (h : Ranked step active Inv rank Goal) (hs : Inv s) :
    ∃ more, Path step s more ∧ AtRest step active (final s more) := by
  induction hn : rank s using Nat.strongRecOn generalizing s with
  | _ n ih =>
      by_cases hrest : AtRest step active s
      · exact ⟨[], .nil, hrest⟩
      · simp only [AtRest, not_forall, not_not] at hrest
        obtain ⟨e, t, he, hst⟩ := hrest
        have hlow := h.lowers _ _ _ hs hst
        rw [if_pos he] at hlow
        obtain ⟨more, hmore, hend⟩ := ih (rank t) (by omega) (h.keeps _ _ _ hs hst) rfl
        exact ⟨(e, t) :: more, .cons hst hmore, hend⟩

theorem Ranked.completes (h : Ranked step active Inv rank Goal) (hs : Inv s) :
    Completes step active s (rank s) Goal where
  bounded trace htrace := by
    have := h.countP_le hs htrace
    omega
  goal trace htrace hrest := h.goal _ (htrace.final_invariant h.keeps hs) hrest
  ends trace htrace := by
    obtain ⟨more, hmore, hrest⟩ := h.exists_rest (htrace.final_invariant h.keeps hs)
    exact ⟨more, path_append htrace hmore, final_append s trace more ▸ hrest⟩

end

end TaskLunev.CompletedRuns
