import Mathlib.Tactic.Common

/-!
# Programs against what their calls are for

A program is a list of calls on a state. A call may fail, and otherwise gives an
answer and the next state. What it is for is a relation on a more abstract
state, which may leave open what the environment decides, with a condition
under which the call may be made. When one call keeps to the relation, so does
every program whose calls may be made, judged by the abstract states alone.
-/
namespace TaskLunev.ProgramRefinement

variable {σ τ ε ρ : Type*}

/-- The answers of a program and the state it ends in. -/
def execute (run : ε → σ → Option (ρ × σ)) : List ε → σ → Option (List ρ × σ)
  | [], s => some ([], s)
  | e :: es, s => do
      let (r, s) ← run e s
      let (rs, s) ← execute run es s
      return (r :: rs, s)

/-- What a program may answer, and the abstract state it may end in. -/
inductive Behaves (spec : τ → ε → ρ → τ → Prop) : τ → List ε → List ρ → τ → Prop
  | nil {a : τ} : Behaves spec a [] [] a
  | cons {a b c : τ} {e : ε} {es : List ε} {r : ρ} {rs : List ρ} :
      spec a e r b → Behaves spec b es rs c → Behaves spec a (e :: es) (r :: rs) c

/-- Each call may be made, whatever the calls before it answered. -/
def Permitted (spec : τ → ε → ρ → τ → Prop) (meets : τ → ε → Prop) : τ → List ε → Prop
  | _, [] => True
  | a, e :: es => meets a e ∧ ∀ r b, spec a e r b → Permitted spec meets b es

/-- One call that may be made does not fail, keeps the invariant and does what it
is for. -/
def Refines (run : ε → σ → Option (ρ × σ)) (spec : τ → ε → ρ → τ → Prop)
    (meets : τ → ε → Prop) (Inv : σ → Prop) (view : σ → τ) : Prop :=
  ∀ e s, Inv s → meets (view s) e →
    ∃ r t, run e s = some (r, t) ∧ Inv t ∧ spec (view s) e r (view t)

variable {run : ε → σ → Option (ρ × σ)} {spec : τ → ε → ρ → τ → Prop} {meets : τ → ε → Prop}
  {Inv : σ → Prop} {view : σ → τ}

theorem Refines.execute (h : Refines run spec meets Inv view) {es : List ε} {s : σ} (hs : Inv s)
    (hes : Permitted spec meets (view s) es) :
    ∃ rs t, execute run es s = some (rs, t) ∧ Inv t ∧ Behaves spec (view s) es rs (view t) := by
  induction es generalizing s with
  | nil => exact ⟨[], s, rfl, hs, .nil⟩
  | cons e es ih =>
      obtain ⟨r, t, hrun, ht, hspec⟩ := h e s hs hes.1
      obtain ⟨rs, u, hrest, hu, hbehaves⟩ := ih ht (hes.2 r _ hspec)
      refine ⟨r :: rs, u, ?_, hu, .cons hspec hbehaves⟩
      simp only [ProgramRefinement.execute, hrun, hrest, Option.bind_eq_bind, Option.bind_some,
        Option.pure_def]

end TaskLunev.ProgramRefinement
