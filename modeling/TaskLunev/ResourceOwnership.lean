import Mathlib.Data.Set.Insert
import Mathlib.Logic.Equiv.Basic
import Mathlib.Tactic.Common

/-!
# One owner for every resource

Holders each hold at most one resource. Ownership is sole when what is held is
live, nothing is held twice and nothing live is without a holder. Acquiring a
fresh resource, releasing one and passing resources around among the holders
keep it so.
-/
namespace TaskLunev.ResourceOwnership

variable {ι ρ : Type*}

structure Owns (held : ι → Option ρ) (live : Set ρ) : Prop where
  live_of_held : ∀ x r, held x = some r → r ∈ live
  unique : ∀ x y r, held x = some r → held y = some r → x = y
  held_of_live : ∀ r ∈ live, ∃ x, held x = some r

namespace Owns

variable {held : ι → Option ρ} {live : Set ρ} {x : ι} {r : ρ}

theorem empty : Owns (fun _ : ι => none) (∅ : Set ρ) where
  live_of_held _ _ h := nomatch h
  unique _ _ _ h := nomatch h
  held_of_live _ h := h.elim

/-- Where nobody holds anything, nothing is live. -/
theorem live_eq_empty (h : Owns held live) (hnone : ∀ x, held x = none) : live = ∅ := by
  apply Set.eq_empty_of_forall_notMem
  intro r hr
  obtain ⟨x, hx⟩ := h.held_of_live r hr
  rw [hnone x] at hx
  cases hx

theorem perm (h : Owns held live) (e : Equiv.Perm ι) : Owns (held ∘ e) live where
  live_of_held x r hx := h.live_of_held (e x) r hx
  unique x y r hx hy := e.injective (h.unique (e x) (e y) r hx hy)
  held_of_live r hr := by
    obtain ⟨x, hx⟩ := h.held_of_live r hr
    refine ⟨e.symm x, ?_⟩
    rwa [Function.comp_apply, e.apply_symm_apply]

section
variable [DecidableEq ι]

theorem acquire (h : Owns held live) (hx : held x = none) (hr : r ∉ live) :
    Owns (Function.update held x (some r)) (insert r live) where
  live_of_held y s hy := by
    by_cases hyx : y = x
    · rw [hyx, Function.update_self] at hy
      exact Set.mem_insert_iff.mpr (.inl (Option.some.inj hy).symm)
    · rw [Function.update_of_ne hyx] at hy
      exact Set.mem_insert_of_mem r (h.live_of_held y s hy)
  unique y z s hy hz := by
    -- the fresh resource is held by nobody else
    have hother : ∀ u, u ≠ x → held u ≠ some r := fun u _ hu => hr (h.live_of_held u r hu)
    by_cases hyx : y = x <;> by_cases hzx : z = x
    · rw [hyx, hzx]
    · rw [hyx, Function.update_self] at hy
      rw [Function.update_of_ne hzx, ← hy] at hz
      exact (hother z hzx hz).elim
    · rw [hzx, Function.update_self] at hz
      rw [Function.update_of_ne hyx, ← hz] at hy
      exact (hother y hyx hy).elim
    · rw [Function.update_of_ne hyx] at hy
      rw [Function.update_of_ne hzx] at hz
      exact h.unique y z s hy hz
  held_of_live s hs := by
    cases Set.mem_insert_iff.mp hs with
    | inl he => exact ⟨x, by rw [he, Function.update_self]⟩
    | inr hlive =>
        obtain ⟨y, hy⟩ := h.held_of_live s hlive
        have hyx : y ≠ x := by
          intro he
          rw [he, hx] at hy
          cases hy
        exact ⟨y, by rw [Function.update_of_ne hyx, hy]⟩

theorem release (h : Owns held live) (hx : held x = some r) :
    Owns (Function.update held x none) (live \ {r}) where
  live_of_held y s hy := by
    have hyx : y ≠ x := by
      intro he
      rw [he, Function.update_self] at hy
      cases hy
    rw [Function.update_of_ne hyx] at hy
    refine ⟨h.live_of_held y s hy, fun hsr => hyx ?_⟩
    rw [Set.mem_singleton_iff.mp hsr] at hy
    exact h.unique y x r hy hx
  unique y z s hy hz := by
    have hne : ∀ u, Function.update held x none u = some s → held u = some s := by
      intro u hu
      by_cases hux : u = x
      · rw [hux, Function.update_self] at hu
        cases hu
      · rwa [Function.update_of_ne hux] at hu
    exact h.unique y z s (hne y hy) (hne z hz)
  held_of_live s hs := by
    obtain ⟨y, hy⟩ := h.held_of_live s hs.1
    have hyx : y ≠ x := by
      intro he
      rw [he, hx] at hy
      exact hs.2 (Option.some.inj hy).symm
    exact ⟨y, by rw [Function.update_of_ne hyx, hy]⟩

end

end Owns

end TaskLunev.ResourceOwnership
