import Mathlib.Data.Int.CardIntervalMod
import Mathlib.Data.List.Nodup
import Mathlib.Tactic.Common

/-!
# Tasks dealt out in turn

Task `t` goes to place `t % n` of a list of `n` items. Every item gets the
whole part of the average or one task more, as many tasks as items reach each
item once, and no more tasks than items go to the front of the list.
-/
namespace TaskLunev.RoundRobin

variable {α : Type*}

/-- The items that `count` tasks get. -/
def deal (items : List α) (hne : 0 < items.length) (count : ℕ) : List α :=
  (List.range count).map fun t => items.get ⟨t % items.length, Nat.mod_lt t hne⟩

variable {items : List α} {hne : 0 < items.length} {count : ℕ}

@[simp] theorem length_deal : (deal items hne count).length = count := by
  rw [deal, List.length_map, List.length_range]

theorem mem_of_mem_deal {x : α} (hx : x ∈ deal items hne count) : x ∈ items := by
  obtain ⟨t, -, rfl⟩ := List.mem_map.mp hx
  exact List.get_mem _ _

theorem deal_eq_take (h : count ≤ items.length) : deal items hne count = items.take count := by
  apply List.ext_getElem
  · rw [length_deal, List.length_take, Nat.min_eq_left h]
  · intro t ht _
    rw [length_deal] at ht
    simp only [deal, List.getElem_map, List.getElem_range, List.getElem_take, List.get_eq_getElem,
      Nat.mod_eq_of_lt (ht.trans_le h)]

theorem take_deal {k : ℕ} (h : k ≤ count) :
    (deal items hne count).take k = deal items hne k := by
  rw [deal, deal, ← List.map_take, List.take_range, Nat.min_eq_left h]

theorem countP_range (p : ℕ → Bool) (count : ℕ) :
    (List.range count).countP p = Nat.count (fun t => p t = true) count := by
  induction count with
  | zero => rfl
  | succ count ih =>
      rw [List.range_succ, List.countP_append, ih, Nat.count_succ, List.countP_singleton]

variable [DecidableEq α]

theorem count_deal (hnodup : items.Nodup) (k : Fin items.length) :
    (deal items hne count).count (items.get k) =
      count / items.length + if k.val < count % items.length then 1 else 0 := by
  have hturn : ∀ t, items.get ⟨t % items.length, Nat.mod_lt t hne⟩ = items.get k ↔
      t ≡ k [MOD items.length] := fun t => by
    rw [hnodup.get_inj_iff, Fin.ext_iff, Nat.ModEq, Nat.mod_eq_of_lt k.isLt]
  have hcount := Nat.count_modEq_card count hne k
  rw [Nat.mod_eq_of_lt k.isLt] at hcount
  rw [← hcount, deal, List.count, List.countP_map, countP_range]
  simp only [Function.comp_apply, beq_iff_eq, hturn]

/-- The numbers of tasks of two items differ by at most one. -/
theorem count_deal_le (hnodup : items.Nodup) {x y : α} (hx : x ∈ items) (hy : y ∈ items) :
    (deal items hne count).count x ≤ (deal items hne count).count y + 1 := by
  obtain ⟨i, rfl⟩ := List.get_of_mem hx
  obtain ⟨j, rfl⟩ := List.get_of_mem hy
  rw [count_deal hnodup, count_deal hnodup]
  split_ifs <;> omega

theorem count_deal_all (hnodup : items.Nodup) {x : α} (hx : x ∈ items) :
    (deal items hne items.length).count x = 1 := by
  rw [deal_eq_take le_rfl, List.take_length, List.count_eq_one_of_mem hnodup hx]

end TaskLunev.RoundRobin
