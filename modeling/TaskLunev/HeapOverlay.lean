import Mathlib.Data.List.Forall2
import Mathlib.Logic.Function.Basic
import TaskLunev.BlockHeap

/-!
# Blocks over a heap

What a computation has allocated and not yet freed, as a map over the heap it
started from. Every operation on a block of its own is one on the map, and when
the map is empty again the heap reads as it did at the start.
-/
namespace TaskLunev.HeapOverlay
open BlockHeap

variable {β : Type*} {old heap : Heap β} {own : ℕ → Option β} {a x : ℕ} {b c : β}

/-- The heap is `old` with the blocks of `own` over it, at addresses where `old`
has none. -/
structure Overlay (old : Heap β) (own : ℕ → Option β) (heap : Heap β) : Prop where
  apart : ∀ a, (own a).isSome = true → ¬ Live old a
  loads : ∀ a, load heap a = (own a).or (load old a)

/-- Nothing allocated. -/
def nothing : ℕ → Option β := fun _ => none

theorem update_none (h : own a = none) : Function.update own a none = own := by
  rw [← h, Function.update_eq_self]

namespace Overlay

theorem refl (heap : Heap β) : Overlay heap nothing heap :=
  ⟨fun _ h => absurd h Bool.false_ne_true, fun _ => rfl⟩

/-- At the end every block of the old heap is there, and no other. -/
theorem same (h : Overlay old nothing heap) (a : ℕ) : load heap a = load old a := h.loads a

theorem load_own (h : Overlay old own heap) (ha : own a = some b) : load heap a = some b := by
  rw [h.loads, ha, Option.some_or]

theorem load_old (h : Overlay old own heap) (ha : Live old a) : load heap a = load old a := by
  rw [h.loads]
  cases hown : own a with
  | none => exact Option.none_or
  | some b => exact absurd ha (h.apart a (by rw [hown]; rfl))

theorem live (h : Overlay old own heap) (ha : own a = some b) : Live heap a := by
  rw [Live, h.load_own ha]
  rfl

theorem allocate (h : Overlay old own heap) (b : β) : own (allocate heap b).1 = none ∧
    Overlay old (Function.update own (allocate heap b).1 (some b)) (allocate heap b).2 := by
  have hdead := load_of_not_live (not_live_allocated : ¬ Live heap (BlockHeap.allocate heap b).1)
  rw [h.loads, Option.or_eq_none_iff] at hdead
  refine ⟨hdead.1, fun x hx => ?_, fun x => ?_⟩
  · by_cases hax : x = (BlockHeap.allocate heap b).1
    · subst hax
      rw [Live, hdead.2]
      exact Bool.false_ne_true
    · rw [Function.update_of_ne hax] at hx
      exact h.apart x hx
  · by_cases hax : x = (BlockHeap.allocate heap b).1
    · subst hax
      rw [load_allocate_self, Function.update_self, Option.some_or]
    · rw [load_allocate_of_ne hax, Function.update_of_ne hax, h.loads]

theorem store (h : Overlay old own heap) (ha : own a = some c) (b : β) :
    Overlay old (Function.update own a (some b)) (store heap a b) where
  apart x hx := by
    by_cases hax : x = a
    · subst hax
      exact h.apart x (by rw [ha]; rfl)
    · rw [Function.update_of_ne hax] at hx
      exact h.apart x hx
  loads x := by
    by_cases hax : x = a
    · subst hax
      rw [load_store_self (h.live ha), Function.update_self, Option.some_or]
    · rw [load_store_of_ne (Ne.symm hax), Function.update_of_ne hax, h.loads]

theorem free (h : Overlay old own heap) (ha : own a = some b) :
    ∃ heap', free heap a = some heap' ∧ Overlay old (Function.update own a none) heap' := by
  have hfree := free_of_live (h.live ha)
  refine ⟨_, hfree, fun x hx => ?_, fun x => ?_⟩
  · by_cases hax : x = a
    · subst hax
      rw [Function.update_self] at hx
      cases hx
    · rw [Function.update_of_ne hax] at hx
      exact h.apart x hx
  · by_cases hax : x = a
    · subst hax
      have hold : load old x = none := load_of_not_live (h.apart x (by rw [ha]; rfl))
      rw [load_of_not_live (not_live_of_free hfree), Function.update_self, Option.none_or, hold]
    · rw [load_free_of_ne hfree hax, Function.update_of_ne hax, h.loads]

/-- A block allocated before another is given back. -/
theorem free_under
    (h : Overlay old (Function.update (Function.update own x (some b)) a (some c)) heap)
    (hx : own x = none) (hne : x ≠ a) :
    ∃ heap', BlockHeap.free heap x = some heap' ∧
      Overlay old (Function.update own a (some c)) heap' := by
  have hown : Function.update (Function.update own x (some b)) a (some c) x = some b := by
    rw [Function.update_of_ne hne, Function.update_self]
  obtain ⟨heap', hfree, hrest⟩ := h.free hown
  rw [Function.update_comm hne, Function.update_idem, Function.update_comm hne.symm,
    update_none hx] at hrest
  exact ⟨heap', hfree, hrest⟩

/-- The last block is given back. -/
theorem free_last (h : Overlay old (Function.update own a (some b)) heap) (ha : own a = none) :
    ∃ heap', BlockHeap.free heap a = some heap' ∧ Overlay old own heap' := by
  obtain ⟨heap', hfree, hrest⟩ := h.free (Function.update_self a (some b) own)
  rw [Function.update_idem, update_none ha] at hrest
  exact ⟨heap', hfree, hrest⟩

end Overlay

/-! ## Blocks left behind -/

/-- Blocks with the contents of `left` beside those of `own`. -/
def Beside (old : Heap β) : List β → (ℕ → Option β) → Heap β → Prop
  | [], own, heap => Overlay old own heap
  | b :: left, own, heap =>
      ∃ a, own a = none ∧ Beside old left (Function.update own a (some b)) heap

/-- Blocks with the contents of `left` are at addresses that were not live, and
every other address is as it was. -/
def Leaves (old : Heap β) (left : List β) (heap : Heap β) : Prop :=
  ∃ places : List ℕ, places.Nodup ∧
    List.Forall₂ (fun a b => ¬ Live old a ∧ load heap a = some b) places left ∧
    ∀ a, a ∉ places → load heap a = load old a

namespace Beside
variable {left : List β}

theorem place (h : Beside old left own heap) (ha : own a = some b) :
    ¬ Live old a ∧ load heap a = some b := by
  induction left generalizing own with
  | nil => exact ⟨Overlay.apart h a (by rw [ha]; rfl), Overlay.load_own h ha⟩
  | cons c left ih =>
      obtain ⟨x, hx, hrest⟩ := h
      have hne : a ≠ x := by
        rintro rfl
        rw [ha] at hx
        cases hx
      exact ih hrest (by rw [Function.update_of_ne hne, ha])

theorem freed (h : Beside old left (Function.update own a (some b)) heap) (ha : own a = none) :
    ∃ heap', BlockHeap.free heap a = some heap' ∧ Beside old left own heap' := by
  induction left generalizing own with
  | nil => exact Overlay.free_last h ha
  | cons c left ih =>
      obtain ⟨x, hx, hrest⟩ := h
      have hne : x ≠ a := by
        rintro rfl
        rw [Function.update_self] at hx
        cases hx
      rw [Function.update_of_ne hne] at hx
      rw [Function.update_comm hne.symm] at hrest
      obtain ⟨heap', hfree, hbeside⟩ := ih hrest (by rw [Function.update_of_ne hne.symm, ha])
      exact ⟨heap', hfree, x, hx, hbeside⟩

theorem allocate (h : Beside old left own heap) (b : β) :
    Beside old (left ++ [b]) own (BlockHeap.allocate heap b).2 := by
  induction left generalizing own with
  | nil => exact ⟨_, Overlay.allocate h b⟩
  | cons c left ih =>
      obtain ⟨x, hx, hrest⟩ := h
      exact ⟨x, hx, ih hrest⟩

theorem exists_places (h : Beside old left own heap) : ∃ places : List ℕ, places.Nodup ∧
    (∀ a ∈ places, own a = none) ∧
    List.Forall₂ (fun a b => ¬ Live old a ∧ load heap a = some b) places left ∧
    ∀ a, a ∉ places → own a = none → load heap a = load old a := by
  induction left generalizing own with
  | nil =>
      refine ⟨[], .nil, fun a ha => absurd ha List.not_mem_nil, .nil, fun a _ ha => ?_⟩
      rw [Overlay.loads h, ha, Option.none_or]
  | cons b left ih =>
      obtain ⟨x, hx, hrest⟩ := h
      obtain ⟨places, hnodup, hfree, hplaces, hothers⟩ := ih hrest
      have hnew : ∀ a ∈ places, a ≠ x := by
        rintro a ha rfl
        have hnone := hfree a ha
        rw [Function.update_self] at hnone
        cases hnone
      have hdistinct : (x :: places).Nodup :=
        List.nodup_cons.mpr ⟨fun hx => hnew x hx rfl, hnodup⟩
      refine ⟨x :: places, hdistinct, ?_,
        .cons (hrest.place (Function.update_self _ _ _)) hplaces, fun a ha hown => ?_⟩
      · intro a ha
        rcases List.mem_cons.mp ha with rfl | hin
        · exact hx
        · have hnone := hfree a hin
          rwa [Function.update_of_ne (hnew a hin)] at hnone
      · rw [List.mem_cons, not_or] at ha
        exact hothers a ha.2 (by rw [Function.update_of_ne ha.1, hown])

/-- When all of one's own is given back the rest is left. -/
theorem leaves (h : Beside old left nothing heap) : Leaves old left heap := by
  obtain ⟨places, hnodup, -, hplaces, hothers⟩ := h.exists_places
  exact ⟨places, hnodup, hplaces, fun a ha => hothers a ha rfl⟩

end Beside

/-- The old blocks are not among those left. -/
theorem Leaves.load_old {left : List β} (h : Leaves old left heap) (ha : Live old a) :
    load heap a = load old a := by
  obtain ⟨places, -, hplaces, hothers⟩ := h
  exact hothers a fun hin => ((List.forall₂_and_left _ _).mp hplaces).1 a hin ha

end TaskLunev.HeapOverlay
