import Mathlib.Data.List.Nodup
import TaskLunev.ExceptRules
import TaskLunev.ResourceOwnership
import TaskLunev.WrapperModel

/-!
# Who destroys an array

Without move construction every living object is the only owner of a live
array, so each array is destroyed once, by the object that holds it last. A
move construction brings an unset handle into the program. It goes from object
to object with every swap, no operation removes it, and the destructor of the
object that has it in the end reads through it.
-/
namespace TaskLunev.WrapperOwnership
open BinArrayModel ExceptRules ResourceOwnership TransitionRuns WrapperModel

/-! ## Arrays in the heap -/

/-- The handles that lead to an array. -/
def live (heap : Heap) : Set Handle := {h | ∃ arr, deref heap h = .ok arr}

section
variable {heap : Heap} {h : Handle} {a : ℕ}

theorem mem_live_array : .array a ∈ live heap ↔ ∃ arr, heap[a]? = some (some arr) := by
  simp only [live, Set.mem_ofPred_eq, deref]
  split <;> simp_all

theorem exists_array_of_live (hl : h ∈ live heap) : ∃ a < heap.length, h = .array a := by
  cases h with
  | unset => exact absurd hl.choose_spec (by simp [deref])
  | null => exact absurd hl.choose_spec (by simp [deref])
  | array a =>
      obtain ⟨arr, harr⟩ := mem_live_array.mp hl
      exact ⟨a, (List.getElem?_eq_some_iff.mp harr).1, rfl⟩

theorem not_live_fresh : .array heap.length ∉ live heap := by
  rw [mem_live_array]
  simp

theorem live_append (arr : BinArray) :
    live (heap ++ [some arr]) = insert (.array heap.length) (live heap) := by
  ext h
  rw [Set.mem_insert_iff]
  cases h with
  | unset => simp [live, deref]
  | null => simp [live, deref]
  | array a =>
      rw [mem_live_array, mem_live_array, Handle.array.injEq]
      by_cases ha : a < heap.length
      · rw [List.getElem?_append_left ha]
        simp [ha.ne]
      · have hout : heap[a]? = none := List.getElem?_eq_none (by omega)
        rw [List.getElem?_append_right (by omega), List.getElem?_singleton, hout]
        by_cases he : a = heap.length
        · simp [he]
        · simp [he, show a - heap.length ≠ 0 by omega]

theorem live_freeHandle (hl : h ∈ live heap) : live (freeHandle heap h) = live heap \ {h} := by
  obtain ⟨a, ha, rfl⟩ := exists_array_of_live hl
  ext g
  rw [Set.mem_sdiff, Set.mem_singleton_iff]
  cases g with
  | unset => simp [live, deref]
  | null => simp [live, deref]
  | array b =>
      rw [mem_live_array, mem_live_array, Handle.array.injEq, freeHandle, List.getElem?_set]
      by_cases hab : a = b
      · simp [hab]
      · simp [hab, Ne.symm hab]

@[simp] theorem length_freeHandle : (freeHandle heap h).length = heap.length := by
  cases h <;> simp [freeHandle]

end

/-! ## What an operation does to the objects -/

section
variable {w w' : World} {x y : Name} {grant : ℕ → Bool}

theorem initialise_eq {made : Ptr} (h : w.initialise x made = some w') :
    ∃ arr, w' = { w with
      heap := w.heap ++ [some arr]
      arr := Function.update w.arr x (some (.array w.heap.length)) } := by
  cases made with
  | none => exact absurd h (by simp [World.initialise, allocate])
  | some arr => exact ⟨arr, (Option.some.inj h).symm⟩

theorem cloneHandle_live (grant : ℕ → Bool) {heap : Heap} {h : Handle} (hl : h ∈ live heap) :
    ∃ clone, cloneHandle grant heap h = .ok clone := by
  obtain ⟨a, -, rfl⟩ := exists_array_of_live hl
  obtain ⟨arr, harr⟩ := hl
  obtain ⟨clone, hclone⟩ := baGetClone_defined grant (some arr)
  refine ⟨clone, bind_eq_ok.mpr ⟨arr, harr, ?_⟩⟩
  simp only [hclone]
  rfl

theorem copyConstruct_eq {r : Option World} (h : w.copyConstruct grant x y = .ok r) :
    ∃ made, r = w.initialise x made := by
  obtain ⟨made, -, hr⟩ := bind_eq_ok.mp h
  exact ⟨made, (Except.ok.inj hr).symm⟩

theorem destroy_eq (h : w.destroy x = .ok w') :
    w.handle x ∈ live w.heap ∧ w' = {
      heap := freeHandle w.heap (w.handle x)
      arr := Function.update w.arr x none
      destroyed := w.destroyed ++ [w.handle x] } := by
  obtain ⟨_, hfree, hw'⟩ := bind_eq_ok.mp h
  obtain ⟨arr, harr, hreply⟩ := bind_eq_ok.mp hfree
  obtain rfl := Except.ok.inj hreply
  exact ⟨⟨arr, harr⟩, (Except.ok.inj hw').symm⟩

theorem destroy_live (hl : w.handle x ∈ live w.heap) : ∃ w', w.destroy x = .ok w' := by
  obtain ⟨arr, harr⟩ := hl
  simp only [World.destroy, baDestroy, harr]
  exact ⟨_, rfl⟩

theorem swap_arr : (w.swap x y).arr = w.arr ∘ Equiv.swap y x := by
  rw [Equiv.comp_swap_eq_update]
  rfl

end

/-! ## One owner for every array -/

/-- The objects own the live arrays, and an address whose array is gone was given
to `baDestroy` once. -/
structure Sole (w : World) : Prop where
  owns : Owns w.arr (live w.heap)
  destroyed_iff : ∀ h, h ∈ w.destroyed ↔ ∃ a < w.heap.length, h = .array a ∧ h ∉ live w.heap
  nodup : w.destroyed.Nodup

namespace Sole

variable {w w' : World} {x y : Name}

theorem empty : Sole World.empty where
  owns := by
    have hnone : live World.empty.heap = ∅ := by
      ext h
      cases h <;> simp [live, deref, World.empty]
    rw [hnone]
    exact Owns.empty
  destroyed_iff h := by simp [World.empty]
  nodup := List.nodup_nil

theorem handle_live (hs : Sole w) (hx : w.arr x ≠ none) :
    w.arr x = some (w.handle x) ∧ w.handle x ∈ live w.heap := by
  obtain ⟨h, hh⟩ := Option.ne_none_iff_exists'.mp hx
  have hhandle : w.handle x = h := by rw [World.handle, hh, Option.getD_some]
  rw [hhandle]
  exact ⟨hh, hs.owns.live_of_held x h hh⟩

theorem initialise (hs : Sole w) (hx : w.arr x = none) {made : Ptr}
    (h : w.initialise x made = some w') : Sole w' := by
  obtain ⟨arr, rfl⟩ := initialise_eq h
  constructor
  · change Owns (Function.update w.arr x _) (live (w.heap ++ [some arr]))
    rw [live_append]
    exact hs.owns.acquire hx not_live_fresh
  · -- the fresh address is live, and no other address changes
    intro h
    simp only [hs.destroyed_iff, live_append, Set.mem_insert_iff, not_or, List.length_append,
      List.length_singleton]
    constructor
    · intro ⟨a, ha, he, hl⟩
      refine ⟨a, by omega, he, ?_, hl⟩
      rw [he, Handle.array.injEq]
      omega
    · intro ⟨a, ha, he, hfresh, hl⟩
      rw [he, Handle.array.injEq] at hfresh
      exact ⟨a, by omega, he, hl⟩
  · exact hs.nodup

theorem copyConstruct (hs : Sole w) (grant : ℕ → Bool) (hx : w.arr x = none) (hy : w.arr y ≠ none) :
    ∃ r, w.copyConstruct grant x y = .ok r ∧ ∀ w' ∈ r, Sole w' := by
  obtain ⟨made, hmade⟩ := cloneHandle_live grant (hs.handle_live hy).2
  refine ⟨w.initialise x made, ?_, fun w' hw' => hs.initialise hx hw'⟩
  rw [World.copyConstruct, hmade]
  rfl

theorem swap (hs : Sole w) : Sole (w.swap x y) where
  owns := by
    rw [swap_arr]
    exact hs.owns.perm _
  destroyed_iff := hs.destroyed_iff
  nodup := hs.nodup

theorem destroy (hs : Sole w) (hx : w.arr x ≠ none) :
    ∃ w', w.destroy x = .ok w' ∧ Sole w' ∧ w'.arr = Function.update w.arr x none := by
  obtain ⟨hheld, hl⟩ := hs.handle_live hx
  obtain ⟨w', hw'⟩ := destroy_live hl
  obtain ⟨-, rfl⟩ := destroy_eq hw'
  refine ⟨_, hw', ?_, rfl⟩
  have hlive := live_freeHandle hl
  constructor
  · change Owns (Function.update w.arr x none) (live (freeHandle w.heap (w.handle x)))
    rw [hlive]
    exact hs.owns.release hheld
  · intro h
    simp only [List.mem_append, List.mem_singleton, hs.destroyed_iff, length_freeHandle, hlive,
      Set.mem_sdiff, Set.mem_singleton_iff, not_and, not_not]
    constructor
    · intro hcase
      cases hcase with
      | inl hold =>
          obtain ⟨a, ha, he, hgone⟩ := hold
          exact ⟨a, ha, he, fun hstill => (hgone hstill).elim⟩
      | inr he =>
          obtain ⟨a, ha, ha'⟩ := exists_array_of_live hl
          exact ⟨a, ha, he.trans ha', fun _ => he⟩
    · intro ⟨a, ha, he, hgone⟩
      by_cases hstill : h ∈ live w.heap
      · exact .inr (hgone hstill)
      · exact .inl ⟨a, ha, he, hstill⟩
  · -- a live handle was not destroyed before
    have hnew : w.handle x ∉ w.destroyed := by
      rw [hs.destroyed_iff]
      intro ⟨_, _, _, hgone⟩
      exact hgone hl
    exact List.perm_append_comm.nodup_iff.mpr (List.nodup_cons.mpr ⟨hnew, hs.nodup⟩)

/-- The parameter takes the assigned object's array along when it goes. -/
theorem assignParam (hs : Sole w) (hx : w.arr x ≠ none) :
    ∃ w', w.assignParam x = .ok w' ∧ Sole w' ∧ w'.arr .param = none := by
  have hparam : (w.swap x .param).arr .param ≠ none := by
    rwa [swap_arr, Function.comp_apply, Equiv.swap_apply_left]
  obtain ⟨w', hw', hsole, harr⟩ := hs.swap.destroy hparam
  exact ⟨w', hw', hsole, by rw [harr, Function.update_self]⟩

end Sole

theorem initialise_of_ne {w w' : World} {x y : Name} {made : Ptr}
    (h : w.initialise x made = some w') (hne : y ≠ x) : w'.arr y = w.arr y := by
  obtain ⟨arr, rfl⟩ := initialise_eq h
  exact Function.update_of_ne hne _ _

/-! ## Programs without move construction -/

def Orderly (s : State) : Prop := ∃ w, s = .ok w ∧ Sole w ∧ w.arr .param = none

theorem step_orderly {s t : State} {op : Op} (hs : Orderly s) (hmove : ¬ op.MoveConstructs)
    (hstep : Step s op t) : Orderly t := by
  obtain ⟨w, rfl, hsole, hparam⟩ := hs
  obtain ⟨w₀, he, hperm, rfl⟩ := hstep
  obtain rfl := Except.ok.inj he
  cases op with
  | construct x size grant =>
      cases hnew : w.construct grant size (.obj x) with
      | none => exact ⟨w, by rw [Op.run, hnew]; rfl, hsole, hparam⟩
      | some w' =>
          refine ⟨w', by rw [Op.run, hnew]; rfl, hsole.initialise hperm hnew, ?_⟩
          rw [initialise_of_ne hnew (by simp), hparam]
  | copyConstruct x other grant =>
      obtain ⟨r, hr, hall⟩ := hsole.copyConstruct grant hperm.1 hperm.2
      cases r with
      | none => exact ⟨w, by simp only [Op.run, hr]; rfl, hsole, hparam⟩
      | some w' =>
          obtain ⟨made, hmade⟩ := copyConstruct_eq hr
          refine ⟨w', by simp only [Op.run, hr]; rfl, hall w' rfl, ?_⟩
          rw [initialise_of_ne hmade.symm (by simp), hparam]
  | moveConstruct x other => exact (hmove trivial).elim
  | swap x other | assignRvalue x other =>
      refine ⟨_, rfl, hsole.swap, ?_⟩
      rw [swap_arr, Function.comp_apply, Equiv.swap_apply_of_ne_of_ne (by simp) (by simp), hparam]
  | assign x other grant =>
      obtain ⟨r, hr, hall⟩ := hsole.copyConstruct grant hparam hperm.2
      cases r with
      | none => exact ⟨w, by simp only [Op.run, hr]; rfl, hsole, hparam⟩
      | some w' =>
          obtain ⟨made, hmade⟩ := copyConstruct_eq hr
          have hx : w'.arr (.obj x) ≠ none := by
            rw [initialise_of_ne hmade.symm (by simp)]
            exact hperm.1
          obtain ⟨w'', hw'', hsole'', hparam''⟩ := (hall w' rfl).assignParam hx
          exact ⟨w'', by simp only [Op.run, hr]; exact hw'', hsole'', hparam''⟩
  | assignMoved x other => exact (hmove trivial).elim
  | getNumBits x =>
      obtain ⟨arr, harr⟩ := (hsole.handle_live hperm).2
      exact ⟨w, by simp only [Op.run, harr]; rfl, hsole, hparam⟩
  | destroy x =>
      obtain ⟨w', hw', hsole', harr⟩ := hsole.destroy hperm
      refine ⟨w', hw', hsole', ?_⟩
      rw [harr, Function.update_of_ne (by simp), hparam]

theorem sound_of_orderly {s : State} (hs : Orderly s) (hend : Complete s) : Sound s := by
  obtain ⟨w, rfl, hsole, -⟩ := hs
  have hnone : live w.heap = ∅ := hsole.owns.live_eq_empty (hend w rfl)
  refine ⟨w, rfl, fun a ha => ?_, fun h hh => ?_⟩
  · apply List.count_eq_one_of_mem hsole.nodup
    rw [hsole.destroyed_iff, hnone]
    exact ⟨a, ha, rfl, Set.notMem_empty _⟩
  · obtain ⟨a, ha, he, -⟩ := (hsole.destroyed_iff h).mp hh
    exact ⟨a, ha, he⟩

/-! ## The unset handle -/

/-- Some object has an unset handle, unless the program has faulted. -/
def HoldsUnset (s : State) : Prop := ∀ w, s = .ok w → ∃ x, w.arr (.obj x) = some .unset

theorem not_live_unset {heap : Heap} : .unset ∉ live heap := fun h => by
  obtain ⟨_, _, he⟩ := exists_array_of_live h
  cases he

section
variable {w w' : World} {x y z : Name}

/-- A destructor that gets through leaves the other objects alone, and it had
something to destroy. -/
theorem destroy_keeps_unset (h : w.destroy x = .ok w') (hz : w.arr z = some .unset) :
    z ≠ x ∧ w'.arr z = some .unset := by
  obtain ⟨hl, rfl⟩ := destroy_eq h
  have hne : z ≠ x := by
    intro he
    rw [World.handle, ← he, hz, Option.getD_some] at hl
    exact not_live_unset hl
  exact ⟨hne, by rw [← hz]; exact Function.update_of_ne hne _ _⟩

theorem assignParam_keeps_unset (h : w.assignParam x = .ok w') (hz : z ≠ .param)
    (hunset : w.arr z = some .unset) : w'.arr z = some .unset := by
  by_cases hzx : z = x
  · -- the parameter now has the unset handle, and its destructor faults
    have hparam : (w.swap x .param).arr .param = some .unset := by
      rw [swap_arr, Function.comp_apply, Equiv.swap_apply_left, ← hzx, hunset]
    exact absurd rfl (destroy_keeps_unset h hparam).1
  · have hkept : (w.swap x .param).arr z = some .unset := by
      rw [swap_arr, Function.comp_apply, Equiv.swap_apply_of_ne_of_ne hz hzx, hunset]
    exact (destroy_keeps_unset h hkept).2

theorem moveConstruct_unset : (w.moveConstruct x y).arr y = some .unset := by
  rw [World.moveConstruct, swap_arr, Function.comp_apply, Equiv.swap_apply_left]
  exact Function.update_self _ _ _

theorem swap_keeps_unset {x y z : ℕ} (hz : w.arr (.obj z) = some .unset) :
    ∃ u, (w.swap (.obj x) (.obj y)).arr (.obj u) = some .unset := by
  rw [swap_arr]
  by_cases hzx : z = x
  · exact ⟨y, by rw [Function.comp_apply, Equiv.swap_apply_left, ← hzx, hz]⟩
  · by_cases hzy : z = y
    · exact ⟨x, by rw [Function.comp_apply, Equiv.swap_apply_right, ← hzy, hz]⟩
    · refine ⟨z, ?_⟩
      rw [Function.comp_apply, Equiv.swap_apply_of_ne_of_ne (by simpa) (by simpa), hz]

end

theorem step_move {s t : State} {op : Op} (hmove : op.MoveConstructs) (hstep : Step s op t) :
    HoldsUnset t := by
  obtain ⟨w, rfl, -, rfl⟩ := hstep
  intro w' hw'
  cases op with
  | moveConstruct x other =>
      obtain rfl := Except.ok.inj hw'
      exact ⟨other, moveConstruct_unset⟩
  | assignMoved x other =>
      exact ⟨other, assignParam_keeps_unset hw' (by simp) moveConstruct_unset⟩
  | _ => exact hmove.elim

/-- A constructor makes an object that was not there before, or none. -/
theorem initialise_keeps_unset {w : World} {x z : Name} {made : Ptr} (hx : w.arr x = none)
    (hz : w.arr z = some .unset) : ((w.initialise x made).getD w).arr z = some .unset := by
  have hne : z ≠ x := by
    intro he
    rw [he, hx] at hz
    cases hz
  cases hmade : w.initialise x made with
  | none => exact hz
  | some w' => rw [Option.getD_some, initialise_of_ne hmade hne, hz]

theorem step_keeps_unset {s t : State} {op : Op} (hs : HoldsUnset s) (hstep : Step s op t) :
    HoldsUnset t := by
  by_cases hmove : op.MoveConstructs
  · exact step_move hmove hstep
  obtain ⟨w, rfl, hperm, rfl⟩ := hstep
  obtain ⟨z, hz⟩ := hs w rfl
  intro w' hw'
  cases op with
  | construct x size grant =>
      obtain rfl := Except.ok.inj hw'
      exact ⟨z, initialise_keeps_unset hperm hz⟩
  | copyConstruct x other grant =>
      obtain ⟨r, hr, he⟩ := bind_eq_ok.mp hw'
      obtain ⟨made, rfl⟩ := copyConstruct_eq hr
      obtain rfl := Except.ok.inj he
      exact ⟨z, initialise_keeps_unset hperm.1 hz⟩
  | swap x other | assignRvalue x other =>
      obtain rfl := Except.ok.inj hw'
      exact swap_keeps_unset hz
  | assign x other grant =>
      obtain ⟨r, hr, he⟩ := bind_eq_ok.mp hw'
      obtain ⟨made, hmade⟩ := copyConstruct_eq hr
      cases r with
      | none =>
          obtain rfl := Except.ok.inj he
          exact ⟨z, hz⟩
      | some w₁ =>
          have hz₁ : w₁.arr (.obj z) = some .unset := by
            rw [initialise_of_ne hmade.symm (by simp), hz]
          exact ⟨z, assignParam_keeps_unset he (by simp) hz₁⟩
  | getNumBits x =>
      obtain ⟨arr, -, he⟩ := bind_eq_ok.mp hw'
      obtain rfl := Except.ok.inj he
      exact ⟨z, hz⟩
  | destroy x => exact ⟨z, (destroy_keeps_unset hw' hz).2⟩
  | moveConstruct x other | assignMoved x other => exact (hmove trivial).elim

theorem run_unset {s : State} {trace : List (Op × State)} (h : Path Step s trace)
    (hmove : ∃ p ∈ trace, p.1.MoveConstructs) : HoldsUnset (final s trace) := by
  induction h with
  | nil => simp at hmove
  | @cons s t op rest hstep hrest ih =>
      by_cases hop : op.MoveConstructs
      · have ht : HoldsUnset t := step_move hop hstep
        have hfinal := hrest.final_invariant (fun _ _ _ hs hst => step_keeps_unset hs hst) ht
        exact hfinal
      · simp only [List.exists_mem_cons_iff, hop, false_or] at hmove
        exact ih hmove

/-! ## Whole programs -/

/-- A program run to its end, or to a fault, destroys every array once and only
through handles that lead to one exactly when it move-constructs no object. -/
theorem program_sound_iff {trace : List (Op × State)} (hrun : Path Step start trace)
    (hend : Complete (final start trace)) :
    Sound (final start trace) ↔ ∀ p ∈ trace, ¬ p.1.MoveConstructs := by
  constructor
  · intro ⟨w, hw, _⟩ p hp hmove
    obtain ⟨x, hx⟩ := run_unset hrun ⟨p, hp, hmove⟩ w hw
    rw [hend w hw] at hx
    cases hx
  · intro hmoves
    have hstart : Orderly start := ⟨World.empty, rfl, .empty, rfl⟩
    have hrest : ∀ p ∈ trace, Orderly p.2 :=
      hrun.invariant_of_moves (fun _ _ _ hs hmove hst => step_orderly hs hmove hst) hstart
        ((forall_moves_iff (P := fun op : Op => ¬ op.MoveConstructs)).mpr hmoves)
    exact sound_of_orderly (final_of_forall hstart hrest) hend

/-- Two objects, one copied from the other and assigned to. -/
theorem program_sound_copied :
    let trace := execute start [.construct 0 5 fun _ => true, .copyConstruct 1 0 fun _ => true,
      .assign 0 1 fun _ => true, .destroy 1, .destroy 0]
    trace.length = 5 ∧ (Sound (final start trace) ↔ ∀ p ∈ trace, ¬ p.1.MoveConstructs) := by
  refine ⟨rfl, program_sound_iff (path_execute _ _) ?_⟩
  intro w hw x
  obtain rfl := Except.ok.inj hw
  match x with
  | .param => rfl
  | .obj 0 => rfl
  | .obj 1 => rfl
  | .obj (_ + 2) => rfl

/-- An object is moved from and then destroyed. -/
theorem moved_from_destroyed :
    let trace := execute start
      [.construct 0 5 fun _ => true, .moveConstruct 1 0, .destroy 1, .destroy 0]
    Path Step start trace ∧ trace.length = 4 ∧ final start trace = .error .unset ∧
      ¬ Sound (final start trace) := by
  refine ⟨path_execute _ _, rfl, rfl, ?_⟩
  intro ⟨w, hw, _⟩
  cases hw

end TaskLunev.WrapperOwnership
