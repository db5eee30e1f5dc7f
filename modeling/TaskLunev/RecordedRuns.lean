import Mathlib.Tactic.Common

/-!
# Computations that record what they touch

A recorded computation gives a value or stops with a reason, and keeps a list of
the items it touched on the way, in order. Without the record it is an ordinary
computation, and a condition on all recorded items follows the program text.
-/
namespace TaskLunev.RecordedRuns

structure Recorded (ι ε α : Type) where
  log : List ι
  result : Except ε α

namespace Recorded

variable {ι ε α β : Type}

def touch (items : List ι) : Recorded ι ε Unit := ⟨items, .ok ()⟩

def stop (e : ε) : Recorded ι ε α := ⟨[], .error e⟩

/-- A computation that touches nothing. -/
def lift (x : Except ε α) : Recorded ι ε α := ⟨[], x⟩

protected def bind (x : Recorded ι ε α) (f : α → Recorded ι ε β) : Recorded ι ε β :=
  match x.result with
  | .error e => ⟨x.log, .error e⟩
  | .ok a => ⟨x.log ++ (f a).log, (f a).result⟩

instance : Monad (Recorded ι ε) where
  pure a := ⟨[], .ok a⟩
  bind := Recorded.bind

/-! ## Without the record -/

variable {x y : Recorded ι ε α} {f : α → Recorded ι ε β}

@[simp] theorem result_pure (a : α) : (pure a : Recorded ι ε α).result = pure a := rfl

@[simp] theorem result_touch (items : List ι) : (touch items : Recorded ι ε Unit).result = pure () :=
  rfl

@[simp] theorem result_stop (e : ε) : (stop e : Recorded ι ε α).result = .error e := rfl

@[simp] theorem result_lift (x : Except ε α) : (lift x : Recorded ι ε α).result = x := rfl

@[simp] theorem result_bind : (x >>= f).result = x.result >>= fun a => (f a).result := by
  change (Recorded.bind x f).result = _
  unfold Recorded.bind
  cases x.result with
  | ok a => rfl
  | error e => rfl

@[simp] theorem result_ite {c : Prop} [Decidable c] :
    (if c then x else y).result = if c then x.result else y.result := apply_ite ..

/-! ## The record -/

theorem log_touch_bind (items : List ι) (f : Unit → Recorded ι ε β) :
    (touch items >>= f).log = items ++ (f ()).log := rfl

theorem log_lift_ok (a : α) (f : α → Recorded ι ε β) : (lift (.ok a) >>= f).log = (f a).log :=
  List.nil_append _

theorem log_lift_error (e : ε) (f : α → Recorded ι ε β) : (lift (.error e) >>= f).log = [] := rfl

/-- Everything touched satisfies `P`. -/
structure All (P : ι → Prop) (x : Recorded ι ε α) : Prop where
  forall_log : ∀ item ∈ x.log, P item

variable {P : ι → Prop}

theorem all_pure (a : α) : (pure a : Recorded ι ε α).All P := ⟨List.forall_mem_nil _⟩

theorem all_stop (e : ε) : (stop e : Recorded ι ε α).All P := ⟨List.forall_mem_nil _⟩

theorem all_lift (x : Except ε α) : (lift x : Recorded ι ε α).All P := ⟨List.forall_mem_nil _⟩

theorem All.bind (hx : x.All P) (hf : ∀ a, (f a).All P) : (x >>= f).All P := by
  constructor
  change ∀ item ∈ (Recorded.bind x f).log, P item
  unfold Recorded.bind
  cases x.result with
  | ok a => exact List.forall_mem_append.mpr ⟨hx.forall_log, (hf a).forall_log⟩
  | error e => exact hx.forall_log

/-- What is touched first is touched. -/
theorem All.of_bind (h : (x >>= f).All P) : x.All P := by
  have hlog : ∀ item ∈ (Recorded.bind x f).log, P item := h.forall_log
  unfold Recorded.bind at hlog
  constructor
  cases hx : x.result with
  | ok a =>
      rw [hx] at hlog
      exact (List.forall_mem_append.mp hlog).1
  | error e =>
      rw [hx] at hlog
      exact hlog

theorem all_touch_bind {items : List ι} {f : Unit → Recorded ι ε β} :
    (touch items >>= f).All P ↔ (∀ item ∈ items, P item) ∧ (f ()).All P := by
  constructor
  · intro h
    obtain ⟨hitems, hf⟩ := List.forall_mem_append.mp h.forall_log
    exact ⟨hitems, ⟨hf⟩⟩
  · rintro ⟨hitems, hf⟩
    exact ⟨List.forall_mem_append.mpr ⟨hitems, hf.forall_log⟩⟩

theorem all_lift_bind {y : Except ε α} {f : α → Recorded ι ε β} :
    (lift y >>= f).All P ↔ ∀ a, y = .ok a → (f a).All P := by
  cases y with
  | ok a =>
      constructor
      · intro h b hb
        cases hb
        exact ⟨h.forall_log⟩
      · intro h
        exact ⟨(h a rfl).forall_log⟩
  | error e => exact iff_of_true (all_stop e) nofun

theorem All.touch {items : List ι} {f : Unit → Recorded ι ε β} (hitems : ∀ item ∈ items, P item)
    (hf : (f ()).All P) : (touch items >>= f).All P := all_touch_bind.mpr ⟨hitems, hf⟩

theorem All.ite {c : Prop} [Decidable c] (hx : c → x.All P) (hy : ¬ c → y.All P) :
    (if c then x else y).All P := by
  split_ifs with hc
  · exact hx hc
  · exact hy hc

end Recorded

end TaskLunev.RecordedRuns
