import Mathlib.Algebra.BigOperators.Intervals
import Mathlib.Algebra.Order.BigOperators.Group.Finset
import TaskLunev.ChildChain
import TaskLunev.CompletedRuns

/-!
# All children print

However the parent and its children are scheduled, nobody waits for a message
that is not sent: the steps run out after four for each child and three more,
and then all numbers and the newline are printed and the queue is gone.
-/
namespace TaskLunev.ChildChainCompletion
open ChildChainModel ChildChain TransitionRuns CompletedRuns
open scoped BigOperators

/-! ## The steps left -/

/-- The fork of a child that is not born yet is counted with the child. -/
def childRank (number : ℕ) : ChildPc → ℕ
  | .unborn => if number ≠ 1 then 4 else 3
  | .receiving => 3
  | .printing => 2
  | .sending => 1
  | .returned => 0
  | .failed => 0

def parentRank (numberChilds : ℕ) : ParentPc → ℕ
  | .forking _ => if 0 < numberChilds then 4 else 3
  | .receiving => 3
  | .newline => 2
  | .removing => 1
  | .returned => 0
  | .failed => 0

def childrenRank (numberChilds : ℕ) (child : ℕ → ChildPc) : ℕ :=
  ∑ number ∈ Finset.Icc 1 numberChilds, childRank number (child number)

def rank (s : State) : ℕ := parentRank s.numberChilds s.parent + childrenRank s.numberChilds s.child

theorem childrenRank_update {n number : ℕ} (h : 1 ≤ number ∧ number ≤ n) (child : ℕ → ChildPc)
    (pc : ChildPc) :
    childrenRank n (Function.update child number pc) + childRank number (child number) =
      childrenRank n child + childRank number pc := by
  have hmem : number ∈ Finset.Icc 1 n := Finset.mem_Icc.mpr h
  have hrest : ∀ j ∈ (Finset.Icc 1 n).erase number,
      childRank j (Function.update child number pc j) = childRank j (child j) := fun j hj => by
    rw [Function.update_of_ne (Finset.ne_of_mem_erase hj)]
  rw [childrenRank, childrenRank, ← Finset.sum_erase_add _ _ hmem,
    ← Finset.sum_erase_add _ (fun j => childRank j (child j)) hmem, Finset.sum_congr rfl hrest,
    Function.update_self]
  omega

theorem childrenRank_start (n : ℕ) :
    childrenRank n (fun _ => .unborn) + (if 0 < n then 1 else 0) = 4 * n := by
  unfold childrenRank
  induction n with
  | zero => rfl
  | succ n ih =>
      rw [Finset.sum_Icc_succ_top (by omega)]
      cases n with
      | zero => rfl
      | succ n =>
          simp only [Nat.succ_pos, if_true] at ih ⊢
          simp only [childRank, ne_eq, Nat.add_eq_right, Nat.succ_ne_zero, not_false_eq_true,
            if_true]
          simp only [childRank, ne_eq] at ih
          omega

theorem rank_start (n : ℕ) : rank (.start n) = 4 * n + 3 := by
  have hchildren := childrenRank_start n
  by_cases hn : 0 < n
  · simp only [rank, State.start, parentRank, hn, if_true] at hchildren ⊢
    omega
  · simp only [rank, State.start, parentRank, hn, if_false] at hchildren ⊢
    omega

section
variable {s t : State} {k number : ℕ}

/-- A child's step is its own, be it a success or an error. -/
theorem childStep_spec (ht : s.childStep number = some t) :
    ∃ pc, t.child = Function.update s.child number pc ∧ t.parent = s.parent ∧
      t.numberChilds = s.numberChilds ∧ childRank number pc < childRank number (s.child number) ∧
      pc ≠ .receiving := by
  cases hc : s.child number with
  | unborn => simp [State.childStep, hc] at ht
  | receiving =>
      simp only [State.childStep, hc, State.msgrcv] at ht
      split at ht
      · cases ht
        exact ⟨.failed, rfl, rfl, rfl, by simp [childRank], by simp⟩
      · split_ifs at ht
        cases ht
        exact ⟨.printing, rfl, rfl, rfl, by simp [childRank], by simp⟩
  | printing =>
      simp only [State.childStep, hc] at ht
      cases ht
      exact ⟨.sending, rfl, rfl, rfl, by simp [childRank], by simp⟩
  | sending =>
      simp only [State.childStep, hc, State.msgsnd] at ht
      split at ht
      · cases ht
        exact ⟨.failed, rfl, rfl, rfl, by simp [childRank], by simp⟩
      · cases ht
        exact ⟨.returned, rfl, rfl, rfl, by simp [childRank], by simp⟩
  | returned => simp [State.childStep, hc] at ht
  | failed => simp [State.childStep, hc] at ht

/-- The parent forks, or it goes on alone. -/
theorem parentStep_spec (ht : s.parentStep = some t) :
    (∃ i, s.parent = .forking i ∧ i ≤ s.numberChilds ∧
      t = (s.setChild i (State.childEntry i)).setParent (.forking (i + 1))) ∨
    (t.child = s.child ∧ t.numberChilds = s.numberChilds ∧
      parentRank s.numberChilds t.parent < parentRank s.numberChilds s.parent) := by
  cases hp : s.parent with
  | forking i =>
      simp only [State.parentStep, hp] at ht
      split_ifs at ht with hi hn
      · cases ht
        exact .inl ⟨i, rfl, hi, rfl⟩
      · cases ht
        exact .inr ⟨rfl, rfl, by simp [State.setParent, parentRank, hn]⟩
      · cases ht
        exact .inr ⟨rfl, rfl, by simp [State.setParent, parentRank, hn]⟩
  | receiving =>
      simp only [State.parentStep, hp, State.msgrcv] at ht
      split at ht
      · cases ht
        exact .inr ⟨rfl, rfl, by simp [State.print, State.setParent, parentRank]⟩
      · split_ifs at ht
        cases ht
        exact .inr ⟨rfl, rfl, by simp [State.setParent, parentRank]⟩
  | newline =>
      simp only [State.parentStep, hp] at ht
      cases ht
      exact .inr ⟨rfl, rfl, by simp [State.print, State.setParent, parentRank]⟩
  | removing =>
      simp only [State.parentStep, hp, State.msgctl] at ht
      split at ht
      · cases ht
        exact .inr ⟨rfl, rfl, by simp [State.print, State.setParent, parentRank]⟩
      · cases ht
        exact .inr ⟨rfl, rfl, by simp [State.setParent, parentRank]⟩
  | returned => simp [State.parentStep, hp] at ht
  | failed => simp [State.parentStep, hp] at ht

theorem childRank_entry (i : ℕ) : childRank i (State.childEntry i) + 1 = childRank i .unborn := by
  unfold State.childEntry
  by_cases hi : i = 1
  · simp [hi, childRank]
  · simp [hi, childRank]

/-- A child that can step is among those forked. -/
theorem child_bounds (h : Chain s k) (ht : s.childStep number = some t) :
    1 ≤ number ∧ number ≤ s.numberChilds := by
  have hunborn : s.child number ≠ .unborn := fun hc => by simp [State.childStep, hc] at ht
  have hreturned : s.child number ≠ .returned := fun hc => by simp [State.childStep, hc] at ht
  obtain ⟨hlt, hle, -⟩ := h.working hunborn hreturned
  exact ⟨by omega, hle⟩

theorem rank_childStep (h : Chain s k) (ht : s.childStep number = some t) : rank t < rank s := by
  have hbounds := child_bounds h ht
  obtain ⟨pc, hchild, hparent, hnumber, hlt, -⟩ := childStep_spec ht
  have hsum := childrenRank_update hbounds s.child pc
  rw [rank, rank, hparent, hnumber, hchild]
  omega

theorem rank_parentStep (h : Chain s k) (ht : s.parentStep = some t) : rank t < rank s := by
  rcases parentStep_spec ht with ⟨i, hp, hi, rfl⟩ | ⟨hchild, hnumber, hlt⟩
  · have hlo := (h.forking i hp).1
    have hsum := childrenRank_update ⟨hlo, hi⟩ s.child (State.childEntry i)
    have hentry := childRank_entry i
    rw [(h.lt_forking hp).2] at hsum
    have hsame : parentRank s.numberChilds (.forking (i + 1)) =
        parentRank s.numberChilds s.parent := by rw [hp]; rfl
    change parentRank s.numberChilds (.forking (i + 1)) +
      childrenRank s.numberChilds (Function.update s.child i (State.childEntry i)) < _
    rw [hsame, rank]
    omega
  · rw [rank, rank, hnumber, hchild]
    omega

/-! ## Nobody waits for ever -/

/-- The first child waits for nobody. -/
def FirstPrints (s : State) : Prop := s.child 1 ≠ .receiving

theorem firstPrints_next {e : Event} (h : FirstPrints s) (ht : Step s e t) : FirstPrints t := by
  unfold FirstPrints at h ⊢
  cases e with
  | parent =>
      rcases parentStep_spec ht with ⟨i, -, -, rfl⟩ | ⟨hchild, -, -⟩
      · change Function.update s.child i (State.childEntry i) 1 ≠ _
        by_cases hi : 1 = i
        · subst hi
          rw [Function.update_self]
          simp [State.childEntry]
        · rwa [Function.update_of_ne hi]
      · rwa [hchild]
  | child number =>
      obtain ⟨pc, hchild, -, -, -, hpc⟩ := childStep_spec ht
      rw [hchild]
      by_cases hn : 1 = number
      · subst hn
        rwa [Function.update_self]
      · rwa [Function.update_of_ne hn]

/-- Everything printed and everybody gone. -/
structure Finished (numberChilds : ℕ) (s : State) : Prop where
  out : s.out = numbers numberChilds ++ [.newline]
  queue : s.queue = none
  parent : s.parent = .returned
  child : ∀ number, 1 ≤ number → number ≤ numberChilds → s.child number = .returned

/-- The one in turn finds what it waits for. -/
theorem finished_of_chain (h : Chain s k) (hfirst : FirstPrints s)
    (hrest : AtRest Step (fun _ => true) s) : Finished s.numberChilds s := by
  have hstuck : ∀ e, s.next e = none := fun _ => AtRest.eq_none (f := State.next) hrest rfl
  have hparent : s.parentStep = none := hstuck .parent
  have hchild : s.childStep (k + 1) = none := hstuck (.child (k + 1))
  cases h.turn with
  | waiting hearly hnext hqueue hout =>
      exfalso
      cases hp : s.parent with
      | forking i =>
          simp only [State.parentStep, hp] at hparent
          split_ifs at hparent
      | receiving =>
          by_cases hk : k = s.numberChilds
          · have hmem : s.numberChilds ∈ message k :=
              mem_message.mpr ⟨hk.symm, by have := h.positive; omega⟩
            simp [State.parentStep, hp, State.msgrcv, hqueue, hmem] at hparent
          · have hforked : forked s = s.numberChilds := by rw [forked, hp]
            have hle := h.bound
            rcases hnext with hnext | hnext
            · exact (h.unborn (k + 1)).mp hnext ⟨by omega, by omega⟩
            · by_cases hzero : k = 0
              · subst hzero
                exact hfirst hnext
              · have hmem : k ∈ message k := mem_message.mpr ⟨rfl, hzero⟩
                simp [State.childStep, hnext, State.msgrcv, hqueue, hmem] at hchild
      | newline => simp [hp, Early] at hearly
      | removing => simp [hp, Early] at hearly
      | returned => simp [hp, Early] at hearly
      | failed => simp [hp, Early] at hearly
  | printing _ hnext _ _ => simp [State.childStep, hnext] at hchild
  | sending _ hnext hqueue _ => simp [State.childStep, hnext, State.msgsnd, hqueue] at hchild
  | newline hp _ _ _ => simp [State.parentStep, hp] at hparent
  | removing hp _ hqueue _ => simp [State.parentStep, hp, State.msgctl, hqueue] at hparent
  | returned hp hk hqueue hout =>
      subst hk
      exact ⟨hout, hqueue, hp, h.before⟩

/-! ## Without children -/

/-- The states of a parent that forks nobody. -/
inductive Childless (s : State) : Prop
  | forking : s.parent = .forking 1 → s.queue = some [] → s.out = [] → Childless s
  | newline : s.parent = .newline → s.queue = some [] → s.out = [] → Childless s
  | removing : s.parent = .removing → s.queue = some [] → s.out = [.newline] → Childless s
  | returned : s.parent = .returned → s.queue = none → s.out = [.newline] → Childless s

structure Alone (s : State) : Prop where
  number : s.numberChilds = 0
  unborn : ∀ number, s.child number = .unborn
  stage : Childless s

theorem Alone.childStep (h : Alone s) : s.childStep number = none := by
  simp [State.childStep, h.unborn number]

theorem Alone.next {e : Event} (h : Alone s) (ht : Step s e t) : Alone t := by
  cases e with
  | child number => exact absurd (h.childStep.symm.trans ht) (by simp)
  | parent =>
      have hstep : s.parentStep = some t := ht
      cases h.stage with
      | forking hp hqueue hout =>
          simp [State.parentStep, hp, h.number] at hstep
          cases hstep
          exact ⟨h.number, h.unborn, .newline rfl hqueue hout⟩
      | newline hp hqueue hout =>
          simp only [State.parentStep, hp] at hstep
          cases hstep
          have hline : ((s.print .newline).setParent .removing).out = [.newline] := by
            simp [State.print, State.setParent, hout]
          exact ⟨h.number, h.unborn, .removing rfl hqueue hline⟩
      | removing hp hqueue hout =>
          simp only [State.parentStep, hp, State.msgctl, hqueue] at hstep
          cases hstep
          exact ⟨h.number, h.unborn, .returned rfl rfl hout⟩
      | returned hp _ _ => simp [State.parentStep, hp] at hstep

theorem Alone.rank_lt {e : Event} (h : Alone s) (ht : Step s e t) : rank t < rank s := by
  cases e with
  | child number => exact absurd (h.childStep.symm.trans ht) (by simp)
  | parent =>
      rcases parentStep_spec ht with ⟨i, hp, hi, -⟩ | ⟨hchild, hnumber, hlt⟩
      · have hzero := h.number
        cases h.stage with
        | forking hp' _ _ =>
            have : i = 1 := by simpa [hp'] using hp.symm
            omega
        | newline hp' _ _ => simp [hp'] at hp
        | removing hp' _ _ => simp [hp'] at hp
        | returned hp' _ _ => simp [hp'] at hp
      · rw [rank, rank, hnumber, hchild]
        omega

theorem Alone.finished (h : Alone s) (hrest : AtRest Step (fun _ => true) s) : Finished 0 s := by
  have hparent : s.parentStep = none :=
    AtRest.eq_none (f := State.next) (e := .parent) hrest rfl
  cases h.stage with
  | forking hp _ _ => simp [State.parentStep, hp, h.number] at hparent
  | newline hp _ _ => simp [State.parentStep, hp] at hparent
  | removing hp hqueue _ => simp [State.parentStep, hp, State.msgctl, hqueue] at hparent
  | returned hp hqueue hout => exact ⟨hout, hqueue, hp, fun number hlo hhi => by omega⟩

end

/-! ## Every order of the steps -/

/-- The states of a run with this many children. -/
def Chained (numberChilds : ℕ) (s : State) : Prop :=
  s.numberChilds = numberChilds ∧ (Alone s ∨ (∃ k, Chain s k) ∧ FirstPrints s)

theorem numberChilds_next {s t : State} {e : Event} (ht : Step s e t) :
    t.numberChilds = s.numberChilds := by
  cases e with
  | parent =>
      rcases parentStep_spec ht with ⟨i, -, -, rfl⟩ | ⟨-, hnumber, -⟩
      · rfl
      · exact hnumber
  | child number => exact (childStep_spec ht).choose_spec.2.2.1

theorem chained_start (n : ℕ) : Chained n (.start n) := by
  refine ⟨rfl, ?_⟩
  by_cases hn : n = 0
  · subst hn
    exact .inl ⟨rfl, fun _ => rfl, .forking rfl rfl rfl⟩
  · exact .inr ⟨⟨0, chain_start (by omega)⟩, by simp [FirstPrints, State.start]⟩

theorem ranked (n : ℕ) : Ranked Step (fun _ => true) (Chained n) rank (Finished n) where
  keeps s e t h ht := by
    refine ⟨(numberChilds_next ht).trans h.1, ?_⟩
    rcases h.2 with ha | ⟨⟨k, hk⟩, hfirst⟩
    · exact .inl (ha.next ht)
    · refine .inr ⟨?_, firstPrints_next hfirst ht⟩
      rcases hk.next ht with hk | hk
      · exact ⟨k, hk⟩
      · exact ⟨k + 1, hk⟩
  lowers s e t h ht := by
    rcases h.2 with ha | ⟨⟨k, hk⟩, -⟩
    · exact ha.rank_lt ht
    · cases e with
      | parent => exact rank_parentStep hk ht
      | child number => exact rank_childStep hk ht
  goal s h hrest := by
    rcases h with ⟨rfl, ha | ⟨⟨k, hk⟩, hfirst⟩⟩
    · have hzero := ha.number
      rw [hzero]
      exact ha.finished hrest
    · exact finished_of_chain hk hfirst hrest

/-- Every order of the steps is at most four steps a child and three more long,
and ends with all numbers printed in order and everybody gone. -/
theorem children_complete (numberChilds : ℕ) :
    Completes Step (fun _ => true) (State.start numberChilds) (4 * numberChilds + 3)
      (Finished numberChilds) :=
  rank_start numberChilds ▸ (ranked numberChilds).completes (chained_start numberChilds)

end TaskLunev.ChildChainCompletion
