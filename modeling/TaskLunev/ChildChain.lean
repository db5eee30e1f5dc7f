import TaskLunev.ChildChainModel

/-!
# The turn of a child

One child has the turn at any time. It takes the turn from the queue, where the
child before it left a message, and leaves one for the next child; the last
message is for the parent. Whoever is not in turn finds no message for it.
-/
namespace TaskLunev.ChildChain
open ChildChainModel TransitionRuns

/-- The queue that `k` children leave behind. -/
def message (k : ℕ) : List ℕ := if k = 0 then [] else [k]

theorem mem_message {type k : ℕ} : type ∈ message k ↔ type = k ∧ k ≠ 0 := by
  unfold message
  by_cases hk : k = 0
  · simp [hk]
  · simp [hk]

theorem erase_message (k : ℕ) : (message k).erase k = [] := by
  unfold message
  by_cases hk : k = 0
  · simp [hk]
  · simp [hk]

theorem numbers_succ (k : ℕ) : numbers (k + 1) = numbers k ++ [.number (k + 1)] := by
  simp [numbers, List.range_succ]

/-- The parent has not taken the last message yet. -/
def Early : ParentPc → Prop
  | .forking _ => True
  | .receiving => True
  | _ => False

/-- How many children the parent has forked. -/
def forked (s : State) : ℕ :=
  match s.parent with
  | .forking i => i - 1
  | _ => s.numberChilds

/-- Whose turn it is after `k` children, and how far it is done. -/
inductive Turn (s : State) (k : ℕ) : Prop
  | waiting : Early s.parent → s.child (k + 1) = .unborn ∨ s.child (k + 1) = .receiving →
      s.queue = some (message k) → s.out = numbers k → Turn s k
  | printing : Early s.parent → s.child (k + 1) = .printing → s.queue = some [] →
      s.out = numbers k → Turn s k
  | sending : Early s.parent → s.child (k + 1) = .sending → s.queue = some [] →
      s.out = numbers (k + 1) → Turn s k
  | newline : s.parent = .newline → k = s.numberChilds → s.queue = some [] →
      s.out = numbers k → Turn s k
  | removing : s.parent = .removing → k = s.numberChilds → s.queue = some [] →
      s.out = numbers k ++ [.newline] → Turn s k
  | returned : s.parent = .returned → k = s.numberChilds → s.queue = none →
      s.out = numbers k ++ [.newline] → Turn s k

/-- The first `k` children have returned, the one after them may be at work,
and the ones behind it wait or are still to be forked. -/
structure Chain (s : State) (k : ℕ) : Prop where
  positive : 1 ≤ s.numberChilds
  bound : k ≤ s.numberChilds
  unborn : ∀ j, s.child j = .unborn ↔ ¬ (1 ≤ j ∧ j ≤ forked s)
  forking : ∀ i, s.parent = .forking i → 1 ≤ i ∧ i ≤ s.numberChilds + 1
  before : ∀ j, 1 ≤ j → j ≤ k → s.child j = .returned
  after : ∀ j, k + 1 < j → s.child j = .unborn ∨ s.child j = .receiving
  turn : Turn s k

theorem chain_start {numberChilds : ℕ} (hpos : 1 ≤ numberChilds) :
    Chain (State.start numberChilds) 0 where
  positive := hpos
  bound := Nat.zero_le _
  unborn j := by simp [State.start, forked]; omega
  forking i hi := by
    cases hi
    exact ⟨Nat.le_refl 1, by omega⟩
  before j hlo hhi := by omega
  after j _ := .inl rfl
  turn := .waiting trivial (.inl rfl) rfl rfl

section
variable {s t : State} {k : ℕ}

theorem Chain.forked_le (h : Chain s k) : forked s ≤ s.numberChilds := by
  unfold forked
  cases hp : s.parent with
  | forking i =>
      have := h.forking i hp
      simp only
      omega
  | _ => exact Nat.le_refl _

/-- A child that is not born or returned stands behind the `k` that returned,
and has work to do only if it is the next one. -/
theorem Chain.working (h : Chain s k) {j : ℕ} (hunborn : s.child j ≠ .unborn)
    (hreturned : s.child j ≠ .returned) :
    k < j ∧ j ≤ s.numberChilds ∧ (s.child j ≠ .receiving → j = k + 1) := by
  have hborn : 1 ≤ j ∧ j ≤ forked s := not_not.mp (mt (h.unborn j).mpr hunborn)
  have hlt : k < j := by
    by_contra hle
    exact hreturned (h.before j hborn.1 (by omega))
  refine ⟨hlt, Nat.le_trans hborn.2 h.forked_le, fun hreceiving => ?_⟩
  by_contra hne
  rcases h.after j (by omega) with hj | hj
  · exact hunborn hj
  · exact hreceiving hj

/-- While children are left the parent waits for the last message, and the next
child is in turn. -/
theorem Chain.inTurn (h : Chain s k) (hlt : k < s.numberChilds) :
    Early s.parent ∧
      ((s.child (k + 1) = .unborn ∨ s.child (k + 1) = .receiving) ∧
          s.queue = some (message k) ∧ s.out = numbers k ∨
        s.child (k + 1) = .printing ∧ s.queue = some [] ∧ s.out = numbers k ∨
        s.child (k + 1) = .sending ∧ s.queue = some [] ∧ s.out = numbers (k + 1)) := by
  cases h.turn with
  | waiting hearly hnext hqueue hout => exact ⟨hearly, .inl ⟨hnext, hqueue, hout⟩⟩
  | printing hearly hnext hqueue hout => exact ⟨hearly, .inr (.inl ⟨hnext, hqueue, hout⟩)⟩
  | sending hearly hnext hqueue hout => exact ⟨hearly, .inr (.inr ⟨hnext, hqueue, hout⟩)⟩
  | newline _ hk _ _ => omega
  | removing _ hk _ _ => omega
  | returned _ hk _ _ => omega

/-- A move of the child in turn leaves the same children unborn. -/
theorem Chain.unborn_set (h : Chain s k) {pc : ChildPc} (hborn : s.child (k + 1) ≠ .unborn)
    (hpc : pc ≠ .unborn) (ht : t.child = Function.update s.child (k + 1) pc)
    (hparent : t.parent = s.parent) (hnumber : t.numberChilds = s.numberChilds) (j : ℕ) :
    t.child j = .unborn ↔ ¬ (1 ≤ j ∧ j ≤ forked t) := by
  have hforked : forked t = forked s := by rw [forked, forked, hparent, hnumber]
  rw [hforked, ← h.unborn j, ht]
  by_cases hj : j = k + 1
  · subst hj
    simp [hpc, hborn]
  · rw [Function.update_of_ne hj]

/-- What `Chain` asks of the children, after the child in turn has moved. -/
theorem Chain.setChild (h : Chain s k) (pc : ChildPc) (hborn : s.child (k + 1) ≠ .unborn)
    (hpc : pc ≠ .unborn) (ht : t.child = Function.update s.child (k + 1) pc)
    (hparent : t.parent = s.parent) (hnumber : t.numberChilds = s.numberChilds)
    (hturn : Turn t k) : Chain t k where
  positive := hnumber ▸ h.positive
  bound := hnumber ▸ h.bound
  unborn := h.unborn_set hborn hpc ht hparent hnumber
  forking i hi := hnumber ▸ h.forking i (hparent ▸ hi)
  before j hlo hhi := by
    rw [ht, Function.update_of_ne (by omega)]
    exact h.before j hlo hhi
  after j hj := by
    rw [ht, Function.update_of_ne (by omega)]
    exact h.after j hj
  turn := hturn

/-- The child in turn has sent its message, and the next one is in turn. -/
theorem Chain.pass (h : Chain s k) (hlt : k < s.numberChilds)
    (hborn : s.child (k + 1) ≠ .unborn)
    (ht : t.child = Function.update s.child (k + 1) .returned) (hparent : t.parent = s.parent)
    (hnumber : t.numberChilds = s.numberChilds) (hearly : Early s.parent)
    (hqueue : t.queue = some (message (k + 1))) (hout : t.out = numbers (k + 1)) :
    Chain t (k + 1) where
  positive := hnumber ▸ h.positive
  bound := hnumber ▸ hlt
  unborn := h.unborn_set hborn (by simp) ht hparent hnumber
  forking i hi := hnumber ▸ h.forking i (hparent ▸ hi)
  before j hlo hhi := by
    rw [ht]
    by_cases hj : j = k + 1
    · subst hj
      rw [Function.update_self]
    · rw [Function.update_of_ne hj]
      exact h.before j hlo (by omega)
  after j hj := by
    rw [ht, Function.update_of_ne (by omega)]
    exact h.after j (by omega)
  turn := by
    refine .waiting (hparent ▸ hearly) ?_ hqueue hout
    rw [ht, Function.update_of_ne (by omega)]
    exact h.after (k + 2) (by omega)

/-- Only the message of the child in front is in the queue. -/
theorem Chain.receives (h : Chain s k) {j : ℕ} (hc : s.child j = .receiving)
    (ht : s.childStep j = some t) : Chain t k := by
  obtain ⟨hlt, hle, -⟩ := h.working (hc.trans_ne (by simp)) (hc.trans_ne (by simp))
  rcases h.inTurn (by omega) with ⟨hearly, ⟨-, hqueue, hout⟩ | ⟨-, hqueue, -⟩ | ⟨-, hqueue, -⟩⟩
  · simp only [State.childStep, hc, State.msgrcv, hqueue] at ht
    split_ifs at ht with hmem
    obtain ⟨hj, hk⟩ := mem_message.mp hmem
    obtain rfl : j = k + 1 := by omega
    cases ht
    refine h.setChild .printing (by simp [hc]) (by simp) rfl rfl rfl ?_
    refine .printing hearly (by simp [State.setChild]) ?_ hout
    change some ((message k).erase (k + 1 - 1)) = some []
    rw [Nat.add_sub_cancel, erase_message]
  · simp [State.childStep, hc, State.msgrcv, hqueue] at ht
  · simp [State.childStep, hc, State.msgrcv, hqueue] at ht

theorem Chain.prints (h : Chain s k) {j : ℕ} (hc : s.child j = .printing)
    (ht : s.childStep j = some t) : Chain t k := by
  obtain ⟨-, hle, hturn⟩ := h.working (hc.trans_ne (by simp)) (hc.trans_ne (by simp))
  obtain rfl : j = k + 1 := hturn (hc.trans_ne (by simp))
  rcases h.inTurn (by omega) with ⟨hearly, ⟨hnext, -⟩ | ⟨-, hqueue, hout⟩ | ⟨hnext, -⟩⟩
  · simp [hc] at hnext
  · simp only [State.childStep, hc] at ht
    cases ht
    refine h.setChild .sending (by simp [hc]) (by simp) rfl rfl rfl ?_
    refine .sending hearly (by simp [State.setChild]) hqueue ?_
    change s.out ++ [.number (k + 1)] = numbers (k + 1)
    rw [hout, numbers_succ]
  · simp [hc] at hnext

theorem Chain.sends (h : Chain s k) {j : ℕ} (hc : s.child j = .sending)
    (ht : s.childStep j = some t) : Chain t (k + 1) := by
  obtain ⟨-, hle, hturn⟩ := h.working (hc.trans_ne (by simp)) (hc.trans_ne (by simp))
  obtain rfl : j = k + 1 := hturn (hc.trans_ne (by simp))
  rcases h.inTurn (by omega) with ⟨hearly, ⟨hnext, -⟩ | ⟨hnext, -⟩ | ⟨-, hqueue, hout⟩⟩
  · simp [hc] at hnext
  · simp [hc] at hnext
  · simp only [State.childStep, hc, State.msgsnd, hqueue] at ht
    cases ht
    exact h.pass (by omega) (by simp [hc]) rfl rfl rfl hearly rfl hout

/-! ## The parent -/

theorem childEntry_ne (number : ℕ) : State.childEntry number ≠ .unborn := by
  unfold State.childEntry
  split_ifs <;> simp

/-- A new child stands behind those that returned. -/
theorem Chain.lt_forking (h : Chain s k) {i : ℕ} (hp : s.parent = .forking i) :
    k < i ∧ s.child i = .unborn := by
  have hlo := (h.forking i hp).1
  have hforked : forked s = i - 1 := by rw [forked, hp]
  have hnew : s.child i = .unborn := (h.unborn i).mpr (by omega)
  refine ⟨?_, hnew⟩
  by_contra hle
  have hdone := h.before i hlo (by omega)
  simp [hnew] at hdone

/-- A new child is in turn at once if it is the first one. -/
theorem Chain.forks_turn (h : Chain s k) {i : ℕ} (hp : s.parent = .forking i) :
    Turn ((s.setChild i (State.childEntry i)).setParent (.forking (i + 1))) k := by
  have hnew := (h.lt_forking hp).2
  have hkeep : k + 1 ≠ i →
      Function.update s.child i (State.childEntry i) (k + 1) = s.child (k + 1) :=
    fun hne => Function.update_of_ne hne _ _
  cases h.turn with
  | waiting _ hnext hqueue hout =>
      by_cases hki : k + 1 = i
      · subst hki
        have hself : Function.update s.child (k + 1) (State.childEntry (k + 1)) (k + 1) =
            State.childEntry (k + 1) := Function.update_self ..
        by_cases hk : k = 0
        · subst hk
          exact .printing trivial hself hqueue hout
        · exact .waiting trivial (.inr (hself.trans (if_pos (by omega)))) hqueue hout
      · rw [← hkeep hki] at hnext
        exact .waiting trivial hnext hqueue hout
  | printing _ hnext hqueue hout =>
      have hki : k + 1 ≠ i := fun hki => by simp [← hki, hnext] at hnew
      exact .printing trivial ((hkeep hki).trans hnext) hqueue hout
  | sending _ hnext hqueue hout =>
      have hki : k + 1 ≠ i := fun hki => by simp [← hki, hnext] at hnew
      exact .sending trivial ((hkeep hki).trans hnext) hqueue hout
  | newline hpc _ _ _ => simp [hp] at hpc
  | removing hpc _ _ _ => simp [hp] at hpc
  | returned hpc _ _ _ => simp [hp] at hpc

/-- The parent forks the next child. -/
theorem Chain.forks (h : Chain s k) {i : ℕ} (hp : s.parent = .forking i)
    (hi : i ≤ s.numberChilds) :
    Chain ((s.setChild i (State.childEntry i)).setParent (.forking (i + 1))) k := by
  have hforked : forked s = i - 1 := by rw [forked, hp]
  have hlo := (h.forking i hp).1
  have hlt := (h.lt_forking hp).1
  constructor
  case positive => exact h.positive
  case bound => exact h.bound
  case unborn =>
    intro j
    change Function.update s.child i (State.childEntry i) j = .unborn ↔ ¬ (1 ≤ j ∧ j ≤ i + 1 - 1)
    by_cases hj : j = i
    · subst hj
      rw [Function.update_self]
      exact iff_of_false (childEntry_ne j) (by omega)
    · rw [Function.update_of_ne hj, h.unborn j, hforked]
      omega
  case forking =>
    intro j hj
    cases hj
    exact ⟨by omega, Nat.add_le_add_right hi 1⟩
  case before =>
    intro j hjlo hjhi
    change Function.update s.child i (State.childEntry i) j = .returned
    rw [Function.update_of_ne (by omega)]
    exact h.before j hjlo hjhi
  case after =>
    intro j hj
    change Function.update s.child i (State.childEntry i) j = .unborn ∨
      Function.update s.child i (State.childEntry i) j = .receiving
    by_cases hji : j = i
    · subst hji
      rw [Function.update_self]
      exact .inr (if_pos (by omega))
    · rw [Function.update_of_ne hji]
      exact h.after j hj
  case turn => exact h.forks_turn hp

/-- A step of the parent behind its forks. -/
theorem Chain.setParent (h : Chain s k) (pc : ParentPc) (hforks : forked s = s.numberChilds)
    (hpc : ∀ i, pc ≠ .forking i) (hparent : t.parent = pc) (hchild : t.child = s.child)
    (hnumber : t.numberChilds = s.numberChilds) (hturn : Turn t k) : Chain t k where
  positive := hnumber ▸ h.positive
  bound := hnumber ▸ h.bound
  unborn j := by
    have hforked : forked t = forked s := by
      rw [hforks, ← hnumber, forked, hparent]
      cases pc with
      | forking i => exact absurd rfl (hpc i)
      | _ => rfl
    rw [hforked, hchild]
    exact h.unborn j
  forking i hi := absurd (hparent.symm.trans hi) (hpc i)
  before j hlo hhi := hchild ▸ h.before j hlo hhi
  after j hj := hchild ▸ h.after j hj
  turn := hturn

theorem Chain.forked_all (h : Chain s k) {i : ℕ} (hp : s.parent = .forking i)
    (hi : ¬ i ≤ s.numberChilds) : Chain (s.setParent .receiving) k := by
  have hforks : forked s = s.numberChilds := by
    have := (h.forking i hp).2
    rw [forked, hp]
    simp only
    omega
  refine h.setParent .receiving hforks (by simp) rfl rfl rfl ?_
  cases h.turn with
  | waiting _ hnext hqueue hout => exact .waiting trivial hnext hqueue hout
  | printing _ hnext hqueue hout => exact .printing trivial hnext hqueue hout
  | sending _ hnext hqueue hout => exact .sending trivial hnext hqueue hout
  | newline hpc _ _ _ => simp [hp] at hpc
  | removing hpc _ _ _ => simp [hp] at hpc
  | returned hpc _ _ _ => simp [hp] at hpc

/-- The parent finds its message when the last child has sent it. -/
theorem Chain.parentReceives (h : Chain s k) (hp : s.parent = .receiving)
    (ht : s.parentStep = some t) : Chain t k := by
  have hforks : forked s = s.numberChilds := by rw [forked, hp]
  cases h.turn with
  | waiting _ hnext hqueue hout =>
      simp only [State.parentStep, hp, State.msgrcv, hqueue] at ht
      split_ifs at ht with hmem
      obtain ⟨hk, -⟩ := mem_message.mp hmem
      cases ht
      refine h.setParent .newline hforks (by simp) rfl rfl rfl ?_
      refine .newline rfl hk.symm ?_ hout
      change some ((message k).erase s.numberChilds) = some []
      rw [hk, erase_message]
  | printing _ _ hqueue _ => simp [State.parentStep, hp, State.msgrcv, hqueue] at ht
  | sending _ _ hqueue _ => simp [State.parentStep, hp, State.msgrcv, hqueue] at ht
  | newline hpc _ _ _ => simp [hp] at hpc
  | removing hpc _ _ _ => simp [hp] at hpc
  | returned hpc _ _ _ => simp [hp] at hpc

theorem Chain.parentPrints (h : Chain s k) (hp : s.parent = .newline)
    (ht : s.parentStep = some t) : Chain t k := by
  have hforks : forked s = s.numberChilds := by rw [forked, hp]
  simp only [State.parentStep, hp] at ht
  cases ht
  refine h.setParent .removing hforks (by simp) rfl rfl rfl ?_
  cases h.turn with
  | newline _ hk hqueue hout =>
      refine .removing rfl hk hqueue ?_
      change s.out ++ [.newline] = numbers k ++ [.newline]
      rw [hout]
  | waiting hearly _ _ _ => simp [hp, Early] at hearly
  | printing hearly _ _ _ => simp [hp, Early] at hearly
  | sending hearly _ _ _ => simp [hp, Early] at hearly
  | removing hpc _ _ _ => simp [hp] at hpc
  | returned hpc _ _ _ => simp [hp] at hpc

/-- The queue is there when the parent removes it. -/
theorem Chain.parentRemoves (h : Chain s k) (hp : s.parent = .removing)
    (ht : s.parentStep = some t) : Chain t k := by
  have hforks : forked s = s.numberChilds := by rw [forked, hp]
  cases h.turn with
  | removing _ hk hqueue hout =>
      simp only [State.parentStep, hp, State.msgctl, hqueue] at ht
      cases ht
      exact h.setParent .returned hforks (by simp) rfl rfl rfl (.returned rfl hk rfl hout)
  | waiting hearly _ _ _ => simp [hp, Early] at hearly
  | printing hearly _ _ _ => simp [hp, Early] at hearly
  | sending hearly _ _ _ => simp [hp, Early] at hearly
  | newline hpc _ _ _ => simp [hp] at hpc
  | returned hpc _ _ _ => simp [hp] at hpc

theorem Chain.parentStep (h : Chain s k) (ht : s.parentStep = some t) : Chain t k := by
  cases hp : s.parent with
  | forking i =>
      have hpos : 0 < s.numberChilds := h.positive
      simp only [State.parentStep, hp, if_pos hpos] at ht
      split_ifs at ht with hi
      · cases ht
        exact h.forks hp hi
      · cases ht
        exact h.forked_all hp hi
  | receiving => exact h.parentReceives hp ht
  | newline => exact h.parentPrints hp ht
  | removing => exact h.parentRemoves hp ht
  | returned => simp [State.parentStep, hp] at ht
  | failed => simp [State.parentStep, hp] at ht

/-! ## Runs -/

/-- The turn stays where it is or goes to the next child. -/
theorem Chain.next {e : Event} (h : Chain s k) (ht : Step s e t) : Chain t k ∨ Chain t (k + 1) := by
  cases e with
  | parent => exact .inl (h.parentStep ht)
  | child j =>
      have hstep : s.childStep j = some t := ht
      cases hc : s.child j with
      | receiving => exact .inl (h.receives hc hstep)
      | printing => exact .inl (h.prints hc hstep)
      | sending => exact .inr (h.sends hc hstep)
      | unborn => simp [State.childStep, hc] at hstep
      | returned => simp [State.childStep, hc] at hstep
      | failed => simp [State.childStep, hc] at hstep

theorem exists_chain {numberChilds : ℕ} (hpos : 1 ≤ numberChilds) {trace : List (Event × State)}
    (h : Path Step (State.start numberChilds) trace) :
    ∃ k, Chain (final (State.start numberChilds) trace) k := by
  have hstep : ∀ s e t, (∃ k, Chain s k) → Step s e t → ∃ k, Chain t k := by
    rintro s e t ⟨k, hk⟩ hst
    rcases hk.next hst with ht | ht
    · exact ⟨k, ht⟩
    · exact ⟨k + 1, ht⟩
  exact h.final_invariant hstep ⟨0, chain_start hpos⟩

/-- A child at work is not in the state of a failure. -/
theorem Chain.child_ne (h : Chain s k) (j : ℕ) : s.child j ≠ .failed := by
  intro hc
  obtain ⟨-, hle, hturn⟩ := h.working (hc.trans_ne (by simp)) (hc.trans_ne (by simp))
  obtain rfl : j = k + 1 := hturn (hc.trans_ne (by simp))
  rcases (h.inTurn (by omega)).2 with ⟨hnext, -⟩ | ⟨hnext, -⟩ | ⟨hnext, -⟩ <;> simp [hc] at hnext

theorem Chain.parent_ne (h : Chain s k) : s.parent ≠ .failed := by
  intro hp
  cases h.turn with
  | waiting hearly _ _ _ => simp [hp, Early] at hearly
  | printing hearly _ _ _ => simp [hp, Early] at hearly
  | sending hearly _ _ _ => simp [hp, Early] at hearly
  | newline hpc _ _ _ => simp [hp] at hpc
  | removing hpc _ _ _ => simp [hp] at hpc
  | returned hpc _ _ _ => simp [hp] at hpc

theorem Chain.safe (h : Chain s k) : Safe s where
  child := h.child_ne
  parent := h.parent_ne
  removal hqueue j hlo hhi := by
    cases h.turn with
    | returned _ hk _ _ => exact h.before j hlo (by omega)
    | waiting _ _ hsome _ => simp [hqueue] at hsome
    | printing _ _ hsome _ => simp [hqueue] at hsome
    | sending _ _ hsome _ => simp [hqueue] at hsome
    | newline _ _ hsome _ => simp [hqueue] at hsome
    | removing _ _ hsome _ => simp [hqueue] at hsome
  out := by
    cases h.turn with
    | waiting _ _ _ hout => exact ⟨k, h.bound, .inl hout⟩
    | printing _ _ _ hout => exact ⟨k, h.bound, .inl hout⟩
    | sending _ hnext _ hout =>
        have hle := (h.working (hnext.trans_ne (by simp)) (hnext.trans_ne (by simp))).2.1
        exact ⟨k + 1, hle, .inl hout⟩
    | newline _ _ _ hout => exact ⟨k, h.bound, .inl hout⟩
    | removing _ hk _ hout => exact ⟨k, h.bound, .inr ⟨hk, hout⟩⟩
    | returned _ hk _ hout => exact ⟨k, h.bound, .inr ⟨hk, hout⟩⟩

end

/-- In every state of every run. -/
theorem prints_in_order {numberChilds : ℕ} (hpos : 1 ≤ numberChilds)
    {trace : List (Event × State)} (h : Path Step (State.start numberChilds) trace) :
    Safe (final (State.start numberChilds) trace) := by
  obtain ⟨k, hk⟩ := exists_chain hpos h
  exact hk.safe

/-- Two children, from the first fork to the removal of the queue. -/
theorem prints_in_order_two :
    Safe (final (State.start 2) (walk State.next (State.start 2)
      [.parent, .parent, .parent, .child 1, .child 1, .child 2, .child 2, .child 2, .parent,
        .parent, .parent])) :=
  prints_in_order (by decide) (path_walk State.next (State.start 2) _)

end TaskLunev.ChildChain
