import Mathlib.Data.List.Dedup
import Mathlib.Data.List.Perm.Basic
import Mathlib.Order.Lattice
import Mathlib.Tactic.Common

/-!
# Rounds of a sorted list

A round walks over a list and takes every item whose key is above the key of
the last item it took. From a sorted list it takes one item of each key. Rounds
taken from what the earlier ones left exhaust the list, and the round with
index `k` has one item of every key that occurs more than `k` times.
-/
namespace TaskLunev.SortedRounds

variable {α K : Type*} [LinearOrder K]

/-- What a round above `m` takes, and what it leaves. -/
def splitRound (key : α → K) : K → List α → List α × List α
  | _, [] => ([], [])
  | m, x :: rest =>
      if m < key x then
        let (taken, left) := splitRound key (key x) rest
        (x :: taken, left)
      else
        let (taken, left) := splitRound key m rest
        (taken, x :: left)

/-- How often a key occurs. -/
def occurrences (key : α → K) (c : K) (items : List α) : ℕ := items.countP fun x => key x = c

/-- The rounds are the items, in rounds of strictly increasing keys, and round
`k` has exactly one item of each key with more than `k` items. -/
structure Rounds (key : α → K) (items : List α) (rounds : List (List α)) : Prop where
  perm : rounds.flatten.Perm items
  increasing : ∀ round ∈ rounds, round.Pairwise fun x y => key x < key y
  takes : ∀ k c, occurrences key c (rounds.getD k []) = if k < occurrences key c items then 1 else 0

variable {key : α → K} {m : K} {items : List α}

theorem splitRound_take {x : α} {rest : List α} (h : m < key x) :
    splitRound key m (x :: rest) =
      (x :: (splitRound key (key x) rest).1, (splitRound key (key x) rest).2) := by
  simp only [splitRound, if_pos h]

theorem splitRound_leave {x : α} {rest : List α} (h : ¬ m < key x) :
    splitRound key m (x :: rest) =
      ((splitRound key m rest).1, x :: (splitRound key m rest).2) := by
  simp only [splitRound, if_neg h]

theorem splitRound_perm (key : α → K) (m : K) (items : List α) :
    ((splitRound key m items).1 ++ (splitRound key m items).2).Perm items := by
  induction items generalizing m with
  | nil => exact .refl _
  | cons x rest ih =>
      by_cases h : m < key x
      · rw [splitRound_take h]
        exact (ih _).cons x
      · rw [splitRound_leave h]
        exact List.perm_middle.trans ((ih _).cons x)

theorem splitRound_left_sublist (key : α → K) (m : K) (items : List α) :
    (splitRound key m items).2.Sublist items := by
  induction items generalizing m with
  | nil => exact .slnil
  | cons x rest ih =>
      by_cases h : m < key x
      · rw [splitRound_take h]
        exact (ih _).cons x
      · rw [splitRound_leave h]
        exact (ih _).cons_cons x

theorem splitRound_above (key : α → K) (m : K) (items : List α) :
    ∀ x ∈ (splitRound key m items).1, m < key x := by
  induction items generalizing m with
  | nil => exact fun x hx => absurd hx List.not_mem_nil
  | cons x rest ih =>
      by_cases h : m < key x
      · rw [splitRound_take h]
        exact List.forall_mem_cons.mpr ⟨h, fun y hy => lt_trans h (ih _ y hy)⟩
      · rw [splitRound_leave h]
        exact ih m

theorem splitRound_increasing (key : α → K) (m : K) (items : List α) :
    (splitRound key m items).1.Pairwise fun x y => key x < key y := by
  induction items generalizing m with
  | nil => exact .nil
  | cons x rest ih =>
      by_cases h : m < key x
      · rw [splitRound_take h]
        exact .cons (splitRound_above key _ _) (ih _)
      · rw [splitRound_leave h]
        exact ih m

theorem occurrences_cons (c : K) (x : α) (rest : List α) :
    occurrences key c (x :: rest) = occurrences key c rest + if key x = c then 1 else 0 := by
  unfold occurrences
  rw [List.countP_cons]
  simp only [decide_eq_true_eq]

theorem occurrences_append (c : K) (xs ys : List α) :
    occurrences key c (xs ++ ys) = occurrences key c xs + occurrences key c ys :=
  List.countP_append

theorem occurrences_perm {xs ys : List α} (h : xs.Perm ys) (c : K) :
    occurrences key c xs = occurrences key c ys := h.countP_eq _

theorem occurrences_pos {c : K} : 0 < occurrences key c items ↔ ∃ x ∈ items, key x = c := by
  unfold occurrences
  rw [List.countP_pos_iff]
  simp only [decide_eq_true_eq]

/-- A round takes one item of each key above `m` that a sorted list has. -/
theorem splitRound_occurrences (hsorted : items.Pairwise fun x y => key x ≤ key y) (m c : K) :
    occurrences key c (splitRound key m items).1 =
      if m < c ∧ 0 < occurrences key c items then 1 else 0 := by
  induction items generalizing m with
  | nil => simp [splitRound, occurrences]
  | cons x rest ih =>
      obtain ⟨hfirst, hrest⟩ := List.pairwise_cons.mp hsorted
      -- The keys behind `x` are not below its own.
      have hbehind : 0 < occurrences key c rest → key x ≤ c := by
        intro hpos
        obtain ⟨y, hy, rfl⟩ := occurrences_pos.mp hpos
        exact hfirst y hy
      by_cases h : m < key x
      · rw [splitRound_take h, occurrences_cons, occurrences_cons, ih hrest]
        by_cases hx : key x = c
        · subst hx
          simp [h]
        · have hlt : 0 < occurrences key c rest → key x < c ∧ m < c := fun hpos =>
            have hxc := lt_of_le_of_ne (hbehind hpos) hx
            ⟨hxc, lt_trans h hxc⟩
          simp only [hx, if_false, Nat.add_zero]
          congr 1
          exact propext ⟨fun hc => ⟨(hlt hc.2).2, hc.2⟩, fun hc => ⟨(hlt hc.2).1, hc.2⟩⟩
      · rw [splitRound_leave h, ih hrest, occurrences_cons]
        by_cases hx : key x = c
        · subst hx
          simp [h]
        · simp only [hx, if_false, Nat.add_zero]

theorem Rounds.nil : Rounds key [] [] where
  perm := .refl _
  increasing := fun _ h => absurd h List.not_mem_nil
  takes := fun _ _ => rfl

theorem Rounds.of_perm {other : List α} {rounds : List (List α)} (h : Rounds key items rounds)
    (hperm : items.Perm other) : Rounds key other rounds where
  perm := h.perm.trans hperm
  increasing := h.increasing
  takes := fun k c => occurrences_perm hperm c ▸ h.takes k c

/-- With every key above `m` a round takes one item of each key there is. -/
theorem splitRound_taken_occurrences (hsorted : items.Pairwise fun x y => key x ≤ key y)
    (habove : ∀ x ∈ items, m < key x) (c : K) :
    occurrences key c (splitRound key m items).1 =
      if 0 < occurrences key c items then 1 else 0 := by
  rw [splitRound_occurrences hsorted]
  by_cases hpos : 0 < occurrences key c items
  · obtain ⟨x, hx, rfl⟩ := occurrences_pos.mp hpos
    rw [if_pos hpos, if_pos ⟨habove x hx, hpos⟩]
  · rw [if_neg hpos, if_neg fun h => hpos h.2]

theorem splitRound_left_occurrences (hsorted : items.Pairwise fun x y => key x ≤ key y)
    (habove : ∀ x ∈ items, m < key x) (c : K) :
    occurrences key c (splitRound key m items).2 = occurrences key c items - 1 := by
  have htotal : occurrences key c ((splitRound key m items).1 ++ (splitRound key m items).2) =
      occurrences key c items := occurrences_perm (splitRound_perm key m items) c
  rw [occurrences_append, splitRound_taken_occurrences hsorted habove] at htotal
  split_ifs at htotal <;> omega

/-- One round in front of the rounds of what it leaves. -/
theorem Rounds.cons (hsorted : items.Pairwise fun x y => key x ≤ key y)
    (habove : ∀ x ∈ items, m < key x) {rounds : List (List α)}
    (h : Rounds key (splitRound key m items).2 rounds) :
    Rounds key items ((splitRound key m items).1 :: rounds) where
  perm := (h.perm.append_left _).trans (splitRound_perm key m items)
  increasing := List.forall_mem_cons.mpr ⟨splitRound_increasing key m items, h.increasing⟩
  takes := by
    intro k c
    cases k with
    | zero => exact splitRound_taken_occurrences hsorted habove c
    | succ k =>
        rw [List.getD_cons_succ, h.takes, splitRound_left_occurrences hsorted habove]
        simp only [Nat.lt_sub_iff_add_lt]

/-- A round takes something. -/
theorem splitRound_taken_pos (hne : items ≠ []) (habove : ∀ x ∈ items, m < key x) :
    0 < (splitRound key m items).1.length := by
  cases items with
  | nil => exact absurd rfl hne
  | cons x rest =>
      rw [splitRound_take (habove x List.mem_cons_self)]
      exact Nat.succ_pos _

/-! ## The first round -/

/-- The first round has one item of each key. -/
theorem Rounds.length_first {rounds : List (List α)} (h : Rounds key items rounds) :
    (rounds.getD 0 []).length = (items.map key).dedup.length := by
  have hnodup : ((rounds.getD 0 []).map key).Nodup := by
    cases rounds with
    | nil => exact List.nodup_nil
    | cons first rest =>
        rw [List.getD_cons_zero, List.Nodup, List.pairwise_map]
        exact (h.increasing first List.mem_cons_self).imp fun hlt => hlt.ne
  have hmem : ∀ c, c ∈ (rounds.getD 0 []).map key ↔ c ∈ (items.map key).dedup := by
    intro c
    have htakes := h.takes 0 c
    rw [List.mem_dedup, List.mem_map, List.mem_map, ← occurrences_pos, ← occurrences_pos, htakes]
    split_ifs with hpos
    · exact iff_of_true Nat.one_pos hpos
    · exact iff_of_false (Nat.lt_irrefl 0) hpos
  rw [← List.length_map (f := key)]
  exact ((List.perm_ext_iff_of_nodup hnodup (List.nodup_dedup _)).mpr hmem).length_eq

/-- The rounds begin with items of different keys, as many as there are keys. -/
theorem Rounds.increasing_front {rounds : List (List α)} (h : Rounds key items rounds) :
    (rounds.flatten.take (items.map key).dedup.length).Pairwise fun x y => key x < key y := by
  rw [← h.length_first]
  cases rounds with
  | nil => exact .nil
  | cons first rest =>
      rw [List.getD_cons_zero, List.flatten_cons, List.take_left]
      exact h.increasing first List.mem_cons_self

end TaskLunev.SortedRounds
