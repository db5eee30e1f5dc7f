import Mathlib.Data.List.Basic
import Mathlib.Data.Nat.Notation
import Mathlib.Tactic.Ring

/-!
# Words as streams of bits

A word sent bit by bit, the least significant bit first: the sender shifts it
to the right, the receiver sets the bits one after the other. A list of words
is the concatenation of their bits, and prefixes of the two kinds correspond.
-/
namespace TaskLunev.BitStream

variable {w : ℕ}

/-- The first bits of a word. -/
def lowBits (x : BitVec w) (n : ℕ) : List Bool := (List.range n).map x.getLsbD

@[simp] theorem length_lowBits (x : BitVec w) (n : ℕ) : (lowBits x n).length = n := by
  simp [lowBits]

@[simp] theorem lowBits_zero (x : BitVec w) : lowBits x 0 = [] := rfl

theorem lowBits_congr {x y : BitVec w} {n : ℕ} (h : ∀ j < n, x.getLsbD j = y.getLsbD j) :
    lowBits x n = lowBits y n :=
  List.map_congr_left fun j hj => h j (List.mem_range.mp hj)

theorem lowBits_succ (x : BitVec w) (n : ℕ) : lowBits x (n + 1) = lowBits x n ++ [x.getLsbD n] := by
  simp [lowBits, List.range_succ]

/-- What is left after the lowest bit is what the shifted word begins with. -/
theorem lowBits_shift (x : BitVec w) {n : ℕ} (hn : n < w) :
    lowBits x (n + 1) = x.getLsbD 0 :: lowBits (x.sshiftRight 1) n := by
  rw [lowBits, List.range_succ_eq_map, List.map_cons, List.map_map]
  congr 1
  refine List.map_congr_left fun j hj => ?_
  have hj' := List.mem_range.mp hj
  rw [Function.comp_apply, BitVec.getLsbD_sshiftRight]
  have hw : ¬ w ≤ j := by omega
  have hlt : j + 1 < w := by omega
  simp [hw, hlt, Nat.add_comm 1 j]

/-- A bit set above all others is the next one of the stream. -/
theorem lowBits_or (x : BitVec w) (b : Bool) {n : ℕ} (hn : n < w)
    (hx : ∀ j, n ≤ j → x.getLsbD j = false) :
    lowBits (x ||| ((if b then 1#w else 0#w) <<< n)) (n + 1) = lowBits x n ++ [b] := by
  rw [lowBits_succ]
  congr 1
  · refine lowBits_congr fun j hj => ?_
    cases b <;> simp [BitVec.getLsbD_or, hj]
  · have hzero : x[n] = false := hx n (Nat.le_refl n)
    cases b <;> simp [hzero, hn]

theorem getLsbD_or_above (x : BitVec w) (b : Bool) {n : ℕ}
    (hx : ∀ j, n ≤ j → x.getLsbD j = false) (j : ℕ) (hj : n + 1 ≤ j) :
    (x ||| ((if b then 1#w else 0#w) <<< n)).getLsbD j = false := by
  have hzero := hx j (by omega)
  have hne : j - n ≠ 0 := by omega
  cases b <;> simp [BitVec.getLsbD_or, hzero, BitVec.getLsbD_one, hne]

theorem lowBits_injective {x y : BitVec w} (h : lowBits x w = lowBits y w) : x = y := by
  apply BitVec.eq_of_getLsbD_eq
  intro j hj
  exact List.map_inj_left.mp h j (List.mem_range.mpr hj)

/-! ## Lists of words -/

def bits (xs : List (BitVec w)) : List Bool := xs.flatMap fun x => lowBits x w

@[simp] theorem bits_nil : bits ([] : List (BitVec w)) = [] := rfl

@[simp] theorem bits_cons (x : BitVec w) (xs : List (BitVec w)) :
    bits (x :: xs) = lowBits x w ++ bits xs := rfl

@[simp] theorem bits_append (xs ys : List (BitVec w)) : bits (xs ++ ys) = bits xs ++ bits ys :=
  List.flatMap_append

theorem length_bits (xs : List (BitVec w)) : (bits xs).length = w * xs.length := by
  induction xs with
  | nil => simp
  | cons x xs ih => rw [bits_cons, List.length_append, length_lowBits, ih, List.length_cons]; ring

theorem prefix_of_bits (hw : 0 < w) {xs ys : List (BitVec w)} (h : bits xs <+: bits ys) :
    xs <+: ys := by
  induction xs generalizing ys with
  | nil => exact List.nil_prefix
  | cons x xs ih =>
      cases ys with
      | nil =>
          have hlen := h.length_le
          rw [bits_cons, List.length_append, length_lowBits, bits_nil, List.length_nil] at hlen
          omega
      | cons y ys =>
          rw [bits_cons, bits_cons] at h
          obtain ⟨rest, hrest⟩ := h
          rw [List.append_assoc] at hrest
          obtain ⟨hhead, htail⟩ := List.append_inj hrest (by simp)
          rw [lowBits_injective hhead]
          exact List.cons_prefix_cons.mpr ⟨rfl, ih ⟨rest, htail⟩⟩

theorem bits_injective (hw : 0 < w) {xs ys : List (BitVec w)} (h : bits xs = bits ys) : xs = ys :=
  (prefix_of_bits hw (h ▸ List.prefix_rfl)).eq_of_length (by
    have hlen := congrArg List.length h
    rw [length_bits, length_bits] at hlen
    exact Nat.eq_of_mul_eq_mul_left hw hlen)

end TaskLunev.BitStream
