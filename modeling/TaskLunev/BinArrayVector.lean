import TaskLunev.BinArrayModel

/-!
# The bit array as a vector of booleans

The accessors of one bit, first over the raw buffer and then as a sequence of
calls on an array fresh from `baCreate`. The vector below has exactly the
created number of entries and refuses every other index. The index check of
the source lets the index `numBits` itself through, and a sequence of calls
follows the vector exactly when it never uses that index.
-/
namespace TaskLunev.BinArrayVector
open ByteMemory BinArrayModel

section
variable {n : ℕ}

theorem baGetBitFromByte_eq (byte : Byte) {k : ℕ} (hk : k < 8) :
    baGetBitFromByte byte k = byte.getLsbD k := by
  unfold baGetBitFromByte baGetMaskBitFromByte
  rw [← BitVec.twoPow_eq, BitVec.and_twoPow]
  cases hb : byte.getLsbD k with
  | false => simp
  | true =>
      have hne : BitVec.twoPow 8 k ≠ 0 := by
        intro h
        have := congrArg (fun x : BitVec 8 => x.getLsbD k) h
        simp [hk] at this
      simpa using hne

theorem load_byte {m : Memory n} {i : ℕ} (hi : i / 8 < n) :
    ∃ byte : BitVec 8, load 1 m (i / 8) = some byte ∧
      ∀ j < 8, byte.getLsbD j = bit m (8 * (i / 8) + j) := by
  obtain ⟨byte, hb⟩ : ∃ byte, load 1 m (i / 8) = some byte := load_of_le (by omega)
  exact ⟨byte, hb, fun j hj => load_bit hb hj⟩

/-- Storing a byte that differs from the old one in one bit changes that bit of
the buffer and no other. -/
theorem store_byte {m : Memory n} {i : ℕ} (hi : i / 8 < n) {val : Bool} {byte : BitVec 8}
    (hbyte : ∀ j < 8, byte.getLsbD j =
      if j = i % 8 then val else bit m (8 * (i / 8) + j)) :
    ∃ m', store 1 m (i / 8) byte = some m' ∧ ∀ j, bit m' j = if j = i then val else bit m j := by
  obtain ⟨m', hs⟩ := store_of_le m (show i / 8 + 1 ≤ n by omega) byte
  refine ⟨m', hs, fun j => ?_⟩
  rw [bit_store hs]
  split_ifs with hin he he
  · rw [hbyte _ (by omega), if_pos (by omega)]
  · rw [hbyte _ (by omega), if_neg (by omega), Nat.add_sub_cancel' hin.1]
  · omega
  · rfl

theorem baGetValueRaw_eq {m : Memory n} {i : ℕ} (hi : i / 8 < n) :
    baGetValueRaw m i = some (bit m i) := by
  obtain ⟨byte, hb, hbits⟩ := load_byte (m := m) hi
  have hm : i % 8 < 8 := Nat.mod_lt _ (by decide)
  simp only [baGetValueRaw, hb, Option.bind_eq_bind, Option.bind_some, Option.pure_def]
  rw [baGetBitFromByte_eq byte hm, hbits _ hm, Nat.div_add_mod]

theorem baSetValueRaw_spec {m : Memory n} {i : ℕ} (hi : i / 8 < n) (val : Bool) :
    ∃ m', baSetValueRaw m i val = some m' ∧ ∀ j, bit m' j = if j = i then val else bit m j := by
  obtain ⟨byte, hb, hbits⟩ := load_byte (m := m) hi
  cases val with
  | true =>
      simp only [baSetValueRaw, baSetOneRaw, hb, Option.bind_eq_bind, Option.bind_some, if_true]
      refine store_byte hi fun j hj => ?_
      rw [BitVec.getLsbD_or, hbits j hj, baGetMaskBitFromByte, ← BitVec.twoPow_eq,
        BitVec.getLsbD_twoPow]
      by_cases he : j = i % 8
      · simp [he, Nat.mod_lt]
      · simp [he, Ne.symm he]
  | false =>
      simp only [baSetValueRaw, baSetZeroRaw, hb, Option.bind_eq_bind, Option.bind_some,
        Bool.false_eq_true, if_false]
      refine store_byte hi fun j hj => ?_
      rw [BitVec.getLsbD_and, BitVec.getLsbD_not, hbits j hj, baGetMaskBitFromByte,
        ← BitVec.twoPow_eq, BitVec.getLsbD_twoPow]
      by_cases he : j = i % 8
      · simp [he, Nat.mod_lt]
      · simp [he, Ne.symm he, hj]

end

theorem BinArray.byte_lt (arr : BinArray) {i : ℕ} (hi : i < arr.numBits) :
    i / 8 < 8 * baGetSizeArrayIn8Byte arr.numBits := by
  have := (baGetSizeArrayIn8Byte_bounds arr.numBits).1
  omega

theorem baGetValue_eq (arr : BinArray) {i : ℕ} (hi : i < arr.numBits) :
    baGetValue (some arr) i = some ⟨(arr.bit i).toNat, none, some arr⟩ := by
  simp only [baGetValue, checkedAccess, baCheckPtr_some, if_neg (Nat.not_lt.mpr hi.le),
    baGetValueRaw_eq (BinArray.byte_lt arr hi), BinArray.bit, Option.map_some]

/-! ## Sequences of calls -/

inductive Call where
  | setOne (numBit : ℕ)
  | setZero (numBit : ℕ)
  | setValue (numBit : ℕ) (val : Bool)
  | getValue (numBit : ℕ)
  deriving DecidableEq, Repr

namespace Call

def index : Call → ℕ
  | setOne i | setZero i | setValue i _ | getValue i => i

def run (c : Call) (arr : Ptr) : Option Reply :=
  match c with
  | setOne i => baSetOne arr i
  | setZero i => baSetZero arr i
  | setValue i val => baSetValue arr i val
  | getValue i => baGetValue arr i

/-- The value a call writes at its index; `none` for a read. -/
def written : Call → Option Bool
  | setOne _ => some true
  | setZero _ => some false
  | setValue _ val => some val
  | getValue _ => none

end Call

/-- Reply value and error number of a sequence of calls, and the array it ends
with. -/
def runCalls : Ptr → List Call → Option (List (ℤ × Option Errno) × Ptr)
  | arr, [] => some ([], arr)
  | arr, c :: cs => do
      let r ← c.run arr
      let (replies, last) ← runCalls r.arr cs
      return ((r.value, r.errno) :: replies, last)

/-- One call on a vector of exactly `n` booleans. -/
def specCall {n : ℕ} (c : Call) (v : Fin n → Bool) : (ℤ × Option Errno) × (Fin n → Bool) :=
  if h : c.index < n then
    match c.written with
    | some val => ((0, none), Function.update v ⟨c.index, h⟩ val)
    | none => (((v ⟨c.index, h⟩).toNat, none), v)
  else ((-1, some .e2big), v)

def specCalls {n : ℕ} : (Fin n → Bool) → List Call → List (ℤ × Option Errno) × (Fin n → Bool)
  | v, [] => ([], v)
  | v, c :: cs =>
      let r := specCall c v
      let rest := specCalls r.2 cs
      (r.1 :: rest.1, rest.2)

/-- The array holds the vector and zeros in every padding bit. -/
structure Represents {n : ℕ} (arr : BinArray) (v : Fin n → Bool) : Prop where
  numBits : arr.numBits = n
  bits : ∀ i : Fin n, arr.bit i = v i
  padding : ∀ i, n ≤ i → arr.bit i = false

theorem baCreate_represents {grant : ℕ → Bool} {n : ℕ} {arr : BinArray}
    (h : (baCreate grant n).2 = some arr) : Represents arr fun _ : Fin n => false := by
  unfold baCreate at h
  split_ifs at h
  cases h
  have hz : ∀ i, (ByteMemory.bit (fun _ => 0 : Memory (8 * baGetSizeArrayIn8Byte n)) i) = false := by
    intro i
    unfold ByteMemory.bit
    split_ifs <;> simp
  exact ⟨rfl, fun i => hz i, fun i _ => hz i⟩

theorem Represents.write {n : ℕ} {arr : BinArray} {v : Fin n → Bool} (h : Represents arr v)
    (i : Fin n) (val : Bool) :
    ∃ buf, baSetValueRaw arr.buf i val = some buf ∧
      Represents { arr with buf } (Function.update v i val) := by
  have hi : i.val < arr.numBits := by rw [h.numBits]; exact i.isLt
  obtain ⟨buf, hbuf, hbits⟩ := baSetValueRaw_spec (m := arr.buf) (BinArray.byte_lt arr hi) val
  refine ⟨buf, hbuf, h.numBits, fun j => ?_, fun j hj => ?_⟩
  · change ByteMemory.bit buf j = _
    rw [hbits, Function.update_apply]
    split_ifs with h₁ h₂ h₂
    · rfl
    · exact (h₂ (Fin.ext h₁)).elim
    · exact (h₁ (congrArg Fin.val h₂)).elim
    · exact h.bits j
  · change ByteMemory.bit buf j = _
    rw [hbits, if_neg (by have := i.isLt; omega)]
    exact h.padding j hj

namespace Call

theorem run_of_written {c : Call} {val : Bool} (h : c.written = some val) (arr : Ptr) :
    c.run arr = baSetValue arr c.index val := by
  cases c <;> simp only [written, Option.some.injEq, reduceCtorEq] at h <;> subst h <;> rfl

theorem run_of_not_written {c : Call} (h : c.written = none) (arr : Ptr) :
    c.run arr = baGetValue arr c.index := by
  cases c <;> simp only [written, reduceCtorEq] at h
  rfl

/-- Away from the index `n` a call does what it does on the vector. -/
theorem run_refines {n : ℕ} {arr : BinArray} {v : Fin n → Bool} (h : Represents arr v)
    {c : Call} (hc : c.index ≠ n) :
    ∃ arr', c.run (some arr) = some ⟨(specCall c v).1.1, (specCall c v).1.2, some arr'⟩ ∧
      Represents arr' (specCall c v).2 := by
  by_cases hlt : c.index < n
  · have hle : ¬ c.index > arr.numBits := by rw [h.numBits]; omega
    cases hw : c.written with
    | some val =>
        obtain ⟨buf, hbuf, hrep⟩ := h.write ⟨c.index, hlt⟩ val
        refine ⟨{ arr with buf }, ?_, by simpa only [specCall, hlt, hw, dite_true] using hrep⟩
        rw [run_of_written hw]
        simp only [baSetValue, checkedAccess, baCheckPtr_some, if_neg hle, hbuf, Option.map_some,
          specCall, hlt, hw,
          dite_true]
    | none =>
        refine ⟨arr, ?_, by simpa only [specCall, hlt, hw, dite_true] using h⟩
        rw [run_of_not_written hw, baGetValue_eq arr (by rw [h.numBits]; exact hlt)]
        simp only [specCall, hlt, hw, dite_true, ← h.bits]
  · have hgt : c.index > arr.numBits := by rw [h.numBits]; omega
    refine ⟨arr, ?_, by simpa only [specCall, hlt, dite_false] using h⟩
    have hrefuse : ∀ access, checkedAccess (some arr) c.index access =
        some ⟨-1, some .e2big, some arr⟩ := fun access => by
      simp only [checkedAccess, baCheckPtr_some, if_pos hgt]
    cases hw : c.written with
    | some val => rw [run_of_written hw, baSetValue, hrefuse, specCall, dif_neg hlt]
    | none => rw [run_of_not_written hw, baGetValue, hrefuse, specCall, dif_neg hlt]

/-- The index `numBits` passes the check: the call reports success or leaves the
buffer. -/
theorem run_boundary {arr : BinArray} {c : Call} (hc : c.index = arr.numBits) {r : Reply}
    (hr : c.run (some arr) = some r) : r.value ≠ -1 := by
  have hle : ¬ c.index > arr.numBits := by omega
  cases hw : c.written with
  | some val =>
      rw [run_of_written hw, baSetValue, checkedAccess, if_neg hle, Option.map_map,
        Option.map_eq_some_iff] at hr
      obtain ⟨buf, -, rfl⟩ := hr
      simp
  | none =>
      rw [run_of_not_written hw, baGetValue, checkedAccess, if_neg hle, Option.map_map,
        Option.map_eq_some_iff] at hr
      obtain ⟨val, -, rfl⟩ := hr
      cases val <;> simp

end Call

theorem runCalls_refines_iff {n : ℕ} {arr : BinArray} {v : Fin n → Bool} (h : Represents arr v)
    (calls : List Call) :
    (∃ arr', runCalls (some arr) calls = some ((specCalls v calls).1, some arr') ∧
      Represents arr' (specCalls v calls).2) ↔ ∀ c ∈ calls, c.index ≠ n := by
  induction calls generalizing arr v with
  | nil =>
      refine ⟨fun _ c hc => absurd hc (by simp), fun _ => ?_⟩
      exact ⟨arr, rfl, h⟩
  | cons c cs ih =>
      by_cases hc : c.index = n
      · have hcn : ¬ ∀ d ∈ c :: cs, d.index ≠ n := fun hall => hall c (by simp) hc
        simp only [hcn, iff_false]
        rintro ⟨arr', hrun, -⟩
        simp only [runCalls, specCalls, specCall, hc, lt_irrefl, dite_false, Option.bind_eq_bind,
          Option.bind_eq_some_iff, Option.pure_def, Option.some.injEq, Prod.mk.injEq,
          List.cons.injEq] at hrun
        obtain ⟨r, hr, -, -, ⟨⟨hval, -⟩, -⟩, -⟩ := hrun
        exact Call.run_boundary (by rw [h.numBits, hc]) hr hval
      · obtain ⟨mid, hmid, hrep⟩ := Call.run_refines h hc
        have hiff := ih hrep
        have hall : (∀ d ∈ c :: cs, d.index ≠ n) ↔ ∀ d ∈ cs, d.index ≠ n := by
          rw [List.forall_mem_cons]
          exact and_iff_right hc
        rw [hall, ← hiff]
        simp only [runCalls, specCalls, hmid, Option.bind_eq_bind, Option.bind_some,
          Option.bind_eq_some_iff, Option.pure_def, Option.some.injEq, Prod.mk.injEq]
        constructor
        · rintro ⟨arr', ⟨⟨rs, last⟩, hrun, hrs, rfl⟩, hrep'⟩
          obtain rfl := (List.cons.inj hrs).2
          exact ⟨arr', hrun, hrep'⟩
        · rintro ⟨arr', hrun, hrep'⟩
          exact ⟨arr', ⟨_, hrun, rfl, rfl⟩, hrep'⟩

/-- After `baCreate n` a sequence of calls gives the replies of a vector of `n`
booleans, ends with its contents and stays inside the buffer exactly when no
call uses the index `n`. -/
theorem created_calls_iff {grant : ℕ → Bool} {n : ℕ} {arr : BinArray}
    (h : (baCreate grant n).2 = some arr) (calls : List Call) :
    (∃ arr', runCalls (some arr) calls =
        some ((specCalls (fun _ : Fin n => false) calls).1, some arr') ∧
      Represents arr' (specCalls (fun _ : Fin n => false) calls).2) ↔
    ∀ c ∈ calls, c.index ≠ n :=
  runCalls_refines_iff (baCreate_represents h) calls

/-- Five bits, one set and read back, an index past the end refused. -/
theorem created_calls_five :
    ∃ arr, (baCreate (fun _ => true) 5).2 = some arr ∧
      ((∃ arr', runCalls (some arr) [.setOne 3, .getValue 3, .setZero 6] =
          some ([(0, none), (1, none), (-1, some .e2big)], some arr') ∧
        Represents arr' (Function.update (fun _ : Fin 5 => false) 3 true)) ↔
      ∀ c ∈ [Call.setOne 3, .getValue 3, .setZero 6], c.index ≠ 5) :=
  ⟨_, rfl, created_calls_iff (show (baCreate (fun _ => true) 5).2 = some _ from rfl)
    [.setOne 3, .getValue 3, .setZero 6]⟩

/-- With 5 bits `baSetOne` at index 5 reports success where the vector refuses;
with 64 bits the same call at index 64 writes behind the buffer. -/
theorem boundary_index_passes :
    (∃ arr arr', (baCreate (fun _ => true) 5).2 = some arr ∧
      runCalls (some arr) [.setOne 5] = some ([(0, none)], some arr') ∧
      (specCalls (fun _ : Fin 5 => false) [.setOne 5]).1 = [(-1, some .e2big)]) ∧
    ∃ arr, (baCreate (fun _ => true) 64).2 = some arr ∧
      runCalls (some arr) [.setOne 64] = none :=
  ⟨⟨_, _, rfl, rfl, rfl⟩, _, rfl, rfl⟩

end TaskLunev.BinArrayVector
