import TaskLunev.BinArrayFillEach
import TaskLunev.BinArrayGetInvert
import TaskLunev.BinArrayResize
import TaskLunev.BinArrayWindow

/-!
# Arrays as lists of bits

What the array functions are for, on lists of booleans: setting, filling,
inverting and searching. The words, the masks and the padding are gone, and the
lists leave open what a longer array has in its new bits.
-/
namespace TaskLunev.BinArrayBits
open ByteMemory BinArrayModel BinArrayVector BinArrayFill BinArrayRange BinArrayFind BinArrayInvert
open BinArrayWindow

/-! ## The bits of an array -/

def bits (arr : BinArray) : List Bool := (List.range arr.numBits).map arr.bit

@[simp] theorem length_bits (arr : BinArray) : (bits arr).length = arr.numBits := by simp [bits]

@[simp] theorem getElem_bits (arr : BinArray) {i : ℕ} (h : i < (bits arr).length) :
    (bits arr)[i] = arr.bit i := by simp [bits]

theorem bits_eq {arr : BinArray} {l : List Bool} (hlen : arr.numBits = l.length)
    (h : ∀ i (hi : i < l.length), arr.bit i = l[i]) : bits arr = l := by
  apply List.ext_getElem
  · rw [length_bits, hlen]
  · intro i _ hi
    rw [getElem_bits, h i hi]

/-- The bits from `begin` on, `count` of them, changed. -/
def changed (f : Bool → Bool) (begin count : ℕ) (l : List Bool) : List Bool :=
  l.mapIdx fun i b => if begin ≤ i ∧ i < begin + count then f b else b

@[simp] theorem length_changed (f : Bool → Bool) (begin count : ℕ) (l : List Bool) :
    (changed f begin count l).length = l.length := List.length_mapIdx

theorem bits_eq_changed {arr arr' : BinArray} {f : Bool → Bool} {begin count : ℕ}
    (hlen : arr'.numBits = arr.numBits)
    (h : ∀ i < arr.numBits, arr'.bit i =
      if begin ≤ i ∧ i < begin + count then f (arr.bit i) else arr.bit i) :
    bits arr' = changed f begin count (bits arr) := by
  apply bits_eq
  · rw [length_changed, length_bits, hlen]
  · intro i hi
    rw [length_changed, length_bits] at hi
    rw [h i hi]
    simp only [changed, List.getElem_mapIdx, getElem_bits]

/-! ## Ranges -/

/-- The number of bits of an accepted range; `-1` asks for the rest. -/
def checkRange (l : List Bool) (begin : ℕ) (len : ℤ) : Option ℕ :=
  if len = -1 then
    if begin < l.length then some (l.length - begin) else none
  else if 0 ≤ len ∧ begin + len ≤ l.length then some len.toNat else none

/-- The range ends below 2^64 and is not accepted with no bits. -/
def Plain (l : List Bool) (begin : ℕ) (len : ℤ) : Prop :=
  begin + len < 2 ^ 64 ∧ checkRange l begin len ≠ some 0

section
variable {arr : BinArray} {begin count : ℕ} {len : ℤ}

theorem baCheckCalcArg_eq (h : begin + len < 2 ^ 64) :
    baCheckCalcArg (some arr) begin len = checkRange (bits arr) begin len := by
  simp only [baCheckCalcArg, baCheckPtr_some, checkRange, length_bits]
  by_cases hneg : len = -1
  · simp only [if_pos hneg]
  · simp only [if_neg hneg]
    by_cases hpos : 0 ≤ len
    · have hsum : (begin + len.toNat) % 2 ^ 64 = begin + len.toNat :=
        Nat.mod_eq_of_lt (by omega)
      have hiff : begin + len.toNat < arr.numBits + 1 ↔ begin + len ≤ arr.numBits := by omega
      simp only [hsum, hpos, if_true, true_and, hiff]
    · simp only [hpos, false_and, if_false]

theorem covers_of_checkRange (h : checkRange (bits arr) begin len = some count)
    (hpos : 0 < count) : Covers arr begin len count := by
  unfold checkRange at h
  rw [length_bits] at h
  split_ifs at h with hneg hlt hin
  · obtain rfl := Option.some.inj h
    exact ⟨.inr ⟨hneg, by omega⟩, hpos, by omega⟩
  · obtain rfl := Option.some.inj h
    exact ⟨.inl (by omega), hpos, by omega⟩

/-- A plain range is refused by the check, or has bits and lies in the array. -/
theorem Plain.cases (h : Plain (bits arr) begin len) :
    (checkRange (bits arr) begin len = none ∧ baCheckCalcArg (some arr) begin len = none) ∨
      ∃ count, checkRange (bits arr) begin len = some count ∧ Covers arr begin len count := by
  cases hcheck : checkRange (bits arr) begin len with
  | none => exact .inl ⟨rfl, (baCheckCalcArg_eq h.1).trans hcheck⟩
  | some count =>
      have hpos : 0 < count := Nat.pos_of_ne_zero fun hzero => h.2 (hzero ▸ hcheck)
      exact .inr ⟨count, rfl, covers_of_checkRange hcheck hpos⟩

end

/-! ## Calls that change one array -/

/-- What the environment answers during a call: the allocator, and what `realloc`
leaves in new bytes. -/
structure Env where
  grant : ℕ → Bool
  fresh : ℕ → Byte

/-- A new array of so many bits gets its memory, and so does a resized one. -/
def Env.creates (env : Env) (n : ℕ) : Bool :=
  baCalloc env.grant 1 16 && baCalloc env.grant 1 (8 * baGetSizeArrayIn8Byte n)

def Env.resizes (env : Env) (n : ℕ) : Bool :=
  baReallocarray env.grant (8 * baGetSizeArrayIn8Byte n) 1

/-- Value and error number. -/
abbrev Answer := ℤ × Option Errno

/-- What a getter or a setter is for. -/
def CallSpec (c : Call) (l : List Bool) (r : Answer) (l' : List Bool) : Prop :=
  match l[c.index]?, c.written with
  | some _, some val => r = (0, none) ∧ l' = l.set c.index val
  | some bit, none => r = ((bit.toNat : ℤ), none) ∧ l' = l
  | none, _ => r = (-1, some .e2big) ∧ l' = l

/-- What a getter answers for an index other than the one past the end. -/
def bitValue (l : List Bool) (i : ℕ) : ℤ :=
  match l[i]? with
  | some bit => bit.toNat
  | none => -1

theorem spec_getValue {l l' : List Bool} {i : ℕ} {r : Answer}
    (h : CallSpec (.getValue i) l r l') : r.1 = bitValue l i := by
  cases hbit : l[i]? with
  | some bit =>
      simp only [CallSpec, Call.index, Call.written, hbit] at h
      simp only [bitValue, hbit, h.1]
  | none =>
      simp only [CallSpec, Call.index, hbit] at h
      simp only [bitValue, hbit, h.1]

/-- A setter that is refused sets nothing. -/
theorem spec_setValue {l l' : List Bool} {i : ℕ} {val : Bool} {r : Answer}
    (h : CallSpec (.setValue i val) l r l') : l' = l.set i val := by
  cases hbit : l[i]? with
  | some bit =>
      simp only [CallSpec, Call.index, Call.written, hbit] at h
      exact h.2
  | none =>
      simp only [CallSpec, Call.index, hbit] at h
      rw [h.2, List.set_eq_of_length_le (List.getElem?_eq_none_iff.mp hbit)]

inductive Edit where
  | resize (newNumBits : ℕ)
  | call (c : Call)
  | fill (begin : ℕ) (len : ℤ) (val : Bool)
  | fillFull (val : Bool)
  | invert (begin : ℕ) (len : ℤ)

namespace Edit

def run (env : Env) (edit : Edit) (arr : Ptr) : Option Reply :=
  match edit with
  | resize newNumBits => some (baResize env.grant env.fresh arr newNumBits)
  | call c => c.run arr
  | fill begin len val => if val then baFillOne arr begin len else baFillZero arr begin len
  | fillFull val => if val then baFillOneFull arr else baFillZeroFull arr
  | invert begin len => baInvert arr begin len

/-- The answer to a null pointer. -/
def refusal : Edit → Answer
  | fill .. | invert .. => (-1, none)
  | _ => (-1, some .einval)

/-- A change of an accepted range. -/
def onBits (f : Bool → Bool) (begin : ℕ) (len : ℤ) (l : List Bool) (r : Answer)
    (l' : List Bool) : Prop :=
  match checkRange l begin len with
  | some count => r = (0, none) ∧ l' = changed f begin count l
  | none => r = (-1, none) ∧ l' = l

/-- What the call is for. The new bits of a resized array are left open. -/
def spec (env : Env) (edit : Edit) (l : List Bool) (r : Answer) (l' : List Bool) : Prop :=
  match edit with
  | resize n =>
      if n ≠ 0 ∧ env.resizes n = true then
        r = (0, none) ∧ ∃ more, l' = l.take n ++ more ∧ l'.length = n
      else r = (-1, none) ∧ l' = l
  | call c => CallSpec c l r l'
  | fill begin len val => onBits (fun _ => val) begin len l r l'
  | fillFull val => r = (0, none) ∧ l' = List.replicate l.length val
  | invert begin len => onBits not begin len l r l'

/-- No accessor at the index one past the end, no wrapped or empty range, and
beside an inverted range only zeros in its first and last word. -/
def Meets (l : List Bool) : Edit → Prop
  | resize _ | fillFull _ => True
  | call c => c.index ≠ l.length
  | fill begin len _ => Plain l begin len
  | invert begin len => Plain l begin len ∧ ∀ count, checkRange l begin len = some count →
      ∀ i (hi : i < l.length), InEdge begin count i → ¬ (begin ≤ i ∧ i < begin + count) →
        l[i] = false

end Edit

section
variable {arr : BinArray} {begin : ℕ} {len : ℤ}

/-- What the specification says of a call on an array. -/
def Edits (env : Env) (edit : Edit) (arr : BinArray) (reply : Option Reply) : Prop :=
  ∃ r arr', reply = some ⟨r.1, r.2, some arr'⟩ ∧ edit.spec env (bits arr) r (bits arr')

theorem edits_resize (env : Env) (n : ℕ) :
    Edits env (.resize n) arr (some (baResize env.grant env.fresh (some arr) n)) := by
  by_cases hzero : n = 0
  · refine ⟨(-1, none), arr, by simp only [baResize, baCheckPtr_some, dif_pos hzero], ?_⟩
    simp only [Edit.spec, hzero, ne_eq, not_true_eq_false, false_and, if_false, and_self]
  · by_cases hgrant : baReallocarray env.grant (8 * baGetSizeArrayIn8Byte n) 1 = true
    · obtain ⟨arr', harr', hlen, hbits⟩ :=
        BinArrayResize.resize_spec (Nat.pos_of_ne_zero hzero) hgrant env.fresh arr
      have hreply : baResize env.grant env.fresh (some arr) n = ⟨0, none, some arr'⟩ := by
        simp only [baResize, baCheckPtr_some, dif_neg hzero, dif_pos hgrant] at harr' ⊢
        rw [harr']
      refine ⟨(0, none), arr', congrArg some hreply, ?_⟩
      rw [Edit.spec, if_pos ⟨hzero, hgrant⟩]
      refine ⟨rfl, (bits arr').drop arr.numBits, ?_, by rw [length_bits, hlen]⟩
      have hkept : (bits arr').take arr.numBits = (bits arr).take n := by
        apply List.ext_getElem
        · simp only [List.length_take, length_bits, hlen]
          omega
        · intro i hi _
          have hwords := (baGetSizeArrayIn8Byte_bounds arr.numBits).1
          rw [List.length_take, length_bits, hlen] at hi
          simp only [List.getElem_take, getElem_bits]
          rw [hbits i (by omega), BinArrayResize.reallocBit, if_pos (by omega)]
      rw [← hkept, List.take_append_drop]
    · refine ⟨(-1, none), arr, ?_, ?_⟩
      · simp only [baResize, baCheckPtr_some, dif_neg hzero, dif_neg hgrant]
      · rw [Edit.spec, if_neg fun hboth => hgrant hboth.2]
        exact ⟨rfl, rfl⟩

theorem run_call {c : Call} (hc : c.index ≠ arr.numBits) :
    ∃ r arr', c.run (some arr) = some ⟨r.1, r.2, some arr'⟩ ∧
      CallSpec c (bits arr) r (bits arr') := by
  by_cases hlt : c.index < arr.numBits
  · have hbit : (bits arr)[c.index]? = some (arr.bit c.index) := by
      rw [List.getElem?_eq_getElem (by rwa [length_bits]), getElem_bits]
    cases hwritten : c.written with
    | some val =>
        obtain ⟨buf, hreply, hbits⟩ := BinArrayFillEach.baSetValue_spec hlt val
        refine ⟨(0, none), { arr with buf }, (Call.run_of_written hwritten _).trans hreply, ?_⟩
        simp only [CallSpec, hbit, hwritten, true_and]
        apply bits_eq
        · rw [List.length_set, length_bits]
        · intro i hi
          rw [List.getElem_set, getElem_bits]
          exact (hbits i).trans (if_congr eq_comm rfl rfl)
    | none =>
        refine ⟨((arr.bit c.index).toNat, none), arr,
          (Call.run_of_not_written hwritten _).trans (baGetValue_eq arr hlt), ?_⟩
        simp only [CallSpec, hbit, hwritten, and_self]
  · have hgt : c.index > arr.numBits := by omega
    have hnone : (bits arr)[c.index]? = none :=
      List.getElem?_eq_none (by rw [length_bits]; omega)
    refine ⟨(-1, some .e2big), arr, ?_, ?_⟩
    · cases hwritten : c.written with
      | some val =>
          simp only [Call.run_of_written hwritten, baSetValue, checkedAccess, baCheckPtr_some,
            if_pos hgt]
      | none =>
          simp only [Call.run_of_not_written hwritten, baGetValue, checkedAccess, baCheckPtr_some,
            if_pos hgt]
    · simp only [CallSpec, hnone, and_self]

/-- A ranged call that the check refuses, or that changes its range. -/
theorem edits_onBits {env : Env} {f : Bool → Bool} {edit : Edit} {reply : Option Reply}
    (hspec : ∀ r l', Edit.onBits f begin len (bits arr) r l' → edit.spec env (bits arr) r l')
    (hplain : Plain (bits arr) begin len)
    (hrefused : baCheckCalcArg (some arr) begin len = none → reply = some ⟨-1, none, some arr⟩)
    (hdone : ∀ count, checkRange (bits arr) begin len = some count → Covers arr begin len count →
      ∃ buf, reply = some ⟨0, none, some { arr with buf }⟩ ∧ ∀ i < arr.numBits, bit buf i =
        if begin ≤ i ∧ i < begin + count then f (arr.bit i) else arr.bit i) :
    Edits env edit arr reply := by
  rcases hplain.cases with ⟨hcheck, hnone⟩ | ⟨count, hcheck, hcovers⟩
  · refine ⟨(-1, none), arr, hrefused hnone, hspec _ _ ?_⟩
    simp only [Edit.onBits, hcheck, and_self]
  · obtain ⟨buf, hreply, hbits⟩ := hdone count hcheck hcovers
    refine ⟨(0, none), { arr with buf }, hreply, hspec _ _ ?_⟩
    simp only [Edit.onBits, hcheck, true_and]
    exact bits_eq_changed rfl hbits

theorem edits_fill (env : Env) {put : BitVec 64 → BitVec 64 → BitVec 64} {val : Bool}
    (hput : Puts put val)
    {byte : Byte} (hbyte : ∀ j < 8, byte.getLsbD j = val) (h : Plain (bits arr) begin len) :
    Edits env (.fill begin len val) arr
      (onRange (fun a => fillRange put byte a.buf) (some arr) begin len) := by
  refine edits_onBits (fun _ _ => id) h (fun hnone => ?_) fun count _ hcovers => ?_
  · simp only [onRange, hnone]
  · obtain ⟨buf, hreply, hbits⟩ := BinArrayFillEach.fill_spec hput hbyte hcovers
    exact ⟨buf, hreply, fun i _ => hbits i⟩

theorem edits_fillFull (env : Env) {byte : Byte} {val : Bool}
    (hbyte : ∀ j < 8, byte.getLsbD j = val) :
    Edits env (.fillFull val) arr (baFillFull byte (some arr)) := by
  obtain ⟨buf, hbuf⟩ : ∃ buf, fill arr.buf 0 (8 * baGetSizeArrayIn8Byte arr.numBits) byte =
      some buf := ⟨_, if_pos (by omega)⟩
  have hfull : baFillFull byte (some arr) = some ⟨0, none, some { arr with buf }⟩ := by
    simp only [baFillFull, baCheckPtr_some, hbuf, Option.map_some]
  refine ⟨(0, none), { arr with buf }, hfull, rfl, ?_⟩
  apply bits_eq
  · rw [List.length_replicate, length_bits]
  · intro i hi
    have hwords := (baGetSizeArrayIn8Byte_bounds arr.numBits).1
    rw [List.length_replicate, length_bits] at hi
    rw [List.getElem_replicate]
    refine (bit_fill hbuf (by omega) i).trans ?_
    rw [if_pos (by omega), hbyte _ (Nat.mod_lt _ (by decide))]

theorem edits_invert (env : Env) (h : (Edit.invert begin len).Meets (bits arr)) :
    Edits env (.invert begin len) arr (baInvert (some arr) begin len) := by
  refine edits_onBits (fun _ _ => id) h.1 (fun hnone => ?_) fun count hcheck hcovers => ?_
  · simp only [baInvert, onRange, hnone]
  · obtain ⟨buf, hreply, hbits⟩ := baInvert_spec hcovers
    refine ⟨buf, hreply, (invert_keeps_iff hbits).mpr fun i hi hedge hout => ?_⟩
    have hzero := h.2 count hcheck i (by rwa [length_bits]) hedge hout
    rwa [getElem_bits] at hzero

/-- Each call on an array does what it is for. -/
theorem run_edits (env : Env) {edit : Edit} (h : edit.Meets (bits arr)) :
    Edits env edit arr (edit.run env (some arr)) := by
  cases edit with
  | resize n => exact edits_resize env n
  | call c => exact run_call (by rwa [Edit.Meets, length_bits] at h)
  | fill begin len val =>
      cases val with
      | true => exact edits_fill env puts_one (by decide) h
      | false => exact edits_fill env puts_zero (by decide) h
  | fillFull val =>
      cases val with
      | true => exact edits_fillFull env (by decide)
      | false => exact edits_fillFull env (by decide)
  | invert begin len => exact edits_invert env h

theorem run_null (env : Env) (edit : Edit) :
    edit.run env none = some ⟨edit.refusal.1, edit.refusal.2, none⟩ := by
  cases edit with
  | call c => cases c <;> rfl
  | fill begin len val => cases val <;> rfl
  | fillFull val => cases val <;> rfl
  | _ => rfl

/-! ## Searches -/

/-- The answer is the least index with `val` in the range. Where there is none it
is -1 or lies behind the range. -/
def Finds (l : List Bool) (begin : ℕ) (len : ℤ) (val : Bool) (r : ℤ) : Prop :=
  match checkRange l begin len with
  | some count =>
      match (List.range' begin count).find? fun i => l[i]? == some val with
      | some i => r = i
      | none => r = -1 ∨ begin + count ≤ r
  | none => r = -1

/-- Up to 2^32 bits every bit of a range is visited. -/
theorem le_visitedEnd_of_small {n count : ℕ} (hin : begin + count ≤ n) (hn : n ≤ 2 ^ 32) :
    begin + count ≤ visitedEnd begin count := by
  have hwords := baGetSizeArrayIn8Byte_bounds (begin + count - boundary begin)
  have hb := boundary_bounds begin
  unfold visitedEnd visited
  split_ifs with hshort hless
  · exact le_rfl
  · omega
  · rw [Nat.mod_eq_of_lt (by omega)]
    omega

theorem find_bits {count : ℕ} (val : Bool) (hin : begin + count ≤ arr.numBits) :
    ((List.range' begin count).find? fun i => (bits arr)[i]? == some val) =
      firstBit arr.buf val begin count := by
  apply List.find?_congr
  intro i hi
  have hi' := List.mem_range'_1.mp hi
  rw [List.getElem?_eq_getElem (by rw [length_bits]; omega), getElem_bits]
  rfl

theorem find_finds {F : Finder} {val : Bool} (hF : Searches F val)
    (h : Plain (bits arr) begin len) (hsmall : arr.numBits ≤ 2 ^ 32) :
    ∃ r, baFindWith F (some arr) begin len = some r ∧ Finds (bits arr) begin len val r := by
  rcases h.cases with ⟨hcheck, hnone⟩ | ⟨count, hcheck, hcovers⟩
  · exact ⟨-1, by simp only [baFindWith, hnone], by simp only [Finds, hcheck]⟩
  · refine ⟨_, (baFindWith_eq hcovers.check F).trans (findRange_visited hF hcovers.inside), ?_⟩
    simp only [Finds, hcheck, find_bits val hcovers.inside]
    have hle := le_visitedEnd_of_small hcovers.inside hsmall
    have hend := visitedEnd_inside hcovers.inside
    have hwords := baGetSizeArrayIn8Byte_bounds arr.numBits
    have hreported : ∀ q < visitedEnd begin count, reported begin q = q := by
      intro q hq
      unfold reported
      split_ifs
      · rfl
      · rw [Nat.mod_eq_of_lt (by omega)]
        omega
    have hsplit : visitedEnd begin count - begin =
        count + (visitedEnd begin count - (begin + count)) := by omega
    rw [hsplit, firstBit_append]
    cases hfirst : firstBit arr.buf val begin count with
    | some i =>
        have hi := firstBit_eq_some.mp hfirst
        rw [Option.some_or, Option.map_some, answer_some, hreported i (by omega)]
    | none =>
        rw [Option.none_or]
        cases hlater : firstBit arr.buf val (begin + count)
            (visitedEnd begin count - (begin + count)) with
        | none => exact .inl rfl
        | some q =>
            have hq := firstBit_eq_some.mp hlater
            rw [Option.map_some, answer_some, hreported q (by omega)]
            exact .inr (by omega)

end

end TaskLunev.BinArrayBits
