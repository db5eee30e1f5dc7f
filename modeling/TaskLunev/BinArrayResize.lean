import TaskLunev.BinArrayVector
import TaskLunev.BinArrayFill
import TaskLunev.BinArrayRange
import TaskLunev.TransitionRuns

/-!
# Arrays that change their length

A sequence of calls that create, resize, set and fill one array, beside the
bits a caller has written. A resize keeps the words both lengths share and
clears nothing: bits of the old padding and of the words `realloc` adds come
into range as they are. The array reads as what was written exactly as long as
every resize finds zeros there and no setter at the index `numBits` leaves the
buffer.
-/
namespace TaskLunev.BinArrayResize
open ByteMemory BinArrayModel BinArrayVector BinArrayFill BinArrayRange TransitionRuns

inductive Op where
  | create (numBits : ℕ)
  | resize (newNumBits : ℕ) (fresh : ℕ → Byte)
  | call (c : Call)
  | fillOne (begin : ℕ) (len : ℤ)
  | fillZero (begin : ℕ) (len : ℤ)

/-- The array a call leaves; `none` once it has touched a byte outside the
buffer. -/
def Op.run (grant : ℕ → Bool) (op : Op) (arr : BinArray) : Ptr :=
  match op with
  | .create numBits => (baCreate grant numBits).2
  | .resize newNumBits fresh => (baResize grant fresh (some arr) newNumBits).arr
  | .call c => (c.run (some arr)).bind Reply.arr
  | .fillOne begin len => (baFillOne (some arr) begin len).bind Reply.arr
  | .fillZero begin len => (baFillZero (some arr) begin len).bind Reply.arr

/-- What a caller has written: the length and, for each index in range, the last
value since the index came into range, zero if there is none. -/
structure Written where
  length : ℕ
  value : ℕ → Bool

namespace Written

def resolve (w : Written) (begin : ℕ) (len : ℤ) : ℕ :=
  if len = -1 then w.length - begin else len.toNat

def InRange (w : Written) (begin : ℕ) (len : ℤ) : Prop :=
  (len = -1 ∨ 0 ≤ len) ∧ 0 < w.resolve begin len ∧ begin + w.resolve begin len ≤ w.length

def filled (w : Written) (begin : ℕ) (len : ℤ) (val : Bool) : Written :=
  { w with value := fun i =>
      if begin ≤ i ∧ i < begin + w.resolve begin len then val else w.value i }

def after (w : Written) : Op → Written
  | .create numBits => ⟨numBits, fun _ => false⟩
  | .resize newNumBits _ => ⟨newNumBits, fun i => if i < w.length then w.value i else false⟩
  | .call c =>
      match c.written with
      | some val => { w with value := fun i =>
          if i = c.index ∧ i < w.length then val else w.value i }
      | none => w
  | .fillOne begin len => w.filled begin len true
  | .fillZero begin len => w.filled begin len false

end Written

structure Session where
  arr : Ptr
  written : Written

/-- The calls of a sequence: allocations are served, resizes are to lengths
above zero, accessors write and fills are in range and not empty. -/
def Permitted (grant : ℕ → Bool) (w : Written) : Op → Prop
  | .create numBits => (baCreate grant numBits).2.isSome
  | .resize newNumBits _ =>
      0 < newNumBits ∧ baReallocarray grant (8 * baGetSizeArrayIn8Byte newNumBits) 1 = true
  | .call c => c.written ≠ none
  | .fillOne begin len | .fillZero begin len => w.InRange begin len

def Step (grant : ℕ → Bool) (s : Session) (op : Op) (t : Session) : Prop :=
  Permitted grant s.written op ∧ t = ⟨s.arr.bind (op.run grant), s.written.after op⟩

instance (grant : ℕ → Bool) (w : Written) : DecidablePred (Permitted grant w)
  | .create _ => inferInstanceAs (Decidable (_ = true))
  | .resize .. => inferInstanceAs (Decidable (_ ∧ _))
  | .call _ => inferInstanceAs (Decidable (_ ≠ none))
  | .fillOne .. | .fillZero .. => inferInstanceAs (Decidable (_ ∧ _))

/-- The sessions that a list of calls goes through. -/
def sessions (grant : ℕ → Bool) : Session → List Op → List (Op × Session)
  | _, [] => []
  | s, op :: ops =>
      let t : Session := ⟨s.arr.bind (op.run grant), s.written.after op⟩
      (op, t) :: sessions grant t ops

theorem path_sessions {grant : ℕ → Bool} {s : Session} {ops : List Op}
    (h : ∀ m ∈ moves s (sessions grant s ops), Permitted grant m.1.written m.2) :
    Path (Step grant) s (sessions grant s ops) := by
  induction ops generalizing s with
  | nil => exact .nil
  | cons op ops ih =>
      rw [sessions, moves, List.forall_mem_cons] at h
      exact .cons ⟨h.1, rfl⟩ (ih h.2)

/-- Every index in range reads as what was written. -/
def Faithful (s : Session) : Prop :=
  ∃ arr, s.arr = some arr ∧ arr.numBits = s.written.length ∧
    ∀ i < s.written.length,
      baGetValue (some arr) i = some ⟨(s.written.value i).toNat, none, some arr⟩

/-- Bit `i` of the block that `realloc` answers. -/
def reallocBit (arr : BinArray) (fresh : ℕ → Byte) (i : ℕ) : Bool :=
  if i < 64 * baGetSizeArrayIn8Byte arr.numBits then arr.bit i
  else (fresh (i / 8)).getLsbD (i % 8)

/-- A resize brings only zeros into range, and a setter at the index `numBits`
finds a padding bit there. -/
def Clean (s : Session) : Op → Prop
  | .resize newNumBits fresh => ∀ arr ∈ s.arr, ∀ i, arr.numBits ≤ i → i < newNumBits →
      reallocBit arr fresh i = false
  | .call c => c.index = s.written.length → s.written.length % 64 ≠ 0
  | _ => True

/-! ## One call -/

/-- What a faithful session holds, in bits. -/
def Holds (w : Written) (arr : BinArray) : Prop :=
  arr.numBits = w.length ∧ ∀ i < w.length, arr.bit i = w.value i

theorem faithful_iff {s : Session} : Faithful s ↔ ∃ arr, s.arr = some arr ∧ Holds s.written arr := by
  apply exists_congr
  intro arr
  apply and_congr_right
  intro _
  unfold Holds
  apply and_congr_right
  intro hlen
  apply forall₂_congr
  intro i hi
  rw [baGetValue_eq arr (hlen ▸ hi)]
  cases arr.bit i <;> cases s.written.value i <;> simp

theorem holds_create {grant : ℕ → Bool} {n : ℕ} {arr : BinArray}
    (h : (baCreate grant n).2 = some arr) : Holds ⟨n, fun _ => false⟩ arr := by
  have hrep := baCreate_represents h
  exact ⟨hrep.numBits, fun i hi => hrep.bits ⟨i, hi⟩⟩

section
variable {w : Written} {arr : BinArray}

theorem resize_spec {grant : ℕ → Bool} {n : ℕ} (hpos : 0 < n)
    (hserved : baReallocarray grant (8 * baGetSizeArrayIn8Byte n) 1 = true)
    (fresh : ℕ → Byte) (arr : BinArray) :
    ∃ arr', (baResize grant fresh (some arr) n).arr = some arr' ∧ arr'.numBits = n ∧
      ∀ i < n, arr'.bit i = reallocBit arr fresh i := by
  simp only [baResize, baCheckPtr_some, dif_neg hpos.ne', dif_pos hserved]
  refine ⟨_, rfl, rfl, fun i hi => ?_⟩
  have hwords := (baGetSizeArrayIn8Byte_bounds n).1
  have hin : i / 8 < 8 * baGetSizeArrayIn8Byte arr.numBits ↔
      i < 64 * baGetSizeArrayIn8Byte arr.numBits := by omega
  have hbyte : i / 8 < 8 * baGetSizeArrayIn8Byte n := by omega
  rw [BinArray.bit, bit_resized _ _ hbyte, reallocBit, BinArray.bit]
  simp only [hin]

theorem holds_resize (h : Holds w arr) {grant : ℕ → Bool} {n : ℕ} (hpos : 0 < n)
    (hserved : baReallocarray grant (8 * baGetSizeArrayIn8Byte n) 1 = true)
    (fresh : ℕ → Byte) :
    ∃ arr', (baResize grant fresh (some arr) n).arr = some arr' ∧
      (Holds (w.after (.resize n fresh)) arr' ↔
        ∀ i, arr.numBits ≤ i → i < n → reallocBit arr fresh i = false) := by
  obtain ⟨arr', harr', hlen, hbits⟩ := resize_spec hpos hserved fresh arr
  refine ⟨arr', harr', ?_⟩
  have hwords := (baGetSizeArrayIn8Byte_bounds arr.numBits).1
  have hkept : ∀ i < w.length, reallocBit arr fresh i = w.value i := by
    intro i hi
    have hnum := h.1
    rw [reallocBit, if_pos (by omega), h.2 i hi]
  simp only [Holds, Written.after, hlen, true_and, h.1]
  constructor
  · intro hall i hlo hi
    have hi' := hall i hi
    rwa [hbits i hi, if_neg (by omega)] at hi'
  · intro hclean i hi
    rw [hbits i hi]
    split_ifs with hlt
    · exact hkept i hlt
    · exact hclean i (by omega) hi

/-- A setter away from the index `numBits`, or with a padding bit there. -/
theorem holds_call (h : Holds w arr) {c : Call} (hc : c.written ≠ none)
    (hin : c.index = w.length → w.length % 64 ≠ 0) :
    ∃ arr', (c.run (some arr)).bind Reply.arr = some arr' ∧ Holds (w.after (.call c)) arr' := by
  obtain ⟨val, hval⟩ := Option.ne_none_iff_exists'.mp hc
  have hnum := h.1
  have hwords := (baGetSizeArrayIn8Byte_bounds arr.numBits).1
  rw [Call.run_of_written hval, baSetValue, checkedAccess]
  simp only [Holds, Written.after, hval]
  by_cases hgt : c.index > arr.numBits
  · refine ⟨arr, by simp only [if_pos hgt, Option.bind_some], hnum, fun i hi => ?_⟩
    rw [if_neg (by omega), h.2 i hi]
  · have hbyte : c.index / 8 < 8 * baGetSizeArrayIn8Byte arr.numBits := by
      have hmod : c.index = arr.numBits → arr.numBits % 64 ≠ 0 := by rwa [hnum]
      omega
    obtain ⟨buf, hbuf, hbits⟩ := baSetValueRaw_spec (m := arr.buf) hbyte val
    refine ⟨{ arr with buf }, ?_, hnum, fun i hi => ?_⟩
    · simp only [if_neg hgt, hbuf, Option.map_some, Option.bind_some]
    · simp only [BinArray.bit, hbits, hi, and_true]
      split_ifs with he
      · rfl
      · exact h.2 i hi

/-- At the index `numBits`, where that is past the last word, a setter writes
behind the buffer. -/
theorem call_outside {c : Call} (hc : c.written ≠ none) (hin : c.index = arr.numBits)
    (hmod : arr.numBits % 64 = 0) : c.run (some arr) = none := by
  obtain ⟨val, hval⟩ := Option.ne_none_iff_exists'.mp hc
  have hwords := (baGetSizeArrayIn8Byte_bounds arr.numBits).2
  have hload : load 1 arr.buf (c.index / 8) = none := if_neg (by omega)
  have hraw : baSetValueRaw arr.buf c.index val = none := by
    cases val <;>
      simp only [baSetValueRaw, baSetOneRaw, baSetZeroRaw, hload, Option.bind_eq_bind,
        Option.bind_none, ite_self]
  rw [Call.run_of_written hval, baSetValue, checkedAccess]
  simp only [hin.le.not_gt, if_false, hraw, Option.map_none]

theorem covers_of_inRange (hlen : arr.numBits = w.length) {begin : ℕ} {len : ℤ}
    (h : w.InRange begin len) : Covers arr begin len (w.resolve begin len) := by
  obtain ⟨hsign, hpos, hle⟩ := h
  refine ⟨?_, hpos, hlen ▸ hle⟩
  unfold Written.resolve at *
  by_cases hneg : len = -1
  · simp only [if_pos hneg] at *
    exact .inr ⟨hneg, by omega⟩
  · simp only [if_neg hneg] at *
    exact .inl (by omega)

theorem holds_fill (h : Holds w arr) {put : BitVec 64 → BitVec 64 → BitVec 64} {val : Bool}
    (hput : Puts put val) {byte : Byte} (hbyte : ∀ j < 8, byte.getLsbD j = val) {begin : ℕ}
    {len : ℤ} (hin : w.InRange begin len) :
    ∃ arr', (onRange (fun a => fillRange put byte a.buf) (some arr) begin len).bind Reply.arr =
      some arr' ∧ Holds (w.filled begin len val) arr' := by
  have hcovers := covers_of_inRange h.1 hin
  obtain ⟨buf, hbuf, hbits⟩ :=
    fillRange_spec (m := arr.buf) hput hbyte hcovers.pos rfl hcovers.words
  refine ⟨{ arr with buf }, ?_, h.1, fun i hi => ?_⟩
  · simp only [onRange, hcovers.check, hbuf, Option.map_some, Option.bind_some]
  · simp only [BinArray.bit, hbits, Written.filled]
    split_ifs
    · rfl
    · exact h.2 i hi

end

/-! ## Sequences of calls -/

/-- One call keeps a session faithful exactly when it is clean. -/
theorem step_faithful {grant : ℕ → Bool} {s t : Session} {op : Op} (h : Faithful s)
    (hstep : Step grant s op t) : Faithful t ↔ Clean s op := by
  obtain ⟨hperm, rfl⟩ := hstep
  rw [faithful_iff] at h ⊢
  obtain ⟨arr, harr, hholds⟩ := h
  simp only [harr, Option.bind_some]
  cases op with
  | create n =>
      obtain ⟨arr', harr'⟩ := Option.isSome_iff_exists.mp hperm
      exact iff_of_true ⟨arr', harr', holds_create harr'⟩ trivial
  | resize n fresh =>
      obtain ⟨arr', harr', hiff⟩ := holds_resize hholds hperm.1 hperm.2 fresh
      simp only [Op.run, harr', Option.some.injEq, exists_eq_left', Clean, harr,
        Option.mem_def, forall_eq', hiff]
  | call c =>
      by_cases hin : c.index = s.written.length → s.written.length % 64 ≠ 0
      · exact iff_of_true (holds_call hholds hperm hin) hin
      · refine iff_of_false ?_ hin
        rw [Classical.not_imp, not_not, ← hholds.1] at hin
        simp only [Op.run, call_outside hperm hin.1 hin.2, Option.bind_none, reduceCtorEq,
          false_and, exists_false, not_false_eq_true]
  | fillOne begin len => exact iff_of_true (holds_fill hholds puts_one (by decide) hperm) trivial
  | fillZero begin len => exact iff_of_true (holds_fill hholds puts_zero (by decide) hperm) trivial

/-- In a sequence of calls on a created array every index in range reads as what
was written, after each call, exactly when every call is clean. -/
theorem sequence_faithful_iff {grant : ℕ → Bool} {n : ℕ} {arr : BinArray}
    (h : (baCreate grant n).2 = some arr) {trace : List (Op × Session)}
    (hrun : Path (Step grant) ⟨some arr, n, fun _ => false⟩ trace) :
    (∀ p ∈ trace, Faithful p.2) ↔
      ∀ m ∈ moves ⟨some arr, n, fun _ => false⟩ trace, Clean m.1 m.2 :=
  hrun.states_iff_moves (fun _ _ _ _ _ => trivial) (fun _ _ _ _ hs hst => step_faithful hs hst)
    trivial (faithful_iff.mpr ⟨arr, rfl, holds_create h⟩)

/-- Eight bits, one set, then sixteen: nothing but zeros comes into range. -/
theorem sequence_faithful_sixteen :
    ∃ arr, (baCreate (fun _ => true) 8).2 = some arr ∧
      let start : Session := ⟨some arr, 8, fun _ => false⟩
      let trace := sessions (fun _ => true) start [.call (.setOne 3), .resize 16 fun _ => 0]
      (∀ p ∈ trace, Faithful p.2) ↔ ∀ m ∈ moves start trace, Clean m.1 m.2 :=
  ⟨_, rfl, sequence_faithful_iff (show (baCreate (fun _ => true) 8).2 = some _ from rfl)
    (path_sessions (by decide +kernel))⟩

theorem not_faithful {s : Session} {i : ℕ} (hi : i < s.written.length)
    (hone : (s.arr.bind fun arr => (baGetValue (some arr) i).map Reply.value) = some 1)
    (hzero : s.written.value i = false) : ¬ Faithful s := by
  intro ⟨arr, harr, _, hval⟩
  rw [harr, Option.bind_some, hval i hi, hzero] at hone
  cases hone

/-- Bit 7 is set, goes out of range and comes back set. The second word of an
array grown from 64 to 128 bits holds what `realloc` found there. -/
theorem stale_bits_return :
    (∃ arr, (baCreate (fun _ => true) 8).2 = some arr ∧
      let start : Session := ⟨some arr, 8, fun _ => false⟩
      let trace := sessions (fun _ => true) start
        [.call (.setOne 7), .resize 4 fun _ => 0, .resize 8 fun _ => 0]
      Path (Step fun _ => true) start trace ∧ ¬ ∀ p ∈ trace, Faithful p.2) ∧
    ∃ arr, (baCreate (fun _ => true) 64).2 = some arr ∧
      let start : Session := ⟨some arr, 64, fun _ => false⟩
      let trace := sessions (fun _ => true) start [.resize 128 fun _ => 0xFF]
      Path (Step fun _ => true) start trace ∧ ¬ ∀ p ∈ trace, Faithful p.2 := by
  constructor
  · refine ⟨_, rfl, path_sessions (by decide +kernel), fun hall => ?_⟩
    exact not_faithful (i := 7) (by decide) rfl rfl
      (hall _ (List.mem_of_getElem? (i := 2) rfl))
  · refine ⟨_, rfl, path_sessions (by decide +kernel), fun hall => ?_⟩
    exact not_faithful (i := 100) (by decide) rfl rfl
      (hall _ (List.mem_of_getElem? (i := 0) rfl))

end TaskLunev.BinArrayResize
