import TaskLunev.BinArrayBits
import TaskLunev.BinArraySubArray
import TaskLunev.ProgramRefinement

/-!
# Programs on arrays

A program on any number of arrays is compared with the same program on lists of
bits, under the same answers of the allocator. The lists leave open what a longer
array has in its new bits, and what a search without a match answers: -1, or an
index behind its range.
-/
namespace TaskLunev.BinArrayStore
open ByteMemory BinArrayModel BinArrayVector BinArrayRange BinArrayFind BinArraySubArray
open BinArrayGetInvert BinArrayBits ProgramRefinement

/-! ## Calls that make an array -/

inductive Make where
  | create (numBits : ℕ)
  | clone
  | invert
  | subArray (begin : ℕ) (len : ℤ)

namespace Make

/-- The error number and the new array; `create` does not look at the old one. -/
def run (env : Env) (make : Make) (arr : Ptr) : Option (Option Errno × Ptr) :=
  match make with
  | create numBits => some (baCreate env.grant numBits)
  | clone => (baGetClone env.grant arr).map fun made => (none, made)
  | invert => baGetInvert env.grant arr
  | subArray begin len => (baGetSubArray env.grant arr begin len).map fun made => (none, made)

/-- The new array when its memory is granted. -/
def result : Make → Option (List Bool) → Option (List Bool)
  | create n, _ => if n = 0 then none else some (List.replicate n false)
  | clone, l => l
  | invert, l => l.map (List.map not)
  | subArray begin len, l =>
      l.bind fun l => (checkRange l begin len).map fun count => (l.drop begin).take count

def errno : Make → Option (List Bool) → Option Errno
  | create n, _ => if n = 0 then some .einval else none
  | invert, none => some .einval
  | _, _ => none

/-- A part is plain and does not overrun. -/
def Meets (l : Option (List Bool)) : Make → Prop
  | subArray begin len => ∀ bits ∈ l, Plain bits begin len ∧
      ∀ count, checkRange bits begin len = some count →
        ¬ (Spills begin count ∧ (baBits2Bytes count % 8 = 0 ∨
          baBits2Bytes (begin + count) = 8 * baGetSizeArrayIn8Byte bits.length))
  | _ => True

end Make

/-- The new array is what it should be, and is there when its memory is granted. -/
def Makes (env : Env) (make : Make) (arr : Ptr) (reply : Option (Option Errno × Ptr)) : Prop :=
  ∃ made, reply = some (make.errno (arr.map bits), made) ∧
    made.map bits = (make.result (arr.map bits)).filter fun l => env.creates l.length

theorem bits_create {grant : ℕ → Bool} {n : ℕ} {made : BinArray}
    (h : (baCreate grant n).2 = some made) : bits made = List.replicate n false := by
  have hrep := baCreate_represents h
  apply bits_eq
  · rw [List.length_replicate, hrep.numBits]
  · intro i hi
    rw [List.length_replicate] at hi
    rw [List.getElem_replicate]
    exact hrep.bits ⟨i, hi⟩

theorem baCreate_isSome (env : Env) {n : ℕ} (hn : n ≠ 0) :
    (baCreate env.grant n).2.isSome = env.creates n := by
  unfold baCreate Env.creates
  rw [dif_neg hn]
  split_ifs with hheader hbuf
  · simp [hheader]
  · simp [hheader, hbuf]
  · simp [hbuf]

/-- A clone has the same bits, and is there when its memory is granted. -/
theorem baGetClone_bits (grant : ℕ → Bool) (arr : BinArray) : ∃ made,
    baGetClone grant (some arr) = some made ∧
      made.map bits = if (baCreate grant arr.numBits).2.isSome then some (bits arr) else none := by
  cases hmade : (baCreate grant arr.numBits).2 with
  | none => exact ⟨none, by simp only [baGetClone, baCheckPtr_some, hmade], rfl⟩
  | some made =>
      have hlen := baCreate_numBits hmade
      have hin : 0 + 8 * baGetSizeArrayIn8Byte made.numBits ≤
          8 * baGetSizeArrayIn8Byte arr.numBits := by rw [hlen, Nat.zero_add]
      obtain ⟨buf, hbuf⟩ : ∃ buf, copy made.buf arr.buf 0
          (8 * baGetSizeArrayIn8Byte made.numBits) = some buf := ⟨_, dif_pos ⟨le_rfl, hin⟩⟩
      refine ⟨some { made with buf }, ?_, congrArg some (bits_eq ?_ fun i hi => ?_)⟩
      · simp only [baGetClone, baCheckPtr_some, hmade, hbuf, Option.map_some]
      · rw [length_bits]
        exact hlen
      · have hwords := (baGetSizeArrayIn8Byte_bounds made.numBits).1
        rw [length_bits] at hi
        rw [getElem_bits]
        refine (bit_copy hbuf (by omega)).trans ?_
        rw [Nat.mul_zero, Nat.zero_add]
        rfl

section
variable {arr : Ptr} (env : Env)

theorem makes_create (n : ℕ) : Makes env (.create n) arr (some (baCreate env.grant n)) := by
  by_cases hzero : n = 0
  · exact ⟨none, by simp [baCreate, hzero, Make.errno], by simp [Make.result, hzero]⟩
  · refine ⟨(baCreate env.grant n).2, ?_, ?_⟩
    · rw [Make.errno, if_neg hzero, ← baCreate_errno env.grant (Nat.pos_of_ne_zero hzero)]
    · have hgrant := baCreate_isSome env hzero
      rw [Make.result, if_neg hzero, Option.filter_some, List.length_replicate, ← hgrant]
      cases hmade : (baCreate env.grant n).2 with
      | none => rfl
      | some made => exact congrArg some (bits_create hmade)

theorem makes_clone : Makes env .clone arr (Make.run env .clone arr) := by
  cases arr with
  | none => exact ⟨none, rfl, rfl⟩
  | some a =>
      obtain ⟨made, hreply, hbits⟩ := baGetClone_bits env.grant a
      refine ⟨made, by rw [Make.run, hreply]; rfl, ?_⟩
      rw [baCreate_isSome env a.numBits_pos.ne'] at hbits
      rw [Make.result, Option.map_some, Option.filter_some, length_bits, hbits]

theorem makes_invert : Makes env .invert arr (Make.run env .invert arr) := by
  cases arr with
  | none => exact ⟨none, rfl, rfl⟩
  | some a =>
      obtain ⟨made, hreply, hgrant, hbits⟩ := baGetInvert_spec env.grant a
      refine ⟨made, hreply, ?_⟩
      rw [baCreate_isSome env a.numBits_pos.ne', ← Bool.eq_iff_iff] at hgrant
      rw [Make.result, Option.map_some, Option.map_some, Option.filter_some, List.length_map,
        length_bits, ← hgrant]
      cases made with
      | none => rfl
      | some inv =>
          obtain ⟨hlen, hneg⟩ := hbits inv rfl
          refine congrArg some (bits_eq ?_ fun i hi => ?_)
          · rw [List.length_map, length_bits, hlen]
          · rw [List.length_map, length_bits] at hi
            rw [List.getElem_map, getElem_bits, hneg i hi]

theorem makes_subArray {begin : ℕ} {len : ℤ}
    (h : (Make.subArray begin len).Meets (arr.map bits)) :
    Makes env (.subArray begin len) arr (Make.run env (.subArray begin len) arr) := by
  cases arr with
  | none => exact ⟨none, rfl, rfl⟩
  | some a =>
      obtain ⟨hplain, hover⟩ := h (bits a) rfl
      rcases hplain.cases with ⟨hcheck, hnone⟩ | ⟨count, hcheck, hcovers⟩
      · refine ⟨none, by simp only [Make.run, baGetSubArray, hnone, Option.map_some]; rfl, ?_⟩
        simp only [Make.result, Option.map_some, Option.bind_some, hcheck, Option.map_none,
          Option.filter_none]
      · have hinside := hcovers.inside
        have hpart : (((bits a).drop begin).take count).length = count := by
          rw [List.length_take, List.length_drop, length_bits]
          omega
        have hgrant := baCreate_isSome env hcovers.pos.ne'
        have hresult : ((Make.subArray begin len).result ((some a).map bits)).filter
            (fun l => env.creates l.length) = if (baCreate env.grant count).2.isSome then
              some (((bits a).drop begin).take count) else none := by
          simp only [Make.result, Option.map_some, Option.bind_some, hcheck, Option.filter_some,
            hpart, hgrant]
        rw [Makes, hresult]
        cases hmade : (baCreate env.grant count).2 with
        | none =>
            refine ⟨none, ?_, rfl⟩
            simp only [Make.run, baGetSubArray, hcovers.check, hmade, Option.map_some]
            rfl
        | some clone =>
            have hfree := hover count hcheck
            rw [length_bits] at hfree
            obtain ⟨sub, hsub, hlen, hbits⟩ := subArray_of_not_overruns hcovers hmade hfree
            refine ⟨some sub, by rw [Make.run, hsub]; rfl, ?_⟩
            refine congrArg some (bits_eq (hlen.trans hpart.symm) fun i hi => ?_)
            rw [hpart] at hi
            rw [hbits i hi, List.getElem_take, List.getElem_drop, getElem_bits]

theorem run_makes {make : Make} (h : make.Meets (arr.map bits)) :
    Makes env make arr (make.run env arr) := by
  cases make with
  | create n => exact makes_create env n
  | clone => exact makes_clone env
  | invert => exact makes_invert env
  | subArray begin len => exact makes_subArray env h

end

/-! ## Programs -/

/-- The pointers of a program by name, each with an array of its own. -/
abbrev Store := ℕ → Ptr

def view (s : Store) : ℕ → Option (List Bool) := fun x => (s x).map bits

inductive Op where
  | edit (x : ℕ) (edit : Edit)
  | find (x begin : ℕ) (len : ℤ) (val : Bool)
  | make (x y : ℕ) (make : Make)
  | destroy (x : ℕ)

namespace Op

/-- `baDestroy` reads through its pointer without a check. -/
def run (call : Env × Op) (s : Store) : Option (Answer × Store) :=
  match call with
  | (env, edit x e) =>
      (e.run env (s x)).map fun r => ((r.value, r.errno), Function.update s x r.arr)
  | (_, find x begin len val) =>
      (if val then baFindOne (s x) begin len else baFindZero (s x) begin len).map
        fun r => ((r, none), s)
  | (env, make x y m) =>
      (m.run env (s y)).map fun r => ((0, r.1), Function.update s x r.2)
  | (_, destroy x) => (s x).map fun _ => ((0, none), Function.update s x none)

/-- The same on lists of bits, with what the allocator grants. -/
def spec (w : ℕ → Option (List Bool)) (call : Env × Op) (r : Answer)
    (w' : ℕ → Option (List Bool)) : Prop :=
  match call.2 with
  | edit x e =>
      match w x with
      | none => r = e.refusal ∧ w' = w
      | some l => ∃ l', e.spec call.1 l r l' ∧ w' = Function.update w x (some l')
  | find x begin len val =>
      r.2 = none ∧ w' = w ∧
        match w x with
        | none => r.1 = -1
        | some l => Finds l begin len val r.1
  | make x y m =>
      r = (0, m.errno (w y)) ∧
        w' = Function.update w x ((m.result (w y)).filter fun l => call.1.creates l.length)
  | destroy x => r = (0, none) ∧ w' = Function.update w x none

def Meets (w : ℕ → Option (List Bool)) (call : Env × Op) : Prop :=
  match call.2 with
  | edit x e => ∀ l ∈ w x, e.Meets l
  | find x begin len _ => ∀ l ∈ w x, Plain l begin len ∧ l.length ≤ 2 ^ 32
  | make _ y m => m.Meets (w y)
  | destroy x => w x ≠ none

end Op

theorem view_update (s : Store) (x : ℕ) (arr : Ptr) :
    view (Function.update s x arr) = Function.update (view s) x (arr.map bits) := by
  funext y
  by_cases hy : y = x
  · subst hy
    simp [view]
  · simp [view, hy]

theorem run_refines : Refines Op.run Op.spec Op.Meets (fun _ => True) view := by
  rintro ⟨env, op⟩ s - hmeets
  cases op with
  | edit x e =>
      cases hx : s x with
      | none =>
          refine ⟨e.refusal, s, ?_, trivial, ?_⟩
          · have hsame : Function.update s x none = s := by rw [← hx, Function.update_eq_self]
            simp only [Op.run, hx, run_null env e, Option.map_some, hsame]
          · simp only [Op.spec, view, hx, Option.map_none, and_self]
      | some arr =>
          have hview : view s x = some (bits arr) := by rw [view, hx, Option.map_some]
          obtain ⟨r, arr', hreply, hspec⟩ := run_edits env (hmeets _ hview)
          refine ⟨r, Function.update s x (some arr'), ?_, trivial, ?_⟩
          · simp only [Op.run, hx, hreply, Option.map_some]
          · simp only [Op.spec, hview]
            exact ⟨bits arr', hspec, view_update s x (some arr')⟩
  | find x begin len val =>
      cases hx : s x with
      | none =>
          refine ⟨(-1, none), s, ?_, trivial, rfl, rfl, ?_⟩
          · cases val <;> simp only [Op.run, hx] <;> rfl
          · simp only [view, hx, Option.map_none]
      | some arr =>
          have hview : view s x = some (bits arr) := by rw [view, hx, Option.map_some]
          obtain ⟨hplain, hsmall⟩ := hmeets _ hview
          rw [length_bits] at hsmall
          have hfind : ∃ r, (if val then baFindOne (some arr) begin len
              else baFindZero (some arr) begin len) = some r ∧
              Finds (bits arr) begin len val r := by
            cases val with
            | true => exact find_finds oneFinder_searches hplain hsmall
            | false => exact find_finds zeroFinder_searches hplain hsmall
          obtain ⟨r, hreply, hfinds⟩ := hfind
          refine ⟨(r, none), s, ?_, trivial, rfl, rfl, ?_⟩
          · simp only [Op.run, hx, hreply, Option.map_some]
          · simp only [hview]
            exact hfinds
  | make x y m =>
      obtain ⟨made, hreply, hresult⟩ := run_makes env hmeets
      refine ⟨(0, m.errno (view s y)), Function.update s x made, ?_, trivial, rfl, ?_⟩
      · simp only [Op.run, hreply, Option.map_some]
        rfl
      · rw [view_update]
        exact congrArg _ hresult
  | destroy x =>
      obtain ⟨l, hl⟩ := Option.ne_none_iff_exists'.mp hmeets
      obtain ⟨arr, harr, -⟩ := Option.map_eq_some_iff.mp hl
      refine ⟨(0, none), Function.update s x none, ?_, trivial, rfl, view_update s x none⟩
      simp only [Op.run, harr, Option.map_some]

/-- Every program of array calls that may be made on lists of bits runs without
leaving a buffer, and its answers and arrays are what the same calls give on
the lists. -/
theorem programs_refine {calls : List (Env × Op)} {s : Store}
    (h : Permitted Op.spec Op.Meets (view s) calls) :
    ∃ rs t, execute Op.run calls s = some (rs, t) ∧ Behaves Op.spec (view s) calls rs (view t) := by
  obtain ⟨rs, t, hrun, -, hbehaves⟩ := run_refines.execute trivial h
  exact ⟨rs, t, hrun, hbehaves⟩

/-- Five bits, one of them set, a search for it, and the end of the array. -/
def setAndFind : List (Env × Op) :=
  let env : Env := ⟨fun _ => true, fun _ => 0⟩
  [(env, .make 0 0 (.create 5)), (env, .edit 0 (.call (.setOne 3))), (env, .find 0 0 (-1) true),
    (env, .destroy 0)]

theorem setAndFind_permitted : Permitted Op.spec Op.Meets (view fun _ => none) setAndFind := by
  refine ⟨trivial, fun r w hmade => ?_⟩
  have hfive : w 0 = some (List.replicate 5 false) := by
    rw [hmade.2, Function.update_self]
    decide
  refine ⟨fun l hl => ?_, fun r' w' hset => ?_⟩
  · obtain rfl := Option.some.inj (hfive.symm.trans hl)
    exact fun h => absurd h (by decide)
  · have hbit : w' 0 = some [false, false, false, true, false] := by
      simp only [Op.spec, hfive] at hset
      obtain ⟨l', hl', rfl⟩ := hset
      rw [Function.update_self, hl'.2]
      rfl
    refine ⟨fun l hl => ?_, fun r'' w'' hfound => ⟨?_, fun _ _ _ => trivial⟩⟩
    · obtain rfl := Option.some.inj (hbit.symm.trans hl)
      unfold Plain
      decide
    · change w'' 0 ≠ none
      rw [hfound.2.1, hbit]
      exact Option.some_ne_none _

theorem setAndFind_refines : ∃ rs t, execute Op.run setAndFind (fun _ => none) = some (rs, t) ∧
    Behaves Op.spec (view fun _ => none) setAndFind rs (view t) :=
  programs_refine setAndFind_permitted

end TaskLunev.BinArrayStore
