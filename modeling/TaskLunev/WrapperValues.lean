import TaskLunev.BinArrayStore
import TaskLunev.WrapperBits

/-!
# Objects as values

As long as no object is move-constructed a program's objects are lists of bits
that are copied, exchanged and changed one by one, whatever the heap looks like.
-/
namespace TaskLunev.WrapperValues
open BinArrayModel BinArrayBits ExceptRules ProgramRefinement ResourceOwnership
open WrapperModel WrapperOwnership WrapperBits
open BinArrayStore (bits_create baGetClone_bits)

/-! ## Programs -/

/-- The operations on objects, those on their bits, and `logicAnd`. -/
inductive Call where
  | object (op : Op)
  | get (x numBit : ℕ)
  | proxy (x numBit : ℕ)
  | put (x numBit : ℕ) (val : Bool)
  | logicAnd (x other : ℕ)

namespace Call

/-- The answer and the world a call leaves; no answer when it throws, and `none`
for a fault. A constructor that throws shows by its object. -/
def run (call : Call) (w : World) : Option (Option ℤ × World) :=
  match call with
  | object (.getNumBits x) => (w.getNumBits (.obj x)).toOption.map fun n => (some (n : ℤ), w)
  | object op => (op.run w).toOption.map fun w' => (some 0, w')
  | get x numBit => (w.getValue (.obj x) numBit).toOption.map fun value =>
      (if value ≠ -1 then some value else none, w)
  | proxy x numBit => (w.getValue (.obj x) numBit).toOption.map fun value =>
      (some (if value ≠ 0 then 1 else 0), w)
  | put x numBit val => (w.setValue (.obj x) numBit val).toOption.map fun w' => (some 0, w')
  | logicAnd x other => (w.logicAnd (.obj x) (.obj other)).toOption

/-- The allocator serves an array of `n` bits, of which there is at least one. -/
def Granted (grant : ℕ → Bool) (n : ℕ) : Prop := (baCreate grant n).2.isSome

instance (grant : ℕ → Bool) (n : ℕ) : Decidable (Granted grant n) :=
  inferInstanceAs (Decidable (_ = true))

/-- The same on a list of bits for each object. -/
def spec (v : ℕ → Option (List Bool)) (call : Call) (r : Option ℤ)
    (v' : ℕ → Option (List Bool)) : Prop :=
  match call with
  | object (.construct x n grant) => r = some 0 ∧ v' =
      if Granted grant n then Function.update v x (some (List.replicate n false)) else v
  | object (.copyConstruct x y grant) | object (.assign x y grant) => r = some 0 ∧ ∀ l ∈ v y,
      v' = if Granted grant l.length then Function.update v x (some l) else v
  | object (.swap x y) | object (.assignRvalue x y) => r = some 0 ∧ v' = v ∘ Equiv.swap y x
  | object (.getNumBits x) => (∀ l ∈ v x, r = some (l.length : ℤ)) ∧ v' = v
  | object (.destroy x) => r = some 0 ∧ v' = Function.update v x none
  | object (.moveConstruct ..) | object (.assignMoved ..) => False
  | get x i => (∀ l ∈ v x, r = l[i]?.map fun bit => (bit.toNat : ℤ)) ∧ v' = v
  | proxy x i => (∀ l ∈ v x, r = some (l.getD i true).toNat) ∧ v' = v
  | put x i val => r = some 0 ∧ v' = Function.update v x ((v x).map fun l => l.set i val)
  | logicAnd x y => ∀ l ∈ v x, ∀ m ∈ v y,
      if l.length = m.length then r = some 0 ∧ v' = Function.update v x (some (List.zipWith and l m))
      else r = none ∧ v' = v

/-- New names are constructed, living objects used, none is moved from, and no
index is one past the end. -/
def Meets (v : ℕ → Option (List Bool)) (call : Call) : Prop :=
  match call with
  | object (.construct x _ _) => v x = none
  | object (.copyConstruct x y _) => v x = none ∧ v y ≠ none
  | object (.swap x y) | object (.assign x y _) | object (.assignRvalue x y) =>
      v x ≠ none ∧ v y ≠ none
  | object (.getNumBits x) | object (.destroy x) => v x ≠ none
  | object (.moveConstruct ..) | object (.assignMoved ..) => False
  | get x i | proxy x i | put x i _ => v x ≠ none ∧ ∀ l ∈ v x, i ≠ l.length
  | logicAnd x y => v x ≠ none ∧ v y ≠ none

end Call

/-- The objects a program can name. -/
def view (w : World) : ℕ → Option (List Bool) := fun x => values w (.obj x)

structure Tidy (w : World) : Prop where
  sole : Sole w
  param : w.arr .param = none

/-- What a call is for, with the world it leaves in order. -/
def Done (call : Call) (w : World) : Prop :=
  ∃ r w', call.run w = some (r, w') ∧ Tidy w' ∧ call.spec (view w) r (view w')

section
variable {w : World}

theorem view_update {x : ℕ} {v : Option (List Bool)} {w' : World}
    (h : values w' = Function.update (values w) (.obj x) v) :
    view w' = Function.update (view w) x v := by
  funext y
  rw [view, h]
  by_cases hy : y = x
  · rw [hy, Function.update_self, Function.update_self]
  · rw [Function.update_of_ne (by simpa using hy), Function.update_of_ne hy, view]

theorem arr_ne_none {x : ℕ} (hx : view w x ≠ none) : w.arr (.obj x) ≠ none :=
  fun hnone => hx (values_of_none hnone)

theorem Tidy.arr_eq_none (h : Tidy w) {x : ℕ} (hx : view w x = none) : w.arr (.obj x) = none :=
  (values_eq_none_iff h.sole).mp hx

theorem construct_done (h : Tidy w) {x n : ℕ} (grant : ℕ → Bool) (hx : view w x = none) :
    Done (.object (.construct x n grant)) w := by
  cases hmade : (baCreate grant n).2 with
  | none =>
      have hrefused : ¬ Call.Granted grant n := by simp [Call.Granted, hmade]
      have hnew : w.construct grant n (.obj x) = none := by rw [World.construct, hmade]; rfl
      refine ⟨some 0, w, by simp only [Call.run, Op.run, hnew]; rfl, h, rfl, ?_⟩
      rw [if_neg hrefused]
  | some made =>
      have hgranted : Call.Granted grant n := by simp [Call.Granted, hmade]
      obtain ⟨w', hnew⟩ : ∃ w', w.construct grant n (.obj x) = some w' := by
        rw [World.construct, hmade]
        exact ⟨_, rfl⟩
      have hvalues := values_initialise h.sole hnew
      rw [hmade, Option.map_some, bits_create hmade] at hvalues
      refine ⟨some 0, w', by simp only [Call.run, Op.run, hnew]; rfl,
        ⟨h.sole.initialise (h.arr_eq_none hx) hnew, ?_⟩, rfl, ?_⟩
      · rw [initialise_of_ne hnew (by simp), h.param]
      · rw [if_pos hgranted]
        exact view_update hvalues

/-- The clone behind a handle has the same bits, if it is there. -/
theorem cloneHandle_bits {heap : Heap} {h : Handle} {arr : BinArray} {grant : ℕ → Bool} {made : Ptr}
    (hd : deref heap h = .ok arr) (hmade : cloneHandle grant heap h = .ok made) :
    made.map bits = if Call.Granted grant arr.numBits then some (bits arr) else none := by
  obtain ⟨a, -, rfl⟩ := exists_array_of_live ⟨arr, hd⟩
  obtain ⟨arr', harr', hclone⟩ := bind_eq_ok.mp hmade
  obtain rfl : arr = arr' := Except.ok.inj (hd.symm.trans harr')
  obtain ⟨clone, hget, hbits⟩ := baGetClone_bits grant arr
  simp only [hget] at hclone
  obtain rfl : clone = made := Except.ok.inj hclone
  exact hbits

/-- A copy is worth what it was copied from, and there when its memory is granted. -/
theorem copyConstruct_values (hs : Sole w) {x y : Name} {l : List Bool} (grant : ℕ → Bool)
    (hx : w.arr x = none) (hy : values w y = some l) :
    ∃ r, w.copyConstruct grant x y = .ok r ∧ (r.isSome ↔ Call.Granted grant l.length) ∧
      ∀ w' ∈ r, Sole w' ∧ values w' = Function.update (values w) x (some l) ∧
        w'.arr x ≠ none ∧ ∀ z, z ≠ x → w'.arr z = w.arr z := by
  obtain ⟨arr, harr, rfl, hheld, -⟩ := exists_array hs hy
  obtain ⟨r, hr, hall⟩ := hs.copyConstruct grant hx (by rw [hheld]; exact Option.some_ne_none _)
  obtain ⟨made, hmade, hinit⟩ := bind_eq_ok.mp hr
  obtain rfl : w.initialise x made = r := Except.ok.inj hinit
  have hbits := cloneHandle_bits harr hmade
  rw [length_bits]
  cases made with
  | none =>
      split_ifs at hbits with hgranted
      · cases hbits
      · refine ⟨none, hr, iff_of_false (by simp) hgranted, fun w' hw' => ?_⟩
        cases hw'
  | some clone =>
      split_ifs at hbits with hgranted
      · obtain ⟨w', hw'⟩ : ∃ w', w.initialise x (some clone) = some w' := ⟨_, rfl⟩
        rw [hw'] at hr hall
        refine ⟨some w', hr, iff_of_true rfl hgranted, ?_⟩
        rintro _ ⟨⟩
        refine ⟨hall w' rfl, ?_, ?_, fun z hz => initialise_of_ne hw' hz⟩
        · rw [values_initialise hs hw', hbits]
        · obtain ⟨arr', rfl⟩ := initialise_eq hw'
          change Function.update w.arr x _ x ≠ none
          rw [Function.update_self]
          exact Option.some_ne_none _
      · cases hbits

theorem copyConstruct_done (h : Tidy w) {x y : ℕ} {l : List Bool} (grant : ℕ → Bool)
    (hx : view w x = none) (hl : view w y = some l) :
    Done (.object (.copyConstruct x y grant)) w := by
  obtain ⟨r, hr, hserved, hall⟩ := copyConstruct_values h.sole grant (h.arr_eq_none hx) hl
  have hsame : ∀ l' ∈ view w y, l' = l := fun l' hl' => Option.some.inj (hl'.symm.trans hl)
  cases r with
  | none =>
      refine ⟨some 0, w, by simp only [Call.run, Op.run, hr]; rfl, h, rfl, fun l' hl' => ?_⟩
      rw [hsame l' hl', if_neg (fun hgranted => by simpa using hserved.mpr hgranted)]
  | some w' =>
      obtain ⟨hs', hvalues, -, hother⟩ := hall w' rfl
      refine ⟨some 0, w', by simp only [Call.run, Op.run, hr]; rfl, ⟨hs', ?_⟩, rfl,
        fun l' hl' => ?_⟩
      · rw [hother _ (by simp), h.param]
      · rw [hsame l' hl', if_pos (hserved.mp rfl)]
        exact view_update hvalues

theorem swap_done (h : Tidy w) {x y : ℕ} :
    Tidy (w.swap (.obj x) (.obj y)) ∧
      view (w.swap (.obj x) (.obj y)) = view w ∘ Equiv.swap y x := by
  refine ⟨⟨h.sole.swap, ?_⟩, ?_⟩
  · rw [swap_arr, Function.comp_apply, Equiv.swap_apply_of_ne_of_ne (by simp) (by simp), h.param]
  · funext z
    rw [view, values_swap, Function.comp_apply, Function.comp_apply, view]
    congr 1
    rw [Equiv.swap_apply_def, Equiv.swap_apply_def]
    simp only [Name.obj.injEq]
    split_ifs <;> rfl

/-- The parameter takes the new array in and the old one along. -/
theorem assign_done (h : Tidy w) {x y : ℕ} {l : List Bool} (grant : ℕ → Bool)
    (hx : view w x ≠ none) (hl : view w y = some l) :
    Done (.object (.assign x y grant)) w := by
  obtain ⟨r, hr, hserved, hall⟩ := copyConstruct_values h.sole grant h.param hl
  have hsame : ∀ l' ∈ view w y, l' = l := fun l' hl' => Option.some.inj (hl'.symm.trans hl)
  cases r with
  | none =>
      refine ⟨some 0, w, by simp only [Call.run, Op.run, hr]; rfl, h, rfl, fun l' hl' => ?_⟩
      rw [hsame l' hl', if_neg (fun hgranted => by simpa using hserved.mpr hgranted)]
  | some w₁ =>
      obtain ⟨hs₁, hvalues₁, hparam₁, hother₁⟩ := hall w₁ rfl
      have hx₁ : w₁.arr (.obj x) ≠ none := by
        rw [hother₁ _ (by simp)]
        exact arr_ne_none hx
      have hswapped : (w₁.swap (.obj x) .param).arr .param ≠ none := by
        rwa [swap_arr, Function.comp_apply, Equiv.swap_apply_left]
      obtain ⟨w', hw', hs', harr'⟩ := hs₁.swap.destroy hswapped
      have hrun : (Op.assign x y grant).run w = .ok w' := bind_eq_ok.mpr ⟨some w₁, hr, hw'⟩
      refine ⟨some 0, w', by simp only [Call.run, hrun]; rfl, ⟨hs', ?_⟩, rfl, fun l' hl' => ?_⟩
      · rw [harr', Function.update_self]
      · rw [hsame l' hl', if_pos (hserved.mp rfl)]
        have hvalues := values_destroy hs₁.swap hswapped hw'
        funext z
        rw [view, hvalues, Function.update_of_ne (by simp), values_swap, Function.comp_apply,
          hvalues₁]
        by_cases hz : z = x
        · subst hz
          rw [Equiv.swap_apply_right, Function.update_self, Function.update_self]
        · rw [Equiv.swap_apply_of_ne_of_ne (by simp) (by simpa using hz),
            Function.update_of_ne (by simp), Function.update_of_ne hz, view]

theorem destroy_done (h : Tidy w) {x : ℕ} (hx : view w x ≠ none) :
    Done (.object (.destroy x)) w := by
  obtain ⟨w', hw', hs', harr'⟩ := h.sole.destroy (arr_ne_none hx)
  have hrun : (Op.destroy x).run w = .ok w' := hw'
  refine ⟨some 0, w', by simp only [Call.run, hrun]; rfl, ⟨hs', ?_⟩, rfl, ?_⟩
  · rw [harr', Function.update_of_ne (by simp), h.param]
  · exact view_update (values_destroy h.sole (arr_ne_none hx) hw')

theorem getNumBits_done (h : Tidy w) {x : ℕ} (hx : view w x ≠ none) :
    Done (.object (.getNumBits x)) w := by
  obtain ⟨arr, harr, hvalue⟩ := exists_values h.sole (arr_ne_none hx)
  refine ⟨some arr.numBits, w, ?_, h, fun l hl => ?_, rfl⟩
  · have hget : w.getNumBits (.obj x) = .ok arr.numBits := bind_eq_ok.mpr ⟨arr, harr, rfl⟩
    simp only [Call.run, hget]
    rfl
  · obtain rfl : bits arr = l := Option.some.inj (hvalue.symm.trans hl)
    rw [length_bits]

theorem object_done (h : Tidy w) {op : Op} (hop : (Call.object op).Meets (view w)) :
    Done (.object op) w := by
  cases op with
  | construct x n grant => exact construct_done h grant hop
  | copyConstruct x y grant =>
      obtain ⟨l, hl⟩ := Option.ne_none_iff_exists'.mp hop.2
      exact copyConstruct_done h grant hop.1 hl
  | moveConstruct x y => exact hop.elim
  | swap x y | assignRvalue x y =>
      obtain ⟨htidy, hview⟩ := swap_done h (x := x) (y := y)
      exact ⟨some 0, _, rfl, htidy, rfl, hview⟩
  | assign x y grant =>
      obtain ⟨l, hl⟩ := Option.ne_none_iff_exists'.mp hop.2
      exact assign_done h grant hop.1 hl
  | assignMoved x y => exact hop.elim
  | getNumBits x => exact getNumBits_done h hop
  | destroy x => exact destroy_done h hop

/-- The three ways to a bit. -/
theorem get_done (h : Tidy w) {x i : ℕ} {l : List Bool} (hl : view w x = some l)
    (hi : i ≠ l.length) : Done (.get x i) w := by
  have hget := getValue_eq h.sole hl hi
  refine ⟨_, w, by simp only [Call.run, hget]; rfl, h, fun l' hl' => ?_, rfl⟩
  obtain rfl : l = l' := Option.some.inj (hl.symm.trans hl')
  unfold bitValue
  cases hbit : l[i]? with
  | some bit => cases bit <;> rfl
  | none => rfl

theorem proxy_done (h : Tidy w) {x i : ℕ} {l : List Bool} (hl : view w x = some l)
    (hi : i ≠ l.length) : Done (.proxy x i) w := by
  have hget := getValue_eq h.sole hl hi
  refine ⟨_, w, by simp only [Call.run, hget]; rfl, h, fun l' hl' => ?_, rfl⟩
  obtain rfl : l = l' := Option.some.inj (hl.symm.trans hl')
  unfold bitValue
  rw [List.getD_eq_getElem?_getD]
  cases hbit : l[i]? with
  | some bit => cases bit <;> rfl
  | none => rfl

theorem put_done (h : Tidy w) {x i : ℕ} {l : List Bool} (hl : view w x = some l)
    (hi : i ≠ l.length) (val : Bool) : Done (.put x i val) w := by
  obtain ⟨w', hset, hs', harr', hvalues⟩ := setValue_eq h.sole hl hi val
  refine ⟨some 0, w', by simp only [Call.run, hset]; rfl, ⟨hs', by rw [harr', h.param]⟩, rfl, ?_⟩
  rw [hl]
  exact view_update hvalues

theorem logicAnd_done (h : Tidy w) {x y : ℕ} {l m : List Bool} (hl : view w x = some l)
    (hm : view w y = some m) : Done (.logicAnd x y) w := by
  obtain ⟨arr, harr, hbits, -⟩ := exists_array h.sole hl
  obtain ⟨arr', harr', hbits', -⟩ := exists_array h.sole hm
  have hmine : w.getNumBits (.obj x) = .ok l.length :=
    bind_eq_ok.mpr ⟨arr, harr, by rw [← hbits, length_bits]; rfl⟩
  have htheirs : w.getNumBits (.obj y) = .ok m.length :=
    bind_eq_ok.mpr ⟨arr', harr', by rw [← hbits', length_bits]; rfl⟩
  by_cases hlen : l.length = m.length
  · obtain ⟨w', hloop, hs', hkept, hvalues⟩ := logicAndFrom_eq h.sole hl hm hlen le_rfl
    have hrun : w.logicAnd (.obj x) (.obj y) = .ok (some 0, w') := by
      refine bind_eq_ok.mpr ⟨_, hmine, bind_eq_ok.mpr ⟨_, htheirs, ?_⟩⟩
      rw [if_neg (not_not_intro hlen)]
      exact hloop
    refine ⟨some 0, w', by simp only [Call.run, hrun]; rfl, ⟨hs', by rw [hkept, h.param]⟩,
      fun l' hl' m' hm' => ?_⟩
    · obtain rfl : l = l' := Option.some.inj (hl.symm.trans hl')
      obtain rfl : m = m' := Option.some.inj (hm.symm.trans hm')
      rw [if_pos hlen, ← andBelow_length hlen]
      exact ⟨rfl, view_update hvalues⟩
  · have hrun : w.logicAnd (.obj x) (.obj y) = .ok (none, w) := by
      refine bind_eq_ok.mpr ⟨_, hmine, bind_eq_ok.mpr ⟨_, htheirs, ?_⟩⟩
      rw [if_pos hlen]
      rfl
    refine ⟨none, w, by simp only [Call.run, hrun]; rfl, h, fun l' hl' m' hm' => ?_⟩
    · obtain rfl : l = l' := Option.some.inj (hl.symm.trans hl')
      obtain rfl : m = m' := Option.some.inj (hm.symm.trans hm')
      rw [if_neg hlen]
      exact ⟨rfl, rfl⟩

end

theorem run_refines : Refines Call.run Call.spec Call.Meets Tidy view := by
  intro call w h hmeets
  change Done call w
  cases call with
  | object op => exact object_done h hmeets
  | get x i =>
      obtain ⟨l, hl⟩ := Option.ne_none_iff_exists'.mp hmeets.1
      exact get_done h hl (hmeets.2 l hl)
  | proxy x i =>
      obtain ⟨l, hl⟩ := Option.ne_none_iff_exists'.mp hmeets.1
      exact proxy_done h hl (hmeets.2 l hl)
  | put x i val =>
      obtain ⟨l, hl⟩ := Option.ne_none_iff_exists'.mp hmeets.1
      exact put_done h hl (hmeets.2 l hl) val
  | logicAnd x y =>
      obtain ⟨l, hl⟩ := Option.ne_none_iff_exists'.mp hmeets.1
      obtain ⟨m, hm⟩ := Option.ne_none_iff_exists'.mp hmeets.2
      exact logicAnd_done h hl hm

theorem tidy_empty : Tidy World.empty := ⟨.empty, rfl⟩

/-- A program that moves from no object runs without a fault, and its objects are
independent lists of bits: what it answers and leaves is what the same calls give
on the lists, and each living object is the only owner of its array. -/
theorem objects_are_values {calls : List Call}
    (h : Permitted Call.spec Call.Meets (fun _ => none) calls) :
    ∃ rs w, execute Call.run calls World.empty = some (rs, w) ∧
      Owns w.arr (live w.heap) ∧ Behaves Call.spec (fun _ => none) calls rs (view w) := by
  obtain ⟨rs, w, hrun, htidy, hbehaves⟩ := run_refines.execute tidy_empty h
  exact ⟨rs, w, hrun, htidy.sole.owns, hbehaves⟩

/-- A copy is written to and and-ed with the object it was copied from. -/
def copyAndConjoin : List Call :=
  [.object (.construct 0 2 fun _ => true), .object (.copyConstruct 1 0 fun _ => true),
    .put 1 0 true, .logicAnd 1 0, .get 1 0]

/-- Of the two objects, that are there, the bits are `l` and `m`. -/
structure Pair (v : ℕ → Option (List Bool)) (l m : List Bool) : Prop where
  zero : v 0 = some l
  one : v 1 = some m

theorem copyAndConjoin_permitted :
    Permitted Call.spec Call.Meets (fun _ => none) copyAndConjoin := by
  refine ⟨rfl, fun _ v₁ h₁ => ?_⟩
  have hzero : v₁ 0 = some [false, false] := by
    rw [h₁.2, if_pos (show Call.Granted (fun _ => true) 2 from rfl), Function.update_self]
    rfl
  have hone : v₁ 1 = none := by
    rw [h₁.2, if_pos (show Call.Granted (fun _ => true) 2 from rfl)]
    rfl
  refine ⟨⟨hone, by simp [hzero]⟩, fun _ v₂ h₂ => ?_⟩
  have hpair₂ : Pair v₂ [false, false] [false, false] := by
    rw [h₂.2 _ hzero, if_pos (show Call.Granted (fun _ => true) [false, false].length from rfl)]
    exact ⟨hzero, rfl⟩
  refine ⟨⟨by simp [hpair₂.one], by simp [hpair₂.one]⟩, fun _ v₃ h₃ => ?_⟩
  have hpair₃ : Pair v₃ [false, false] [true, false] := by
    rw [h₃.2, hpair₂.one]
    exact ⟨hpair₂.zero, rfl⟩
  refine ⟨⟨by simp [hpair₃.one], by simp [hpair₃.zero]⟩, fun _ v₄ h₄ => ?_⟩
  have hone₄ : v₄ 1 = some [false, false] := by
    rw [(h₄ _ hpair₃.one _ hpair₃.zero).2]
    rfl
  exact ⟨⟨by simp [hone₄], by simp [hone₄]⟩, fun _ _ _ => trivial⟩

theorem copyAndConjoin_values :
    ∃ rs w, execute Call.run copyAndConjoin World.empty = some (rs, w) ∧
      Owns w.arr (live w.heap) ∧
      Behaves Call.spec (fun _ => none) copyAndConjoin rs (view w) :=
  objects_are_values copyAndConjoin_permitted

end TaskLunev.WrapperValues
