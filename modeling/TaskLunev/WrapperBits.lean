import TaskLunev.BinArrayBits
import TaskLunev.WrapperOwnership

/-!
# The bits behind an object

Where every living object owns an array of its own, each object is worth a list
of bits. A write through one object is seen through no other, an object that
goes leaves the others theirs, and `logicAnd` is right for an object with itself.
-/
namespace TaskLunev.WrapperBits
open BinArrayModel BinArrayVector BinArrayBits ExceptRules WrapperModel WrapperOwnership

/-! ## What an object is worth -/

/-- The bits of the array a handle leads to. -/
def contents (heap : Heap) (h : Handle) : Option (List Bool) :=
  match deref heap h with
  | .ok arr => some (bits arr)
  | .error _ => none

def values (w : World) (x : Name) : Option (List Bool) := (w.arr x).bind (contents w.heap)

section
variable {heap : Heap} {h g : Handle} {a : ℕ} {arr : BinArray}

theorem contents_eq (hd : deref heap h = .ok arr) : contents heap h = some (bits arr) := by
  rw [contents, hd]

theorem contents_isSome_iff : (contents heap h).isSome ↔ h ∈ live heap := by
  unfold contents
  cases hd : deref heap h with
  | ok arr => exact ⟨fun _ => ⟨arr, hd⟩, fun _ => rfl⟩
  | error e =>
      constructor
      · intro hfalse
        cases hfalse
      · rintro ⟨arr, harr⟩
        rw [hd] at harr
        cases harr

theorem deref_array (ha : heap[a]? = some (some arr)) : deref heap (.array a) = .ok arr := by
  simp only [deref, ha]

/-- Where two heaps agree a handle is worth the same. -/
theorem contents_congr {heap' : Heap} (hsame : ∀ a, h = .array a → heap'[a]? = heap[a]?) :
    contents heap' h = contents heap h := by
  cases h with
  | unset => rfl
  | null => rfl
  | array a => simp only [contents, deref, hsame a rfl]

theorem contents_append (hl : h ∈ live heap) (made : Ptr) :
    contents (heap ++ [made]) h = contents heap h := by
  obtain ⟨a, ha, rfl⟩ := exists_array_of_live hl
  apply contents_congr
  rintro b ⟨⟩
  exact List.getElem?_append_left ha

theorem contents_putArray_of_ne (hne : h ≠ g) (made : Ptr) :
    contents (World.putArray heap g made) h = contents heap h := by
  apply contents_congr
  rintro a rfl
  cases g with
  | unset => rfl
  | null => rfl
  | array b => exact List.getElem?_set_ne fun hab => hne (congrArg _ hab.symm)

theorem contents_putArray_self (hl : h ∈ live heap) :
    contents (World.putArray heap h (some arr)) h = some (bits arr) := by
  obtain ⟨a, ha, rfl⟩ := exists_array_of_live hl
  exact contents_eq (deref_array (List.getElem?_set_self ha))

theorem live_putArray (hl : h ∈ live heap) :
    live (World.putArray heap h (some arr)) = live heap := by
  ext g
  rw [← contents_isSome_iff, ← contents_isSome_iff]
  by_cases hgh : g = h
  · rw [hgh, contents_putArray_self hl]
    exact iff_of_true rfl (contents_isSome_iff.mpr hl)
  · rw [contents_putArray_of_ne hgh]

@[simp] theorem length_putArray (made : Ptr) :
    (World.putArray heap h made).length = heap.length := by
  cases h <;> simp [World.putArray]

theorem freeHandle_eq (h : Handle) : freeHandle heap h = World.putArray heap h none := by
  cases h <;> rfl

end

section
variable {w w' : World} {x y : Name}

theorem values_of_none (hx : w.arr x = none) : values w x = none := by rw [values, hx]; rfl

/-- A living object has an array. -/
theorem exists_values (hs : Sole w) (hx : w.arr x ≠ none) :
    ∃ arr, deref w.heap (w.handle x) = .ok arr ∧ values w x = some (bits arr) := by
  obtain ⟨hheld, arr, harr⟩ := hs.handle_live hx
  refine ⟨arr, harr, ?_⟩
  rw [values, hheld, Option.bind_some, contents_eq harr]

theorem values_eq_none_iff (hs : Sole w) : values w x = none ↔ w.arr x = none := by
  constructor
  · intro hnone
    by_contra hx
    obtain ⟨arr, -, hvalue⟩ := exists_values hs hx
    rw [hnone] at hvalue
    cases hvalue
  · exact values_of_none

/-- A new object has the bits of the array it was given. -/
theorem values_initialise (hs : Sole w) {made : Ptr} (h : w.initialise x made = some w') :
    values w' = Function.update (values w) x (made.map bits) := by
  cases made with
  | none => exact absurd h (by simp [World.initialise, allocate])
  | some arr =>
      obtain rfl := Option.some.inj h
      funext z
      by_cases hz : z = x
      · subst hz
        have hnew : (w.heap ++ [some arr])[w.heap.length]? = some (some arr) := by simp
        simp only [values, Function.update_self, Option.bind_some, Option.map_some]
        exact contents_eq (deref_array hnew)
      · rw [Function.update_of_ne hz]
        simp only [values, Function.update_of_ne hz]
        cases harr : w.arr z with
        | none => rfl
        | some h => exact contents_append (hs.owns.live_of_held z h harr) (some arr)

theorem values_swap : values (w.swap x y) = values w ∘ Equiv.swap y x := by
  funext z
  rw [values, swap_arr]
  rfl

/-- An object that goes leaves every other one its array. -/
theorem values_destroy (hs : Sole w) (hx : w.arr x ≠ none) (h : w.destroy x = .ok w') :
    values w' = Function.update (values w) x none := by
  obtain ⟨hl, rfl⟩ := destroy_eq h
  funext z
  by_cases hz : z = x
  · subst hz
    simp only [values, Function.update_self, Option.bind_none]
  · rw [Function.update_of_ne hz]
    simp only [values, Function.update_of_ne hz]
    cases harr : w.arr z with
    | none => rfl
    | some h =>
        rw [Option.bind_some, freeHandle_eq]
        apply contents_putArray_of_ne
        rintro rfl
        exact hz (hs.owns.unique z x _ harr (hs.handle_live hx).1)

/-! ## Bits -/

theorem argument_eq {h : Handle} {arr : BinArray} {heap : Heap} (hd : deref heap h = .ok arr) :
    World.argument heap h = .ok (some arr) := by
  cases h with
  | null => cases hd
  | unset => cases hd
  | array a => exact bind_eq_ok.mpr ⟨arr, hd, rfl⟩

variable {l : List Bool} {i : ℕ}

/-- The object has an array with these bits. -/
theorem exists_array (hs : Sole w) (hv : values w x = some l) :
    ∃ arr, deref w.heap (w.handle x) = .ok arr ∧ bits arr = l ∧ w.arr x = some (w.handle x) ∧
      w.handle x ∈ live w.heap := by
  have hx : w.arr x ≠ none := fun hnone => by
    rw [values_of_none hnone] at hv
    cases hv
  obtain ⟨arr, harr, hvalue⟩ := exists_values hs hx
  exact ⟨arr, harr, Option.some.inj (hvalue.symm.trans hv), hs.handle_live hx⟩

theorem getValue_eq (hs : Sole w) (hv : values w x = some l) (hi : i ≠ l.length) :
    w.getValue x i = .ok (bitValue l i) := by
  obtain ⟨arr, harr, rfl, -⟩ := exists_array hs hv
  obtain ⟨r, arr', hreply, hspec⟩ := run_call (c := .getValue i) (by rwa [length_bits] at hi)
  change baGetValue (some arr) i = _ at hreply
  refine bind_eq_ok.mpr ⟨some arr, argument_eq harr, ?_⟩
  simp only [hreply, spec_getValue hspec]
  rfl

/-- A write changes the object and no other. -/
theorem setValue_eq (hs : Sole w) (hv : values w x = some l) (hi : i ≠ l.length) (val : Bool) :
    ∃ w', w.setValue x i val = .ok w' ∧ Sole w' ∧ w'.arr = w.arr ∧
      values w' = Function.update (values w) x (some (l.set i val)) := by
  obtain ⟨arr, harr, rfl, hheld, hl⟩ := exists_array hs hv
  obtain ⟨r, arr', hreply, hspec⟩ := run_call (c := .setValue i val) (by rwa [length_bits] at hi)
  change baSetValue (some arr) i val = _ at hreply
  refine ⟨{ w with heap := World.putArray w.heap (w.handle x) (some arr') },
    bind_eq_ok.mpr ⟨some arr, argument_eq harr, by simp only [hreply]; rfl⟩, ?_, rfl, ?_⟩
  · have hlive : live (World.putArray w.heap (w.handle x) (some arr')) = live w.heap :=
      live_putArray hl
    refine ⟨hlive ▸ hs.owns, fun h => ?_, hs.nodup⟩
    rw [hlive, hs.destroyed_iff, length_putArray]
  · funext z
    by_cases hz : z = x
    · subst hz
      rw [Function.update_self, values, hheld, Option.bind_some, contents_putArray_self hl,
        spec_setValue hspec]
    · rw [Function.update_of_ne hz, values, values]
      change (w.arr z).bind _ = _
      cases harr : w.arr z with
      | none => rfl
      | some h =>
          refine contents_putArray_of_ne (fun he => hz ?_) _
          exact hs.owns.unique z x _ (he ▸ harr) hheld

/-! ## Conjunction -/

/-- The bits below `n` of the one list and-ed with those of the other. -/
def andBelow (n : ℕ) (l m : List Bool) : List Bool :=
  l.mapIdx fun i b => if i < n then b && m.getD i false else b

theorem andBelow_succ {n : ℕ} {l m m' : List Bool} (hn : n < l.length)
    (hm : ∀ i < n, m'.getD i false = m.getD i false) :
    andBelow n (l.set n (l[n] && m.getD n false)) m' = andBelow (n + 1) l m := by
  apply List.ext_getElem
  · simp [andBelow]
  · intro i _ _
    simp only [andBelow, List.getElem_mapIdx, List.getElem_set]
    rcases Nat.lt_trichotomy i n with hlt | rfl | hgt
    · rw [if_pos hlt, if_neg (by omega), if_pos (by omega), hm i hlt]
    · rw [if_neg (by omega), if_pos rfl, if_pos (by omega)]
    · rw [if_neg (by omega), if_neg (by omega), if_neg (by omega)]

theorem andBelow_length {l m : List Bool} (hlen : l.length = m.length) :
    andBelow l.length l m = List.zipWith and l m := by
  apply List.ext_getElem
  · simp [andBelow, hlen]
  · intro i hi _
    have hil : i < l.length := by simpa [andBelow] using hi
    simp only [andBelow, List.getElem_mapIdx, if_pos hil, List.getElem_zipWith]
    rw [List.getD_eq_getElem _ _ (by omega)]

/-- One pass of the loop; the other object may be the same one. -/
theorem logicAndFrom_succ {n : ℕ} {m : List Bool} (hs : Sole w) (hx : values w x = some l)
    (hy : values w y = some m) (hlen : l.length = m.length) (hn : n < l.length) :
    ∃ w', World.logicAndFrom x y (n + 1) w = World.logicAndFrom x y n w' ∧ Sole w' ∧
      w'.arr = w.arr ∧ values w' =
        Function.update (values w) x (some (l.set n (l[n] && m.getD n false))) := by
  have hmine := getValue_eq hs hx hn.ne
  have htheirs := getValue_eq hs hy (i := n) (by omega)
  have hn' : n < m.length := by omega
  simp only [bitValue, List.getElem?_eq_getElem hn, List.getElem?_eq_getElem hn'] at hmine htheirs
  obtain ⟨w', hset, hrest⟩ := setValue_eq hs hx hn.ne (l[n] && m.getD n false)
  refine ⟨w', ?_, hrest⟩
  rw [List.getD_eq_getElem _ _ hn'] at hset
  rw [World.logicAndFrom, hmine]
  cases hbit : l[n] with
  | false =>
      rw [hbit, Bool.false_and] at hset
      change (w.setValue x n false >>= _) = _
      rw [hset]
      rfl
  | true =>
      rw [hbit, Bool.true_and] at hset
      change (w.getValue y n >>= _) = _
      rw [htheirs]
      cases htbit : m[n] with
      | false =>
          rw [htbit] at hset
          change (w.setValue x n false >>= _) = _
          rw [hset]
          rfl
      | true =>
          rw [htbit] at hset
          change (w.setValue x n true >>= _) = _
          rw [hset]
          rfl

theorem logicAndFrom_eq {n : ℕ} {m : List Bool} (hs : Sole w) (hx : values w x = some l)
    (hy : values w y = some m) (hlen : l.length = m.length) (hn : n ≤ l.length) :
    ∃ w', World.logicAndFrom x y n w = .ok (some 0, w') ∧ Sole w' ∧ w'.arr = w.arr ∧
      values w' = Function.update (values w) x (some (andBelow n l m)) := by
  induction n generalizing w l m with
  | zero =>
      have hsame : andBelow 0 l m = l := by
        apply List.ext_getElem
        · simp [andBelow]
        · intro i _ _
          simp [andBelow]
      refine ⟨w, rfl, hs, rfl, ?_⟩
      rw [hsame, ← hx, Function.update_eq_self]
  | succ n ih =>
      obtain ⟨w₁, hpass, hs₁, harr₁, hvalues⟩ := logicAndFrom_succ hs hx hy hlen (n := n) (by omega)
      have hx₁ : values w₁ x = some (l.set n (l[n] && m.getD n false)) := by
        rw [hvalues, Function.update_self]
      obtain ⟨m₁, hy₁, hlen₁, hbelow⟩ : ∃ m₁, values w₁ y = some m₁ ∧ l.length = m₁.length ∧
          ∀ i < n, m₁.getD i false = m.getD i false := by
        by_cases hxy : y = x
        · subst hxy
          obtain rfl : l = m := Option.some.inj (hx.symm.trans hy)
          refine ⟨_, hx₁, by rw [List.length_set], fun i hi => ?_⟩
          simp only [List.getD_eq_getElem?_getD, List.getElem?_set_ne hi.ne']
        · refine ⟨m, ?_, hlen, fun _ _ => rfl⟩
          rw [hvalues, Function.update_of_ne hxy, hy]
      obtain ⟨w', hloop, hs', harr', hvalues'⟩ :=
        ih hs₁ hx₁ hy₁ (by rwa [List.length_set]) (by rw [List.length_set]; omega)
      refine ⟨w', hpass.trans hloop, hs', harr'.trans harr₁, ?_⟩
      rw [hvalues', hvalues, Function.update_idem, andBelow_succ (by omega) hbelow]

end

end TaskLunev.WrapperBits
