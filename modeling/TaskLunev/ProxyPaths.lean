import TaskLunev.ProxyModel
import Mathlib.Data.List.TakeWhile

/-!
# The paths the first client opens

A path is sent without its terminator, and the client reads every path into the
start of one buffer that it never clears. What stands behind the path is what
earlier paths left there, up to their longest. So a path is opened as it was
sent exactly when none before it was longer.
-/
namespace TaskLunev.ProxyPaths
open ByteMemory ProxyModel

/-! ## C strings -/

/-- The bytes before the first NUL. -/
def cString (bytes : List Byte) : List Byte := bytes.takeWhile fun b => b ≠ 0

/-- What `SendFile` writes of the path: `strlen` bytes of it. -/
def pathMessage (path : List Byte) : List Byte := (path ++ [0]).take (cString (path ++ [0])).length

theorem cString_of_not_mem {s rest : List Byte} (h : 0 ∉ s) : cString (s ++ 0 :: rest) = s := by
  unfold cString
  rw [List.takeWhile_append_of_pos]
  · simp
  · intro b hb
    exact decide_eq_true fun hzero => h (hzero ▸ hb)

/-- The terminator is not sent. -/
theorem pathMessage_eq {path : List Byte} (h : 0 ∉ path) : pathMessage path = path := by
  rw [pathMessage, cString_of_not_mem h, List.take_left]

/-! ## The first client -/

/-- What the calls of one pass answer: the bytes that are there to be read, the
file that is opened, the `splice` calls and the message of the size. `none` is
the answer -1. -/
structure ClientPass where
  read : Option (List Byte)
  opened : Option (List Byte)
  splices : List (Option ℕ)
  written : Bool

/-- What became of a path: the string given to `open`, when the buffer has a NUL,
the bytes moved to the server and the size message. -/
structure Request where
  name : Option (List Byte)
  moved : List Byte
  message : Option ℤ
  deriving DecidableEq, Repr

inductive ClientEnd where
  | waiting
  | returned (code : ℤ)
  deriving DecidableEq, Repr

/-- A `read` into the start of the buffer. -/
def received (nameFile : Memory 256) (bytes : List Byte) : Memory 256 :=
  fun i => bytes.getD i (nameFile i)

def nameOf (nameFile : Memory 256) : Option (List Byte) :=
  if 0 ∈ slice nameFile 0 256 then some (cString (slice nameFile 0 256)) else none

/-- The pass behind its `read`: the bytes moved, the size message and how the
loop ends, if it does. -/
def serve (e : ClientPass) : List Byte × Option ℤ × Option ClientEnd :=
  match e.opened with
  | none => ([], none, some (.returned (-1)))
  | some file =>
    let (moved, ending) := spliceLoop 1280 e.splices file
    match ending with
    | .running => (moved, none, some .waiting)
    | .failed => (moved, none, some (.returned (-1)))
    | .finished =>
      if e.written then (moved, some moved.length, none)
      else (moved, none, some (.returned (-1)))

def clientLoop (nameFile : Memory 256) : List ClientPass → List Request × ClientEnd
  | [] => ([], .waiting)
  | e :: passes =>
    match e.read with
    | none => ([], .returned (-1))
    | some bytes =>
      if bytes = [] then ([], .returned 0)
      else
        let nameFile := received nameFile (bytes.take 256)
        let (moved, message, ending) := serve e
        let request := ⟨nameOf nameFile, moved, message⟩
        match ending with
        | some ending => ([request], ending)
        | none =>
          let (requests, ending) := clientLoop nameFile passes
          (request :: requests, ending)

/-- `StartFirstClient`, from `char nameFile[256] = ""` on. -/
def startFirstClientLoop (passes : List ClientPass) : List Request × ClientEnd :=
  clientLoop (fun _ => 0) passes

/-- The pass opens a file, moves all of it and sends its size. -/
def ClientPass.Served (e : ClientPass) : Prop := (serve e).2.2 = none

instance (e : ClientPass) : Decidable e.Served := inferInstanceAs (Decidable (_ = _))

/-- Each `open` gives the file of the name in the buffer, if there is one. -/
def Opens (files : List Byte → Option (List Byte)) : Memory 256 → List ClientPass → Prop
  | _, [] => True
  | nameFile, e :: passes =>
      ∀ bytes ∈ e.read,
        e.opened = (nameOf (received nameFile (bytes.take 256))).bind files ∧
          Opens files (received nameFile (bytes.take 256)) passes

/-! ## The buffer -/

/-- The buffer has `s`, and zeros behind it. -/
structure Holds (nameFile : Memory 256) (s : List Byte) : Prop where
  bytes : ∀ i : Fin 256, nameFile i = s.getD i 0
  no_nul : 0 ∉ s
  short : s.length < 256

theorem holds_empty : Holds (fun _ => 0) [] where
  bytes _ := rfl
  no_nul := List.not_mem_nil
  short := by decide

section
variable {nameFile : Memory 256} {s path : List Byte}

theorem Holds.slice_eq (h : Holds nameFile s) :
    slice nameFile 0 256 = s ++ List.replicate (256 - s.length) 0 := by
  have hshort := h.short
  apply List.ext_getElem
  · rw [slice_length, List.length_append, List.length_replicate]
    omega
  · intro i hi _
    rw [slice_length] at hi
    have hbyte : byteAt nameFile i = s.getD i 0 := by
      rw [byteAt, dif_pos hi]
      exact h.bytes ⟨i, hi⟩
    simp only [slice, List.getElem_map, List.getElem_range', Nat.zero_add, Nat.one_mul, hbyte]
    by_cases his : i < s.length
    · rw [List.getElem_append_left his, List.getD_eq_getElem _ _ his]
    · rw [List.getElem_append_right (by omega), List.getElem_replicate,
        List.getD_eq_default _ _ (by omega)]

theorem Holds.nameOf_eq (h : Holds nameFile s) : nameOf nameFile = some s := by
  have hshort := h.short
  have hzeros : List.replicate (256 - s.length) (0 : Byte) =
      0 :: List.replicate (255 - s.length) 0 := by
    rw [← List.replicate_succ]
    congr 1
    omega
  unfold nameOf
  rw [h.slice_eq, hzeros, if_pos (by simp), cString_of_not_mem h.no_nul]

/-- A path lies over what was there. -/
theorem Holds.received (h : Holds nameFile s) (hpath : 0 ∉ path) (hshort : path.length < 256) :
    Holds (received nameFile (path.take 256)) (path ++ s.drop path.length) := by
  have hs := h.short
  constructor
  · intro i
    rw [List.take_of_length_le hshort.le, ProxyPaths.received, h.bytes]
    by_cases hi : (i : ℕ) < path.length
    · rw [List.getD_append _ _ _ _ hi, List.getD_eq_getElem _ _ hi, List.getD_eq_getElem _ _ hi]
    · rw [List.getD_append_right _ _ _ _ (by omega), List.getD_eq_default _ _ (by omega)]
      simp only [List.getD_eq_getElem?_getD, List.getElem?_drop,
        Nat.add_sub_cancel' (Nat.le_of_not_lt hi)]
  · rw [List.mem_append, not_or]
    exact ⟨hpath, fun hmem => h.no_nul (List.mem_of_mem_drop hmem)⟩
  · rw [List.length_append, List.length_drop]
    omega

end

/-! ## The names -/

/-- What is opened for the paths one behind the other, when the buffer has `s`. -/
def openedNames : List Byte → List (List Byte) → List (List Byte)
  | _, [] => []
  | s, path :: paths =>
      let name := path ++ s.drop path.length
      name :: openedNames name paths

/-- The names are the paths when each is at least as long as what is there. -/
theorem openedNames_eq_iff (s : List Byte) (paths : List (List Byte)) :
    openedNames s paths = paths ↔
      List.IsChain (fun path next => path.length ≤ next.length) (s :: paths) := by
  induction paths generalizing s with
  | nil => simp [openedNames]
  | cons path paths ih =>
      rw [openedNames, List.isChain_cons_cons, List.cons.injEq]
      by_cases hlen : s.length ≤ path.length
      · rw [List.drop_of_length_le hlen, List.append_nil, ih path]
        simp only [hlen, true_and]
      · have hne : path ++ s.drop path.length ≠ path := by
          intro h
          have hlength := congrArg List.length h
          rw [List.length_append, List.length_drop] at hlength
          omega
        simp only [hne, hlen, false_and]

/-- A path that fits: not empty, without NUL and shorter than the buffer. -/
def Sendable (path : List Byte) : Prop := path ≠ [] ∧ 0 ∉ path ∧ path.length < 256

/-- Growing paths are opened as they are read. -/
theorem Opens.opened {files : List Byte → Option (List Byte)} {nameFile : Memory 256}
    {s : List Byte} {passes : List ClientPass} {paths : List (List Byte)}
    (h : Opens files nameFile passes) (hholds : Holds nameFile s)
    (hpaths : ∀ path ∈ paths, Sendable path)
    (hreads : passes.map ClientPass.read = paths.map some)
    (hchain : List.IsChain (fun path next => path.length ≤ next.length) (s :: paths)) :
    passes.map ClientPass.opened = paths.map files := by
  induction passes generalizing nameFile s paths with
  | nil =>
      obtain rfl : paths = [] := by simpa using hreads.symm
      rfl
  | cons e passes ih =>
      cases paths with
      | nil => simp at hreads
      | cons path paths =>
          rw [List.map_cons, List.map_cons, List.cons.injEq] at hreads
          rw [List.forall_mem_cons] at hpaths
          rw [List.isChain_cons_cons] at hchain
          obtain ⟨⟨-, hnul, hshort⟩, hpaths⟩ := hpaths
          obtain ⟨hopened, hrest⟩ := h path hreads.1
          have hnext := hholds.received hnul hshort
          rw [List.drop_of_length_le hchain.1, List.append_nil] at hnext
          rw [List.map_cons, List.map_cons, hopened, hnext.nameOf_eq,
            ih hrest hnext hpaths hreads.2 hchain.2]
          rfl

/-- Each path is delivered by one `read`, which needs the passes before it to be
served. -/
structure Delivers (passes : List ClientPass) (paths : List (List Byte)) : Prop where
  reads : passes.map ClientPass.read = paths.map fun path => some (pathMessage path)
  served : ∀ e ∈ passes.dropLast, e.Served

section
variable {nameFile : Memory 256} {s path : List Byte} {e : ClientPass} {passes : List ClientPass}
  {paths : List (List Byte)}

/-- A pass that reads a path opens the path over what was there. -/
theorem clientLoop_cons (h : Holds nameFile s) (hpath : Sendable path)
    (hread : e.read = some (pathMessage path)) :
    (clientLoop nameFile (e :: passes)).1.map Request.name =
      some (path ++ s.drop path.length) :: if e.Served then
        (clientLoop (received nameFile (path.take 256)) passes).1.map Request.name else [] := by
  obtain ⟨hne, hnul, hshort⟩ := hpath
  have hname := (h.received hnul hshort).nameOf_eq
  rw [pathMessage_eq hnul] at hread
  rcases hserve : serve e with ⟨moved, message, ending⟩
  simp only [clientLoop, hread, if_neg hne, hname, hserve]
  cases ending with
  | none =>
      have hserved : e.Served := by rw [ClientPass.Served, hserve]
      rw [if_pos hserved]
      rfl
  | some ending =>
      have hended : ¬ e.Served := by
        rw [ClientPass.Served, hserve]
        exact Option.some_ne_none ending
      rw [if_neg hended]
      rfl

/-- The names opened for delivered paths, from any buffer. -/
theorem clientLoop_names (h : Holds nameFile s) (hpaths : ∀ path ∈ paths, Sendable path)
    (hdelivers : Delivers passes paths) :
    (clientLoop nameFile passes).1.map Request.name = (openedNames s paths).map some := by
  induction passes generalizing nameFile s paths with
  | nil =>
      have hnone : paths = [] := by simpa using hdelivers.reads.symm
      subst hnone
      rfl
  | cons e passes ih =>
      obtain ⟨hreads, hserved⟩ := hdelivers
      cases paths with
      | nil => simp at hreads
      | cons path paths =>
          rw [List.map_cons, List.map_cons, List.cons.injEq] at hreads
          rw [List.forall_mem_cons] at hpaths
          have hpath := hpaths.1
          rw [clientLoop_cons h hpath hreads.1, openedNames, List.map_cons]
          congr 1
          cases passes with
          | nil =>
              have hnone : paths = [] := by simpa using hreads.2.symm
              subst hnone
              split_ifs
              · rfl
              · rfl
          | cons e' passes =>
              rw [List.dropLast_cons_of_ne_nil (List.cons_ne_nil e' passes),
                List.forall_mem_cons] at hserved
              rw [if_pos hserved.1]
              exact ih (h.received hpath.2.1 hpath.2.2) hpaths.2 ⟨hreads.2, hserved.2⟩

/-- The first client opens the paths as they were sent, in their order, exactly
when no path is shorter than the one before it. -/
theorem opens_paths_iff (hpaths : ∀ path ∈ paths, Sendable path)
    (hdelivers : Delivers passes paths) :
    (startFirstClientLoop passes).1.map Request.name = paths.map some ↔
      List.IsChain (fun path next => path.length ≤ next.length) paths := by
  rw [startFirstClientLoop, clientLoop_names holds_empty hpaths hdelivers,
    (List.map_injective_iff.mpr (Option.some_injective _)).eq_iff, openedNames_eq_iff]
  cases paths with
  | nil => simp
  | cons path paths =>
      rw [List.isChain_cons_cons]
      exact ⟨fun h => h.2, fun h => ⟨Nat.zero_le _, h⟩⟩

end

/-- A pass in which an empty file is sent. -/
def emptyFile (path : List Byte) : ClientPass := ⟨some path, some [], [some 0], true⟩

/-- "ab", then "c". -/
theorem stale_tail : Delivers [emptyFile [0x61, 0x62], emptyFile [0x63]] [[0x61, 0x62], [0x63]] ∧
    (startFirstClientLoop [emptyFile [0x61, 0x62], emptyFile [0x63]]).1.map Request.name =
      [some [0x61, 0x62], some [0x63, 0x62]] := by
  refine ⟨⟨rfl, by decide⟩, by decide +kernel⟩

/-- "a", then "bc". -/
theorem opens_paths_growing :
    (startFirstClientLoop [emptyFile [0x61], emptyFile [0x62, 0x63]]).1.map Request.name =
        [[0x61], [0x62, 0x63]].map some ↔
      List.IsChain (fun path next => path.length ≤ next.length)
        ([[0x61], [0x62, 0x63]] : List (List Byte)) :=
  opens_paths_iff (by unfold Sendable; decide) ⟨rfl, by decide⟩

end TaskLunev.ProxyPaths
