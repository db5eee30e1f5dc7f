import Mathlib.Algebra.Group.Nat.Defs
import Mathlib.Data.Int.Notation
import Mathlib.Data.Nat.Find
import Mathlib.Data.Nat.Notation
import Mathlib.Tactic.Common

/-!
# Looking for a free port

The loop binds a socket to the first port that lets it. Its condition moves on
to the next port while the one just tried is not behind the last, so when no
port of the range is free it tries one more, the port behind the range or 0. What
became of that is not seen from the counter alone.
-/
namespace TaskLunev.HpcNetPorts

/-- The port the socket is bound to, the counter, and all ports tried. -/
structure Search where
  bound : Option ℕ
  port : ℕ
  tried : List ℕ
  deriving DecidableEq, Repr

/-- `port++` on a `uint16_t` -/
def nextPort (port : ℕ) : ℕ := (port + 1) % 2 ^ 16

/-- The loop, with `free` for the ports that `bind` succeeds on. `none` when the
passes run out. -/
def bindLoop (free : ℕ → Bool) (maxport : ℕ) : ℕ → ℕ → List ℕ → Option Search
  | 0, _, _ => none
  | passes + 1, port, tried =>
      if free port then some ⟨some port, port, tried ++ [port]⟩
      else if port ≤ maxport then bindLoop free maxport passes (nextPort port) (tried ++ [port])
      else some ⟨none, nextPort port, tried ++ [port]⟩

structure Outcome where
  ret : ℤ
  bound : Option ℕ
  tried : List ℕ
  deriving DecidableEq, Repr

def bindFreePort (free : ℕ → Bool) (minport maxport passes : ℕ) : Option Outcome := do
  let search ← bindLoop free maxport passes minport []
  let ret : ℤ := if search.port > maxport then -1 else search.port
  return ⟨ret, search.bound, search.tried⟩

section
variable {free : ℕ → Bool} {minport maxport passes port : ℕ} {tried : List ℕ}

/-- The first free port is found. -/
theorem bindLoop_first {first : ℕ} (hfree : free first = true)
    (hbefore : ∀ p, port ≤ p → p < first → free p = false) (hle : port ≤ first)
    (hmax : first ≤ maxport) (hlt : maxport < 2 ^ 16) (hpasses : first < port + passes) :
    bindLoop free maxport passes port tried =
      some ⟨some first, first, tried ++ List.range' port (first + 1 - port)⟩ := by
  induction passes generalizing port tried with
  | zero => omega
  | succ passes ih =>
      rw [bindLoop]
      rcases Nat.eq_or_lt_of_le hle with rfl | hbelow
      · rw [if_pos hfree, Nat.add_sub_cancel_left]
        rfl
      · have hnext : nextPort port = port + 1 := Nat.mod_eq_of_lt (by omega)
        have hcount : first + 1 - port = (first + 1 - (port + 1)) + 1 := by omega
        have hbusy : free port = false := hbefore port le_rfl hbelow
        rw [hbusy, if_neg Bool.false_ne_true, if_pos (by omega), hnext,
          ih (fun p hp => hbefore p (by omega)) (by omega) (by omega), hcount, List.range'_succ,
          List.append_assoc, List.singleton_append]

/-- Every port tried before is on the list. -/
theorem bindLoop_tried {search : Search} (h : bindLoop free maxport passes port tried = some search) :
    tried ++ [port] <+: search.tried := by
  induction passes generalizing port tried with
  | zero => cases h
  | succ passes ih =>
      rw [bindLoop] at h
      split_ifs at h
      · cases h
        exact List.prefix_rfl
      · exact (List.prefix_append _ _).trans (ih h)
      · cases h
        exact List.prefix_rfl

/-- When no port is free up to the last one, the next one is tried. -/
theorem bindLoop_behind {search : Search} (hbusy : ∀ p, port ≤ p → p ≤ maxport → free p = false)
    (hle : port ≤ maxport) (hlt : maxport < 2 ^ 16)
    (h : bindLoop free maxport passes port tried = some search) :
    nextPort maxport ∈ search.tried := by
  induction passes generalizing port tried with
  | zero => cases h
  | succ passes ih =>
      rw [bindLoop, hbusy port le_rfl hle, if_neg Bool.false_ne_true, if_pos hle] at h
      rcases Nat.eq_or_lt_of_le hle with rfl | hbelow
      · exact (bindLoop_tried h).subset (List.mem_append_right _ (List.mem_singleton_self _))
      · have hnext : nextPort port = port + 1 := Nat.mod_eq_of_lt (by omega)
        rw [hnext] at h
        exact ih (fun p hp => hbusy p (by omega)) (by omega) h

/-- Without any free port a range that reaches the last port is gone through
again and again. -/
theorem bindLoop_endless (hbusy : ∀ p, p < 2 ^ 16 → free p = false) (hlt : port < 2 ^ 16) :
    bindLoop free (2 ^ 16 - 1) passes port tried = none := by
  induction passes generalizing port tried with
  | zero => rfl
  | succ passes ih =>
      rw [bindLoop, hbusy port hlt, if_neg Bool.false_ne_true, if_pos (by omega)]
      exact ih (Nat.mod_lt _ (by decide))

end

/-- The least free port of the range is bound and returned, or there is none and
the call returns -1 with nothing bound; no port outside the range is tried. -/
structure Correct (free : ℕ → Bool) (minport maxport : ℕ) (outcome : Outcome) : Prop where
  found : ∀ port, minport ≤ port → port ≤ maxport → free port = true →
    (∀ p, minport ≤ p → p < port → free p = false) →
      outcome.ret = port ∧ outcome.bound = some port
  missing : (∀ port, minport ≤ port → port ≤ maxport → free port = false) →
    outcome.ret = -1 ∧ outcome.bound = none
  inside : ∀ port ∈ outcome.tried, minport ≤ port ∧ port ≤ maxport

section
variable {free : ℕ → Bool} {minport maxport : ℕ}

/-- With a free port the call stops at the least one. -/
theorem bindFreePort_first {first : ℕ} (hfree : free first = true)
    (hbefore : ∀ p, minport ≤ p → p < first → free p = false) (hmin : minport ≤ first)
    (hmax : first ≤ maxport) (hlt : maxport < 2 ^ 16) {passes : ℕ} (hpasses : maxport < passes) :
    bindFreePort free minport maxport passes =
      some ⟨first, some first, List.range' minport (first + 1 - minport)⟩ := by
  rw [bindFreePort, bindLoop_first hfree hbefore hmin hmax hlt (by omega)]
  have hinside : ¬ first > maxport := by omega
  simp only [Option.bind_eq_bind, Option.bind_some, if_neg hinside, List.nil_append,
    Option.pure_def]

/-- There is only one least free port. -/
theorem least_unique {port first : ℕ} (hport : minport ≤ port) (hport_free : free port = true)
    (hport_before : ∀ p, minport ≤ p → p < port → free p = false) (hmin : minport ≤ first)
    (hfree : free first = true) (hbefore : ∀ p, minport ≤ p → p < first → free p = false) :
    port = first := by
  by_contra hne
  rcases Nat.lt_or_gt_of_ne hne with hlow | hhigh
  · rw [hbefore port hport hlow] at hport_free
    cases hport_free
  · rw [hport_before first hmin hhigh] at hfree
    cases hfree

/-- That is what is asked of a range with a free port. -/
theorem correct_first {first : ℕ} (hfree : free first = true)
    (hbefore : ∀ p, minport ≤ p → p < first → free p = false) (hmin : minport ≤ first)
    (hmax : first ≤ maxport) :
    Correct free minport maxport
      ⟨first, some first, List.range' minport (first + 1 - minport)⟩ := by
  constructor
  · intro port hport _ hport_free hport_before
    rw [least_unique hport hport_free hport_before hmin hfree hbefore]
    exact ⟨rfl, rfl⟩
  · intro hbusy
    rw [hbusy first hmin hmax] at hfree
    cases hfree
  · intro port hport
    rw [List.mem_range'_1] at hport
    omega

/-- What was tried includes the port behind the range when no port in it is free. -/
theorem bindFreePort_behind {passes : ℕ} {outcome : Outcome} (hle : minport ≤ maxport)
    (hlt : maxport < 2 ^ 16) (hbusy : ∀ p, minport ≤ p → p ≤ maxport → free p = false)
    (h : bindFreePort free minport maxport passes = some outcome) :
    nextPort maxport ∈ outcome.tried := by
  rw [bindFreePort, Option.bind_eq_bind, Option.bind_eq_some_iff] at h
  obtain ⟨search, hsearch, h⟩ := h
  cases h
  exact bindLoop_behind hbusy hle hlt hsearch

/-- Without a free port in the range no outcome is right. -/
theorem not_correct {passes : ℕ} {outcome : Outcome} (hle : minport ≤ maxport)
    (hlt : maxport < 2 ^ 16) (hbusy : ∀ p, minport ≤ p → p ≤ maxport → free p = false)
    (h : bindFreePort free minport maxport passes = some outcome) :
    ¬ Correct free minport maxport outcome := by
  intro hcorrect
  obtain ⟨hlow, hhigh⟩ := hcorrect.inside _ (bindFreePort_behind hle hlt hbusy h)
  by_cases hlast : maxport = 2 ^ 16 - 1
  · -- the counter wraps to 0, which is in the range only if every port is
    subst hlast
    have hzero : minport = 0 := Nat.le_zero.mp hlow
    subst hzero
    rw [bindFreePort, bindLoop_endless (fun p hp => hbusy p (Nat.zero_le p) (by omega))
      (by decide)] at h
    cases h
  · rw [nextPort, Nat.mod_eq_of_lt (by omega)] at hhigh
    omega

end

/-- The call terminates and is correct exactly when a port of the range is free. -/
theorem bindFreePort_iff (free : ℕ → Bool) {minport maxport : ℕ} (hle : minport ≤ maxport)
    (hlt : maxport < 2 ^ 16) :
    (∃ passes outcome, (∀ more, passes ≤ more →
        bindFreePort free minport maxport more = some outcome) ∧
        Correct free minport maxport outcome) ↔
      ∃ port, minport ≤ port ∧ port ≤ maxport ∧ free port = true := by
  constructor
  · intro h
    rcases h with ⟨passes, outcome, hcall, hcorrect⟩
    by_contra hnone
    have hbusy : ∀ p, minport ≤ p → p ≤ maxport → free p = false := fun p hmin hmax =>
      eq_false_of_ne_true fun hfree => hnone ⟨p, hmin, hmax, hfree⟩
    exact not_correct hle hlt hbusy (hcall passes le_rfl) hcorrect
  · intro hsome
    obtain ⟨hmin, hmax, hfree⟩ := Nat.find_spec hsome
    have hbefore : ∀ p, minport ≤ p → p < Nat.find hsome → free p = false := fun p hp hlow =>
      eq_false_of_ne_true fun hp_free => Nat.find_min hsome hlow ⟨hp, by omega, hp_free⟩
    exact ⟨maxport + 1, _, fun more hmore =>
      bindFreePort_first hfree hbefore hmin hmax hlt hmore,
      correct_first hfree hbefore hmin hmax⟩

/-- Two ports are taken and the third is free. -/
theorem bindFreePort_third :
    (∃ passes outcome, (∀ more, passes ≤ more →
        bindFreePort (fun port => port ≥ 8002) 8000 8003 more = some outcome) ∧
        Correct (fun port => port ≥ 8002) 8000 8003 outcome) ↔
      ∃ port, 8000 ≤ port ∧ port ≤ 8003 ∧ decide (port ≥ 8002) = true :=
  bindFreePort_iff _ (by decide) (by decide)

/-- The only port of the range is taken and the one behind it is free: that one
is tried and bound, and the call returns -1. -/
theorem bindFreePort_behind_range :
    bindFreePort (fun port => port = 8001) 8000 8000 5 = some ⟨-1, some 8001, [8000, 8001]⟩ := by
  decide

/-- Here nothing is bound, and the call returns port 0. -/
example : bindFreePort (fun _ => false) 65534 65534 5 = some ⟨0, none, [65534, 65535]⟩ := by
  decide

end TaskLunev.HpcNetPorts
