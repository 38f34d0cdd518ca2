import Mathlib.Data.List.Basic
/-!
# Callbacks over a list

A callback is called on one element after another; it works on a state of
its own and each call returns something. `returns` is what the calls on all
elements return, `upTo` the elements there are up to and with the first one
whose call returns something to stop at. `noted` is the callback that also
notes the elements it is called on, so that a traversal shows its calls.
-/

namespace Mowgli

namespace Calls

variable {α σ ρ : Type}

/-- What the callback returns, called on one element after another. -/
def returns (cb : α → σ → ρ × σ) : List α → σ → List ρ
  | [], _ => []
  | x :: l, s => (cb x s).1 :: returns cb l (cb x s).2

/-- The elements up to and with the first at which to stop. -/
def upTo (stop : ρ → Bool) (cb : α → σ → ρ × σ) : List α → σ → List α
  | [], _ => []
  | x :: l, s => if stop (cb x s).1 then [x] else x :: upTo stop cb l (cb x s).2

/-- The callback that notes what it is called on. -/
def noted (cb : α → σ → ρ × σ) (x : α) (s : σ × List α) : ρ × (σ × List α) :=
  ((cb x s.1).1, ((cb x s.1).2, s.2 ++ [x]))

/-- Call until something is returned that is no `none`. -/
def callUntil (cb : α → σ → Option ρ × σ) : List α → σ → Option ρ × σ
  | [], s => (none, s)
  | x :: l, s =>
    match cb x s with
    | (some r, s) => (some r, s)
    | (none, s) => callUntil cb l s

variable {stop : ρ → Bool} {cb : α → σ → ρ × σ} {xs : List α} {s : σ}

@[simp] theorem length_returns (cb : α → σ → ρ × σ) (xs : List α) (s : σ) :
    (returns cb xs s).length = xs.length := by
  induction xs generalizing s with
  | nil => rfl
  | cons x l ih => simp [returns, ih]

theorem returns_eq_nil : returns cb xs s = [] ↔ xs = [] := by
  rw [← List.length_eq_zero_iff, length_returns, List.length_eq_zero_iff]

/-- A traversal that does not look at what is returned calls on everything. -/
theorem foldl_noted (cb : α → σ → ρ × σ) (xs : List α) (s : σ) (calls : List α) :
    xs.foldl (fun s x => (noted cb x s).2) (s, calls) =
      (xs.foldl (fun s x => (cb x s).2) s, calls ++ xs) := by
  induction xs generalizing s calls with
  | nil => simp
  | cons x l ih =>
    rw [List.foldl_cons, noted, ih, List.foldl_cons]
    simp

/-- The calls are on the first elements. -/
theorem upTo_isPrefix (stop : ρ → Bool) (cb : α → σ → ρ × σ) (xs : List α) (s : σ) : upTo stop cb xs s <+: xs := by
  induction xs generalizing s with
  | nil => exact List.prefix_rfl
  | cons x l ih =>
    rw [upTo]
    split_ifs
    · exact ⟨l, rfl⟩
    · exact List.cons_prefix_cons.2 ⟨rfl, ih _⟩

/-- **Where stopping makes no difference**: nothing but the last call, if
that, returns something to stop at. -/
theorem upTo_eq_self_iff :
    upTo stop cb xs s = xs ↔ ∀ r ∈ (returns cb xs s).dropLast, stop r = false := by
  induction xs generalizing s with
  | nil => simp [upTo, returns]
  | cons x l ih =>
    rw [upTo, returns]
    by_cases hl : l = []
    · subst hl
      simp [upTo, returns]
    · rw [List.dropLast_cons_of_ne_nil (fun h => hl (returns_eq_nil.1 h)), List.forall_mem_cons, ← ih]
      cases hstop : stop (cb x s).1 with
      | true => simp [Ne.symm hl]
      | false => simp

/-- What is returned when the calls stop at the first answer. -/
theorem callUntil_fst (cb : α → σ → Option ρ × σ) (xs : List α) (s : σ) :
    (callUntil cb xs s).1 = (returns cb xs s).findSome? id := by
  induction xs generalizing s with
  | nil => rfl
  | cons x l ih =>
    rw [callUntil, returns, List.findSome?_cons]
    rcases hx : cb x s with ⟨_ | r, s'⟩
    · exact ih s'
    · rfl

/-- The calls made when they stop at the first answer. -/
theorem callUntil_noted (cb : α → σ → Option ρ × σ) (xs : List α) (s : σ) (calls : List α) :
    callUntil (noted cb) xs (s, calls) = ((callUntil cb xs s).1, ((callUntil cb xs s).2,
      calls ++ upTo Option.isSome cb xs s)) := by
  induction xs generalizing s calls with
  | nil => simp [callUntil, upTo]
  | cons x l ih =>
    rw [callUntil, callUntil, upTo, noted]
    rcases hx : cb x s with ⟨_ | r, s'⟩
    · simp [ih]
    · simp

end Calls

end Mowgli
