import Mathlib.Data.List.Basic
/-!
# Programs that change a state and may stop

A program reads and changes a state `σ`, and ends with a value or stops for
a reason `ε`. `Ends E m s Q` says what becomes of `m` from `s`: it ends with
`Q`, or it stops for a reason in `E`.
-/

namespace Mowgli

/-- A program over the state `σ` that stops for a reason `ε`. -/
abbrev Prog (σ ε α : Type) := StateT σ (Except ε) α

namespace Prog

variable {σ ε α β : Type} {E : ε → Prop} {s s' : σ}

/-- From `s`, the program ends with `Q` or stops with `E`. -/
def Ends (E : ε → Prop) (m : Prog σ ε α) (s : σ) (Q : α → σ → Prop) : Prop :=
  match m s with
  | .ok (a, s') => Q a s'
  | .error e => E e

/-- What is known of a program holds of the run it made. -/
theorem Ends.of_ok {m : Prog σ ε α} {Q : α → σ → Prop} {a : α} (h : Ends E m s Q) (hrun : m s = .ok (a, s')) :
    Q a s' := by
  unfold Ends at h
  rwa [hrun] at h

theorem Ends.of_error {m : Prog σ ε α} {Q : α → σ → Prop} {e : ε} (h : Ends E m s Q) (hrun : m s = .error e) :
    E e := by
  unfold Ends at h
  rwa [hrun] at h

theorem Ends.mono {m : Prog σ ε α} {Q Q' : α → σ → Prop} (h : Ends E m s Q) (hQ : ∀ a s', Q a s' → Q' a s') :
    Ends E m s Q' := by
  unfold Ends at h ⊢
  cases hrun : m s with
  | ok r =>
    rw [hrun] at h
    exact hQ r.1 r.2 h
  | error e =>
    rw [hrun] at h
    exact h

@[simp] theorem ends_pure {a : α} {Q : α → σ → Prop} : Ends E (pure a) s Q ↔ Q a s := Iff.rfl

@[simp] theorem ends_throw {e : ε} {Q : α → σ → Prop} : Ends E (throw e) s Q ↔ E e := Iff.rfl

@[simp] theorem ends_get {Q : σ → σ → Prop} : Ends E (get : Prog σ ε σ) s Q ↔ Q s s := Iff.rfl

@[simp] theorem ends_set {Q : PUnit → σ → Prop} : Ends E (set s' : Prog σ ε PUnit) s Q ↔ Q ⟨⟩ s' := Iff.rfl

@[simp] theorem ends_modify {f : σ → σ} {Q : PUnit → σ → Prop} :
    Ends E (modify f : Prog σ ε PUnit) s Q ↔ Q ⟨⟩ (f s) := Iff.rfl

/-- One program after another. -/
@[simp] theorem ends_bind {m : Prog σ ε α} {f : α → Prog σ ε β} {Q : β → σ → Prop} :
    Ends E (m >>= f) s Q ↔ Ends E m s fun a s' => Ends E (f a) s' Q := by
  unfold Ends
  rw [show (m >>= f) s = (m s >>= fun r => f r.1 r.2) from rfl]
  cases m s with
  | ok r => rfl
  | error e => rfl

/-- The rule for one program after another. -/
theorem Ends.bind {m : Prog σ ε α} {f : α → Prog σ ε β} {P : α → σ → Prop} {Q : β → σ → Prop} (h : Ends E m s P)
    (hf : ∀ a s', P a s' → Ends E (f a) s' Q) : Ends E (m >>= f) s Q :=
  ends_bind.2 (h.mono hf)

end Prog

end Mowgli
