import Mathlib.Data.List.Basic
/-!
# Runs of a machine

A machine takes calls: in state `s` the call `a` gives an answer and a
next state, or the machine is stuck. `Run` is its finite runs, of calls
that meet a condition `ok` on the state they are made in; a run has the
calls and their answers as its trace. `SpecRun` is the same for a
specification, which relates states to the answers they allow.
-/

namespace Mowgli

variable {σ μ α β : Type}

/-- The runs of a machine from `s₀`, with their traces. -/
inductive Run (step : σ → α → Option (β × σ)) (ok : σ → α → Prop) (s₀ : σ) :
    List (α × β) → σ → Prop
  | nil : Run step ok s₀ [] s₀
  | snoc {tr : List (α × β)} {s s' : σ} {a : α} {b : β} :
    Run step ok s₀ tr s → ok s a → step s a = some (b, s') → Run step ok s₀ (tr ++ [(a, b)]) s'

/-- The traces a specification allows from `m₀`. -/
inductive SpecRun (spec : μ → α → β → μ → Prop) (m₀ : μ) : List (α × β) → μ → Prop
  | nil : SpecRun spec m₀ [] m₀
  | snoc {tr : List (α × β)} {m m' : μ} {a : α} {b : β} :
    SpecRun spec m₀ tr m → spec m a b m' → SpecRun spec m₀ (tr ++ [(a, b)]) m'

variable {step : σ → α → Option (β × σ)} {ok : σ → α → Prop} {s₀ : σ}
variable {spec : μ → α → β → μ → Prop} {m₀ : μ}

/-- The last call of a trace. -/
theorem SpecRun.last {tr : List (α × β)} {a : α} {b : β} {m' : μ}
    (h : SpecRun spec m₀ (tr ++ [(a, b)]) m') : ∃ m, SpecRun spec m₀ tr m ∧ spec m a b m' := by
  generalize htr : tr ++ [(a, b)] = tr' at h
  cases h with
  | nil => simp at htr
  | snoc h hspec =>
    obtain ⟨rfl, heq⟩ := List.append_inj' htr rfl
    obtain ⟨rfl, rfl⟩ := Prod.mk.inj (List.cons.inj heq).1
    exact ⟨_, h, hspec⟩

/-- The last call of a run. -/
theorem Run.last {tr : List (α × β)} {a : α} {b : β} {s' : σ} (h : Run step ok s₀ (tr ++ [(a, b)]) s') :
    ∃ s, Run step ok s₀ tr s ∧ ok s a ∧ step s a = some (b, s') := by
  generalize htr : tr ++ [(a, b)] = tr' at h
  cases h with
  | nil => simp at htr
  | snoc h hok hstep =>
    obtain ⟨rfl, heq⟩ := List.append_inj' htr rfl
    obtain ⟨rfl, rfl⟩ := Prod.mk.inj (List.cons.inj heq).1
    exact ⟨_, h, hok, hstep⟩

theorem Run.of_nil {s : σ} (h : Run step ok s₀ [] s) : s = s₀ := by
  generalize htr : ([] : List (α × β)) = tr at h
  cases h with
  | nil => rfl
  | snoc h hok hstep => simp at htr

/-- Without calls a specification is where it was. -/
theorem SpecRun.of_nil {m : μ} (h : SpecRun spec m₀ [] m) : m = m₀ := by
  generalize htr : ([] : List (α × β)) = tr at h
  cases h with
  | nil => rfl
  | snoc h hspec => simp at htr

/-- **Invariants.** What holds at first and is kept by every call holds of
every state reached. -/
theorem Run.invariant {I : σ → Prop} (h₀ : I s₀)
    (hstep : ∀ {s a b s'}, I s → ok s a → step s a = some (b, s') → I s')
    {tr : List (α × β)} {s : σ} (h : Run step ok s₀ tr s) : I s := by
  induction h with
  | nil => exact h₀
  | snoc _ hok hrun ih => exact hstep ih hok hrun

/-- A run goes on from where another one led. -/
theorem Run.trans {tr tr' : List (α × β)} {s s' : σ} (h : Run step ok s₀ tr s) (h' : Run step ok s tr' s') :
    Run step ok s₀ (tr ++ tr') s' := by
  induction h' with
  | nil => rwa [List.append_nil]
  | snoc _ hok hrun ih =>
    rw [← List.append_assoc]
    exact ih.snoc hok hrun

/-- One call. -/
theorem Run.one {a : α} {b : β} {s : σ} (hok : ok s₀ a) (hrun : step s₀ a = some (b, s)) :
    Run step ok s₀ [(a, b)] s :=
  Run.snoc Run.nil hok hrun

/-- A run is one of more calls, too. -/
theorem Run.mono {ok' : σ → α → Prop} (hok : ∀ s a, ok s a → ok' s a) {tr : List (α × β)} {s : σ}
    (h : Run step ok s₀ tr s) : Run step ok' s₀ tr s := by
  induction h with
  | nil => exact .nil
  | snoc _ ha hrun ih => exact .snoc ih (hok _ _ ha) hrun

/-- The calls `as`, one after the other, if each meets the condition and is answered. -/
def Run.exec (step : σ → α → Option (β × σ)) (ok : σ → α → Prop) [∀ s a, Decidable (ok s a)] :
    List α → σ → Option (List (α × β) × σ)
  | [], s => some ([], s)
  | a :: as, s =>
    if ok s a then (step s a).bind fun r => (exec step ok as r.2).map fun t => ((a, r.1) :: t.1, t.2) else none

/-- Calls that are executed are a run. -/
theorem Run.of_exec [∀ s a, Decidable (ok s a)] (as : List α) {tr : List (α × β)} {s : σ}
    (h : Run.exec step ok as s₀ = some (tr, s)) : Run step ok s₀ tr s := by
  induction as generalizing s₀ tr with
  | nil =>
    obtain ⟨rfl, rfl⟩ := Prod.mk.inj (Option.some.inj h)
    exact .nil
  | cons a as ih =>
    rw [Run.exec] at h
    split_ifs at h with hok
    obtain ⟨⟨b, s₁⟩, hrun, h⟩ := Option.bind_eq_some_iff.1 h
    obtain ⟨⟨tr', s'⟩, hrest, heq⟩ := Option.map_eq_some_iff.1 h
    obtain ⟨rfl, rfl⟩ := Prod.mk.inj heq
    exact (Run.one hok hrun).trans (ih hrest)

/-- **Refinement.** A relation between the states of a machine and of a
specification that each call keeps carries over to runs: the traces of
the machine are traces of the specification. -/
theorem Run.refines {R : σ → μ → Prop} (h₀ : R s₀ m₀)
    (hstep : ∀ {s m a b s'}, R s m → ok s a → step s a = some (b, s') →
      ∃ m', spec m a b m' ∧ R s' m')
    {tr : List (α × β)} {s : σ} (h : Run step ok s₀ tr s) :
    ∃ m, SpecRun spec m₀ tr m ∧ R s m := by
  induction h with
  | nil => exact ⟨m₀, .nil, h₀⟩
  | snoc _ hok hrun ih =>
    obtain ⟨m, hm, hR⟩ := ih
    obtain ⟨m', hspec, hR'⟩ := hstep hR hok hrun
    exact ⟨m', .snoc hm hspec, hR'⟩

end Mowgli
