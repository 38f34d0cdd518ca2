import Mathlib.Data.List.Basic
/-!
# Predictive parsers

A parser with a stack of symbols looks at the symbol on top and at the next
token: either they agree and both go, or a table tells by which rule to
replace the symbol. With a rule there is an action on what is built. What
such a parser takes is derived from the symbols on its stack, and what it
builds is determined.
-/

namespace Mowgli

/-- A predictive parser on the symbols `S`, the tokens `T`, the rules `R`
and what is built, `B`. -/
structure Predictive (S T R B : Type) where
  sym : T → S
  table : S → S → Option R
  rhs : R → List S
  act : R → B → T → Option B

namespace Predictive

variable {S T R B : Type} (P : Predictive S T R B)

/-- The parser gets from a stack and what is built to another by taking
some tokens. -/
inductive Feeds : List S → B → List T → List S → B → Prop
  | nil {σ : List S} {b : B} : Feeds σ b [] σ b
  | take {top : S} {t : T} {ts : List T} {σ σ' : List S} {b b' : B} :
      top = P.sym t → Feeds σ b ts σ' b' → Feeds (top :: σ) b (t :: ts) σ' b'
  | rule {top : S} {t : T} {r : R} {ts : List T} {σ σ' : List S} {b b₁ b' : B} :
      top ≠ P.sym t → P.table top (P.sym t) = some r → P.act r b t = some b₁ →
      Feeds (P.rhs r ++ σ) b₁ (t :: ts) σ' b' → Feeds (top :: σ) b (t :: ts) σ' b'

/-- What some symbols derive, one after the other, where `D` is what a
symbol derives. -/
inductive DerivesAll (D : S → List T → Prop) : List S → List T → Prop
  | nil : DerivesAll D [] []
  | cons {s : S} {σ : List S} {ts us : List T} :
      D s ts → DerivesAll D σ us → DerivesAll D (s :: σ) (ts ++ us)

variable {P} {D : S → List T → Prop} {σ σ' : List S} {ts us : List T} {b b₁ b₂ : B} {s : S} {t : T}

theorem derivesAll_cons :
    DerivesAll D (s :: σ) ts ↔ ∃ ts₁ ts₂, ts = ts₁ ++ ts₂ ∧ D s ts₁ ∧ DerivesAll D σ ts₂ := by
  constructor
  · intro h
    cases h with
    | cons hs hσ => exact ⟨_, _, rfl, hs, hσ⟩
  · rintro ⟨ts₁, ts₂, rfl, hs, hσ⟩
    exact .cons hs hσ

theorem derivesAll_nil : DerivesAll D [] ts ↔ ts = [] := by
  constructor
  · intro h
    cases h
    rfl
  · rintro rfl
    exact .nil

theorem derivesAll_singleton : DerivesAll D [s] ts ↔ D s ts := by
  rw [derivesAll_cons]
  constructor
  · rintro ⟨ts₁, ts₂, rfl, hs, hnil⟩
    rw [derivesAll_nil.1 hnil, List.append_nil]
    exact hs
  · intro hs
    exact ⟨ts, [], (List.append_nil ts).symm, hs, .nil⟩

theorem DerivesAll.split (h : DerivesAll D (σ ++ σ') ts) :
    ∃ ts₁ ts₂, ts = ts₁ ++ ts₂ ∧ DerivesAll D σ ts₁ ∧ DerivesAll D σ' ts₂ := by
  induction σ generalizing ts with
  | nil => exact ⟨[], ts, rfl, .nil, h⟩
  | cons s σ ih =>
    obtain ⟨ts₁, us, rfl, hs, hσ⟩ := derivesAll_cons.1 h
    obtain ⟨us₁, us₂, rfl, hσ₁, hσ₂⟩ := ih hσ
    exact ⟨ts₁ ++ us₁, us₂, (List.append_assoc ..).symm, .cons hs hσ₁, hσ₂⟩

/-- **Soundness.** Where `D` has the tokens themselves and is closed under
the rules, the tokens that empty the stack are derived from it. -/
theorem Feeds.derivesAll (hterm : ∀ t, D (P.sym t) [t])
    (hrule : ∀ top t r ts, P.table top (P.sym t) = some r → DerivesAll D (P.rhs r) ts → D top ts)
    (h : P.Feeds σ b ts [] b₁) : DerivesAll D σ ts := by
  generalize hnil : ([] : List S) = σ' at h
  induction h with
  | nil =>
    subst hnil
    exact .nil
  | @take top t ts σ σ' b b' htop _ ih =>
    subst htop
    exact .cons (hterm t) (ih hnil)
  | @rule top t r ts σ σ' b b₁ b' _ htable _ _ ih =>
    obtain ⟨ts₁, ts₂, hts, htop, hσ⟩ := (ih hnil).split
    rw [hts]
    exact .cons (hrule top t r ts₁ htable htop) hσ

/-- **What empties the stack is determined**: it is no beginning of anything
else that does, and what is built is of the tokens alone. -/
theorem Feeds.unique (h₁ : P.Feeds σ b ts [] b₁) (h₂ : P.Feeds σ b (ts ++ us) [] b₂) : us = [] ∧ b₁ = b₂ := by
  generalize hnil : ([] : List S) = σ' at h₁
  induction h₁ with
  | nil =>
    subst hnil
    generalize us = vs at h₂
    cases h₂
    exact ⟨rfl, rfl⟩
  | take htop _ ih =>
    cases h₂ with
    | take _ h₂ => exact ih h₂ hnil
    | rule hne => exact absurd htop hne
  | rule hne htable hact _ ih =>
    cases h₂ with
    | take htop => exact absurd htop hne
    | rule _ htable' hact' h₂ =>
      rw [htable, Option.some.injEq] at htable'
      subst htable'
      rw [hact, Option.some.injEq] at hact'
      subst hact'
      exact ih h₂ hnil

/-- What is built is determined by the tokens. -/
theorem Feeds.det (h₁ : P.Feeds σ b ts [] b₁) (h₂ : P.Feeds σ b ts [] b₂) : b₁ = b₂ := by
  rw [← List.append_nil ts] at h₂
  exact (h₁.unique h₂).2

/-- Nothing is left over. -/
theorem Feeds.prefix_free (h₁ : P.Feeds σ b ts [] b₁) (h₂ : P.Feeds σ b (ts ++ us) [] b₂) : us = [] :=
  (h₁.unique h₂).1

end Predictive

end Mowgli
