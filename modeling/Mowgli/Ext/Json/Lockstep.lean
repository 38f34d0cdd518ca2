import Mowgli.Ext.Json.Static
/-!
# Two parsers that go on together

What a parser makes of its values does not matter to its lexer. So where two
parsers, on values of two kinds, go on together from token to token, they go
on together in all that is fed to them, until both have recorded an error or
fail.
-/

namespace Mowgli

namespace Json

namespace Parse

section

variable {H V : Type} {ops : JsonOps H V} {c : UInt8} {data : List UInt8}

/-- No parser without an error. -/
def Failed (x : Except Fault (Parse H V)) : Prop := ∀ parse, x = .ok parse → parse.error ≠ none

/-- An error stays recorded. -/
theorem error_kept (ops : JsonOps H V) : Kept ops fun parse => parse.error ≠ none where
  lexed _ _ _ h := h
  easy h _ hrun := fun he => h (((llParse_log hrun).choose_spec.2.2.2.1 he).2)
  token h _ _ hrun := fun he => h (((llParse_log hrun).choose_spec.2.2.2.1 he).2)
  error _ _ := Option.some_ne_none _

theorem Failed.bind {x : Except Fault (Parse H V)} {f : Parse H V → Except Fault (Parse H V)} (h : Failed x)
    (hf : ∀ parse, parse.error ≠ none → Failed (f parse)) : Failed (x >>= f) := by
  intro parse' hrun
  cases x with
  | error fault => cases hrun
  | ok parse => exact hf parse (h parse rfl) parse' hrun

theorem failed_error (fault : Fault) : Failed (.error fault : Except Fault (Parse H V)) := by
  rintro parse ⟨⟩

theorem failed_sendChar {n : ℕ} (parse : Parse H V) (h : parse.error ≠ none) : Failed (sendChar ops n parse c) :=
  fun _ hrun => (error_kept ops).sendChar h hrun

theorem failed_parseData (parse : Parse H V) (h : parse.error ≠ none) : Failed (parse.parseData ops data) :=
  fun _ hrun => (error_kept ops).parseData h hrun

end

variable {H V H' V' : Type} {ops : JsonOps H V} {ops' : JsonOps H' V'} {R : Parse H V → Parse H' V' → Prop}
  {p : Parse H V} {q : Parse H' V'} {c : UInt8} {data : List UInt8}

/-- Both go on, or both have come to an end. -/
inductive Meets (R : Parse H V → Parse H' V' → Prop) (x : Except Fault (Parse H V)) (y : Except Fault (Parse H' V')) :
    Prop
  | on {p : Parse H V} {q : Parse H' V'} : x = .ok p → y = .ok q → R p q → Meets R x y
  | off : Failed x → Failed y → Meets R x y

theorem Meets.bind {x : Except Fault (Parse H V)} {y : Except Fault (Parse H' V')}
    {f : Parse H V → Except Fault (Parse H V)} {g : Parse H' V' → Except Fault (Parse H' V')} (h : Meets R x y)
    (hf : ∀ p, p.error ≠ none → Failed (f p)) (hg : ∀ q, q.error ≠ none → Failed (g q))
    (hfg : ∀ p q, x = .ok p → R p q → Meets R (f p) (g q)) : Meets R (x >>= f) (y >>= g) := by
  cases h with
  | on hx hy hR =>
    have hmeets := hfg _ _ hx hR
    rwa [hx, hy]
  | off hx hy => exact .off (hx.bind hf) (hy.bind hg)

/-- Parsers that go on together with every token. -/
structure Lockstep (ops : JsonOps H V) (ops' : JsonOps H' V') (R : Parse H V → Parse H' V' → Prop) : Prop where
  lex : ∀ {p q}, R p q → q.lex = p.lex
  live : ∀ {p q}, R p q → p.error = none ∧ q.error = none
  lexed : ∀ {p q} c, R p q → R (p.lexNext c) (q.lexNext c)
  easy : ∀ {p q c sym}, R p q → easySym c = some sym → Meets R (p.llParse ops ⟨sym, none⟩) (q.llParse ops' ⟨sym, none⟩)
  token : ∀ {p q sym}, R p q → lexSym p.lex = some sym → Meets R (p.lexTokenize ops) (q.lexTokenize ops')

namespace Lockstep

theorem sendChar_limbo (hk : Lockstep ops ops' R) (h : R p q) (hl : p.lex = .limbo) :
    Meets R (sendChar ops 2 p c) (sendChar ops' 2 q c) := by
  have hl' : q.lex = .limbo := (hk.lex h).trans hl
  rcases sendChar_of_limbo ops c 0 hl with ⟨sym, he, hp⟩ | ⟨he, hs, hp⟩ | ⟨he, hs, hp⟩ <;>
    rcases sendChar_of_limbo ops' c 0 hl' with ⟨sym', he', hq⟩ | ⟨he', hs', hq⟩ | ⟨he', hs', hq⟩
  · obtain rfl := Option.some.inj (he.symm.trans he')
    rw [hp, hq]
    exact hk.easy h he
  · cases he.symm.trans he'
  · cases he.symm.trans he'
  · cases he.symm.trans he'
  · exact .on hp hq (hk.lexed c h)
  · cases hs.symm.trans hs'
  · cases he.symm.trans he'
  · cases hs.symm.trans hs'
  · rw [hp, hq]
    refine .off (fun parse hrun => ?_) fun parse hrun => ?_
    · cases hrun
      exact Option.some_ne_none _
    · cases hrun
      exact Option.some_ne_none _

/-- **A character.** -/
theorem parseChar (hk : Lockstep ops ops' R) (h : R p q) : Meets R (p.parseChar ops c) (q.parseChar ops' c) := by
  have htoken : ∀ {sym : Sym}, lexSym p.lex = some sym → Meets R
      (if p.lex = .string ∧ c = ch '"' then p.lexTokenize ops
        else if goesOn p.lex c then .ok (p.lexNext c)
        else p.lexTokenize ops >>= fun parse => sendChar ops 2 parse c)
      (if p.lex = .string ∧ c = ch '"' then q.lexTokenize ops'
        else if goesOn p.lex c then .ok (q.lexNext c)
        else q.lexTokenize ops' >>= fun parse => sendChar ops' 2 parse c) := by
    intro sym hs
    split_ifs
    · exact hk.token h hs
    · exact .on rfl rfl (hk.lexed c h)
    · refine (hk.token h hs).bind failed_sendChar failed_sendChar fun p₁ q₁ hp hR => ?_
      obtain ⟨th, -, hll⟩ := lexTokenize_ok hp
      exact hk.sendChar_limbo hR (llParse_keeps hll).2
  rw [parseChar_eq, parseChar_eq, hk.lex h]
  cases hl : p.lex with
  | limbo =>
    cases he : easySym c with
    | some sym => exact hk.easy h he
    | none =>
      simp only
      split_ifs
      · refine .off (fun parse hrun => ?_) fun parse hrun => ?_
        · cases hrun
          exact Option.some_ne_none _
        · cases hrun
          exact Option.some_ne_none _
      · exact .on rfl rfl (hk.lexed c h)
  | string | number | identifier =>
    rw [hl] at htoken
    exact htoken rfl
  | stringEsc | stringEscU =>
    have hgo : ∀ lex ∈ [Lex.stringEsc, .stringEscU], goesOn lex c = true := by
      simp only [List.forall_mem_cons]
      exact ⟨rfl, rfl, fun _ hlex => absurd hlex List.not_mem_nil⟩
    simp only [reduceCtorEq, false_and, if_false]
    rw [hgo _ (by decide)]
    exact .on rfl rfl (hk.lexed c h)

/-- **All that is fed.** -/
theorem parseData (hk : Lockstep ops ops' R) (h : R p q) : Meets R (p.parseData ops data) (q.parseData ops' data) := by
  induction data generalizing p q with
  | nil => exact .on rfl rfl h
  | cons c data ih =>
    obtain ⟨hp, hq⟩ := hk.live h
    rw [Parse.parseData, Parse.parseData, hp, hq]
    exact (hk.parseChar h).bind failed_parseData failed_parseData fun p₁ q₁ _ hR => ih hR

end Lockstep

end Parse

end Json

end Mowgli
