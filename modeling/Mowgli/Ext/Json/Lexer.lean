import Mowgli.Ext.Json.Errors
/-!
# What a character does

A character changes what the lexer has of a token, or it is a token or ends
one, or it is an error. So what every token keeps, and every error, is kept
by all that is fed to the parser.
-/

namespace Mowgli

namespace Json

namespace Parse

variable {H V : Type} {ops : JsonOps H V} {parse parse' : Parse H V} {c : UInt8}

/-- The token that the lexer is reading. -/
def lexSym : Lex → Option Sym
  | .string => some .string
  | .number => some .number
  | .identifier => some .identifier
  | _ => none

/-- **One character**, sent once. -/
theorem lexChar_cases (ops : JsonOps H V) (parse : Parse H V) (c : UInt8) :
    (∃ again buf lex lexU, parse.lexChar ops c = .ok (again, { parse with buf := buf, lex := lex, lexU := lexU })) ∨
    (∃ sym, parse.lex = .limbo ∧ easySym c = some sym ∧
      parse.lexChar ops c = parse.llParse ops ⟨sym, none⟩ >>= fun parse => .ok (false, parse)) ∨
    (∃ again sym, lexSym parse.lex = some sym ∧
      parse.lexChar ops c = parse.lexTokenize ops >>= fun parse => .ok (again, parse)) ∨
    parse.lexChar ops c = .ok (false, parse.parseError (.character c)) := by
  unfold lexChar
  cases hl : parse.lex with
  | limbo =>
    simp only [lexLimbo]
    cases he : easySym c with
    | some sym => exact Or.inr (Or.inl ⟨sym, trivial, rfl, rfl⟩)
    | none =>
      simp only
      split_ifs
      · exact Or.inl ⟨_, _, _, _, rfl⟩
      · exact Or.inl ⟨_, _, _, _, rfl⟩
      · exact Or.inl ⟨_, _, _, _, rfl⟩
      · exact Or.inl ⟨false, parse.buf, parse.lex, parse.lexU, rfl⟩
      · exact Or.inr (Or.inr (Or.inr rfl))
  | string =>
    simp only
    split_ifs
    · exact Or.inl ⟨_, _, _, _, rfl⟩
    · exact Or.inr (Or.inr (Or.inl ⟨false, .string, rfl, rfl⟩))
    · exact Or.inl ⟨false, parse.buf.appendChar c, parse.lex, parse.lexU, rfl⟩
  | stringEsc =>
    simp only
    split_ifs
    · exact Or.inl ⟨_, _, _, _, rfl⟩
    · exact Or.inl ⟨_, _, _, _, rfl⟩
  | stringEscU =>
    simp only
    split_ifs
    · exact Or.inl ⟨_, _, _, _, rfl⟩
    · exact Or.inl ⟨false, parse.buf.appendChar c, parse.lex, parse.lexU + 1, rfl⟩
  | number =>
    simp only [lexEnd]
    split_ifs
    · exact Or.inl ⟨false, parse.buf.appendChar c, parse.lex, parse.lexU, rfl⟩
    · exact Or.inr (Or.inr (Or.inl ⟨true, .number, rfl, rfl⟩))
  | identifier =>
    simp only [lexEnd]
    split_ifs
    · exact Or.inl ⟨false, parse.buf.appendChar c, parse.lex, parse.lexU, rfl⟩
    · exact Or.inr (Or.inr (Or.inl ⟨true, .identifier, rfl, rfl⟩))

/-- The lexer after a character that is no token, ends none and is no
error. -/
def lexNext (parse : Parse H V) (c : UInt8) : Parse H V :=
  match parse.lex with
  | .limbo =>
    if beginsNumber c then { parse.lexAppend c with lex := .number }
    else if isAlpha c then { parse.lexAppend c with lex := .identifier }
    else if c = ch '"' then { parse with lex := .string }
    else parse
  | .string => if c = ch '\\' then { parse.lexAppend c with lex := .stringEsc } else parse.lexAppend c
  | .stringEsc =>
    if c = ch 'u' then { parse.lexAppend c with lexU := 0, lex := .stringEscU }
    else { parse.lexAppend c with lex := .string }
  | .stringEscU =>
    if 4 ≤ parse.lexU + 1 then { parse.lexAppend c with lexU := parse.lexU + 1, lex := .string }
    else { parse.lexAppend c with lexU := parse.lexU + 1 }
  | .number | .identifier => parse.lexAppend c

/-- Nothing but the lexer changes. -/
theorem lexNext_eq (parse : Parse H V) (c : UInt8) :
    ∃ buf lex lexU, parse.lexNext c = { parse with buf := buf, lex := lex, lexU := lexU } := by
  unfold lexNext
  cases parse.lex <;> simp only
  · split_ifs
    · exact ⟨_, _, _, rfl⟩
    · exact ⟨_, _, _, rfl⟩
    · exact ⟨_, _, _, rfl⟩
    · exact ⟨parse.buf, parse.lex, parse.lexU, rfl⟩
  · split_ifs
    · exact ⟨_, _, _, rfl⟩
    · exact ⟨parse.buf.appendChar c, parse.lex, parse.lexU, rfl⟩
  · split_ifs
    · exact ⟨_, _, _, rfl⟩
    · exact ⟨_, _, _, rfl⟩
  · split_ifs
    · exact ⟨_, _, _, rfl⟩
    · exact ⟨parse.buf.appendChar c, parse.lex, parse.lexU + 1, rfl⟩
  · exact ⟨parse.buf.appendChar c, parse.lex, parse.lexU, rfl⟩
  · exact ⟨parse.buf.appendChar c, parse.lex, parse.lexU, rfl⟩

/-- A character that is an error outside of tokens. -/
def isStray (c : UInt8) : Bool :=
  easySym c = none && !beginsNumber c && !isAlpha c && c ≠ ch '"' && !isSpace c

/-- A character outside of tokens, with rounds enough: it is a token, or
begins one, or is skipped, or is an error. -/
theorem sendChar_of_limbo (ops : JsonOps H V) (c : UInt8) (n : ℕ) (hl : parse.lex = .limbo) :
    (∃ sym, easySym c = some sym ∧ sendChar ops (n + 2) parse c = parse.llParse ops ⟨sym, none⟩) ∨
    (easySym c = none ∧ isStray c = false ∧ sendChar ops (n + 2) parse c = .ok (parse.lexNext c)) ∨
    (easySym c = none ∧ isStray c = true ∧ sendChar ops (n + 2) parse c = .ok (parse.parseError (.character c))) := by
  have hlex : parse.lexChar ops c = parse.lexLimbo ops c := by
    rw [lexChar, hl]
  rw [sendChar, hlex, lexLimbo, lexNext, hl]
  cases he : easySym c with
  | some sym =>
    refine Or.inl ⟨sym, rfl, ?_⟩
    simp only [lexEasy]
    cases parse.llParse ops ⟨sym, none⟩ <;> rfl
  | none =>
    right
    have hstray : isStray c = (!beginsNumber c && !isAlpha c && c ≠ ch '"' && !isSpace c) := by
      rw [isStray, he]
      rfl
    rw [hstray]
    by_cases hn : beginsNumber c
    · have hin : inNumber c = true := by
        unfold beginsNumber at hn
        rw [inNumber, hn]
        rfl
      refine Or.inl ⟨rfl, by rw [hn]; rfl, ?_⟩
      simp only [hn, if_true, bind, Except.bind, sendChar, lexChar, lexEnd, hin]
      rfl
    by_cases ha : isAlpha c
    · refine Or.inl ⟨rfl, by rw [ha, Bool.not_true, Bool.and_false]; rfl, ?_⟩
      simp only [hn, ha, if_true, Bool.false_eq_true, if_false, bind, Except.bind, sendChar, lexChar, lexEnd]
      rfl
    rw [Bool.not_eq_true] at hn ha
    simp only [hn, ha, Bool.false_eq_true, if_false]
    by_cases hq : c = ch '"'
    · exact Or.inl ⟨trivial, by simp [hq], by simp only [if_pos hq]; rfl⟩
    by_cases hsp : isSpace c
    · exact Or.inl ⟨trivial, by simp [hsp], by simp only [if_neg hq, hsp, if_true]; rfl⟩
    · exact Or.inr ⟨trivial, by simp [hq, hsp], by simp only [if_neg hq, hsp, Bool.false_eq_true, if_false]; rfl⟩

/-- A character that is sent once. -/
theorem sendChar_once {n : ℕ} (h : parse.lexChar ops c = .ok (false, parse')) :
    sendChar ops (n + 1) parse c = .ok parse' := by
  rw [sendChar, h]
  rfl

/-- A character that ends a token, and is sent again if it is not part of
it. -/
theorem sendChar_ends {n : ℕ} (again : Bool)
    (h : parse.lexChar ops c = parse.lexTokenize ops >>= fun parse => .ok (again, parse)) :
    sendChar ops (n + 1) parse c =
      parse.lexTokenize ops >>= fun parse => if again then sendChar ops n parse c else .ok parse := by
  rw [sendChar, h]
  cases parse.lexTokenize ops <;> cases again <;> rfl

/-- A character that only the lexer takes note of. -/
structure Lexed (parse : Parse H V) (c : UInt8) : Prop where
  limbo : parse.lex = .limbo → easySym c = none ∧ isStray c = false
  quote : parse.lex = .string → c ≠ ch '"'
  goesOn : goesOn parse.lex c = true

/-- **A character**, with all its rounds. -/
theorem parseChar_cases (ops : JsonOps H V) (parse : Parse H V) (c : UInt8) :
    (parse.Lexed c ∧ parse.parseChar ops c = .ok (parse.lexNext c)) ∨
    (parse.lex = .limbo ∧ easySym c = none ∧ isStray c = true ∧
      parse.parseChar ops c = .ok (parse.parseError (.character c))) ∨
    (∃ sym, parse.lex = .limbo ∧ easySym c = some sym ∧ parse.parseChar ops c = parse.llParse ops ⟨sym, none⟩) ∨
    (parse.lex = .string ∧ c = ch '"' ∧ parse.parseChar ops c = parse.lexTokenize ops) ∨
    ∃ sym, pendingSym parse.lex = some sym ∧ Parse.goesOn parse.lex c = false ∧
      parse.parseChar ops c = parse.lexTokenize ops >>= fun parse => sendChar ops 2 parse c := by
  unfold parseChar
  cases hl : parse.lex with
  | limbo =>
    rcases sendChar_of_limbo ops c 1 hl with ⟨sym, he, heq⟩ | ⟨he, hs, heq⟩ | ⟨he, hs, heq⟩
    · exact Or.inr (Or.inr (Or.inl ⟨sym, rfl, he, heq⟩))
    · refine Or.inl ⟨⟨fun _ => ⟨he, hs⟩, (fun h => ?_), by rw [hl]; rfl⟩, heq⟩
      cases hl.symm.trans h
    · exact Or.inr (Or.inl ⟨rfl, he, hs, heq⟩)
  | string =>
    by_cases hb : c = ch '\\'
    · refine Or.inl ⟨⟨(fun h => by cases hl.symm.trans h), fun _ => by rw [hb]; decide, by rw [hl]; rfl⟩,
        sendChar_once ?_⟩
      simp only [lexChar, lexNext, hl, if_pos hb]
    by_cases hq : c = ch '"'
    · refine Or.inr (Or.inr (Or.inr (Or.inl ⟨rfl, hq, ?_⟩)))
      rw [sendChar_ends false (by simp only [lexChar, hl, if_neg hb, if_pos hq])]
      cases parse.lexTokenize ops <;> rfl
    · refine Or.inl ⟨⟨(fun h => by cases hl.symm.trans h), (fun _ => hq), by rw [hl]; rfl⟩, sendChar_once ?_⟩
      simp only [lexChar, lexNext, hl, if_neg hb, if_neg hq]
  | stringEsc =>
    refine Or.inl ⟨⟨(fun h => by cases hl.symm.trans h), (fun h => by cases hl.symm.trans h), by rw [hl]; rfl⟩,
      sendChar_once ?_⟩
    by_cases hu : c = ch 'u'
    · simp only [lexChar, lexNext, hl, if_pos hu]
    · simp only [lexChar, lexNext, hl, if_neg hu]
  | stringEscU =>
    refine Or.inl ⟨⟨(fun h => by cases hl.symm.trans h), (fun h => by cases hl.symm.trans h), by rw [hl]; rfl⟩,
      sendChar_once ?_⟩
    by_cases hu : 4 ≤ parse.lexU + 1
    · simp only [lexChar, lexNext, hl, if_pos hu]
    · simp only [lexChar, lexNext, hl, if_neg hu]
  | number =>
    by_cases hgo : inNumber c
    · refine Or.inl ⟨⟨(fun h => by cases hl.symm.trans h), (fun h => by cases hl.symm.trans h), by rw [hl]; exact hgo⟩,
        sendChar_once ?_⟩
      simp only [lexChar, lexNext, hl, lexEnd, hgo, if_true]
    · refine Or.inr (Or.inr (Or.inr (Or.inr ⟨.number, rfl, Bool.not_eq_true _ ▸ hgo, ?_⟩)))
      exact sendChar_ends true (by simp only [lexChar, hl, lexEnd, hgo, Bool.false_eq_true, if_false])
  | identifier =>
    by_cases hgo : isAlpha c
    · refine Or.inl ⟨⟨(fun h => by cases hl.symm.trans h), (fun h => by cases hl.symm.trans h), by rw [hl]; exact hgo⟩,
        sendChar_once ?_⟩
      simp only [lexChar, lexNext, hl, lexEnd, hgo, if_true]
    · refine Or.inr (Or.inr (Or.inr (Or.inr ⟨.identifier, rfl, Bool.not_eq_true _ ▸ hgo, ?_⟩)))
      exact sendChar_ends true (by simp only [lexChar, hl, lexEnd, hgo, Bool.false_eq_true, if_false])

/-- A character, by what the lexer is reading. -/
theorem parseChar_eq (ops : JsonOps H V) (parse : Parse H V) (c : UInt8) : parse.parseChar ops c =
    match parse.lex, easySym c with
    | .limbo, some sym => parse.llParse ops ⟨sym, none⟩
    | .limbo, none => .ok (if isStray c then parse.parseError (.character c) else parse.lexNext c)
    | lex, _ =>
      if lex = .string ∧ c = ch '"' then parse.lexTokenize ops
      else if goesOn lex c then .ok (parse.lexNext c)
      else parse.lexTokenize ops >>= fun parse => sendChar ops 2 parse c := by
  rcases parseChar_cases ops parse c with ⟨hlexed, hrun⟩ | ⟨hl, he, hs, hrun⟩ | ⟨sym, hl, he, hrun⟩ |
    ⟨hl, hq, hrun⟩ | ⟨sym, hpend, hgo, hrun⟩
  · rw [hrun]
    cases hl : parse.lex with
    | limbo =>
      obtain ⟨he, hs⟩ := hlexed.limbo hl
      rw [he]
      simp only [hs, Bool.false_eq_true, if_false]
    | string =>
      have hgo := hlexed.goesOn
      rw [hl] at hgo
      simp only [hlexed.quote hl, and_false, if_false, hgo, if_true]
    | _ =>
      have hgo := hlexed.goesOn
      rw [hl] at hgo
      simp only [reduceCtorEq, false_and, if_false, hgo, if_true]
  · rw [hrun, hl, he]
    simp only [hs, if_true]
  · rw [hrun, hl, he]
  · rw [hrun, hl]
    exact (if_pos ⟨rfl, hq⟩).symm
  · rw [hrun]
    cases hl : parse.lex with
    | number =>
      rw [hl] at hgo
      simp only [reduceCtorEq, false_and, if_false, hgo, Bool.false_eq_true]
    | identifier =>
      rw [hl] at hgo
      simp only [reduceCtorEq, false_and, if_false, hgo, Bool.false_eq_true]
    | _ =>
      rw [hl] at hpend
      cases hpend

/-- What is kept by tokens, by errors, and by what the lexer does in
between. -/
structure Kept (ops : JsonOps H V) (P : Parse H V → Prop) : Prop where
  lexed : ∀ {parse : Parse H V} (buf lex lexU), P parse → P { parse with buf := buf, lex := lex, lexU := lexU }
  easy : ∀ {parse parse' : Parse H V} {c sym}, P parse → easySym c = some sym →
    parse.llParse ops ⟨sym, none⟩ = .ok parse' → P parse'
  token : ∀ {parse parse' : Parse H V} {sym tok h}, P parse → lexSym parse.lex = some sym →
    parse.lexToken ops = .ok (tok, h) →
    { parse with heap := h, buf := parse.buf.reset, lex := .limbo }.llParse ops tok = .ok parse' → P parse'
  error : ∀ {parse : Parse H V} (c), P parse → P (parse.parseError (.character c))

variable {P : Parse H V → Prop}

theorem Kept.lexChar (hk : Kept ops P) {r : Bool × Parse H V} (h : P parse) (hrun : parse.lexChar ops c = .ok r) :
    P r.2 := by
  rcases lexChar_cases ops parse c with ⟨again, buf, lex, lexU, heq⟩ | ⟨sym, -, he, heq⟩ | ⟨again, sym, hs, heq⟩ | heq
  · rw [heq] at hrun
    cases hrun
    exact hk.lexed buf lex lexU h
  · rw [heq] at hrun
    cases hll : parse.llParse ops ⟨sym, none⟩ with
    | error f =>
      rw [hll] at hrun
      cases hrun
    | ok parse₁ =>
      rw [hll] at hrun
      cases hrun
      exact hk.easy h he hll
  · rw [heq, lexTokenize] at hrun
    cases htok : parse.lexToken ops with
    | error f =>
      rw [htok] at hrun
      cases hrun
    | ok th =>
      cases hll : ({ parse with heap := th.2, buf := parse.buf.reset, lex := .limbo } : Parse H V).llParse ops th.1 with
      | error f =>
        simp only [htok, bind, Except.bind, hll] at hrun
        cases hrun
      | ok parse₁ =>
        simp only [htok, bind, Except.bind, hll] at hrun
        cases hrun
        exact hk.token h hs htok hll
  · rw [heq] at hrun
    cases hrun
    exact hk.error c h

theorem Kept.sendChar (hk : Kept ops P) {n : ℕ} (h : P parse) (hrun : sendChar ops n parse c = .ok parse') :
    P parse' := by
  induction n generalizing parse with
  | zero => cases hrun
  | succ n ih =>
    rw [Parse.sendChar] at hrun
    cases hlex : parse.lexChar ops c with
    | error f =>
      rw [hlex] at hrun
      cases hrun
    | ok r =>
      obtain ⟨again, parse₁⟩ := r
      rw [hlex] at hrun
      have h₁ : P parse₁ := hk.lexChar h hlex
      cases again with
      | true => exact ih h₁ hrun
      | false =>
        cases hrun
        exact h₁

/-- **What every token keeps, every chunk keeps.** -/
theorem Kept.parseData (hk : Kept ops P) {data : List UInt8} (h : P parse)
    (hrun : parse.parseData ops data = .ok parse') : P parse' := by
  induction data generalizing parse with
  | nil =>
    cases hrun
    exact h
  | cons c data ih =>
    rw [Parse.parseData] at hrun
    cases he : parse.error with
    | some e =>
      rw [he] at hrun
      cases hrun
      exact h
    | none =>
      rw [he] at hrun
      cases hc : parse.parseChar ops c with
      | error f =>
        simp only [hc, bind, Except.bind] at hrun
        cases hrun
      | ok parse₁ =>
        simp only [hc, bind, Except.bind] at hrun
        exact ih (hk.sendChar h hc) hrun

end Parse

end Json

end Mowgli
