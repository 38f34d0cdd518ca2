import Mowgli.Ext.Json.Spelling
/-!
# The tokens of a text

What the lexer makes of a text has nothing to do with what is made of its
tokens. `scan` is the lexer alone: where the parser records no error, the
tokens that it was given are those.
-/

namespace Mowgli

namespace Json

/-- What the lexer has of a text. -/
structure Lexer where
  buf : MowgliString
  lex : Lex
  lexU : ℕ

namespace Parse

variable {H V : Type}

/-- The lexer of a parser. -/
def lexer (parse : Parse H V) : Lexer := ⟨parse.buf, parse.lex, parse.lexU⟩

/-- The parser with another lexer. -/
def withLexer (parse : Parse H V) (l : Lexer) : Parse H V :=
  { parse with buf := l.buf, lex := l.lex, lexU := l.lexU }

end Parse

namespace Lexer

/-- The lexer after a character that is no token, ends none and is no
error. -/
def next (l : Lexer) (c : UInt8) : Lexer := (((Parse.create () false : Parser).withLexer l).lexNext c).lexer

/-- The token that the lexer has when it ends. -/
def terminal (l : Lexer) : Terminal :=
  match l.lex with
  | .number => Lexeme.numberTerminal l.buf.str
  | .identifier => Lexeme.identifierTerminal l.buf.str
  | _ => .string (Parse.lexStringScan .create l.buf.bytes).bytes

/-- The lexer behind a token. -/
def reset (l : Lexer) : Lexer := { l with buf := l.buf.reset, lex := .limbo }

/-- A character outside of tokens. -/
def scanLimbo (l : Lexer) (c : UInt8) : List Terminal × Lexer :=
  match easyTerminal c with
  | some t => ([t], l)
  | none => ([], l.next c)

/-- The tokens that a character ends or is, and the lexer after it. -/
def scanChar (l : Lexer) (c : UInt8) : List Terminal × Lexer :=
  if l.lex = .limbo then l.scanLimbo c
  else if l.lex = .string ∧ c = ch '"' then ([l.terminal], l.reset)
  else if Parse.goesOn l.lex c then ([], l.next c)
  else (l.terminal :: (l.reset.scanLimbo c).1, (l.reset.scanLimbo c).2)

/-- The tokens of a text. A token that it does not end is none. -/
def scan (l : Lexer) : List UInt8 → List Terminal
  | [] => []
  | c :: data => (l.scanChar c).1 ++ scan (l.scanChar c).2 data

end Lexer

namespace Parse

section

variable {H V : Type} (parse : Parse H V) (l : Lexer) (c : UInt8)

@[simp] theorem lexer_withLexer : (parse.withLexer l).lexer = l := rfl

@[simp] theorem withLexer_lexer : parse.withLexer parse.lexer = parse := rfl

/-- What the lexer does depends on nothing else. -/
theorem lexer_lexNext {H' V' : Type} {parse' : Parse H' V'} (h : parse'.lexer = parse.lexer) :
    (parse'.lexNext c).lexer = (parse.lexNext c).lexer := by
  obtain ⟨heap, out, error, multidoc, build, stack, buf, lex, lexU, log⟩ := parse
  obtain ⟨heap', out', error', multidoc', build', stack', buf', lex', lexU', log'⟩ := parse'
  cases h
  unfold Parse.lexNext
  cases lex <;> simp only <;> first | rfl | (split_ifs <;> rfl)

theorem lexNext_lexer : parse.lexNext c = parse.withLexer (parse.lexer.next c) := by
  have hnext : parse.lexer.next c = (parse.lexNext c).lexer := lexer_lexNext parse c rfl
  rw [hnext]
  obtain ⟨buf, lex, lexU, heq⟩ := parse.lexNext_eq c
  rw [heq]
  rfl

end

variable {p p' : Parser} {c : UInt8} {data : List UInt8}

/-- The token that is parsed is that of the lexer. -/
theorem lexTokenize_lexer {sym : Sym} (hs : lexSym p.lex = some sym) :
    p.lexTokenize valueOps = (p.withLexer p.lexer.reset).llParse valueOps p.lexer.terminal.token := by
  unfold lexTokenize lexToken Lexer.terminal lexer
  cases hl : p.lex with
  | string => rfl
  | number =>
    simp only
    unfold numberValue Lexeme.numberTerminal
    split_ifs <;> rfl
  | identifier =>
    simp only
    unfold identifierValue Lexeme.identifierTerminal
    split_ifs <;> rfl
  | _ =>
    rw [hl] at hs
    cases hs

/-- What a token leaves of the lexer, and of the log. -/
theorem llParse_scanned {t : Terminal} (hrun : p.llParse valueOps t.token = .ok p') :
    p'.lexer = p.lexer ∧ tokens p'.log = tokens p.log ++ [t.token] := by
  obtain ⟨hb, parse₁, heap, -, hparsed, rfl⟩ := llParse_parsed hrun
  refine ⟨?_, (llParse_logged hrun).1⟩
  cases hparsed <;> rfl

/-- **A character outside of tokens.** -/
theorem scanLimbo_parseChar (hl : p.lex = .limbo) (hrun : p.parseChar valueOps c = .ok p') (he : p'.error = none) :
    p'.lexer = (p.lexer.scanLimbo c).2 ∧
      tokens p'.log = tokens p.log ++ (p.lexer.scanLimbo c).1.map Terminal.token := by
  rw [parseChar_eq, hl] at hrun
  unfold Lexer.scanLimbo
  cases hs : easySym c with
  | some sym =>
    rw [hs] at hrun
    obtain ⟨t, ht, htok⟩ := easySym_terminal hs
    rw [ht]
    exact llParse_scanned (htok ▸ hrun)
  | none =>
    rw [hs] at hrun
    rw [(easyTerminal_eq_none c).2 hs]
    simp only [Except.ok.injEq] at hrun
    split_ifs at hrun with hstray
    · subst hrun
      cases he
    · rw [← hrun, lexNext_lexer]
      exact ⟨rfl, (List.append_nil _).symm⟩

/-- **A character.** -/
theorem scanChar_parseChar (hrun : p.parseChar valueOps c = .ok p') (he : p'.error = none) :
    p'.lexer = (p.lexer.scanChar c).2 ∧
      tokens p'.log = tokens p.log ++ (p.lexer.scanChar c).1.map Terminal.token := by
  rcases parseChar_cases valueOps p c with ⟨hlexed, heq⟩ | ⟨hl, -, -, heq⟩ | ⟨sym, hl, -, -⟩ | ⟨hl, hq, heq⟩ |
    ⟨sym, hpend, hgo', heq⟩
  · have hscan : p.lexer.scanChar c = ([], p.lexer.next c) := by
      unfold Lexer.scanChar
      by_cases hl : p.lexer.lex = .limbo
      · rw [if_pos hl, Lexer.scanLimbo, (easyTerminal_eq_none c).2 (hlexed.limbo hl).1]
      · have hq : ¬ (p.lexer.lex = .string ∧ c = ch '"') := fun h => hlexed.quote h.1 h.2
        have hgo : goesOn p.lexer.lex c = true := hlexed.goesOn
        rw [if_neg hl, if_neg hq, if_pos hgo]
    rw [hscan, ← Except.ok.inj (heq.symm.trans hrun), lexNext_lexer]
    exact ⟨rfl, (List.append_nil _).symm⟩
  · rw [← Except.ok.inj (heq.symm.trans hrun)] at he
    cases he
  · unfold Lexer.scanChar
    rw [if_pos (show p.lexer.lex = .limbo from hl)]
    exact scanLimbo_parseChar hl hrun he
  · have hscan : p.lexer.scanChar c = ([p.lexer.terminal], p.lexer.reset) := by
      have hne : ¬ p.lexer.lex = .limbo := fun h => by cases hl.symm.trans h
      unfold Lexer.scanChar
      rw [if_neg hne, if_pos ⟨hl, hq⟩]
    rw [hscan]
    exact llParse_scanned ((lexTokenize_lexer (by rw [hl]; rfl)).symm.trans (heq.symm.trans hrun))
  · have hscan : p.lexer.scanChar c =
        (p.lexer.terminal :: (p.lexer.reset.scanLimbo c).1, (p.lexer.reset.scanLimbo c).2) := by
      have hlimbo : p.lexer.lex ≠ .limbo := fun h => by
        rw [show p.lex = .limbo from h] at hpend
        cases hpend
      have hstring : p.lexer.lex ≠ .string := fun h => by
        rw [show p.lex = .string from h] at hpend
        cases hpend
      have hgo : ¬ goesOn p.lexer.lex c = true := by
        rw [show goesOn p.lexer.lex c = false from hgo']
        exact Bool.false_ne_true
      unfold Lexer.scanChar
      rw [if_neg hlimbo, if_neg fun h => hstring h.1, if_neg hgo]
    rw [hscan]
    rw [heq] at hrun
    cases htok : p.lexTokenize valueOps with
    | error f =>
      rw [htok] at hrun
      cases hrun
    | ok p₁ =>
      rw [htok] at hrun
      have hlexSym : lexSym p.lex = some sym := by
        cases hl : p.lex <;> rw [hl] at hpend <;> first | exact hpend | cases hpend
      obtain ⟨hlexer, hlog⟩ := llParse_scanned ((lexTokenize_lexer hlexSym).symm.trans htok)
      have hlimbo : p₁.lex = .limbo := congrArg Lexer.lex hlexer
      obtain ⟨hlexer', hlog'⟩ := scanLimbo_parseChar hlimbo ((sendChar_two hlimbo c).symm.trans hrun) he
      rw [hlexer] at hlexer' hlog'
      refine ⟨hlexer', ?_⟩
      rw [hlog', hlog, List.append_assoc]
      rfl

/-- **All that is fed.** -/
theorem scan_parseData (hrun : p.parseData valueOps data = .ok p') (he : p'.error = none) :
    tokens p'.log = tokens p.log ++ (p.lexer.scan data).map Terminal.token ∧
      ∀ more, p.lexer.scan (data ++ more) = p.lexer.scan data ++ p'.lexer.scan more := by
  induction data generalizing p with
  | nil =>
    cases hrun
    exact ⟨(List.append_nil _).symm, fun _ => rfl⟩
  | cons c data ih =>
    cases herr : p.error with
    | some e =>
      rw [parseData_error herr] at hrun
      rw [← Except.ok.inj hrun, herr] at he
      cases he
    | none =>
      obtain ⟨p₁, hchar, hdata⟩ := parseData_cons herr hrun
      have he₁ : p₁.error = none := by
        cases h₁ : p₁.error with
        | none => rfl
        | some e =>
          rw [parseData_error h₁] at hdata
          rw [← Except.ok.inj hdata, h₁] at he
          cases he
      obtain ⟨hlexer, hlog⟩ := scanChar_parseChar hchar he₁
      obtain ⟨hlogs, hmore⟩ := ih hdata
      rw [hlexer] at hlogs hmore
      refine ⟨?_, fun more => ?_⟩
      · rw [hlogs, hlog, Lexer.scan, List.map_append, List.append_assoc]
      · rw [List.cons_append, Lexer.scan, Lexer.scan, hmore, List.append_assoc]

end Parse

end Json

end Mowgli
