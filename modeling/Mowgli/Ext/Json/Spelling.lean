import Mowgli.Ext.Json.Lexemes
/-!
# What the parser reads

A lexeme that is fed to the parser is its token parsed, whatever is done
with it; and where no error was recorded, the text that was fed is lexemes,
their tokens in the log, and what the lexer has of one more.
-/

namespace Mowgli

namespace Json

namespace Parse

variable {parse parse' : Parser} {c : UInt8} {w r : List UInt8} {x : Lexeme} {l : List Lexeme}

theorem parseData_next (he : parse.error = none) (c : UInt8) (data : List UInt8) :
    parse.parseData valueOps (c :: data) =
      parse.parseChar valueOps c >>= fun parse => parse.parseData valueOps data := by
  rw [parseData, he]

/-! ## Tokens -/

/-- The lexeme that the lexer has. -/
def lexeme (parse : Parser) : Lexeme :=
  match parse.lex with
  | .number => .number parse.buf.bytes
  | .identifier => .identifier parse.buf.bytes
  | _ => .string parse.buf.bytes

/-- The lexer makes the terminal of its lexeme. -/
theorem lexTokenize_lexeme {sym : Sym} (hs : lexSym parse.lex = some sym) (h0 : 0 ∉ parse.buf.bytes) :
    ∃ t, parse.lexeme.terminal = some t ∧ parse.lexTokenize valueOps =
      ({ parse with buf := parse.buf.reset, lex := .limbo } : Parser).llParse valueOps t.token := by
  have hstr : parse.buf.str = parse.buf.bytes := MowgliString.str_of_not_mem h0
  unfold lexTokenize lexToken lexeme
  cases hl : parse.lex with
  | string => exact ⟨_, rfl, rfl⟩
  | number =>
    refine ⟨_, rfl, ?_⟩
    rw [hstr]
    unfold numberValue Lexeme.numberTerminal
    split_ifs <;> rfl
  | identifier =>
    refine ⟨_, rfl, ?_⟩
    rw [hstr]
    unfold identifierValue Lexeme.identifierTerminal
    split_ifs <;> rfl
  | _ =>
    rw [hl] at hs
    cases hs

/-- Outside of tokens a character does the same however often it could be
sent. -/
theorem sendChar_two (hl : parse.lex = .limbo) (c : UInt8) :
    sendChar valueOps 2 parse c = parse.parseChar valueOps c := by
  rcases sendChar_of_limbo valueOps c 0 hl with ⟨sym, hs, h⟩ | ⟨hs, hst, h⟩ | ⟨hs, hst, h⟩ <;>
    rcases sendChar_of_limbo valueOps c 1 hl with ⟨sym', hs', h'⟩ | ⟨hs', hst', h'⟩ | ⟨hs', hst', h'⟩
  · obtain rfl : sym = sym' := Option.some.inj (hs.symm.trans hs')
    exact h.trans h'.symm
  · cases hs.symm.trans hs'
  · cases hs.symm.trans hs'
  · cases hs.symm.trans hs'
  · exact h.trans h'.symm
  · cases hst.symm.trans hst'
  · cases hs.symm.trans hs'
  · cases hst.symm.trans hst'
  · exact h.trans h'.symm

/-! ## The lexer goes on -/

/-- A character more of a number or an identifier. -/
theorem parseChar_word {sym : Sym} (hs : pendingSym parse.lex = some sym) (hgo : goesOn parse.lex c = true) :
    parse.parseChar valueOps c = .ok (parse.lexAppend c) := by
  have hnext : parse.lexNext c = parse.lexAppend c := by
    unfold lexNext
    cases hl : parse.lex <;> rw [hl] at hs <;> first | rfl | cases hs
  rw [← hnext]
  rcases parseChar_cases valueOps parse c with ⟨-, hrun⟩ | ⟨hl, -⟩ | ⟨_, hl, -⟩ | ⟨hl, -⟩ | ⟨_, -, hgo', -⟩
  · exact hrun
  · rw [hl] at hs
    cases hs
  · rw [hl] at hs
    cases hs
  · rw [hl] at hs
    cases hs
  · rw [hgo] at hgo'
    cases hgo'

/-- The characters of a number or an identifier. -/
theorem parseData_word {sym : Sym} (he : parse.error = none) (hs : pendingSym parse.lex = some sym)
    (hw : ∀ c ∈ w, goesOn parse.lex c = true) (h0 : 0 ∉ parse.buf.bytes ++ w) (r : List UInt8) :
    ∃ buf : MowgliString, buf.bytes = parse.buf.bytes ++ w ∧
      parse.parseData valueOps (w ++ r) = ({ parse with buf := buf } : Parser).parseData valueOps r := by
  induction w generalizing parse with
  | nil => exact ⟨parse.buf, (List.append_nil _).symm, rfl⟩
  | cons c w ih =>
    rw [List.forall_mem_cons] at hw
    have hchar := parseChar_word hs hw.1
    have hbytes : (parse.buf.appendChar c).bytes = parse.buf.bytes ++ [c] :=
      MowgliString.appendChar_bytes (fun h => h0 (List.mem_append_left _ h)) c
    have h0' : 0 ∉ (parse.lexAppend c).buf.bytes ++ w := by
      rw [lexAppend, hbytes, List.append_assoc]
      exact h0
    obtain ⟨buf, hbuf, hrun⟩ := @ih (parse.lexAppend c) he hs hw.2 h0'
    refine ⟨buf, ?_, ?_⟩
    · rw [hbuf, lexAppend, hbytes, List.append_assoc]
      rfl
    · rw [List.cons_append, parseData_next he, hchar]
      exact hrun

theorem next_ne_plain {m : Mode} (hm : m ≠ .plain) (hq : ¬ (m = .string ∧ c = ch '"')) : m.next c ≠ .plain := by
  cases m with
  | plain => exact absurd rfl hm
  | string =>
    have hc : c ≠ ch '"' := fun hc => hq ⟨rfl, hc⟩
    simp only [Mode.next, if_neg hc]
    split_ifs <;> simp
  | escape | unicode n =>
    simp only [Mode.next]
    split_ifs <;> simp

/-- The lexer in a string: what it appends, and where it is. -/
theorem lexNext_string (hm : parse.mode ≠ .plain) (hq : ¬ (parse.mode = .string ∧ c = ch '"')) :
    parse.parseChar valueOps c = .ok (parse.lexNext c) ∧ (parse.lexNext c).mode = parse.mode.next c ∧
      ∃ lex lexU, parse.lexNext c = { parse with buf := parse.buf.appendChar c, lex := lex, lexU := lexU } := by
  have hlexed : parse.Lexed c := by
    refine ⟨fun hl => ?_, fun hl hc => ?_, ?_⟩
    · exact absurd (mode_plain_of_lex (Or.inl hl)) hm
    · refine hq ⟨?_, hc⟩
      rw [mode, hl]
    · cases hl : parse.lex with
      | number | identifier => exact absurd (mode_plain_of_lex (Or.inr (by rw [hl]; rfl))) hm
      | _ => rfl
  refine ⟨?_, (hlexed.mode_next 0).1, ?_⟩
  · rcases parseChar_cases valueOps parse c with ⟨-, hrun⟩ | ⟨hl, -⟩ | ⟨sym, hl, -⟩ | ⟨hl, hc, -⟩ | ⟨sym, hpend, -⟩
    · exact hrun
    · exact absurd (mode_plain_of_lex (Or.inl hl)) hm
    · exact absurd (mode_plain_of_lex (Or.inl hl)) hm
    · exact absurd hc (hlexed.quote hl)
    · exact absurd (mode_plain_of_lex (Or.inr (by rw [hpend]; rfl))) hm
  · unfold lexNext
    cases hl : parse.lex with
    | limbo => exact absurd (mode_plain_of_lex (Or.inl hl)) hm
    | string =>
      simp only
      split_ifs
      · exact ⟨_, _, rfl⟩
      · exact ⟨parse.lex, parse.lexU, rfl⟩
    | stringEsc =>
      simp only
      split_ifs
      · exact ⟨_, _, rfl⟩
      · exact ⟨_, _, rfl⟩
    | stringEscU =>
      simp only
      split_ifs
      · exact ⟨_, _, rfl⟩
      · exact ⟨parse.lex, parse.lexU + 1, rfl⟩
    | number => exact ⟨parse.lex, parse.lexU, rfl⟩
    | identifier => exact ⟨parse.lex, parse.lexU, rfl⟩

/-- The characters of a string, NULs or not: they are appended one by one. -/
theorem parseData_appendAll {m : Mode} (he : parse.error = none) (hm : parse.mode ≠ .plain)
    (h : inString parse.mode w = some m) (r : List UInt8) :
    ∃ lex lexU, ({ parse with buf := parse.buf.appendAll w, lex := lex, lexU := lexU } : Parser).mode = m ∧ m ≠ .plain ∧
      parse.parseData valueOps (w ++ r) =
        ({ parse with buf := parse.buf.appendAll w, lex := lex, lexU := lexU } : Parser).parseData valueOps r := by
  induction w generalizing parse with
  | nil =>
    cases h
    exact ⟨parse.lex, parse.lexU, rfl, hm, rfl⟩
  | cons c w ih =>
    rw [inString] at h
    split_ifs at h with hq
    obtain ⟨hchar, hnext, lex, lexU, heq⟩ := lexNext_string hm hq
    have hm' : (parse.lexNext c).mode ≠ .plain := by
      rw [hnext]
      exact next_ne_plain hm hq
    rw [← hnext] at h
    have he' : (parse.lexNext c).error = none := by
      rw [heq]
      exact he
    obtain ⟨lex', lexU', hmode, hne, hrun⟩ := ih he' hm' h
    rw [heq] at hmode hrun
    refine ⟨lex', lexU', hmode, hne, ?_⟩
    rw [List.cons_append, parseData_next he, hchar, heq]
    exact hrun

/-- The characters of a string. -/
theorem parseData_inString {m : Mode} (he : parse.error = none) (hm : parse.mode ≠ .plain)
    (h : inString parse.mode w = some m) (h0 : 0 ∉ parse.buf.bytes ++ w) (r : List UInt8) :
    ∃ buf lex lexU, buf.bytes = parse.buf.bytes ++ w ∧
      ({ parse with buf := buf, lex := lex, lexU := lexU } : Parser).mode = m ∧ m ≠ .plain ∧
      parse.parseData valueOps (w ++ r) =
        ({ parse with buf := buf, lex := lex, lexU := lexU } : Parser).parseData valueOps r := by
  obtain ⟨lex, lexU, hmode, hne, hrun⟩ := parseData_appendAll he hm h r
  exact ⟨_, lex, lexU, MowgliString.appendAll_bytes h0, hmode, hne, hrun⟩

/-! ## The lexer begins a token -/

/-- A character outside of tokens that begins one. -/
theorem parseChar_begins (hl : parse.lex = .limbo) (hs : easySym c = none) (hst : isStray c = false) :
    parse.parseChar valueOps c = .ok (parse.lexNext c) := by
  rw [parseChar_eq, hl, hs]
  simp only [hst, Bool.false_eq_true, if_false]

/-- The first character of a number or an identifier. -/
theorem appendChar_first (hb : parse.buf.bytes = []) (c : UInt8) : (parse.buf.appendChar c).bytes = [c] := by
  have h0 : 0 ∉ parse.buf.bytes := by
    rw [hb]
    exact List.not_mem_nil
  rw [MowgliString.appendChar_bytes h0, hb]
  rfl

/-- A string that is opened. -/
theorem parseData_string {m : Mode} (he : parse.error = none) (hl : parse.lex = .limbo) (hb : parse.buf.bytes = [])
    (hw : inString .string w = some m) (h0 : 0 ∉ w) (r : List UInt8) : ∃ buf lex lexU, buf.bytes = w ∧
      ({ parse with buf := buf, lex := lex, lexU := lexU } : Parser).mode = m ∧
      parse.parseData valueOps (ch '"' :: (w ++ r)) =
        ({ parse with buf := buf, lex := lex, lexU := lexU } : Parser).parseData valueOps r := by
  have hquote : parse.parseChar valueOps (ch '"') = .ok { parse with lex := .string } := by
    rw [parseChar_begins hl (by decide) (by decide), lexNext, hl]
    rfl
  have h0b : 0 ∉ parse.buf.bytes ++ w := by
    rw [hb]
    exact h0
  obtain ⟨buf, lex, lexU, hbuf, hmode, -, hrun⟩ := @parseData_inString { parse with lex := .string } w m he
    (by simp [mode]) hw h0b r
  refine ⟨buf, lex, lexU, ?_, hmode, ?_⟩
  · rw [hbuf]
    exact congrArg (· ++ w) hb
  · rw [parseData_next he, hquote]
    exact hrun

/-- The first character of a word, and the rest of it. -/
theorem parseData_begun {lex : Lex} {sym : Sym} (he : parse.error = none) (hb : parse.buf.bytes = [])
    (hbegin : parse.parseChar valueOps c = .ok { parse.lexAppend c with lex := lex }) (hs : pendingSym lex = some sym)
    (hw : ∀ c ∈ w, goesOn lex c = true) (h0 : 0 ∉ c :: w) (r : List UInt8) : ∃ buf : MowgliString, buf.bytes = c :: w ∧
      parse.parseData valueOps (c :: w ++ r) =
        ({ parse with buf := buf, lex := lex } : Parser).parseData valueOps r := by
  obtain ⟨buf, hbuf, hrun⟩ := @parseData_word { parse.lexAppend c with lex := lex } w sym he hs hw
    (by rw [lexAppend, appendChar_first hb]; exact h0) r
  refine ⟨buf, ?_, ?_⟩
  · rw [hbuf, lexAppend, appendChar_first hb]
    rfl
  · rw [List.cons_append, parseData_next he, hbegin]
    exact hrun

/-- A number that begins. -/
theorem parseData_number (he : parse.error = none) (hl : parse.lex = .limbo) (hb : parse.buf.bytes = [])
    (hw : (Lexeme.number w).Scanned) (h0 : 0 ∉ w) (r : List UInt8) : ∃ buf : MowgliString, buf.bytes = w ∧
      parse.parseData valueOps (w ++ r) =
        ({ parse with buf := buf, lex := .number } : Parser).parseData valueOps r := by
  obtain ⟨hhead, hall⟩ := hw
  cases w with
  | nil => cases hhead
  | cons c w =>
    change beginsNumber c = true at hhead
    obtain ⟨-, hnone, -⟩ := number_char c hhead
    have hbegin : parse.parseChar valueOps c = .ok { parse.lexAppend c with lex := .number } := by
      rw [parseChar_begins hl ((easyTerminal_eq_none c).1 hnone) (by simp [isStray, hhead]), lexNext, hl]
      simp only [hhead, if_true]
    exact parseData_begun he hb hbegin rfl (List.forall_mem_cons.1 hall).2 h0 r

/-- An identifier that begins. -/
theorem parseData_identifier (he : parse.error = none) (hl : parse.lex = .limbo) (hb : parse.buf.bytes = [])
    (hw : (Lexeme.identifier w).Scanned) (h0 : 0 ∉ w) (r : List UInt8) : ∃ buf : MowgliString, buf.bytes = w ∧
      parse.parseData valueOps (w ++ r) =
        ({ parse with buf := buf, lex := .identifier } : Parser).parseData valueOps r := by
  obtain ⟨hne, hall⟩ := hw
  obtain ⟨c, w, rfl⟩ := List.exists_cons_of_ne_nil hne
  rw [List.forall_mem_cons] at hall
  obtain ⟨-, hnone, -, hnum⟩ := alpha_char c hall.1
  have hbegin : parse.parseChar valueOps c = .ok { parse.lexAppend c with lex := .identifier } := by
    rw [parseChar_begins hl ((easyTerminal_eq_none c).1 hnone) (by simp [isStray, hall.1]), lexNext, hl]
    simp only [hnum, hall.1, Bool.false_eq_true, if_false, if_true]
  exact parseData_begun he hb hbegin rfl hall.2 h0 r

/-- A space. -/
theorem parseData_space (he : parse.error = none) (hl : parse.lex = .limbo) (hc : isSpace c) (r : List UInt8) :
    parse.parseData valueOps (c :: r) = parse.parseData valueOps r := by
  have hspace : ∀ c : UInt8, isSpace c = true → easySym c = none ∧ isStray c = false ∧ beginsNumber c = false ∧
      isAlpha c = false ∧ c ≠ ch '"' :=
    forall_uint8 (by decide +kernel)
  obtain ⟨hnone, hst, hnum, hal, hq⟩ := hspace c hc
  have hnext : parse.lexNext c = parse := by
    rw [lexNext, hl]
    simp only [hnum, hal, hq, Bool.false_eq_true, if_false]
  rw [parseData_next he, parseChar_begins hl hnone hst, hnext]
  rfl

/-- What is unfinished at the end of a text only the lexer takes note of. -/
theorem parseData_unfinished (he : parse.error = none) (hl : parse.lex = .limbo) (hb : parse.buf.bytes = [])
    (h : Unfinished r) (h0 : 0 ∉ r) : ∃ buf lex lexU,
      parse.parseData valueOps r = .ok { parse with buf := buf, lex := lex, lexU := lexU } := by
  rw [← List.append_nil r]
  cases h with
  | nil => exact ⟨parse.buf, parse.lex, parse.lexU, rfl⟩
  | @string w hw =>
    obtain ⟨m, hm⟩ := Option.isSome_iff_exists.1 hw
    obtain ⟨buf, lex, lexU, -, -, hrun⟩ := parseData_string he hl hb hm (fun h => h0 (List.mem_cons_of_mem _ h)) []
    exact ⟨buf, lex, lexU, hrun⟩
  | number hw =>
    obtain ⟨buf, -, hrun⟩ := parseData_number he hl hb hw h0 []
    exact ⟨buf, .number, parse.lexU, hrun⟩
  | identifier hw =>
    obtain ⟨buf, -, hrun⟩ := parseData_identifier he hl hb hw h0 []
    exact ⟨buf, .identifier, parse.lexU, hrun⟩

/-! ## A lexeme is fed -/

/-- A text is a token that is parsed, with `r` fed to what that leaves, if it
is no error. -/
def Parses (parse : Parser) (data : List UInt8) (t : Terminal) (r : List UInt8) : Prop :=
  ∃ buf lexU k, buf.bytes = [] ∧ parse.parseData valueOps data =
    (({ parse with buf := buf, lex := .limbo, lexU := lexU } : Parser).llParse valueOps t.token >>= k) ∧
    ∀ parse : Parser, parse.error = none → parse.lex = .limbo → k parse = parse.parseData valueOps r

/-- What only the lexer takes note of is fed before the token. -/
theorem Parses.lexed {t : Terminal} {data data' : List UInt8} {buf : MowgliString} {lex : Lex} {lexU : ℕ}
    (hrun : parse.parseData valueOps data =
      ({ parse with buf := buf, lex := lex, lexU := lexU } : Parser).parseData valueOps data')
    (h : Parses { parse with buf := buf, lex := lex, lexU := lexU } data' t r) : Parses parse data t r := by
  obtain ⟨buf', lexU', k, hbuf, hdata, hk⟩ := h
  exact ⟨buf', lexU', k, hbuf, hrun.trans hdata, hk⟩

/-- The character that ends a number or an identifier. -/
theorem parses_pending {sym : Sym} {t : Terminal} (he : parse.error = none) (hs : pendingSym parse.lex = some sym)
    (hgo : goesOn parse.lex c = false) (h0 : 0 ∉ parse.buf.bytes) (ht : parse.lexeme.terminal = some t) :
    Parses parse (c :: r) t (c :: r) := by
  have hsym : lexSym parse.lex = some sym := by
    cases hl : parse.lex <;> rw [hl] at hs <;> first | exact hs | cases hs
  obtain ⟨t', ht', htok⟩ := lexTokenize_lexeme hsym h0
  obtain rfl : t' = t := Option.some.inj (ht'.symm.trans ht)
  refine ⟨parse.buf.reset, parse.lexU, fun parse => sendChar valueOps 2 parse c >>= fun parse =>
    parse.parseData valueOps r, rfl, ?_, fun parse he hl => ?_⟩
  · have hchar : parse.parseChar valueOps c = parse.lexTokenize valueOps >>= fun parse => sendChar valueOps 2 parse c := by
      rcases parseChar_cases valueOps parse c with ⟨hlexed, -⟩ | ⟨hl, -⟩ | ⟨_, hl, -⟩ | ⟨hl, -⟩ | ⟨_, -, -, hrun⟩
      · rw [hlexed.goesOn] at hgo
        cases hgo
      · rw [hl] at hs
        cases hs
      · rw [hl] at hs
        cases hs
      · rw [hl] at hs
        cases hs
      · exact hrun
    rw [parseData_next he, hchar, htok]
    exact bind_assoc ..
  · beta_reduce
    rw [sendChar_two hl, parseData_next he]

/-- The quote that closes a string. -/
theorem parses_quote (he : parse.error = none) (hl : parse.lex = .string) :
    Parses parse (ch '"' :: r) (.string (lexStringScan .create parse.buf.bytes).bytes) r := by
  refine ⟨parse.buf.reset, parse.lexU, fun parse => parse.parseData valueOps r, rfl, ?_, fun _ _ _ => rfl⟩
  have htok : parse.lexToken valueOps = .ok (⟨.string, some (.string (lexStringScan .create parse.buf.bytes).bytes)⟩, ()) := by
    rw [lexToken, hl]
    rfl
  rw [parseData_next he, parseChar_eq, hl]
  simp only [and_self, if_true]
  rw [lexTokenize, htok]
  rfl

/-- **A string is fed**, NULs or not. -/
theorem parses_string (he : parse.error = none) (hl : parse.lex = .limbo) (hw : inString .string w = some .string) :
    Parses parse (ch '"' :: (w ++ ch '"' :: r)) (.string (lexStringScan .create (parse.buf.appendAll w).bytes).bytes) r := by
  have hquote : parse.parseChar valueOps (ch '"') = .ok { parse with lex := .string } := by
    rw [parseChar_begins hl (by decide) (by decide), lexNext, hl]
    rfl
  obtain ⟨lex, lexU, hmode, -, hrun⟩ := parseData_appendAll
    (show ({ parse with lex := .string } : Parser).error = none from he) (by simp [mode]) hw (ch '"' :: r)
  obtain rfl : lex = .string := by
    cases lex <;> first | rfl | cases hmode
  have hend : Parses { parse with buf := parse.buf.appendAll w, lex := .string, lexU := lexU } (ch '"' :: r) _ r :=
    parses_quote he rfl
  refine Parses.lexed ?_ hend
  rw [parseData_next he, hquote]
  exact hrun

/-- **A number is fed**, and a character that is in none. -/
theorem parses_number (he : parse.error = none) (hl : parse.lex = .limbo) (hb : parse.buf.bytes = [])
    (hw : (Lexeme.number w).Scanned) (h0 : 0 ∉ w) (hc : inNumber c = false) :
    Parses parse (w ++ c :: r) (Lexeme.numberTerminal w) (c :: r) := by
  obtain ⟨buf, rfl, hrun⟩ := parseData_number he hl hb hw h0 (c :: r)
  exact Parses.lexed hrun (parses_pending he rfl hc h0 rfl)

/-- **A lexeme is fed.** -/
theorem parses_lexeme {t : Terminal} (he : parse.error = none) (hl : parse.lex = .limbo)
    (hb : parse.buf.bytes = []) (hx : x.Scanned) (ht : x.terminal = some t) (h0 : 0 ∉ x.text)
    (hr : x.IsWord → ∃ c r', r = c :: r' ∧ inNumber c = false ∧ isAlpha c = false) :
    Parses parse (x.text ++ r) t r := by
  cases x with
  | space c => cases ht
  | easy c =>
    obtain ⟨hs, hval⟩ := easyTerminal_token ht
    have htok : t.token = ⟨t.sym, none⟩ := by rw [Terminal.token, hval]
    have hself : ({ parse with lex := .limbo } : Parser) = parse := by rw [← hl]
    refine ⟨parse.buf, parse.lexU, fun parse => parse.parseData valueOps r, hb, ?_, fun _ _ _ => rfl⟩
    show parse.parseData valueOps (c :: r) = ({ parse with lex := .limbo } : Parser).llParse valueOps t.token >>= _
    rw [hself, htok, parseData_next he, parseChar_eq, hl, hs]
  | string w =>
    have h0w : 0 ∉ parse.buf.bytes ++ w := by
      rw [hb]
      exact fun h => h0 (List.mem_cons_of_mem _ (List.mem_append_left _ h))
    have hstring := parses_string (r := r) he hl hx
    rw [MowgliString.appendAll_bytes h0w, hb, List.nil_append] at hstring
    obtain rfl := Option.some.inj ht
    have htext : (Lexeme.string w).text ++ r = ch '"' :: (w ++ ch '"' :: r) := by
      simp [Lexeme.text]
    rw [htext]
    exact hstring
  | number w =>
    obtain ⟨d, r', rfl, hd, -⟩ := hr trivial
    obtain rfl := Option.some.inj ht
    exact parses_number he hl hb hx h0 hd
  | identifier w =>
    obtain ⟨d, r', rfl, -, hd⟩ := hr trivial
    obtain ⟨buf, rfl, hrun⟩ := parseData_identifier he hl hb hx h0 (d :: r')
    exact Parses.lexed hrun (parses_pending he rfl hd h0 ht)

/-! ## A document is fed -/

/-- The spaces after a document. -/
theorem parseData_spaces {P : Parser} (h : parse.parseData valueOps (textOf l ++ r) = .ok P)
    (he : parse.error = none) (hl : parse.lex = .limbo) (hscan : ∀ x ∈ l, x.Scanned) (hnil : terminals l = []) :
    parse.parseData valueOps r = .ok P := by
  induction l with
  | nil => exact h
  | cons x l ih =>
    rw [List.forall_mem_cons] at hscan
    obtain ⟨hx, hnil'⟩ : x.terminal = none ∧ terminals l = [] := by
      cases hx : x.terminal with
      | none => exact ⟨rfl, by simpa [terminals, hx] using hnil⟩
      | some t => simp [terminals, hx] at hnil
    obtain ⟨c, rfl⟩ := hscan.1.loose.terminal_eq_none hx
    change parse.parseData valueOps (c :: (textOf l ++ r)) = .ok P at h
    rw [parseData_space he hl hscan.1] at h
    exact ih h hscan.2 hnil'

/-- **The lexemes of a document are fed**, and its value is on the queue. -/
theorem parseData_document {v : Value} {P : Parser} (hok : parse.parseData valueOps (textOf l ++ r) = .ok P)
    (he : parse.error = none) (hl : parse.lex = .limbo) (hb : parse.buf.bytes = []) (hscan : ∀ x ∈ l, x.Scanned)
    (hp : Parted l) (h0 : 0 ∉ textOf l) (hs : parse.stack ≠ [])
    (hfeeds : predictor.Feeds parse.stack parse.build (terminals l) [] [v]) :
    ∃ p : Parser, p.error = none ∧ p.lex = .limbo ∧ p.buf.bytes = [] ∧ p.out = parse.out ++ [v] ∧
      p.parseData valueOps r = .ok P := by
  induction l generalizing parse with
  | nil =>
    generalize parse.stack = σ at hs hfeeds
    generalize parse.build = b at hfeeds
    cases hfeeds
    exact absurd rfl hs
  | cons x l ih =>
    rw [List.forall_mem_cons] at hscan
    have htext : textOf (x :: l) = x.text ++ textOf l := List.flatMap_cons
    rw [htext, List.mem_append, not_or] at h0
    rw [htext, List.append_assoc] at hok
    cases hx : x.terminal with
    | none =>
      have hcons : terminals (x :: l) = terminals l := by simp [terminals, hx]
      rw [hcons] at hfeeds
      obtain ⟨c, rfl⟩ := hscan.1.loose.terminal_eq_none hx
      have hspace : parse.parseData valueOps (c :: (textOf l ++ r)) = .ok P := hok
      rw [parseData_space he hl hscan.1] at hspace
      exact ih hspace he hl hb hscan.2 hp.2 h0.2 hs hfeeds
    | some t =>
      have hcons : terminals (x :: l) = t :: terminals l := by simp [terminals, hx]
      rw [hcons] at hfeeds
      obtain ⟨rest, b₁, hv, hact, hrest⟩ := feeds_course (tokCourse_not_endless parse.stack t.sym) hfeeds
      have hnext : x.IsWord → ∃ c r', textOf l ++ r = c :: r' ∧ inNumber c = false ∧ isAlpha c = false := by
        intro hw
        obtain ⟨c, r', heq, hn, -, ha⟩ := hp.next (fun y hy => (hscan.2 y hy).loose) hw r
        exact ⟨c, r', heq, hn, ha⟩
      obtain ⟨buf, lexU, k, hbuf, hrun, hk⟩ := parses_lexeme he hl hb hscan.1 hx h0.1 hnext
      rw [hrun] at hok
      rcases @llParse_accept _ _ { parse with buf := buf, lex := .limbo, lexU := lexU } hact with
        hover | ⟨parse₁, hparsed, hll⟩
      · rw [hover] at hok
        cases hok
      rw [hll] at hok
      have hgo : parse₁.error = none → parse₁.lex = .limbo → parse₁.parseData valueOps (textOf l ++ r) = .ok P :=
        fun he₁ hl₁ => (hk parse₁ he₁ hl₁).symm.trans hok
      cases hparsed with
      | @taken stack hv' hne =>
        obtain rfl : rest = stack := Verdict.accept.inj (hv.symm.trans hv')
        have hrun₁ := hgo he rfl
        have hdoc := ih hrun₁ he rfl hbuf hscan.2 hp.2 h0.2 hne hrest
        exact hdoc
      | hollow hv' hb₁ =>
        obtain rfl : rest = [] := Verdict.accept.inj (hv.symm.trans hv')
        subst hb₁
        generalize terminals l = ts at hrest
        cases hrest
      | @document n rest' hv' hb₁ =>
        obtain rfl : rest = [] := Verdict.accept.inj (hv.symm.trans hv')
        subst hb₁
        obtain ⟨hnil, rfl⟩ : terminals l = [] ∧ n = v := by
          generalize terminals l = ts at hrest
          cases hrest
          exact ⟨rfl, rfl⟩
        have hrun₁ := hgo he rfl
        have hlast := parseData_spaces hrun₁ he rfl hscan.2 hnil
        refine ⟨_, ?_, ?_, ?_, ?_, hlast⟩
        · exact he
        · rfl
        · exact hbuf
        · rfl
      | error hv' => exact absurd (hv.symm.trans hv') (by simp)

/-! ## What was read -/

/-- What the lexer has of a token, and the text of it. -/
inductive Begun (parse : Parser) : List UInt8 → Prop
  | limbo : parse.lex = .limbo → parse.buf.bytes = [] → Begun parse []
  | string : parse.mode ≠ .plain → inString .string parse.buf.bytes = some parse.mode →
      Begun parse (ch '"' :: parse.buf.bytes)
  | number : parse.lex = .number → (Lexeme.number parse.buf.bytes).Scanned → Begun parse parse.buf.bytes
  | identifier : parse.lex = .identifier → (Lexeme.identifier parse.buf.bytes).Scanned →
      Begun parse parse.buf.bytes

theorem Begun.unfinished {tail : List UInt8} (h : Begun parse tail) : Unfinished tail := by
  cases h with
  | limbo => exact .nil
  | string _ h => exact .string (by rw [h]; rfl)
  | number _ h => exact .number h
  | identifier _ h => exact .identifier h

/-- **What was read**: the text is lexemes, whose tokens were parsed, and
what the lexer has. -/
def Spelled (parse : Parser) (s : List UInt8) : Prop :=
  ∃ l tail, s = textOf l ++ tail ∧ (∀ x ∈ l, x.Scanned) ∧
    tokens parse.log = (terminals l).map Terminal.token ∧ Begun parse tail

theorem inString_snoc {m m' : Mode} (h : inString m w = some m') (hq : ¬ (m' = .string ∧ c = ch '"')) :
    inString m (w ++ [c]) = some (m'.next c) := by
  induction w generalizing m with
  | nil =>
    cases h
    simp only [List.nil_append, inString, if_neg hq]
  | cons d w ih =>
    rw [inString] at h
    split_ifs at h with hd
    rw [List.cons_append, inString, if_neg hd]
    exact ih h

theorem easySym_terminal {sym : Sym} (h : easySym c = some sym) :
    ∃ t, easyTerminal c = some t ∧ t.token = ⟨sym, none⟩ := by
  cases ht : easyTerminal c with
  | none =>
    rw [(easyTerminal_eq_none c).1 ht] at h
    cases h
  | some t =>
    obtain ⟨hs, hval⟩ := easyTerminal_token ht
    rw [h, Option.some.injEq] at hs
    exact ⟨t, rfl, by rw [Terminal.token, ← hs, hval]⟩

/-- **A character outside of tokens.** -/
theorem begun_limbo (hl : parse.lex = .limbo) (hb : parse.buf.bytes = [])
    (hrun : parse.parseChar valueOps c = .ok parse') (he' : parse'.error = none) :
    ∃ l tail, [c] = textOf l ++ tail ∧ (∀ x ∈ l, x.Scanned) ∧
      tokens parse'.log = tokens parse.log ++ (terminals l).map Terminal.token ∧ Begun parse' tail := by
  have hnil : ∀ x ∈ ([] : List Lexeme), x.Scanned := fun x hx => absurd hx List.not_mem_nil
  rw [parseChar_eq, hl] at hrun
  cases hs : easySym c with
  | some sym =>
    rw [hs] at hrun
    obtain ⟨t, ht, htok⟩ := easySym_terminal hs
    obtain ⟨hlog, -⟩ := llParse_logged hrun
    obtain ⟨hbuf, hlex⟩ := llParse_keeps hrun
    refine ⟨[.easy c], [], rfl, ?_, ?_, .limbo (hlex.trans hl) (by rw [hbuf, hb])⟩
    · rw [List.forall_mem_singleton]
      exact Option.isSome_iff_exists.2 ⟨t, ht⟩
    · rw [hlog, ← htok]
      simp [terminals, Lexeme.terminal, ht]
  | none =>
    rw [hs] at hrun
    simp only [Except.ok.injEq] at hrun
    split_ifs at hrun with hst
    · subst hrun
      cases he'
    · have hnext : parse' = parse.lexNext c := hrun.symm
      rw [lexNext, hl] at hnext
      simp only at hnext
      split_ifs at hnext with hn ha hq
      · subst hnext
        have htext := appendChar_first hb c
        refine ⟨[], [c], rfl, hnil, (List.append_nil _).symm, ?_⟩
        rw [← htext]
        refine .number rfl ⟨?_, ?_⟩
        · rw [lexAppend, htext]
          exact hn
        · rw [lexAppend, htext, List.forall_mem_singleton]
          exact (number_char c hn).2.2.2
      · subst hnext
        have htext := appendChar_first hb c
        refine ⟨[], [c], rfl, hnil, (List.append_nil _).symm, ?_⟩
        rw [← htext]
        refine .identifier rfl ⟨?_, ?_⟩
        · rw [lexAppend, htext]
          exact List.cons_ne_nil c []
        · rw [lexAppend, htext, List.forall_mem_singleton]
          exact ha
      · subst hnext
        have htail : ch '"' :: parse.buf.bytes = [c] := by rw [hb, hq]
        refine ⟨[], [c], rfl, hnil, (List.append_nil _).symm, ?_⟩
        rw [← htail]
        refine .string (by simp [mode]) ?_
        show inString .string parse.buf.bytes = some .string
        rw [hb]
        rfl
      · subst hnext
        refine ⟨[.space c], [], rfl, ?_, (List.append_nil _).symm, .limbo hl hb⟩
        rw [List.forall_mem_singleton]
        have hspace : isSpace c = true := by simpa [isStray, hs, hn, ha, hq] using hst
        exact hspace

/-- A token that is ended. -/
theorem lexTokenize_logged {sym : Sym} (hs : lexSym parse.lex = some sym) (h0 : 0 ∉ parse.buf.bytes)
    (hrun : parse.lexTokenize valueOps = .ok parse') : ∃ t, parse.lexeme.terminal = some t ∧
      tokens parse'.log = tokens parse.log ++ [t.token] ∧ parse'.lex = .limbo ∧ parse'.buf.bytes = [] := by
  obtain ⟨t, ht, heq⟩ := lexTokenize_lexeme hs h0
  rw [heq] at hrun
  obtain ⟨hlog, -⟩ := llParse_logged hrun
  obtain ⟨hbuf, hlex⟩ := llParse_keeps hrun
  exact ⟨t, ht, hlog, hlex, by rw [hbuf]; rfl⟩

/-- A lexeme more was read. -/
theorem spelled_snoc {s : List UInt8} {t : Terminal} (hs : s = textOf l ++ x.text) (hscan : ∀ y ∈ l, y.Scanned)
    (hx : x.Scanned) (ht : x.terminal = some t) (hlog : tokens parse.log = (terminals l).map Terminal.token)
    (hlog' : tokens parse'.log = tokens parse.log ++ [t.token]) (hl : parse'.lex = .limbo)
    (hb : parse'.buf.bytes = []) : Spelled parse' s := by
  refine ⟨l ++ [x], [], ?_, ?_, ?_, .limbo hl hb⟩
  · rw [hs]
    simp [textOf]
  · intro y hy
    rcases List.mem_append.1 hy with hy | hy
    · exact hscan y hy
    · exact List.mem_singleton.1 hy ▸ hx
  · rw [hlog', hlog]
    simp [terminals, ht]

theorem Spelled.limbo {s : List UInt8} (h : Spelled parse s) (hl : parse.lex = .limbo) (hb : parse.buf.bytes = [])
    (hrun : parse.parseChar valueOps c = .ok parse') (he' : parse'.error = none) : Spelled parse' (s ++ [c]) := by
  obtain ⟨l, tail, rfl, hscan, hlog, hbegun⟩ := h
  obtain rfl : tail = [] := by
    cases hbegun with
    | limbo => rfl
    | string hm => exact absurd (mode_plain_of_lex (Or.inl hl)) hm
    | number hl' => cases hl.symm.trans hl'
    | identifier hl' => cases hl.symm.trans hl'
  obtain ⟨l₁, tail, htext, hscan₁, hlog₁, hbegun₁⟩ := begun_limbo hl hb hrun he'
  refine ⟨l ++ l₁, tail, ?_, ?_, ?_, hbegun₁⟩
  · rw [htext]
    simp [textOf]
  · intro y hy
    rcases List.mem_append.1 hy with hy | hy
    · exact hscan y hy
    · exact hscan₁ y hy
  · rw [hlog₁, hlog]
    simp [terminals]

/-- **One character**, where no error is recorded. -/
theorem Spelled.parseChar {s : List UInt8} (h : Spelled parse s) (h0 : 0 ∉ s)
    (hrun : parse.parseChar valueOps c = .ok parse') (he' : parse'.error = none) : Spelled parse' (s ++ [c]) := by
  have hall := h
  obtain ⟨l, tail, rfl, hscan, hlog, hbegun⟩ := h
  have h0t : 0 ∉ tail := fun hmem => h0 (List.mem_append_right _ hmem)
  -- a number or an identifier, of which the lexer has `parse.buf`
  have hend : ∀ {sym : Sym} {x : Lexeme}, pendingSym parse.lex = some sym → goesOn parse.lex c = false →
      0 ∉ parse.buf.bytes → parse.lexeme = x → x.Scanned → x.text = tail → Spelled parse' (textOf l ++ tail ++ [c]) := by
    rintro sym x hpend hgo h0b rfl hx rfl
    rcases parseChar_cases valueOps parse c with ⟨hlexed, -⟩ | ⟨hl, -⟩ | ⟨_, hl, -⟩ | ⟨hl, -⟩ | ⟨_, -, -, heq⟩
    · rw [hlexed.goesOn] at hgo
      cases hgo
    · rw [hl] at hpend
      cases hpend
    · rw [hl] at hpend
      cases hpend
    · rw [hl] at hpend
      cases hpend
    rw [heq] at hrun
    cases htok : parse.lexTokenize valueOps with
    | error f =>
      rw [htok] at hrun
      cases hrun
    | ok parse₁ =>
      rw [htok] at hrun
      have hsend : sendChar valueOps 2 parse₁ c = .ok parse' := hrun
      have hsym : lexSym parse.lex = some sym := by
        cases hl : parse.lex <;> rw [hl] at hpend <;> first | exact hpend | cases hpend
      obtain ⟨t, ht, hlog₁, hl₁, hb₁⟩ := lexTokenize_logged hsym h0b htok
      have hspelled := spelled_snoc rfl hscan hx ht hlog hlog₁ hl₁ hb₁
      rw [sendChar_two hl₁] at hsend
      exact hspelled.limbo hl₁ hb₁ hsend he'
  cases hbegun with
  | limbo hl hb => exact hall.limbo hl hb hrun he'
  | string hm hin =>
    have h0b : 0 ∉ parse.buf.bytes := fun hmem => h0t (List.mem_cons_of_mem _ hmem)
    by_cases hq : parse.mode = .string ∧ c = ch '"'
    · obtain ⟨hmode, rfl⟩ := hq
      have hl : parse.lex = .string := by
        unfold mode at hmode
        cases hl : parse.lex <;> rw [hl] at hmode <;> first | rfl | cases hmode
      have htok : parse.lexTokenize valueOps = .ok parse' := by
        rw [parseChar_eq, hl] at hrun
        simpa only [and_self, if_true] using hrun
      obtain ⟨t, ht, hlog', hl', hb'⟩ := lexTokenize_logged (show lexSym parse.lex = some .string by rw [hl]; rfl) h0b htok
      have hx : parse.lexeme = .string parse.buf.bytes := by rw [lexeme, hl]
      rw [hx] at ht
      rw [hmode] at hin
      exact spelled_snoc (x := .string parse.buf.bytes) (by simp [Lexeme.text]) hscan hin ht hlog hlog' hl' hb'
    · obtain ⟨hchar, hnext, lex, lexU, heq⟩ := lexNext_string hm hq
      rw [hchar, Except.ok.injEq] at hrun
      subst hrun
      have hbytes : (parse.lexNext c).buf.bytes = parse.buf.bytes ++ [c] := by
        rw [heq]
        exact MowgliString.appendChar_bytes h0b c
      refine ⟨l, ch '"' :: (parse.lexNext c).buf.bytes, ?_, hscan, ?_, .string ?_ ?_⟩
      · rw [hbytes]
        simp
      · rw [heq]
        exact hlog
      · rw [hnext]
        exact next_ne_plain hm hq
      · rw [hnext, hbytes]
        exact inString_snoc hin hq
  | number hl hx =>
    by_cases hgo : goesOn parse.lex c = true
    · rw [parseChar_word (show pendingSym parse.lex = some .number by rw [hl]; rfl) hgo, Except.ok.injEq] at hrun
      subst hrun
      rw [hl] at hgo
      have hbytes : (parse.lexAppend c).buf.bytes = parse.buf.bytes ++ [c] := MowgliString.appendChar_bytes h0t c
      rw [List.append_assoc, ← hbytes]
      refine ⟨l, _, rfl, hscan, hlog, .number hl ⟨?_, ?_⟩⟩
      · rw [hbytes, List.head?_append_of_ne_nil _ (fun h => by simp [h, Lexeme.Scanned] at hx)]
        exact hx.1
      · rw [hbytes]
        intro d hd
        rcases List.mem_append.1 hd with hd | hd
        · exact hx.2 d hd
        · exact List.mem_singleton.1 hd ▸ hgo
    · refine hend (x := .number parse.buf.bytes) (by rw [hl]; rfl) (by simpa using hgo) h0t ?_ hx rfl
      rw [lexeme, hl]
  | identifier hl hx =>
    by_cases hgo : goesOn parse.lex c = true
    · rw [parseChar_word (show pendingSym parse.lex = some .identifier by rw [hl]; rfl) hgo, Except.ok.injEq] at hrun
      subst hrun
      rw [hl] at hgo
      have hbytes : (parse.lexAppend c).buf.bytes = parse.buf.bytes ++ [c] := MowgliString.appendChar_bytes h0t c
      rw [List.append_assoc, ← hbytes]
      refine ⟨l, _, rfl, hscan, hlog, .identifier hl ⟨?_, ?_⟩⟩
      · rw [hbytes]
        exact List.append_ne_nil_of_left_ne_nil hx.1 _
      · rw [hbytes]
        intro d hd
        rcases List.mem_append.1 hd with hd | hd
        · exact hx.2 d hd
        · exact List.mem_singleton.1 hd ▸ hgo
    · refine hend (x := .identifier parse.buf.bytes) (by rw [hl]; rfl) (by simpa using hgo) h0t ?_ hx rfl
      rw [lexeme, hl]

/-- **A text that was fed was read.** -/
theorem Spelled.parseData {s data : List UInt8} (h : Spelled parse s) (h0 : 0 ∉ s ++ data)
    (hrun : parse.parseData valueOps data = .ok parse') (he' : parse'.error = none) : Spelled parse' (s ++ data) := by
  induction data generalizing parse s with
  | nil =>
    cases hrun
    rw [List.append_nil]
    exact h
  | cons c data ih =>
    cases he : parse.error with
    | some e =>
      rw [parseData_error he] at hrun
      cases hrun
      rw [he'] at he
      cases he
    | none =>
      obtain ⟨parse₁, hchar, hdata⟩ := parseData_cons he hrun
      have he₁ : parse₁.error = none := by
        cases he₁ : parse₁.error with
        | none => rfl
        | some e =>
          rw [parseData_error he₁] at hdata
          cases hdata
          exact he₁.symm.trans he'
      have hone := h.parseChar (fun hmem => h0 (List.mem_append_left _ hmem)) hchar he₁
      rw [← List.singleton_append, ← List.append_assoc] at h0 ⊢
      exact ih hone h0 hdata

end Parse

end Json

end Mowgli
