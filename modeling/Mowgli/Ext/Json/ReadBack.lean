import Mowgli.Ext.Json.Spelling
/-!
# Texts that are read as a token

What a text is read as must not depend on what the parser was fed before. So it
is read by every parser that is between two tokens, whatever room its buffer
has; there are such parsers with any room, in an array, where all values are
expected.
-/

namespace Mowgli

namespace Json

open Parse

namespace Parse

/-- A parser between two tokens, that no error was recorded in. -/
structure AtToken (parse : Parser) : Prop where
  fed : Fed parse
  lex : parse.lex = .limbo
  error : parse.error = none

variable {parse parse' : Parser} {data r r' : List UInt8} {c : UInt8} {t t' : Terminal}

/-- Between two tokens the buffer is empty. -/
def Emptied (parse : Parser) : Prop := parse.lex = .limbo → parse.buf.bytes = []

theorem emptied_llParse {tok : Token Value} (h : parse.buf.bytes = []) (hrun : parse.llParse valueOps tok = .ok parse') :
    parse'.Emptied := fun _ => by rw [(llParse_keeps hrun).1, h]

theorem Emptied.lexNext (h : parse.Emptied) (c : UInt8) : (parse.lexNext c).Emptied := by
  unfold Parse.lexNext Emptied
  cases hl : parse.lex with
  | limbo =>
    simp only
    split_ifs
    · exact nofun
    · exact nofun
    · exact nofun
    · exact fun _ => h hl
  | string =>
    simp only
    split_ifs
    · exact nofun
    · exact fun hlex => by cases hl.symm.trans hlex
  | stringEsc =>
    simp only
    split_ifs <;> exact nofun
  | stringEscU =>
    simp only
    split_ifs
    · exact nofun
    · exact fun hlex => by cases hl.symm.trans hlex
  | number => exact fun hlex => by cases hl.symm.trans hlex
  | identifier => exact fun hlex => by cases hl.symm.trans hlex

theorem Emptied.sendChar_limbo (h : parse.Emptied) (hl : parse.lex = .limbo)
    (hrun : sendChar valueOps 2 parse c = .ok parse') : parse'.Emptied := by
  rcases sendChar_of_limbo valueOps c 0 hl with ⟨sym, -, heq⟩ | ⟨-, -, heq⟩ | ⟨-, -, heq⟩
  · exact emptied_llParse (h hl) (heq.symm.trans hrun)
  · obtain rfl := Except.ok.inj (heq.symm.trans hrun)
    exact h.lexNext c
  · obtain rfl := Except.ok.inj (heq.symm.trans hrun)
    exact h

theorem emptied_lexTokenize {sym : Sym} (hs : lexSym parse.lex = some sym)
    (hrun : parse.lexTokenize valueOps = .ok parse') : parse'.Emptied ∧ parse'.lex = .limbo := by
  obtain ⟨t, -, htok⟩ := lexTokenize_eq hs
  have hrun' := htok.symm.trans hrun
  exact ⟨emptied_llParse rfl hrun', (llParse_keeps hrun').2⟩

theorem Emptied.parseChar (h : parse.Emptied) (hrun : parse.parseChar valueOps c = .ok parse') : parse'.Emptied := by
  -- only a token empties the buffer, and only `lexNext` fills it
  rcases parseChar_cases valueOps parse c with ⟨-, heq⟩ | ⟨-, -, -, heq⟩ | ⟨sym, hl, -, heq⟩ | ⟨hl, -, heq⟩ |
    ⟨sym, hpend, -, heq⟩
  · obtain rfl := Except.ok.inj (heq.symm.trans hrun)
    exact h.lexNext c
  · obtain rfl := Except.ok.inj (heq.symm.trans hrun)
    exact h
  · exact emptied_llParse (h hl) (heq.symm.trans hrun)
  · exact (emptied_lexTokenize (by rw [hl]; rfl) (heq.symm.trans hrun)).1
  · have hsym : lexSym parse.lex = some sym := by
      cases hl : parse.lex <;> rw [hl] at hpend <;> first | exact hpend | cases hpend
    rw [heq] at hrun
    cases htok : parse.lexTokenize valueOps with
    | error f =>
      rw [htok] at hrun
      cases hrun
    | ok parse₁ =>
      rw [htok] at hrun
      obtain ⟨hempty, hlex⟩ := emptied_lexTokenize hsym htok
      exact hempty.sendChar_limbo hlex hrun

theorem Emptied.parseData (h : parse.Emptied) (hrun : parse.parseData valueOps data = .ok parse') : parse'.Emptied := by
  induction data generalizing parse with
  | nil =>
    cases hrun
    exact h
  | cons c data ih =>
    cases he : parse.error with
    | some e =>
      rw [parseData_error he] at hrun
      cases hrun
      exact h
    | none =>
      obtain ⟨parse₁, hc, hdata⟩ := parseData_cons he hrun
      exact ih (h.parseChar hc) hdata

theorem Fed.emptied (h : Fed parse) : parse.Emptied := by
  induction h with
  | create multidoc => exact fun _ => rfl
  | data _ hrun ih => exact ih.parseData hrun
  | @next parse _ ih =>
    unfold parseNext
    cases parse.out <;> exact ih
  | @reset parse parse' multidoc _ hrun =>
    obtain ⟨heap, rfl⟩ := parseReset_ok hrun
    exact fun _ => rfl

theorem AtToken.buf_nil (h : AtToken parse) : parse.buf.bytes = [] := h.fed.emptied h.lex

/-! ## What a text is read as -/

/-- Every parser that is between two tokens reads a text as a token, what is
left of what it is fed being `r`. -/
def ReadAs (text : List UInt8) (t : Terminal) (r : List UInt8) : Prop :=
  ∀ parse, AtToken parse → Parses parse (text ++ r) t r

/-- A parser that expects a value. -/
structure TakesValues (parse : Parser) : Prop extends AtToken parse where
  takes : ∀ buf lexU (t : Terminal), t.val.isSome → ∃ parse',
    ({ parse with buf := buf, lex := .limbo, lexU := lexU } : Parser).llParse valueOps t.token = .ok parse' ∧
      parse'.error = none

/-- The tokens that were read stay in the log. -/
theorem tokens_kept (toks : List (Token Value)) : Kept valueOps fun parse => toks <+: tokens parse.log := by
  have htoken : ∀ {parse parse' : Parser} {tok : Token Value}, toks <+: tokens parse.log →
      parse.llParse valueOps tok = .ok parse' → toks <+: tokens parse'.log := by
    intro parse parse' tok h hrun
    rw [(llParse_logged hrun).1]
    exact h.trans (List.prefix_append _ _)
  refine ⟨fun _ _ _ h => h, fun h _ hrun => htoken h hrun, fun h _ _ hrun => htoken ?_ hrun, fun c h => ?_⟩
  · exact h
  · simpa [parseError] using h

/-- A value is read, and there is nothing after it. -/
theorem TakesValues.parseData_ok (h : TakesValues parse) (ht : t.val.isSome) (hp : Parses parse data t []) :
    ∃ parse', parse.parseData valueOps data = .ok parse' := by
  obtain ⟨buf, lexU, k, -, heq, hk⟩ := hp
  obtain ⟨parse₁, hll, he⟩ := h.takes buf lexU t ht
  refine ⟨parse₁, ?_⟩
  rw [heq, hll]
  exact hk parse₁ he (llParse_keeps hll).2

/-- A value that is read is the first token that is new in the log. -/
theorem TakesValues.tokens (h : TakesValues parse) (ht : t.val.isSome) (hp : Parses parse data t r)
    (hrun : parse.parseData valueOps data = .ok parse') : Json.tokens parse.log ++ [t.token] <+: Json.tokens parse'.log := by
  obtain ⟨buf, lexU, k, -, heq, hk⟩ := hp
  obtain ⟨parse₁, hll, he⟩ := h.takes buf lexU t ht
  have hlex : parse₁.lex = .limbo := (llParse_keeps hll).2
  rw [heq, hll] at hrun
  change k parse₁ = .ok parse' at hrun
  rw [hk parse₁ he hlex] at hrun
  exact (tokens_kept _).parseData ⟨[], by rw [List.append_nil, (llParse_logged hll).1]⟩ hrun

/-- **A text is read as one value.** -/
theorem TakesValues.unique (h : TakesValues parse) (ht : t.val.isSome) (ht' : t'.val.isSome) (hp : Parses parse data t r)
    (hp' : Parses parse data t' r') (hrun : parse.parseData valueOps data = .ok parse') : t = t' := by
  have hpre := List.prefix_of_prefix_length_le (h.tokens ht hp hrun) (h.tokens ht' hp' hrun) (by simp)
  have heq := List.append_cancel_left (hpre.eq_of_length (by simp))
  exact Terminal.token_injective (List.singleton_inj.1 heq)

/-! ## Parsers with room -/

/-- The parser that was fed the bracket of an array. -/
def inArray (buf : MowgliString) (lexU : ℕ) : Parser :=
  ⟨(), [], none, false, [.arrStart], [.arrBody], buf, .limbo, lexU, [.token ⟨.beginArray, none⟩]⟩

theorem takesValues_inArray {buf : MowgliString} {lexU : ℕ} (h : Fed { create () false with buf := buf, lexU := lexU }) :
    TakesValues (inArray buf lexU) where
  fed := @Fed.data _ (inArray buf lexU) [ch '['] h rfl
  lex := rfl
  error := rfl
  takes buf lexU t ht := by
    cases t with
    | string _ | int _ | float _ | bool _ | null => exact ⟨_, rfl, rfl⟩
    | _ => cases ht

/-- **There is a parser with any room**: one that was fed a string that long,
and was reset then. -/
theorem exists_takesValues (n : ℕ) : ∃ parse, TakesValues parse ∧ n < parse.buf.size := by
  let w := List.replicate n (ch 'a')
  have hw : inString .string w = some .string := by
    have hstep : ∀ k, inString .string (List.replicate k (ch 'a')) = some .string := by
      intro k
      induction k with
      | zero => rfl
      | succ k ih => exact ih
    exact hstep n
  obtain ⟨lex, lexU, -, -, hrun⟩ := parseData_appendAll
    (show ({ create () false with lex := .string } : Parser).error = none from rfl) (by simp [mode]) hw []
  rw [List.append_nil] at hrun
  have hfed : Fed ({ create () false with buf := MowgliString.create.appendAll w, lex := lex, lexU := lexU } : Parser) :=
    @Fed.data _ _ (ch '"' :: w) (.create false) hrun
  -- `mowgli_string_reset` leaves the block of the buffer as long as it is
  have hreset := @Fed.reset _ _ false hfed rfl
  refine ⟨inArray (MowgliString.create.appendAll w).reset lexU, takesValues_inArray hreset, ?_⟩
  have hroom := MowgliString.room_appendAll (s := .create) (by decide) w
  rw [MowgliString.pos_appendAll] at hroom
  exact lt_of_le_of_lt (by simp [w]) hroom

end Parse

end Json

end Mowgli
