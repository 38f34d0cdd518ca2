import Mowgli.Ext.Json.Depth
/-!
# What is nested too deep

Character by character, the containers that are open are the brackets and
braces outside of strings that were read. There is room for all that is not
nested deeper than 125 containers; what there is no room for, exactly, is
`NeverDeep`'s to say.
-/

namespace Mowgli

namespace Json

/-- Where a text is: outside of strings, in one, after a backslash, or in
the digits of an escape. -/
inductive Mode
  | plain
  | string
  | escape
  | unicode (n : ℕ)
  deriving DecidableEq

def Mode.next : Mode → UInt8 → Mode
  | .plain, c => if c = ch '"' then .string else .plain
  | .string, c => if c = ch '\\' then .escape else if c = ch '"' then .plain else .string
  | .escape, c => if c = ch 'u' then .unicode 0 else .string
  | .unicode n, _ => if 4 ≤ n + 1 then .string else .unicode (n + 1)

/-- How many containers are open after a character. -/
def Mode.depth : Mode → UInt8 → ℕ → ℕ
  | .plain, c, n =>
    if c = ch '\x7b' ∨ c = ch '[' then n + 1
    else if c = ch '\x7d' ∨ c = ch ']' then n - 1
    else n
  | _, _, n => n

/-- The most containers that are open at once in a text. -/
def nestingFrom (m : Mode) (n : ℕ) : List UInt8 → ℕ
  | [] => n
  | c :: data => max n (nestingFrom (m.next c) (m.depth c n) data)

theorem le_nestingFrom (m : Mode) (n : ℕ) (s : List UInt8) : n ≤ nestingFrom m n s := by
  cases s with
  | nil => exact le_rfl
  | cons c s => exact le_max_left _ _

/-- How deep a text is nested. -/
def nesting (data : List UInt8) : ℕ := nestingFrom .plain 0 data

namespace Parse

variable {parse parse' : Parser} {c : UInt8}

/-- Where the lexer is. -/
def mode (parse : Parser) : Mode :=
  match parse.lex with
  | .limbo | .number | .identifier => .plain
  | .string => .string
  | .stringEsc => .escape
  | .stringEscU => .unicode parse.lexU

theorem mode_plain_of_lex (h : parse.lex = .limbo ∨ (pendingSym parse.lex).isSome) : parse.mode = .plain := by
  unfold mode
  rcases h with h | h
  · rw [h]
  · cases hl : parse.lex <;> rw [hl] at h <;> first | rfl | cases h

/-- A bracket or a quote is in no number and no identifier. -/
theorem goesOn_plain : ∀ c : UInt8, inNumber c = true ∨ isAlpha c = true → easySym c = none ∧ c ≠ ch '"' :=
  forall_uint8 (by decide +kernel)

theorem quote_begins : easySym (ch '"') = none ∧ beginsNumber (ch '"') = false ∧ isAlpha (ch '"') = false := by
  decide

theorem depth_of_easySym_none (h : easySym c = none) (n : ℕ) : Mode.plain.depth c n = n := by
  unfold easySym at h
  split_ifs at h with h₁ h₂ h₃ h₄
  show (if c = ch '\x7b' ∨ c = ch '[' then n + 1 else if c = ch '\x7d' ∨ c = ch ']' then n - 1 else n) = n
  rw [if_neg (by tauto), if_neg (by tauto)]

theorem depth_of_easySym {sym : Sym} (h : easySym c = some sym) (n : ℕ) :
    Mode.plain.depth c n = depthAfter sym n ∧ Mode.plain.next c = .plain := by
  unfold easySym at h
  split_ifs at h with h₁ h₂ h₃ h₄ h₅ h₆ <;> cases h <;> subst c <;> exact ⟨rfl, rfl⟩

/-- The lexer keeps track of where the text is. -/
theorem Lexed.mode_next (h : parse.Lexed c) (n : ℕ) :
    (parse.lexNext c).mode = parse.mode.next c ∧ parse.mode.depth c n = n := by
  unfold lexNext mode
  cases hl : parse.lex with
  | limbo =>
    obtain ⟨he, -⟩ := h.limbo hl
    simp only
    refine ⟨?_, depth_of_easySym_none he n⟩
    by_cases hq : c = ch '"'
    · subst hq
      rw [quote_begins.2.1, quote_begins.2.2]
      rfl
    · simp only [Mode.next, if_neg hq]
      split_ifs
      · rfl
      · rfl
      · rw [hl]
  | string =>
    simp only [Mode.next]
    refine ⟨?_, rfl⟩
    rw [if_neg (h.quote hl)]
    split_ifs
    · rfl
    · simp only [lexAppend, hl]
  | stringEsc =>
    simp only [Mode.next]
    refine ⟨?_, rfl⟩
    split_ifs <;> rfl
  | stringEscU =>
    simp only [Mode.next]
    refine ⟨?_, rfl⟩
    split_ifs
    · rfl
    · simp only [lexAppend, hl]
  | number =>
    have hgo := h.goesOn
    rw [hl] at hgo
    obtain ⟨he, hq⟩ := goesOn_plain c (Or.inl hgo)
    simp only [lexAppend, hl, Mode.next, if_neg hq]
    exact ⟨trivial, depth_of_easySym_none he n⟩
  | identifier =>
    have hgo := h.goesOn
    rw [hl] at hgo
    obtain ⟨he, hq⟩ := goesOn_plain c (Or.inr hgo)
    simp only [lexAppend, hl, Mode.next, if_neg hq]
    exact ⟨trivial, depth_of_easySym_none he n⟩

/-! ## Characters -/

theorem lexTokenize_eq {sym : Sym} (hs : lexSym parse.lex = some sym) : ∃ t : Terminal, t.sym = sym ∧
    parse.lexTokenize valueOps =
      ({ parse with buf := parse.buf.reset, lex := .limbo } : Parser).llParse valueOps t.token := by
  have hok : ∃ tok, parse.lexToken valueOps = .ok (tok, ()) := by
    unfold lexToken
    cases parse.lex <;> exact ⟨_, rfl⟩
  obtain ⟨tok, htok⟩ := hok
  obtain ⟨t, rfl, hsym⟩ := lexToken_token hs htok
  refine ⟨t, hsym, ?_⟩
  unfold lexTokenize
  rw [htok]
  rfl

/-- What holds after a character, if it is no error. -/
def Goes (parse : Parser) (F : List (Frame Value)) (c : UInt8) (parse' : Parser) : Prop :=
  parse'.error = none → ∃ F', parse'.Between F' ∧ F'.length = parse.mode.depth c F.length ∧
    parse'.mode = parse.mode.next c

/-- **A token of one character**, with nothing sent again. -/
theorem Between.easy {F : List (Frame Value)} (h : parse.Between F) (hl : parse.lex = .limbo) {sym : Sym}
    (hs : easySym c = some sym) :
    parse.TooDeep sym ∧ parse.llParse valueOps ⟨sym, none⟩ = .error .overflow ∨
    ¬ parse.TooDeep sym ∧ ∃ parse', parse.llParse valueOps ⟨sym, none⟩ = .ok parse' ∧ parse.Goes F c parse' := by
  obtain ⟨t, ht⟩ := easySym_token hs
  obtain rfl : t.sym = sym := congrArg Token.sym ht
  obtain ⟨hdepth, hnext⟩ := depth_of_easySym hs F.length
  have hmode : parse.mode = .plain := mode_plain_of_lex (Or.inl hl)
  rw [← ht]
  rcases h.llParse t with hover | ⟨hno, parse', hok, hlex, hcase⟩
  · exact Or.inl hover
  · refine Or.inr ⟨hno, parse', hok, fun he' => ?_⟩
    rcases hcase with ⟨hne, -⟩ | ⟨F', hF', -, hlen, -⟩
    · exact absurd he' hne
    · refine ⟨F', hF', by rw [hlen, hmode, hdepth], ?_⟩
      rw [hmode, hnext]
      exact mode_plain_of_lex (Or.inl (hlex.trans hl))

/-- Nothing is too deep after a value. -/
theorem not_tooDeep_tails {F : List (Frame Value)} (hs : parse.stack = tails F) {sym : Sym} (hsym : sym ∈ easySyms) :
    ¬ parse.TooDeep sym := by
  rintro ⟨top, σ, htop, ht, ⟨hmem, -⟩ | ⟨rfl, -⟩⟩
  · have htable : ∀ s ∈ [Sym.beginObject, .beginArray], llTable .objTail s = 0 ∧ llTable .arrTail s = 0 := by
      decide
    obtain ⟨-, -, rfl | rfl⟩ := tails_marked (hs.symm.trans htop) (List.Subset.refl F)
    · exact ht (htable _ hmem).1
    · exact ht (htable _ hmem).2
  · exact absurd hsym (by decide)

/-- **A character that ends a number or an identifier.** -/
theorem Between.pending {F : List (Frame Value)} (h : parse.Between F) {sym : Sym}
    (hpend : pendingSym parse.lex = some sym) :
    ∃ parse', (parse.lexTokenize valueOps >>= fun parse => sendChar valueOps 2 parse c) = .ok parse' ∧
      parse.Goes F c parse' := by
  have hlexSym : lexSym parse.lex = some sym := by
    cases hl : parse.lex <;> rw [hl] at hpend <;> first | exact hpend | cases hpend
  have hnum : sym ∈ [Sym.number, .identifier] := by
    cases hl : parse.lex <;> rw [hl] at hpend <;> cases hpend <;> decide
  have hmode : parse.mode = .plain := mode_plain_of_lex (Or.inr (by rw [hpend]; rfl))
  obtain ⟨t, rfl, heq⟩ := lexTokenize_eq hlexSym
  have h₀ : ({ parse with buf := parse.buf.reset, lex := .limbo } : Parser).Between F := h.congr rfl rfl
  have hnot : ¬ ({ parse with buf := parse.buf.reset, lex := .limbo } : Parser).TooDeep t.sym := by
    simp only [List.mem_cons, List.not_mem_nil, or_false] at hnum
    rintro ⟨top, σ, -, -, ⟨hsym, -⟩ | ⟨hsym, -⟩⟩
    · simp only [List.mem_cons, List.not_mem_nil, or_false] at hsym
      rcases hnum with hn | hn <;> rcases hsym with hs | hs <;> cases hn.symm.trans hs
    · rcases hnum with hn | hn <;> cases hn.symm.trans hsym
  rw [heq]
  rcases h₀.llParse t with ⟨htoo, -⟩ | ⟨-, parse₁, hok, hlex₁, hcase⟩
  · exact absurd htoo hnot
  rw [hok]
  show ∃ parse', sendChar valueOps 2 parse₁ c = .ok parse' ∧ _
  have hmode₁ : parse₁.mode = .plain := mode_plain_of_lex (Or.inl hlex₁)
  rcases hcase with ⟨hne, hbuild, e, hrej⟩ | ⟨F₁, hF₁, -, hlen, htails⟩
  · -- the token is an error, and whatever the character does, it stays one
    have hstays : ∀ {parse₂ : Parser}, parse₂.error = none → sendChar valueOps 2 parse₁ c = .ok parse₂ → False := by
      intro parse₂ he₂ hrun
      obtain ⟨_, -, -, hfree, -⟩ := sendChar_limbo (n := 0) hlex₁ hrun
      exact hne (hfree he₂).2
    have hrun : ∃ parse₂, sendChar valueOps 2 parse₁ c = .ok parse₂ := by
      rcases sendChar_of_limbo valueOps c 0 hlex₁ with ⟨sym', hs', hsend⟩ | ⟨-, -, hsend⟩ | ⟨-, -, hsend⟩
      · obtain ⟨parse₂, hok₂⟩ := h₀.after_error hrej hbuild (easySym_mem hs')
        exact ⟨parse₂, hsend.trans hok₂⟩
      · exact ⟨_, hsend⟩
      · exact ⟨_, hsend⟩
    obtain ⟨parse₂, hrun⟩ := hrun
    exact ⟨parse₂, hrun, fun he₂ => (hstays he₂ hrun).elim⟩
  · have hlen₁ : F₁.length = F.length := by
      rw [hlen]
      simp only [List.mem_cons, List.not_mem_nil, or_false] at hnum
      rcases hnum with hn | hn <;> rw [hn] <;> rfl
    have hgoes : ∀ {parse₂ : Parser}, parse₁.Goes F₁ c parse₂ → parse.Goes F c parse₂ := by
      intro parse₂ hg he₂
      obtain ⟨F₂, hF₂, hl₂, hm₂⟩ := hg he₂
      exact ⟨F₂, hF₂, by rw [hl₂, hlen₁, hmode₁, hmode], by rw [hm₂, hmode₁, hmode]⟩
    rcases sendChar_of_limbo valueOps c 0 hlex₁ with ⟨sym', hs', hsend⟩ | ⟨hnone, hstray, hsend⟩ | ⟨-, -, hsend⟩
    · rcases hF₁.easy hlex₁ hs' with ⟨htoo, -⟩ | ⟨-, parse₂, hok₂, hg⟩
      · exact absurd htoo (not_tooDeep_tails (htails hnum) (easySym_mem hs'))
      · exact ⟨parse₂, hsend.trans hok₂, hgoes hg⟩
    · have hlexed : parse₁.Lexed c :=
        ⟨fun _ => ⟨hnone, hstray⟩, (fun h => by cases hlex₁.symm.trans h), by rw [hlex₁]; rfl⟩
      refine ⟨_, hsend, hgoes fun _ => ?_⟩
      obtain ⟨hnext, hdepth⟩ := hlexed.mode_next F₁.length
      obtain ⟨buf, lex, lexU, hlx⟩ := parse₁.lexNext_eq c
      refine ⟨F₁, ?_, hdepth.symm, hnext⟩
      rw [hlx]
      exact hF₁.congr rfl rfl
    · exact ⟨_, hsend, fun he₂ => by cases he₂⟩

/-- **One character**, where no error was recorded. -/
theorem Between.parseChar {F : List (Frame Value)} (h : parse.Between F) (c : UInt8) :
    parse.Deepens c ∧ parse.parseChar valueOps c = .error .overflow ∨
    ¬ parse.Deepens c ∧ ∃ parse', parse.parseChar valueOps c = .ok parse' ∧ parse.Goes F c parse' := by
  rcases parseChar_cases valueOps parse c with ⟨hlexed, hrun⟩ | ⟨hl, hnone, -, hrun⟩ | ⟨sym, hl, hs, hrun⟩ |
    ⟨hl, hq, hrun⟩ | ⟨sym, hpend, -, hrun⟩
  · refine Or.inr ⟨?_, _, hrun, fun _ => ?_⟩
    · rintro ⟨sym, ⟨hlex, hs⟩ | ⟨hlex, hc, -⟩, -⟩
      · rw [(hlexed.limbo hlex).1] at hs
        cases hs
      · exact hlexed.quote hlex hc
    · obtain ⟨hnext, hdepth⟩ := hlexed.mode_next F.length
      obtain ⟨buf, lex, lexU, hlx⟩ := parse.lexNext_eq c
      refine ⟨F, ?_, hdepth.symm, hnext⟩
      rw [hlx]
      exact h.congr rfl rfl
  · refine Or.inr ⟨?_, _, hrun, fun he' => by cases he'⟩
    rintro ⟨sym, ⟨-, hs⟩ | ⟨hlex, -⟩, -⟩
    · rw [hnone] at hs
      cases hs
    · cases hl.symm.trans hlex
  · have hiff : parse.Deepens c ↔ parse.TooDeep sym := by
      constructor
      · rintro ⟨sym', ⟨-, hs'⟩ | ⟨hlex, -⟩, htoo⟩
        · rw [hs, Option.some.injEq] at hs'
          exact hs' ▸ htoo
        · cases hl.symm.trans hlex
      · exact fun htoo => ⟨sym, Or.inl ⟨hl, hs⟩, htoo⟩
    rw [hrun, hiff]
    exact h.easy hl hs
  · obtain ⟨t, hsym, heq⟩ := @lexTokenize_eq parse .string (by rw [hl]; rfl)
    have h₀ : ({ parse with buf := parse.buf.reset, lex := .limbo } : Parser).Between F := h.congr rfl rfl
    have hiff : parse.Deepens c ↔ ({ parse with buf := parse.buf.reset, lex := .limbo } : Parser).TooDeep t.sym := by
      rw [hsym]
      constructor
      · rintro ⟨sym', ⟨hlex, -⟩ | ⟨-, -, rfl⟩, htoo⟩
        · cases hl.symm.trans hlex
        · exact htoo
      · exact fun htoo => ⟨.string, Or.inr ⟨hl, hq, rfl⟩, htoo⟩
    have hmode : parse.mode = .string := by
      unfold mode
      rw [hl]
    rw [hrun, heq, hiff]
    rcases h₀.llParse t with hover | ⟨hno, parse', hok, hlex, hcase⟩
    · exact Or.inl hover
    · refine Or.inr ⟨hno, parse', hok, fun he' => ?_⟩
      rcases hcase with ⟨hne, -⟩ | ⟨F', hF', -, hlen, -⟩
      · exact absurd he' hne
      · rw [hsym] at hlen
        refine ⟨F', hF', by rw [hmode]; exact hlen, ?_⟩
        rw [hmode, hq, mode_plain_of_lex (Or.inl hlex)]
        rfl
  · refine Or.inr ⟨?_, ?_⟩
    · rintro ⟨sym, ⟨hlex, -⟩ | ⟨hlex, -⟩, -⟩ <;> rw [hlex] at hpend <;> cases hpend
    · rw [hrun]
      exact h.pending hpend

/-! ## Runs -/

/-- What is fed to a parser that was made or reset, in any number of
chunks. -/
inductive Fed : Parser → Prop
  | create (multidoc : Bool) : Fed (create () multidoc)
  | data {parse parse' : Parser} {data : List UInt8} : Fed parse → parse.parseData valueOps data = .ok parse' → Fed parse'
  | next {parse : Parser} : Fed parse → Fed parse.parseNext.2
  | reset {parse parse' : Parser} {multidoc : Bool} : Fed parse →
      parse.parseReset valueOps multidoc = .ok parse' → Fed parse'

theorem Between.parseData {data : List UInt8} (h : parse.error = none → ∃ F, parse.Between F)
    (hrun : parse.parseData valueOps data = .ok parse') : parse'.error = none → ∃ F, parse'.Between F := by
  induction data generalizing parse with
  | nil =>
    cases hrun
    exact h
  | cons c data ih =>
    cases he : parse.error with
    | some e =>
      rw [parseData_error he] at hrun
      cases hrun
      exact h
    | none =>
      obtain ⟨parse₁, hc, hdata⟩ := parseData_cons he hrun
      refine ih (fun he₁ => ?_) hdata
      obtain ⟨F, hF⟩ := h he
      rcases hF.parseChar c with ⟨-, hover⟩ | ⟨-, parse₂, hok, hgoes⟩
      · rw [hc] at hover
        cases hover
      · rw [hc, Except.ok.injEq] at hok
        subst hok
        obtain ⟨F', hF', -⟩ := hgoes he₁
        exact ⟨F', hF'⟩

theorem Fed.between (h : Fed parse) : parse.error = none → ∃ F, parse.Between F := by
  induction h with
  | create multidoc => exact fun _ => ⟨[], between_create multidoc⟩
  | data _ hrun ih => exact Between.parseData ih hrun
  | @next parse _ ih =>
    unfold parseNext
    cases parse.out with
    | nil => exact ih
    | cons n out =>
      intro he
      obtain ⟨F, hF⟩ := ih he
      exact ⟨F, hF.congr rfl rfl⟩
  | @reset parse parse' multidoc _ hrun ih =>
    intro _
    obtain ⟨heap, rfl⟩ := parseReset_ok hrun
    exact ⟨[], (between_create multidoc).congr rfl rfl⟩

/-- No character of a chunk is too deep, up to the first error. -/
def NeverDeep (parse : Parser) (data : List UInt8) : Prop :=
  ∀ pre c post parse₁, data = pre ++ c :: post → parse.parseData valueOps pre = .ok parse₁ →
    parse₁.error = none → ¬ parse₁.Deepens c

theorem neverDeep_cons {data : List UInt8} {parse₁ : Parser} (he : parse.error = none)
    (hc : parse.parseChar valueOps c = .ok parse₁) :
    parse.NeverDeep (c :: data) ↔ ¬ parse.Deepens c ∧ parse₁.NeverDeep data := by
  have hpre : ∀ pre, parse.parseData valueOps (c :: pre) = parse₁.parseData valueOps pre := by
    intro pre
    rw [Parse.parseData, he]
    simp only [hc, bind, Except.bind]
  constructor
  · intro h
    refine ⟨h [] c data parse rfl rfl he, ?_⟩
    rintro pre c' post parse₂ rfl hrun he₂
    exact h (c :: pre) c' post parse₂ rfl ((hpre pre).trans hrun) he₂
  · rintro ⟨hno, h⟩ pre c' post parse₂ heq hrun he₂
    cases pre with
    | nil =>
      obtain ⟨rfl, rfl⟩ := List.cons.inj heq
      cases hrun
      exact hno
    | cons d pre =>
      obtain ⟨rfl, rfl⟩ := List.cons.inj heq
      rw [hpre] at hrun
      exact h pre c' post parse₂ rfl hrun he₂

/-- A chunk is taken, or there is no room for a token of it. -/
theorem parseData_cases {data : List UInt8} (h : parse.error = none → ∃ F, parse.Between F) :
    (∃ parse', parse.parseData valueOps data = .ok parse') ∧ parse.NeverDeep data ∨
      parse.parseData valueOps data = .error .overflow ∧ ¬ parse.NeverDeep data := by
  induction data generalizing parse with
  | nil =>
    refine Or.inl ⟨⟨parse, rfl⟩, fun pre c post parse₁ heq => ?_⟩
    simp at heq
  | cons c data ih =>
    cases he : parse.error with
    | some e =>
      refine Or.inl ⟨⟨parse, parseData_error he⟩, fun pre c' post parse₁ _ hrun he₁ => ?_⟩
      rw [parseData_error he] at hrun
      cases hrun
      rw [he] at he₁
      cases he₁
    | none =>
      obtain ⟨F, hF⟩ := h he
      rcases hF.parseChar c with ⟨hdeep, hover⟩ | ⟨hno, parse₁, hok, hgoes⟩
      · refine Or.inr ⟨?_, fun hnever => hnever [] c data parse rfl rfl he hdeep⟩
        rw [Parse.parseData, he]
        simp only [hover, bind, Except.bind]
      · have hdata : parse.parseData valueOps (c :: data) = parse₁.parseData valueOps data := by
          rw [Parse.parseData, he]
          simp only [hok, bind, Except.bind]
        rw [hdata, neverDeep_cons he hok]
        have hnext : parse₁.error = none → ∃ F', parse₁.Between F' := fun he₁ =>
          (hgoes he₁).imp fun _ h => h.1
        refine (ih hnext).imp ?_ ?_
        · rintro ⟨hrun, hnever⟩
          exact ⟨hrun, hno, hnever⟩
        · rintro ⟨hrun, hnever⟩
          exact ⟨hrun, fun h => hnever h.2⟩

/-- **The stack is never written past its end** just when no token of what
is fed is too deep. -/
theorem parseData_fits_iff (h : Fed parse) (data : List UInt8) :
    parse.parseData valueOps data ≠ .error .overflow ↔ ∀ pre c post parse₁, data = pre ++ c :: post →
      parse.parseData valueOps pre = .ok parse₁ → parse₁.error = none → ¬ parse₁.Deepens c := by
  rcases @parseData_cases parse data h.between with ⟨⟨parse', hrun⟩, hnever⟩ | ⟨hover, hnever⟩
  · rw [hrun]
    exact iff_of_true (fun heq => by cases heq) hnever
  · exact iff_of_false (fun hne => hne hover) hnever

set_option maxRecDepth 100000 in
/-- Within an object and an array, of which the parser has been fed the beginning, there is room for 125 brackets. -/
theorem parseData_fits_iff_fed : ∃ parse, (create () false).parseData valueOps (chars "\x7b\"a\":[1,") = .ok parse ∧
    parse.parseData valueOps (List.replicate 125 (ch '[')) ≠ .error .overflow ∧
    parse.NeverDeep (List.replicate 125 (ch '[')) := by
  obtain ⟨parse, hbegin, parse', hrun⟩ : ∃ parse, (create () false).parseData valueOps (chars "\x7b\"a\":[1,") = .ok parse ∧
    ∃ parse', parse.parseData valueOps (List.replicate 125 (ch '[')) = .ok parse' := ⟨_, rfl, _, rfl⟩
  have hfits : parse.parseData valueOps (List.replicate 125 (ch '[')) ≠ .error .overflow := by
    rw [hrun]
    rintro ⟨⟩
  exact ⟨parse, hbegin, hfits, (parseData_fits_iff (.data (.create false) hbegin) _).1 hfits⟩

set_option maxRecDepth 100000 in
/-- The 128th bracket is too deep. -/
theorem parseData_overflow :
    (create () false).parseData valueOps (List.replicate 128 (ch '[')) = .error .overflow := by
  rfl

/-! ## What is not nested deep -/

theorem Between.not_deepens {F : List (Frame Value)} (h : parse.Between F) (hd : F.length ≤ 125) :
    ¬ parse.Deepens c := by
  rintro ⟨sym, -, top, σ, -, -, ⟨-, hopen⟩ | ⟨-, -, hopen⟩⟩
  · rw [h.opened_eq] at hopen
    omega
  · rw [h.opened_eq] at hopen
    omega

/-- **There is room for a text** that is not nested deeper than 125
containers. -/
theorem neverDeep_of_nesting {data : List UInt8}
    (h : parse.error = none → ∃ F, parse.Between F ∧ nestingFrom parse.mode F.length data ≤ 125) :
    parse.NeverDeep data := by
  induction data generalizing parse with
  | nil =>
    intro pre c post parse₁ heq
    simp at heq
  | cons c data ih =>
    cases he : parse.error with
    | some e =>
      intro pre c' post parse₁ _ hrun he₁
      rw [parseData_error he] at hrun
      cases hrun
      rw [he] at he₁
      cases he₁
    | none =>
      obtain ⟨F, hF, hnest⟩ := h he
      rw [nestingFrom, max_le_iff] at hnest
      rcases hF.parseChar c with ⟨hdeep, -⟩ | ⟨hno, parse₁, hok, hgoes⟩
      · exact absurd hdeep (hF.not_deepens hnest.1)
      · refine (neverDeep_cons he hok).2 ⟨hno, ih fun he₁ => ?_⟩
        obtain ⟨F₁, hF₁, hlen, hmode⟩ := hgoes he₁
        exact ⟨F₁, hF₁, by rw [hlen, hmode]; exact hnest.2⟩

/-- A parser that was just made or reset. -/
structure Fresh (parse : Parser) : Prop where
  out : parse.out = []
  error : parse.error = none
  build : parse.build = []
  stack : parse.stack = [.jsonDocument]
  buf : parse.buf.bytes = []
  lex : parse.lex = .limbo
  log : parse.log = []

theorem Fresh.between (h : parse.Fresh) : parse.Between [] :=
  (between_create parse.multidoc).congr h.stack h.build

theorem Fresh.parseData_ok {data : List UInt8} (h : parse.Fresh) (hn : nesting data ≤ 125) :
    ∃ parse', parse.parseData valueOps data = .ok parse' := by
  have hb : parse.error = none → ∃ F, parse.Between F := fun _ => ⟨[], h.between⟩
  have hnever : parse.NeverDeep data := by
    refine neverDeep_of_nesting fun _ => ⟨[], h.between, ?_⟩
    rw [mode_plain_of_lex (Or.inl h.lex)]
    exact hn
  rcases @parseData_cases parse data hb with ⟨hok, -⟩ | ⟨-, hno⟩
  · exact hok
  · exact absurd hnever hno

end Parse

end Json

end Mowgli
