import Mowgli.Ext.Json.Static
/-!
# What a text is made of

A text is spaces, tokens of one character, strings, numbers and identifiers,
one after the other. Which of them the lexer takes for one is `Scanned`,
which of them are written as JSON has them is `WellFormed`; neither is the
other. In a document no number and no identifier is next to another, so there
is only one way to read it (`spelling_unique`).
-/

namespace Mowgli

namespace Json

open Parse

/-- What a text is made of; a string with what is between its quotes. -/
inductive Lexeme
  | space (c : UInt8)
  | easy (c : UInt8)
  | string (w : List UInt8)
  | number (w : List UInt8)
  | identifier (w : List UInt8)

/-- The terminals of one character. -/
def easyTerminal (c : UInt8) : Option Terminal :=
  if c = ch '\x7b' then some .beginObject
  else if c = ch '\x7d' then some .endObject
  else if c = ch '[' then some .beginArray
  else if c = ch ']' then some .endArray
  else if c = ch ':' then some .nameSep
  else if c = ch ',' then some .valueSep
  else none

/-- Where a string is after some characters, if none of them closes it. -/
def inString : Mode → List UInt8 → Option Mode
  | m, [] => some m
  | m, c :: w => if m = .string ∧ c = ch '"' then none else inString (m.next c) w

/-- A hexadecimal digit. -/
def isXDigit (c : UInt8) : Bool := (digitValue c).any (· < 16)

/-- What is between the quotes of a JSON string. -/
inductive JsonString : List UInt8 → Prop
  | nil : JsonString []
  | char {c : UInt8} {w : List UInt8} : 0x20 ≤ c → c ≠ ch '"' → c ≠ ch '\\' → JsonString w → JsonString (c :: w)
  | escape {d : UInt8} {w : List UInt8} : d ∈ chars "\"\\/bfnrt" → JsonString w → JsonString (ch '\\' :: d :: w)
  | unicode {u₁ u₂ u₃ u₄ : UInt8} {w : List UInt8} : (∀ u ∈ [u₁, u₂, u₃, u₄], isXDigit u) → JsonString w →
      JsonString (ch '\\' :: ch 'u' :: u₁ :: u₂ :: u₃ :: u₄ :: w)

/-- One digit or more. -/
def IsDigits (w : List UInt8) : Prop := w ≠ [] ∧ ∀ c ∈ w, isDigit c

/-- A JSON number. -/
inductive JsonNumber : List UInt8 → Prop
  | intro {sign int frac exp : List UInt8} :
      sign ∈ [[], chars "-"] →
      (int = chars "0" ∨ IsDigits int ∧ int.head? ≠ some (ch '0')) →
      (frac = [] ∨ ∃ ds, frac = ch '.' :: ds ∧ IsDigits ds) →
      (exp = [] ∨ ∃ e s ds, exp = e :: (s ++ ds) ∧ e ∈ chars "eE" ∧ s ∈ [[], chars "+", chars "-"] ∧ IsDigits ds) →
      JsonNumber (sign ++ (int ++ (frac ++ exp)))

namespace Lexeme

def text : Lexeme → List UInt8
  | space c | easy c => [c]
  | string w => ch '"' :: (w ++ [ch '"'])
  | number w | identifier w => w

/-- What the lexer makes of a number. -/
def numberTerminal (w : List UInt8) : Terminal :=
  if ch '.' ∈ w ∨ ch 'e' ∈ w then .float w else .int (toInt (strtol w 0))

/-- What the lexer makes of an identifier. -/
def identifierTerminal (w : List UInt8) : Terminal :=
  if w = chars "null" then .null
  else if w = chars "true" then .bool true
  else if w = chars "false" then .bool false
  else .null

/-- The terminal that a lexeme is, if it is no space. -/
def terminal : Lexeme → Option Terminal
  | space _ => none
  | easy c => easyTerminal c
  | string w => some (.string (lexStringScan .create w).bytes)
  | number w => some (numberTerminal w)
  | identifier w => some (identifierTerminal w)

/-- What the lexer takes for one. -/
def Scanned : Lexeme → Prop
  | space c => isSpace c
  | easy c => (easyTerminal c).isSome
  | string w => inString .string w = some .string
  | number w => w.head?.any beginsNumber ∧ ∀ c ∈ w, inNumber c
  | identifier w => w ≠ [] ∧ ∀ c ∈ w, isAlpha c

/-- What JSON has. -/
def WellFormed : Lexeme → Prop
  | space c => c ∈ chars " \t\n\r"
  | easy c => (easyTerminal c).isSome
  | string w => JsonString w
  | number w => JsonNumber w
  | identifier w => w ∈ [chars "null", chars "true", chars "false"]

/-- What the lexer takes for one, and a number also with a plus sign. -/
def Loose : Lexeme → Prop
  | number w => w.head?.any beginsNumber ∧ ∀ c ∈ w, inNumber c ∨ c = ch '+'
  | x => x.Scanned

/-- A number or an identifier: there is no telling its end but by what is
after it. -/
def IsWord : Lexeme → Prop
  | number _ | identifier _ => True
  | _ => False

/-- A space or a token of one character. -/
def IsBreak : Lexeme → Prop
  | space _ | easy _ => True
  | _ => False

end Lexeme

/-- The text of some lexemes. -/
def textOf (l : List Lexeme) : List UInt8 := l.flatMap Lexeme.text

/-- The terminals of some lexemes. -/
def terminals (l : List Lexeme) : List Terminal := l.filterMap Lexeme.terminal

theorem terminals_append (l l' : List Lexeme) : terminals (l ++ l') = terminals l ++ terminals l' := List.filterMap_append

/-- What the lexer has when a text ends within a token, or outside of any. -/
inductive Unfinished : List UInt8 → Prop
  | nil : Unfinished []
  | string {w : List UInt8} : (inString .string w).isSome → Unfinished (ch '"' :: w)
  | number {w : List UInt8} : (Lexeme.number w).Scanned → Unfinished w
  | identifier {w : List UInt8} : (Lexeme.identifier w).Scanned → Unfinished w

/-- The lexemes of one document. -/
def OneDocument (l : List Lexeme) : Prop := ∃ v, Derives .jsonDocument (terminals l) (.value v)

/-- Every number and identifier has a space or a token of one character
after it. -/
def Parted : List Lexeme → Prop
  | [] => True
  | x :: l => (x.IsWord → ∃ y l', l = y :: l' ∧ y.IsBreak) ∧ Parted l

/-! ## Kinds of characters -/

section

variable {c : UInt8} {x : Lexeme} {w r s : List UInt8} {l l' : List Lexeme}

/-- A space or a token of one character is in no number and no identifier. -/
theorem break_char : ∀ c : UInt8, isSpace c = true ∨ (easyTerminal c).isSome = true →
    inNumber c = false ∧ c ≠ ch '+' ∧ isAlpha c = false :=
  forall_uint8 (by decide +kernel)

/-- A character tells what it begins. -/
theorem easy_char : ∀ c : UInt8, (easyTerminal c).isSome = true → isSpace c = false :=
  forall_uint8 (by decide +kernel)

theorem number_char : ∀ c : UInt8, beginsNumber c = true →
    isSpace c = false ∧ easyTerminal c = none ∧ c ≠ ch '"' ∧ inNumber c = true :=
  forall_uint8 (by decide +kernel)

theorem alpha_char : ∀ c : UInt8, isAlpha c = true →
    isSpace c = false ∧ easyTerminal c = none ∧ c ≠ ch '"' ∧ beginsNumber c = false :=
  forall_uint8 (by decide +kernel)

theorem easyTerminal_eq_none (c : UInt8) : easyTerminal c = none ↔ easySym c = none := by
  unfold easyTerminal easySym
  split_ifs <;> simp

theorem easyTerminal_token {t : Terminal} (h : easyTerminal c = some t) :
    easySym c = some t.sym ∧ t.val = none := by
  unfold easyTerminal at h
  unfold easySym
  split_ifs at h ⊢ <;> cases h <;> exact ⟨rfl, rfl⟩

/-! ## Reading a lexeme -/

theorem Lexeme.Scanned.loose (h : x.Scanned) : x.Loose := by
  cases x with
  | number w => exact ⟨h.1, fun c hc => Or.inl (h.2 c hc)⟩
  | _ => exact h

theorem JsonString.inString (h : JsonString w) : inString .string w = some .string := by
  have hescape : ∀ d ∈ chars "\"\\/bfnrt", d ≠ ch 'u' := forall_mem_bytes (by decide)
  induction h with
  | nil => rfl
  | char _ hq hb _ ih => simp only [Json.inString, Mode.next, hq, hb, and_false, if_false, ih]
  | escape hd _ ih =>
    simp only [Json.inString, Mode.next, hescape _ hd, if_true, if_false, reduceCtorEq, false_and, ih]
    rfl
  | unicode _ _ ih =>
    simp only [Json.inString, Mode.next, if_true, if_false, reduceCtorEq, false_and]
    exact ih

theorem inNumber_of_isDigit : ∀ c : UInt8, isDigit c = true → beginsNumber c = true ∧ inNumber c = true ∧ c ≠ ch '+' :=
  forall_uint8 (by decide +kernel)

/-- The characters of a JSON number, the sign of the exponent among them. -/
theorem JsonNumber.chars (h : JsonNumber w) :
    w.head?.any beginsNumber ∧ ∀ c ∈ w, inNumber c ∨ c = ch '+' := by
  cases h with
  | @intro sign int frac exp hsign hint hfrac hexp =>
    have hdigits : ∀ {w : List UInt8}, IsDigits w → ∀ c ∈ w, inNumber c ∨ c = ch '+' :=
      fun hw c hc => Or.inl (inNumber_of_isDigit c (hw.2 c hc)).2.1
    have hint' : int.head?.any beginsNumber ∧ ∀ c ∈ int, inNumber c ∨ c = ch '+' := by
      rcases hint with rfl | ⟨hw, -⟩
      · exact ⟨by decide, forall_mem_bytes (by decide)⟩
      · obtain ⟨c, v, rfl⟩ := List.exists_cons_of_ne_nil hw.1
        exact ⟨(inNumber_of_isDigit c (hw.2 c List.mem_cons_self)).1, hdigits hw⟩
    have hfrac' : ∀ c ∈ frac, inNumber c ∨ c = ch '+' := by
      rcases hfrac with rfl | ⟨ds, rfl, hds⟩
      · exact fun c hc => absurd hc List.not_mem_nil
      · exact List.forall_mem_cons.2 ⟨by decide, hdigits hds⟩
    have hexp' : ∀ c ∈ exp, inNumber c ∨ c = ch '+' := by
      rcases hexp with rfl | ⟨e, s, ds, rfl, he, hs, hds⟩
      · exact fun c hc => absurd hc List.not_mem_nil
      · have he' : ∀ e ∈ Parse.chars "eE", inNumber e ∨ e = ch '+' := forall_mem_bytes (by decide)
        have hs' : ∀ c ∈ s, inNumber c ∨ c = ch '+' := by
          simp only [List.mem_cons, List.not_mem_nil, or_false] at hs
          rcases hs with rfl | rfl | rfl <;> exact forall_mem_bytes (by decide)
        refine List.forall_mem_cons.2 ⟨he' e he, fun c hc => ?_⟩
        rcases List.mem_append.1 hc with hc | hc
        · exact hs' c hc
        · exact hdigits hds c hc
    have hsign' : ∀ c ∈ sign, inNumber c ∨ c = ch '+' := by
      simp only [List.mem_cons, List.not_mem_nil, or_false] at hsign
      rcases hsign with rfl | rfl <;> exact forall_mem_bytes (by decide)
    constructor
    · simp only [List.mem_cons, List.not_mem_nil, or_false] at hsign
      rcases hsign with rfl | rfl
      · obtain ⟨hhead, -⟩ := hint'
        cases int with
        | nil => cases hhead
        | cons c v => exact hhead
      · rfl
    · intro c hc
      simp only [List.mem_append] at hc
      rcases hc with hc | hc | hc | hc
      · exact hsign' c hc
      · exact hint'.2 c hc
      · exact hfrac' c hc
      · exact hexp' c hc

theorem Lexeme.WellFormed.loose (h : x.WellFormed) : x.Loose := by
  cases x with
  | space c =>
    have hall : ∀ c ∈ chars " \t\n\r", isSpace c = true := forall_mem_bytes (by decide)
    exact hall c h
  | easy c => exact h
  | string w => exact h.inString
  | number w => exact h.chars
  | identifier w =>
    have hmem : w ∈ [chars "null", chars "true", chars "false"] := h
    have hw : w = chars "null" ∨ w = chars "true" ∨ w = chars "false" := by
      simpa only [List.mem_cons, List.not_mem_nil, or_false] using hmem
    rcases hw with rfl | rfl | rfl <;> exact ⟨by decide, forall_mem_bytes (by decide)⟩

/-- Without a plus sign, the lexer takes what JSON has. -/
theorem Lexeme.WellFormed.scanned (h : x.WellFormed) (hplus : ∀ w, x = .number w → ch '+' ∉ w) : x.Scanned := by
  have hloose := h.loose
  cases x with
  | number w =>
    refine ⟨hloose.1, fun c hc => ?_⟩
    rcases hloose.2 c hc with hin | rfl
    · exact hin
    · exact absurd hc (hplus w rfl)
  | _ => exact hloose

/-- What is before the quote that closes a string, and what is after it. -/
def closing : Mode → List UInt8 → List UInt8 × List UInt8
  | _, [] => ([], [])
  | m, c :: s => if m = .string ∧ c = ch '"' then ([], s) else (c :: (closing (m.next c) s).1, (closing (m.next c) s).2)

/-- The lexeme that a text begins with, and the rest. -/
def firstLexeme : List UInt8 → Lexeme × List UInt8
  | [] => (.string [], [])
  | c :: s =>
    if isSpace c then (.space c, s)
    else if (easyTerminal c).isSome then (.easy c, s)
    else if c = ch '"' then (.string (closing .string s).1, (closing .string s).2)
    else if beginsNumber c then
      (.number ((c :: s).takeWhile fun d => inNumber d || d = ch '+'),
        (c :: s).dropWhile fun d => inNumber d || d = ch '+')
    else (.identifier ((c :: s).takeWhile isAlpha), (c :: s).dropWhile isAlpha)

theorem closing_of_inString {m : Mode} (h : inString m w = some .string) : closing m (w ++ ch '"' :: r) = (w, r) := by
  induction w generalizing m with
  | nil =>
    cases h
    exact if_pos ⟨rfl, rfl⟩
  | cons c w ih =>
    rw [inString] at h
    split_ifs at h with hq
    rw [List.cons_append, closing, if_neg hq, ih h]

/-- What is after a number or an identifier does not go on with it. -/
def Follows (x : Lexeme) (r : List UInt8) : Prop :=
  x.IsWord → ∀ c ∈ r.head?, inNumber c = false ∧ c ≠ ch '+' ∧ isAlpha c = false

theorem takeWhile_word {p : UInt8 → Bool} (hw : ∀ c ∈ w, p c = true) (hr : ∀ c ∈ r.head?, p c = false) :
    (w ++ r).takeWhile p = w ∧ (w ++ r).dropWhile p = r := by
  rw [List.takeWhile_append_of_pos hw, List.dropWhile_append_of_pos hw]
  cases r with
  | nil => simp
  | cons c r => simp [hr c rfl]

/-- **A lexeme is read back.** -/
theorem firstLexeme_text (hx : x.Loose) (hr : Follows x r) : firstLexeme (x.text ++ r) = (x, r) := by
  cases x with
  | space c => exact if_pos hx
  | easy c =>
    have hs := easy_char c hx
    show firstLexeme (c :: r) = _
    rw [firstLexeme, hs, if_neg Bool.false_ne_true, if_pos (show (easyTerminal c).isSome = true from hx)]
  | string w =>
    have hq : isSpace (ch '"') = false ∧ easyTerminal (ch '"') = none := by decide
    show firstLexeme (ch '"' :: (w ++ [ch '"'] ++ r)) = _
    rw [List.append_assoc, firstLexeme, hq.1, hq.2, Option.isSome_none, if_neg Bool.false_ne_true,
      if_neg Bool.false_ne_true, if_pos rfl]
    have hclose : closing .string (w ++ ([ch '"'] ++ r)) = (w, r) := closing_of_inString hx
    rw [hclose]
  | number w =>
    obtain ⟨hhead, hall⟩ := hx
    have hword := @takeWhile_word w r (fun d => inNumber d || d = ch '+') (by simpa using hall)
      (fun c hc => by simp [hr trivial c hc])
    cases w with
    | nil => cases hhead
    | cons c v =>
      change beginsNumber c = true at hhead
      obtain ⟨hs, he, hq, -⟩ := number_char c hhead
      show firstLexeme (c :: (v ++ r)) = _
      rw [firstLexeme, hs, he, Option.isSome_none, if_neg Bool.false_ne_true, if_neg Bool.false_ne_true, if_neg hq,
        if_pos hhead]
      exact congrArg₂ (fun u v => (Lexeme.number u, v)) hword.1 hword.2
  | identifier w =>
    obtain ⟨hne, hall⟩ := hx
    have hword := @takeWhile_word w r isAlpha hall fun c hc => (hr trivial c hc).2.2
    obtain ⟨c, v, rfl⟩ := List.exists_cons_of_ne_nil hne
    obtain ⟨hs, he, hq, hn⟩ := alpha_char c (hall c List.mem_cons_self)
    show firstLexeme (c :: (v ++ r)) = _
    rw [firstLexeme, hs, he, Option.isSome_none, if_neg Bool.false_ne_true, if_neg Bool.false_ne_true, if_neg hq, hn,
      if_neg Bool.false_ne_true]
    exact congrArg₂ (fun u v => (Lexeme.identifier u, v)) hword.1 hword.2

/-! ## What is next to a number -/

/-- The terminals that need something after them. -/
def wordSyms : List Sym := [.number, .identifier]

/-- Every number and identifier has a token of one character after it. -/
def Apart : List Terminal → Prop
  | [] => True
  | t :: ts => (t.sym ∈ wordSyms → ∃ u us, ts = u :: us ∧ u.sym ∈ easySyms) ∧ Apart ts

theorem easySyms_not_word : ∀ s ∈ easySyms, s ∉ wordSyms := by
  decide

/-- In what a symbol derives, numbers and identifiers are apart, if they are
from what is after it. -/
theorem Derives.apart {s : Sym} {ts us : List Terminal} {m : Meaning} (hd : Derives s ts m) (hus : Apart us)
    (hs : s ∈ [Sym.value, .objElem] → ∃ u us', us = u :: us' ∧ u.sym ∈ easySyms) : Apart (ts ++ us) := by
  have htails : ∀ s ∈ [Sym.objTail, .arrTail], ∀ x : Sym, llTable s x ≠ 0 → x ∈ easySyms := by decide
  have hone : ∀ {t : Terminal} {us : List Terminal}, t.sym ∉ wordSyms → Apart us → Apart (t :: us) :=
    fun ht hus => ⟨fun hmem => absurd hmem ht, hus⟩
  induction hd generalizing us with
  | rule1 _ ih | rule2 _ ih | rule3 _ ih | rule4 _ ih | rule10 _ ih | rule17 _ ih =>
    exact ih hus fun hmem => absurd hmem (by decide)
  | rule5 => exact hone (show Sym.string ∉ wordSyms by decide) hus
  | rule6 ht _ | rule7 ht _ => exact ⟨fun _ => hs (by decide), hus⟩
  | rule8 _ _ ih | rule12 _ ih | rule15 _ ih | rule19 _ ih =>
    exact hone (by decide) (ih hus fun hmem => absurd hmem (by decide))
  | rule9 | rule13 | rule16 | rule20 => exact hone (by decide) hus
  | rule11 _ hd' ih ih' | rule18 _ hd' ih ih' =>
    rw [List.append_assoc]
    refine ih (ih' hus fun hmem => absurd hmem (by decide)) fun _ => ?_
    obtain ⟨t, ts', rfl, ht⟩ := hd'.first
    exact ⟨t, ts' ++ us, rfl, htails _ (by decide) _ ht⟩
  | rule14 _ ih => 
    exact hone (show Sym.string ∉ wordSyms by decide) (hone (by decide) (ih hus fun _ => hs (by decide)))

theorem Lexeme.IsWord.terminal (h : x.IsWord) : ∃ t, x.terminal = some t ∧ t.sym ∈ wordSyms := by
  cases x with
  | number w =>
    refine ⟨_, rfl, ?_⟩
    unfold numberTerminal
    split_ifs <;> exact List.mem_cons_self
  | identifier w =>
    refine ⟨_, rfl, ?_⟩
    unfold identifierTerminal
    split_ifs <;> exact List.mem_cons_of_mem _ List.mem_cons_self
  | _ => exact h.elim

/-- What is no space is some terminal. -/
theorem Lexeme.Loose.terminal_eq_none (h : x.Loose) (hx : x.terminal = none) : ∃ c, x = .space c := by
  cases x with
  | space c => exact ⟨c, rfl⟩
  | easy c =>
    have he : (easyTerminal c).isSome = true := h
    rw [show easyTerminal c = none from hx] at he
    cases he
  | _ => cases hx

theorem Lexeme.isBreak_of_terminal {t : Terminal} (hx : x.terminal = some t) (ht : t.sym ∈ easySyms) : x.IsBreak := by
  have hword : ∀ {y : Lexeme}, y.terminal = some t → ¬ y.IsWord := by
    intro y hy hw
    obtain ⟨u, hu, hmem⟩ := hw.terminal
    rw [hy, Option.some.injEq] at hu
    exact easySyms_not_word _ ht (hu ▸ hmem)
  cases x with
  | space c | easy c => trivial
  | string w =>
    cases hx
    exact absurd ht (show Sym.string ∉ easySyms by decide)
  | number w | identifier w => exact absurd trivial (hword hx)

theorem Apart.parted (hl : ∀ x ∈ l, x.Loose) (h : Apart (terminals l)) : Parted l := by
  induction l with
  | nil => trivial
  | cons x l ih =>
    rw [List.forall_mem_cons] at hl
    cases hx : x.terminal with
    | none =>
      obtain ⟨c, rfl⟩ := hl.1.terminal_eq_none hx
      exact ⟨fun hw => hw.elim, ih hl.2 h⟩
    | some t =>
      have hcons : terminals (x :: l) = t :: terminals l := by simp [terminals, hx]
      rw [hcons] at h
      refine ⟨fun hw => ?_, ih hl.2 h.2⟩
      obtain ⟨t', ht', hmem⟩ := hw.terminal
      rw [hx, Option.some.injEq] at ht'
      obtain ⟨u, us, hus, hu⟩ := h.1 (ht' ▸ hmem)
      cases l with
      | nil => cases hus
      | cons y l =>
        refine ⟨y, l, rfl, ?_⟩
        cases hy : y.terminal with
        | none =>
          obtain ⟨c, rfl⟩ := hl.2 y List.mem_cons_self |>.terminal_eq_none hy
          trivial
        | some t₂ =>
          have hcons' : terminals (y :: l) = t₂ :: terminals l := by simp [terminals, hy]
          rw [hcons'] at hus
          exact Lexeme.isBreak_of_terminal hy ((List.cons.inj hus).1 ▸ hu)

/-- **The lexemes of a document are parted.** -/
theorem OneDocument.parted (h : OneDocument l) (hl : ∀ x ∈ l, x.Loose) : Parted l := by
  obtain ⟨v, hd⟩ := h
  have happ := @Derives.apart _ _ [] _ hd trivial fun hmem => absurd hmem (by decide)
  rw [List.append_nil] at happ
  exact happ.parted hl

theorem Parted.next (h : Parted (x :: l)) (hl : ∀ x ∈ l, x.Loose) (hw : x.IsWord) (r : List UInt8) :
    ∃ c r', textOf l ++ r = c :: r' ∧ inNumber c = false ∧ c ≠ ch '+' ∧ isAlpha c = false := by
  obtain ⟨y, l', rfl, hy⟩ := h.1 hw
  have hloose := hl y List.mem_cons_self
  cases y with
  | space d => exact ⟨d, textOf l' ++ r, rfl, break_char d (Or.inl hloose)⟩
  | easy d => exact ⟨d, textOf l' ++ r, rfl, break_char d (Or.inr hloose)⟩
  | _ => exact hy.elim

theorem Parted.follows (h : Parted (x :: l)) (hl : ∀ x ∈ l, x.Loose) : Follows x (textOf l ++ r) := by
  intro hw c hc
  obtain ⟨d, r', heq, hd⟩ := h.next hl hw r
  rw [heq] at hc
  obtain rfl : d = c := Option.some.inj hc
  exact hd

/-! ## There is only one way to read a document -/

theorem Lexeme.Loose.text_ne_nil (h : x.Loose) : x.text ≠ [] := by
  cases x with
  | number w =>
    rintro rfl
    cases h.1
  | identifier w => exact h.1
  | _ => exact List.cons_ne_nil _ _

/-- Two readings of a text, one of which goes to its end. -/
theorem spelling_prefix (hl : ∀ x ∈ l, x.Loose) (hl' : ∀ x ∈ l', x.Loose) (hp : Parted l) (hp' : Parted l')
    (h : textOf l ++ r = textOf l') : ∃ l₁, l' = l ++ l₁ ∧ r = textOf l₁ := by
  induction l generalizing l' with
  | nil => exact ⟨l', rfl, h⟩
  | cons x l ih =>
    rw [List.forall_mem_cons] at hl
    cases l' with
    | nil =>
      have happ : x.text ++ (textOf l ++ r) = [] := by
        simpa [textOf] using h
      exact absurd (List.append_eq_nil_iff.1 happ).1 hl.1.text_ne_nil
    | cons x' l' =>
      rw [List.forall_mem_cons] at hl'
      have hx := firstLexeme_text hl.1 (@Parted.follows x r l hp hl.2)
      have hx' := firstLexeme_text hl'.1 (@Parted.follows x' [] l' hp' hl'.2)
      have htext : x.text ++ (textOf l ++ r) = x'.text ++ (textOf l' ++ []) := by
        simpa [textOf] using h
      rw [htext, hx', Prod.mk.injEq] at hx
      obtain ⟨rfl, hrest⟩ := hx
      rw [List.append_nil] at hrest
      obtain ⟨l₁, rfl, hr⟩ := ih hl.2 hl'.2 hp.2 hp'.2 hrest.symm
      exact ⟨l₁, rfl, hr⟩

/-- No document is the beginning of another. -/
theorem OneDocument.terminals_nil {l₁ : List Lexeme} (h : OneDocument l) (h' : OneDocument (l ++ l₁)) :
    terminals l₁ = [] := by
  obtain ⟨v, hd⟩ := h
  obtain ⟨v', hd'⟩ := h'
  rw [terminals_append] at hd'
  exact hd.feeds_nil.prefix_free hd'.feeds_nil

theorem Unfinished.not_space (h : Unfinished (c :: r)) : isSpace c = false := by
  have hq : isSpace (ch '"') = false := by decide
  generalize hs : c :: r = s at h
  cases h with
  | nil => cases hs
  | string =>
    cases hs
    exact hq
  | number hw =>
    subst hs
    exact (number_char c hw.1).1
  | identifier hw =>
    subst hs
    exact (alpha_char c (hw.2 c List.mem_cons_self)).1

/-- **There is only one way to read a document**, and what is unfinished
after it is no part of it. -/
theorem spelling_unique (hl : ∀ x ∈ l, x.Loose) (hl' : ∀ x ∈ l', x.Loose) (hd : OneDocument l)
    (hd' : OneDocument l') (hr : Unfinished r) (h : textOf l ++ r = textOf l') : l' = l ∧ r = [] := by
  obtain ⟨l₁, rfl, rfl⟩ := spelling_prefix hl hl' (hd.parted hl) (hd'.parted hl') h
  have hnil := hd.terminals_nil hd'
  cases l₁ with
  | nil => exact ⟨List.append_nil l, rfl⟩
  | cons x l₁ =>
    have hx : x.terminal = none := by
      cases hx : x.terminal with
      | none => rfl
      | some t => simp [terminals, hx] at hnil
    have hloose := hl' x (List.mem_append_right _ List.mem_cons_self)
    obtain ⟨c, rfl⟩ := hloose.terminal_eq_none hx
    have hspace : isSpace c = true := hloose
    rw [hr.not_space] at hspace
    cases hspace

end

end Json

end Mowgli
