import Mowgli.Ext.Json.Members
import Mowgli.Ext.Json.Scan
/-!
# What `mowgli_json_parse_string` accepts

A value is returned if the text is the lexemes of one document as the lexer
takes them, and behind them nothing, or a token that is not finished: what the
lexer has of that at the end is thrown away. So a JSON document is accepted
unless a number in it has a plus sign, and so are texts that are none.
-/

namespace Mowgli

namespace Json

open Parse

/-- A text is one JSON document, with whitespace around its tokens. -/
def IsDocument (s : List UInt8) : Prop := ∃ l, textOf l = s ∧ (∀ x ∈ l, x.WellFormed) ∧ OneDocument l

/-- Where a text begins with a document, with at most an unfinished token behind
it, the document has no plus sign in a number exactly if nothing is behind it
and all of its lexemes are JSON. -/
def ReadsJson (s : List UInt8) : Prop :=
  ∀ l tail, s = textOf l ++ tail → (∀ x ∈ l, x.Loose) → OneDocument l → Unfinished tail →
    ((∀ w, .number w ∈ l → ch '+' ∉ w) ↔ tail = [] ∧ ∀ x ∈ l, x.WellFormed)

/-- The lexer takes a text for one document. -/
def ReadAsDocument (s : List UInt8) : Prop :=
  ∃ l tail, s = textOf l ++ tail ∧ (∀ x ∈ l, x.Scanned) ∧ OneDocument l ∧ Unfinished tail

/-- The tokens of a text, read from the start. -/
def tokensOf (s : List UInt8) : List Terminal := (Parse.create () false : Parser).lexer.scan s

/-- What a tree may be asked to hold: the names of members, and any string of what is no documents. There a
string of an array may be put into an object as a name, by a token behind an
error that closes the object. -/
def AskedName (ts : List Terminal) (name : CString) : Prop :=
  name ∈ memberNames ts ∨ (∀ docs, ¬ Documents ts docs) ∧ name ∈ strings ts

theorem Documents.only {ts : List Terminal} {docs : List Value} (h : Documents ts docs) (hlen : docs.length = 1) :
    ∃ v, Derives .jsonDocument ts (.value v) := by
  cases h with
  | nil => cases hlen
  | @cons ts us v vs hd hrest =>
    obtain rfl : vs = [] := by simpa using hlen
    cases hrest
    exact ⟨v, by rwa [List.append_nil]⟩

namespace Parse

variable {p p' : Parser} {s : List UInt8} {l : List Lexeme}

theorem multidoc_kept (b : Bool) : Kept valueOps fun parse => parse.multidoc = b where
  lexed _ _ _ h := h
  easy h _ hrun := (llParse_logged hrun).2.1.trans h
  token h _ _ hrun := (llParse_logged hrun).2.1.trans h
  error _ h := h

theorem Fresh.reading (h : p.Fresh) : Reading p :=
  (reading_create p.multidoc).congr h.stack h.build h.error rfl h.log

/-- A value is returned where there is no error and a document on the queue. -/
theorem parseEnd_isSome : p.parseEnd.1.isSome ↔ p.error = none ∧ p.out ≠ [] := by
  unfold parseEnd parseNext
  cases p.error with
  | some e => simp
  | none => cases p.out <;> simp

/-- **The value of a document that the lexer takes** is all that is on the queue. -/
theorem Fresh.queue_eq (h : p.Fresh) {tail : List UInt8} {v : Value}
    (hrun : p.parseData valueOps (textOf l ++ tail) = .ok p') (h0 : 0 ∉ textOf l ++ tail) (hscan : ∀ x ∈ l, x.Scanned)
    (hv : Derives .jsonDocument (terminals l) (.value v)) (hunf : Unfinished tail) :
    p'.error = none ∧ p'.out = [v] := by
  have hparted := (show OneDocument l from ⟨v, hv⟩).parted fun x hx => (hscan x hx).loose
  rw [List.mem_append, not_or] at h0
  have hfeeds : predictor.Feeds p.stack p.build (terminals l) [] [v] := by
    rw [h.stack, h.build]
    exact hv.feeds_nil
  obtain ⟨p₁, he, hl, hb, hout, hrest⟩ := parseData_document hrun h.error h.lex h.buf hscan hparted h0.1
    (h.stack ▸ List.cons_ne_nil _ _) hfeeds
  obtain ⟨buf, lex, lexU, htail⟩ := parseData_unfinished he hl hb hunf h0.2
  obtain rfl := Except.ok.inj (htail.symm.trans hrest)
  refine ⟨he, ?_⟩
  show p₁.out = [v]
  rw [hout, h.out, List.nil_append]

/-- **A document that the lexer takes** is on the queue. -/
theorem Fresh.queued (h : p.Fresh) (hrun : p.parseData valueOps s = .ok p') (h0 : 0 ∉ s) (hread : ReadAsDocument s) :
    p'.error = none ∧ p'.out ≠ [] := by
  obtain ⟨l, tail, rfl, hscan, ⟨v, hv⟩, hunf⟩ := hread
  obtain ⟨he, hout⟩ := h.queue_eq hrun h0 hscan hv hunf
  exact ⟨he, hout ▸ List.cons_ne_nil _ _⟩

/-- **What is on the queue** is a document that the lexer took. -/
theorem Fresh.readAsDocument (h : p.Fresh) (hm : p.multidoc = false) (hrun : p.parseData valueOps s = .ok p')
    (h0 : 0 ∉ s) (he : p'.error = none) (hout : p'.out ≠ []) : ReadAsDocument s := by
  have hstart : Spelled p [] := ⟨[], [], rfl, nofun, by rw [h.log]; rfl, .limbo h.lex h.buf⟩
  obtain ⟨l, tail, hs, hscan, hlog, hbegun⟩ := hstart.parseData (by exact h0) hrun he
  refine ⟨l, tail, hs, hscan, ?_, hbegun.unfinished⟩
  obtain ⟨-, ts, ts', htoks, hdocs, hplace⟩ := (reading_kept.parseData h.reading hrun).live he
  have hheld : documents p'.log = [] ++ p'.out :=
    (held_kept []).parseData (show documents p.log = [] ++ p.out by rw [h.log, h.out]; rfl) hrun
  cases hplace with
  | inside _ _ _ _ hnone =>
    rw [hnone ((multidoc_kept false).parseData hm hrun)] at hheld
    exact absurd hheld.symm hout
  | done _ _ _ hlen =>
    -- the tokens that were read are those of the only document
    rw [List.append_nil, hlog] at htoks
    rw [← Terminal.token_injective.list_map htoks] at hdocs
    exact hdocs.only hlen

/-- What `mowgli_json_parse_string` does: the parser is fresh, and is fed the
whole text. -/
theorem parseString_eq (p : Parser) {data : CString} (hn : nesting data.bytes ≤ 100) :
    ∃ p₁ p₂ : Parser, p₁.Fresh ∧ p₁.multidoc = false ∧ p₁.parseData valueOps data.bytes = .ok p₂ ∧
      p.parseString valueOps data = .ok p₂.parseEnd := by
  obtain ⟨p₁, hreset, hfresh, hm⟩ := parseReset_fresh p false
  obtain ⟨p₂, hdata⟩ := hfresh.parseData_ok (hn.trans (by decide : 100 ≤ 125))
  refine ⟨p₁, p₂, hfresh, hm, hdata, ?_⟩
  show (p.parseReset valueOps false >>= _) = _
  rw [hreset]
  show (p₁.parseData valueOps data.bytes >>= _) = _
  rw [hdata]
  rfl

/-- **A value is returned** exactly for what the lexer takes for one document. -/
theorem parseString_isSome (p : Parser) {data : CString} (hn : nesting data.bytes ≤ 100) :
    ∃ ret p', p.parseString valueOps data = .ok (ret, p') ∧ (ret.isSome ↔ ReadAsDocument data.bytes) := by
  obtain ⟨p₁, p₂, hfresh, hm, hdata, hrun⟩ := parseString_eq p hn
  refine ⟨p₂.parseEnd.1, p₂.parseEnd.2, hrun, ?_⟩
  rw [parseEnd_isSome]
  exact ⟨fun ⟨he, hout⟩ => hfresh.readAsDocument hm hdata data.nul_free he hout,
    hfresh.queued hdata data.nul_free⟩

/-- **The value of a document is returned**, if the lexer takes its lexemes. -/
theorem parseString_value (p : Parser) {data : CString} {v : Value} (hn : nesting data.bytes ≤ 100)
    (htext : data.bytes = textOf l) (hscan : ∀ x ∈ l, x.Scanned) (hv : Derives .jsonDocument (terminals l) (.value v)) :
    ∃ p', p.parseString valueOps data = .ok (some v, p') := by
  obtain ⟨p₁, p₂, hfresh, -, hdata, hrun⟩ := parseString_eq p hn
  have hbytes : data.bytes = textOf l ++ [] := by rw [htext, List.append_nil]
  obtain ⟨he, hout⟩ := hfresh.queue_eq (hbytes ▸ hdata) (hbytes ▸ data.nul_free) hscan hv .nil
  have hend : p₂.parseEnd.1 = some v := by
    unfold parseEnd parseNext
    rw [he, hout]
  exact ⟨p₂.parseEnd.2, by rw [hrun, ← hend]⟩

/-! ## Documents and what is accepted -/

/-- A number of a document has no plus sign: the lexer takes it. -/
theorem scanned_of_loose (hl : ∀ x ∈ l, x.Loose) (hplus : ∀ w, .number w ∈ l → ch '+' ∉ w) : ∀ x ∈ l, x.Scanned := by
  intro x hx
  have hloose := hl x hx
  cases x with
  | number w => exact ⟨hloose.1, fun c hc => (hloose.2 c hc).resolve_right fun h => hplus w hx (h ▸ hc)⟩
  | _ => exact hloose

theorem no_plus_of_scanned (hl : ∀ x ∈ l, x.Scanned) : ∀ w, .number w ∈ l → ch '+' ∉ w := by
  intro w hw hplus
  have hin : inNumber (ch '+') = true := (hl _ hw).2 _ hplus
  exact absurd hin (by decide)

/-- The two agree on a text exactly if it is JSON that is read. -/
theorem readAsDocument_iff_isDocument (s : List UInt8) : (ReadAsDocument s ↔ IsDocument s) ↔ ReadsJson s := by
  constructor
  · rintro h l tail rfl hl hd htail
    constructor
    · intro hplus
      obtain ⟨l', heq, hwf, hd'⟩ := h.1 ⟨l, tail, rfl, scanned_of_loose hl hplus, hd, htail⟩
      obtain ⟨rfl, rfl⟩ := spelling_unique hl (fun x hx => (hwf x hx).loose) hd hd' htail heq.symm
      exact ⟨rfl, hwf⟩
    · rintro ⟨rfl, hwf⟩
      obtain ⟨l', tail', heq, hscan, hd', htail'⟩ := h.2 ⟨l, (List.append_nil _).symm, hwf, hd⟩
      rw [List.append_nil] at heq
      obtain ⟨rfl, -⟩ := spelling_unique (fun x hx => (hscan x hx).loose) hl hd' hd htail' heq.symm
      exact no_plus_of_scanned hscan
  · intro h
    constructor
    · rintro ⟨l, tail, rfl, hscan, hd, htail⟩
      obtain ⟨rfl, hwf⟩ := (h l tail rfl (fun x hx => (hscan x hx).loose) hd htail).1 (no_plus_of_scanned hscan)
      exact ⟨l, (List.append_nil _).symm, hwf, hd⟩
    · rintro ⟨l, rfl, hwf, hd⟩
      have hl : ∀ x ∈ l, x.Loose := fun x hx => (hwf x hx).loose
      have hplus := (h l [] (List.append_nil _).symm hl hd .nil).2 ⟨rfl, hwf⟩
      exact ⟨l, [], (List.append_nil _).symm, scanned_of_loose hl hplus, hd, .nil⟩

/-- **A value is returned exactly for a JSON document**, and nothing for another
text, exactly if the text is JSON where the lexer takes it for a document, and
its numbers have no plus sign. -/
theorem parseString_isDocument_iff (p : Parser) {data : CString} (hn : nesting data.bytes ≤ 100)
    (hnames : ∀ name, AskedName (tokensOf data.bytes) name → name.length < 2 ^ 30) :
    TreesHold (AskedName (tokensOf data.bytes)) ∧
    ((∃ ret p', p.parseString valueOps data = .ok (ret, p') ∧ (ret.isSome ↔ IsDocument data.bytes)) ↔
      ReadsJson data.bytes) := by
  refine ⟨treesHold_of_short hnames, ?_⟩
  obtain ⟨ret, p', hrun, hret⟩ := parseString_isSome p hn
  rw [← readAsDocument_iff_isDocument, ← hret]
  constructor
  · rintro ⟨ret', p'', hrun', hiff⟩
    obtain ⟨rfl, -⟩ := Prod.mk.inj (Except.ok.inj (hrun.symm.trans hrun'))
    exact hiff
  · exact fun h => ⟨ret, p', hrun, h⟩

/-- The lexemes of `[]`. -/
def brackets : List Lexeme := [.easy (ch '['), .easy (ch ']')]

theorem oneDocument_brackets : OneDocument brackets := ⟨.array [], .rule2 (.rule15 .rule16)⟩

/-- The lexemes of `{"a":[]}`. -/
def arrayInObject : List Lexeme :=
  [.easy (ch '\x7b'), .string (chars "a"), .easy (ch ':'), .easy (ch '['), .easy (ch ']'), .easy (ch '\x7d')]

theorem oneDocument_arrayInObject : OneDocument arrayInObject := by
  have hvalue : Derives .value [.beginArray, .endArray] (.value (.array [])) := .rule4 (.rule15 .rule16)
  have helem := @Derives.rule11 _ [.endObject] _ _ _ (@Derives.rule14 _ (chars "a") _ hvalue) .rule13
  exact ⟨_, .rule1 (.rule8 (.rule10 helem) (objectOf_spec [(chars "a", .array [])]))⟩

/-- The text `{"a":[]}` is read as JSON. -/
theorem parseString_isDocument_iff_member : nesting (cString (chars "\x7b\"a\":[]\x7d")).bytes ≤ 100 ∧
    ReadsJson (cString (chars "\x7b\"a\":[]\x7d")).bytes := by
  have hn : nesting (cString (chars "\x7b\"a\":[]\x7d")).bytes ≤ 100 := by decide
  have hnames : ∀ name, AskedName (tokensOf (cString (chars "\x7b\"a\":[]\x7d")).bytes) name → name.length < 2 ^ 30 := by
    rintro name (hname | ⟨-, hname⟩)
    · obtain rfl := List.mem_singleton.1 hname
      decide
    · obtain rfl := List.mem_singleton.1 hname
      decide
  refine ⟨hn, (parseString_isDocument_iff (staticParser ()) hn hnames).2.1 ⟨_, _, rfl, iff_of_true rfl ?_⟩⟩
  refine ⟨arrayInObject, by decide, ?_, oneDocument_arrayInObject⟩
  simp only [arrayInObject, List.forall_mem_cons]
  exact ⟨rfl, .char (by decide) (by decide) (by decide) .nil, rfl, rfl, rfl, rfl, nofun⟩

/-- **An unfinished token is overlooked, and a plus sign is not read**: for
`[]1`, which is no document, a value is returned, and for `[1e+5]`, which is
one, there is none. -/
theorem unfinished_is_overlooked : (∃ v p', (staticParser () : Parser).parseString valueOps (cString (chars "[]1")) =
      .ok (some v, p')) ∧ ¬ IsDocument (cString (chars "[]1")).bytes ∧
    (∃ p', (staticParser () : Parser).parseString valueOps (cString (chars "[1e+5]")) = .ok (none, p')) ∧
      IsDocument (cString (chars "[1e+5]")).bytes := by
  refine ⟨⟨_, _, rfl⟩, ?_, ⟨_, rfl⟩, ?_⟩
  · rintro ⟨l, heq, hwf, hd⟩
    have hloose : ∀ x ∈ brackets, x.Loose := by
      simp only [brackets, List.forall_mem_cons]
      exact ⟨rfl, rfl, nofun⟩
    have hunf : Unfinished (chars "1") := .number ⟨by decide, forall_mem_bytes (by decide)⟩
    obtain ⟨-, hnil⟩ := spelling_unique (r := chars "1") hloose (fun x hx => (hwf x hx).loose) oneDocument_brackets hd hunf
      (by rw [heq]; decide)
    cases hnil
  · have hdigits : IsDigits (chars "1") ∧ IsDigits (chars "5") :=
      ⟨⟨by decide, forall_mem_bytes (by decide)⟩, ⟨by decide, forall_mem_bytes (by decide)⟩⟩
    have hnumber : JsonNumber (chars "1e+5") :=
      @JsonNumber.intro [] (chars "1") [] (chars "e+5") (by decide) (Or.inr ⟨hdigits.1, by decide⟩) (Or.inl rfl)
        (Or.inr ⟨ch 'e', chars "+", chars "5", by decide, by decide, by decide, hdigits.2⟩)
    refine ⟨[.easy (ch '['), .number (chars "1e+5"), .easy (ch ']')], by decide, ?_, .array [.float (chars "1e+5")], ?_⟩
    · simp only [List.forall_mem_cons]
      exact ⟨rfl, hnumber, rfl, nofun⟩
    · exact .rule2 (.rule15 (.rule17 (@Derives.rule18 [.float (chars "1e+5")] [.endArray] _ _ (.rule6 rfl rfl) .rule20)))

end Parse

end Json

end Mowgli
