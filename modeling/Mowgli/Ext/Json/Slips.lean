import Mowgli.Ext.Json.Nesting
/-!
# Characters that slip

The error is looked at before each character, but not where a character is sent
a second time because it ended a number or an identifier. Such a character may
slip: a document is then read in full after the error. This is all that a chunk
has to keep from, besides going too deep for the stack.
-/

namespace Mowgli

namespace Json

/-- A run in which no character is too deep and none slips, and the documents
that were returned since the parser was made or reset. -/
inductive Run : Parser → List Value → Prop
  | create (multidoc : Bool) : Run (Parse.create () multidoc) []
  | data {parse parse' : Parser} {vals : List Value} {data : List UInt8} : Run parse vals → parse.NeverDeep data →
      parse.NeverSlips valueOps data → parse.parseData valueOps data = .ok parse' → Run parse' vals
  | next {parse parse' : Parser} {vals : List Value} {v : Value} : Run parse vals →
      parse.parseNext = (some v, parse') → Run parse' (vals ++ [v])
  | reset {parse parse' : Parser} {vals : List Value} {multidoc : Bool} : Run parse vals →
      parse.parseReset valueOps multidoc = .ok parse' → Run parse' []

/-- What holds after every step of a run. -/
structure Run.Good (parse : Parser) (vals : List Value) : Prop where
  reading : Reading parse
  held : Held vals parse
  quiet : Quiet parse.log

theorem Run.good {parse : Parser} {vals : List Value} (h : Run parse vals) : Run.Good parse vals := by
  induction h with
  | create multidoc =>
    exact ⟨reading_create multidoc, rfl, Faultless.quiet fun _ => List.not_mem_nil⟩
  | @data parse parse' vals data _ _ hslip hrun ih =>
    refine ⟨reading_kept.parseData ih.reading hrun, (held_kept vals).parseData ih.held hrun, ?_⟩
    cases he : parse.error with
    | some e =>
      rw [Parse.parseData_error he] at hrun
      cases hrun
      exact ih.quiet
    | none =>
      obtain ⟨es, hlog, -, hquiet⟩ := Parse.parseData_quiet_iff he hrun
      rw [hlog, (ih.reading.live he).1.quiet_append]
      exact hquiet.2 hslip
  | @next parse parse' vals v _ hnext ih =>
    obtain ⟨out, hout, rfl⟩ := Parse.parseNext_some hnext
    refine ⟨ih.reading.congr rfl rfl rfl rfl rfl, ?_, ih.quiet⟩
    have hheld := ih.held
    unfold Held at hheld ⊢
    rw [hheld, hout, List.append_assoc]
    rfl
  | @reset parse parse' vals multidoc _ hrun ih =>
    obtain ⟨heap, rfl⟩ := Parse.parseReset_ok hrun
    exact ⟨(reading_create multidoc).congr rfl rfl rfl rfl rfl, rfl, Faultless.quiet fun _ => List.not_mem_nil⟩

/-- A chunk is taken, with no document behind an error. -/
def TakenQuietly (parse : Parser) (data : List UInt8) : Prop :=
  ∃ parse' es, parse.parseData valueOps data = .ok parse' ∧ parse'.log = parse.log ++ es ∧ Quiet es

theorem takenQuietly_iff {parse : Parser} (hfed : Parse.Fed parse) (herr : parse.error = none) (data : List UInt8) :
    TakenQuietly parse data ↔ parse.NeverDeep data ∧ parse.NeverSlips valueOps data := by
  rcases @Parse.parseData_cases parse data hfed.between with ⟨⟨parse', hrun⟩, hdeep⟩ | ⟨hover, hdeep⟩
  · obtain ⟨es, hlog, -, hquiet⟩ := Parse.parseData_quiet_iff herr hrun
    rw [and_iff_right hdeep, ← hquiet]
    constructor
    · rintro ⟨parse'', es', hrun', hlog', hes'⟩
      obtain rfl := Except.ok.inj (hrun.symm.trans hrun')
      rwa [List.append_cancel_left (hlog.symm.trans hlog')]
    · exact fun hes => ⟨parse', es, hrun, hlog, hes⟩
  · refine iff_of_false ?_ fun h => hdeep h.1
    rintro ⟨parse', es, hrun, -⟩
    cases hover.symm.trans hrun

/-- **Nothing comes after an error**, in any chunk that is taken, just when no character
slips, whatever the parser is and what it makes of its values. A parser that was made or
reset takes a chunk so just when no character of it is too deep and none slips; and in a
run in which that is so every document that is returned was read in full before the first
error. -/
theorem documents_before_errors {H V : Type} (ops : JsonOps H V) (parse parse' : Parse H V) (data : List UInt8)
    (herr : parse.error = none) (hdata : parse.parseData ops data = .ok parse') :
    (∃ es, parse'.log = parse.log ++ es ∧ (Quiet es ↔ parse.NeverSlips ops data)) ∧
    (∀ parse : Parser, Parse.Fed parse → parse.error = none → ∀ data,
      TakenQuietly parse data ↔ parse.NeverDeep data ∧ parse.NeverSlips valueOps data) ∧
    ∀ parse vals, Run parse vals → ∀ v ∈ vals ++ parse.out, ∃ l₁ l₂ ts, parse.log = l₁ ++ .document v :: l₂ ∧
      (∀ e, ParseEvent.error e ∉ l₁) ∧ tokens l₁ = ts.map Terminal.token ∧ Documents ts (documents l₁ ++ [v]) := by
  refine ⟨?_, fun parse hfed herr data => takenQuietly_iff hfed herr data, ?_⟩
  · obtain ⟨es, hlog, -, hquiet⟩ := Parse.parseData_quiet_iff herr hdata
    exact ⟨es, hlog, hquiet⟩
  · intro parse vals hrun v hv
    have hgood := hrun.good
    rw [← hgood.held] at hv
    obtain ⟨e, he, hev⟩ := List.mem_filterMap.1 hv
    obtain ⟨l₁, l₂, hlog⟩ := List.append_of_mem he
    have hdoc : e = .document v := by
      cases e <;> simp at hev
      rw [hev]
    subst hdoc
    have hfree : Faultless l₁ := by
      intro err herr
      obtain ⟨l₃, l₄, rfl⟩ := List.append_of_mem herr
      rw [List.append_assoc] at hlog
      exact hgood.quiet l₃ err _ hlog v (List.mem_append_right _ List.mem_cons_self)
    obtain ⟨ts, htoks, hdocs⟩ := hgood.reading.docs l₁ v l₂ hlog hfree
    exact ⟨l₁, l₂, ts, hlog, hfree, htoks, hdocs⟩

/-- An array is fed, and then one that is not closed: the first is read in full before the error. -/
theorem documents_before_errors_one : ∃ parse l₁ l₂ ts,
    (Parse.create () true).parseData valueOps (Parse.chars "[][1\x7d") = .ok parse ∧ parse.error ≠ none ∧
      parse.log = l₁ ++ .document (.array []) :: l₂ ∧ (∀ e, ParseEvent.error e ∉ l₁) ∧
      tokens l₁ = ts.map Terminal.token ∧ Documents ts (documents l₁ ++ [.array []]) := by
  have hfed : Parse.Fed (Parse.create () true) := .create true
  obtain ⟨parse, hrun, herr, hout, hquiet⟩ : ∃ parse, (Parse.create () true).parseData valueOps
      (Parse.chars "[][1\x7d") = .ok parse ∧ parse.error ≠ none ∧ parse.out = [.array []] ∧ Quiet parse.log := by
    refine ⟨_, rfl, Option.some_ne_none _, rfl, ?_⟩
    change Quiet ([.token ⟨.beginArray, none⟩, .token ⟨.endArray, none⟩, .document (Value.array []),
      .token ⟨.beginArray, none⟩, .token ⟨.number, some (.int 1)⟩] ++ [.token ⟨.endObject, none⟩, .error (.expected .arrTail .endObject)])
    rw [Faultless.quiet_append (fun e he => by simp at he)]
    exact quiet_error.2 fun _ => List.not_mem_nil
  obtain ⟨⟨es, hlog, hiff⟩, hfits, hall⟩ := documents_before_errors valueOps _ _ _ rfl hrun
  have hnever := (hfits _ hfed rfl (Parse.chars "[][1\x7d")).1 ⟨parse, parse.log, hrun, rfl, hquiet⟩
  obtain ⟨l₁, l₂, ts, h⟩ := hall parse [] (.data (.create true) hnever.1 hnever.2 hrun) (.array [])
    (by rw [hout]; exact List.mem_cons_self)
  exact ⟨parse, l₁, l₂, ts, hrun, herr, h⟩

/-- A document after an error: the number is not expected, and the bracket
after it closes the array around. -/
theorem document_after_error : ∃ parse, (Parse.create () false).parseData valueOps (Parse.chars "[[1 2]") = .ok parse ∧
    parse.log = [.token ⟨.beginArray, none⟩, .token ⟨.beginArray, none⟩, .token ⟨.number, some (.int 1)⟩,
      .token ⟨.number, some (.int 2)⟩, .error (.expected .arrTail .number), .token ⟨.endArray, none⟩,
      .document (.array [.int 1])] ∧
    ¬ Quiet parse.log := by
  refine ⟨_, rfl, rfl, fun hquiet => ?_⟩
  exact hquiet [.token ⟨.beginArray, none⟩, .token ⟨.beginArray, none⟩, .token ⟨.number, some (.int 1)⟩,
    .token ⟨.number, some (.int 2)⟩] _ _ rfl (.array [.int 1]) (List.mem_cons_of_mem _ List.mem_cons_self)

end Json

end Mowgli
