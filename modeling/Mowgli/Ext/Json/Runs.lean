import Mowgli.Ext.Json.Documents
import Mowgli.Ext.Json.Lexer
/-!
# Runs of the parser

A parser is made, fed with chunks, asked for documents and reset. What is
read up to the first error are documents (`Reading`), and what was returned and
what is on the queue are the documents of the log (`Held`).
-/

namespace Mowgli

namespace Json

/-- A token of one character is a terminal. -/
theorem easySym_token {c : UInt8} {sym : Sym} (h : Parse.easySym c = some sym) :
    ∃ t : Terminal, t.token = ⟨sym, none⟩ := by
  have hmem := Parse.easySym_mem h
  simp only [Parse.easySyms, List.mem_cons, List.not_mem_nil, or_false] at hmem
  rcases hmem with rfl | rfl | rfl | rfl | rfl | rfl
  · exact ⟨.beginObject, rfl⟩
  · exact ⟨.endObject, rfl⟩
  · exact ⟨.beginArray, rfl⟩
  · exact ⟨.endArray, rfl⟩
  · exact ⟨.nameSep, rfl⟩
  · exact ⟨.valueSep, rfl⟩

/-- A token of the lexer is a terminal. -/
theorem lexToken_token {parse : Parser} {sym : Sym} {tok : Token Value} {u : Unit}
    (hs : Parse.lexSym parse.lex = some sym) (h : parse.lexToken valueOps = .ok (tok, u)) :
    ∃ t : Terminal, t.token = tok ∧ t.sym = sym := by
  unfold Parse.lexToken at h
  cases hl : parse.lex with
  | string =>
    rw [hl] at h hs
    cases h
    cases hs
    exact ⟨.string _, rfl, rfl⟩
  | number =>
    rw [hl] at h hs
    have htok : tok = ⟨.number, some (Parse.numberValue valueOps () parse.buf.str).1⟩ := by
      cases h
      rfl
    rw [htok]
    cases hs
    unfold Parse.numberValue
    split_ifs
    · exact ⟨.float _, rfl, rfl⟩
    · exact ⟨.int _, rfl, rfl⟩
  | identifier =>
    rw [hl] at h hs
    have htok : tok = ⟨.identifier, some (Parse.identifierValue valueOps parse.buf.str)⟩ := by
      cases h
      rfl
    rw [htok]
    cases hs
    unfold Parse.identifierValue
    split_ifs
    · exact ⟨.null, rfl, rfl⟩
    · exact ⟨.bool true, rfl, rfl⟩
    · exact ⟨.bool false, rfl, rfl⟩
    · exact ⟨.null, rfl, rfl⟩
  | _ =>
    rw [hl] at hs
    cases hs

/-- **Every token keeps what was read.** -/
theorem reading_kept : Parse.Kept valueOps Reading where
  lexed _ _ _ h := h.congr rfl rfl rfl rfl rfl
  easy h he hrun := by
    obtain ⟨t, ht⟩ := easySym_token he
    rw [← ht] at hrun
    exact h.llParse hrun
  token h hs htok hrun := by
    obtain ⟨t, ht, -⟩ := lexToken_token hs htok
    rw [← ht] at hrun
    refine Reading.llParse ?_ hrun
    exact h.congr rfl rfl rfl rfl rfl
  error c h := h.error [] (.character c) (Option.some_ne_none _) (by simp [Parse.parseError])

/-- What was returned and what is on the queue are the documents of the
log. -/
def Held (vals : List Value) (parse : Parser) : Prop := documents parse.log = vals ++ parse.out

theorem held_kept (vals : List Value) : Parse.Kept valueOps (Held vals) := by
  have htoken : ∀ {parse parse' : Parser} {tok : Token Value}, Held vals parse →
      parse.llParse valueOps tok = .ok parse' → Held vals parse' := by
    intro parse parse' tok h hrun
    obtain ⟨-, -, vals', hout, hdocs⟩ := Parse.llParse_logged hrun
    unfold Held at h ⊢
    rw [hdocs, hout, h, List.append_assoc]
  refine ⟨fun _ _ _ h => h, fun h _ hrun => htoken h hrun, fun h _ _ hrun => htoken ?_ hrun, fun c h => ?_⟩
  · exact h
  · unfold Held at h ⊢
    simpa [Parse.parseError] using h

end Json

end Mowgli
