import Mowgli.Ext.Json.Nesting
/-!
# The static parser

What was parsed before leaves the buffer larger and a count of digits
behind, and nothing else survives `mowgli_json_parse_reset`. Neither of the
two makes a difference: the buffer is only as large as it needs to be, and
the digits are counted from zero.
-/

namespace Mowgli

namespace Json

namespace Parse

section

variable {H V : Type} {ops : JsonOps H V} {p q : Parse H V} {tok : Token V} {c : UInt8}

/-! ## Parsers that do the same -/

/-- Two parsers with another buffer and another count of digits left over. -/
inductive Same : Parse H V → Parse H V → Prop
  | intro (p : Parse H V) {buf : MowgliString} {lexU : ℕ} : buf.bytes = p.buf.bytes → 0 ∉ p.buf.bytes →
      (p.lex = .stringEscU → lexU = p.lexU) → Same p { p with buf := buf, lexU := lexU }

/-- The same failure, or parsers that do the same. -/
inductive SameResult : Except Fault (Parse H V) → Except Fault (Parse H V) → Prop
  | error (f : Fault) : SameResult (.error f) (.error f)
  | ok {p q : Parse H V} : Same p q → SameResult (.ok p) (.ok q)

theorem Same.error (h : Same p q) : q.error = p.error := by
  cases h
  rfl

theorem Same.lex (h : Same p q) : q.lex = p.lex := by
  cases h
  rfl

theorem SameResult.bind {x y : Except Fault (Parse H V)} {f g : Parse H V → Except Fault (Parse H V)}
    (h : SameResult x y) (hfg : ∀ p q, Same p q → SameResult (f p) (g q)) : SameResult (x >>= f) (y >>= g) := by
  cases h with
  | error e => exact .error e
  | ok hs => exact hfg _ _ hs

/-! ## Tokens -/

theorem llPush_lexer (parse : Parse H V) (sym : Sym) (buf : MowgliString) (lexU : ℕ) :
    ({ parse with buf := buf, lexU := lexU } : Parse H V).llPush sym =
      (parse.llPush sym).map fun p => { p with buf := buf, lexU := lexU } := by
  unfold llPush
  by_cases hl : parse.stack.length < LL_STACK_SIZE
  · rw [if_pos hl, if_pos hl]
    rfl
  · rw [if_neg hl, if_neg hl]
    rfl

theorem pushAll_lexer (parse : Parse H V) (syms : List Sym) (buf : MowgliString) (lexU : ℕ) :
    ({ parse with buf := buf, lexU := lexU } : Parse H V).pushAll syms =
      (parse.pushAll syms).map fun p => { p with buf := buf, lexU := lexU } := by
  induction syms with
  | nil => rfl
  | cons sym syms ih =>
    rw [pushAll, pushAll, ih]
    cases parse.pushAll syms with
    | error f => rfl
    | ok p => exact llPush_lexer p sym buf lexU

theorem llCycle_lexer (parse : Parse H V) (buf : MowgliString) (lexU : ℕ) :
    ({ parse with buf := buf, lexU := lexU } : Parse H V).llCycle =
      parse.llCycle.map fun p => { p with buf := buf, lexU := lexU } := by
  obtain ⟨heap, out, error, multidoc, build, stack, buf', lex, lexU', log⟩ := parse
  cases multidoc with
  | false => cases build <;> rfl
  | true =>
    cases build with
    | nil => exact llPush_lexer ⟨heap, out, error, true, [], stack, buf', lex, lexU', log⟩ .jsonDocument buf lexU
    | cons v build =>
      exact llPush_lexer ⟨heap, out ++ [v], error, true, build, stack, buf', lex, lexU', log ++ [.document v]⟩
        .jsonDocument buf lexU

theorem llLoop_lexer (n : ℕ) (parse : Parse H V) (buf : MowgliString) (lexU : ℕ) :
    llLoop ops n { parse with buf := buf, lexU := lexU } tok =
      (llLoop ops n parse tok).map fun p => { p with buf := buf, lexU := lexU } := by
  induction n generalizing parse with
  | zero => rfl
  | succ n ih =>
    obtain ⟨heap, out, error, multidoc, build, stack, buf', lex, lexU', log⟩ := parse
    rw [llLoop, llLoop]
    cases stack with
    | nil => rfl
    | cons top stack =>
      simp only
      by_cases htop : top = tok.sym
      · rw [if_pos htop, if_pos htop]
        by_cases hnil : stack = []
        · rw [if_pos hnil, if_pos hnil]
          exact llCycle_lexer ⟨heap, out, error, multidoc, build, stack, buf', lex, lexU', log⟩ buf lexU
        · rw [if_neg hnil, if_neg hnil]
          rfl
      rw [if_neg htop, if_neg htop]
      by_cases ht : llTable top tok.sym = 0
      · rw [if_pos ht, if_pos ht]
        rfl
      rw [if_neg ht, if_neg ht]
      cases llAction ops (llTable top tok.sym) heap build tok with
      | error f => rfl
      | ok hb =>
        have hpush := pushAll_lexer ⟨hb.1, out, error, multidoc, hb.2, stack, buf', lex, lexU', log⟩
          (llRules (llTable top tok.sym)) buf lexU
        simp only [bind, Except.bind]
        rw [hpush]
        cases (⟨hb.1, out, error, multidoc, hb.2, stack, buf', lex, lexU', log⟩ : Parse H V).pushAll
            (llRules (llTable top tok.sym)) with
        | error f => rfl
        | ok p => exact ih p

theorem llParse_lexer (parse : Parse H V) (buf : MowgliString) (lexU : ℕ) :
    ({ parse with buf := buf, lexU := lexU } : Parse H V).llParse ops tok =
      (parse.llParse ops tok).map fun p => { p with buf := buf, lexU := lexU } := by
  unfold llParse
  rw [llLoop_lexer 5 { parse with log := parse.log ++ [.token tok] } buf lexU]
  cases llLoop ops 5 { parse with log := parse.log ++ [.token tok] } tok with
  | error f => rfl
  | ok p =>
    show llTokenFree ops _ tok = (llTokenFree ops p tok).map _
    unfold llTokenFree
    cases tok.val with
    | none => rfl
    | some v =>
      simp only
      cases ops.decref p.heap v <;> rfl

/-- The lexer is as it was, after a token. -/
theorem llParse_keeps {parse parse' : Parse H V} (h : parse.llParse ops tok = .ok parse') :
    parse'.buf = parse.buf ∧ parse'.lex = parse.lex := by
  obtain ⟨hb, parse₁, heap, -, hparsed, rfl⟩ := llParse_parsed h
  cases hparsed <;> exact ⟨rfl, rfl⟩

theorem Same.llParse (h : Same p q) (hl : p.lex = .limbo) : SameResult (p.llParse ops tok) (q.llParse ops tok) := by
  cases h with
  | @intro buf lexU hbytes h0 hd =>
    rw [llParse_lexer p buf lexU]
    cases hrun : p.llParse ops tok with
    | error f => exact .error f
    | ok p' =>
      obtain ⟨hbuf, hlex⟩ := llParse_keeps hrun
      refine .ok (.intro p' ?_ ?_ fun hu => ?_)
      · rw [hbuf]
        exact hbytes
      · rw [hbuf]
        exact h0
      · cases (hlex.trans hl).symm.trans hu

/-! ## Characters -/

theorem appendChar_same {s s' : MowgliString} (h : s'.bytes = s.bytes) (h0 : 0 ∉ s.bytes) (hc : c ≠ 0) :
    (s'.appendChar c).bytes = (s.appendChar c).bytes ∧ 0 ∉ (s.appendChar c).bytes := by
  rw [MowgliString.appendChar_bytes (h ▸ h0), MowgliString.appendChar_bytes h0, h]
  refine ⟨rfl, fun hmem => ?_⟩
  rcases List.mem_append.1 hmem with hmem | hmem
  · exact h0 hmem
  · exact hc (List.mem_singleton.1 hmem).symm

theorem Same.lexNext (h : Same p q) (hc : c ≠ 0) : Same (p.lexNext c) (q.lexNext c) := by
  cases h with
  | @intro buf lexU hb hfree hd =>
    obtain ⟨hbytes, h0⟩ := appendChar_same hb hfree hc
    obtain ⟨heap, out, error, multidoc, build, stack, buf', lex, lexU', log⟩ := p
    unfold Parse.lexNext
    simp only [lexAppend]
    cases lex with
    | limbo =>
      simp only
      split_ifs
      · exact .intro _ hbytes h0 fun hu => by cases hu
      · exact .intro _ hbytes h0 fun hu => by cases hu
      · exact .intro _ hb hfree fun hu => by cases hu
      · exact .intro _ hb hfree hd
    | string =>
      simp only
      split_ifs
      · exact .intro _ hbytes h0 fun hu => by cases hu
      · exact .intro _ hbytes h0 fun hu => by cases hu
    | stringEsc =>
      simp only
      split_ifs
      · exact .intro _ hbytes h0 fun _ => rfl
      · exact .intro _ hbytes h0 fun hu => by cases hu
    | stringEscU =>
      obtain rfl : lexU = lexU' := hd rfl
      simp only
      split_ifs
      · exact .intro _ hbytes h0 fun hu => by cases hu
      · exact .intro _ hbytes h0 fun _ => rfl
    | number => exact .intro _ hbytes h0 fun hu => by cases hu
    | identifier => exact .intro _ hbytes h0 fun hu => by cases hu

theorem Same.lexTokenize (h : Same p q) : SameResult (p.lexTokenize ops) (q.lexTokenize ops) := by
  cases h with
  | @intro buf lexU hb hfree hd =>
    have htok : ({ p with buf := buf, lexU := lexU } : Parse H V).lexToken ops = p.lexToken ops := by
      have hstr : buf.str = p.buf.str := by
        rw [MowgliString.str, hb]
        rfl
      unfold lexToken
      simp only [hb, hstr]
    unfold Parse.lexTokenize
    rw [htok]
    cases p.lexToken ops with
    | error f => exact .error f
    | ok th =>
      have hsame : Same ({ p with heap := th.2, buf := p.buf.reset, lex := .limbo } : Parse H V)
          { p with heap := th.2, buf := buf.reset, lex := .limbo, lexU := lexU } :=
        .intro _ rfl List.not_mem_nil fun hu => by cases hu
      exact hsame.llParse rfl

theorem Same.sendChar_limbo (h : Same p q) (hl : p.lex = .limbo) (hc : c ≠ 0) :
    SameResult (sendChar ops 2 p c) (sendChar ops 2 q c) := by
  have hl' : q.lex = .limbo := h.lex.trans hl
  rcases sendChar_of_limbo ops c 0 hl with ⟨sym, he, hp⟩ | ⟨he, hs, hp⟩ | ⟨he, hs, hp⟩ <;>
    rcases sendChar_of_limbo ops c 0 hl' with ⟨sym', he', hq⟩ | ⟨he', hs', hq⟩ | ⟨he', hs', hq⟩
  · rw [hp, hq]
    obtain rfl := Option.some.inj (he.symm.trans he')
    exact h.llParse hl
  · cases he.symm.trans he'
  · cases he.symm.trans he'
  · cases he'.symm.trans he
  · rw [hp, hq]
    exact .ok (h.lexNext hc)
  · cases hs.symm.trans hs'
  · cases he'.symm.trans he
  · cases hs'.symm.trans hs
  · rw [hp, hq]
    cases h with
    | intro hb hfree hd => exact .ok (.intro _ hb hfree hd)

/-- **A character** does the same. -/
theorem Same.parseChar (h : Same p q) (hc : c ≠ 0) : SameResult (p.parseChar ops c) (q.parseChar ops c) := by
  have hlex := h.lex
  have hagain : SameResult (p.lexTokenize ops >>= fun p => sendChar ops 2 p c)
      (q.lexTokenize ops >>= fun q => sendChar ops 2 q c) := by
    have htok := @Same.lexTokenize _ _ ops _ _ h
    generalize q.lexTokenize ops = y at htok ⊢
    cases hp : p.lexTokenize ops with
    | error f =>
      rw [hp] at htok
      cases htok
      exact .error f
    | ok p' =>
      rw [hp] at htok
      cases htok with
      | ok hs =>
        obtain ⟨th, -, hll⟩ := lexTokenize_ok hp
        exact hs.sendChar_limbo (llParse_keeps hll).2 hc
  have hlexed : ∀ lex : Lex, SameResult
      (if lex = .string ∧ c = ch '"' then p.lexTokenize ops
        else if goesOn lex c then .ok (p.lexNext c)
        else p.lexTokenize ops >>= fun parse => sendChar ops 2 parse c)
      (if lex = .string ∧ c = ch '"' then q.lexTokenize ops
        else if goesOn lex c then .ok (q.lexNext c)
        else q.lexTokenize ops >>= fun parse => sendChar ops 2 parse c) := by
    intro lex
    split_ifs
    · exact h.lexTokenize
    · exact .ok (h.lexNext hc)
    · exact hagain
  rw [parseChar_eq, parseChar_eq, hlex]
  cases hl : p.lex with
  | limbo =>
    cases easySym c with
    | some sym => exact h.llParse hl
    | none =>
      simp only
      split_ifs
      · cases h with
        | intro hb hfree hd => exact .ok (.intro _ hb hfree hd)
      · exact .ok (h.lexNext hc)
  | _ => exact hlexed _

/-- **A text without NULs** does the same. -/
theorem Same.parseData {data : List UInt8} (h : Same p q) (h0 : 0 ∉ data) :
    SameResult (p.parseData ops data) (q.parseData ops data) := by
  induction data generalizing p q with
  | nil => exact .ok h
  | cons c data ih =>
    rw [List.mem_cons, not_or] at h0
    rw [Parse.parseData, Parse.parseData, h.error]
    cases p.error with
    | some e => exact .ok h
    | none => exact (h.parseChar (Ne.symm h0.1)).bind fun p' q' hs => ih hs h0.2

end

/-! ## Calls -/

variable {p q : Parser}

theorem decrefAll_tree (l : List Value) : decrefAll valueOps () l = .ok () := by
  induction l with
  | nil => rfl
  | cons v l ih => exact ih

/-- A parser that was reset is fresh, whatever it was before. -/
theorem parseReset_fresh (p : Parser) (multidoc : Bool) :
    ∃ p', p.parseReset valueOps multidoc = .ok p' ∧ p'.Fresh ∧ p'.multidoc = multidoc := by
  have hout : decrefAll valueOps p.heap p.out = .ok () := decrefAll_tree _
  have hbuild : decrefAll valueOps () p.build = .ok () := decrefAll_tree _
  unfold parseReset
  simp only [hout, hbuild, bind, Except.bind]
  exact ⟨_, rfl, ⟨rfl, rfl, rfl, rfl, rfl, rfl, rfl⟩, rfl⟩

/-- Two fresh parsers do the same. -/
theorem Fresh.same (hp : p.Fresh) (hq : q.Fresh) (hm : p.multidoc = q.multidoc) : Same p q := by
  have heq : q = { p with buf := q.buf, lexU := q.lexU } := by
    obtain ⟨heap, out, error, multidoc, build, stack, buf, lex, lexU, log⟩ := p
    obtain ⟨heap', out', error', multidoc', build', stack', buf', lex', lexU', log'⟩ := q
    obtain ⟨rfl, rfl, rfl, rfl, hb, rfl, rfl⟩ := hp
    obtain ⟨rfl, rfl, rfl, rfl, hb', rfl, rfl⟩ := hq
    obtain rfl := hm
    rfl
  rw [heq]
  refine .intro p (by rw [hq.buf, hp.buf]) (by rw [hp.buf]; exact List.not_mem_nil) fun hu => ?_
  cases hp.lex.symm.trans hu

theorem parseData_append (data data' : List UInt8) : p.parseData valueOps (data ++ data') =
    p.parseData valueOps data >>= fun p => p.parseData valueOps data' := by
  induction data generalizing p with
  | nil => rfl
  | cons c data ih =>
    rw [List.cons_append, Parse.parseData, Parse.parseData]
    cases he : p.error with
    | some e => exact (parseData_error he).symm
    | none =>
      simp only
      cases p.parseChar valueOps c with
      | error f => rfl
      | ok p' => exact ih

/-- A file is read as a whole. -/
theorem fileLoop_eq (p : Parser) (data : List UInt8) : p.fileLoop valueOps data = p.parseData valueOps data := by
  induction hn : data.length using Nat.strong_induction_on generalizing p data with
  | _ n ih =>
    rw [fileLoop]
    conv_rhs => rw [← List.take_append_drop 512 data, parseData_append]
    cases p.parseData valueOps (data.take 512) with
    | error f => rfl
    | ok p' =>
      show (if 512 ≤ data.length ∧ p'.error = none then _ else _) = p'.parseData valueOps (data.drop 512)
      split_ifs with h
      · exact ih _ (by rw [List.length_drop]; omega) p' _ rfl
      · rw [not_and_or] at h
        rcases h with h | h
        · rw [List.drop_eq_nil_of_le (by omega)]
          rfl
        · obtain ⟨e, he⟩ := Option.ne_none_iff_exists'.1 h
          exact (parseData_error he).symm

/-- A call that uses the static parser. -/
inductive Call
  | string (data : CString)
  | file (contents : Option (List UInt8))

/-- What is read in a call. -/
def Call.text : Call → List UInt8
  | .string data => data.bytes
  | .file contents => contents.getD []

def Call.run (p : Parser) : Call → Except Fault (Option Value × Parser)
  | .string data => p.parseString valueOps data
  | .file contents => p.parseFile valueOps contents

/-- One call after the other. -/
def runCalls (p : Parser) : List Call → Except Fault Parser
  | [] => .ok p
  | call :: calls => do
    let (_, p) ← call.run p
    runCalls p calls

/-- A call comes to an end, from whatever state. -/
theorem Call.run_ok (p : Parser) {call : Call} (h : nesting call.text ≤ 125) : ∃ r, call.run p = .ok r := by
  obtain ⟨p', hreset, hfresh, -⟩ := parseReset_fresh p false
  obtain ⟨p'', hdata⟩ := hfresh.parseData_ok h
  cases call with
  | string data =>
    refine ⟨p''.parseEnd, ?_⟩
    show (p.parseReset valueOps false >>= _) = _
    rw [hreset]
    show (p'.parseData valueOps data.bytes >>= _) = _
    rw [show p'.parseData valueOps data.bytes = .ok p'' from hdata]
    rfl
  | file contents =>
    cases contents with
    | none =>
      refine ⟨(none, p'), ?_⟩
      show (p.parseReset valueOps false >>= _) = _
      rw [hreset]
      rfl
    | some data =>
      refine ⟨p''.parseEnd, ?_⟩
      show (p.parseReset valueOps false >>= _) = _
      rw [hreset]
      show (p'.fileLoop valueOps data >>= _) = _
      rw [fileLoop_eq, show p'.parseData valueOps data = .ok p'' from hdata]
      rfl

theorem runCalls_ok (p : Parser) {calls : List Call} (h : ∀ call ∈ calls, nesting call.text ≤ 125) :
    ∃ p', runCalls p calls = .ok p' := by
  induction calls generalizing p with
  | nil => exact ⟨p, rfl⟩
  | cons call calls ih =>
    obtain ⟨⟨ret, p'⟩, hrun⟩ := Call.run_ok p (h call List.mem_cons_self)
    obtain ⟨p'', hruns⟩ := ih p' fun call hc => h call (List.mem_cons_of_mem _ hc)
    refine ⟨p'', ?_⟩
    rw [runCalls, hrun]
    exact hruns

/-- What a text is parsed to does not depend on the parser it is parsed
with. -/
theorem parseString_same (p q : Parser) {data : CString} (hn : nesting data.bytes ≤ 125) : ∃ ret p' q',
    p.parseString valueOps data = .ok (ret, p') ∧ q.parseString valueOps data = .ok (ret, q') := by
  obtain ⟨p₁, hp, hfp, hmp⟩ := parseReset_fresh p false
  obtain ⟨q₁, hq, hfq, hmq⟩ := parseReset_fresh q false
  have hsame := @Same.parseData _ _ valueOps _ _ _ (hfp.same hfq (hmp.trans hmq.symm)) data.nul_free
  obtain ⟨p₂, hdata⟩ := hfp.parseData_ok hn
  obtain ⟨q₂, hdata'⟩ := hfq.parseData_ok hn
  rw [hdata, hdata'] at hsame
  cases hsame with
  | ok hs =>
    refine ⟨p₂.parseEnd.1, p₂.parseEnd.2, q₂.parseEnd.2, ?_, ?_⟩
    · show (p.parseReset valueOps false >>= _) = _
      rw [hp]
      show (p₁.parseData valueOps data.bytes >>= _) = _
      rw [hdata]
      rfl
    · show (q.parseReset valueOps false >>= _) = _
      rw [hq]
      show (q₁.parseData valueOps data.bytes >>= _) = _
      rw [hdata']
      have hend : q₂.parseEnd.1 = p₂.parseEnd.1 := by
        cases hs with
        | intro =>
          unfold parseEnd parseNext
          cases p₂.error <;> cases p₂.out <;> rfl
      rw [← hend]
      rfl

/-- **Nothing is left of the calls before**: what `mowgli_json_parse_string`
returns is what it returns when it is called first. -/
theorem parseString_history (calls : List Call) (data : CString) (hcalls : ∀ call ∈ calls, nesting call.text ≤ 100)
    (hdata : nesting data.bytes ≤ 100) : ∃ p ret p' p'', runCalls (staticParser ()) calls = .ok p ∧
      p.parseString valueOps data = .ok (ret, p') ∧
      (staticParser () : Parser).parseString valueOps data = .ok (ret, p'') := by
  obtain ⟨p, hrun⟩ := runCalls_ok (staticParser ()) fun call hc => (hcalls call hc).trans (by omega)
  obtain ⟨ret, p', p'', hp, hq⟩ := parseString_same p (staticParser ()) (hdata.trans (by omega : 100 ≤ 125))
  exact ⟨p, ret, p', p'', hrun, hp, hq⟩

/-- A string that was not closed does not get into the next text. -/
theorem parseString_history_one : ∃ p ret p' p'',
    runCalls (staticParser ()) [.string (cString (chars "[\"a")), .file none] = .ok p ∧
      p.parseString valueOps (cString (chars "[]")) = .ok (ret, p') ∧
      (staticParser () : Parser).parseString valueOps (cString (chars "[]")) = .ok (ret, p'') :=
  parseString_history _ _ (by decide) (by decide)

end Parse

end Json

end Mowgli
