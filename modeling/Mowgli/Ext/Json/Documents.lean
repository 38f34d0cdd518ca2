import Mowgli.Ext.Json.Accepts
import Mowgli.Ext.Json.Members
/-!
# Documents

Token by token, the parser on trees does what its stack and its build list
do as a predictive parser. So the tokens that it takes are documents, one
after the other, and what it puts on its queue are their values.
-/

namespace Mowgli

namespace Json

open Predictive

/-- The tokens of a log. -/
def tokens {V : Type} (log : List (ParseEvent V)) : List (Token V) :=
  log.filterMap fun e => match e with | .token tok => some tok | _ => none

/-- The documents of a log. -/
def documents {V : Type} (log : List (ParseEvent V)) : List V :=
  log.filterMap fun e => match e with | .document val => some val | _ => none

namespace Parse

variable {H V : Type} (ops : JsonOps H V)

/-- `ll_parse` on one token after the other. -/
def llFeed (parse : Parse H V) : List (Token V) → Except Fault (Parse H V)
  | [] => .ok parse
  | tok :: toks => do
    let parse ← parse.llParse ops tok
    parse.llFeed toks

end Parse

variable {σ rest : List Sym} {t : Terminal} {ts us : List Terminal} {b b₁ b' : List Value} {σ' : List Sym}

/-! ## A token -/

/-- What the loop of `ll_parse` does, the predictive parser does. -/
theorem course_feeds {n : ℕ} (hv : (course n σ t.sym).verdict = .accept rest)
    (hact : Parse.llActions valueOps (course n σ t.sym).rules () b t.token = .ok ((), b₁))
    (h : predictor.Feeds rest b₁ us σ' b') : predictor.Feeds σ b (t :: us) σ' b' := by
  induction n generalizing σ b with
  | zero => cases hv
  | succ n ih =>
    cases σ with
    | nil => cases hv
    | cons top σ =>
      rw [course] at hv hact
      split_ifs at hv hact with htop ht
      · cases hv
        cases hact
        exact .take htop h
      · simp only [Course.after, Parse.llActions] at hv hact
        cases hone : Parse.llAction valueOps (llTable top t.sym) () b t.token with
        | error f =>
          rw [hone] at hact
          cases hact
        | ok hb =>
          rw [hone] at hact
          exact feeds_rule _ hb.2 rfl ht hone (ih hv hact)

/-- What the predictive parser takes, the loop of `ll_parse` takes. -/
theorem feeds_course {n : ℕ} (hend : (course n σ t.sym).verdict ≠ .endless)
    (h : predictor.Feeds σ b (t :: us) [] b') : ∃ rest b₁, (course n σ t.sym).verdict = .accept rest ∧
      Parse.llActions valueOps (course n σ t.sym).rules () b t.token = .ok ((), b₁) ∧
      predictor.Feeds rest b₁ us [] b' := by
  induction n generalizing σ b with
  | zero => exact absurd rfl hend
  | succ n ih =>
    cases h with
    | @take top _ _ σ _ _ _ htop h =>
      rw [course, if_pos (show top = t.sym from htop)]
      exact ⟨σ, b, rfl, rfl, h⟩
    | @rule top _ r _ σ _ _ b₂ _ htop htable hact h =>
      change (if llTable top t.sym = 0 then none else some (llTable top t.sym)) = some r at htable
      change (Parse.llAction valueOps r () b t.token).toOption.map Prod.snd = some b₂ at hact
      rw [course, if_neg (show ¬ top = t.sym from htop)] at hend ⊢
      split_ifs at htable hend ⊢ with ht
      cases htable
      obtain ⟨rest, b₁, hv, hacts, hrest⟩ := ih hend h
      refine ⟨rest, b₁, hv, ?_, hrest⟩
      show (Parse.llAction valueOps (llTable top t.sym) () b t.token >>= _) = _
      cases hone : Parse.llAction valueOps (llTable top t.sym) () b t.token with
      | error f =>
        rw [hone] at hact
        cases hact
      | ok hb =>
        rw [hone] at hact
        cases hact
        exact hacts

namespace Parse

variable {parse parse' : Parser}

theorem llTokenFree_tree (tok : Token Value) : parse.llTokenFree valueOps tok = .ok parse := by
  unfold llTokenFree
  cases tok.val <;> rfl

/-- A token that the predictive parser takes is taken, or finds the stack
too small. -/
theorem llParse_accept
    (hact : llActions valueOps (tokCourse parse.stack t.sym).rules () parse.build t.token = .ok ((), b₁)) :
    parse.llParse valueOps t.token = .error .overflow ∨
      ∃ parse₁, Parsed parse t.token (tokCourse parse.stack t.sym) () b₁ parse₁ ∧
        parse.llParse valueOps t.token = .ok parse₁ := by
  by_cases hle : (tokCourse parse.stack t.sym).peak ≤ LL_STACK_SIZE
  · obtain ⟨parse₁, hparsed, hrun⟩ := @llParse_of_le _ _ valueOps parse t.token hle _ hact
    rw [llTokenFree_tree] at hrun
    exact Or.inr ⟨parse₁, hparsed, hrun⟩
  · exact Or.inl (@llParse_overflow _ _ valueOps parse t.token (Nat.lt_of_not_le hle) _ hact)

/-- **The tokens of a document are taken**, or find the stack too small. -/
theorem llFeed_document {v : Value} (hs : parse.stack ≠ [])
    (h : predictor.Feeds parse.stack parse.build ts [] [v]) :
    parse.llFeed valueOps (ts.map Terminal.token) = .error .overflow ∨ ∃ parse',
      parse.llFeed valueOps (ts.map Terminal.token) = .ok parse' ∧ parse'.error = parse.error ∧
      parse'.multidoc = parse.multidoc ∧ parse'.stack = baseStack parse.multidoc ∧ parse'.build = [] ∧
      parse'.out = parse.out ++ [v] := by
  induction ts generalizing parse with
  | nil =>
    generalize hstack : parse.stack = σ at h hs
    generalize parse.build = b at h
    cases h
    exact absurd rfl hs
  | cons t ts ih =>
    obtain ⟨rest, b₁, hv, hact, hrest⟩ := feeds_course (tokCourse_not_endless parse.stack t.sym) h
    rw [List.map_cons, llFeed]
    rcases llParse_accept hact with hover | ⟨parse₁, hparsed, hrun⟩
    · rw [hover]
      exact Or.inl rfl
    rw [hrun]
    cases hparsed with
    | @taken stack hv' hne =>
      obtain rfl : rest = stack := Verdict.accept.inj (hv.symm.trans hv')
      exact ih hne hrest
    | hollow hv' hb₁ =>
      obtain rfl : rest = [] := Verdict.accept.inj (hv.symm.trans hv')
      subst hb₁
      cases hrest
    | document hv' hb₁ =>
      obtain rfl : rest = [] := Verdict.accept.inj (hv.symm.trans hv')
      subst hb₁
      cases hrest
      exact Or.inr ⟨_, rfl, rfl, rfl, rfl, rfl, rfl⟩
    | error hv' => exact absurd (hv.symm.trans hv') (by simp)

theorem llFeed_append {toks toks' : List (Token Value)} :
    parse.llFeed valueOps (toks ++ toks') =
      parse.llFeed valueOps toks >>= fun parse => parse.llFeed valueOps toks' := by
  induction toks generalizing parse with
  | nil => rfl
  | cons tok toks ih =>
    rw [List.cons_append, llFeed, llFeed]
    cases parse.llParse valueOps tok with
    | error f => rfl
    | ok parse₁ => exact ih

/-- **Documents are taken**, as many as the parser is to take. -/
theorem llFeed_documents {docs : List Value} (hdocs : Documents ts docs) (hstack : parse.stack = [.jsonDocument])
    (hbuild : parse.build = []) (herr : parse.error = none) (hone : parse.multidoc = false → docs.length = 1)
    (hfit : parse.llFeed valueOps (ts.map Terminal.token) ≠ .error .overflow) : ∃ parse',
      parse.llFeed valueOps (ts.map Terminal.token) = .ok parse' ∧ parse'.error = none ∧
      parse'.stack = baseStack parse.multidoc ∧ parse'.out = parse.out ++ docs := by
  induction hdocs generalizing parse with
  | nil =>
    refine ⟨parse, rfl, herr, ?_, (List.append_nil _).symm⟩
    cases hm : parse.multidoc with
    | false => cases hone hm
    | true => exact hstack
  | @cons ts us v vs hd hdocs ih =>
    have hfeeds : predictor.Feeds parse.stack parse.build ts [] [v] := by
      rw [hstack, hbuild]
      exact hd.feeds_nil
    rw [List.map_append, llFeed_append] at hfit ⊢
    rcases llFeed_document (by rw [hstack]; exact List.cons_ne_nil _ _) hfeeds with
      hover | ⟨parse₁, hrun, herr₁, hmulti₁, hstack₁, hbuild₁, hout₁⟩
    · rw [hover] at hfit
      exact absurd rfl hfit
    rw [hrun] at hfit ⊢
    cases hm : parse.multidoc with
    | false =>
      -- the only document
      have hvs : vs = [] := by
        have hlen := hone hm
        rw [List.length_cons] at hlen
        exact List.length_eq_zero_iff.1 (by omega)
      subst hvs
      cases hdocs
      exact ⟨parse₁, rfl, herr₁.trans herr, by rw [hstack₁, hm], hout₁⟩
    | true =>
      rw [hm] at hstack₁ hmulti₁
      obtain ⟨parse₂, hrun₂, herr₂, hstack₂, hout₂⟩ := ih hstack₁ hbuild₁ (herr₁.trans herr)
        (fun hf => by rw [hmulti₁] at hf; cases hf) hfit
      refine ⟨parse₂, hrun₂, herr₂, by rw [hstack₂, hmulti₁], ?_⟩
      rw [hout₂, hout₁, List.append_assoc]
      rfl

end Parse

/-! ## What has been read -/

section

variable {V : Type} {l l' : List (ParseEvent V)}

@[simp] theorem tokens_append : tokens (l ++ l') = tokens l ++ tokens l' := List.filterMap_append

@[simp] theorem documents_append : documents (l ++ l') = documents l ++ documents l' := List.filterMap_append

@[simp] theorem tokens_nil : tokens ([] : List (ParseEvent V)) = [] := rfl

@[simp] theorem tokens_token (tok : Token V) : tokens (.token tok :: l) = tok :: tokens l := rfl

@[simp] theorem tokens_document (val : V) : tokens (.document val :: l) = tokens l := rfl

@[simp] theorem tokens_error (e : ParseError) : tokens (.error e :: l) = tokens l := rfl

@[simp] theorem documents_nil : documents ([] : List (ParseEvent V)) = [] := rfl

@[simp] theorem documents_token (tok : Token V) : documents (.token tok :: l) = documents l := rfl

@[simp] theorem documents_document (val : V) : documents (.document val :: l) = val :: documents l := rfl

@[simp] theorem documents_error (e : ParseError) : documents (.error e :: l) = documents l := rfl

/-- A line of a log that was added to is old or new. -/
theorem split_append {α : Type} {l es l₁ l₂ : List α} {x : α} (h : l ++ es = l₁ ++ x :: l₂) :
    (∃ l₃, l = l₁ ++ x :: l₃) ∨ ∃ l₃, es = l₃ ++ x :: l₂ ∧ l₁ = l ++ l₃ := by
  rcases List.append_eq_append_iff.1 h with ⟨l₃, hl₁, hes⟩ | ⟨l₃, hl, hes⟩
  · exact Or.inr ⟨l₃, hes, hl₁⟩
  · cases l₃ with
    | nil => exact Or.inr ⟨[], hes.symm, by rw [hl, List.append_nil, List.append_nil]⟩
    | cons y l₃ =>
      obtain ⟨rfl, -⟩ := List.cons.inj hes
      exact Or.inl ⟨l₃, hl⟩

end

/-- A document is only ever begun when there is nothing else to read. -/
theorem course_no_document {n : ℕ} {sym : Sym} (hσ : .jsonDocument ∉ σ.tail)
    (hv : (course n σ sym).verdict = .accept rest) : .jsonDocument ∉ rest := by
  have hrules : ∀ top sym : Sym, .jsonDocument ∉ llRules (llTable top sym) := by decide
  induction n generalizing σ with
  | zero => cases hv
  | succ n ih =>
    cases σ with
    | nil => cases hv
    | cons top σ =>
      rw [course] at hv
      split_ifs at hv with htop ht
      · cases hv
        exact hσ
      · refine ih (fun hmem => ?_) hv
        rcases List.mem_append.1 (List.mem_of_mem_tail hmem) with hmem | hmem
        · exact hrules _ _ hmem
        · exact hσ hmem

/-- Where the parser is, the tokens of the document in hand being `ts`. -/
inductive Place (parse : Parser) : List Terminal → Prop
  /-- Before or inside a document. -/
  | inside {ts : List Terminal} :
      (∀ us σ b, predictor.Feeds parse.stack parse.build us σ b →
        predictor.Feeds [.jsonDocument] [] (ts ++ us) σ b) →
      parse.stack ≠ [] → .jsonDocument ∉ parse.stack.tail → (ts = [] ↔ .jsonDocument ∈ parse.stack) →
      (parse.multidoc = false → documents parse.log = []) → Place parse ts
  /-- After the only document. -/
  | done : parse.stack = [] → parse.build = [] → parse.multidoc = false →
      (documents parse.log).length = 1 → Place parse []

/-- **What the log tells**: up to the first error, the tokens that were read
are documents, and then part of one. -/
structure Reading (parse : Parser) : Prop where
  /-- Every document was read in full. -/
  docs : ∀ l₁ v l₂, parse.log = l₁ ++ .document v :: l₂ → Faultless l₁ →
    ∃ ts, tokens l₁ = ts.map Terminal.token ∧ Documents ts (documents l₁ ++ [v])
  fault : parse.error ≠ none → ¬ Faultless parse.log
  live : parse.error = none → Faultless parse.log ∧ ∃ ts ts', tokens parse.log = (ts ++ ts').map Terminal.token ∧
    Documents ts (documents parse.log) ∧ Place parse ts'

theorem Documents.snoc {docs : List Value} {v : Value} (h : Documents ts docs)
    (hd : Derives .jsonDocument us (.value v)) : Documents (ts ++ us) (docs ++ [v]) := by
  induction h with
  | nil =>
    have hone := Documents.cons hd .nil
    rwa [List.append_nil] at hone
  | cons hd' _ ih =>
    rw [List.append_assoc]
    exact .cons hd' ih

theorem reading_create (multidoc : Bool) : Reading (Parse.create () multidoc) where
  docs l₁ v l₂ h := by
    simp [Parse.create] at h
  fault h := absurd rfl h
  live _ := by
    refine ⟨fun _ => List.not_mem_nil, [], [], rfl, .nil, .inside (fun _ _ _ h => h) ?_ ?_ ?_ fun _ => rfl⟩
    · exact List.cons_ne_nil _ _
    · exact List.not_mem_nil
    · exact iff_of_true rfl List.mem_cons_self

/-- What is read does not depend on the lexer. -/
theorem Reading.congr {parse parse' : Parser} (h : Reading parse) (hstack : parse'.stack = parse.stack)
    (hbuild : parse'.build = parse.build) (herror : parse'.error = parse.error)
    (hmulti : parse'.multidoc = parse.multidoc) (hlog : parse'.log = parse.log) : Reading parse' where
  docs := by
    rw [hlog]
    exact h.docs
  fault := by
    rw [herror, hlog]
    exact h.fault
  live := by
    rw [herror, hlog]
    intro he
    obtain ⟨hfree, ts, ts', htoks, hdocs, hplace⟩ := h.live he
    refine ⟨hfree, ts, ts', htoks, hdocs, ?_⟩
    cases hplace with
    | inside hfeeds hne htail hnil hone =>
      refine .inside ?_ ?_ ?_ ?_ ?_
      · rwa [hstack, hbuild]
      · rwa [hstack]
      · rwa [hstack]
      · rwa [hstack]
      · rwa [hmulti, hlog]
    | done hs hb hm hlen => exact .done (hstack.trans hs) (hbuild.trans hb) (hmulti.trans hm) (by rwa [hlog])

/-- An error ends the reading. -/
theorem Reading.error {parse parse' : Parser} (h : Reading parse) (toks : List (Token Value)) (e : ParseError)
    (herror : parse'.error ≠ none)
    (hlog : parse'.log = parse.log ++ toks.map .token ++ [.error e]) : Reading parse' where
  docs l₁ v l₂ heq hfree := by
    rw [hlog, List.append_assoc] at heq
    rcases split_append heq with ⟨l₃, hold⟩ | ⟨l₃, hnew, -⟩
    · exact h.docs l₁ v l₃ hold hfree
    · have hmem : ParseEvent.document v ∈ toks.map ParseEvent.token ++ [.error e] := by
        rw [hnew]
        exact List.mem_append_right _ List.mem_cons_self
      simp at hmem
  fault _ hfree := hfree e (by rw [hlog]; simp)
  live he := absurd he herror

/-- **One token more.** -/
theorem Reading.llParse {parse parse' : Parser} (h : Reading parse)
    (hrun : parse.llParse valueOps t.token = .ok parse') : Reading parse' := by
  obtain ⟨⟨u, b₁⟩, parse₁, heap, hact, hparsed, rfl⟩ := Parse.llParse_parsed hrun
  refine @Reading.congr parse₁ _ ?_ rfl rfl rfl rfl rfl
  have hfree' : Faultless [ParseEvent.token t.token] := fun e he => by simp at he
  cases herr : parse.error with
  | some e =>
    -- nothing counts after an error
    have hfault := h.fault (by rw [herr]; exact Option.some_ne_none e)
    have hold : ∀ (es : List (ParseEvent Value)) (parse' : Parser), parse'.log = parse.log ++ es →
        parse'.error ≠ none → Reading parse' := by
      intro es parse' hlog he
      refine ⟨fun l₁ v l₂ heq hfree => ?_, fun _ hfree => hfault ?_, fun he' => absurd he' he⟩
      · rw [hlog] at heq
        rcases split_append heq with ⟨l₃, hl⟩ | ⟨l₃, -, hl₁⟩
        · exact h.docs l₁ v l₃ hl hfree
        · rw [hl₁] at hfree
          exact absurd (faultless_append.1 hfree).1 hfault
      · rw [hlog] at hfree
        exact (faultless_append.1 hfree).1
    cases hparsed with
    | taken => exact hold _ _ rfl (by rw [herr]; exact Option.some_ne_none e)
    | hollow => exact hold _ _ rfl (by rw [herr]; exact Option.some_ne_none e)
    | document => exact hold _ _ (List.append_assoc ..) (by rw [herr]; exact Option.some_ne_none e)
    | error => exact hold _ _ (List.append_assoc ..) (Option.some_ne_none _)
  | none =>
    obtain ⟨hfree, ts, ts', htoks, hdocs, hplace⟩ := h.live herr
    have htaken : ∀ l₁ v l₂, parse.log ++ [.token t.token] = l₁ ++ .document v :: l₂ → Faultless l₁ →
        ∃ ts, tokens l₁ = ts.map Terminal.token ∧ Documents ts (documents l₁ ++ [v]) := by
      intro l₁ v l₂ heq hfree
      rcases split_append heq with ⟨l₃, hl⟩ | ⟨l₃, hl, -⟩
      · exact h.docs l₁ v l₃ hl hfree
      · have hmem : ParseEvent.document v ∈ [ParseEvent.token t.token] := by
          rw [hl]
          exact List.mem_append_right _ List.mem_cons_self
        simp at hmem
    cases hplace with
    | done hs hb hm hlen =>
      have hv : (Parse.tokCourse parse.stack t.token.sym).verdict = .reject (.afterInput t.token.sym) [] := by
        rw [hs]
        rfl
      cases hparsed with
      | taken hv' => exact absurd (hv.symm.trans hv') (by simp)
      | hollow hv' => exact absurd (hv.symm.trans hv') (by simp)
      | document hv' => exact absurd (hv.symm.trans hv') (by simp)
      | error hv' => exact h.error [t.token] _ (Option.some_ne_none _) rfl
    | inside hfeeds hne htail hnil hone =>
      cases hparsed with
      | @taken stack hv hs =>
        refine ⟨htaken, fun he => absurd herr he, fun _ => ⟨faultless_append.2 ⟨hfree, hfree'⟩, ts, ts' ++ [t], ?_, ?_, ?_⟩⟩
        · simp [htoks]
        · simpa using hdocs
        · refine .inside (fun us σ b hus => ?_) hs ?_ ?_ ?_
          · rw [List.append_assoc]
            exact hfeeds _ _ _ (course_feeds hv hact hus)
          · exact fun hmem => course_no_document htail hv (List.mem_of_mem_tail hmem)
          · exact iff_of_false (by simp) (course_no_document htail hv)
          · simpa using hone
      | hollow hv hb =>
        obtain rfl : b₁ = [] := hb
        obtain ⟨v, -, hval⟩ := feeds_document (hfeeds _ _ _ (course_feeds hv hact .nil))
        cases hval
      | @document n rest hv hb =>
        obtain rfl : b₁ = n :: rest := hb
        obtain ⟨v, hd, hval⟩ := feeds_document (hfeeds _ _ _ (course_feeds hv hact .nil))
        obtain ⟨rfl, rfl⟩ := List.cons.inj hval
        have hnew := hdocs.snoc hd
        have hlog : tokens (parse.log ++ [.token t.token] ++ [.document n]) =
            ((ts ++ (ts' ++ [t])) ++ []).map Terminal.token := by
          simp [htoks]
        have hfree'' : Faultless [ParseEvent.document n] := fun e he => by simp at he
        refine ⟨fun l₁ v l₂ heq hfree => ?_, fun he => absurd herr he, fun _ => ⟨faultless_append.2
          ⟨faultless_append.2 ⟨hfree, hfree'⟩, hfree''⟩, ts ++ (ts' ++ [t]), [], hlog, by simpa using hnew, ?_⟩⟩
        · rcases split_append heq with ⟨l₃, hl⟩ | ⟨l₃, hl, rfl⟩
          · exact htaken l₁ v l₃ hl hfree
          · obtain ⟨rfl, hv⟩ : l₃ = [] ∧ v = n := by
              cases l₃ with
              | nil =>
                simp only [List.nil_append, List.cons.injEq, ParseEvent.document.injEq] at hl
                exact ⟨rfl, hl.1.symm⟩
              | cons x l₃ => simp at hl
            subst hv
            exact ⟨ts ++ (ts' ++ [t]), by simp [htoks], by simpa using hnew⟩
        · cases hm : parse.multidoc with
          | true =>
            refine .inside (fun us σ b hus => ?_) ?_ ?_ ?_ ?_
            · exact hus
            · exact List.cons_ne_nil _ _
            · exact List.not_mem_nil
            · exact iff_of_true rfl List.mem_cons_self
            · exact fun hf => Bool.noConfusion hf
          | false =>
            refine .done rfl rfl rfl ?_
            simp [hone hm]
      | error hv => exact h.error [t.token] _ (Option.some_ne_none _) rfl

/-! ## Sequences of tokens -/

theorem Terminal.token_injective : Function.Injective Terminal.token := by
  intro t t' h
  rw [Terminal.token, Terminal.token, Token.mk.injEq] at h
  cases t <;> cases t' <;> simp_all [Terminal.sym, Terminal.val]

namespace Parse

variable {H V : Type} {ops : JsonOps H V} {parse parse' : Parse H V} {tok : Token V} {toks : List (Token V)}

/-- A token is logged, and so are the documents that go on the queue. -/
theorem llParse_logged (h : parse.llParse ops tok = .ok parse') :
    tokens parse'.log = tokens parse.log ++ [tok] ∧ parse'.multidoc = parse.multidoc ∧
      ∃ vals, parse'.out = parse.out ++ vals ∧ documents parse'.log = documents parse.log ++ vals := by
  obtain ⟨hb, parse₁, heap, -, hparsed, rfl⟩ := llParse_parsed h
  cases hparsed with
  | taken => exact ⟨by simp, rfl, [], by simp, by simp⟩
  | hollow => exact ⟨by simp, rfl, [], by simp, by simp⟩
  | @document n => exact ⟨by simp, rfl, [n], by simp, by simp⟩
  | error => exact ⟨by simp, rfl, [], by simp, by simp⟩

theorem llFeed_logged (h : parse.llFeed ops toks = .ok parse') :
    tokens parse'.log = tokens parse.log ++ toks ∧ parse'.multidoc = parse.multidoc ∧
      ∃ vals, parse'.out = parse.out ++ vals ∧ documents parse'.log = documents parse.log ++ vals := by
  induction toks generalizing parse with
  | nil =>
    cases h
    exact ⟨(List.append_nil _).symm, rfl, [], (List.append_nil _).symm, (List.append_nil _).symm⟩
  | cons tok toks ih =>
    rw [llFeed] at h
    cases hone : parse.llParse ops tok with
    | error f =>
      rw [hone] at h
      cases h
    | ok parse₁ =>
      rw [hone] at h
      obtain ⟨htoks₁, hm₁, vals₁, hout₁, hdocs₁⟩ := llParse_logged hone
      obtain ⟨htoks, hm, vals, hout, hdocs⟩ := ih h
      exact ⟨by simp [htoks, htoks₁], hm.trans hm₁, vals₁ ++ vals, by simp [hout, hout₁], by simp [hdocs, hdocs₁]⟩

end Parse

theorem Reading.llFeed {parse parse' : Parser} (h : Reading parse)
    (hrun : parse.llFeed valueOps (ts.map Terminal.token) = .ok parse') : Reading parse' := by
  induction ts generalizing parse with
  | nil =>
    cases hrun
    exact h
  | cons t ts ih =>
    rw [List.map_cons, Parse.llFeed] at hrun
    cases hone : parse.llParse valueOps t.token with
    | error f =>
      rw [hone] at hrun
      cases hrun
    | ok parse₁ =>
      rw [hone] at hrun
      exact ih (h.llParse hone) hrun

/-- **`ll_parse` takes what the grammar derives.** On a parser that was
just made, a sequence of tokens that fits on the stack, with names that a tree
can hold, is taken without an error and in full if and only if it is documents,
one of them where the parser is for one; and they are then on the queue. -/
theorem llFeed_documents_iff (multidoc : Bool) (ts : List Terminal) (docs : List Value)
    (hnames : ∀ name ∈ memberNames ts, name.length < 2 ^ 30)
    (hfit : (Parse.create () multidoc).llFeed valueOps (ts.map Terminal.token) ≠ .error .overflow) :
    TreesHold (· ∈ memberNames ts) ∧
    ((∃ parse, (Parse.create () multidoc).llFeed valueOps (ts.map Terminal.token) = .ok parse ∧
      parse.error = none ∧ parse.stack = (if multidoc then [.jsonDocument] else []) ∧ parse.out = docs) ↔
    Documents ts docs ∧ (multidoc = false → docs.length = 1)) := by
  refine ⟨treesHold_of_short hnames, ?_⟩
  constructor
  · rintro ⟨parse, hrun, herr, hstack, rfl⟩
    obtain ⟨htoks, hm, vals, hout, hdocs⟩ := Parse.llFeed_logged hrun
    obtain ⟨-, ts₀, ts', htoks', hdocs', hplace⟩ := ((reading_create multidoc).llFeed hrun).live herr
    have heq : ts₀ ++ ts' = ts :=
      Function.Injective.list_map Terminal.token_injective (htoks'.symm.trans htoks)
    have hvals : parse.out = documents parse.log := hout.trans hdocs.symm
    rw [hvals]
    cases hplace with
    | inside _ hne _ hnil _ =>
      cases hmd : multidoc with
      | false =>
        rw [hmd] at hstack
        exact absurd hstack hne
      | true =>
        have hts' : ts' = [] := hnil.2 (by rw [hstack, hmd]; exact List.mem_cons_self)
        rw [hts', List.append_nil] at heq
        rw [← heq]
        exact ⟨hdocs', fun hf => Bool.noConfusion hf⟩
    | done _ _ _ hlen =>
      rw [List.append_nil] at heq
      rw [← heq]
      exact ⟨hdocs', fun _ => hlen⟩
  · rintro ⟨hdocs, hone⟩
    obtain ⟨parse, hrun, herr, hstack, hout⟩ := Parse.llFeed_documents hdocs rfl rfl rfl hone hfit
    exact ⟨parse, hrun, herr, hstack, hout⟩

/-- A document of an object with an array in it. -/
theorem llFeed_documents_iff_one : ∃ parse,
    (Parse.create () false).llFeed valueOps
      ([Terminal.beginObject, .string [97], .nameSep, .beginArray, .endArray, .endObject].map Terminal.token) = .ok parse ∧
      parse.error = none ∧ parse.stack = [] ∧ parse.out = [.object [(Parse.cString [97], .array [])]] := by
  have hderives : Derives .jsonDocument [.beginObject, .string [97], .nameSep, .beginArray, .endArray, .endObject]
      (.value (.object [(Parse.cString [97], .array [])])) := by
    have hvalue : Derives .value [.beginArray, .endArray] (.value (.array [])) := .rule4 (.rule15 .rule16)
    have helem := @Derives.rule11 _ [.endObject] _ _ _ (@Derives.rule14 _ [97] _ hvalue) .rule13
    exact .rule1 (.rule8 (.rule10 helem) (objectOf_spec [([97], .array [])]))
  have hnames : ∀ name ∈ memberNames [.beginObject, .string [97], .nameSep, .beginArray, .endArray, .endObject],
      name.length < 2 ^ 30 := by decide
  exact (llFeed_documents_iff false _ _ hnames (by rintro ⟨⟩)).2.2 ⟨.cons hderives .nil, fun _ => rfl⟩

/-- A name ends at its first NUL: two names that agree up to there are one
member. -/
theorem llFeed_name_cut : ∃ parse,
    (Parse.create () false).llFeed valueOps ([Terminal.beginObject, .string [97, 0, 98], .nameSep, .int 1, .valueSep,
      .string [97, 0, 99], .nameSep, .int 2, .endObject].map Terminal.token) = .ok parse ∧
      parse.error = none ∧ parse.stack = [] ∧ parse.out = [.object [(Parse.cString [97], .int 2)]] ∧
      ([97, 0, 98] : List UInt8) ≠ [97, 0, 99] :=
  ⟨_, rfl, rfl, rfl, rfl, by decide⟩

end Json

end Mowgli
