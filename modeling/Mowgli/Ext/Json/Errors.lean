import Mowgli.Ext.Json.Stack
/-!
# What comes after an error

The loop of `mowgli_json_parse_data` looks for an error before each
character, but a character that ends a number or an identifier is sent
again before it does so. If the number is an error, the symbol it was not
has gone from the stack by then, and the character can be what closes the
container around the one the error is in.
-/

namespace Mowgli

namespace Json

/-- No document comes after an error. -/
def Quiet {V : Type} (log : List (ParseEvent V)) : Prop :=
  ∀ l₁ e l₂, log = l₁ ++ .error e :: l₂ → ∀ val, ParseEvent.document val ∉ l₂

/-- No error is among these. -/
def Faultless {V : Type} (log : List (ParseEvent V)) : Prop := ∀ e, ParseEvent.error e ∉ log

section

variable {V : Type} {l l' : List (ParseEvent V)} {e : ParseError} {val : V} {tok : Token V}

theorem Faultless.quiet (h : Faultless l) : Quiet l := by
  rintro l₁ e l₂ rfl
  exact absurd (List.mem_append_right _ List.mem_cons_self) (h e)

theorem faultless_append : Faultless (l ++ l') ↔ Faultless l ∧ Faultless l' := by
  constructor
  · intro h
    exact ⟨fun e he => h e (List.mem_append_left _ he), fun e he => h e (List.mem_append_right _ he)⟩
  · rintro ⟨h, h'⟩ e he
    rcases List.mem_append.1 he with he | he
    · exact h e he
    · exact h' e he

/-- What comes before the first error does not matter. -/
theorem Faultless.quiet_append (h : Faultless l) : Quiet (l ++ l') ↔ Quiet l' := by
  constructor
  · rintro hq l₁ e l₂ rfl
    exact hq (l ++ l₁) e l₂ (by simp)
  · intro hq l₁ e l₂ heq
    rcases List.append_eq_append_iff.1 heq with ⟨l₃, rfl, hl'⟩ | ⟨l₃, hl, hl'⟩
    · exact hq l₃ e l₂ hl'
    · cases l₃ with
      | nil =>
        simp only [List.nil_append] at hl'
        exact hq [] e l₂ hl'.symm
      | cons x l₃ =>
        simp only [List.cons_append, List.cons.injEq] at hl'
        rw [hl, ← hl'.1] at h
        exact absurd (List.mem_append_right _ List.mem_cons_self) (h e)

/-- After an error, it is a matter of documents. -/
theorem quiet_error : Quiet (.token tok :: .error e :: l) ↔ ∀ val, ParseEvent.document val ∉ l := by
  constructor
  · intro hq
    exact hq [.token tok] e l rfl
  · intro hl l₁ e' l₂ heq val hval
    refine hl val ?_
    rcases l₁ with _ | ⟨x, l₁⟩
    · simp at heq
    · rcases l₁ with _ | ⟨y, l₁⟩
      · simp only [List.singleton_append, List.cons.injEq] at heq
        rw [heq.2.2]
        exact hval
      · simp only [List.cons_append, List.cons.injEq] at heq
        rw [heq.2.2]
        exact List.mem_append_right _ (List.mem_cons_of_mem _ hval)

end

namespace Parse

variable {H V : Type} {ops : JsonOps H V} {parse parse' : Parse H V} {tok : Token V} {c : UInt8}

/-! ## The stack -/

/-- What was below the top of the stack stays there. -/
theorem course_accept {n : ℕ} {top sym : Sym} {stack rest : List Sym}
    (h : (course n (top :: stack) sym).verdict = .accept rest) : ∃ syms, rest = syms ++ stack := by
  have key : ∀ (n : ℕ) (σ stack rest : List Sym), σ ≠ [] →
      (course n (σ ++ stack) sym).verdict = .accept rest → ∃ syms, rest = syms ++ stack := by
    intro n
    induction n with
    | zero =>
      intro σ stack rest _ h
      simp [course] at h
    | succ n ih =>
      intro σ stack rest hσ h
      obtain ⟨top, σ, rfl⟩ := List.exists_cons_of_ne_nil hσ
      simp only [List.cons_append, course] at h
      split_ifs at h with htop ht
      · simp only [Verdict.accept.injEq] at h
        exact ⟨σ, h.symm⟩
      · rw [← List.append_assoc] at h
        refine ih _ stack rest ?_ h
        intro hnil
        exact llRules_ne_nil ht (List.append_eq_nil_iff.1 hnil).1
  exact key n [top] stack rest (by simp) h

/-- The rules by which a container is closed. -/
def closingRules : List ℕ := [9, 13, 16, 20]

/-- A symbol on the stack that a token of one character settles, where
nothing else is on the stack: it is expected itself, for a value that is
there, or it closes a container. -/
def Settles (y sym : Sym) (build : List V) : Prop :=
  y = sym ∧ build ≠ [] ∨ llTable y sym ∈ closingRules

/-- The symbols of tokens of one character. -/
def easySyms : List Sym := [.beginObject, .endObject, .beginArray, .endArray, .nameSep, .valueSep]

theorem easySym_mem {sym : Sym} (h : easySym c = some sym) : sym ∈ easySyms := by
  unfold easySym at h
  split_ifs at h <;> cases h <;> decide

/-- What such a token does to a stack of one symbol. -/
theorem tokCourse_single : ∀ y : Sym, ∀ sym ∈ easySyms,
    ((tokCourse [y] sym).verdict = .accept [] ↔ y = sym ∨ llTable y sym ∈ closingRules) ∧
    (y = sym → (tokCourse [y] sym).rules = []) ∧
    (llTable y sym ∈ closingRules → (tokCourse [y] sym).rules = [llTable y sym]) := by
  decide

theorem llActions_closing {rule : ℕ} (hr : rule ∈ closingRules) {h : H} {build : List V} {hb : H × List V}
    (hact : llActions ops [rule] h build tok = .ok hb) : hb.2 ≠ [] := by
  have hobj : ∀ hb, llActObjEnd ops h build = .ok hb → hb.2 ≠ [] := by
    intro hb hrun
    unfold llActObjEnd at hrun
    simp only [bind, Except.bind] at hrun
    split at hrun
    · cases hrun
    · split at hrun
      · cases hrun
      · cases hrun
        exact List.cons_ne_nil _ _
  have harr : ∀ hb, llActArrEnd ops h build = .ok hb → hb.2 ≠ [] := by
    intro hb hrun
    unfold llActArrEnd at hrun
    simp only [bind, Except.bind] at hrun
    split at hrun
    · cases hrun
    · split at hrun
      · cases hrun
      · cases hrun
        exact List.cons_ne_nil _ _
  unfold llActions at hact
  simp only [bind, Except.bind] at hact
  split at hact
  · cases hact
  · rename_i hb' hrun
    have heq : hb = hb' := by
      simp only [llActions, Except.ok.injEq] at hact
      exact hact.symm
    subst heq
    simp only [closingRules, List.mem_cons, List.not_mem_nil, or_false] at hr
    rcases hr with rfl | rfl | rfl | rfl
    · exact hobj _ hrun
    · exact hobj _ hrun
    · exact harr _ hrun
    · exact harr _ hrun

/-! ## One token -/

/-- What a token adds to the log. -/
inductive Added (tok : Token V) : List (ParseEvent V) → Prop
  | taken : Added tok [.token tok]
  | document (n : V) : Added tok [.token tok, .document n]
  | error (e : ParseError) : Added tok [.token tok, .error e]

theorem Added.quiet {es : List (ParseEvent V)} (h : Added tok es) : Quiet es := by
  cases h with
  | taken => exact Faultless.quiet fun e he => by simp at he
  | document n => exact Faultless.quiet fun e he => by simp at he
  | error e => exact quiet_error.2 fun _ => List.not_mem_nil

/-- **The log of a token**: there is a document where the stack gets empty
and something was built, and an error where the token is rejected. -/
theorem llParse_log (h : parse.llParse ops tok = .ok parse') :
    ∃ es, Added tok es ∧ parse'.log = parse.log ++ es ∧ parse'.lex = parse.lex ∧
      (parse'.error = none → Faultless es ∧ parse.error = none) ∧
      ((∃ n, es = [.token tok, .document n]) ↔
        (tokCourse parse.stack tok.sym).verdict = .accept [] ∧ ∃ hb,
          llActions ops (tokCourse parse.stack tok.sym).rules parse.heap parse.build tok = .ok hb ∧
          hb.2 ≠ []) ∧
      (Faultless es ∧ (∀ e stack, (tokCourse parse.stack tok.sym).verdict ≠ .reject e stack) ∨
        ∃ e, es = [.token tok, .error e] ∧
          (tokCourse parse.stack tok.sym).verdict = .reject e parse'.stack ∧
          ((tokCourse parse.stack tok.sym).rules = [] → parse'.build = parse.build)) := by
  obtain ⟨hb, parse₁, heap, hact, hparsed, rfl⟩ := llParse_parsed h
  have hfree : Faultless [ParseEvent.token tok] := fun e he => by simp at he
  cases hparsed with
  | taken hv hs =>
    refine ⟨_, .taken, rfl, rfl, fun he => ⟨hfree, he⟩, ?_, Or.inl ⟨hfree, ?_⟩⟩
    · constructor
      · rintro ⟨n, hn⟩
        simp at hn
      · rintro ⟨hv', -⟩
        rw [hv, Verdict.accept.injEq] at hv'
        exact absurd hv' hs
    · rw [hv]
      exact fun _ _ => Verdict.noConfusion
  | hollow hv hbuild =>
    refine ⟨_, .taken, rfl, rfl, fun he => ⟨hfree, he⟩, ?_, Or.inl ⟨hfree, ?_⟩⟩
    · constructor
      · rintro ⟨n, hn⟩
        simp at hn
      · rintro ⟨-, hb', hact', hne⟩
        rw [hact, Except.ok.injEq] at hact'
        rw [← hact', hbuild] at hne
        exact absurd rfl hne
    · rw [hv]
      exact fun _ _ => Verdict.noConfusion
  | @document n rest hv hbuild =>
    have hfree' : Faultless [ParseEvent.token tok, .document n] := fun e he => by simp at he
    refine ⟨_, .document n, by simp, rfl, fun he => ⟨hfree', he⟩, ?_, Or.inl ⟨hfree', ?_⟩⟩
    · refine ⟨fun _ => ⟨hv, hb, hact, by rw [hbuild]; exact List.cons_ne_nil _ _⟩, fun _ => ⟨n, rfl⟩⟩
    · rw [hv]
      exact fun _ _ => Verdict.noConfusion
  | @error e stack hv =>
    refine ⟨_, .error e, by simp, rfl, (fun he => by cases he), ?_, Or.inr ⟨e, rfl, hv, fun hr => ?_⟩⟩
    · constructor
      · rintro ⟨n, hn⟩
        simp at hn
      · rintro ⟨hv', -⟩
        rw [hv] at hv'
        cases hv'
    · rw [hr, llActions, Except.ok.injEq] at hact
      rw [← hact]

/-- A token of one character is the end of a document where the stack is a
symbol that it settles. -/
theorem llParse_easy_log {sym : Sym} (hsym : sym ∈ easySyms)
    (h : parse.llParse ops ⟨sym, none⟩ = .ok parse') :
    ∃ es, Added ⟨sym, none⟩ es ∧ parse'.log = parse.log ++ es ∧
      ((∃ n, es = [.token ⟨sym, none⟩, .document n]) ↔
        ∃ y, parse.stack = [y] ∧ Settles y sym parse.build) := by
  obtain ⟨es, hadd, hlog, -, -, hdoc, -⟩ := llParse_log h
  refine ⟨es, hadd, hlog, hdoc.trans ?_⟩
  constructor
  · rintro ⟨hv, hb, hact, hne⟩
    cases hs : parse.stack with
    | nil =>
      rw [hs] at hv
      cases hv
    | cons y stack =>
      rw [hs] at hv hact
      obtain ⟨syms, hsyms⟩ := course_accept hv
      obtain rfl : stack = [] := (List.append_eq_nil_iff.1 hsyms.symm).2
      obtain ⟨hacc, hnil, -⟩ := tokCourse_single y sym hsym
      refine ⟨y, rfl, ?_⟩
      rcases hacc.1 hv with hy | hy
      · rw [hnil hy, llActions, Except.ok.injEq] at hact
        rw [← hact] at hne
        exact Or.inl ⟨hy, hne⟩
      · exact Or.inr hy
  · rintro ⟨y, hs, hset⟩
    obtain ⟨hacc, hnil, hone⟩ := tokCourse_single y sym hsym
    obtain ⟨-, hb, hact⟩ := llParse_ok h
    rw [hs] at hact ⊢
    rcases hset with ⟨hy, hne⟩ | hy
    · refine ⟨hacc.2 (Or.inl hy), (parse.heap, parse.build), ?_, hne⟩
      rw [hnil hy]
      rfl
    · refine ⟨hacc.2 (Or.inr hy), hb, hact, ?_⟩
      rw [hone hy] at hact
      exact llActions_closing hy hact

/-! ## One character -/

/-- The token that is not ended yet. -/
def pendingSym : Lex → Option Sym
  | .number => some .number
  | .identifier => some .identifier
  | _ => none

/-- Whether a character goes on with the token. -/
def goesOn : Lex → UInt8 → Bool
  | .number, c => inNumber c
  | .identifier, c => isAlpha c
  | _, _ => true

/-- **The slip**: the character ends a number or an identifier that is an
error, and is the token that settles what is left of the stack. -/
def Slips (parse : Parse H V) (c : UInt8) : Prop :=
  ∃ sym x y t, pendingSym parse.lex = some sym ∧ goesOn parse.lex c = false ∧ parse.stack = [x, y] ∧
    x ≠ sym ∧ llTable x sym = 0 ∧ easySym c = some t ∧ Settles y t parse.build

/-- A number or an identifier is an error at once or not at all. -/
theorem tokCourse_pending {lex : Lex} {sym : Sym} (hs : pendingSym lex = some sym) (x : Sym) (stack : List Sym) :
    x ≠ sym ∧ llTable x sym = 0 ∧ tokCourse (x :: stack) sym = ⟨[], 0, .reject (.expected x sym) stack⟩ ∨
      ∃ rest, (tokCourse (x :: stack) sym).verdict = .accept rest := by
  by_cases hx : x = sym
  · exact Or.inr ⟨stack, by rw [tokCourse, course, if_pos hx]⟩
  by_cases ht : llTable x sym = 0
  · exact Or.inl ⟨hx, ht, by rw [tokCourse, course, if_neg hx, if_pos ht]⟩
  · refine Or.inr ?_
    have hsym : sym = .number ∨ sym = .identifier := by
      cases lex <;> simp [pendingSym] at hs <;> simp [← hs]
    have hacc : ∀ x : Sym, ∀ sym ∈ [Sym.number, Sym.identifier], llTable x sym ≠ 0 →
        x = .value ∨ x = .arrBody ∨ x = .arrElems := by
      decide
    rcases hacc x sym (by simpa using hsym) ht with rfl | rfl | rfl <;> rcases hsym with rfl | rfl <;>
      exact ⟨_, rfl⟩

/-- The token that a number or an identifier is. -/
theorem lexToken_pending {sym : Sym} (hs : pendingSym parse.lex = some sym) {th : Token V × H}
    (h : parse.lexToken ops = .ok th) : th.1.sym = sym := by
  unfold lexToken at h
  cases hl : parse.lex with
  | number =>
    rw [hl] at hs h
    cases hs
    simp only [bind, Except.bind] at h
    split at h
    · cases h
    · cases h
      rfl
  | identifier =>
    rw [hl] at hs h
    cases hs
    cases h
    rfl
  | _ =>
    rw [hl] at hs
    cases hs

/-- `lex_tokenize`, taken apart. -/
theorem lexTokenize_ok (h : parse.lexTokenize ops = .ok parse') : ∃ th, parse.lexToken ops = .ok th ∧
    ({ parse with heap := th.2, buf := parse.buf.reset, lex := .limbo } : Parse H V).llParse ops th.1 =
      .ok parse' := by
  unfold lexTokenize at h
  cases hth : parse.lexToken ops with
  | error f =>
    rw [hth] at h
    cases h
  | ok th =>
    rw [hth] at h
    exact ⟨th, rfl, h⟩

/-- A character that is in no token adds one line to the log at most. -/
theorem lexLimbo_none (he : easySym c = none) {r : Bool × Parse H V} (h : parse.lexLimbo ops c = .ok r) :
    ∃ es, r.2.log = parse.log ++ es ∧ (r.2.error = none → Faultless es ∧ parse.error = none) ∧ (∀ val, .document val ∉ es) ∧
      (r.1 = true → es = [] ∧ (pendingSym r.2.lex).isSome ∧ goesOn r.2.lex c = true) := by
  unfold lexLimbo at h
  rw [he] at h
  simp only at h
  have hnil : ∀ parse' : Parse H V, parse'.log = parse.log →
      parse'.log = parse.log ++ [] ∧ Faultless ([] : List (ParseEvent V)) ∧
        ∀ val, ParseEvent.document val ∉ ([] : List (ParseEvent V)) :=
    fun _ hl => ⟨by rw [hl, List.append_nil], fun _ => List.not_mem_nil, fun _ => List.not_mem_nil⟩
  split_ifs at h with hn ha hq hsp
  · cases h
    refine ⟨[], (hnil _ rfl).1, fun he => ⟨(hnil _ rfl).2.1, he⟩, (hnil _ rfl).2.2, fun _ => ⟨rfl, rfl, ?_⟩⟩
    show inNumber c = true
    unfold inNumber
    unfold beginsNumber at hn
    rw [hn]
    rfl
  · cases h
    exact ⟨[], (hnil _ rfl).1, fun he => ⟨(hnil _ rfl).2.1, he⟩, (hnil _ rfl).2.2, fun _ => ⟨rfl, rfl, ha⟩⟩
  · cases h
    exact ⟨[], (hnil _ rfl).1, fun he => ⟨(hnil _ rfl).2.1, he⟩, (hnil _ rfl).2.2, fun h => by cases h⟩
  · cases h
    exact ⟨[], (hnil _ rfl).1, fun he => ⟨(hnil _ rfl).2.1, he⟩, (hnil _ rfl).2.2, fun h => by cases h⟩
  · cases h
    refine ⟨[.error (.character c)], rfl, (fun h => by cases h), (fun val hval => ?_), fun h => by cases h⟩
    simp at hval

/-- A character of a token that is not ended by it adds nothing to the log,
unless it is the quote at the end of a string. -/
theorem lexChar_inside (hg : pendingSym parse.lex = none ∧ parse.lex ≠ .limbo ∨ goesOn parse.lex c = true ∧
    (pendingSym parse.lex).isSome) {r : Bool × Parse H V} (h : parse.lexChar ops c = .ok r) :
    r.1 = false ∧ ∃ es, r.2.log = parse.log ++ es ∧ Quiet es ∧ (r.2.error = none → Faultless es ∧ parse.error = none) := by
  have hnil : ∀ parse' : Parse H V, parse'.log = parse.log → parse'.error = parse.error →
      ∃ es, parse'.log = parse.log ++ es ∧ Quiet es ∧
        (parse'.error = none → Faultless es ∧ parse.error = none) :=
    fun _ hl he => ⟨[], by rw [hl, List.append_nil], Faultless.quiet fun _ => List.not_mem_nil,
      fun he' => ⟨fun _ => List.not_mem_nil, he.symm.trans he'⟩⟩
  unfold lexChar at h
  cases hl : parse.lex with
  | limbo => simp [hl, pendingSym] at hg
  | string =>
    rw [hl] at h
    simp only at h
    split_ifs at h with hb hq
    · cases h
      exact ⟨rfl, hnil _ rfl rfl⟩
    · cases hrun : parse.lexTokenize ops with
      | error f =>
        rw [hrun] at h
        cases h
      | ok parse' =>
        rw [hrun] at h
        cases h
        obtain ⟨th, -, hll⟩ := lexTokenize_ok hrun
        obtain ⟨es, hadd, hlog, -, hfree, -⟩ := llParse_log hll
        exact ⟨rfl, es, hlog, hadd.quiet, hfree⟩
    · cases h
      exact ⟨rfl, hnil _ rfl rfl⟩
  | stringEsc =>
    rw [hl] at h
    simp only at h
    split_ifs at h
    · cases h
      exact ⟨rfl, hnil _ rfl rfl⟩
    · cases h
      exact ⟨rfl, hnil _ rfl rfl⟩
  | stringEscU =>
    rw [hl] at h
    simp only at h
    split_ifs at h
    · cases h
      exact ⟨rfl, hnil _ rfl rfl⟩
    · cases h
      exact ⟨rfl, hnil _ rfl rfl⟩
  | number =>
    simp only [hl, pendingSym, goesOn, reduceCtorEq, false_and, Option.isSome_some, and_true, false_or] at hg
    rw [hl] at h
    simp only [lexEnd, hg, if_true] at h
    cases h
    exact ⟨rfl, hnil _ rfl rfl⟩
  | identifier =>
    simp only [hl, pendingSym, goesOn, reduceCtorEq, false_and, Option.isSome_some, and_true, false_or] at hg
    rw [hl] at h
    simp only [lexEnd, hg, if_true] at h
    cases h
    exact ⟨rfl, hnil _ rfl rfl⟩

/-- The rounds of a character, taken apart. -/
theorem sendChar_ok {n : ℕ} (h : sendChar ops (n + 1) parse c = .ok parse') :
    parse.lexChar ops c = .ok (false, parse') ∨
      ∃ parse₁, parse.lexChar ops c = .ok (true, parse₁) ∧ sendChar ops n parse₁ c = .ok parse' := by
  rw [sendChar] at h
  cases hl : parse.lexChar ops c with
  | error f =>
    rw [hl] at h
    cases h
  | ok r =>
    obtain ⟨again, parse₁⟩ := r
    rw [hl] at h
    cases again with
    | true => exact Or.inr ⟨parse₁, rfl, h⟩
    | false =>
      cases h
      exact Or.inl rfl

/-- A token of one character. -/
theorem lexLimbo_some {t : Sym} (he : easySym c = some t) {r : Bool × Parse H V}
    (h : parse.lexLimbo ops c = .ok r) : r.1 = false ∧ parse.llParse ops ⟨t, none⟩ = .ok r.2 := by
  unfold lexLimbo lexEasy at h
  rw [he] at h
  simp only at h
  cases hll : parse.llParse ops ⟨t, none⟩ with
  | error f =>
    rw [hll] at h
    cases h
  | ok parse₁ =>
    rw [hll] at h
    cases h
    exact ⟨rfl, rfl⟩

/-- A character in `LEX_LIMBO`: the log, and the document if it makes one. -/
theorem sendChar_limbo {n : ℕ} (hl : parse.lex = .limbo) (h : sendChar ops (n + 2) parse c = .ok parse') :
    ∃ es, parse'.log = parse.log ++ es ∧ Quiet es ∧ (parse'.error = none → Faultless es ∧ parse.error = none) ∧
      ((∃ val, .document val ∈ es) ↔
        ∃ y t, parse.stack = [y] ∧ easySym c = some t ∧ Settles y t parse.build) := by
  have hlex : ∀ r, parse.lexChar ops c = .ok r → parse.lexLimbo ops c = .ok r := by
    intro r hr
    rw [← hr, lexChar, hl]
  cases he : easySym c with
  | some t =>
    rcases sendChar_ok h with hr | ⟨parse₁, hr, -⟩
    · obtain ⟨-, hll⟩ := lexLimbo_some he (hlex _ hr)
      obtain ⟨es, hadd, hlog, -, hfree, -⟩ := llParse_log hll
      obtain ⟨es', hadd', hlog', hdoc⟩ := llParse_easy_log (easySym_mem he) hll
      obtain rfl : es' = es := List.append_cancel_left (hlog'.symm.trans hlog)
      refine ⟨es', hlog, hadd.quiet, hfree, ?_⟩
      constructor
      · rintro ⟨val, hval⟩
        have hn : ∃ n, es' = [.token ⟨t, none⟩, .document n] := by
          cases hadd with
          | taken => simp at hval
          | document n => exact ⟨n, rfl⟩
          | error e => simp at hval
        obtain ⟨y, hy, hset⟩ := hdoc.1 hn
        exact ⟨y, t, hy, rfl, hset⟩
      · rintro ⟨y, t', hy, ht', hset⟩
        cases ht'
        obtain ⟨n, rfl⟩ := hdoc.2 ⟨y, hy, hset⟩
        exact ⟨n, by simp⟩
    · exact absurd (lexLimbo_some he (hlex _ hr)).1 (by simp)
  | none =>
    have hno : ¬ ∃ y t, parse.stack = [y] ∧ (none : Option Sym) = some t ∧ Settles y t parse.build := by
      rintro ⟨y, t, -, ht, -⟩
      cases ht
    rcases sendChar_ok h with hr | ⟨parse₁, hr, hsend⟩
    · obtain ⟨es, hlog, hfree, hdoc, -⟩ := lexLimbo_none he (hlex _ hr)
      have hq : Quiet es := by
        rintro l₁ e l₂ rfl val hval
        exact hdoc val (List.mem_append_right _ (List.mem_cons_of_mem _ hval))
      exact ⟨es, hlog, hq, hfree, iff_of_false (fun ⟨val, hval⟩ => hdoc val hval) hno⟩
    · obtain ⟨es, hlog, hfree, -, hagain⟩ := lexLimbo_none he (hlex _ hr)
      obtain ⟨rfl, hpend, hgo⟩ := hagain rfl
      -- the second time, the character is part of what it begins
      have hsecond : ∀ r, parse₁.lexChar ops c = .ok r →
          r.1 = false ∧ r.2.log = parse.log ∧ r.2.error = parse₁.error := by
        intro r hr'
        have hparse₁ : parse₁.log = parse.log := by simpa using hlog
        unfold lexChar at hr'
        cases hl₁ : parse₁.lex with
        | number =>
          rw [hl₁] at hr' hgo
          simp only [goesOn] at hgo
          simp only [lexEnd, hgo, if_true] at hr'
          cases hr'
          exact ⟨rfl, hparse₁, rfl⟩
        | identifier =>
          rw [hl₁] at hr' hgo
          simp only [goesOn] at hgo
          simp only [lexEnd, hgo, if_true] at hr'
          cases hr'
          exact ⟨rfl, hparse₁, rfl⟩
        | _ =>
          simp only [hl₁, pendingSym] at hpend
          cases hpend
      have hend : parse'.log = parse.log ∧ parse'.error = parse₁.error := by
        rcases sendChar_ok hsend with hr' | ⟨parse₂, hr', -⟩
        · exact (hsecond _ hr').2
        · exact absurd (hsecond _ hr').1 (by simp)
      refine ⟨[], by rw [hend.1, List.append_nil], Faultless.quiet fun _ => List.not_mem_nil,
        fun he => hfree (hend.2.symm.trans he), iff_of_false ?_ hno⟩
      rintro ⟨val, hval⟩
      exact absurd hval List.not_mem_nil

/-- **A character is quiet unless it slips.** -/
theorem parseChar_log (h : parse.parseChar ops c = .ok parse') :
    ∃ es, parse'.log = parse.log ++ es ∧ (parse'.error = none → Faultless es ∧ parse.error = none) ∧
      (Quiet es ↔ ¬ parse.Slips c) := by
  unfold parseChar at h
  by_cases hpend : ∃ sym, pendingSym parse.lex = some sym ∧ goesOn parse.lex c = false
  · obtain ⟨sym, hsym, hgo⟩ := hpend
    -- the token that is ended, and then the character by itself
    have hfirst : ∃ parse₁, parse.lexTokenize ops = .ok parse₁ ∧ sendChar ops 2 parse₁ c = .ok parse' := by
      have hlex : parse.lexChar ops c = (parse.lexTokenize ops >>= fun parse => .ok (true, parse)) := by
        unfold lexChar
        cases hl : parse.lex with
        | number =>
          rw [hl] at hgo
          simp only [goesOn] at hgo
          simp only [lexEnd, hgo, Bool.false_eq_true, if_false]
        | identifier =>
          rw [hl] at hgo
          simp only [goesOn] at hgo
          simp only [lexEnd, hgo, Bool.false_eq_true, if_false]
        | _ =>
          rw [hl] at hsym
          cases hsym
      cases htok : parse.lexTokenize ops with
      | error f =>
        rcases sendChar_ok h with hr | ⟨parse₁, hr, -⟩ <;> rw [hlex, htok] at hr <;> cases hr
      | ok parse₁ =>
        rcases sendChar_ok h with hr | ⟨parse₂, hr, hsend⟩
        · rw [hlex, htok] at hr
          cases hr
        · rw [hlex, htok] at hr
          cases hr
          exact ⟨parse₁, rfl, hsend⟩
    obtain ⟨parse₁, htok, hsend⟩ := hfirst
    obtain ⟨th, hth, hll⟩ := lexTokenize_ok htok
    have hsym' := lexToken_pending hsym hth
    obtain ⟨es₁, hadd, hlog₁, hlex₁, hfree₁, -, hcase⟩ := llParse_log hll
    obtain ⟨es₂, hlog₂, hquiet₂, hfree₂, hdoc₂⟩ := sendChar_limbo hlex₁ hsend
    refine ⟨es₁ ++ es₂, by rw [hlog₂, hlog₁, List.append_assoc], ?_, ?_⟩
    · intro he
      obtain ⟨hes₂, he₁⟩ := hfree₂ he
      obtain ⟨hes₁, he₀⟩ := hfree₁ he₁
      exact ⟨faultless_append.2 ⟨hes₁, hes₂⟩, he₀⟩
    · rw [hsym'] at hcase
      change Faultless es₁ ∧ (∀ e stack, (tokCourse parse.stack sym).verdict ≠ .reject e stack) ∨ _ at hcase
      rcases hcase with ⟨hes₁, hv⟩ | ⟨e, rfl, hv, hbuild⟩
      · rw [hes₁.quiet_append]
        refine iff_of_true hquiet₂ ?_
        rintro ⟨sym', x, y, t, hs', -, hstack, hx, ht, -⟩
        obtain rfl : sym = sym' := Option.some.inj (hsym.symm.trans hs')
        rw [hstack] at hv
        exact hv (.expected x sym) [y] (by rw [tokCourse, course, if_neg hx, if_pos ht])
      · change (tokCourse parse.stack sym).verdict = _ at hv
        change (tokCourse parse.stack sym).rules = [] → parse₁.build = parse.build at hbuild
        rw [List.cons_append, List.singleton_append, quiet_error, ← not_exists, not_iff_not, hdoc₂]
        cases hstack : parse.stack with
        | nil =>
          rw [hstack] at hv
          have hnil : [] = parse₁.stack := (Verdict.reject.inj hv).2
          constructor
          · rintro ⟨y, t, hy, -⟩
            rw [← hnil] at hy
            cases hy
          · rintro ⟨sym', x, y, t, -, -, hs', -⟩
            rw [hstack] at hs'
            cases hs'
        | cons x stack =>
          rw [hstack] at hv hbuild
          rcases tokCourse_pending hsym x stack with ⟨hx, ht, hc⟩ | ⟨rest, hc⟩
          · rw [hc] at hv hbuild
            rw [← (Verdict.reject.inj hv).2, hbuild rfl]
            constructor
            · rintro ⟨y, t, rfl, he, hset⟩
              exact ⟨sym, x, y, t, hsym, hgo, hstack, hx, ht, he, hset⟩
            · rintro ⟨sym', x', y, t, -, -, hs', -, -, he, hset⟩
              rw [hstack, List.cons.injEq] at hs'
              exact ⟨y, t, hs'.2, he, hset⟩
          · rw [hc] at hv
            cases hv
  · have hinside : parse.lex = .limbo ∨ (pendingSym parse.lex = none ∧ parse.lex ≠ .limbo ∨
        goesOn parse.lex c = true ∧ (pendingSym parse.lex).isSome) := by
      by_cases hl : parse.lex = .limbo
      · exact Or.inl hl
      · right
        cases hp : pendingSym parse.lex with
        | none => exact Or.inl ⟨rfl, hl⟩
        | some sym =>
          refine Or.inr ⟨?_, rfl⟩
          by_contra hgo
          exact hpend ⟨sym, hp, Bool.not_eq_true _ ▸ hgo⟩
    have hslip : ¬ parse.Slips c := by
      rintro ⟨sym, x, y, t, hsym, hgo, -⟩
      exact hpend ⟨sym, hsym, hgo⟩
    rcases hinside with hl | hin
    · obtain ⟨es, hlog, hq, hfree, -⟩ := sendChar_limbo hl h
      exact ⟨es, hlog, hfree, iff_of_true hq hslip⟩
    · rcases sendChar_ok h with hr | ⟨parse₁, hr, -⟩
      · obtain ⟨-, es, hlog, hq, hfree⟩ := lexChar_inside hin hr
        exact ⟨es, hlog, hfree, iff_of_true hq hslip⟩
      · exact absurd (lexChar_inside hin hr).1 (by simp)

/-! ## A chunk -/

/-- `mowgli_json_parse_data` on one character more. -/
theorem parseData_cons {data : List UInt8} (he : parse.error = none)
    (h : parse.parseData ops (c :: data) = .ok parse') :
    ∃ parse₁, parse.parseChar ops c = .ok parse₁ ∧ parse₁.parseData ops data = .ok parse' := by
  rw [parseData, he] at h
  cases hc : parse.parseChar ops c with
  | error f =>
    simp only [hc, bind, Except.bind] at h
    cases h
  | ok parse₁ =>
    simp only [hc, bind, Except.bind] at h
    exact ⟨parse₁, rfl, h⟩

/-- After an error, the rest of the chunk is left alone. -/
theorem parseData_error {data : List UInt8} {e : ParseError} (he : parse.error = some e) :
    parse.parseData ops data = .ok parse := by
  cases data with
  | nil => rfl
  | cons c data => rw [parseData, he]

/-- No character of a chunk slips, up to the first error. -/
def NeverSlips (ops : JsonOps H V) (parse : Parse H V) (data : List UInt8) : Prop :=
  ∀ pre c post parse₁, data = pre ++ c :: post → parse.parseData ops pre = .ok parse₁ →
    parse₁.error = none → ¬ parse₁.Slips c

/-- **A chunk is quiet just when no character of it slips.** -/
theorem parseData_quiet_iff {data : List UInt8} (he : parse.error = none)
    (h : parse.parseData ops data = .ok parse') :
    ∃ es, parse'.log = parse.log ++ es ∧ (parse'.error = none → Faultless es) ∧
      (Quiet es ↔ parse.NeverSlips ops data) := by
  induction data generalizing parse with
  | nil =>
    cases h
    refine ⟨[], by rw [List.append_nil], fun _ _ => List.not_mem_nil, ?_⟩
    refine iff_of_true (Faultless.quiet fun _ => List.not_mem_nil) ?_
    intro pre c post parse₁ heq
    simp at heq
  | cons c data ih =>
    obtain ⟨parse₁, hc, hdata⟩ := parseData_cons he h
    obtain ⟨es₁, hlog₁, hfree₁, hquiet₁⟩ := parseChar_log hc
    have hpre : ∀ pre, parse.parseData ops (c :: pre) = parse₁.parseData ops pre := by
      intro pre
      rw [parseData, he]
      simp only [hc, bind, Except.bind]
    cases he₁ : parse₁.error with
    | some e =>
      rw [parseData_error he₁] at hdata
      cases hdata
      refine ⟨es₁, hlog₁, fun he' => (hfree₁ he').1, hquiet₁.trans ?_⟩
      constructor
      · rintro hslip pre c' post parse₂ heq hrun he₂
        cases pre with
        | nil =>
          obtain ⟨rfl, rfl⟩ := List.cons.inj heq
          cases hrun
          exact hslip
        | cons d pre =>
          obtain ⟨rfl, -⟩ := List.cons.inj heq
          rw [hpre, parseData_error he₁] at hrun
          cases hrun
          rw [he₁] at he₂
          cases he₂
      · intro hall
        exact hall [] c data parse rfl rfl he
    | none =>
      obtain ⟨es₂, hlog₂, hfree₂, hquiet₂⟩ := ih he₁ hdata
      obtain ⟨hes₁, -⟩ := hfree₁ he₁
      refine ⟨es₁ ++ es₂, by rw [hlog₂, hlog₁, List.append_assoc], fun he' =>
        faultless_append.2 ⟨hes₁, hfree₂ he'⟩, ?_⟩
      rw [hes₁.quiet_append, hquiet₂]
      constructor
      · rintro hall pre c' post parse₂ heq hrun he₂
        cases pre with
        | nil =>
          obtain ⟨rfl, rfl⟩ := List.cons.inj heq
          cases hrun
          exact hquiet₁.1 hes₁.quiet
        | cons d pre =>
          obtain ⟨rfl, rfl⟩ := List.cons.inj heq
          rw [hpre] at hrun
          exact hall pre c' post parse₂ rfl hrun he₂
      · rintro hall pre c' post parse₂ rfl hrun he₂
        exact hall (c :: pre) c' post parse₂ rfl ((hpre pre).trans hrun) he₂

end Parse

end Json

end Mowgli
