import Mowgli.Ext.Json.Parser
/-!
# What a token does to the stack

The actions do not look at the stack, and neither the table nor the stack
look at the values. So what the loop of `ll_parse` does is settled by the
stack and the symbol of the token: which rules are applied, how high the
stack gets, and how it ends. `llLoop_eq` puts the actions back.
-/

namespace Mowgli

namespace Json

/-- How the loop of `ll_parse` ends. -/
inductive Verdict
  /-- The token is what was expected; this is left of the stack. -/
  | accept (stack : List Sym)
  /-- An error is recorded. -/
  | reject (e : ParseError) (stack : List Sym)
  /-- It does not, in so many rounds. -/
  | endless
  deriving DecidableEq

/-- What the loop of `ll_parse` does, in so many rounds. -/
structure Course where
  rules : List ℕ
  /-- The most symbols there ever were on the stack. -/
  peak : ℕ
  verdict : Verdict
  deriving DecidableEq

/-- A rule is applied first. -/
def Course.after (rule height : ℕ) (c : Course) : Course :=
  ⟨rule :: c.rules, max height c.peak, c.verdict⟩

/-- The loop of `ll_parse` on symbols alone. -/
def course : ℕ → List Sym → Sym → Course
  | 0, _, _ => ⟨[], 0, .endless⟩
  | _ + 1, [], sym => ⟨[], 0, .reject (.afterInput sym) []⟩
  | n + 1, top :: stack, sym =>
    if top = sym then ⟨[], 0, .accept stack⟩
    else if llTable top sym = 0 then ⟨[], 0, .reject (.expected top sym) stack⟩
    else (course n (llRules (llTable top sym) ++ stack) sym).after (llTable top sym)
      (llRules (llTable top sym) ++ stack).length

namespace Parse

variable {H V : Type} (ops : JsonOps H V)

/-- The actions of some rules, one after the other. -/
def llActions : List ℕ → H → List V → Token V → Except Fault (H × List V)
  | [], h, build, _ => .ok (h, build)
  | rule :: rules, h, build, tok => do
    let (h, build) ← llAction ops rule h build tok
    llActions rules h build tok

/-- What happens at the end of the loop. -/
def llFinish (parse : Parse H V) : Verdict → Except Fault (Parse H V)
  | .accept stack =>
    if stack = [] then { parse with stack := stack }.llCycle else .ok { parse with stack := stack }
  | .reject e stack => .ok ({ parse with stack := stack }.parseError e)
  | .endless => .error .endless

variable {ops} {parse parse' : Parse H V} {tok : Token V}

theorem pushAll_of_le (parse : Parse H V) (syms : List Sym)
    (h : syms.length + parse.stack.length ≤ LL_STACK_SIZE) :
    parse.pushAll syms = .ok { parse with stack := syms ++ parse.stack } := by
  induction syms with
  | nil => rfl
  | cons sym syms ih =>
    rw [List.length_cons] at h
    rw [pushAll, ih (by omega)]
    show llPush _ sym = _
    rw [llPush, if_pos]
    · rfl
    · rw [List.length_append]
      omega

theorem pushAll_of_gt (parse : Parse H V) (syms : List Sym) (hne : syms ≠ [])
    (h : LL_STACK_SIZE < syms.length + parse.stack.length) :
    parse.pushAll syms = .error .overflow := by
  induction syms with
  | nil => exact absurd rfl hne
  | cons sym syms ih =>
    rw [List.length_cons] at h
    rw [pushAll]
    by_cases hle : syms.length + parse.stack.length ≤ LL_STACK_SIZE
    · rw [pushAll_of_le parse syms hle]
      show llPush _ sym = _
      rw [llPush, if_neg]
      rw [List.length_append]
      omega
    · by_cases hs : syms = []
      · subst hs
        show llPush _ sym = _
        rw [llPush, if_neg]
        rw [List.length_nil] at hle
        omega
      · rw [ih hs (by omega)]
        rfl

theorem llRules_ne_nil {top sym : Sym} (h : llTable top sym ≠ 0) : llRules (llTable top sym) ≠ [] := by
  revert top sym
  decide

/-- **The loop of `ll_parse`**, where the stack is high enough. -/
theorem llLoop_eq {n : ℕ} (h : (course n parse.stack tok.sym).peak ≤ LL_STACK_SIZE) :
    llLoop ops n parse tok =
      llActions ops (course n parse.stack tok.sym).rules parse.heap parse.build tok >>= fun hb =>
        llFinish { parse with heap := hb.1, build := hb.2 } (course n parse.stack tok.sym).verdict := by
  induction n generalizing parse with
  | zero => rfl
  | succ n ih =>
    rw [llLoop]
    cases hs : parse.stack with
    | nil =>
      simp only [course, llActions, llFinish]
      rw [← hs]
      rfl
    | cons top stack =>
      rw [hs] at h
      simp only [course] at h ⊢
      by_cases htop : top = tok.sym
      · simp only [if_pos htop, llActions, llFinish]
        rfl
      by_cases ht : llTable top tok.sym = 0
      · simp only [if_neg htop, if_pos ht, llActions, llFinish]
        rfl
      simp only [if_neg htop, if_neg ht, Course.after, llActions] at h ⊢
      rw [max_le_iff] at h
      cases hact : llAction ops (llTable top tok.sym) parse.heap parse.build tok with
      | error f => rfl
      | ok hb =>
        obtain ⟨hp, build⟩ := hb
        have hpush := pushAll_of_le { parse with stack := stack, heap := hp, build := build }
          (llRules (llTable top tok.sym)) (by simpa using h.1)
        show (pushAll _ _ >>= fun parse => llLoop ops n parse tok) = _
        rw [hpush]
        exact ih h.2

/-- **Where the stack is not high enough**, no action comes to the rescue. -/
theorem llLoop_overflow {n : ℕ} (h : LL_STACK_SIZE < (course n parse.stack tok.sym).peak) :
    (∀ parse', llLoop ops n parse tok ≠ .ok parse') ∧
      ((∀ rules, rules <+: (course n parse.stack tok.sym).rules →
          ∃ hb, llActions ops rules parse.heap parse.build tok = .ok hb) →
        llLoop ops n parse tok = .error .overflow) := by
  induction n generalizing parse with
  | zero => exact absurd h (Nat.not_lt_zero _)
  | succ n ih =>
    rw [llLoop]
    cases hs : parse.stack with
    | nil =>
      rw [hs] at h
      exact absurd h (Nat.not_lt_zero _)
    | cons top stack =>
      rw [hs] at h
      simp only [course] at h ⊢
      by_cases htop : top = tok.sym
      · rw [if_pos htop] at h
        exact absurd h (Nat.not_lt_zero _)
      by_cases ht : llTable top tok.sym = 0
      · rw [if_neg htop, if_pos ht] at h
        exact absurd h (Nat.not_lt_zero _)
      simp only [if_neg htop, if_neg ht, Course.after] at h ⊢
      cases hact : llAction ops (llTable top tok.sym) parse.heap parse.build tok with
      | error f =>
        refine ⟨(fun _ heq => nomatch heq), fun hacts => ?_⟩
        obtain ⟨hb, hone⟩ := hacts [llTable top tok.sym] (by simp)
        rw [llActions, hact] at hone
        cases hone
      | ok hb =>
        obtain ⟨hp, build⟩ := hb
        show (∀ parse', (pushAll _ _ >>= fun parse => llLoop ops n parse tok) ≠ .ok parse') ∧
          (_ → (pushAll _ _ >>= fun parse => llLoop ops n parse tok) = .error .overflow)
        by_cases hle : (llRules (llTable top tok.sym)).length + stack.length ≤ LL_STACK_SIZE
        · rw [pushAll_of_le { parse with stack := stack, heap := hp, build := build } _ hle]
          have hpeak : LL_STACK_SIZE < (course n (llRules (llTable top tok.sym) ++ stack) tok.sym).peak := by
            rw [lt_max_iff, List.length_append] at h
            omega
          obtain ⟨hne, hover⟩ := @ih { parse with
            heap := hp, build := build, stack := llRules (llTable top tok.sym) ++ stack } hpeak
          refine ⟨hne, fun hacts => hover fun rules hr => ?_⟩
          obtain ⟨hb, hall⟩ := hacts (llTable top tok.sym :: rules) (List.cons_prefix_cons.2 ⟨rfl, hr⟩)
          rw [llActions, hact] at hall
          exact ⟨hb, hall⟩
        · rw [pushAll_of_gt { parse with stack := stack, heap := hp, build := build } _ (llRules_ne_nil ht)
            (Nat.lt_of_not_le hle)]
          exact ⟨(fun _ heq => nomatch heq), fun _ => rfl⟩

/-- A rule leads to a symbol of lower rank. -/
theorem llRules_rank : ∀ top sym : Sym, llTable top sym ≠ 0 →
    ∃ s ∈ (llRules (llTable top sym)).head?, rank s < rank top := by
  decide

/-- Five rounds are enough, as the rank of the symbol on top falls. -/
theorem course_not_endless {n : ℕ} {stack : List Sym} {sym : Sym} (hn : 0 < n)
    (h : ∀ top ∈ stack.head?, rank top < n) : (course n stack sym).verdict ≠ .endless := by
  induction n generalizing stack with
  | zero => exact absurd hn (lt_irrefl 0)
  | succ n ih =>
    cases stack with
    | nil => simp [course]
    | cons top stack =>
      rw [course]
      split_ifs with htop ht
      · simp
      · simp
      · obtain ⟨s, hs, hrank⟩ := llRules_rank top sym ht
        have htop := h top rfl
        refine ih (by omega) fun s' hs' => ?_
        rw [List.head?_append_of_ne_nil _ (llRules_ne_nil ht), hs] at hs'
        cases hs'
        omega

/-! ## What a token does to the parser -/

/-- The stack between documents. -/
def baseStack (multidoc : Bool) : List Sym := if multidoc then [.jsonDocument] else []

/-- What a token does to the stack. -/
def tokCourse (stack : List Sym) (sym : Sym) : Course := course 5 stack sym

theorem rank_lt_five : ∀ sym : Sym, rank sym < 5 := by
  decide

theorem tokCourse_not_endless (stack : List Sym) (sym : Sym) : (tokCourse stack sym).verdict ≠ .endless :=
  course_not_endless (by omega) fun top _ => rank_lt_five top

theorem llCycle_nil (hb : parse.build = []) (hs : parse.stack = []) :
    parse.llCycle = .ok { parse with stack := baseStack parse.multidoc } := by
  obtain ⟨heap, out, error, multidoc, build, stack, buf, lex, lexU, log⟩ := parse
  obtain rfl : build = [] := hb
  obtain rfl : stack = [] := hs
  cases multidoc <;> rfl

theorem llCycle_cons {n : V} {build : List V} (hb : parse.build = n :: build) (hs : parse.stack = []) :
    parse.llCycle = .ok { parse with
      build := build, stack := baseStack parse.multidoc, out := parse.out ++ [n]
      log := parse.log ++ [.document n] } := by
  obtain ⟨heap, out, error, multidoc, build', stack, buf, lex, lexU, log⟩ := parse
  obtain rfl : build' = n :: build := hb
  obtain rfl : stack = [] := hs
  cases multidoc <;> rfl

/-- What the parser is after a token that did what `c` says, `build` being
left by the actions. -/
inductive Parsed (parse : Parse H V) (tok : Token V) (c : Course) (heap : H) (build : List V) :
    Parse H V → Prop
  /-- The token is taken. -/
  | taken {stack : List Sym} : c.verdict = .accept stack → stack ≠ [] →
    Parsed parse tok c heap build { parse with
      heap := heap, build := build, stack := stack, log := parse.log ++ [.token tok] }
  /-- The token is the last of a document that has no value. -/
  | hollow : c.verdict = .accept [] → build = [] →
    Parsed parse tok c heap build { parse with
      heap := heap, build := build, stack := baseStack parse.multidoc, log := parse.log ++ [.token tok] }
  /-- The token is the last of a document. -/
  | document {n : V} {rest : List V} : c.verdict = .accept [] → build = n :: rest →
    Parsed parse tok c heap build { parse with
      heap := heap, build := rest, stack := baseStack parse.multidoc, out := parse.out ++ [n]
      log := parse.log ++ [.token tok] ++ [.document n] }
  /-- The token is an error. -/
  | error {e : ParseError} {stack : List Sym} : c.verdict = .reject e stack →
    Parsed parse tok c heap build { parse with
      heap := heap, build := build, stack := stack, error := some e
      log := parse.log ++ [.token tok] ++ [.error e] }

theorem llFinish_parsed (parse : Parse H V) (tok : Token V) {c : Course} (hc : c.verdict ≠ .endless) (heap : H) (build : List V) :
    ∃ parse₁, Parsed parse tok c heap build parse₁ ∧
      llFinish { parse with heap := heap, build := build, log := parse.log ++ [.token tok] } c.verdict =
        .ok parse₁ := by
  cases hv : c.verdict with
  | endless => exact absurd hv hc
  | reject e stack => exact ⟨_, .error hv, rfl⟩
  | accept stack =>
    by_cases hs : stack = []
    · subst hs
      simp only [llFinish, if_true]
      cases build with
      | nil => exact ⟨_, .hollow hv rfl, llCycle_nil rfl rfl⟩
      | cons n rest => exact ⟨_, .document hv rfl, llCycle_cons rfl rfl⟩
    · exact ⟨_, .taken hv hs, if_neg hs⟩

/-- **`ll_parse`**, where the stack is high enough. -/
theorem llParse_of_le (h : (tokCourse parse.stack tok.sym).peak ≤ LL_STACK_SIZE) {hb : H × List V}
    (hact : llActions ops (tokCourse parse.stack tok.sym).rules parse.heap parse.build tok = .ok hb) :
    ∃ parse₁, Parsed parse tok (tokCourse parse.stack tok.sym) hb.1 hb.2 parse₁ ∧
      parse.llParse ops tok = parse₁.llTokenFree ops tok := by
  obtain ⟨parse₁, hparsed, hfin⟩ :=
    llFinish_parsed parse tok (tokCourse_not_endless parse.stack tok.sym) hb.1 hb.2
  refine ⟨parse₁, hparsed, ?_⟩
  unfold llParse
  rw [@llLoop_eq _ _ ops { parse with log := parse.log ++ [.token tok] } tok 5 h]
  unfold tokCourse at hact hfin
  simp only [hact, bind, Except.bind]
  rw [hfin]

/-- The actions of the first of some rules are taken if all are. -/
theorem llActions_prefix {rules rules' : List ℕ} (hpre : rules' <+: rules) {h : H} {build : List V}
    {hb : H × List V} (hact : llActions ops rules h build tok = .ok hb) :
    ∃ hb', llActions ops rules' h build tok = .ok hb' := by
  induction rules' generalizing rules h build with
  | nil => exact ⟨(h, build), rfl⟩
  | cons rule rules' ih =>
    obtain ⟨rest, rfl⟩ := hpre
    rw [List.cons_append, llActions] at hact
    rw [llActions]
    cases hone : llAction ops rule h build tok with
    | error f =>
      rw [hone] at hact
      cases hact
    | ok hb₁ =>
      rw [hone] at hact
      exact ih (List.prefix_append _ _) hact

/-- **`ll_parse`**, where the stack is not high enough. -/
theorem llParse_overflow (h : LL_STACK_SIZE < (tokCourse parse.stack tok.sym).peak) {hb : H × List V}
    (hact : llActions ops (tokCourse parse.stack tok.sym).rules parse.heap parse.build tok = .ok hb) :
    parse.llParse ops tok = .error .overflow := by
  have hover := (@llLoop_overflow _ _ ops { parse with log := parse.log ++ [.token tok] } tok 5 h).2
  unfold llParse
  rw [hover fun rules hpre => llActions_prefix hpre hact]
  rfl

/-- A token that is parsed finds the stack high enough. -/
theorem llParse_ok (h : parse.llParse ops tok = .ok parse') :
    (tokCourse parse.stack tok.sym).peak ≤ LL_STACK_SIZE ∧ ∃ hb,
      llActions ops (tokCourse parse.stack tok.sym).rules parse.heap parse.build tok = .ok hb := by
  have hpeak : (tokCourse parse.stack tok.sym).peak ≤ LL_STACK_SIZE := by
    by_contra hgt
    have hover := (@llLoop_overflow _ _ ops { parse with log := parse.log ++ [.token tok] } tok 5
      (Nat.lt_of_not_le hgt)).1
    unfold llParse at h
    cases hloop : llLoop ops 5 { parse with log := parse.log ++ [.token tok] } tok with
    | ok parse₁ => exact hover parse₁ hloop
    | error f =>
      rw [hloop] at h
      cases h
  refine ⟨hpeak, ?_⟩
  cases hact : llActions ops (tokCourse parse.stack tok.sym).rules parse.heap parse.build tok with
  | ok hb => exact ⟨hb, rfl⟩
  | error f =>
    unfold llParse at h
    rw [@llLoop_eq _ _ ops { parse with log := parse.log ++ [.token tok] } tok 5 hpeak] at h
    unfold tokCourse at hact
    simp only [hact, bind, Except.bind] at h
    cases h

/-- **What `ll_parse` does**, whenever it comes to an end. -/
theorem llParse_parsed (h : parse.llParse ops tok = .ok parse') : ∃ hb parse₁ heap,
    llActions ops (tokCourse parse.stack tok.sym).rules parse.heap parse.build tok = .ok hb ∧
      Parsed parse tok (tokCourse parse.stack tok.sym) hb.1 hb.2 parse₁ ∧
      parse' = { parse₁ with heap := heap } := by
  obtain ⟨hpeak, hb, hact⟩ := llParse_ok h
  obtain ⟨parse₁, hparsed, hrun⟩ := llParse_of_le hpeak hact
  rw [hrun, llTokenFree] at h
  refine ⟨hb, parse₁, parse'.heap, hact, hparsed, ?_⟩
  cases hval : tok.val with
  | none =>
    rw [hval] at h
    cases h
    rfl
  | some val =>
    rw [hval] at h
    cases hdec : ops.decref parse₁.heap val with
    | error f =>
      simp only [hdec, bind, Except.bind] at h
      cases h
    | ok heap =>
      simp only [hdec, bind, Except.bind] at h
      cases h
      rfl

end Parse

end Json

end Mowgli
