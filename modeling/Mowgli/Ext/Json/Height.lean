import Mathlib.Logic.Relation
import Mowgli.Ext.Json.Nesting
/-!
# The height of the stack

While tokens are taken without an error, there are at most two symbols more
on the stack than containers that are open, and three more while a token is
parsed: an object that waits for a name has one symbol for itself, and four
when the name is there. The bounds are on the symbols alone, with a stack
that has no end (`course`), so they hold up to a token there is no room for.
-/

namespace Mowgli

namespace Json

section

variable {stack rest : List Sym} {sym : Sym} {F : List (Frame Value)} {n m : ℕ}

/-! ## One token -/

theorem depthAfter_mono (h : n ≤ m) (sym : Sym) : depthAfter sym n ≤ depthAfter sym m := by
  cases sym <;> simp only [depthAfter] <;> omega

theorem le_depthAfter (n : ℕ) (sym : Sym) : n ≤ depthAfter sym n + 1 := by
  cases sym <;> simp only [depthAfter] <;> omega

/-- Between two tokens. -/
theorem Ready.length_le (h : Ready stack F) : stack.length ≤ F.length + 2 := by
  cases h with
  | document => exact Nat.le_succ _
  | done => exact Nat.zero_le _
  | object | name | colon | array =>
    simp only [tails, List.length_cons, List.length_map]
    omega

/-- What is below a container is the stack after a value in it. -/
theorem ready_tails (hw : ∀ f ∈ F, f.Waits) (hne : tails F ≠ []) :
    ∃ F' : List (Frame Value), Ready (tails F) F' ∧ F'.length = F.length :=
  ⟨addValue .null F, ready_addValue (fun hnil => hne (by rw [hnil]; rfl)) hw, length_addValue⟩

/-- A token that is expected. -/
theorem Move.height {act : Unit → List Value → Token Value → Except Fault (Unit × List Value)} {peak : ℕ}
    (hm : Move valueOps F sym rest peak act) : peak ≤ depthAfter sym F.length + 3 ∧
      (rest ≠ [] → ∃ F' : List (Frame Value), Ready rest F' ∧ F'.length = depthAfter sym F.length) := by
  cases hm with
  | openObject hw =>
    exact ⟨by simp only [depthAfter]; omega, fun _ => ⟨_, .object (m := []) (by decide) hw, rfl⟩⟩
  | openArray hw =>
    exact ⟨by simp only [depthAfter]; omega, fun _ => ⟨_, .array (l := []) (by decide) hw, rfl⟩⟩
  | scalar hmem _ hw =>
    have hsame : depthAfter sym F.length = F.length := by
      simp only [List.mem_cons, List.not_mem_nil, or_false] at hmem
      rcases hmem with rfl | rfl | rfl <;> rfl
    rw [hsame]
    exact ⟨by omega, ready_tails hw⟩
  | @name members F hw => exact ⟨le_rfl, fun _ => ⟨_, @Ready.name _ members .null F hw, rfl⟩⟩
  | closeObject hw | closeArray hw => exact ⟨by simp only [depthAfter, List.length_cons]; omega, ready_tails hw⟩
  | @colon members name F hw => exact ⟨Nat.zero_le _, fun _ => ⟨_, @Ready.colon _ members name F hw, rfl⟩⟩
  | @objComma members F hw =>
    exact ⟨by simp only [depthAfter, List.length_cons]; omega, fun _ => ⟨_, .object (m := members) (by decide) hw, rfl⟩⟩
  | @arrComma elements F hw =>
    exact ⟨by simp only [depthAfter, List.length_cons]; omega, fun _ => ⟨_, .array (l := elements) (by decide) hw, rfl⟩⟩

/-- A symbol that no token has is in no column of the table. -/
theorem llTable_of_notMem : ∀ top sym : Sym, sym ∉ tokenSyms → llTable top sym = 0 := by
  decide

/-- **What a token does to the height**, whatever symbol it has. -/
theorem Ready.step (h : Ready stack F) (sym : Sym) :
    (Parse.tokCourse stack sym).peak ≤ depthAfter sym F.length + 3 ∧
      ∀ rest, (Parse.tokCourse stack sym).verdict = .accept rest → rest ≠ [] →
        ∃ F' : List (Frame Value), Ready rest F' ∧ F'.length ≤ depthAfter sym F.length := by
  by_cases hsym : sym ∈ tokenSyms
  · rcases h.turn valueOps hsym with ⟨e, rest, hc⟩ | ⟨rest, peak, act, hm, hv, hpeak, -⟩
    · rw [hc]
      exact ⟨Nat.zero_le _, fun _ hv => absurd hv (by simp)⟩
    · obtain ⟨hle, hready⟩ := hm.height
      refine ⟨hpeak ▸ hle, fun rest' hv' hne => ?_⟩
      obtain rfl := Verdict.accept.inj (hv.symm.trans hv')
      obtain ⟨F', hF', hlen⟩ := hready hne
      exact ⟨F', hF', hlen.le⟩
  · -- the symbol on top is the token itself, or an error
    rcases stack with _ | ⟨top, σ⟩
    · exact ⟨Nat.zero_le _, fun _ hv => absurd hv (by simp [Parse.tokCourse, course])⟩
    rw [Parse.tokCourse, course, if_pos (llTable_of_notMem top sym hsym)]
    split_ifs with htop
    · refine ⟨Nat.zero_le _, fun rest hv hne => ?_⟩
      obtain rfl : σ = rest := Verdict.accept.inj hv
      subst htop
      have hle := le_depthAfter F.length top
      cases h with
      | document => exact absurd rfl hne
      | object _ hw | array _ hw =>
        obtain ⟨F', hF', hlen⟩ := ready_tails hw hne
        rw [List.length_cons] at hle ⊢
        exact ⟨F', hF', by omega⟩
      | name => exact absurd (by decide) hsym
      | @colon members name F hw => exact ⟨_, .object (m := members) (by decide) hw, le_rfl⟩
    · exact ⟨Nat.zero_le _, fun _ hv => absurd hv (by simp)⟩

end

namespace Parse

variable {H V : Type} {ops : JsonOps H V} {parse parse' parse₁ : Parse H V} {tok : Token V} {toks : List (Token V)}

/-! ## The rounds of the loop -/

/-- A round of the loop of `ll_parse` that applies a rule. -/
def Round (ops : JsonOps H V) (tok : Token V) (parse parse' : Parse H V) : Prop :=
  ∃ top σ h build, parse.stack = top :: σ ∧ top ≠ tok.sym ∧ llTable top tok.sym ≠ 0 ∧
    llAction ops (llTable top tok.sym) parse.heap parse.build tok = .ok (h, build) ∧
    { parse with stack := σ, heap := h, build := build }.pushAll (llRules (llTable top tok.sym)) = .ok parse'

/-- The most symbols there are on the stack while a token is parsed. -/
def heightDuring (stack : List Sym) (sym : Sym) : ℕ := max stack.length (tokCourse stack sym).peak

theorem Round.stack (hr : Round ops tok parse parse') :
    ∃ top σ, parse.stack = top :: σ ∧ top ≠ tok.sym ∧ llTable top tok.sym ≠ 0 ∧
      parse'.stack = llRules (llTable top tok.sym) ++ σ := by
  obtain ⟨top, σ, h, build, hs, htop, ht, -, hpush⟩ := hr
  refine ⟨top, σ, hs, htop, ht, ?_⟩
  by_cases hle : (llRules (llTable top tok.sym)).length + σ.length ≤ LL_STACK_SIZE
  · rw [pushAll_of_le { parse with stack := σ, heap := h, build := build } _ hle] at hpush
    cases hpush
    rfl
  · rw [pushAll_of_gt { parse with stack := σ, heap := h, build := build } _ (llRules_ne_nil ht) (not_le.1 hle)] at hpush
    cases hpush

/-- In no round there are more symbols on the stack than `heightDuring`. -/
theorem length_le_heightDuring (hr : Relation.ReflTransGen (Round ops tok) parse parse') :
    parse'.stack.length ≤ heightDuring parse.stack tok.sym := by
  -- the rank of the top falls, so there are rounds left in `course`
  have hinv : ∃ n, (∀ top ∈ parse'.stack.head?, rank top < n) ∧
      max parse'.stack.length (course n parse'.stack tok.sym).peak ≤ heightDuring parse.stack tok.sym := by
    induction hr with
    | refl => exact ⟨5, fun top _ => rank_lt_five top, le_rfl⟩
    | tail _ hround ih =>
      obtain ⟨n, hrank, hle⟩ := ih
      obtain ⟨top, σ, hs, htop, ht, hs'⟩ := hround.stack
      have hlt := hrank top (by rw [hs]; rfl)
      obtain ⟨k, rfl⟩ := Nat.exists_eq_succ_of_ne_zero (show n ≠ 0 by omega)
      rw [hs, course, if_neg htop, if_neg ht, Course.after] at hle
      obtain ⟨s, hmem, hless⟩ := llRules_rank top tok.sym ht
      refine ⟨k, fun top' htop' => ?_, ?_⟩
      · rw [hs', List.head?_append_of_ne_nil _ (llRules_ne_nil ht), hmem] at htop'
        cases htop'
        omega
      · rw [hs']
        exact (le_max_right _ _).trans hle
  obtain ⟨n, -, hle⟩ := hinv
  exact (le_max_left _ _).trans hle

/-! ## Runs -/

/-- Tokens are fed to `ll_parse`, and none is an error. -/
inductive Takes (ops : JsonOps H V) (parse : Parse H V) : List (Token V) → Parse H V → Prop
  | nil : Takes ops parse [] parse
  | snoc {toks : List (Token V)} {tok : Token V} {parse₁ parse₂ : Parse H V} : Takes ops parse toks parse₁ →
    parse₁.llParse ops tok = .ok parse₂ → parse₂.error = none → Takes ops parse (toks ++ [tok]) parse₂

/-- How many containers are open after some tokens. -/
def tokDepth (toks : List (Token V)) : ℕ := toks.foldl (fun n tok => depthAfter tok.sym n) 0

theorem tokDepth_snoc (toks : List (Token V)) (tok : Token V) :
    tokDepth (toks ++ [tok]) = depthAfter tok.sym (tokDepth toks) := by
  rw [tokDepth, List.foldl_append]
  rfl

/-- The shape of the stack after some tokens. -/
theorem Takes.ready (hs : parse.stack = [.jsonDocument]) (ht : Takes ops parse toks parse') :
    ∃ F : List (Frame Value), Ready parse'.stack F ∧ F.length ≤ tokDepth toks := by
  induction ht with
  | nil => exact ⟨[], hs ▸ .document, le_rfl⟩
  | @snoc toks tok parse₁ parse₂ _ hrun herr ih =>
    obtain ⟨F, hF, hdepth⟩ := ih
    obtain ⟨-, hstep⟩ := hF.step tok.sym
    obtain ⟨hb, parse₃, heap, -, hparsed, rfl⟩ := llParse_parsed hrun
    rw [tokDepth_snoc]
    have hbase : Ready (baseStack parse₁.multidoc) ([] : List (Frame Value)) := by
      cases parse₁.multidoc
      · exact .done
      · exact .document
    cases hparsed with
    | taken hv hne =>
      obtain ⟨F', hF', hlen⟩ := hstep _ hv hne
      exact ⟨F', hF', hlen.trans (depthAfter_mono hdepth tok.sym)⟩
    | hollow | document => exact ⟨[], hbase, Nat.zero_le _⟩
    | error => cases herr

/-- **The height of the stack**: after tokens of which none was an error, it
is at most two more than the containers that are open; while the next token
is parsed, at most three more than those that are open with it. So there is
room for every text that is not nested deeper than 125 containers. -/
theorem stack_bounded (ops : JsonOps H V) (fresh : Parse H V) (hs : fresh.stack = [.jsonDocument]) :
    (∀ toks parse, Takes ops fresh toks parse →
      parse.stack.length ≤ tokDepth toks + 2 ∧
        ∀ tok : Token V, heightDuring parse.stack tok.sym ≤ tokDepth (toks ++ [tok]) + 3 ∧
          ∀ parse', Relation.ReflTransGen (Round ops tok) parse parse' →
            parse'.stack.length ≤ tokDepth (toks ++ [tok]) + 3) ∧
    ∀ (parse : Parser) (data : List UInt8), parse.Fresh → nesting data ≤ 125 →
      ∃ parse', parse.parseData valueOps data = .ok parse' := by
  refine ⟨fun toks parse ht => ?_, fun parse data hfresh hn => hfresh.parseData_ok hn⟩
  obtain ⟨F, hF, hdepth⟩ := ht.ready hs
  have hlen := hF.length_le
  refine ⟨by omega, fun tok => ?_⟩
  have hduring : heightDuring parse.stack tok.sym ≤ tokDepth (toks ++ [tok]) + 3 := by
    obtain ⟨hpeak, -⟩ := hF.step tok.sym
    have hmono := depthAfter_mono hdepth tok.sym
    have hle := le_depthAfter F.length tok.sym
    rw [tokDepth_snoc, heightDuring, max_le_iff]
    omega
  exact ⟨hduring, fun parse' hr => (length_le_heightDuring hr).trans hduring⟩

/-- A name in an object: the bounds are reached. -/
theorem stack_bounded_name :
    (create () false : Parser).stack = [.jsonDocument] ∧ ∃ parse parse' : Parser,
      Takes valueOps (create () false) [⟨.beginObject, none⟩, ⟨.string, some (.string [])⟩] parse ∧
        parse.stack.length = 1 + 2 ∧ parse.stack.length ≤ 1 + 2 ∧
        (create () false).parseData valueOps (chars "[]") = .ok parse' := by
  have hbound := stack_bounded valueOps (create () false : Parser) rfl
  have hrun : ∃ parse, Takes valueOps (create () false) [⟨.beginObject, none⟩, ⟨.string, some (.string [])⟩] parse ∧
      parse.stack.length = 1 + 2 := ⟨_, .snoc (.snoc .nil rfl rfl) rfl rfl, rfl⟩
  obtain ⟨parse, htakes, hheight⟩ := hrun
  obtain ⟨parse', hdata⟩ := hbound.2 (create () false) (chars "[]") ⟨rfl, rfl, rfl, rfl, rfl, rfl, rfl⟩ (by decide)
  exact ⟨rfl, parse, parse', htakes, hheight, (hbound.1 _ _ htakes).1, hdata⟩

end Parse

end Json

end Mowgli
