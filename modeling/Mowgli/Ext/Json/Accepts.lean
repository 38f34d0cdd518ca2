import Mathlib.Tactic.IntervalCases
import Mowgli.Ext.Json.Derives
import Mowgli.Ext.Json.Errors
import Mowgli.Library.Predictive
/-!
# The parser takes what the grammar derives

The stack and the build list of the parser are a predictive parser.
What a symbol derives is taken from the top of the stack, and leaves its
meaning on the build list: a value is put there, and what is left of an
object or an array makes, with what there is of it already, a value.
-/

namespace Mowgli

namespace Json

open Predictive

/-- The stack and the build list, as a predictive parser. -/
def predictor : Predictive Sym Terminal ℕ (List Value) where
  sym := Terminal.sym
  table top sym := if llTable top sym = 0 then none else some (llTable top sym)
  rhs := llRules
  act rule build t := (Parse.llAction valueOps rule () build t.token).toOption.map Prod.snd

/-- The members of an object on the build list. -/
def membersBuild (m : List (List UInt8 × Value)) : List Value :=
  m.reverse.flatMap fun e => [e.2, .string e.1]

/-- What a meaning makes of the build list. -/
inductive Builds : Meaning → List Value → List Value → Prop
  | value {v : Value} {b : List Value} : Builds (.value v) b (v :: b)
  | member {name : List UInt8} {v : Value} {b : List Value} :
      Builds (.member name v) b (v :: .string name :: b)
  | members {m₀ m : List (List UInt8 × Value)} {b : List Value} : (∀ e ∈ m₀, ¬ e.2.IsMarker) →
      Builds (.members m) (membersBuild m₀ ++ .objStart :: b) (.object (objectOf (m₀ ++ m)) :: b)
  | elements {l₀ l : List Value} {b : List Value} : (∀ v ∈ l₀, ¬ v.IsMarker) →
      Builds (.elements l) (l₀.reverse ++ .arrStart :: b) (.array (l₀ ++ l) :: b)

/-! ## The actions on trees -/

theorem Value.isObjStart_of_not_marker {v : Value} (h : ¬ v.IsMarker) : valueOps.isObjStart v = false := by
  cases v <;> first | rfl | exact absurd trivial h

theorem Value.isArrStart_of_not_marker {v : Value} (h : ¬ v.IsMarker) : valueOps.isArrStart v = false := by
  cases v <;> first | rfl | exact absurd trivial h

/-- The loop of `ll_act_obj_end` on the members of an object. -/
theorem objEndLoop_members {r : List (List UInt8 × Value)} (h : ∀ e ∈ r, ¬ e.2.IsMarker)
    (o : List (CString × Value)) (b : List Value) :
    Parse.objEndLoop valueOps () (.object o) (r.flatMap (fun e => [e.2, .string e.1]) ++ .objStart :: b) =
      .ok (.object (r.foldl (fun o e => memberAdd (Parse.cString e.1) e.2 o) o), (), b) := by
  induction r generalizing o with
  | nil =>
    cases b <;> rfl
  | cons e r ih =>
    obtain ⟨name, v⟩ := e
    have hv := Value.isObjStart_of_not_marker (h _ List.mem_cons_self)
    have hkey : valueOps.isObjStart (.string name) = false := rfl
    show Parse.objEndLoop valueOps () (.object o) (v :: .string name :: (_ ++ .objStart :: b)) = _
    rw [Parse.objEndLoop, hv, hkey]
    exact ih (fun e he => h e (List.mem_cons_of_mem _ he)) _

theorem llActObjEnd_members {m : List (List UInt8 × Value)} (h : ∀ e ∈ m, ¬ e.2.IsMarker) (b : List Value) :
    Parse.llActObjEnd valueOps () (membersBuild m ++ .objStart :: b) =
      .ok ((), .object (objectOf m) :: b) := by
  have hloop := objEndLoop_members (fun e he => h e (List.mem_reverse.1 he)) [] b
  rw [List.foldl_reverse] at hloop
  unfold Parse.llActObjEnd
  show (Parse.objEndLoop valueOps () (.object []) _ >>= _) = _
  rw [membersBuild, hloop]
  rfl

/-- The loop of `ll_act_arr_end` on the elements of an array. -/
theorem arrEndLoop_elements {r : List Value} (h : ∀ v ∈ r, ¬ v.IsMarker) (l b : List Value) :
    Parse.arrEndLoop valueOps () (.array l) (r ++ .arrStart :: b) = .ok (.array (r.reverse ++ l), (), b) := by
  induction r generalizing l with
  | nil => rfl
  | cons v r ih =>
    have hv := Value.isArrStart_of_not_marker (h v List.mem_cons_self)
    rw [List.cons_append, Parse.arrEndLoop, hv, List.reverse_cons, List.append_assoc]
    exact ih (fun v hv => h v (List.mem_cons_of_mem _ hv)) (v :: l)

theorem llActArrEnd_elements {l : List Value} (h : ∀ v ∈ l, ¬ v.IsMarker) (b : List Value) :
    Parse.llActArrEnd valueOps () (l.reverse ++ .arrStart :: b) = .ok ((), .array l :: b) := by
  have hloop := arrEndLoop_elements (fun v hv => h v (List.mem_reverse.1 hv)) [] b
  rw [List.reverse_reverse, List.append_nil] at hloop
  unfold Parse.llActArrEnd
  show (Parse.arrEndLoop valueOps () (.array []) _ >>= _) = _
  rw [hloop]
  rfl

/-! ## What is derived is taken -/

variable {s top : Sym} {t : Terminal} {ts us : List Terminal} {m : Meaning} {σ σ' : List Sym} {b b₁ b' : List Value}

theorem llTable_terminal : ∀ t : Terminal, ∀ s, llTable t.sym s = 0 := by
  intro t s
  cases t <;> rfl

/-- A rule that is in the table, with its action. -/
theorem feeds_rule (rule : ℕ) (b₁ : List Value) (ht : llTable top t.sym = rule) (h0 : rule ≠ 0)
    (hact : Parse.llAction valueOps rule () b t.token = .ok ((), b₁))
    (h : predictor.Feeds (llRules rule ++ σ) b₁ (t :: ts) σ' b') :
    predictor.Feeds (top :: σ) b (t :: ts) σ' b' := by
  refine .rule (r := rule) ?_ ?_ ?_ h
  · rintro rfl
    exact h0 (ht.symm.trans (llTable_terminal t _))
  · show (if llTable top t.sym = 0 then none else some (llTable top t.sym)) = some rule
    rw [ht, if_neg h0]
  · show (Parse.llAction valueOps rule () b t.token).toOption.map Prod.snd = some b₁
    rw [hact]
    rfl

/-- A terminal that is on the stack. -/
theorem feeds_take (htop : top = t.sym) (h : predictor.Feeds σ b ts σ' b') :
    predictor.Feeds (top :: σ) b (t :: ts) σ' b' :=
  .take htop h

/-- A rule that the table has wherever a derivation begins, and that has no
action. -/
theorem Derives.feeds_rule (rule : ℕ) (hd : Derives s ts m) (h0 : rule ≠ 0)
    (ht : ∀ x : Sym, llTable s x ≠ 0 → llTable top x = rule)
    (hact : ∀ t : Terminal, Parse.llAction valueOps rule () b t.token = .ok ((), b))
    (h : predictor.Feeds (llRules rule ++ σ) b (ts ++ us) σ' b') :
    predictor.Feeds (top :: σ) b (ts ++ us) σ' b' := by
  obtain ⟨t, ts', rfl, hne⟩ := hd.first
  exact Json.feeds_rule rule b (ht _ hne) h0 (hact t) h

/-- **Completeness.** What a symbol derives is taken from the top of the
stack, and its meaning is built. -/
theorem Derives.feeds (hd : Derives s ts m) (hb : Builds m b b₁) (h : predictor.Feeds σ b₁ us σ' b') :
    predictor.Feeds (s :: σ) b (ts ++ us) σ' b' := by
  induction hd generalizing b b₁ σ us with
  | rule1 hd ih => exact hd.feeds_rule 1 (by decide) (by decide) (fun _ => rfl) (ih hb h)
  | rule2 hd ih => exact hd.feeds_rule 2 (by decide) (by decide) (fun _ => rfl) (ih hb h)
  | rule3 hd ih => exact hd.feeds_rule 3 (by decide) (by decide) (fun _ => rfl) (ih hb h)
  | rule4 hd ih => exact hd.feeds_rule 4 (by decide) (by decide) (fun _ => rfl) (ih hb h)
  | rule5 =>
    cases hb
    exact Json.feeds_rule 5 _ rfl (by decide) rfl (feeds_take rfl h)
  | @rule6 t v hs hv =>
    cases hb
    refine Json.feeds_rule 6 (v :: b) (by rw [hs]; rfl) (by decide) ?_ (feeds_take hs.symm h)
    simp [Parse.llAction, Parse.llActEcho, Terminal.token, hv, valueOps, bind, Except.bind]
  | @rule7 t v hs hv =>
    cases hb
    refine Json.feeds_rule 7 (v :: b) (by rw [hs]; rfl) (by decide) ?_ (feeds_take hs.symm h)
    simp [Parse.llAction, Parse.llActEcho, Terminal.token, hv, valueOps, bind, Except.bind]
  | rule8 hd ho ih =>
    cases hb
    rw [objectOf_iff] at ho
    subst ho
    refine Json.feeds_rule 8 (.objStart :: b) rfl (by decide) rfl (feeds_take rfl ?_)
    exact ih (@Builds.members [] _ _ fun _ he => absurd he List.not_mem_nil) h
  | rule9 =>
    cases hb with
    | members hm₀ =>
      rw [List.append_nil] at h
      exact Json.feeds_rule 9 _ rfl (by decide) (llActObjEnd_members hm₀ _) (feeds_take rfl h)
  | rule10 hd ih => exact hd.feeds_rule 10 (by decide) (by decide) (fun _ => rfl) (ih hb h)
  | @rule11 ts us name v m hd hd' ih ih' =>
    rw [List.append_assoc]
    refine hd.feeds_rule 11 (by decide) (by decide) (fun _ => rfl) ?_
    cases hb with
    | @members m₀ _ b hm₀ =>
      refine ih .member ?_
      have hv : ¬ v.IsMarker := by
        cases hd with
        | rule14 hd => exact hd.not_marker
      have hbuild : v :: .string name :: (membersBuild m₀ ++ .objStart :: b) =
          membersBuild (m₀ ++ [(name, v)]) ++ .objStart :: b := by
        simp [membersBuild]
      rw [hbuild]
      refine ih' (.members fun e he => ?_) (by simpa using h)
      rcases List.mem_append.1 he with he | he
      · exact hm₀ e he
      · rw [List.mem_singleton.1 he]
        exact hv
  | rule12 hd ih => exact Json.feeds_rule 12 _ rfl (by decide) rfl (feeds_take rfl (ih hb h))
  | rule13 =>
    cases hb with
    | members hm₀ =>
      rw [List.append_nil] at h
      exact Json.feeds_rule 13 _ rfl (by decide) (llActObjEnd_members hm₀ _) (feeds_take rfl h)
  | @rule14 ts name v hd ih =>
    cases hb
    refine Json.feeds_rule 14 (.string name :: b) rfl (by decide) rfl (feeds_take rfl (feeds_take rfl ?_))
    exact ih .value h
  | rule15 hd ih =>
    cases hb
    refine Json.feeds_rule 15 (.arrStart :: b) rfl (by decide) rfl (feeds_take rfl ?_)
    exact ih (@Builds.elements [] _ _ fun _ he => absurd he List.not_mem_nil) h
  | rule16 =>
    cases hb with
    | elements hl₀ =>
      rw [List.append_nil] at h
      exact Json.feeds_rule 16 _ rfl (by decide) (llActArrEnd_elements hl₀ _) (feeds_take rfl h)
  | rule17 hd ih => exact hd.feeds_rule 17 (by decide) (by decide) (fun _ => rfl) (ih hb h)
  | @rule18 ts us v l hd hd' ih ih' =>
    rw [List.append_assoc]
    refine hd.feeds_rule 18 (by decide) (by decide) (fun _ => rfl) ?_
    cases hb with
    | @elements l₀ _ b hl₀ =>
      refine ih .value ?_
      have hbuild : v :: (l₀.reverse ++ .arrStart :: b) = (l₀ ++ [v]).reverse ++ .arrStart :: b := by
        simp
      rw [hbuild]
      refine ih' (.elements fun w hw => ?_) (by simpa using h)
      rcases List.mem_append.1 hw with hw | hw
      · exact hl₀ w hw
      · rw [List.mem_singleton.1 hw]
        exact hd.not_marker
  | rule19 hd ih => exact Json.feeds_rule 19 _ rfl (by decide) rfl (feeds_take rfl (ih hb h))
  | rule20 =>
    cases hb with
    | elements hl₀ =>
      rw [List.append_nil] at h
      exact Json.feeds_rule 20 _ rfl (by decide) (llActArrEnd_elements hl₀ _) (feeds_take rfl h)

/-! ## What is taken is derived -/

/-- What a symbol derives, a terminal itself. -/
def Grows (s : Sym) (ts : List Terminal) : Prop := (∃ t : Terminal, s = t.sym ∧ ts = [t]) ∨ ∃ m, Derives s ts m

theorem Grows.terminal (h : Grows s ts) (hs : ∀ x, llTable s x = 0) : ∃ t : Terminal, s = t.sym ∧ ts = [t] := by
  rcases h with h | ⟨m, hd⟩
  · exact h
  · obtain ⟨t, us, -, hne⟩ := hd.first
    exact absurd (hs t.sym) hne

theorem Grows.derives (x : Sym) (h : Grows s ts) (hx : llTable s x ≠ 0) : ∃ m, Derives s ts m := by
  rcases h with ⟨t, rfl, -⟩ | h
  · exact absurd (llTable_terminal t x) hx
  · exact h

/-- The symbol that a rule is for. -/
def ruleFor : ℕ → Sym
  | 1 | 2 => .jsonDocument
  | 3 | 4 | 5 | 6 | 7 => .value
  | 8 => .object
  | 9 | 10 => .objBody
  | 11 => .objElems
  | 12 | 13 => .objTail
  | 14 => .objElem
  | 15 => .array
  | 16 | 17 => .arrBody
  | 18 => .arrElems
  | 19 | 20 => .arrTail
  | _ => .none

theorem llTable_ruleFor : ∀ top x : Sym, llTable top x ≠ 0 →
    ruleFor (llTable top x) = top ∧ llTable top x ∈ List.range' 1 20 := by
  decide

section

variable (h : Grows s ts)
include h

theorem Grows.value (hs : s ∈ [Sym.jsonDocument, .value, .object, .array]) : ∃ v, Derives s ts (.value v) := by
  simp only [List.mem_cons, List.not_mem_nil, or_false] at hs
  rcases hs with rfl | rfl | rfl | rfl
  · obtain ⟨m, hd⟩ := h.derives .beginObject (by decide)
    cases hd with
    | rule1 hd => exact ⟨_, .rule1 hd⟩
    | rule2 hd => exact ⟨_, .rule2 hd⟩
  · obtain ⟨m, hd⟩ := h.derives .beginObject (by decide)
    cases hd with
    | rule3 hd => exact ⟨_, .rule3 hd⟩
    | rule4 hd => exact ⟨_, .rule4 hd⟩
    | rule5 => exact ⟨_, .rule5⟩
    | rule6 hs hv => exact ⟨_, .rule6 hs hv⟩
    | rule7 hs hv => exact ⟨_, .rule7 hs hv⟩
  · obtain ⟨m, hd⟩ := h.derives .beginObject (by decide)
    cases hd with
    | rule8 hd ho => exact ⟨_, .rule8 hd ho⟩
  · obtain ⟨m, hd⟩ := h.derives .beginArray (by decide)
    cases hd with
    | rule15 hd => exact ⟨_, .rule15 hd⟩

theorem Grows.members (hs : s ∈ [Sym.objBody, .objElems, .objTail]) : ∃ m, Derives s ts (.members m) := by
  simp only [List.mem_cons, List.not_mem_nil, or_false] at hs
  rcases hs with rfl | rfl | rfl
  · obtain ⟨m, hd⟩ := h.derives .string (by decide)
    cases hd with
    | rule9 => exact ⟨_, .rule9⟩
    | rule10 hd => exact ⟨_, .rule10 hd⟩
  · obtain ⟨m, hd⟩ := h.derives .string (by decide)
    cases hd with
    | rule11 hd hd' => exact ⟨_, .rule11 hd hd'⟩
  · obtain ⟨m, hd⟩ := h.derives .valueSep (by decide)
    cases hd with
    | rule12 hd => exact ⟨_, .rule12 hd⟩
    | rule13 => exact ⟨_, .rule13⟩

theorem Grows.member (hs : s = .objElem) : ∃ name v, Derives s ts (.member name v) := by
  subst hs
  obtain ⟨m, hd⟩ := h.derives .string (by decide)
  cases hd with
  | rule14 hd => exact ⟨_, _, .rule14 hd⟩

theorem Grows.elements (hs : s ∈ [Sym.arrBody, .arrElems, .arrTail]) : ∃ l, Derives s ts (.elements l) := by
  simp only [List.mem_cons, List.not_mem_nil, or_false] at hs
  rcases hs with rfl | rfl | rfl
  · obtain ⟨m, hd⟩ := h.derives .string (by decide)
    cases hd with
    | rule16 => exact ⟨_, .rule16⟩
    | rule17 hd => exact ⟨_, .rule17 hd⟩
  · obtain ⟨m, hd⟩ := h.derives .string (by decide)
    cases hd with
    | rule18 hd hd' => exact ⟨_, .rule18 hd hd'⟩
  · obtain ⟨m, hd⟩ := h.derives .valueSep (by decide)
    cases hd with
    | rule19 hd => exact ⟨_, .rule19 hd⟩
    | rule20 => exact ⟨_, .rule20⟩

end

/-- The terminal of a symbol that has no value. -/
theorem Grows.easy {t : Terminal} (h : Grows t.sym ts) (ht : t.sym ∈ Parse.easySyms) : ts = [t] := by
  obtain ⟨t', hs, rfl⟩ := h.terminal (llTable_terminal t)
  simp only [Parse.easySyms, List.mem_cons, List.not_mem_nil, or_false] at ht
  cases t <;> simp only [Terminal.sym, reduceCtorEq, or_false, or_self] at ht <;> cases t' <;> first | rfl | cases hs

/-- What grows is closed under the rules. -/
theorem grows_rule {r : ℕ} (htable : predictor.table top t.sym = some r)
    (h : DerivesAll Grows (llRules r) ts) : Grows top ts := by
  change (if llTable top t.sym = 0 then none else some (llTable top t.sym)) = some r at htable
  split_ifs at htable with h0
  obtain ⟨htop, hr⟩ := llTable_ruleFor top t.sym h0
  rw [Option.some.injEq] at htable
  rw [htable] at htop hr
  rw [← htop]
  simp only [List.mem_range', Nat.one_mul] at hr
  obtain ⟨i, hi, rfl⟩ := hr
  have hone : ∀ {s : Sym} {ts : List Terminal}, DerivesAll Grows [s] ts → Grows s ts :=
    fun h => derivesAll_singleton.1 h
  have htwo : ∀ {s s' : Sym} {ts : List Terminal}, DerivesAll Grows [s, s'] ts →
      ∃ ts₁ ts₂, ts = ts₁ ++ ts₂ ∧ Grows s ts₁ ∧ Grows s' ts₂ := by
    intro s s' ts h
    obtain ⟨ts₁, ts₂, rfl, hs, hs'⟩ := derivesAll_cons.1 h
    exact ⟨ts₁, ts₂, rfl, hs, derivesAll_singleton.1 hs'⟩
  -- a symbol that is a terminal, before another
  have hthen : ∀ (t : Terminal) {s : Sym} {ts : List Terminal}, t.sym ∈ Parse.easySyms →
      DerivesAll Grows [t.sym, s] ts → ∃ us, ts = t :: us ∧ Grows s us := by
    intro t s ts ht h
    obtain ⟨ts₁, ts₂, rfl, hs, hs'⟩ := htwo h
    rw [hs.easy ht]
    exact ⟨ts₂, rfl, hs'⟩
  right
  interval_cases i
  · obtain ⟨v, hd⟩ := (hone h).value (by decide)
    exact ⟨_, .rule1 hd⟩
  · obtain ⟨v, hd⟩ := (hone h).value (by decide)
    exact ⟨_, .rule2 hd⟩
  · obtain ⟨v, hd⟩ := (hone h).value (by decide)
    exact ⟨_, .rule3 hd⟩
  · obtain ⟨v, hd⟩ := (hone h).value (by decide)
    exact ⟨_, .rule4 hd⟩
  · obtain ⟨t, ht, rfl⟩ := (hone h).terminal (by decide)
    cases t <;> cases ht
    exact ⟨_, .rule5⟩
  · obtain ⟨t, ht, rfl⟩ := (hone h).terminal (by decide)
    cases t <;> cases ht
    · exact ⟨_, .rule6 rfl rfl⟩
    · exact ⟨_, .rule6 rfl rfl⟩
  · obtain ⟨t, ht, rfl⟩ := (hone h).terminal (by decide)
    cases t <;> cases ht
    · exact ⟨_, .rule7 rfl rfl⟩
    · exact ⟨_, .rule7 rfl rfl⟩
  · obtain ⟨us, rfl, hs⟩ := hthen .beginObject (by decide) h
    obtain ⟨m, hd⟩ := hs.members (by decide)
    exact ⟨_, .rule8 hd (objectOf_spec m)⟩
  · rw [(hone h).easy (t := .endObject) (by decide)]
    exact ⟨_, .rule9⟩
  · obtain ⟨m, hd⟩ := (hone h).members (by decide)
    exact ⟨_, .rule10 hd⟩
  · obtain ⟨ts₁, ts₂, rfl, hs, hs'⟩ := htwo h
    obtain ⟨name, v, hd⟩ := hs.member rfl
    obtain ⟨m, hd'⟩ := hs'.members (by decide)
    exact ⟨_, .rule11 hd hd'⟩
  · obtain ⟨us, rfl, hs⟩ := hthen .valueSep (by decide) h
    obtain ⟨m, hd⟩ := hs.members (by decide)
    exact ⟨_, .rule12 hd⟩
  · rw [(hone h).easy (t := .endObject) (by decide)]
    exact ⟨_, .rule13⟩
  · obtain ⟨ts₁, ts₂, rfl, hs, hs'⟩ := derivesAll_cons.1 h
    obtain ⟨t, ht, rfl⟩ := hs.terminal (by decide)
    obtain ⟨us, rfl, hv⟩ := hthen .nameSep (by decide) hs'
    obtain ⟨v, hd⟩ := hv.value (by decide)
    cases t <;> cases ht
    exact ⟨_, .rule14 hd⟩
  · obtain ⟨us, rfl, hs⟩ := hthen .beginArray (by decide) h
    obtain ⟨l, hd⟩ := hs.elements (by decide)
    exact ⟨_, .rule15 hd⟩
  · rw [(hone h).easy (t := .endArray) (by decide)]
    exact ⟨_, .rule16⟩
  · obtain ⟨l, hd⟩ := (hone h).elements (by decide)
    exact ⟨_, .rule17 hd⟩
  · obtain ⟨ts₁, ts₂, rfl, hs, hs'⟩ := htwo h
    obtain ⟨v, hd⟩ := hs.value (by decide)
    obtain ⟨l, hd'⟩ := hs'.elements (by decide)
    exact ⟨_, .rule18 hd hd'⟩
  · obtain ⟨us, rfl, hs⟩ := hthen .valueSep (by decide) h
    obtain ⟨l, hd⟩ := hs.elements (by decide)
    exact ⟨_, .rule19 hd⟩
  · rw [(hone h).easy (t := .endArray) (by decide)]
    exact ⟨_, .rule20⟩

theorem Derives.feeds_nil {v : Value} (hd : Derives .jsonDocument ts (.value v)) :
    predictor.Feeds [.jsonDocument] [] ts [] [v] := by
  have hfeeds : predictor.Feeds [.jsonDocument] [] (ts ++ []) [] [v] := hd.feeds .value .nil
  rw [List.append_nil] at hfeeds
  exact hfeeds

/-- **Soundness.** The tokens by which the stack gets from a document to
nothing are a document, and its value is what is built. -/
theorem feeds_document (h : predictor.Feeds [.jsonDocument] [] ts [] b) :
    ∃ v, Derives .jsonDocument ts (.value v) ∧ b = [v] := by
  have hall := h.derivesAll (D := Grows) (fun t => Or.inl ⟨t, rfl, rfl⟩) fun _ _ _ _ => grows_rule
  obtain ⟨v, hd⟩ := (derivesAll_singleton.1 hall).value (by decide)
  exact ⟨v, hd, h.det hd.feeds_nil⟩

end Json

end Mowgli
