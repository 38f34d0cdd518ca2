import Mowgli.Ext.Json.Counts
import Mowgli.Ext.Json.Lockstep
import Mowgli.Ext.Json.Scan
/-!
# The same parser on trees and on cells

The parser on cells does what it does on trees: the cells it has made, those
on the build list, those on the queue and those that are lost, are the values
of their trees, and each of them has one reference. How many there are is
told by the tokens that were read.
-/

namespace Mowgli

namespace Json

/-- How many cells the value of a token is. -/
def tokenCells : Sym → ℕ
  | .string | .number => 1
  | _ => 0

/-- How many cells a token makes of what is on the build list. -/
def closingCells : Sym → ℕ
  | .endObject | .endArray => 1
  | _ => 0

/-- How many of the cells are names, which are freed with the object. -/
def tokenNames : Sym → ℕ
  | .nameSep => 1
  | _ => 0

/-- How many names there are on a build list, `n` values being before it in
the container. -/
def buildNames : ℕ → List Value → ℕ
  | _, [] => 0
  | n, .objStart :: b => (n + 1) / 2 + buildNames 0 b
  | _, .arrStart :: b => buildNames 0 b
  | n, _ :: b => buildNames (n + 1) b

/-- A name that no colon is behind yet. -/
def bareNames : List Sym → ℕ
  | .nameSep :: _ => 1
  | _ => 0

namespace Parse

section

variable {H V : Type} (ops : JsonOps H V)

/-- What a token does to the build list where it is expected. -/
def llExpected (sym : Sym) (h : H) (build : List V) (tok : Token V) : Except Fault (H × List V) :=
  match sym with
  | .beginObject => .ok (llActObjStart ops h build)
  | .endObject => llActObjEnd ops h build
  | .beginArray => .ok (llActArrStart ops h build)
  | .endArray => llActArrEnd ops h build
  | .string | .number | .identifier => llActEcho ops h build tok
  | _ => .ok (h, build)

/-- The rules that have an action. -/
def actsRule (rule : ℕ) : Bool := rule ∈ [5, 6, 7, 8, 9, 13, 14, 15, 16, 20]

variable {ops} {h : H} {build : List V} {tok : Token V} {stack rest σ : List Sym} {sym : Sym}

/-- The other rules do nothing. -/
theorem llActions_filter (rules : List ℕ) :
    llActions ops rules h build tok = llActions ops (rules.filter actsRule) h build tok := by
  induction rules generalizing h build with
  | nil => rfl
  | cons rule rules ih =>
    rw [List.filter_cons]
    split_ifs with hrule
    · rw [llActions, llActions]
      cases llAction ops rule h build tok with
      | error f => rfl
      | ok hb => exact ih
    · have hnone : llAction ops rule h build tok = .ok (h, build) := by
        simp only [actsRule, decide_eq_true_eq, List.mem_cons, List.not_mem_nil, or_false, not_or] at hrule
        unfold llAction
        split <;> first | omega | rfl
      rw [llActions, hnone]
      exact ih

/-- The rule with an action by which a token is expected. -/
def expectedRules : Sym → List (List ℕ)
  | .beginObject => [[8]]
  | .endObject => [[9], [13]]
  | .beginArray => [[15]]
  | .endArray => [[16], [20]]
  | .string => [[5], [14]]
  | .number => [[6]]
  | .identifier => [[7]]
  | _ => [[]]

/-- The symbols on top of the stack between two tokens. -/
def readyTops : List Sym :=
  [.jsonDocument, .objBody, .objTail, .objElems, .nameSep, .value, .arrBody, .arrTail, .arrElems]

/-- Whether a token is an error. -/
def verdictRejects : Verdict → Bool
  | .reject _ _ => true
  | _ => false

theorem tokCourse_expected : ∀ top ∈ readyTops, ∀ sym ∈ tokenSyms, verdictRejects (tokCourse [top] sym).verdict = true ∨
    (tokCourse [top] sym).rules.filter actsRule ∈ expectedRules sym ∧ (top = .nameSep ↔ sym = .nameSep) := by
  decide

/-- **A token that is expected** does the same whatever symbol is on top. -/
theorem llActions_expected (htop : ∀ top ∈ stack.head?, top ∈ readyTops) (hsym : sym ∈ tokenSyms)
    (hv : (tokCourse stack sym).verdict = .accept rest) :
    llActions ops (tokCourse stack sym).rules h build tok = llExpected ops sym h build tok ∧
      bareNames stack = tokenNames sym := by
  have hone : ∀ {H V : Type} (x : Except Fault (H × List V)), (x >>= fun hb => .ok (hb.1, hb.2)) = x := by
    intro H V x
    cases x <;> rfl
  cases stack with
  | nil => cases hv
  | cons top σ =>
    rw [tokCourse_cons] at hv ⊢
    have hrej : verdictRejects (tokCourse [top] sym).verdict = false := by
      cases hc : (tokCourse [top] sym).verdict with
      | reject e rest' =>
        simp only [Course.under, hc, Verdict.under] at hv
        cases hv
      | _ => rfl
    obtain ⟨hrules, hname⟩ := (tokCourse_expected top (htop top rfl) sym hsym).resolve_left fun h => by
      rw [hrej] at h
      cases h
    constructor
    · show llActions ops (tokCourse [top] sym).rules h build tok = _
      rw [llActions_filter]
      generalize (tokCourse [top] sym).rules.filter actsRule = rules at hrules
      simp only [tokenSyms, List.mem_cons, List.not_mem_nil, or_false] at hsym
      rcases hsym with rfl | rfl | rfl | rfl | rfl | rfl | rfl | rfl | rfl <;>
        simp only [expectedRules, List.mem_cons, List.not_mem_nil, or_false] at hrules
      · subst hrules
        rfl
      · rcases hrules with rfl | rfl <;> exact hone _
      · subst hrules
        rfl
      · rcases hrules with rfl | rfl <;> exact hone _
      · subst hrules
        rfl
      · subst hrules
        rfl
      · rcases hrules with rfl | rfl <;> exact hone _
      · subst hrules
        exact hone _
      · subst hrules
        exact hone _
    · by_cases htopname : top = .nameSep
      · rw [hname.1 htopname, htopname]
        rfl
      · have hsymname : sym ≠ .nameSep := fun hs => htopname (hname.2 hs)
        have hbare : bareNames (top :: σ) = 0 := by
          cases top <;> first | rfl | exact absurd rfl htopname
        have hnames : tokenNames sym = 0 := by
          cases sym <;> first | rfl | exact absurd rfl hsymname
        rw [hbare, hnames]

end

end Parse

/-- The symbols on top of the stack are those between two tokens. -/
theorem Ready.tops {V : Type} {F : List (Frame V)} (hr : Ready stack F) : ∀ top ∈ stack.head?, top ∈ Parse.readyTops := by
  have hbody : ∀ top ∈ [Sym.objBody, .objTail, .objElems] ++ [Sym.arrBody, .arrTail, .arrElems], top ∈ Parse.readyTops := by
    decide
  intro top' htop'
  cases hr with
  | done => cases htop'
  | object htop =>
    cases htop'
    exact hbody _ (List.mem_append_left _ htop)
  | array htop =>
    cases htop'
    exact hbody _ (List.mem_append_right _ htop)
  | _ =>
    cases htop'
    decide

/-! ## The names on the build list -/

section

variable {F : List (Frame Value)} {v : Value} {l b : List Value} {n : ℕ}

theorem buildNames_cons (hv : ¬ v.IsMarker) : buildNames n (v :: b) = buildNames (n + 1) b := by
  cases v <;> first | rfl | exact absurd trivial hv

theorem buildNames_append (hl : ∀ v ∈ l, ¬ v.IsMarker) : buildNames n (l ++ b) = buildNames (n + l.length) b := by
  induction l generalizing n with
  | nil => rfl
  | cons v l ih =>
    rw [List.forall_mem_cons] at hl
    rw [List.cons_append, buildNames_cons hl.1, ih hl.2, List.length_cons]
    congr 1
    omega

/-- What an object is on the build list. -/
theorem flat_object {m : List (Value × Value)} {name : Option Value} (h : (Frame.object m name).Plain) : ∃ l,
    (Frame.object m name).flat valueOps = l ++ [.objStart] ∧ (∀ v ∈ l, ¬ v.IsMarker) ∧
      l.length = 2 * m.length + name.toList.length := by
  obtain ⟨⟨r, rfl, hr⟩, hname⟩ := h
  refine ⟨name.toList ++ (r.map fun e => (Value.string e.1, e.2)).flatMap (fun e => [e.2, e.1]), ?_, fun v hv => ?_, ?_⟩
  · rw [List.append_assoc]
    rfl
  · simp only [List.mem_append, Option.mem_toList, List.mem_flatMap, List.mem_map, List.mem_cons, List.not_mem_nil,
      or_false] at hv
    rcases hv with hv | ⟨_, ⟨e, he, rfl⟩, rfl | rfl⟩
    · obtain ⟨bytes, rfl⟩ := hname v hv
      exact id
    · exact hr e he
    · exact id
  · rw [List.length_append, List.length_flatMap, List.map_map, List.length_map]
    have hsum : (r.map ((fun e : Value × Value => [e.2, e.1].length) ∘ fun e => (Value.string e.1, e.2))).sum = 2 * r.length := by
      induction r with
      | nil => rfl
      | cons e r ih =>
        rw [List.map_cons, List.sum_cons, ih fun e he => hr e (List.mem_cons_of_mem _ he), List.length_cons]
        show 2 + _ = _
        omega
    rw [hsum, Nat.add_comm]

theorem buildNames_object {m : List (Value × Value)} {name : Option Value} (h : (Frame.object m name).Plain) :
    buildNames n (flatAll valueOps (.object m name :: F)) =
      (n + (2 * m.length + name.toList.length) + 1) / 2 + buildNames 0 (flatAll valueOps F) := by
  obtain ⟨l, hflat, hl, hlen⟩ := flat_object h
  rw [flatAll_cons, hflat, List.append_assoc, buildNames_append hl, hlen]
  rfl

theorem buildNames_array {l : List Value} (h : (Frame.array l).Plain) :
    buildNames n (flatAll valueOps (.array l :: F)) = buildNames 0 (flatAll valueOps F) := by
  rw [flatAll_cons, Frame.flat, List.append_assoc, buildNames_append h]
  rfl

/-- A value that is waited for is no name. -/
theorem buildNames_value (hv : ¬ v.IsMarker) (hp : ∀ f ∈ F, f.Plain) (hw : ∀ f ∈ F, f.Waits) :
    buildNames 0 (v :: flatAll valueOps F) = buildNames 0 (flatAll valueOps F) := by
  rw [buildNames_cons hv]
  cases F with
  | nil => rfl
  | cons f F =>
    have hf := hp f List.mem_cons_self
    cases f with
    | array l => rw [buildNames_array hf, buildNames_array hf]
    | object m name =>
      have hsome : name.isSome := hw _ List.mem_cons_self
      obtain ⟨k, rfl⟩ := Option.isSome_iff_exists.1 hsome
      rw [buildNames_object hf, buildNames_object hf]
      simp only [Option.toList_some, List.length_singleton]
      omega

/-! ## A token that is expected -/

variable {h h₀ : JsonHeap} {B E : List (Ref × Value)} {S : Multiset Addr} {e : Option (Ref × Value)} {t : Terminal}
  {rest : List Sym} {peak : ℕ} {sym : Sym}

/-- What a token does to a ledger, `h'` being the memory before the token is
freed and `h''` after that. -/
structure Acts (A : Allocator JsonCell) (hA : A.NeverFails) (h₀ h : JsonHeap) (B E : List (Ref × Value))
    (S : Multiset Addr) (e : Option (Ref × Value)) (t : Terminal) (rest : List Sym) (h' h'' : JsonHeap)
    (B' L : List (Ref × Value)) (S' : Multiset Addr) : Prop where
  tree : Parse.llExpected valueOps t.sym () (B.map Prod.snd) t.token = .ok ((), B'.map Prod.snd)
  cell : Parse.llExpected (countedOps A hA) t.sym h (B.map Prod.fst) ⟨t.sym, e.map Prod.fst⟩ = .ok (h', B'.map Prod.fst)
  none : e = none → h'' = h'
  some : ∀ x ∈ e, h'.decref x.1 = .ok h''
  ledger : Ledger counted h₀ h'' (B' ++ (L ++ E)) S'
  last : rest = [] → B'.length = 1
  count : S'.card + buildNames 0 (B.map Prod.snd) + bareNames rest =
    S.card + closingCells t.sym + buildNames 0 (B'.map Prod.snd)

/-- A value is put on the build list. -/
theorem llActEcho_ledger (A : Allocator JsonCell) (hA : A.NeverFails) {x : Ref × Value} (hx : t.val = some x.2)
    (B : List (Ref × Value)) (hl : Ledger counted h₀ h (x :: E) S) : ∃ h',
      Parse.llActEcho valueOps () (B.map Prod.snd) t.token = .ok ((), (x :: B).map Prod.snd) ∧
      Parse.llActEcho (countedOps A hA) h (B.map Prod.fst) ⟨t.sym, some x.1⟩ = .ok (h', (x :: B).map Prod.fst) ∧
      h'.decref x.1 = .ok h := by
  obtain ⟨g, hg, hsame, hback⟩ := borrow hl.owns
  refine ⟨g, llActEcho_scalar hx, ?_, hback g h (fun b _ => ⟨rfl, rfl⟩) hsame⟩
  have hinc : (countedOps A hA).incref h x.1 = .ok g := hg
  unfold Parse.llActEcho
  simp only [hinc, bind, Except.bind]
  rfl

theorem Terminal.val_easy (ht : t.sym ∈ Parse.easySyms) : t.val = none := by
  simp only [Parse.easySyms, List.mem_cons, List.not_mem_nil, or_false] at ht
  cases t <;> simp only [Terminal.sym, reduceCtorEq, or_false, or_self] at ht <;> rfl

theorem bareNames_tails (F : List (Frame Value)) : bareNames (tails F) = 0 := by
  cases F with
  | nil => rfl
  | cons f F => cases f <;> rfl

/-- A value that is expected. -/
theorem llExpected_scalar {H V : Type} (ops : JsonOps H V) (hs : sym ∈ [Sym.string, .number, .identifier]) {h : H}
    {build : List V} {tok : Token V} : Parse.llExpected ops sym h build tok = Parse.llActEcho ops h build tok := by
  simp only [List.mem_cons, List.not_mem_nil, or_false] at hs
  rcases hs with rfl | rfl | rfl <;> rfl

/-- A value or a name is put on the build list. -/
theorem acts_echo (A : Allocator JsonCell) (hA : A.NeverFails) (hs : t.sym ∈ [Sym.string, .number, .identifier])
    (he : t.val = e.map Prod.snd) (hl : Ledger counted h₀ h (e.toList ++ (B ++ E)) S) (hne : rest ≠ [])
    (hcount : ∀ v, t.val = some v → buildNames 0 (B.map Prod.snd) + bareNames rest =
      buildNames 0 (v :: B.map Prod.snd)) : ∃ h' B', Acts A hA h₀ h B E S e t rest h' h B' [] S := by
  obtain ⟨v, hval, -, -⟩ := Terminal.val_scalar hs
  obtain ⟨x, rfl, rfl⟩ := Option.map_eq_some_iff.1 (he.symm.trans hval)
  obtain ⟨h', htree, hcell, hdec⟩ := llActEcho_ledger A hA hval B hl
  refine ⟨h', x :: B, ?_, ?_, fun hnone => (by cases hnone), fun y hy => ?_, hl, fun hnil => absurd hnil hne, ?_⟩
  · rw [llExpected_scalar _ hs]
    exact htree
  · rw [llExpected_scalar _ hs]
    exact hcell
  · cases hy
    exact hdec
  · have hclose : closingCells t.sym = 0 := by
      simp only [List.mem_cons, List.not_mem_nil, or_false] at hs
      rcases hs with hs | hs | hs <;> rw [hs] <;> rfl
    have hnames := hcount x.2 hval
    rw [hclose, List.map_cons]
    omega

/-- A token that makes no cell and frees none. -/
theorem acts_easy (A : Allocator JsonCell) (hA : A.NeverFails) {B' : List (Ref × Value)}
    (htree : Parse.llExpected valueOps t.sym () (B.map Prod.snd) t.token = .ok ((), B'.map Prod.snd))
    (hcell : Parse.llExpected (countedOps A hA) t.sym h (B.map Prod.fst) ⟨t.sym, none⟩ = .ok (h, B'.map Prod.fst))
    (hl : Ledger counted h₀ h (B' ++ E) S) (hne : rest ≠ [])
    (hcount : buildNames 0 (B.map Prod.snd) + bareNames rest = closingCells t.sym + buildNames 0 (B'.map Prod.snd)) :
    Acts A hA h₀ h B E S none t rest h h B' [] S where
  tree := htree
  cell := hcell
  none _ := rfl
  some x hx := by cases hx
  ledger := hl
  last hnil := absurd hnil hne
  count := by omega

/-- **A token that is expected**, on trees and on cells. -/
theorem Move.acts (A : Allocator JsonCell) (hA : A.NeverFails)
    {act : Unit → List Value → Token Value → Except Fault (Unit × List Value)} (hm : Move valueOps F t.sym rest peak act)
    (hp : ∀ f ∈ F, f.Plain) (hB : B.map Prod.snd = flatAll valueOps F) (he : t.val = e.map Prod.snd)
    (hl : Ledger counted h₀ h (e.toList ++ (B ++ E)) S) : ∃ h' h'' B' L S', Acts A hA h₀ h B E S e t rest h' h'' B' L S' := by
  have heasy : t.sym ∈ Parse.easySyms → e = none := by
    intro hmem
    rw [Terminal.val_easy hmem] at he
    exact Option.map_eq_none_iff.1 he.symm
  generalize hsym : t.sym = sym at hm
  cases hm with
  | openObject hw =>
    obtain rfl := heasy (by rw [hsym]; decide)
    have hcount : buildNames 0 (B.map Prod.snd) + bareNames (.objBody :: tails F) =
        closingCells t.sym + buildNames 0 (((.objStart, .objStart) :: B).map Prod.snd) := by
      rw [hsym, List.map_cons, buildNames]
      simp [bareNames, closingCells]
    exact ⟨h, h, _, [], S, acts_easy A hA (by rw [hsym]; rfl) (by rw [hsym]; rfl) (hl.plain rfl Ref.Constant.objStart)
      (List.cons_ne_nil _ _) hcount⟩
  | openArray hw =>
    obtain rfl := heasy (by rw [hsym]; decide)
    have hcount : buildNames 0 (B.map Prod.snd) + bareNames (.arrBody :: tails F) =
        closingCells t.sym + buildNames 0 (((.arrStart, .arrStart) :: B).map Prod.snd) := by
      rw [hsym, List.map_cons, buildNames]
      simp [bareNames, closingCells]
    exact ⟨h, h, _, [], S, acts_easy A hA (by rw [hsym]; rfl) (by rw [hsym]; rfl) (hl.plain rfl Ref.Constant.arrStart)
      (List.cons_ne_nil _ _) hcount⟩
  | scalar hmem hne hw =>
    rw [← hsym] at hmem
    have hrest : tails F ≠ [] := fun hnil => hne (List.map_eq_nil_iff.1 hnil)
    have hecho := acts_echo A hA hmem he hl hrest fun v hv => by
      obtain ⟨w, hw', hmark, -⟩ := Terminal.val_scalar hmem
      obtain rfl := Option.some.inj (hv.symm.trans hw')
      rw [bareNames_tails, hB, buildNames_value hmark hp hw, Nat.add_zero]
    obtain ⟨h', B', hacts⟩ := hecho
    exact ⟨h', h, B', [], S, hacts⟩
  | @name m F hw =>
    have hmem : t.sym ∈ [Sym.string, .number, .identifier] := by
      rw [hsym]
      decide
    have hplain := hp _ List.mem_cons_self
    have hrest : Sym.nameSep :: .value :: .objTail :: tails F ≠ [] := List.cons_ne_nil _ _
    have hecho := acts_echo A hA hmem he hl hrest fun v hv => by
      obtain ⟨w, hw', hmark, -⟩ := Terminal.val_scalar hmem
      obtain rfl := Option.some.inj (hv.symm.trans hw')
      rw [hB, buildNames_cons hmark, buildNames_object hplain, buildNames_object hplain, bareNames]
      simp only [Option.toList_none, List.length_nil]
      omega
    obtain ⟨h', B', hacts⟩ := hecho
    exact ⟨h', h, B', [], S, hacts⟩
  | @closeObject m F hw =>
    obtain rfl := heasy (by rw [hsym]; decide)
    have hplain := hp _ List.mem_cons_self
    have hnames := @buildNames_object F 0 _ _ hplain
    obtain ⟨⟨r, rfl, hr⟩, -⟩ := hplain
    have hflat : B.map Prod.snd = r.flatMap (fun e => [e.2, .string e.1]) ++ .objStart :: flatAll valueOps F := by
      rw [hB, flatAll_cons, Frame.flat, List.flatMap_map, List.append_assoc, List.append_assoc]
      rfl
    obtain ⟨h', x, B', L, S', htree, hcell, hb, hmark, hcard, hl'⟩ := llActObjEnd_ledger A hA hr hflat hl
    refine ⟨h', h', x :: B', L, S', ?_, ?_, fun _ => rfl, fun y hy => (by cases hy), hl', fun hnil => ?_, ?_⟩
    · rw [hsym, List.map_cons, hb]
      exact htree
    · rw [hsym]
      exact hcell
    · rw [List.map_eq_nil_iff.1 hnil] at hb
      rw [List.map_eq_nil_iff.1 hb]
      rfl
    · rw [hsym, List.map_cons, hb, buildNames_value hmark (fun f hf => hp f (List.mem_cons_of_mem _ hf)) hw, hB, hnames,
        bareNames_tails, closingCells, List.length_map]
      simp only [Option.toList_none, List.length_nil]
      omega
  | @closeArray l F hw =>
    obtain rfl := heasy (by rw [hsym]; decide)
    have hplain := hp _ List.mem_cons_self
    have hflat : B.map Prod.snd = l ++ .arrStart :: flatAll valueOps F := by
      rw [hB, flatAll_cons, Frame.flat, List.append_assoc]
      rfl
    obtain ⟨h', x, B', S', htree, hcell, hb, hmark, hcard, hl'⟩ := llActArrEnd_ledger A hA hplain hflat hl
    refine ⟨h', h', x :: B', [], S', ?_, ?_, fun _ => rfl, fun y hy => (by cases hy), hl', fun hnil => ?_, ?_⟩
    · rw [hsym, List.map_cons, hb]
      exact htree
    · rw [hsym]
      exact hcell
    · rw [List.map_eq_nil_iff.1 hnil] at hb
      rw [List.map_eq_nil_iff.1 hb]
      rfl
    · rw [hsym, List.map_cons, hb, buildNames_value hmark (fun f hf => hp f (List.mem_cons_of_mem _ hf)) hw, hB,
        buildNames_array hplain, bareNames_tails, closingCells]
      omega
  | colon hw | objComma hw | arrComma hw =>
    obtain rfl := heasy (by rw [hsym]; decide)
    refine ⟨h, h, B, [], S, acts_easy A hA (by rw [hsym]; rfl) (by rw [hsym]; rfl) hl (List.cons_ne_nil _ _) ?_⟩
    rw [hsym]
    simp [bareNames, closingCells]

/-- The token is freed. -/
theorem Acts.llTokenFree {q : Parse JsonHeap Ref} {A : Allocator JsonCell} {hA : A.NeverFails} {h h' h'' : JsonHeap} {B' L' : List (Ref × Value)}
    {S' : Multiset Addr} (ha : Acts A hA h₀ h B E S e t rest h' h'' B' L' S') (hq : q.heap = h') :
    q.llTokenFree (countedOps A hA) ⟨t.sym, e.map Prod.fst⟩ = .ok { q with heap := h'' } := by
  cases e with
  | none =>
    rw [ha.none rfl, ← hq]
    rfl
  | some x =>
    have hdec : (countedOps A hA).decref q.heap x.1 = .ok h'' := hq ▸ ha.some x rfl
    unfold Parse.llTokenFree
    simp only [Option.map_some, hdec, bind, Except.bind]

/-! ## Two parsers -/

/-- How many cells some tokens make. -/
def cellsOf (toks : List (Token Value)) : ℕ := (toks.map fun tok => tokenCells tok.sym + closingCells tok.sym).sum

/-- How many names there are in some tokens. -/
def namesOf (toks : List (Token Value)) : ℕ := (toks.map fun tok => tokenNames tok.sym).sum

namespace Parse

variable {p : Parser} {q : Parse JsonHeap Ref} {O L R : List (Ref × Value)}

/-- **A parser on trees and a parser on cells.** Those it has made since the
memory was `h₀` are on the build list, on the queue, or neither. -/
structure MirrorOf (h₀ : JsonHeap) (p : Parser) (q : Parse JsonHeap Ref) (F : List (Frame Value))
    (B O L : List (Ref × Value)) (S : Multiset Addr) : Prop where
  live : p.error = none
  error : q.error = none
  multidoc : q.multidoc = p.multidoc
  stack : q.stack = p.stack
  lexer : q.lexer = p.lexer
  between : p.Between F
  build : p.build = B.map Prod.snd ∧ q.build = B.map Prod.fst
  out : p.out = O.map Prod.snd ∧ q.out = O.map Prod.fst
  ledger : Ledger counted h₀ q.heap (B ++ (O ++ L)) S
  /-- Every token was counted, and a name is counted till it is freed. -/
  count : S.card + namesOf (tokens p.log) + bareNames p.stack = cellsOf (tokens p.log) + buildNames 0 p.build

/-- Of the values that are on neither, `R` were returned, and the others are
lost. -/
def Mirror (h₀ : JsonHeap) (R : List (Ref × Value)) (p : Parser) (q : Parse JsonHeap Ref) : Prop :=
  ∃ F B O L S, MirrorOf h₀ p q F B O (L ++ R) S

/-- The lexer of both changes. -/
theorem MirrorOf.withLexer (hm : MirrorOf h₀ p q F B O L S) (l : Lexer) :
    MirrorOf h₀ (p.withLexer l) (q.withLexer l) F B O L S :=
  ⟨hm.live, hm.error, hm.multidoc, hm.stack, rfl, hm.between.congr rfl rfl, hm.build, hm.out, hm.ledger, hm.count⟩

theorem bareNames_baseStack (multidoc : Bool) : bareNames (baseStack multidoc) = 0 := by
  cases multidoc <;> rfl

theorem tokens_snoc {V : Type} (l : List (ParseEvent V)) (tok : Token V) : tokens (l ++ [.token tok]) = tokens l ++ [tok] :=
  tokens_append

theorem tokens_snoc_document {V : Type} (l : List (ParseEvent V)) (val : V) : tokens (l ++ [.document val]) = tokens l := by
  rw [tokens_append, tokens_document, tokens_nil, List.append_nil]

/-- The count after a token that is expected. -/
theorem MirrorOf.count_snoc (hm : MirrorOf h₀ p q F B O L S) {S₁ S' : Multiset Addr}
    (hcard : S₁.card = S.card + tokenCells t.sym) (hname : bareNames p.stack = tokenNames t.sym) {b : List Value}
    (hacts : S'.card + buildNames 0 (B.map Prod.snd) + bareNames rest = S₁.card + closingCells t.sym + buildNames 0 b) :
    S'.card + namesOf (tokens p.log ++ [t.token]) + bareNames rest =
      cellsOf (tokens p.log ++ [t.token]) + buildNames 0 b := by
  have hcount := hm.count
  have hnames : namesOf (tokens p.log ++ [t.token]) = namesOf (tokens p.log) + tokenNames t.sym := by
    rw [namesOf, List.map_append, List.sum_append]
    rfl
  have hcells : cellsOf (tokens p.log ++ [t.token]) = cellsOf (tokens p.log) + (tokenCells t.sym + closingCells t.sym) := by
    rw [cellsOf, List.map_append, List.sum_append]
    rfl
  rw [hm.build.1] at hcount
  omega

/-- A token that is expected, on trees and on cells. -/
theorem MirrorOf.accepted (A : Allocator JsonCell) (hA : A.NeverFails) (hm : MirrorOf h₀ p q F B O (L ++ R) S)
    {S₁ : Multiset Addr} (hcard : S₁.card = S.card + tokenCells t.sym) {h' h'' : JsonHeap} {B' L' : List (Ref × Value)}
    {S' : Multiset Addr} (ha : Acts A hA h₀ h B (O ++ (L ++ R)) S₁ e t rest h' h'' B' L' S')
    (hv : (tokCourse p.stack t.sym).verdict = .accept rest) {p' : Parser} (hrun : p.llParse valueOps t.token = .ok p')
    (herr : p'.error = none) {F' : List (Frame Value)} (hbetween : p'.Between F') :
    Meets (Mirror h₀ R) (p.llParse valueOps t.token)
      (({ q with heap := h } : Parse JsonHeap Ref).llParse (countedOps A hA) ⟨t.sym, e.map Prod.fst⟩) := by
  have hexpected : ∀ {H V : Type} {ops : JsonOps H V} {h : H} {build : List V} {tok : Token V},
      llActions ops (tokCourse p.stack t.sym).rules h build tok = llExpected ops t.sym h build tok ∧
        bareNames p.stack = tokenNames t.sym :=
    llActions_expected hm.between.ready.tops (tokenSyms_terminal t) hv
  have hname : bareNames p.stack = tokenNames t.sym := (@hexpected _ _ valueOps () [] t.token).2
  have hpeak : (tokCourse p.stack t.sym).peak ≤ LL_STACK_SIZE := (llParse_ok hrun).1
  obtain ⟨⟨u, b⟩, p₁, u', hact, hparsed, rfl⟩ := llParse_parsed hrun
  obtain rfl : b = B'.map Prod.snd := by
    have htree := hexpected.1.symm.trans hact
    rw [hm.build.1, ha.tree] at htree
    exact (Prod.mk.inj (Except.ok.inj htree)).2.symm
  have hcell : llActions (countedOps A hA) (tokCourse q.stack t.sym).rules h q.build ⟨t.sym, e.map Prod.fst⟩ =
      .ok (h', B'.map Prod.fst) := by
    rw [hm.stack, hm.build.2]
    exact hexpected.1.trans ha.cell
  obtain ⟨q₁, hparsed', hfree⟩ := @llParse_of_le _ _ (countedOps A hA) { q with heap := h } ⟨t.sym, e.map Prod.fst⟩
    (show (tokCourse q.stack t.sym).peak ≤ _ from hm.stack ▸ hpeak) _ hcell
  have hv' : (tokCourse q.stack t.sym).verdict = .accept rest := by rw [hm.stack, hv]
  have hcount := hm.count_snoc hcard hname ha.count
  have hperm : (B' ++ (L' ++ (O ++ (L ++ R)))).Perm (B' ++ (O ++ ((L' ++ L) ++ R))) := by
    rw [List.append_assoc L' L, ← List.append_assoc L' O, ← List.append_assoc O L']
    exact ((List.perm_append_comm.append_right (L ++ R)).append_left B')
  cases hparsed with
  | error he => cases hv.symm.trans he
  | taken ht hne =>
    obtain rfl := Verdict.accept.inj (hv.symm.trans ht)
    cases hparsed' with
    | error he => cases hv'.symm.trans he
    | hollow he => exact absurd (Verdict.accept.inj (hv'.symm.trans he)) hne
    | document he => exact absurd (Verdict.accept.inj (hv'.symm.trans he)) hne
    | taken ht' =>
      obtain rfl := Verdict.accept.inj (hv'.symm.trans ht')
      refine .on hrun (hfree.trans (ha.llTokenFree rfl)) ⟨F', B', O, L' ++ L, S', ?_⟩
      exact ⟨herr, hm.error, hm.multidoc, rfl, hm.lexer, hbetween, ⟨rfl, rfl⟩, hm.out,
        ha.ledger.perm hperm, by rw [tokens_snoc]; exact hcount⟩
  | hollow ht hnil =>
    obtain rfl := Verdict.accept.inj (hv.symm.trans ht)
    have hlast := ha.last rfl
    rw [List.map_eq_nil_iff.1 hnil] at hlast
    cases hlast
  | @document v b ht hb =>
    obtain rfl := Verdict.accept.inj (hv.symm.trans ht)
    obtain ⟨x, rfl⟩ := List.length_eq_one_iff.1 (ha.last rfl)
    obtain ⟨rfl, rfl⟩ := List.cons.inj hb
    cases hparsed' with
    | error he => cases hv'.symm.trans he
    | hollow _ hnil => cases hnil
    | taken ht' hne => exact absurd (Verdict.accept.inj (hv'.symm.trans ht')).symm hne
    | document ht' hb' =>
      obtain ⟨rfl, rfl⟩ := List.cons.inj hb'
      refine .on hrun (hfree.trans (ha.llTokenFree rfl)) ⟨F', [], O ++ [x], L' ++ L, S', ?_⟩
      have hone : buildNames 0 [x.2] = 0 := by cases x.2 <;> rfl
      refine ⟨herr, hm.error, hm.multidoc, ?_, hm.lexer, hbetween, ⟨rfl, rfl⟩, ?_, ?_, ?_⟩
      · exact congrArg baseStack hm.multidoc
      · exact ⟨by rw [List.map_append, ← hm.out.1]; rfl, by rw [List.map_append, ← hm.out.2]; rfl⟩
      · refine ha.ledger.perm (hperm.trans ?_)
        rw [← List.append_assoc, List.nil_append]
        exact List.perm_append_comm.append_right _
      · rw [List.map_singleton, hone] at hcount
        rw [tokens_snoc_document, tokens_snoc, bareNames_baseStack]
        exact hcount

/-- **One token**, in a memory in which it has its value. -/
theorem MirrorOf.llParse (A : Allocator JsonCell) (hA : A.NeverFails) (hm : MirrorOf h₀ p q F B O (L ++ R) S)
    (he : t.val = e.map Prod.snd) {S₁ : Multiset Addr} (hl : Ledger counted h₀ h (e.toList ++ (B ++ (O ++ (L ++ R)))) S₁)
    (hcard : S₁.card = S.card + tokenCells t.sym) : Meets (Mirror h₀ R) (p.llParse valueOps t.token)
      (({ q with heap := h } : Parse JsonHeap Ref).llParse (countedOps A hA) ⟨t.sym, e.map Prod.fst⟩) := by
  have hcourse : tokCourse q.stack t.sym = tokCourse p.stack t.sym := by rw [hm.stack]
  rcases hm.between.llParse t with ⟨hdeep, hover⟩ | ⟨-, p', hrun, -, ⟨herr, -, e', hc⟩ | ⟨F', hbetween, herr, -, -⟩⟩
  · refine .off (hover ▸ failed_error _) fun q' hq => ?_
    have hpeak : (tokCourse q.stack t.sym).peak ≤ LL_STACK_SIZE := (llParse_ok hq).1
    rw [hcourse] at hpeak
    exact absurd hpeak (Nat.not_le.2 (hm.between.tooDeep_iff t |>.1 hdeep))
  · refine .off (fun p₁ hp₁ => ?_) fun q' hq => ?_
    · rw [hrun] at hp₁
      cases hp₁
      exact herr
    · obtain ⟨hb, q₁, heap, -, hparsed, rfl⟩ := llParse_parsed hq
      have hv : (tokCourse q.stack t.sym).verdict = .reject e' p'.stack := by rw [hcourse, hc]
      cases hparsed with
      | error => exact Option.some_ne_none _
      | taken hv' => cases hv.symm.trans hv'
      | hollow hv' => cases hv.symm.trans hv'
      | document hv' => cases hv.symm.trans hv'
  · rcases hm.between.ready.turn valueOps (tokenSyms_terminal t) with ⟨e', rest, hc⟩ | ⟨rest, peak, act, hmove, hv, -, -⟩
    · have hnone : p'.error = none := herr.trans hm.live
      obtain ⟨hb, p₁, heap, -, hparsed, rfl⟩ := llParse_parsed hrun
      have hv : (tokCourse p.stack t.sym).verdict = .reject e' rest := by rw [hc]
      cases hparsed with
      | error => cases hnone
      | taken hv' => cases hv.symm.trans hv'
      | hollow hv' => cases hv.symm.trans hv'
      | document hv' => cases hv.symm.trans hv'
    · have hB : B.map Prod.snd = flatAll valueOps F := hm.build.1.symm.trans hm.between.build
      obtain ⟨h', h'', B', L', S', ha⟩ := hmove.acts A hA hm.between.plain hB he hl
      exact hm.accepted A hA hcard ha hv hrun (herr.trans hm.live) hbetween

end Parse

/-! ## The lexer -/

/-- A value that the lexer made is the token's. -/
theorem create_token (A : Allocator JsonCell) (hA : A.NeverFails) {k : Contents} {v : Value}
    (hn : JsonCell.Shape ⟨1, k⟩ v []) (hv : t.val = some v) (ht : tokenCells t.sym = 1) (hl : Ledger counted h₀ h E S) :
    ∃ (e : Option (Ref × Value)) (h' : JsonHeap) (S' : Multiset Addr),
      ((JsonHeap.create A hA h k).2.incref (JsonHeap.create A hA h k).1 >>= fun h' =>
        .ok ((⟨t.sym, some (JsonHeap.create A hA h k).1⟩ : Token Ref), h')) = .ok (⟨t.sym, e.map Prod.fst⟩, h') ∧
      t.val = e.map Prod.snd ∧ Ledger counted h₀ h' (e.toList ++ E) S' ∧ S'.card = S.card + tokenCells t.sym := by
  obtain ⟨a, h', ha, hinc, hl'⟩ := create_ledger A hA hn hl
  refine ⟨some (.cell a, v), h', _, ?_, hv, hl', ?_⟩
  · rw [ha, hinc]
    rfl
  · rw [Multiset.card_cons, ht]

/-- The values of identifiers are not counted. -/
theorem identifierValue_constant (A : Allocator JsonCell) (hA : A.NeverFails) (s : List UInt8) :
    Ref.Constant (Parse.identifierValue (countedOps A hA) s) (Parse.identifierValue valueOps s) := by
  unfold Parse.identifierValue
  split_ifs
  · exact .null
  · exact .true
  · exact .false
  · exact .null

/-- **A token of the lexer**, on trees and on cells. -/
theorem lexToken_ledger (A : Allocator JsonCell) (hA : A.NeverFails) {p : Parser} {q : Parse JsonHeap Ref}
    (hbuf : q.buf = p.buf) (hlex : q.lex = p.lex) (hs : Parse.lexSym p.lex = some sym)
    (hl : Ledger counted h₀ q.heap E S) : ∃ (t : Terminal) (e : Option (Ref × Value)) (h : JsonHeap) (S' : Multiset Addr),
      p.lexToken valueOps = .ok (t.token, ()) ∧
      q.lexToken (countedOps A hA) = .ok (⟨t.sym, e.map Prod.fst⟩, h) ∧ t.val = e.map Prod.snd ∧
      Ledger counted h₀ h (e.toList ++ E) S' ∧ S'.card = S.card + tokenCells t.sym := by
  unfold Parse.lexToken
  rw [hlex, hbuf]
  cases hp : p.lex with
  | string =>
    generalize (Parse.lexStringScan .create p.buf.bytes).bytes = bytes
    obtain ⟨e, h, S', hrun, hrest⟩ := create_token (t := .string bytes) A hA (JsonCell.Shape.string bytes) rfl rfl hl
    exact ⟨.string bytes, e, h, S', rfl, hrun, hrest⟩
  | number =>
    unfold Parse.numberValue
    split_ifs
    · obtain ⟨e, h, S', hrun, hrest⟩ :=
        create_token (t := .float p.buf.str) A hA (JsonCell.Shape.float p.buf.str) rfl rfl hl
      exact ⟨.float p.buf.str, e, h, S', rfl, hrun, hrest⟩
    · generalize toInt (strtol p.buf.str 0) = z
      obtain ⟨e, h, S', hrun, hrest⟩ := create_token (t := .int z) A hA (JsonCell.Shape.int z) rfl rfl hl
      exact ⟨.int z, e, h, S', rfl, hrun, hrest⟩
  | identifier =>
    have hconst := identifierValue_constant A hA p.buf.str
    generalize hr : Parse.identifierValue (countedOps A hA) p.buf.str = r at hconst
    generalize hv : Parse.identifierValue valueOps p.buf.str = v at hconst
    have hnone : r.addr = none := by cases hconst <;> rfl
    have htok : p.lexToken valueOps = .ok (⟨.identifier, some v⟩, ()) := by
      unfold Parse.lexToken
      rw [hp, hv]
    obtain ⟨t, ht, -⟩ := lexToken_token hs htok
    have hident : t.sym = .identifier := congrArg Token.sym ht
    refine ⟨t, some (r, v), q.heap, S, by rw [ht], ?_, congrArg Token.val ht, hl.plain hnone hconst, ?_⟩
    · rw [hident]
      rfl
    · rw [hident]
      rfl
  | _ =>
    rw [hp] at hs
    cases hs

namespace Parse

/-- **The two parsers go on together.** -/
theorem mirror_lockstep (A : Allocator JsonCell) (hA : A.NeverFails) (h₀ : JsonHeap) (R : List (Ref × Value)) :
    Lockstep valueOps (countedOps A hA) (Mirror h₀ R) where
  lex := by
    rintro p q ⟨F, B, O, L, S, hm⟩
    exact congrArg Lexer.lex hm.lexer
  live := by
    rintro p q ⟨F, B, O, L, S, hm⟩
    exact ⟨hm.live, hm.error⟩
  lexed := by
    rintro p q c ⟨F, B, O, L, S, hm⟩
    rw [lexNext_lexer, lexNext_lexer, hm.lexer]
    exact ⟨F, B, O, L, S, hm.withLexer _⟩
  easy := by
    rintro p q c sym ⟨F, B, O, L, S, hm⟩ hc
    obtain ⟨t, ht⟩ := easySym_token hc
    obtain rfl : t.sym = sym := congrArg Token.sym ht
    have hval : t.val = none := congrArg Token.val ht
    have hzero : tokenCells t.sym = 0 := by cases t <;> first | rfl | cases hval
    have hmeets := hm.llParse (e := none) A hA hval hm.ledger (by rw [hzero, Nat.add_zero])
    rw [ht] at hmeets
    exact hmeets
  token := by
    rintro p q sym ⟨F, B, O, L, S, hm⟩ hs
    have hlexer := hm.lexer
    obtain ⟨t, e, h, S', hp, hq, he, hl, hcard⟩ :=
      lexToken_ledger A hA (congrArg Lexer.buf hlexer) (congrArg Lexer.lex hlexer) hs hm.ledger
    have hmeets := (hm.withLexer p.lexer.reset).llParse A hA he hl hcard
    have hlexer' : q.withLexer p.lexer.reset = { q with buf := q.buf.reset, lex := .limbo } := by
      rw [← hlexer]
      rfl
    rw [hlexer'] at hmeets
    unfold lexTokenize
    simp only [hp, hq, bind, Except.bind]
    exact hmeets

end Parse

end

end Json

end Mowgli
