import Mowgli.Ext.Json.Mirror
/-!
# What a document says

A document as it is written: the members of an object are all there, in
their order, whatever their names. Its value has fewer cells than were made
for it where a member that is not the last of its name has a value that is
counted.
-/

namespace Mowgli

namespace Json

/-- A value as it is written. -/
inductive Doc
  | null
  | bool (b : Bool)
  | int (z : ℤ)
  | float (text : List UInt8)
  | string (bytes : List UInt8)
  | array (l : List Doc)
  | object (m : List (List UInt8 × Doc))

mutual

/-- The tokens of a document. -/
def Doc.terminals : Doc → List Terminal
  | .null => [.null]
  | .bool b => [.bool b]
  | .int z => [.int z]
  | .float text => [.float text]
  | .string bytes => [.string bytes]
  | .array l => .beginArray :: arrBody l
  | .object m => .beginObject :: objBody m

def arrBody : List Doc → List Terminal
  | [] => [.endArray]
  | d :: l => d.terminals ++ arrTail l

def arrTail : List Doc → List Terminal
  | [] => [.endArray]
  | d :: l => .valueSep :: (d.terminals ++ arrTail l)

def objBody : List (List UInt8 × Doc) → List Terminal
  | [] => [.endObject]
  | (name, d) :: m => .string name :: .nameSep :: (d.terminals ++ objTail m)

def objTail : List (List UInt8 × Doc) → List Terminal
  | [] => [.endObject]
  | (name, d) :: m => .valueSep :: .string name :: .nameSep :: (d.terminals ++ objTail m)

end

mutual

/-- The value that it stands for. -/
def Doc.value : Doc → Value
  | .null => .null
  | .bool b => .bool b
  | .int z => .int z
  | .float text => .float text
  | .string bytes => .string bytes
  | .array l => .array (elementValues l)
  | .object m => .object (objectOf (memberValues m))

def elementValues : List Doc → List Value
  | [] => []
  | d :: l => d.value :: elementValues l

def memberValues : List (List UInt8 × Doc) → List (List UInt8 × Value)
  | [] => []
  | (name, d) :: m => (name, d.value) :: memberValues m

end

mutual

/-- How many cells are made for it, but for the names. -/
def Doc.cells : Doc → ℕ
  | .null | .bool _ => 0
  | .int _ | .float _ | .string _ => 1
  | .array l => elementsMade l + 1
  | .object m => membersMade m + 1

def elementsMade : List Doc → ℕ
  | [] => 0
  | d :: l => d.cells + elementsMade l

def membersMade : List (List UInt8 × Doc) → ℕ
  | [] => 0
  | (_, d) :: m => d.cells + membersMade m

end

/-- A value that is not counted. -/
def Doc.Constant : Doc → Prop
  | .null | .bool _ => True
  | _ => False

mutual

/-- **Of the members of one name**, names being C strings, all but the last
have values that are not counted. -/
def Doc.Distinct : Doc → Prop
  | .array l => DistinctElements l
  | .object m => DistinctMembers m
  | _ => True

def DistinctElements : List Doc → Prop
  | [] => True
  | d :: l => d.Distinct ∧ DistinctElements l

def DistinctMembers : List (List UInt8 × Doc) → Prop
  | [] => True
  | (name, d) :: m =>
    d.Distinct ∧ ((∃ e ∈ m, Parse.cString e.1 = Parse.cString name) → d.Constant) ∧ DistinctMembers m

end

/-! ## Documents and derivations -/

mutual

/-- What is written is derived. -/
theorem Doc.derives : ∀ d : Doc, Derives .value d.terminals (.value d.value)
  | .null => .rule7 rfl rfl
  | .bool _ => .rule7 rfl rfl
  | .int _ => .rule6 rfl rfl
  | .float _ => .rule6 rfl rfl
  | .string _ => .rule5
  | .array [] => .rule4 (.rule15 .rule16)
  | .array (d :: l) => .rule4 (.rule15 (.rule17 (.rule18 d.derives (derives_arrTail l))))
  | .object [] => .rule3 (.rule8 .rule9 (objectOf_spec _))
  | .object ((_, d) :: m) => .rule3 (.rule8 (.rule10 (.rule11 (.rule14 d.derives) (derives_objTail m))) (objectOf_spec _))

theorem derives_arrTail : ∀ l : List Doc, Derives .arrTail (arrTail l) (.elements (elementValues l))
  | [] => .rule20
  | d :: l => .rule19 (.rule18 d.derives (derives_arrTail l))

theorem derives_objTail : ∀ m : List (List UInt8 × Doc), Derives .objTail (objTail m) (.members (memberValues m))
  | [] => .rule13
  | (_, d) :: m => .rule12 (.rule11 (.rule14 d.derives) (derives_objTail m))

end

/-- What a meaning is written as. -/
def Meaning.Written : Meaning → Sym → List Terminal → Prop
  | .value v, _, ts => ∃ d : Doc, ts = d.terminals ∧ v = d.value
  | .member name v, _, ts => ∃ d : Doc, ts = .string name :: .nameSep :: d.terminals ∧ v = d.value
  | .members m, s, ts => ∃ ds, m = memberValues ds ∧ (s = .objTail → ts = objTail ds) ∧ (s = .objBody → ts = objBody ds) ∧
      (s = .objElems → ds ≠ [] ∧ ts = objBody ds)
  | .elements l, s, ts => ∃ ds, l = elementValues ds ∧ (s = .arrTail → ts = arrTail ds) ∧ (s = .arrBody → ts = arrBody ds) ∧
      (s = .arrElems → ds ≠ [] ∧ ts = arrBody ds)

/-- **What is derived is written.** -/
theorem Derives.written {s : Sym} {ts : List Terminal} {m : Meaning} (h : Derives s ts m) : m.Written s ts := by
  induction h with
  | rule1 _ ih | rule2 _ ih | rule3 _ ih | rule4 _ ih => exact ih
  | rule5 => exact ⟨.string _, rfl, rfl⟩
  | @rule6 t v hs hv | @rule7 t v hs hv =>
    cases t <;> cases hs <;> cases hv
    · first | exact ⟨.int _, rfl, rfl⟩ | exact ⟨.null, rfl, rfl⟩
    · first | exact ⟨.float _, rfl, rfl⟩ | exact ⟨.bool _, rfl, rfl⟩
  | @rule8 ts m o _ ho ih =>
    obtain ⟨ds, rfl, -, hts, -⟩ := ih
    refine ⟨.object ds, congrArg _ (hts rfl), ?_⟩
    rw [objectOf_iff.1 ho, Doc.value]
  | rule9 => exact ⟨[], rfl, (fun h => by cases h), fun _ => rfl, (fun h => by cases h)⟩
  | rule13 => exact ⟨[], rfl, fun _ => rfl, (fun h => by cases h), (fun h => by cases h)⟩
  | rule16 => exact ⟨[], rfl, (fun h => by cases h), fun _ => rfl, (fun h => by cases h)⟩
  | rule20 => exact ⟨[], rfl, fun _ => rfl, (fun h => by cases h), (fun h => by cases h)⟩
  | rule10 _ ih =>
    obtain ⟨ds, hm, -, -, hts⟩ := ih
    exact ⟨ds, hm, (fun h => by cases h), fun _ => (hts rfl).2, (fun h => by cases h)⟩
  | rule17 _ ih =>
    obtain ⟨ds, hl, -, -, hts⟩ := ih
    exact ⟨ds, hl, (fun h => by cases h), fun _ => (hts rfl).2, (fun h => by cases h)⟩
  | @rule11 ts us name v m _ _ ih ih' =>
    obtain ⟨d, rfl, rfl⟩ := ih
    obtain ⟨ds, rfl, hus, -, -⟩ := ih'
    rw [hus rfl]
    exact ⟨(name, d) :: ds, rfl, (fun h => by cases h), (fun h => by cases h), fun _ => ⟨List.cons_ne_nil _ _, rfl⟩⟩
  | @rule18 ts us v l _ _ ih ih' =>
    obtain ⟨d, rfl, rfl⟩ := ih
    obtain ⟨ds, rfl, hus, -, -⟩ := ih'
    rw [hus rfl]
    exact ⟨d :: ds, rfl, (fun h => by cases h), (fun h => by cases h), fun _ => ⟨List.cons_ne_nil _ _, rfl⟩⟩
  | rule12 _ ih =>
    obtain ⟨ds, hm, -, -, hts⟩ := ih
    obtain ⟨hne, rfl⟩ := hts rfl
    obtain ⟨e, ds, rfl⟩ := List.exists_cons_of_ne_nil hne
    exact ⟨e :: ds, hm, fun _ => rfl, (fun h => by cases h), (fun h => by cases h)⟩
  | rule19 _ ih =>
    obtain ⟨ds, hl, -, -, hts⟩ := ih
    obtain ⟨hne, rfl⟩ := hts rfl
    obtain ⟨d, ds, rfl⟩ := List.exists_cons_of_ne_nil hne
    exact ⟨d :: ds, hl, fun _ => rfl, (fun h => by cases h), (fun h => by cases h)⟩
  | rule14 _ ih =>
    obtain ⟨d, rfl, rfl⟩ := ih
    exact ⟨d, rfl, rfl⟩
  | rule15 _ ih =>
    obtain ⟨ds, rfl, -, hts, -⟩ := ih
    exact ⟨.array ds, congrArg _ (hts rfl), rfl⟩

/-! ## Documents, one after the other -/

open Predictive

/-- **A value is read in one way.** -/
theorem Doc.unique {d d' : Doc} {us us' : List Terminal} (h : d.terminals ++ us = d'.terminals ++ us') :
    us = us' ∧ d.value = d'.value := by
  have hfeeds : ∀ d : Doc, predictor.Feeds [.value] [] d.terminals [] [d.value] := by
    intro d
    have hfeeds : predictor.Feeds [.value] [] (d.terminals ++ []) [] [d.value] := d.derives.feeds .value .nil
    rwa [List.append_nil] at hfeeds
  have hterms : d.terminals = d'.terminals := by
    rcases List.append_eq_append_iff.1 h with ⟨ts, hd', -⟩ | ⟨ts, hd, -⟩
    · obtain rfl := (hfeeds d).prefix_free (hd' ▸ hfeeds d')
      rw [hd', List.append_nil]
    · obtain rfl := (hfeeds d').prefix_free (hd ▸ hfeeds d)
      rw [hd, List.append_nil]
  have hvals := (hfeeds d).det (hterms ▸ hfeeds d')
  rw [hterms] at h
  exact ⟨List.append_cancel_left h, (List.cons.inj hvals).1⟩

theorem Doc.terminals_ne_nil (d : Doc) : d.terminals ≠ [] := by
  cases d <;> exact List.cons_ne_nil _ _

/-- Documents are read in one way. -/
theorem docs_unique {ds ds' : List Doc} (h : ds.flatMap Doc.terminals = ds'.flatMap Doc.terminals) :
    ds.map Doc.value = ds'.map Doc.value := by
  induction ds generalizing ds' with
  | nil =>
    cases ds' with
    | nil => rfl
    | cons d' ds' => exact absurd (List.append_eq_nil_iff.1 h.symm).1 d'.terminals_ne_nil
  | cons d ds ih =>
    cases ds' with
    | nil => exact absurd (List.append_eq_nil_iff.1 h).1 d.terminals_ne_nil
    | cons d' ds' =>
      rw [List.flatMap_cons, List.flatMap_cons] at h
      obtain ⟨hrest, hval⟩ := Doc.unique h
      rw [List.map_cons, List.map_cons, hval, ih hrest]

theorem Documents.written {ts : List Terminal} {vals : List Value} (h : Documents ts vals) :
    ∃ ds : List Doc, ts = ds.flatMap Doc.terminals ∧ vals = ds.map Doc.value := by
  induction h with
  | nil => exact ⟨[], rfl, rfl⟩
  | cons hd _ ih =>
    obtain ⟨d, rfl, rfl⟩ := hd.written
    obtain ⟨ds, rfl, rfl⟩ := ih
    exact ⟨d :: ds, rfl, rfl⟩

/-! ## Cells -/

section

variable {t : Terminal} {ts us : List Terminal} {m : List (List UInt8 × Doc)}

/-- How many cells some terminals make. -/
def terminalCells (ts : List Terminal) : ℕ := cellsOf (ts.map Terminal.token)

def terminalNames (ts : List Terminal) : ℕ := namesOf (ts.map Terminal.token)

theorem terminalCells_cons : terminalCells (t :: ts) = tokenCells t.sym + closingCells t.sym + terminalCells ts := by
  rw [terminalCells, List.map_cons, cellsOf, List.map_cons, List.sum_cons]
  rfl

theorem terminalNames_cons : terminalNames (t :: ts) = tokenNames t.sym + terminalNames ts := by
  rw [terminalNames, List.map_cons, namesOf, List.map_cons, List.sum_cons]
  rfl

theorem terminalCells_append : terminalCells (ts ++ us) = terminalCells ts + terminalCells us := by
  induction ts with
  | nil => exact (Nat.zero_add _).symm
  | cons t ts ih =>
    rw [List.cons_append, terminalCells_cons, terminalCells_cons, ih]
    omega

theorem terminalNames_append : terminalNames (ts ++ us) = terminalNames ts + terminalNames us := by
  induction ts with
  | nil => exact (Nat.zero_add _).symm
  | cons t ts ih => rw [List.cons_append, terminalNames_cons, terminalNames_cons, ih, Nat.add_assoc]

end

mutual

/-- **The cells of a document** are those of its tokens, but for the names. -/
theorem Doc.terminalCells_eq : ∀ d : Doc, terminalCells d.terminals = terminalNames d.terminals + d.cells
  | .null | .bool _ | .int _ | .float _ | .string _ => rfl
  | .array [] => rfl
  | .array (d :: l) => by
    have hd := d.terminalCells_eq
    have hl := arrTail_cells l
    rw [Doc.terminals, arrBody, terminalCells_cons, terminalNames_cons, terminalCells_append, terminalNames_append, Doc.cells,
      elementsMade]
    simp only [Terminal.sym, tokenCells, closingCells, tokenNames]
    omega
  | .object [] => rfl
  | .object ((name, d) :: m) => by
    have hd := d.terminalCells_eq
    have hm := objTail_cells m
    rw [Doc.terminals, objBody, Doc.cells, membersMade]
    simp only [terminalCells_cons, terminalNames_cons, terminalCells_append, terminalNames_append, Terminal.sym, tokenCells,
      closingCells, tokenNames]
    omega

theorem arrTail_cells : ∀ l : List Doc, terminalCells (arrTail l) = terminalNames (arrTail l) + (elementsMade l + 1)
  | [] => rfl
  | d :: l => by
    have hd := d.terminalCells_eq
    have hl := arrTail_cells l
    rw [arrTail, elementsMade]
    simp only [terminalCells_cons, terminalNames_cons, terminalCells_append, terminalNames_append, Terminal.sym, tokenCells,
      closingCells, tokenNames]
    omega

theorem objTail_cells : ∀ m : List (List UInt8 × Doc),
    terminalCells (objTail m) = terminalNames (objTail m) + (membersMade m + 1)
  | [] => rfl
  | (name, d) :: m => by
    have hd := d.terminalCells_eq
    have hm := objTail_cells m
    rw [objTail, membersMade]
    simp only [terminalCells_cons, terminalNames_cons, terminalCells_append, terminalNames_append, Terminal.sym, tokenCells,
      closingCells, tokenNames]
    omega

end

/-- A member whose name is there already is not added. -/
theorem membersCells_memberAdd {key : CString} {v : Value} {o : List (CString × Value)}
    (ho : o.Pairwise fun x y => x.1.bytes < y.1.bytes) :
    ((∃ w, (key, w) ∈ o) → membersCells (memberAdd key v o) = membersCells o) ∧
      ((¬ ∃ w, (key, w) ∈ o) → membersCells (memberAdd key v o) = v.cells + membersCells o) := by
  have hcells : ∀ {o o' : List (CString × Value)}, o.Perm o' → membersCells o = membersCells o' := by
    intro o o' hp
    rw [membersCells_eq, membersCells_eq]
    exact (hp.map _).sum_eq
  rcases memberAdd_cases key v o with heq | hperm
  · refine ⟨fun _ => by rw [heq], fun hno => ?_⟩
    have hin : (key, v) ∈ memberAdd key v o := (mem_memberAdd ho).2 (.inr ⟨rfl, rfl, fun w hw => hno ⟨w, hw⟩⟩)
    rw [heq] at hin
    exact absurd ⟨v, hin⟩ hno
  · refine ⟨?_, fun _ => hcells hperm⟩
    rintro ⟨w, hw⟩
    -- no name is there twice
    have hnodup : ((memberAdd key v o).map Prod.fst).Nodup := by
      rw [List.Nodup, List.pairwise_map]
      refine (memberAdd_sorted ho).imp fun hlt heq => ?_
      rw [heq] at hlt
      exact List.lt_irrefl _ hlt
    have hno := (List.nodup_cons.1 ((hperm.map Prod.fst).nodup_iff.1 hnodup)).1
    exact absurd (List.mem_map.2 ⟨(key, w), hw, rfl⟩) hno

/-- The names that an object has. -/
theorem exists_mem_objectOf {m : List (List UInt8 × Doc)} {key : CString} :
    (∃ w, (key, w) ∈ objectOf (memberValues m)) ↔ ∃ e ∈ m, Parse.cString e.1 = key := by
  have hvalues : ∀ m : List (List UInt8 × Doc), memberValues m = m.map fun e => (e.1, e.2.value) := by
    intro m
    induction m with
    | nil => rfl
    | cons e m ih => rw [memberValues, ih, List.map_cons]
  have hmem := (objectOf_spec (memberValues m)).mem_iff key
  constructor
  · rintro ⟨w, hw⟩
    obtain ⟨l₁, name, l₂, heq, hkey, -⟩ := (hmem w).1 hw
    have hin : (name, w) ∈ memberValues m := by
      rw [heq]
      exact List.mem_append_right _ List.mem_cons_self
    rw [hvalues] at hin
    obtain ⟨e, he, hew⟩ := List.mem_map.1 hin
    exact ⟨e, he, by rw [show e.1 = name from congrArg Prod.fst hew, hkey]⟩
  · rintro ⟨e, he, hkey⟩
    have hin : (e.1, e.2.value) ∈ memberValues m := by
      rw [hvalues]
      exact List.mem_map_of_mem he
    obtain ⟨l₁, x, l₂, heq, hx, hlast⟩ :=
      @exists_last _ (fun x => Parse.cString x.1 = key) (memberValues m) ⟨_, hin, hkey⟩
    exact ⟨x.2, (hmem x.2).2 ⟨l₁, x.1, l₂, heq, hx, hlast⟩⟩

/-- What is not counted has no cells. -/
theorem Doc.constant_iff (d : Doc) : d.Constant ↔ d.cells = 0 := by
  cases d with
  | null | bool b => exact iff_of_true trivial rfl
  | int z | float text | string bytes => exact iff_of_false id Nat.one_ne_zero
  | array l | object m => exact iff_of_false id (Nat.succ_ne_zero _)

theorem Doc.Constant.distinct {d : Doc} (h : d.Constant) : d.Distinct := by
  cases d <;> first | exact absurd h id | exact trivial

mutual

/-- **The cells of a value** are those of the document, if all of them are in
it. -/
theorem Doc.value_cells : ∀ d : Doc, d.value.cells ≤ d.cells ∧ (d.value.cells = d.cells ↔ d.Distinct)
  | .null | .bool _ | .int _ | .float _ | .string _ => ⟨le_rfl, iff_of_true rfl trivial⟩
  | .array l => by
    obtain ⟨hle, heq⟩ := elementValues_cells l
    rw [Doc.value, Value.cells, Doc.cells, Doc.Distinct, ← heq]
    omega
  | .object m => by
    obtain ⟨hle, heq⟩ := memberValues_cells m
    rw [Doc.value, Value.cells, Doc.cells, Doc.Distinct, ← heq]
    omega

theorem elementValues_cells : ∀ l : List Doc, elementsCells (elementValues l) ≤ elementsMade l ∧
    (elementsCells (elementValues l) = elementsMade l ↔ DistinctElements l)
  | [] => ⟨le_rfl, iff_of_true rfl trivial⟩
  | d :: l => by
    obtain ⟨hd, hdeq⟩ := d.value_cells
    obtain ⟨hl, hleq⟩ := elementValues_cells l
    rw [elementValues, elementsCells, elementsMade, DistinctElements, ← hdeq, ← hleq]
    omega

theorem memberValues_cells : ∀ m : List (List UInt8 × Doc),
    membersCells (objectOf (memberValues m)) ≤ membersMade m ∧
      (membersCells (objectOf (memberValues m)) = membersMade m ↔ DistinctMembers m)
  | [] => ⟨le_rfl, iff_of_true rfl trivial⟩
  | (name, d) :: m => by
    obtain ⟨hd, hdeq⟩ := d.value_cells
    obtain ⟨hm, hmeq⟩ := memberValues_cells m
    have hadd : objectOf (memberValues ((name, d) :: m)) =
        memberAdd (Parse.cString name) d.value (objectOf (memberValues m)) := rfl
    obtain ⟨hthere, hnew⟩ := @membersCells_memberAdd (Parse.cString name) d.value _ (objectOf_spec (memberValues m)).sorted
    rw [exists_mem_objectOf] at hthere hnew
    rw [hadd, membersMade, DistinctMembers, ← hmeq]
    by_cases hdup : ∃ e ∈ m, Parse.cString e.1 = Parse.cString name
    · rw [hthere hdup]
      have hconst := d.constant_iff
      have hdist := @Doc.Constant.distinct d
      refine ⟨by omega, fun heq => ⟨hdist (hconst.2 (by omega)), fun _ => hconst.2 (by omega), by omega⟩, ?_⟩
      rintro ⟨-, hall, hrest⟩
      have hzero := hconst.1 (hall hdup)
      omega
    · rw [hnew hdup]
      refine ⟨by omega, fun heq => ⟨hdeq.1 (by omega), fun h => absurd h hdup, by omega⟩, ?_⟩
      rintro ⟨hdist, -, hrest⟩
      have hall := hdeq.2 hdist
      omega

end

end Json

end Mowgli
