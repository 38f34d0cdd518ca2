import Mathlib.Data.List.Sort
import Mowgli.Ext.Json.Value
/-!
# The grammar, and what it means

The twenty rules as the comment over the parser has them, and what each
symbol stands for: a value, the members of an object, or the elements of an
array. An object is a map, in which the last of the members of one name
counts; names are C strings, so what is after a NUL does not tell them
apart.
-/

namespace Mowgli

namespace Json

/-- The terminals, with their values. -/
inductive Terminal
  | beginObject
  | endObject
  | beginArray
  | endArray
  | nameSep
  | valueSep
  | string (bytes : List UInt8)
  | int (z : ℤ)
  | float (text : List UInt8)
  | null
  | bool (b : Bool)

namespace Terminal

def sym : Terminal → Sym
  | beginObject => .beginObject
  | endObject => .endObject
  | beginArray => .beginArray
  | endArray => .endArray
  | nameSep => .nameSep
  | valueSep => .valueSep
  | string _ => .string
  | int _ | float _ => .number
  | null | bool _ => .identifier

def val : Terminal → Option Value
  | string bytes => some (.string bytes)
  | int z => some (.int z)
  | float text => some (.float text)
  | null => some .null
  | bool b => some (.bool b)
  | _ => none

/-- The token that is parsed. -/
def token (t : Terminal) : Token Value := ⟨t.sym, t.val⟩

end Terminal

/-- What a symbol stands for. -/
inductive Meaning
  | value (v : Value)
  | member (name : List UInt8) (v : Value)
  | members (m : List (List UInt8 × Value))
  | elements (l : List Value)

/-- The map that some members make. -/
structure ObjectOf (m : List (List UInt8 × Value)) (o : List (CString × Value)) : Prop where
  sorted : o.Pairwise fun x y => x.1.bytes < y.1.bytes
  /-- The last member of a name is the one that counts. -/
  mem_iff : ∀ key v, (key, v) ∈ o ↔
    ∃ l₁ name l₂, m = l₁ ++ (name, v) :: l₂ ∧ Parse.cString name = key ∧
      ∀ e ∈ l₂, Parse.cString e.1 ≠ key

/-- The rules of the grammar. -/
inductive Derives : Sym → List Terminal → Meaning → Prop
  | rule1 {ts v} : Derives .object ts (.value v) → Derives .jsonDocument ts (.value v)
  | rule2 {ts v} : Derives .array ts (.value v) → Derives .jsonDocument ts (.value v)
  | rule3 {ts v} : Derives .object ts (.value v) → Derives .value ts (.value v)
  | rule4 {ts v} : Derives .array ts (.value v) → Derives .value ts (.value v)
  | rule5 {bytes} : Derives .value [.string bytes] (.value (.string bytes))
  | rule6 {t v} : t.sym = .number → t.val = some v → Derives .value [t] (.value v)
  | rule7 {t v} : t.sym = .identifier → t.val = some v → Derives .value [t] (.value v)
  | rule8 {ts m o} : Derives .objBody ts (.members m) → ObjectOf m o →
      Derives .object (.beginObject :: ts) (.value (.object o))
  | rule9 : Derives .objBody [.endObject] (.members [])
  | rule10 {ts m} : Derives .objElems ts (.members m) → Derives .objBody ts (.members m)
  | rule11 {ts us name v m} : Derives .objElem ts (.member name v) → Derives .objTail us (.members m) →
      Derives .objElems (ts ++ us) (.members ((name, v) :: m))
  | rule12 {ts m} : Derives .objElems ts (.members m) → Derives .objTail (.valueSep :: ts) (.members m)
  | rule13 : Derives .objTail [.endObject] (.members [])
  | rule14 {ts name v} : Derives .value ts (.value v) →
      Derives .objElem (.string name :: .nameSep :: ts) (.member name v)
  | rule15 {ts l} : Derives .arrBody ts (.elements l) →
      Derives .array (.beginArray :: ts) (.value (.array l))
  | rule16 : Derives .arrBody [.endArray] (.elements [])
  | rule17 {ts l} : Derives .arrElems ts (.elements l) → Derives .arrBody ts (.elements l)
  | rule18 {ts us v l} : Derives .value ts (.value v) → Derives .arrTail us (.elements l) →
      Derives .arrElems (ts ++ us) (.elements (v :: l))
  | rule19 {ts l} : Derives .arrElems ts (.elements l) → Derives .arrTail (.valueSep :: ts) (.elements l)
  | rule20 : Derives .arrTail [.endArray] (.elements [])

/-- Documents, one after the other. -/
inductive Documents : List Terminal → List Value → Prop
  | nil : Documents [] []
  | cons {ts us v vs} : Derives .jsonDocument ts (.value v) → Documents us vs →
      Documents (ts ++ us) (v :: vs)

/-! ## Objects as maps -/

section

variable {α : Type} {key k : CString} {val v : α} {m o : List (CString × α)}

theorem mem_keys_memberAdd {x : CString × α} (h : x ∈ memberAdd key val m) : x = (key, val) ∨ x ∈ m := by
  induction m with
  | nil => exact Or.inl (List.mem_singleton.1 h)
  | cons e m ih =>
    unfold memberAdd at h
    split_ifs at h with hk hlt
    · exact Or.inr h
    · exact List.mem_cons.1 h
    · rcases List.mem_cons.1 h with rfl | h
      · exact Or.inr List.mem_cons_self
      · exact (ih h).imp_right (List.mem_cons_of_mem _)

theorem memberAdd_sorted (h : m.Pairwise fun x y => x.1.bytes < y.1.bytes) :
    (memberAdd key val m).Pairwise fun x y => x.1.bytes < y.1.bytes := by
  induction m with
  | nil => exact List.pairwise_singleton _ _
  | cons e m ih =>
    rw [List.pairwise_cons] at h
    unfold memberAdd
    split_ifs with hk hlt
    · exact List.pairwise_cons.2 h
    · refine List.pairwise_cons.2 ⟨fun x hx => ?_, List.pairwise_cons.2 h⟩
      rcases List.mem_cons.1 hx with rfl | hx
      · exact hlt
      · exact List.lt_trans hlt (h.1 x hx)
    · refine List.pairwise_cons.2 ⟨fun x hx => ?_, ih h.2⟩
      rcases mem_keys_memberAdd hx with rfl | hx
      · have hne : e.1.bytes ≠ key.bytes := fun heq => hk (CString.ext heq.symm)
        exact Std.lt_of_le_of_ne (List.not_lt.1 hlt) hne
      · exact h.1 x hx

/-- A key that is not there is added, one that is there stays. -/
theorem mem_memberAdd (h : m.Pairwise fun x y => x.1.bytes < y.1.bytes) :
    (k, v) ∈ memberAdd key val m ↔ (k, v) ∈ m ∨ (k = key ∧ v = val ∧ ∀ w, (key, w) ∉ m) := by
  induction m with
  | nil => simp [memberAdd]
  | cons e m ih =>
    obtain ⟨k', v'⟩ := e
    rw [List.pairwise_cons] at h
    unfold memberAdd
    split_ifs with hk hlt
    · subst hk
      constructor
      · exact Or.inl
      · rintro (hmem | ⟨-, -, hno⟩)
        · exact hmem
        · exact absurd List.mem_cons_self (hno v')
    · have hno : ∀ w, (key, w) ∉ (k', v') :: m := by
        intro w hw
        rcases List.mem_cons.1 hw with heq | hw
        · exact hk (Prod.mk.inj heq).1
        · exact absurd (List.lt_trans hlt (h.1 _ hw)) (List.lt_irrefl _)
      simp only [List.mem_cons (b := (key, val)), Prod.mk.injEq]
      constructor
      · rintro (⟨rfl, rfl⟩ | hmem)
        · exact Or.inr ⟨rfl, rfl, hno⟩
        · exact Or.inl hmem
      · rintro (hmem | ⟨rfl, rfl, -⟩)
        · exact Or.inr hmem
        · exact Or.inl ⟨rfl, rfl⟩
    · rw [List.mem_cons, List.mem_cons, ih h.2, or_assoc]
      refine or_congr_right (or_congr_right (and_congr_right fun _ => and_congr_right fun _ => ?_))
      refine forall_congr' fun w => not_congr ?_
      rw [List.mem_cons, Prod.mk.injEq]
      constructor
      · exact Or.inr
      · rintro (⟨rfl, -⟩ | hmem)
        · exact absurd rfl hk
        · exact hmem

/-- Members in the order of their keys are told by what they are. -/
theorem eq_of_sorted (hm : m.Pairwise fun x y => x.1.bytes < y.1.bytes) (ho : o.Pairwise fun x y => x.1.bytes < y.1.bytes)
    (hmem : ∀ x, x ∈ m ↔ x ∈ o) : m = o := by
  have hnodup : ∀ m : List (CString × α), m.Pairwise (fun x y => x.1.bytes < y.1.bytes) → m.Nodup :=
    fun m hm => hm.imp fun hlt heq => by
      subst heq
      exact List.lt_irrefl _ hlt
  have hperm : m.Perm o := (List.perm_ext_iff_of_nodup (hnodup m hm) (hnodup o ho)).2 hmem
  refine hperm.eq_of_pairwise (fun x y _ _ hxy hyx => ?_) hm ho
  exact absurd (List.lt_trans hxy hyx) (List.lt_irrefl _)

end

/-- Where some element is of a kind, there is a last one of that kind. -/
theorem exists_last {α : Type} {P : α → Prop} {l : List α} (h : ∃ x ∈ l, P x) :
    ∃ l₁ x l₂, l = l₁ ++ x :: l₂ ∧ P x ∧ ∀ y ∈ l₂, ¬ P y := by
  induction l with
  | nil =>
    obtain ⟨x, hx, -⟩ := h
    exact absurd hx List.not_mem_nil
  | cons y l ih =>
    by_cases hin : ∃ x ∈ l, P x
    · obtain ⟨l₁, x, l₂, rfl, hx, hlast⟩ := ih hin
      exact ⟨y :: l₁, x, l₂, rfl, hx, hlast⟩
    · obtain ⟨x, hx, hP⟩ := h
      rcases List.mem_cons.1 hx with rfl | hx
      · exact ⟨[], x, l, rfl, hP, fun z hz hPz => hin ⟨z, hz, hPz⟩⟩
      · exact absurd ⟨x, hx, hP⟩ hin

/-- The members put into an object one after the other, the last one first. -/
def objectOf (m : List (List UInt8 × Value)) : List (CString × Value) :=
  m.foldr (fun e o => memberAdd (Parse.cString e.1) e.2 o) []

/-- Members put in from the last on make the map. -/
theorem objectOf_spec (m : List (List UInt8 × Value)) : ObjectOf m (objectOf m) := by
  induction m with
  | nil =>
    refine ⟨List.Pairwise.nil, fun key v => iff_of_false List.not_mem_nil ?_⟩
    rintro ⟨l₁, name, l₂, heq, -⟩
    simp at heq
  | cons e m ih =>
    obtain ⟨name, w⟩ := e
    refine ⟨memberAdd_sorted ih.sorted, fun key v => ?_⟩
    show (key, v) ∈ memberAdd (Parse.cString name) w (objectOf m) ↔ _
    rw [mem_memberAdd ih.sorted, ih.mem_iff]
    constructor
    · rintro (⟨l₁, name', l₂, rfl, hkey, hlast⟩ | ⟨rfl, rfl, hno⟩)
      · exact ⟨(name, w) :: l₁, name', l₂, rfl, hkey, hlast⟩
      · refine ⟨[], name, m, rfl, rfl, fun e he heq => ?_⟩
        -- the last member of that name would have been put in before
        obtain ⟨l₁, x, l₂, hm, hx, hlast⟩ :=
          @exists_last _ (fun x => Parse.cString x.1 = Parse.cString name) m ⟨e, he, heq⟩
        exact hno x.2 ((ih.mem_iff _ _).2 ⟨l₁, x.1, l₂, hm, hx, hlast⟩)
    · rintro ⟨l₁, name', l₂, heq, hkey, hlast⟩
      rcases l₁ with _ | ⟨e, l₁⟩
      · simp only [List.nil_append, List.cons.injEq, Prod.mk.injEq] at heq
        obtain ⟨⟨rfl, rfl⟩, rfl⟩ := heq
        refine Or.inr ⟨hkey.symm, rfl, fun u hu => ?_⟩
        obtain ⟨l₁, name', l₂', rfl, hn, -⟩ := (ih.mem_iff _ _).1 hu
        exact hlast (name', u) (by simp) (hn.trans hkey)
      · simp only [List.cons_append, List.cons.injEq] at heq
        exact Or.inl ⟨l₁, name', l₂, heq.2, hkey, hlast⟩

/-- There is only one map that some members make. -/
theorem ObjectOf.eq {m : List (List UInt8 × Value)} {o o' : List (CString × Value)} (h : ObjectOf m o)
    (h' : ObjectOf m o') : o = o' :=
  eq_of_sorted h.sorted h'.sorted fun x => (h.mem_iff x.1 x.2).trans (h'.mem_iff x.1 x.2).symm

theorem objectOf_iff {m : List (List UInt8 × Value)} {o : List (CString × Value)} :
    ObjectOf m o ↔ o = objectOf m := by
  constructor
  · intro h
    exact h.eq (objectOf_spec m)
  · rintro rfl
    exact objectOf_spec m

/-! ## What derivations begin with -/

/-- Every derivation has a first token, and the table knows it. -/
theorem Derives.first {s : Sym} {ts : List Terminal} {m : Meaning} (h : Derives s ts m) :
    ∃ t us, ts = t :: us ∧ llTable s t.sym ≠ 0 := by
  have hobj : ∀ x : Sym, llTable .object x ≠ 0 → llTable .jsonDocument x ≠ 0 ∧ llTable .value x ≠ 0 := by decide
  have harr : ∀ x : Sym, llTable .array x ≠ 0 → llTable .jsonDocument x ≠ 0 ∧ llTable .value x ≠ 0 := by decide
  have hobjElems : ∀ x : Sym, llTable .objElems x ≠ 0 → llTable .objBody x ≠ 0 := by decide
  have hobjElem : ∀ x : Sym, llTable .objElem x ≠ 0 → llTable .objElems x ≠ 0 := by decide
  have harrElems : ∀ x : Sym, llTable .arrElems x ≠ 0 → llTable .arrBody x ≠ 0 := by decide
  have hvalue : ∀ x : Sym, llTable .value x ≠ 0 → llTable .arrElems x ≠ 0 := by decide
  induction h with
  | rule1 _ ih | rule3 _ ih =>
    obtain ⟨t, us, hts, ht⟩ := ih
    exact ⟨t, us, hts, by first | exact (hobj _ ht).1 | exact (hobj _ ht).2⟩
  | rule2 _ ih | rule4 _ ih =>
    obtain ⟨t, us, hts, ht⟩ := ih
    exact ⟨t, us, hts, by first | exact (harr _ ht).1 | exact (harr _ ht).2⟩
  | rule6 hs _ | rule7 hs _ =>
    refine ⟨_, [], rfl, ?_⟩
    rw [hs]
    decide
  | rule10 _ ih =>
    obtain ⟨t, us, hts, ht⟩ := ih
    exact ⟨t, us, hts, hobjElems _ ht⟩
  | rule11 _ _ ih =>
    obtain ⟨t, us, rfl, ht⟩ := ih
    exact ⟨t, _, rfl, hobjElem _ ht⟩
  | rule17 _ ih =>
    obtain ⟨t, us, hts, ht⟩ := ih
    exact ⟨t, us, hts, harrElems _ ht⟩
  | rule18 _ _ ih =>
    obtain ⟨t, us, rfl, ht⟩ := ih
    exact ⟨t, _, rfl, hvalue _ ht⟩
  | _ => exact ⟨_, _, rfl, by simp [Terminal.sym, llTable]⟩

/-- The markers are no values of the grammar. -/
def Value.IsMarker : Value → Prop
  | .objStart | .arrStart => True
  | _ => False

theorem Derives.not_marker {s : Sym} {ts : List Terminal} {v : Value} (h : Derives s ts (.value v)) :
    ¬ v.IsMarker := by
  have hval : ∀ {t : Terminal} {v : Value}, t.val = some v → ¬ v.IsMarker := by
    intro t v ht
    cases t <;> simp only [Terminal.val, Option.some.injEq, reduceCtorEq] at ht <;> subst ht <;> exact id
  generalize hm : Meaning.value v = m at h
  induction h with
  | rule1 _ ih | rule2 _ ih | rule3 _ ih | rule4 _ ih => exact ih hm
  | rule6 _ ht | rule7 _ ht =>
    cases hm
    exact hval ht
  | rule5 | rule8 | rule15 =>
    cases hm
    exact id
  | _ => cases hm

end Json

end Mowgli
