import Mowgli.Ext.Json.Accepts
import Mowgli.Ext.Json.Counted
import Mowgli.Library.Owned
/-!
# Values that are counted once

A value that the parser made is the only one to hold what it holds, and has
one reference. What the operations do to a ledger of such values: to give a
value another reference, to put it into a container and to take the first
reference away again leaves it with one.
-/

namespace Mowgli

namespace Json

/-- The cell of a pointer. -/
def Ref.addr : Ref → Option Addr
  | .cell a => some a
  | _ => none

/-- The values that are not counted. -/
inductive Ref.Constant : Ref → Value → Prop
  | null : Ref.Constant .null .null
  | true : Ref.Constant .true (.bool Bool.true)
  | false : Ref.Constant .false (.bool Bool.false)
  | objStart : Ref.Constant .objStart .objStart
  | arrStart : Ref.Constant .arrStart .arrStart

/-- What a cell is that has one reference. -/
inductive JsonCell.Shape : JsonCell → Value → List (Ref × Value) → Prop
  | int (z : ℤ) : JsonCell.Shape ⟨1, .int z⟩ (.int z) []
  | float (text : List UInt8) : JsonCell.Shape ⟨1, .float text⟩ (.float text) []
  | string (bytes : List UInt8) : JsonCell.Shape ⟨1, .string bytes⟩ (.string bytes) []
  | array (l : List (Ref × Value)) : JsonCell.Shape ⟨1, .array (l.map Prod.fst)⟩ (.array (l.map Prod.snd)) l
  | object (m : List (CString × Ref × Value)) :
      JsonCell.Shape ⟨1, .object (m.map fun e => (e.1, e.2.1))⟩ (.object (m.map fun e => (e.1, e.2.2))) (m.map Prod.snd)

/-- How pointers to values are read. -/
def counted : Ownership JsonCell Ref Value := ⟨Ref.addr, Ref.Constant, JsonCell.Shape⟩

mutual

/-- How many cells a value is. -/
def Value.cells : Value → ℕ
  | .int _ | .float _ | .string _ => 1
  | .array l => elementsCells l + 1
  | .object m => membersCells m + 1
  | .null | .bool _ | .objStart | .arrStart => 0

def elementsCells : List Value → ℕ
  | [] => 0
  | v :: l => v.cells + elementsCells l

def membersCells : List (CString × Value) → ℕ
  | [] => 0
  | (_, v) :: m => v.cells + membersCells m

end

section

variable {h h₀ h' : JsonHeap} {E E' : List (Ref × Value)} {S : Multiset Addr} {n : JsonCell} {v w : Value} {r : Ref}
  {a : Addr} {k : Contents} {l : List (Ref × Value)} {key : CString}

theorem elementsCells_eq (l : List Value) : elementsCells l = (l.map Value.cells).sum := by
  induction l with
  | nil => rfl
  | cons v l ih => rw [elementsCells, ih, List.map_cons, List.sum_cons]

theorem membersCells_eq (m : List (CString × Value)) : membersCells m = (m.map fun e => e.2.cells).sum := by
  induction m with
  | nil => rfl
  | cons e m ih => rw [membersCells, ih, List.map_cons, List.sum_cons]

theorem Ref.Constant.cells_eq (hv : r.Constant v) : v.cells = 0 := by
  cases hv <;> rfl

theorem JsonCell.Shape.held_eq (hn : n.Shape v l) : n.contents.held = l.map Prod.fst := by
  cases hn with
  | object m => simp [Contents.held]
  | _ => rfl

theorem JsonCell.Shape.cells_eq (hn : n.Shape v l) : v.cells = (l.map fun e => e.2.cells).sum + 1 := by
  cases hn with
  | array l => rw [Value.cells, elementsCells_eq, List.map_map]; rfl
  | object m => rw [Value.cells, membersCells_eq, List.map_map, List.map_map]; rfl
  | _ => rfl

theorem JsonCell.Shape.refcount_eq (hn : n.Shape v l) : n = ⟨1, n.contents⟩ := by
  cases hn <;> rfl

theorem JsonCell.Shape.array_eq {vals : List Value} (hn : n.Shape (.array vals) l) :
    n = ⟨1, .array (l.map Prod.fst)⟩ ∧ vals = l.map Prod.snd := by
  cases hn
  exact ⟨rfl, rfl⟩

theorem JsonCell.Shape.object_eq {o : List (CString × Value)} (hn : n.Shape (.object o) l) :
    ∃ m : List (CString × Ref × Value), n = ⟨1, .object (m.map fun e => (e.1, e.2.1))⟩ ∧
      o = m.map (fun e => (e.1, e.2.2)) ∧ l = m.map Prod.snd := by
  cases hn with
  | object m => exact ⟨m, rfl, rfl, rfl⟩

/-! ## One operation -/

/-- A reference more. -/
theorem incref_cell {c : ℤ} (ha : h.get a = some ⟨c, k⟩) (hc : 0 ≤ c) : h.incref (.cell a) = .ok (h.set a ⟨c + 1, k⟩) := by
  have hne : c ≠ JSON_REFCOUNT_CONSTANT := by
    unfold JSON_REFCOUNT_CONSTANT
    omega
  simp only [JsonHeap.incref, ha, if_neg hne]

/-- A reference that is not the last one. -/
theorem decref_cell (ha : h.get a = some ⟨2, k⟩) : h.decref (.cell a) = .ok (h.set a ⟨1, k⟩) := by
  simp only [JsonHeap.decref, JsonHeap.decrefIn, ha]
  rfl

/-- The last reference to a value that holds none. -/
theorem decref_leaf (ha : h.get a = some ⟨1, k⟩) (hk : k.held = []) : h.decref (.cell a) = .ok (Store.free h a) := by
  simp only [JsonHeap.decref, JsonHeap.decrefIn, ha, hk, List.foldlM_nil]
  show JsonHeap.free _ a = _
  rw [JsonHeap.free, Store.get_set_self]
  show Except.ok (Store.free (Store.set h a _) a) = _
  rw [Store.free_set]

theorem incref_constant (hr : r.addr = none) : h.incref r = .ok h := by
  cases r <;> first | rfl | cases hr

theorem decref_constant (hr : r.addr = none) : h.decref r = .ok h := by
  cases r <;> first | rfl | cases hr

/-- A pointer that is read as no constant is to a cell. -/
theorem addr_of_owns (hv : ∀ r, ¬ Ref.Constant r v) (ho : Owns counted h ((r, v) :: E) S) : ∃ a, r = .cell a := by
  cases r with
  | cell a => exact ⟨a, rfl⟩
  | _ => exact absurd (ho.of_plain rfl).1 (hv _)

/-- The cell of a value, and its contents. -/
theorem cell_of_owns (ho : Owns counted h ((.cell a, v) :: E) S) : ∃ k l, h.get a = some ⟨1, k⟩ ∧
    JsonCell.Shape ⟨1, k⟩ v l := by
  obtain ⟨n, l, -, -, hn, hshape, -⟩ := ho.of_addr rfl
  have heq := JsonCell.Shape.refcount_eq hshape
  rw [heq] at hn hshape
  exact ⟨n.contents, l, hn, hshape⟩

/-- **A value is made**, and has the reference it is given at once. -/
theorem create_ledger (A : Allocator JsonCell) (hA : A.NeverFails) (hn : JsonCell.Shape ⟨1, k⟩ v [])
    (hl : Ledger counted h₀ h E S) : ∃ a h', (JsonHeap.create A hA h k).1 = .cell a ∧
      (JsonHeap.create A hA h k).2.incref (.cell a) = .ok h' ∧ Ledger counted h₀ h' ((.cell a, v) :: E) (a ::ₘ S) := by
  have hfresh : h.get ((A.pick h).get (hA h)) = none := A.fresh (Option.some_get (hA h)).symm
  refine ⟨(A.pick h).get (hA h), h.set ((A.pick h).get (hA h)) ⟨1, k⟩, rfl, ?_, hl.alloc rfl hfresh hn⟩
  have hincref := incref_cell (k := k) (Store.get_set_self h ((A.pick h).get (hA h)) _) le_rfl
  rw [Store.set_set] at hincref
  exact hincref

/-- **A reference that is given and taken away** leaves the value as it was,
whatever is done to other cells in between. -/
theorem borrow (ho : Owns counted h ((r, v) :: E) S) : ∃ g, h.incref r = .ok g ∧
    (∀ b, r.addr ≠ some b → g.get b = h.get b) ∧
    ∀ g' f : JsonHeap, (∀ b, r.addr = some b → g'.get b = g.get b ∧ f.get b = h.get b) →
      (∀ b, r.addr ≠ some b → g'.get b = f.get b) → g'.decref r = .ok f := by
  cases hr : r.addr with
  | none =>
    refine ⟨h, incref_constant hr, fun _ _ => rfl, fun g' f _ hf => ?_⟩
    rw [decref_constant hr, Store.ext_get fun b => hf b (Option.some_ne_none b).symm]
  | some c =>
    obtain rfl : r = .cell c := by
      cases r <;> cases hr
      rfl
    obtain ⟨k, l, hc, -⟩ := cell_of_owns ho
    refine ⟨h.set c ⟨2, k⟩, incref_cell hc zero_le_one, fun b hb => ?_, fun g' f hg hf => ?_⟩
    · exact Store.get_set_of_ne h _ fun hbc => hb (hbc ▸ rfl)
    · have hgc : g'.get c = some ⟨2, k⟩ := (hg c rfl).1.trans (Store.get_set_self h c _)
      rw [decref_cell hgc]
      refine congrArg _ (Store.ext_get fun b => ?_)
      rw [Store.get_set]
      by_cases hb : b = c
      · rw [if_pos hb, hb, (hg c rfl).2, hc]
      · rw [if_neg hb, hf b fun heq => hb (Option.some.inj heq).symm]

/-! ## Containers -/

theorem memberAdd_map {α β : Type} (f : α → β) (key : CString) (val : α) (m : List (CString × α)) :
    memberAdd key (f val) (m.map fun e => (e.1, f e.2)) = (memberAdd key val m).map fun e => (e.1, f e.2) := by
  induction m with
  | nil => rfl
  | cons e m ih =>
    simp only [List.map_cons, memberAdd]
    split_ifs
    · rfl
    · rfl
    · rw [ih]
      rfl

/-- A member is added, or the object has one of that name and stays as it
is. -/
theorem memberAdd_cases {α : Type} (key : CString) (val : α) (m : List (CString × α)) :
    memberAdd key val m = m ∨ (memberAdd key val m).Perm ((key, val) :: m) := by
  induction m with
  | nil => exact .inr (List.Perm.refl _)
  | cons e m ih =>
    obtain ⟨k, w⟩ := e
    rw [memberAdd]
    split_ifs
    · exact .inl rfl
    · exact .inr (List.Perm.refl _)
    · rcases ih with heq | hperm
      · exact .inl (by rw [heq])
      · exact .inr ((hperm.cons _).trans (List.Perm.swap _ _ _))

/-- **A value is put into an array.** -/
theorem arrayAdd_ledger (A : Allocator JsonCell) (hA : A.NeverFails) {vals : List Value}
    (hl : Ledger counted h₀ h ((.cell a, .array vals) :: (r, v) :: E) S) : ∃ h₁ h₂,
      Parse.arrayAddHead (countedOps A hA) h (.cell a) r = .ok (.cell a, h₁) ∧ h₁.decref r = .ok h₂ ∧
        Ledger counted h₀ h₂ ((.cell a, .array (v :: vals)) :: E) S := by
  have hne : r.addr ≠ some a := hl.addr_ne rfl
  obtain ⟨n, l, S₁, S₂, hn, hshape, hin, hrest, rfl⟩ := hl.owns.of_addr rfl
  obtain ⟨rfl, rfl⟩ := JsonCell.Shape.array_eq hshape
  obtain ⟨g, hg, hsame, hback⟩ := borrow hrest
  refine ⟨g.set a ⟨1, .array (r :: l.map Prod.fst)⟩, h.set a ⟨1, .array (r :: l.map Prod.fst)⟩, ?_, ?_, ?_⟩
  · show (h.incref r >>= fun g => g.nodeAddHead (.cell a) r) = _
    rw [hg]
    show JsonHeap.nodeAddHead g (.cell a) r = _
    simp only [JsonHeap.nodeAddHead, hsame a hne, hn]
  · refine hback _ _ (fun b hb => ?_) fun b hb => ?_
    · have hba : b ≠ a := fun hba => hne (hba ▸ hb)
      exact ⟨Store.get_set_of_ne g _ hba, Store.get_set_of_ne h _ hba⟩
    · rw [Store.get_set, Store.get_set, hsame b hb]
  · exact hl.put rfl hin hrest (JsonCell.Shape.array ((r, v) :: l)) (List.Perm.refl _)

/-- **A member is put into an object**, and its name is freed. Where the
object has one of that name, the value is in no container any more. -/
theorem objMember_ledger (A : Allocator JsonCell) (hA : A.NeverFails) {o : List (CString × Value)} {key : Ref}
    {bytes : List UInt8} (hl : Ledger counted h₀ h ((.cell a, .object o) :: (r, v) :: (key, .string bytes) :: E) S) :
    ∃ h' L S', Parse.objMember (countedOps A hA) h (.cell a) key r = .ok (some (.cell a, h')) ∧
      Ledger counted h₀ h' ((.cell a, .object (memberAdd (Parse.cString bytes) v o)) :: (L ++ E)) S' ∧
      S'.card + 1 = S.card := by
  have hkey : Ledger counted h₀ h ((key, .string bytes) :: (.cell a, .object o) :: (r, v) :: E) S :=
    hl.perm (((List.Perm.swap _ _ _).cons _).trans (List.Perm.swap _ _ _))
  have hra : r.addr ≠ some a := hl.addr_ne rfl
  obtain ⟨c, rfl⟩ := addr_of_owns (fun r hr => by cases hr) hkey.owns
  have hac : c ≠ a := fun hca => hkey.addr_ne rfl (congrArg some hca.symm)
  have hrc : r.addr ≠ some c := (hkey.perm ((List.Perm.swap _ _ _).cons _)).addr_ne rfl
  obtain ⟨k, lc, hc, hshapec⟩ := cell_of_owns hkey.owns
  obtain rfl : k = .string bytes := by
    cases hshapec
    rfl
  obtain ⟨n, l, S₁, S₂, hn, hshape, hin, hrest, rfl⟩ := hl.owns.of_addr rfl
  obtain ⟨m, rfl, rfl, rfl⟩ := JsonCell.Shape.object_eq hshape
  obtain ⟨g, hg, hsame, hback⟩ := borrow hrest
  -- the object with the member, with the pointers and with what they are read as
  have hrefs := memberAdd_map Prod.fst (Parse.cString bytes) (r, v) m
  have hvals := memberAdd_map Prod.snd (Parse.cString bytes) (r, v) m
  generalize hm' : memberAdd (Parse.cString bytes) (r, v) m = m' at hrefs hvals
  generalize hX : (⟨1, .object (m'.map fun e => (e.1, e.2.1))⟩ : JsonCell) = X
  have hput : ∃ L, Ledger counted h₀ (h.set a X) ((.cell c, .string bytes) ::
      (.cell a, .object (m'.map fun e => (e.1, e.2.2))) :: (L ++ E)) (a ::ₘ (S₁ + S₂)) := by
    rcases memberAdd_cases (Parse.cString bytes) (r, v) m with heq | hperm
    · rw [hm'] at heq
      subst heq hX
      refine ⟨[(r, v)], ?_⟩
      rw [Store.set_eq_self hn]
      exact hkey
    · rw [hm'] at hperm
      have hadd := hl.put rfl hin hrest (hX ▸ JsonCell.Shape.object m') (hperm.map Prod.snd)
      exact ⟨[], hadd.perm (List.Perm.swap _ _ _)⟩
  obtain ⟨L, hL⟩ := hput
  have hcX : (h.set a X).get c = some ⟨1, .string bytes⟩ := by rw [Store.get_set_of_ne h X hac, hc]
  obtain ⟨S', hS', hfree⟩ := hL.free rfl hcX fun l hl => by cases hl; rfl
  refine ⟨(h.set a X).free c, L, S', ?_, ?_, ?_⟩
  · have hgc : (g.set a X).get c = some ⟨1, .string bytes⟩ := by
      rw [Store.get_set_of_ne g X hac, hsame c hrc, hc]
    have hname : (countedOps A hA).stringBytes h (.cell c) = .ok (some bytes) := by
      show JsonHeap.stringBytes h (.cell c) = _
      simp only [JsonHeap.stringBytes, hc]
    have hobj : Parse.objectAdd (countedOps A hA) h (.cell a) (Parse.cString bytes) r = .ok (.cell a, g.set a X) := by
      show (h.incref r >>= fun g => g.patriciaAdd (.cell a) (Parse.cString bytes) r) = _
      rw [hg]
      show JsonHeap.patriciaAdd g (.cell a) (Parse.cString bytes) r = _
      simp only [JsonHeap.patriciaAdd, hsame a hra, hn]
      rw [← hX, ← hrefs]
    have hkeyfree : (countedOps A hA).decref (g.set a X) (.cell c) = .ok (Store.free (g.set a X) c) := decref_leaf hgc rfl
    have hval : (countedOps A hA).decref (Store.free (g.set a X) c) r = .ok (Store.free (h.set a X) c) := by
      refine hback _ _ (fun b hb => ?_) fun b hb => ?_
      · have hba : b ≠ a := fun hba => hra (hba ▸ hb)
        have hbc : b ≠ c := fun hbc => hrc (hbc ▸ hb)
        rw [Store.get_free_of_ne _ hbc, Store.get_free_of_ne _ hbc, Store.get_set_of_ne _ _ hba,
          Store.get_set_of_ne _ _ hba]
        exact ⟨rfl, rfl⟩
      · rw [Store.get_free, Store.get_free, Store.get_set, Store.get_set, hsame b hb]
    unfold Parse.objMember
    simp only [hname, hobj, hkeyfree, hval, bind, Except.bind]
  · rw [hvals]
    exact hfree
  · rw [hS', Multiset.card_cons]

/-! ## A container that is closed -/

/-- A pointer is to a constant, or to a cell that is no marker. -/
theorem constant_or_cell (ho : Owns counted h ((r, v) :: E) S) : Ref.Constant r v ∨ (∃ a, r = .cell a) ∧ ¬ v.IsMarker := by
  cases hr : r.addr with
  | none => exact .inl (ho.of_plain hr).1
  | some a =>
    obtain rfl : r = .cell a := by
      cases r <;> cases hr
      rfl
    obtain ⟨k, l, -, hshape⟩ := cell_of_owns ho
    refine .inr ⟨⟨a, rfl⟩, ?_⟩
    cases hshape <;> exact id

/-- Where the trees have a marker, so have the cells. -/
theorem isObjStart_of_owns (A : Allocator JsonCell) (hA : A.NeverFails) (ho : Owns counted h ((r, v) :: E) S) :
    (countedOps A hA).isObjStart r = valueOps.isObjStart v := by
  rcases constant_or_cell ho with hconst | ⟨⟨a, rfl⟩, hmark⟩
  · cases hconst <;> rfl
  · exact (Value.isObjStart_of_not_marker hmark).symm

theorem isArrStart_of_owns (A : Allocator JsonCell) (hA : A.NeverFails) (ho : Owns counted h ((r, v) :: E) S) :
    (countedOps A hA).isArrStart r = valueOps.isArrStart v := by
  rcases constant_or_cell ho with hconst | ⟨⟨a, rfl⟩, hmark⟩
  · cases hconst <;> rfl
  · exact (Value.isArrStart_of_not_marker hmark).symm

/-- A pointer behind the first of a ledger. -/
theorem Ledger.second {e e' : Ref × Value} (hl : Ledger counted h₀ h (e :: e' :: E) S) :
    Owns counted h (e' :: e :: E) S := hl.owns.perm (List.Perm.swap _ _ _)

/-- The loop of `ll_act_obj_end`, on cells. -/
theorem objEndLoop_ledger (A : Allocator JsonCell) (hA : A.NeverFails) {m : List (List UInt8 × Value)}
    (hm : ∀ e ∈ m, ¬ e.2.IsMarker) {B : List (Ref × Value)} {b : List Value} {o : List (CString × Value)}
    (hB : B.map Prod.snd = m.flatMap (fun e => [e.2, .string e.1]) ++ .objStart :: b)
    (hl : Ledger counted h₀ h ((.cell a, .object o) :: (B ++ E)) S) : ∃ h' B' L S',
      Parse.objEndLoop (countedOps A hA) h (.cell a) (B.map Prod.fst) = .ok (.cell a, h', B'.map Prod.fst) ∧
      B'.map Prod.snd = b ∧ S'.card + m.length = S.card ∧ Ledger counted h₀ h'
        ((.cell a, .object (m.foldl (fun o e => memberAdd (Parse.cString e.1) e.2 o) o)) :: (B' ++ (L ++ E))) S' := by
  induction m generalizing h B E S o with
  | nil =>
    obtain ⟨⟨r, v⟩, B', rfl, rfl, hB'⟩ := List.map_eq_cons_iff.1 hB
    have hr : (countedOps A hA).isObjStart r = true := isObjStart_of_owns A hA (Ledger.second hl)
    have hnone : r.addr = none := by
      cases r <;> first | rfl | cases hr
    refine ⟨h, B', [], S, ?_, hB', rfl, ?_⟩
    · rw [List.map_cons]
      cases B' with
      | nil => exact if_pos hr
      | cons e B' => exact if_pos hr
    · exact ((hl.perm (List.Perm.swap _ _ _)).of_plain hnone).2
  | cons e m ih =>
    rw [List.forall_mem_cons] at hm
    obtain ⟨⟨r, v⟩, B₁, rfl, rfl, hB₁⟩ := List.map_eq_cons_iff.1 hB
    obtain ⟨⟨key, w⟩, B₂, rfl, hw, hB₂⟩ := List.map_eq_cons_iff.1 hB₁
    obtain rfl : w = .string e.1 := hw
    have hr : (countedOps A hA).isObjStart r = false :=
      (isObjStart_of_owns A hA (Ledger.second hl)).trans (Value.isObjStart_of_not_marker hm.1)
    have hkey : (countedOps A hA).isObjStart key = false :=
      isObjStart_of_owns A hA (hl.owns.perm (((List.Perm.swap _ _ _).cons _).trans (List.Perm.swap _ _ _)))
    obtain ⟨h₁, L₁, S₁, hmember, hl₁, hcard₁⟩ := objMember_ledger A hA hl
    have hperm : (L₁ ++ (B₂ ++ E)).Perm (B₂ ++ (L₁ ++ E)) := by
      rw [← List.append_assoc, ← List.append_assoc]
      exact List.perm_append_comm.append_right E
    obtain ⟨h', B', L, S', hrun, hb, hcard, hl'⟩ := ih hm.2 hB₂ (hl₁.perm (hperm.cons _))
    refine ⟨h', B', L ++ L₁, S', ?_, hb, ?_, ?_⟩
    · show Parse.objEndLoop (countedOps A hA) h (.cell a) (r :: key :: B₂.map Prod.fst) = _
      rw [Parse.objEndLoop, hr, hkey]
      simp only [Bool.false_eq_true, if_false, hmember, bind, Except.bind]
      exact hrun
    · rw [List.length_cons]
      omega
    · rw [List.append_assoc]
      exact hl'

/-- The loop of `ll_act_arr_end`, on cells. -/
theorem arrEndLoop_ledger (A : Allocator JsonCell) (hA : A.NeverFails) {vals : List Value}
    (hv : ∀ v ∈ vals, ¬ v.IsMarker) {B : List (Ref × Value)} {b vals' : List Value}
    (hB : B.map Prod.snd = vals ++ .arrStart :: b) (hl : Ledger counted h₀ h ((.cell a, .array vals') :: (B ++ E)) S) :
    ∃ h' B', Parse.arrEndLoop (countedOps A hA) h (.cell a) (B.map Prod.fst) = .ok (.cell a, h', B'.map Prod.fst) ∧
      B'.map Prod.snd = b ∧ Ledger counted h₀ h' ((.cell a, .array (vals.reverse ++ vals')) :: (B' ++ E)) S := by
  induction vals generalizing h B vals' with
  | nil =>
    obtain ⟨⟨r, v⟩, B', rfl, rfl, hB'⟩ := List.map_eq_cons_iff.1 hB
    have hr : (countedOps A hA).isArrStart r = true := isArrStart_of_owns A hA (Ledger.second hl)
    have hnone : r.addr = none := by
      cases r <;> first | rfl | cases hr
    refine ⟨h, B', ?_, hB', ((hl.perm (List.Perm.swap _ _ _)).of_plain hnone).2⟩
    rw [List.map_cons, Parse.arrEndLoop]
    exact if_pos hr
  | cons v vals ih =>
    rw [List.forall_mem_cons] at hv
    obtain ⟨⟨r, w⟩, B₁, rfl, rfl, hB₁⟩ := List.map_eq_cons_iff.1 hB
    have hr : (countedOps A hA).isArrStart r = false :=
      (isArrStart_of_owns A hA (Ledger.second hl)).trans (Value.isArrStart_of_not_marker hv.1)
    obtain ⟨h₁, h₂, hadd, hdec, hl₂⟩ := arrayAdd_ledger A hA hl
    obtain ⟨h', B', hrun, hb, hl'⟩ := ih hv.2 hB₁ hl₂
    refine ⟨h', B', ?_, hb, ?_⟩
    · have hdec' : (countedOps A hA).decref h₁ r = .ok h₂ := hdec
      rw [List.map_cons, Parse.arrEndLoop, hr]
      simp only [Bool.false_eq_true, if_false, hadd, hdec', bind, Except.bind]
      exact hrun
    · rw [List.reverse_cons, List.append_assoc]
      exact hl'

/-- **`ll_act_obj_end`**, on trees and on cells. One cell is made, and the
names are freed. -/
theorem llActObjEnd_ledger (A : Allocator JsonCell) (hA : A.NeverFails) {m : List (List UInt8 × Value)}
    (hm : ∀ e ∈ m, ¬ e.2.IsMarker) {B : List (Ref × Value)} {b : List Value}
    (hB : B.map Prod.snd = m.flatMap (fun e => [e.2, .string e.1]) ++ .objStart :: b)
    (hl : Ledger counted h₀ h (B ++ E) S) : ∃ h' e B' L S',
      Parse.llActObjEnd valueOps () (B.map Prod.snd) = .ok ((), e.2 :: b) ∧
      Parse.llActObjEnd (countedOps A hA) h (B.map Prod.fst) = .ok (h', e.1 :: B'.map Prod.fst) ∧
      B'.map Prod.snd = b ∧ ¬ e.2.IsMarker ∧ S'.card + m.length = S.card + 1 ∧
      Ledger counted h₀ h' (e :: (B' ++ (L ++ E))) S' := by
  obtain ⟨a, h₁, ha, hinc, hl₁⟩ := create_ledger A hA (JsonCell.Shape.object []) hl
  obtain ⟨h', B', L, S', hrun, hb, hcard, hl'⟩ := objEndLoop_ledger A hA hm hB hl₁
  refine ⟨h', _, B', L, S', ?_, ?_, hb, id, ?_, hl'⟩
  · rw [hB]
    show (Parse.objEndLoop valueOps () (.object []) _ >>= _) = _
    rw [objEndLoop_members hm]
    rfl
  · have hinc' : (countedOps A hA).incref (JsonHeap.create A hA h (.object [])).2 (.cell a) = .ok h₁ := hinc
    have hnew : (countedOps A hA).createObject h = (.cell a, (JsonHeap.create A hA h (.object [])).2) := by
      rw [← ha]
      rfl
    unfold Parse.llActObjEnd
    rw [hnew]
    simp only [hinc', hrun, bind, Except.bind]
  · rw [hcard, Multiset.card_cons]

/-- **`ll_act_arr_end`**, on trees and on cells. One cell is made. -/
theorem llActArrEnd_ledger (A : Allocator JsonCell) (hA : A.NeverFails) {vals : List Value}
    (hv : ∀ v ∈ vals, ¬ v.IsMarker) {B : List (Ref × Value)} {b : List Value}
    (hB : B.map Prod.snd = vals ++ .arrStart :: b) (hl : Ledger counted h₀ h (B ++ E) S) : ∃ h' e B' S',
      Parse.llActArrEnd valueOps () (B.map Prod.snd) = .ok ((), e.2 :: b) ∧
      Parse.llActArrEnd (countedOps A hA) h (B.map Prod.fst) = .ok (h', e.1 :: B'.map Prod.fst) ∧
      B'.map Prod.snd = b ∧ ¬ e.2.IsMarker ∧ S'.card = S.card + 1 ∧ Ledger counted h₀ h' (e :: (B' ++ E)) S' := by
  obtain ⟨a, h₁, ha, hinc, hl₁⟩ := create_ledger A hA (JsonCell.Shape.array []) hl
  obtain ⟨h', B', hrun, hb, hl'⟩ := arrEndLoop_ledger A hA hv hB hl₁
  refine ⟨h', _, B', _, ?_, ?_, hb, id, Multiset.card_cons _ _, hl'⟩
  · rw [hB]
    show (Parse.arrEndLoop valueOps () (.array []) _ >>= _) = _
    rw [arrEndLoop_elements hv]
    rfl
  · have hinc' : (countedOps A hA).incref (JsonHeap.create A hA h (.array [])).2 (.cell a) = .ok h₁ := hinc
    have hnew : (countedOps A hA).createArray h = (.cell a, (JsonHeap.create A hA h (.array [])).2) := by
      rw [← ha]
      rfl
    unfold Parse.llActArrEnd
    rw [hnew]
    simp only [hinc', hrun, bind, Except.bind]

end

end Json

end Mowgli
