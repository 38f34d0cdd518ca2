import Mowgli.Object.Class
/-!
# What is found by name

A registry says which class each name stands for: the one that was
registered under it, ignoring case, and not destroyed since. The classes
that `mowgli_object_class_find_by_name` finds are those of the registry for
as long as no registered class is destroyed: nothing that destroys a class
takes it from the tree (`Is.step`). No call comes back that drops the last
reference to an object with a name.
-/

namespace Mowgli

namespace Objects

/-- A call, or memory that becomes the program's: static, or allocated for a
class or an object. -/
inductive Op
  | classMemory (klass : Addr)
  | objectMemory (obj : Addr)
  | classInit (klass : Option Addr) (name : Option CString) (des : Option Destructor) (dynamic : Bool)
  | classFindByName (name : Option CString)
  | objectInit (obj : Option Addr) (name : Option CString) (klass : Option Addr) (des : Option Destructor)
  | objectUnref (object : Option Addr)
  | classDestroy (klass : Option Addr)

/-- What a call returns. -/
inductive Out
  | done
  | klass (klass : Option Addr)

/-- Memory for a class. -/
def classMemory (s : Objects) (klass : Addr) : Option Objects :=
  if klass ∈ s.classes.live then none else some { s with classes := s.classes.set klass .zero }

/-- Memory for an object. -/
def objectMemory (s : Objects) (obj : Addr) : Option Objects :=
  if obj ∈ s.objects.live then none else some { s with objects := s.objects.set obj .zero }

variable (A : Allocator MowgliObjectClass) (P : Allocator (PatriciaElem Addr))

/-- Make a call. -/
def Op.run (s : Objects) : Op → Option (Out × Objects)
  | .classMemory klass => (s.classMemory klass).map fun s => (.done, s)
  | .objectMemory obj => (s.objectMemory obj).map fun s => (.done, s)
  | .classInit klass name des dynamic => (s.classInit P klass name des dynamic).map fun s => (.done, s)
  | .classFindByName name => (s.classFindByName name).map fun (klass, s) => (.klass klass, s)
  | .objectInit obj name klass des => (s.objectInit A P obj name klass des).map fun s => (.done, s)
  | .objectUnref object => (s.objectUnref object).map fun s => (.done, s)
  | .classDestroy klass => (s.classDestroy klass).map fun s => (.done, s)

/-! ## The registry -/

/-- The class each name stands for, in upper case. -/
abbrev Registry : Type := CString → Option Addr

/-- A class is registered under a name that stands for none. -/
def Registry.register (R : Registry) (name : Option CString) (klass : Addr) : Registry :=
  match name with
  | none => R
  | some name => if R name.upper = none then Function.update R name.upper (some klass) else R

/-- A class is destroyed. -/
def Registry.unregister (R : Registry) (klass : Addr) : Registry := fun name => (R name).filter fun k => k ≠ klass

/-- The class is dynamic. -/
def isDynamic (s : Objects) (klass : Addr) : Bool := (s.classes.get klass).any MowgliObjectClass.dynamic

/-- The class of an object of which the last reference is dropped. -/
def classOfLast (s : Objects) (obj : Addr) : Option Addr :=
  (s.objects.get obj).bind fun x => if x.refcount ≤ 1 then x.klass else none

/-- The class that a call destroys. -/
def Op.destroys (s : Objects) : Op → Option Addr
  | .classDestroy klass => klass.filter s.isDynamic
  | .objectUnref object => (object.bind s.classOfLast).filter s.isDynamic
  | _ => none

/-- The registry with the class that a call registers. -/
def Op.registers (s : Objects) (R : Registry) : Op → Registry
  | .classInit (some klass) name _ _ => R.register name klass
  | .objectInit (some _) name none _ => (A.pick s.classes).elim R (R.register name)
  | _ => R

/-- **What a call is to do to the registry.** -/
def Op.apply (s : Objects) (R : Registry) (op : Op) : Registry :=
  (op.destroys s).elim (op.registers A s R) (op.registers A s R).unregister

/-- A call, with the registry next to the state. -/
def Op.step (s : Objects × Registry) (op : Op) : Option (Out × Objects × Registry) :=
  (op.run A P s.1).map fun (out, s') => (out, s', op.apply A s.1 s.2)

/-- **The classes are found by their names.** -/
def Found (s : Objects) (R : Registry) : Prop :=
  ∀ name : CString, name.length ≤ INT_MAX → (s.classFindByName (some name)).map Prod.fst = some (R name.upper)

/-- No registered class is destroyed. -/
def Op.Spares (s : Objects) (R : Registry) (op : Op) : Prop :=
  ∀ klass, op.destroys s = some klass → ∀ name, R name ≠ some klass

/-- A name fits the ints that the patricia tree counts with. -/
def FitsName (s : Objects) (R : Registry) (name : CString) : Prop :=
  name.length ≤ INT_MAX ∧
    (R name.upper = none → ∀ klass : Addr, (Patricia.Op.add name klass : Patricia.Op Addr Unit).Fits s.classDict)

/-- The name that a call looks for or adds fits. -/
def Op.Fits (s : Objects) (R : Registry) : Op → Prop
  | .classInit (some _) (some name) _ _ | .objectInit (some _) (some name) none _ => FitsName s R name
  | .classFindByName (some name) => name.length ≤ INT_MAX
  | _ => True

/-- The call drops the last reference to an object that has a name. -/
def Op.FreesName (s : Objects) : Op → Prop
  | .objectUnref (some o) => ∃ x, s.objects.get o = some x ∧ x.refcount ≤ 1 ∧ x.name ≠ none
  | _ => False

/-- What the caller owes: memory that is live, and a reference to drop. -/
def Op.Valid (s : Objects) : Op → Prop
  | .classMemory klass => klass ∉ s.classes.live
  | .objectMemory obj => obj ∉ s.objects.live
  | .classInit klass _ _ _ | .classDestroy klass => ∀ k ∈ klass, k ∈ s.classes.live
  | .classFindByName _ => True
  | .objectInit obj _ klass _ => (∀ o ∈ obj, o ∈ s.objects.live) ∧ ∀ k ∈ klass, k ∈ s.classes.live
  | .objectUnref object => ∀ o ∈ object, ∃ x, s.objects.get o = some x ∧ -2147483648 < x.refcount ∧
      (x.refcount ≤ 1 → ∃ k, x.klass = some k ∧ k ∈ s.classes.live)

/-- The runs from the bootstrap on, of calls that meet `ok`. -/
abbrev Runs (ok : Objects × Registry → Op → Prop) : List (Op × Out) → Objects × Registry → Prop :=
  Run (Op.step A P) ok (classBootstrap, fun _ => none)

/-! ## The tree is the registry -/

variable {A P} {s s' : Objects} {R : Registry} {op : Op} {out : Out} {klass : Addr} {name : Option CString}
  {des : Option Destructor} {dynamic : Bool}

/-- The tree of the classes is the finite map that the registry is. -/
structure Is (s : Objects) (R : Registry) : Prop where
  map : ∃ M, Patricia.Is (some objectKeyCanon) s.classDict M ∧ ∀ name, R name = (M.lookup name).map Prod.snd

theorem canonizes_objectKeyCanon : Patricia.Canonizes (some objectKeyCanon) where
  keepsLength := fun f hf k => by
    obtain rfl := Option.some.inj hf
    exact CString.length_upper k
  idem := fun f hf k => by
    obtain rfl := Option.some.inj hf
    exact CString.upper_upper k

theorem is_classBootstrap : Is classBootstrap fun _ => none :=
  ⟨∅, Patricia.is_create _, fun _ => rfl⟩

/-- Only the tree matters. -/
theorem Is.congr (h : Is s R) (hdict : s'.classDict = s.classDict) : Is s' R := by
  obtain ⟨M, hM, hR⟩ := h.map
  exact ⟨M, hdict ▸ hM, hR⟩

theorem Is.classFindByName (h : Is s R) {name : CString} (hlen : name.length ≤ INT_MAX) :
    s.classFindByName (some name) = some (R name.upper, s) := by
  obtain ⟨M, hM, hR⟩ := h.map
  rw [Objects.classFindByName, (hM.lookups canonizes_objectKeyCanon hlen).2, hR]
  rfl

theorem Is.found (h : Is s R) : Found s R := fun name hlen => by
  rw [h.classFindByName hlen, Option.map_some]

/-- A name that stands for a class is the upper case of one that can be looked
for: itself. -/
theorem Is.of_some (h : Is s R) {name : CString} (hR : R name = some klass) :
    name.upper = name ∧ name.length ≤ INT_MAX := by
  obtain ⟨M, hM, hlookup⟩ := h.map
  obtain ⟨t, -, hst, -, hl⟩ := hM.lists
  rw [hlookup, Option.map_eq_some_iff] at hR
  obtain ⟨⟨a, v⟩, hmem, -⟩ := hR
  obtain ⟨hcanon, hlen⟩ := hst _ ((hl name a v).1 hmem)
  rw [Patricia.addKey, hM.canonizeCb] at hcanon
  exact ⟨hcanon, hlen⟩

/-- **A class is added** under a name that stands for none. -/
theorem Is.classAdd (hP : P.NeverFails) (h : Is s R) (klass : Addr) (hname : ∀ n ∈ name, R n.upper = none ∧ FitsName s R n) :
    ∃ s', s.classAdd P name klass = some s' ∧ Is s' (R.register name klass) ∧ s'.classes = s.classes ∧
      s'.objects = s.objects := by
  cases name with
  | none => exact ⟨_, rfl, h.congr rfl, rfl, rfl⟩
  | some name =>
    obtain ⟨hnone, -, hfits⟩ := hname name rfl
    obtain ⟨hlen, hpart, hroom⟩ := hfits hnone klass
    obtain ⟨M, hM, hR⟩ := h.map
    obtain ⟨out, d', M', hrun, hM', hspec⟩ : ∃ out d' M', s.classDict.elemAdd P name klass = some (out, d') ∧
        Patricia.Is (some objectKeyCanon) d' M' ∧ if name.upper ∈ M then out = none ∧ M' = M
          else ∃ a, (∀ k e, M.lookup k = some e → e.1 ≠ a) ∧ out = some a ∧ M' = M.insert name.upper (a, klass) :=
      hM.elemAdd hP canonizes_objectKeyCanon hlen hpart hroom
    have hmem : name.upper ∉ M := by
      rw [← Finmap.lookup_eq_none, ← Option.map_eq_none_iff (f := Prod.snd), ← hR]
      exact hnone
    rw [if_neg hmem] at hspec
    obtain ⟨a, -, -, rfl⟩ := hspec
    refine ⟨{ s with classDict := d' }, ?_, ⟨_, hM', fun c => ?_⟩, rfl, rfl⟩
    · rw [Objects.classAdd, Patricia.add, hrun]
      rfl
    · rw [Registry.register, if_pos hnone]
      by_cases hc : c = name.upper
      · rw [hc, Function.update_self, Finmap.lookup_insert, Option.map_some]
      · rw [Function.update_of_ne hc, hR, Finmap.lookup_insert_of_ne M hc]

theorem Registry.register_of_some {n : CString} (h : R n.upper ≠ none) : R.register (some n) klass = R := if_neg h

/-- **A class is initialised** and registered, unless its name stands for one. -/
theorem Is.classInit (hP : P.NeverFails) (h : Is s R) (klass : Addr) (des : Option Destructor) (dynamic : Bool)
    (hname : ∀ n ∈ name, FitsName s R n) :
    (∀ s', s.classInit P (some klass) name des dynamic = some s' →
        Is s' (R.register name klass) ∧ s'.classes.live = s.classes.live ∧ s'.objects = s.objects) ∧
      (klass ∈ s.classes.live → (s.classInit P (some klass) name des dynamic).isSome) := by
  -- A name that is found ends the call.
  by_cases hfound : ∃ n ∈ name, R n.upper ≠ none
  · obtain ⟨n, rfl, hn⟩ := hfound
    have hfind := h.classFindByName (hname n rfl).1
    have hrun : s.classInit P (some klass) (some n) des dynamic =
        some (s.warn "mowgli_object_class_find_by_name(name) == NULL") := by
      rw [Objects.classInit, hfind, Option.bind_eq_bind, Option.bind_some]
      exact if_pos (Option.isSome_iff_ne_none.2 hn)
    rw [hrun, Registry.register_of_some hn]
    refine ⟨fun s' hs' => ?_, fun _ => rfl⟩
    obtain rfl := Option.some.inj hs'
    exact ⟨h.congr rfl, rfl, rfl⟩
  · push Not at hfound
    obtain ⟨s₁, hfind, hs₁⟩ : ∃ s₁, s.classFindByName name = some (none, s₁) ∧
        s₁.classDict = s.classDict ∧ s₁.classes = s.classes ∧ s₁.objects = s.objects := by
      cases name with
      | none => exact ⟨_, rfl, rfl, rfl, rfl⟩
      | some n =>
        refine ⟨s, ?_, rfl, rfl, rfl⟩
        rw [h.classFindByName (hname n rfl).1, hfound n rfl]
    obtain ⟨hdict, hclasses, hobjects⟩ := hs₁
    have hrun : s.classInit P (some klass) name des dynamic = s₁.classSetup P klass name des dynamic := by
      rw [Objects.classInit, hfind]
      rfl
    rw [hrun, classSetup, hclasses]
    have hadd : ∀ classes, ∃ s', ({ s₁ with classes := classes } : Objects).classAdd P name klass = some s' ∧
        Is s' (R.register name klass) ∧ s'.classes = classes ∧ s'.objects = s.objects := by
      intro classes
      have his : Is { s₁ with classes := classes } R := h.congr hdict
      obtain ⟨s', hs', his', hc, ho⟩ := his.classAdd hP klass fun n hn =>
        ⟨hfound n hn, (hname n hn).1, fun hnone k => hdict ▸ (hname n hn).2 hnone k⟩
      exact ⟨s', hs', his', hc, ho.trans hobjects⟩
    refine ⟨fun s' hs' => ?_, fun hlive => ?_⟩
    · obtain ⟨classes, hmod, hs'⟩ := Option.bind_eq_some_iff.1 hs'
      obtain ⟨x, hx, rfl⟩ := Option.map_eq_some_iff.1 hmod
      obtain ⟨s'', hs'', his', hc, ho⟩ := hadd (s.classes.set klass _)
      obtain rfl := Option.some.inj (hs''.symm.trans hs')
      refine ⟨his', ?_, ho⟩
      rw [hc]
      exact (Store.Same.set (f := fun _ => ()) hx rfl).live
    · obtain ⟨x, hx⟩ := Store.mem_live.1 hlive
      obtain ⟨s', hs', -⟩ := hadd (s.classes.set klass _)
      rw [Store.modify_of_get _ hx, Option.bind_eq_bind, Option.bind_some, hs']
      rfl

/-- The class of a new object. One that is made for it is registered. -/
theorem Is.objectClass {klass : Option Addr} (hA : A.NeverFails) (hP : P.NeverFails) (h : Is s R)
    (des : Option Destructor) (hname : klass = none → ∀ n ∈ name, FitsName s R n) :
    ∃ k s', s.objectClass A P name klass des = some (k, s') ∧ s'.objects = s.objects ∧
      ((∀ k ∈ klass, k ∈ s.classes.live) → k ∈ s'.classes.live) ∧
      Is s' (klass.elim ((A.pick s.classes).elim R (R.register name)) fun _ => R) := by
  cases klass with
  | some k => exact ⟨k, s, rfl, rfl, fun hlive => hlive k rfl, h⟩
  | none =>
    obtain ⟨tmp, htmp⟩ := Option.isSome_iff_exists.1 (hA s.classes)
    have hs₁ : Is { s with classes := s.classes.set tmp .zero } R := h.congr rfl
    obtain ⟨hspec, hsome⟩ := hs₁.classInit hP tmp des true (hname rfl)
    have hmem : tmp ∈ (s.classes.set tmp .zero).live := Store.mem_live_set.2 (Or.inl rfl)
    obtain ⟨s', hs'⟩ := Option.isSome_iff_exists.1 (hsome hmem)
    obtain ⟨his, hlive', hobj⟩ := hspec s' hs'
    refine ⟨tmp, s', ?_, hobj, fun _ => hlive' ▸ hmem, ?_⟩
    · rw [Objects.objectClass, htmp, Option.bind_eq_bind, Option.bind_some, hs']
      rfl
    · rw [Option.elim_none, htmp]
      exact his

/-- **An object is initialised.** -/
theorem Is.objectInit {klass : Option Addr} (hA : A.NeverFails) (hP : P.NeverFails) (h : Is s R) (obj : Addr)
    (des : Option Destructor) (hname : klass = none → ∀ n ∈ name, FitsName s R n) :
    (∀ s', s.objectInit A P (some obj) name klass des = some s' →
        Is s' (klass.elim ((A.pick s.classes).elim R (R.register name)) fun _ => R)) ∧
      (obj ∈ s.objects.live → (∀ k ∈ klass, k ∈ s.classes.live) →
        (s.objectInit A P (some obj) name klass des).isSome) := by
  obtain ⟨k, s₁, hclass, hobj, hlive₁, h₁⟩ := h.objectClass hA hP des hname
  rw [Objects.objectInit, hclass]
  simp only [Option.bind_eq_bind, Option.bind_some]
  refine ⟨fun s' hs' => ?_, fun hobjl hklass => ?_⟩
  · obtain ⟨objects, -, hs'⟩ := Option.bind_eq_some_iff.1 hs'
    obtain ⟨x, -, hs'⟩ := Option.bind_eq_some_iff.1 hs'
    rw [← Option.some.inj hs']
    exact h₁.congr rfl
  · obtain ⟨x, hx⟩ := Store.mem_live.1 (hobj ▸ hobjl)
    obtain ⟨c, hc⟩ := Store.mem_live.1 (hlive₁ hklass)
    simp only [Store.modify_of_get _ hx, messageBroadcast, hc, Option.bind_eq_bind, Option.bind_some,
      Option.isSome_some]

/-! ## Nothing takes a class from the tree -/

theorem classDestroy_dict {klass : Option Addr} (hrun : s.classDestroy klass = some s') :
    s'.classDict = s.classDict := by
  cases klass with
  | none => rw [← Option.some.inj hrun, warn]
  | some k =>
    obtain ⟨x, -, hrun⟩ := Option.bind_eq_some_iff.1 hrun
    rw [← Option.some.inj hrun]
    split_ifs <;> rfl

theorem unrefLast_dict {klass : Option Addr} {obj : Addr} (hrun : s.unrefLast obj name klass = some s') :
    s'.classDict = s.classDict := by
  obtain ⟨s₁, hbc, hrun⟩ := Option.bind_eq_some_iff.1 hrun
  obtain ⟨k, rfl, hbc⟩ := Option.bind_eq_some_iff.1 hbc
  obtain ⟨x, -, hbc⟩ := Option.bind_eq_some_iff.1 hbc
  obtain rfl := Option.some.inj hbc
  obtain ⟨-, -, hrun⟩ := Option.bind_eq_some_iff.1 hrun
  obtain ⟨k', -, hrun⟩ := Option.bind_eq_some_iff.1 hrun
  obtain ⟨y, -, hrun⟩ := Option.bind_eq_some_iff.1 hrun
  obtain ⟨s₂, hclass, hrun⟩ := Option.bind_eq_some_iff.1 hrun
  have hs₂ : s₂.classDict = s.classDict := by
    rw [unrefClass] at hclass
    split_ifs at hclass
    · exact classDestroy_dict hclass
    · rw [← Option.some.inj hclass]
  rw [← Option.some.inj hrun, ← hs₂, unrefDestructor.eq_def]
  split <;> rfl

theorem objectUnref_dict {object : Option Addr} (hrun : s.objectUnref object = some s') :
    s'.classDict = s.classDict := by
  cases object with
  | none => rw [← Option.some.inj hrun, warn]
  | some obj =>
    obtain ⟨x, -, hrun⟩ := Option.bind_eq_some_iff.1 hrun
    dsimp only at hrun
    split_ifs at hrun
    · rw [unrefLast_dict hrun]
    · rw [← Option.some.inj hrun]

/-- **One call.** It registers what it should, and it takes nothing from the
tree, whatever it destroys. -/
theorem Is.step (hA : A.NeverFails) (hP : P.NeverFails) (h : Is s R) (hfits : op.Fits s R)
    (hrun : op.run A P s = some (out, s')) : Is s' (op.registers A s R) := by
  cases op with
  | classMemory klass =>
    obtain ⟨s₁, hs₁, heq⟩ := Option.map_eq_some_iff.1 hrun
    rw [Objects.classMemory] at hs₁
    split_ifs at hs₁
    rw [← (Prod.mk.inj heq).2, ← Option.some.inj hs₁]
    exact h.congr rfl
  | objectMemory obj =>
    obtain ⟨s₁, hs₁, heq⟩ := Option.map_eq_some_iff.1 hrun
    rw [Objects.objectMemory] at hs₁
    split_ifs at hs₁
    rw [← (Prod.mk.inj heq).2, ← Option.some.inj hs₁]
    exact h.congr rfl
  | classInit klass name des dynamic =>
    obtain ⟨s₁, hs₁, heq⟩ := Option.map_eq_some_iff.1 hrun
    rw [← (Prod.mk.inj heq).2]
    cases klass with
    | none =>
      rw [← Option.some.inj hs₁]
      exact h.congr rfl
    | some k =>
      refine ((h.classInit hP k des dynamic fun n hn => ?_).1 s₁ hs₁).1
      obtain rfl : name = some n := hn
      exact hfits
  | classFindByName name =>
    obtain ⟨⟨k, s₁⟩, hs₁, heq⟩ := Option.map_eq_some_iff.1 hrun
    rw [← (Prod.mk.inj heq).2]
    cases name with
    | none =>
      rw [← (Prod.mk.inj (Option.some.inj hs₁)).2]
      exact h.congr rfl
    | some n =>
      rw [h.classFindByName hfits] at hs₁
      rw [← (Prod.mk.inj (Option.some.inj hs₁)).2]
      exact h
  | objectInit obj name klass des =>
    obtain ⟨s₁, hs₁, heq⟩ := Option.map_eq_some_iff.1 hrun
    rw [← (Prod.mk.inj heq).2]
    cases obj with
    | none =>
      rw [← Option.some.inj hs₁]
      exact h.congr rfl
    | some o =>
      have his := (h.objectInit hA hP o des fun hklass n hn => by
        obtain rfl := hklass
        obtain rfl : name = some n := hn
        exact hfits).1 s₁ hs₁
      cases klass with
      | none => exact his
      | some k => exact his
  | objectUnref object =>
    obtain ⟨s₁, hs₁, heq⟩ := Option.map_eq_some_iff.1 hrun
    rw [← (Prod.mk.inj heq).2]
    exact h.congr (objectUnref_dict hs₁)
  | classDestroy klass =>
    obtain ⟨s₁, hs₁, heq⟩ := Option.map_eq_some_iff.1 hrun
    rw [← (Prod.mk.inj heq).2]
    exact h.congr (classDestroy_dict hs₁)

/-- Dropping a reference comes back if it is not the last one to an object with a
name. -/
theorem objectUnref_isSome_iff {object : Option Addr} (hv : (Op.objectUnref object).Valid s) :
    (s.objectUnref object).isSome ↔ ¬ (Op.objectUnref object).FreesName s := by
  cases object with
  | none => exact iff_of_true rfl fun h => h
  | some o =>
    obtain ⟨x, hx, hlow, hlast⟩ := hv o rfl
    have hfrees : (Op.objectUnref (some o)).FreesName s ↔ x.refcount ≤ 1 ∧ x.name ≠ none := by
      refine ⟨?_, fun h => ⟨x, hx, h⟩⟩
      rintro ⟨y, hy, h⟩
      rwa [Option.some.inj (hx.symm.trans hy)]
    rw [hfrees, objectUnref, hx, Option.bind_eq_bind, Option.bind_some, if_neg (by omega)]
    dsimp only
    split_ifs with hle
    · obtain ⟨k, hk, hlive⟩ := hlast (by omega)
      obtain ⟨c, hc⟩ := Store.mem_live.1 hlive
      rw [unrefLast, hk]
      simp only [messageBroadcast, hc, Option.bind_eq_bind, Option.bind_some]
      cases hname : x.name with
      | some name => exact iff_of_false Bool.false_ne_true fun h => h ⟨by omega, Option.some_ne_none name⟩
      | none =>
        refine iff_of_true ?_ fun h => h.2 rfl
        rw [freeName, Option.isSome_none, if_neg Bool.false_ne_true, Option.bind_some]
        simp only [hc, Option.bind_some, unrefClass, Objects.classDestroy, Option.bind_eq_bind]
        split_ifs <;> rfl
    · refine iff_of_true rfl fun h => ?_
      have hone := h.1
      omega

/-- **A call that meets what it owes is answered**, if it frees no name. -/
theorem Is.answered_iff (hA : A.NeverFails) (hP : P.NeverFails) (h : Is s R) (hfits : op.Fits s R) (hv : op.Valid s) :
    (op.run A P s).isSome ↔ ¬ op.FreesName s := by
  cases op with
  | classMemory klass =>
    rw [Op.run, Objects.classMemory, if_neg hv]
    exact iff_of_true rfl id
  | objectMemory obj =>
    rw [Op.run, Objects.objectMemory, if_neg hv]
    exact iff_of_true rfl id
  | classInit klass name des dynamic =>
    rw [Op.run, Option.isSome_map]
    refine iff_of_true ?_ id
    cases klass with
    | none => rfl
    | some k =>
      refine (h.classInit hP k des dynamic fun n hn => ?_).2 (hv k rfl)
      obtain rfl : name = some n := hn
      exact hfits
  | classFindByName name =>
    refine iff_of_true ?_ id
    cases name with
    | none => rfl
    | some n =>
      rw [Op.run, h.classFindByName hfits]
      rfl
  | objectInit obj name klass des =>
    rw [Op.run, Option.isSome_map]
    refine iff_of_true ?_ id
    cases obj with
    | none => rfl
    | some o =>
      refine (h.objectInit hA hP o des fun hklass n hn => ?_).2 (hv.1 o rfl) hv.2
      obtain rfl := hklass
      obtain rfl : name = some n := hn
      exact hfits
  | objectUnref object =>
    rw [Op.run, Option.isSome_map]
    exact objectUnref_isSome_iff hv
  | classDestroy klass =>
    rw [Op.run, Option.isSome_map]
    refine iff_of_true ?_ id
    cases klass with
    | none => rfl
    | some k =>
      obtain ⟨c, hc⟩ := Store.mem_live.1 (hv k rfl)
      rw [Objects.classDestroy, hc]
      rfl

/-! ## Runs -/

/-- What destroys a class registers none. -/
theorem Op.registers_of_destroys (hd : op.destroys s = some klass) : op.registers A s R = R := by
  cases op with
  | classDestroy k => rfl
  | objectUnref o => rfl
  | classMemory k => cases hd
  | objectMemory o => cases hd
  | classInit k name des dynamic => cases hd
  | classFindByName name => cases hd
  | objectInit o name k des => cases hd

/-- A call that destroys no registered class only registers. -/
theorem Op.Spares.apply_eq (hs : op.Spares s R) : op.apply A s R = op.registers A s R := by
  rw [Op.apply]
  cases hd : op.destroys s with
  | none => rfl
  | some klass =>
    rw [Option.elim_some, Op.registers_of_destroys hd]
    funext name
    rw [Registry.unregister]
    cases hk : R name with
    | none => rfl
    | some k =>
      have hne : k ≠ klass := fun heq => hs klass hd name (heq ▸ hk)
      rw [Option.filter_some, if_pos (decide_eq_true hne)]

/-- **A call keeps the classes found exactly if it destroys no registered
one.** -/
theorem Is.found_iff (hA : A.NeverFails) (hP : P.NeverFails) (h : Is s R) (hfits : op.Fits s R)
    (hrun : op.run A P s = some (out, s')) : Found s' (op.apply A s R) ↔ op.Spares s R := by
  have h' := h.step hA hP hfits hrun
  constructor
  · intro hfound klass hd name hname
    obtain ⟨hupper, hlen⟩ := h.of_some hname
    rw [Op.registers_of_destroys hd] at h'
    have hfind := hfound name hlen
    rw [h'.classFindByName hlen, Op.apply, hd, Option.elim_some, Op.registers_of_destroys hd, Option.map_some,
      Registry.unregister, hupper, hname, Option.filter_some, if_neg (by simp)] at hfind
    cases hfind
  · intro hs
    rw [hs.apply_eq]
    exact h'.found

theorem Runs.is (hA : A.NeverFails) (hP : P.NeverFails) {tr : List (Op × Out)}
    (h : Runs A P (fun s op => op.Fits s.1 s.2 ∧ op.Spares s.1 s.2) tr (s, R)) : Is s R :=
  Run.invariant (I := fun s => Is s.1 s.2) is_classBootstrap (fun {s op out s'} hs hok hrun => by
    obtain ⟨⟨out', s''⟩, hcall, heq⟩ := Option.map_eq_some_iff.1 hrun
    obtain ⟨-, rfl⟩ := Prod.mk.inj heq
    have h' := hs.step hA hP hok.1 hcall
    rw [← hok.2.apply_eq] at h'
    exact h') h

/-- **Classes are found by name as long as no registered class is destroyed.**
In a run of calls that destroy none and whose names fit, what is found by a
name is the class registered under it and not destroyed since. The next call
is answered and keeps that exactly if it destroys no registered class, and does
not drop the last reference to an object with a name. -/
theorem runs_registry (hA : A.NeverFails) (hP : P.NeverFails) {tr : List (Op × Out)}
    (h : Runs A P (fun s op => op.Fits s.1 s.2 ∧ op.Spares s.1 s.2) tr (s, R)) :
    Found s R ∧ ∀ op : Op, op.Fits s R →
      (op.Valid s → ((∃ out s', op.run A P s = some (out, s') ∧ Found s' (op.apply A s R)) ↔
        op.Spares s R ∧ ¬ op.FreesName s)) ∧
      ∀ out s', op.run A P s = some (out, s') → (Found s' (op.apply A s R) ↔ op.Spares s R) := by
  have his := Runs.is hA hP h
  refine ⟨his.found, fun op hfits => ⟨fun hv => ?_, fun out s' => his.found_iff hA hP hfits⟩⟩
  rw [← his.answered_iff hA hP hfits hv]
  constructor
  · rintro ⟨out, s', hrun, hfound⟩
    exact ⟨(his.found_iff hA hP hfits hrun).1 hfound, Option.isSome_iff_exists.2 ⟨_, hrun⟩⟩
  · rintro ⟨hspares, hsome⟩
    obtain ⟨⟨out, s'⟩, hrun⟩ := Option.isSome_iff_exists.1 hsome
    exact ⟨out, s', hrun, (his.found_iff hA hP hfits hrun).2 hspares⟩

/-- The name "a". -/
def nameA : CString := ⟨[97], CString.nul_free_a⟩

/-- A static class is registered, and an object of it is named. -/
theorem exists_runs_named : ∃ tr s R,
    Runs Allocator.bump Allocator.bump (fun s op => op.Fits s.1 s.2 ∧ op.Spares s.1 s.2) tr (s, R) ∧
      R nameA.upper = some 1 ∧ s.objects.get 5 = some ⟨some nameA, 1, some 1⟩ ∧ 1 ∈ s.classes.live := by
  have h : Runs Allocator.bump Allocator.bump (fun s op => op.Fits s.1 s.2 ∧ op.Spares s.1 s.2)
      (((([] ++ [(.classMemory 1, .done)]) ++ [(.classInit (some 1) (some nameA) none false, .done)]) ++
        [(.objectMemory 5, .done)]) ++ [(.objectInit (some 5) (some nameA) (some 1) none, .done)]) _ :=
    (((Run.nil.snoc ⟨trivial, fun klass hd => (by cases hd)⟩ rfl).snoc
      ⟨⟨by decide, fun _ _ => ⟨by decide, fun a l hl => (by cases hl), by decide⟩⟩, fun klass hd => (by cases hd)⟩ rfl).snoc
      ⟨trivial, fun klass hd => (by cases hd)⟩ rfl).snoc ⟨trivial, fun klass hd => (by cases hd)⟩ rfl
  exact ⟨_, _, _, h, rfl, rfl, Store.mem_live.2 ⟨_, rfl⟩⟩

/-- The class is found, and dropping the object does not come back. -/
theorem runs_registry_named : ∃ s R, Found s R ∧ R nameA.upper = some 1 ∧ ¬ ∃ out s',
    (Op.objectUnref (some 5)).run Allocator.bump Allocator.bump s = some (out, s') ∧
      Found s' ((Op.objectUnref (some 5)).apply Allocator.bump s R) := by
  obtain ⟨tr, s, R, h, hR, hobj, hlive⟩ := exists_runs_named
  obtain ⟨hfound, hnext⟩ := runs_registry Allocator.bump_neverFails Allocator.bump_neverFails h
  have hvalid : (Op.objectUnref (some 5)).Valid s := fun o ho => by
    cases ho
    exact ⟨_, hobj, by decide, fun _ => ⟨1, rfl, hlive⟩⟩
  refine ⟨s, R, hfound, hR, fun hrun => ?_⟩
  exact (((hnext (.objectUnref (some 5)) trivial).1 hvalid).1 hrun).2 ⟨_, hobj, by decide, Option.some_ne_none nameA⟩

/-- **A class that was destroyed is found by its name**, and the name cannot be
registered again. -/
theorem find_returns_destroyed : ∃ tr s R, Runs Allocator.bump Allocator.bump (fun _ _ => True) tr (s, R) ∧
    R nameA.upper = some 2 ∧ s.classes.get 1 = none ∧ s.classFindByName (some nameA) = some (some 1, s) := by
  have h : Runs Allocator.bump Allocator.bump (fun _ _ => True)
      ((((([] ++ [(.classMemory 1, .done)]) ++ [(.classInit (some 1) (some nameA) none true, .done)]) ++
        [(.classDestroy (some 1), .done)]) ++ [(.classMemory 2, .done)]) ++
        [(.classInit (some 2) (some nameA) none true, .done)]) _ :=
    ((((Run.nil.snoc trivial rfl).snoc trivial rfl).snoc trivial rfl).snoc trivial rfl).snoc trivial rfl
  exact ⟨_, _, _, h, rfl, rfl, rfl⟩

end Objects

end Mowgli
