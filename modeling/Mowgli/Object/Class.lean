import Mowgli.Base.Ctype
import Mowgli.Container.Patricia.Map
/-!
# Classes and objects, as `object/class.c` and `object/object.c` have them

The classes are found by name in one patricia tree, that ignores case. A
class is in memory of the program's, or in memory that
`mowgli_object_init` allocates for it. All of it is zero-filled, and
`mowgli_object_class_destroy` gives it back. Here a store holds the classes
and another the objects. Names are values: in whose memory they are is left
out, and so are the handlers of messages, which none of these functions
attaches, and the metadata of objects. A destructor of the program's is
whatever it is: what it does comes after `mowgli_object_unref`.

The name of an object is a copy that `mowgli_strdup` makes, with the tag of its
allocation policy before it. `mowgli_object_unref` gives it to `free`, which
knows of no block that starts there, and aborts: it answers `none`.
-/

namespace Mowgli

/-- `mowgli_destructor_t`: `mowgli_free`, or a function of the program's. -/
inductive Destructor
  | mowgliFree
  | program (f : Addr)

/-- `mowgli_object_class_t`. -/
structure MowgliObjectClass where
  name : Option CString
  derivitives : List Addr
  destructor : Option Destructor
  dynamic : Bool

/-- A class on zero-filled memory. -/
def MowgliObjectClass.zero : MowgliObjectClass := ⟨none, [], none, false⟩

/-- `mowgli_object_t`. -/
structure MowgliObject where
  name : Option CString
  refcount : ℤ
  klass : Option Addr

/-- An object on zero-filled memory. -/
def MowgliObject.zero : MowgliObject := ⟨none, 0, none⟩

/-- `mowgli_object_class_dict`, the memory of classes and objects, and the
lines logged. -/
structure Objects where
  classDict : Patricia Addr
  classes : Store MowgliObjectClass
  objects : Store MowgliObject
  log : List LogLine

namespace Objects

/-- `_object_key_canon`. -/
def objectKeyCanon : CString → CString := CString.upper

/-- `mowgli_object_class_bootstrap`. -/
def classBootstrap : Objects := ⟨Patricia.create (some objectKeyCanon), .empty, .empty, []⟩

variable (A : Allocator MowgliObjectClass) (P : Allocator (PatriciaElem Addr))

/-- `return_if_fail(exp)` with `exp` false. -/
def warn (s : Objects) (exp : String) : Objects := { s with log := s.log ++ [.returnIfFail exp] }

/-- `mowgli_object_class_find_by_name`. -/
def classFindByName (s : Objects) (name : Option CString) : Option (Option Addr × Objects) :=
  match name with
  | none => some (none, s.warn "key != NULL")
  | some name => (s.classDict.retrieve name).map fun klass => (klass, s)

/-- `mowgli_patricia_add(mowgli_object_class_dict, klass->name, klass)`. A null
name cannot be copied, nor be a key. -/
def classAdd (s : Objects) (name : Option CString) (klass : Addr) : Option Objects :=
  match name with
  | none => some ((s.warn "in != NULL").warn "key != NULL")
  | some name => (s.classDict.add P name klass).map fun (_, dict) => { s with classDict := dict }

/-- `mowgli_object_class_init`, for a name that is not found. -/
def classSetup (s : Objects) (klass : Addr) (name : Option CString) (des : Option Destructor) (dynamic : Bool) :
    Option Objects := do
  let classes ← s.classes.modify klass fun _ => ⟨name, [], some (des.getD .mowgliFree), dynamic⟩
  ({ s with classes := classes } : Objects).classAdd P name klass

/-- `mowgli_object_class_init`. -/
def classInit (s : Objects) (klass : Option Addr) (name : Option CString) (des : Option Destructor)
    (dynamic : Bool) : Option Objects :=
  match klass with
  | none => some (s.warn "klass != NULL")
  | some klass => do
    let (found, s) ← s.classFindByName name
    if found.isSome then some (s.warn "mowgli_object_class_find_by_name(name) == NULL")
    else s.classSetup P klass name des dynamic

/-- `mowgli_object_class_destroy`. -/
def classDestroy (s : Objects) (klass : Option Addr) : Option Objects :=
  match klass with
  | none => some (s.warn "klass != NULL")
  | some klass => do
    let x ← s.classes.get klass
    some (if x.dynamic then { s with classes := s.classes.free klass } else s.warn "klass->dynamic == TRUE")

/-- `mowgli_object_message_broadcast`, where no handlers are attached: it looks
for them in the class. -/
def messageBroadcast (s : Objects) (klass : Option Addr) : Option Objects := do
  let klass ← klass
  let _ ← s.classes.get klass
  some s

/-- `mowgli_object_init`: the class of the object. -/
def objectClass (s : Objects) (name : Option CString) (klass : Option Addr) (des : Option Destructor) :
    Option (Addr × Objects) :=
  match klass with
  | some klass => some (klass, s)
  | none => do
    let tmp ← A.pick s.classes
    let s ← ({ s with classes := s.classes.set tmp .zero } : Objects).classInit P (some tmp) name des true
    some (tmp, s)

/-- `mowgli_object_init`. -/
def objectInit (s : Objects) (obj : Option Addr) (name : Option CString) (klass : Option Addr)
    (des : Option Destructor) : Option Objects :=
  match obj with
  | none => some (s.warn "obj != NULL")
  | some obj => do
    let (klass, s) ← s.objectClass A P name klass des
    let objects ← s.objects.modify obj fun x => ⟨name <|> x.name, 1, some klass⟩
    ({ s with objects := objects } : Objects).messageBroadcast (some klass)

/-- `mowgli_object_unref`: the class of an object that is destroyed. -/
def unrefClass (s : Objects) (klass : Addr) (dynamic : Bool) : Option Objects :=
  if dynamic then s.classDestroy (some klass) else some s

/-- `mowgli_object_unref`: the object is given to its destructor, or to `free`. -/
def unrefDestructor (s : Objects) (obj : Addr) (destructor : Option Destructor) : Objects :=
  match destructor with
  | some (.program _) => s
  | some .mowgliFree | none => { s with objects := s.objects.free obj }

/-- `free(obj->name)`, if there is a name. -/
def freeName (name : Option CString) : Option Unit := if name.isSome then none else some ()

/-- `mowgli_object_unref`, for an object with no reference left. The broadcast
has gone through `obj->klass`, so it is not null after that. -/
def unrefLast (s : Objects) (obj : Addr) (name : Option CString) (klass : Option Addr) : Option Objects := do
  let s ← s.messageBroadcast klass
  freeName name
  let klass ← klass
  let x ← s.classes.get klass
  let s ← s.unrefClass klass x.dynamic
  some (s.unrefDestructor obj x.destructor)

/-- `mowgli_object_unref`. -/
def objectUnref (s : Objects) (object : Option Addr) : Option Objects :=
  match object with
  | none => some (s.warn "object != NULL")
  | some obj => do
    let x ← s.objects.get obj
    if x.refcount = -2147483648 then none
    else
      let s := { s with objects := s.objects.set obj { x with refcount := x.refcount - 1 } }
      if x.refcount - 1 ≤ 0 then s.unrefLast obj x.name x.klass else some s

end Objects

end Mowgli
