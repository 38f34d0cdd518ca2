import Mowgli.Base.Ctype
import Mowgli.Library.Store
/-!
# Messages to objects, as `object/message.c` has them

A message goes to the handlers of the class of an object and then to those of
the object itself, in the order that they were attached in. The arguments are
put on a stack (`base/argstack.c`), by the description that one of the
handlers has. That handler is looked for among those of the class, twice, and
never among those of the object.

The stack is an object, and the description is its name. The name is a copy
that `mowgli_strdup` makes, with a tag before it, and `mowgli_object_unref`
hands it to `free`, which aborts. No message is sent to the stack itself: its
class has no handlers.

The functions of the handlers are a parameter: what one does to the stack, and
to a world that has no handlers in it.
-/

namespace Mowgli

/-- `mowgli_object_message_handler_t`. -/
structure MessageHandler where
  name : CString
  descstr : Option CString
  handler : Option Addr

/-- The types of `mowgli_argstack_element_t`. -/
inductive ArgType
  | numeric
  | pointer
  | string
  | boolean

/-- `mowgli_argstack_element_t`. -/
structure ArgstackElement where
  type : ArgType
  data : UInt64

/-- What `va_arg` gives, one after the other. -/
abbrev VaList : Type := ℕ → UInt64

/-- The type of an argument, by a character of the description. -/
def argType (c : UInt8) : Option ArgType :=
  if c = ch 's' then some .string
  else if c = ch 'd' then some .numeric
  else if c = ch 'p' then some .pointer
  else if c = ch 'b' then some .boolean
  else none

/-- `mowgli_argstack_t`, with what its object has. -/
structure MowgliArgstack where
  name : Option CString
  refcount : ℤ
  stack : List ArgstackElement

/-- `mowgli_object_unref`, on an argument stack, or `none` where it aborts: the
name that it frees is not where a block starts. -/
def argstackUnref : Option MowgliArgstack → Option (Option MowgliArgstack)
  | none => some none
  | some obj =>
    let refcount := toInt (obj.refcount - 1)
    if refcount ≤ 0 then if obj.name.isSome then none else some none
    else some (some { obj with refcount := refcount })

/-- The loop of `mowgli_argstack_create_from_va_list`, for the stack `out`. -/
def argstackPush (out : MowgliArgstack) : List UInt8 → VaList → Option (Option MowgliArgstack)
  | [], _ => some (some out)
  | c :: cp, va =>
    match argType c with
    | none => do
      -- "invalid description"
      let _ ← argstackUnref (some out)
      some none
    | some type => argstackPush { out with stack := out.stack ++ [⟨type, va 0⟩] } cp fun i => va (i + 1)

/-- `mowgli_argstack_create_from_va_list`. -/
def argstackCreateFromVaList (descstr : Option CString) (va : VaList) : Option (Option MowgliArgstack) :=
  match descstr with
  | none => some none
  | some descstr => argstackPush ⟨some descstr, 1, []⟩ descstr.bytes va

/-- A message on its way: the world, the stack with the arguments that the
handlers left on it, the handlers that were called, and whether the program was
aborted. -/
structure Broadcast (σ : Type) where
  world : σ
  stack : Option MowgliArgstack
  calls : List MessageHandler
  aborted : Bool

/-- What the functions of the handlers do, with no stack and with one. -/
structure MessagingFunc (σ : Type) where
  alone : MessageHandler → σ → σ
  withStack : MessageHandler → σ → MowgliArgstack → σ × MowgliArgstack

namespace MessageHandler

variable {σ : Type} (func : MessagingFunc σ) (name : CString)

/-- The handler is for messages of the name. -/
def named (sig : MessageHandler) : Bool := CString.strcasecmp sig.name name = 0

/-- The handler has a function for messages of the name. -/
def handles (sig : MessageHandler) : Bool := sig.named name && sig.handler.isSome

/-- `sig->handler(self, sig, stack)`. -/
def call (s : Broadcast σ) (sig : MessageHandler) : Broadcast σ :=
  match s.stack with
  | none => { s with world := func.alone sig s.world, calls := s.calls ++ [sig] }
  | some stack =>
    let (world, stack) := func.withStack sig s.world stack
    { s with world := world, stack := some stack, calls := s.calls ++ [sig] }

/-- A loop of `mowgli_object_message_broadcast` that calls handlers. -/
def callAll : List MessageHandler → Broadcast σ → Broadcast σ
  | [], s => s
  | sig :: rest, s => callAll rest (if sig.handles name then call func s sig else s)

/-- `mowgli_object_message_broadcast`, where `klass` are the handlers of the class
and `self` those of the object. -/
def messageBroadcast (klass self : List MessageHandler) (va : VaList) (world : σ) : Broadcast σ :=
  let sig := klass.find? (·.named name)
  -- the class is searched again
  let sig := if sig.isNone then klass.find? (·.named name) else sig
  match sig with
  | none => ⟨world, none, [], false⟩
  | some sig =>
    match argstackCreateFromVaList sig.descstr va with
    | none => ⟨world, none, [], true⟩
    | some stack =>
      let s := callAll func name self (callAll func name klass ⟨world, stack, [], false⟩)
      match argstackUnref s.stack with
      | none => { s with aborted := true }
      | some stack => { s with stack := stack }

/-! ## The stack -/

/-- The description is made of the characters for types. -/
def Described (sig : MessageHandler) : Prop := ∀ descstr, sig.descstr = some descstr → ∀ c ∈ descstr.bytes, argType c ≠ none

/-- The stack that a described handler's description makes, if it has one. -/
def stackOf (sig : MessageHandler) (va : VaList) : Option MowgliArgstack := (argstackCreateFromVaList sig.descstr va).join

variable {func name} {klass self : List MessageHandler} {va : VaList} {world : σ} {sig : MessageHandler}

/-- The loop ends with a stack where all characters are for types. -/
theorem argstackPush_of_described {cp : List UInt8} (h : ∀ c ∈ cp, argType c ≠ none) (out : MowgliArgstack) (va : VaList) :
    ∃ elements, argstackPush out cp va = some (some { out with stack := elements }) := by
  induction cp generalizing out va with
  | nil => exact ⟨out.stack, rfl⟩
  | cons c cp ih =>
    obtain ⟨type, htype⟩ := Option.ne_none_iff_exists'.1 (h c (List.mem_cons_self ..))
    rw [argstackPush, htype]
    exact ih (fun c' hc' => h c' (List.mem_cons_of_mem c hc')) { out with stack := out.stack ++ [⟨type, va 0⟩] } _

/-- It aborts at a character that is not, as the stack has a name. -/
theorem argstackPush_eq_none {cp : List UInt8} (h : ¬ ∀ c ∈ cp, argType c ≠ none) {out : MowgliArgstack} (va : VaList)
    (hname : out.name ≠ none) (href : out.refcount = 1) : argstackPush out cp va = none := by
  induction cp generalizing out va with
  | nil => exact absurd (fun c hc => absurd hc (List.not_mem_nil)) h
  | cons c cp ih =>
    rw [argstackPush]
    cases htype : argType c with
    | none =>
      have hunref : argstackUnref (some out) = none := by
        rw [argstackUnref, href, if_pos (by decide), if_pos (Option.isSome_iff_ne_none.2 hname)]
      dsimp only
      rw [hunref]
      rfl
    | some type =>
      refine ih (fun hcp => h ?_) _ hname href
      rw [List.forall_mem_cons, htype]
      exact ⟨Option.some_ne_none type, hcp⟩

theorem argstackCreate_of_described (h : sig.Described) (va : VaList) : ∃ stack,
    argstackCreateFromVaList sig.descstr va = some stack ∧
      ∀ descstr, sig.descstr = some descstr → ∃ elements, stack = some ⟨some descstr, 1, elements⟩ := by
  unfold Described at h
  unfold argstackCreateFromVaList
  cases hdesc : sig.descstr with
  | none => exact ⟨none, rfl, fun _ h => by cases h⟩
  | some descstr =>
    obtain ⟨elements, hrun⟩ := argstackPush_of_described (h descstr hdesc) ⟨some descstr, 1, []⟩ va
    refine ⟨_, hrun, fun descstr' heq => ⟨elements, ?_⟩⟩
    rw [Option.some.inj heq]

theorem argstackCreate_eq_none (h : ¬ sig.Described) (va : VaList) : argstackCreateFromVaList sig.descstr va = none := by
  unfold Described at h
  simp only [not_forall] at h
  obtain ⟨descstr, hdesc, c, hc, htype⟩ := h
  rw [hdesc]
  exact argstackPush_eq_none (fun hall => htype (hall c hc)) va (Option.some_ne_none descstr) rfl

/-! ## The calls -/

/-- The handlers for a message are called, each after the one before. -/
theorem callAll_eq (sigs : List MessageHandler) (s : Broadcast σ) :
    callAll func name sigs s = (sigs.filter (·.handles name)).foldl (call func) s := by
  induction sigs generalizing s with
  | nil => rfl
  | cons sig sigs ih =>
    rw [callAll, ih]
    cases h : sig.handles name with
    | true => rw [if_pos rfl, List.filter_cons_of_pos h, List.foldl_cons]
    | false => rw [if_neg Bool.false_ne_true, List.filter_cons_of_neg (by simp [h])]

theorem call_calls (s : Broadcast σ) (sig : MessageHandler) : (call func s sig).calls = s.calls ++ [sig] := by
  rw [call]
  split <;> rfl

theorem call_aborted (s : Broadcast σ) (sig : MessageHandler) : (call func s sig).aborted = s.aborted := by
  rw [call]
  split <;> rfl

theorem foldl_call_calls (sigs : List MessageHandler) (s : Broadcast σ) :
    (sigs.foldl (call func) s).calls = s.calls ++ sigs := by
  induction sigs generalizing s with
  | nil => exact (List.append_nil _).symm
  | cons sig sigs ih => rw [List.foldl_cons, ih, call_calls, List.append_assoc, List.singleton_append]

theorem foldl_call_aborted (sigs : List MessageHandler) (s : Broadcast σ) :
    (sigs.foldl (call func) s).aborted = s.aborted := by
  induction sigs generalizing s with
  | nil => rfl
  | cons sig sigs ih => rw [List.foldl_cons, ih, call_aborted]

/-- What the handlers leave, where one of the class is found whose description
makes a stack, or is null. -/
def afterCalls (func : MessagingFunc σ) (name : CString) (sig : MessageHandler) (klass self : List MessageHandler)
    (va : VaList) (world : σ) : Broadcast σ :=
  ((klass ++ self).filter (·.handles name)).foldl (call func) ⟨world, sig.stackOf va, [], false⟩

/-- With a handler of the class that is described: all handlers are called, and
then the reference to the stack is dropped. -/
theorem messageBroadcast_of_described (hfind : klass.find? (·.named name) = some sig) (hdesc : sig.Described) :
    messageBroadcast func name klass self va world =
      match argstackUnref (afterCalls func name sig klass self va world).stack with
      | none => { afterCalls func name sig klass self va world with aborted := true }
      | some stack => { afterCalls func name sig klass self va world with stack := stack } := by
  obtain ⟨stack, hstack, -⟩ := argstackCreate_of_described hdesc va
  have hstackOf : sig.stackOf va = stack := by
    rw [stackOf, hstack]
    rfl
  have hcalls : callAll func name self (callAll func name klass ⟨world, stack, [], false⟩) =
      afterCalls func name sig klass self va world := by
    rw [callAll_eq, callAll_eq, ← List.foldl_append, ← List.filter_append, afterCalls, hstackOf]
  simp only [messageBroadcast, hfind, Option.isNone_some, if_neg Bool.false_ne_true, hstack, hcalls]

/-- With one that is not: the stack cannot be made. -/
theorem messageBroadcast_of_not_described (hfind : klass.find? (·.named name) = some sig) (hdesc : ¬ sig.Described) :
    messageBroadcast func name klass self va world = ⟨world, none, [], true⟩ := by
  simp only [messageBroadcast, hfind, Option.isNone_some, if_neg Bool.false_ne_true, argstackCreate_eq_none hdesc]

/-- With none, nothing is done. -/
theorem messageBroadcast_of_none (hfind : klass.find? (·.named name) = none) :
    messageBroadcast func name klass self va world = ⟨world, none, [], false⟩ := by
  simp only [messageBroadcast, hfind, Option.isNone_none, if_true]

theorem nil_eq_filter_iff : [] = (klass ++ self).filter (·.handles name) ↔ ∀ sig ∈ klass ++ self, ¬ sig.handles name := by
  rw [eq_comm, List.filter_eq_nil_iff]

/-- **A message comes to all its handlers**, once and in their order, if and only
if the class has one of them, and the first that it has is described, or there
is no handler with a function. And **the program is aborted** if and only if the
class has one of them, and the first that it has is not described, or the
reference to the stack that is dropped in the end is the last one. -/
theorem messageBroadcast_calls_iff (func : MessagingFunc σ) (name : CString) (klass self : List MessageHandler)
    (va : VaList) (world : σ) :
    ((messageBroadcast func name klass self va world).calls = (klass ++ self).filter (·.handles name) ↔
      (∃ sig, klass.find? (·.named name) = some sig ∧ sig.Described) ∨ ∀ sig ∈ klass ++ self, ¬ sig.handles name) ∧
    ((messageBroadcast func name klass self va world).aborted = true ↔
      ∃ sig, klass.find? (·.named name) = some sig ∧
        (¬ sig.Described ∨ argstackUnref (afterCalls func name sig klass self va world).stack = none)) := by
  cases hfind : klass.find? (·.named name) with
  | none =>
    rw [messageBroadcast_of_none hfind, nil_eq_filter_iff]
    simp
  | some sig =>
    by_cases hdesc : sig.Described
    · have hcalls : (afterCalls func name sig klass self va world).calls = (klass ++ self).filter (·.handles name) := by
        rw [afterCalls, foldl_call_calls, List.nil_append]
      have haborted : (afterCalls func name sig klass self va world).aborted = false := foldl_call_aborted _ _
      rw [messageBroadcast_of_described hfind hdesc]
      cases hunref : argstackUnref (afterCalls func name sig klass self va world).stack with
      | none => exact ⟨iff_of_true hcalls (.inl ⟨sig, rfl, hdesc⟩), iff_of_true rfl ⟨sig, rfl, .inr hunref⟩⟩
      | some stack =>
        refine ⟨iff_of_true hcalls (.inl ⟨sig, rfl, hdesc⟩), iff_of_false ?_ ?_⟩
        · simp [haborted]
        · rintro ⟨sig', hsig', hbad⟩
          obtain rfl := Option.some.inj hsig'
          rcases hbad with hbad | hbad
          · exact hbad hdesc
          · rw [hunref] at hbad
            cases hbad
    · rw [messageBroadcast_of_not_described hfind hdesc, nil_eq_filter_iff]
      refine ⟨⟨.inr, fun h => h.resolve_left ?_⟩, iff_of_true rfl ⟨sig, rfl, .inl hdesc⟩⟩
      rintro ⟨sig', hsig', hdesc'⟩
      obtain rfl := Option.some.inj hsig'
      exact hdesc hdesc'

/-- The handlers take no reference to the stack, and do not rename it. -/
def Borrows (func : MessagingFunc σ) : Prop :=
  ∀ sig world stack, (func.withStack sig world stack).2.name = stack.name ∧
    (func.withStack sig world stack).2.refcount = stack.refcount

/-- A stack with a name and one reference stays one. -/
theorem foldl_call_borrows (h : Borrows func) {descstr : CString} (sigs : List MessageHandler) {s : Broadcast σ}
    (hs : ∃ elements, s.stack = some ⟨some descstr, 1, elements⟩) :
    ∃ elements, (sigs.foldl (call func) s).stack = some ⟨some descstr, 1, elements⟩ := by
  induction sigs generalizing s with
  | nil => exact hs
  | cons sig sigs ih =>
    obtain ⟨elements, hs⟩ := hs
    obtain ⟨hname, href⟩ := h sig s.world ⟨some descstr, 1, elements⟩
    obtain ⟨left, hleft⟩ : ∃ left, left = func.withStack sig s.world ⟨some descstr, 1, elements⟩ := ⟨_, rfl⟩
    have hcall : (call func s sig).stack = some left.2 := by
      simp only [call, hs, hleft]
    rw [← hleft] at hname href
    refine ih ⟨left.2.stack, hcall.trans ?_⟩
    rw [← show left.2.name = some descstr from hname, ← show left.2.refcount = 1 from href]

/-- **No message with a stack comes back**, where the handlers take no reference
to it: the stack cannot be made, or it cannot be freed. -/
theorem aborted_of_borrows (h : Borrows func) (hfind : klass.find? (·.named name) = some sig) (hdesc : sig.descstr ≠ none) :
    (messageBroadcast func name klass self va world).aborted = true := by
  refine (messageBroadcast_calls_iff func name klass self va world).2.2 ⟨sig, hfind, ?_⟩
  by_cases hd : sig.Described
  · obtain ⟨descstr, hdescstr⟩ := Option.ne_none_iff_exists'.1 hdesc
    obtain ⟨stack, hstack, hof⟩ := argstackCreate_of_described hd va
    obtain ⟨elements, rfl⟩ := hof descstr hdescstr
    have hstackOf : sig.stackOf va = some ⟨some descstr, 1, elements⟩ := by
      rw [stackOf, hstack]
      rfl
    obtain ⟨elements', hleft⟩ := foldl_call_borrows h ((klass ++ self).filter (·.handles name))
      (s := ⟨world, sig.stackOf va, [], false⟩) ⟨elements, hstackOf⟩
    refine .inr ?_
    rw [afterCalls, hleft]
    rfl
  · exact .inl hd

/-- A handler for the message "a", with a description. -/
def handlesA (descstr : CString) : MessageHandler := ⟨⟨[97], CString.nul_free_a⟩, some descstr, some 0⟩

/-- **A message that only the object has a handler for** comes to none, and neither
does one whose handler has the description "a". -/
theorem not_called :
    (messageBroadcast (⟨fun _ w => w, fun _ w stack => (w, stack)⟩ : MessagingFunc Unit) ⟨[97], CString.nul_free_a⟩
        [] [handlesA ⟨[], CString.nul_free_nil⟩] (fun _ => 0) ()).calls ≠
      ([] ++ [handlesA ⟨[], CString.nul_free_nil⟩]).filter (·.handles ⟨[97], CString.nul_free_a⟩) ∧
    (messageBroadcast (⟨fun _ w => w, fun _ w stack => (w, stack)⟩ : MessagingFunc Unit) ⟨[97], CString.nul_free_a⟩
        [handlesA ⟨[97], CString.nul_free_a⟩] [] (fun _ => 0) ()).calls ≠
      ([handlesA ⟨[97], CString.nul_free_a⟩] ++ []).filter (·.handles ⟨[97], CString.nul_free_a⟩) := by
  refine ⟨fun h => ?_, fun h => ?_⟩
  · exact absurd (congrArg List.length h) (by decide)
  · exact absurd (congrArg List.length h) (by decide)

end MessageHandler

end Mowgli
