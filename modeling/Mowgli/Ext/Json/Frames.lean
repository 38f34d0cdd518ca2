import Mowgli.Ext.Json.Stack
/-!
# The containers that are open

Where no error was recorded, the stack and the build list tell of the same
containers. `Ready` is the stack between two tokens, `Move` what a token
that is expected does to it, and what it does to the build list.
-/

namespace Mowgli

namespace Json

/-- A container that is not closed yet, what was put into it last coming
first. An object may wait for the value to a name. -/
inductive Frame (V : Type)
  | object (members : List (V × V)) (name : Option V)
  | array (elements : List V)

namespace Frame

variable {V : Type}

/-- A container on the build list. -/
def flat {H : Type} (ops : JsonOps H V) : Frame V → List V
  | object m name => name.toList ++ (m.flatMap (fun e => [e.2, e.1]) ++ [ops.objStart])
  | array l => l ++ [ops.arrStart]

/-- What is on the stack for a container around others. -/
def tail : Frame V → Sym
  | object _ _ => .objTail
  | array _ => .arrTail

/-- A value can be put into the container. -/
def Waits : Frame V → Prop
  | object _ name => name.isSome
  | array _ => True

end Frame

section

variable {H V : Type}

/-- The build list, the innermost container first. -/
def flatAll (ops : JsonOps H V) (F : List (Frame V)) : List V := F.flatMap (Frame.flat ops)

/-- What is on the stack for containers around others. -/
def tails (F : List (Frame V)) : List Sym := F.map Frame.tail

/-- A value is put into the innermost container. -/
def addValue (v : V) : List (Frame V) → List (Frame V)
  | .array l :: F => .array (v :: l) :: F
  | .object m (some name) :: F => .object ((name, v) :: m) none :: F
  | F => F

/-- **The stack between two tokens**, with the containers that are open. -/
inductive Ready : List Sym → List (Frame V) → Prop
  | document : Ready [.jsonDocument] []
  | done : Ready [] []
  | object {top : Sym} {m : List (V × V)} {F : List (Frame V)} :
      top ∈ [Sym.objBody, .objTail, .objElems] → (∀ f ∈ F, f.Waits) → Ready (top :: tails F) (.object m none :: F)
  | name {m : List (V × V)} {name : V} {F : List (Frame V)} :
      (∀ f ∈ F, f.Waits) → Ready (.nameSep :: .value :: .objTail :: tails F) (.object m (some name) :: F)
  | colon {m : List (V × V)} {name : V} {F : List (Frame V)} :
      (∀ f ∈ F, f.Waits) → Ready (.value :: .objTail :: tails F) (.object m (some name) :: F)
  | array {top : Sym} {l : List V} {F : List (Frame V)} :
      top ∈ [Sym.arrBody, .arrTail, .arrElems] → (∀ f ∈ F, f.Waits) → Ready (top :: tails F) (.array l :: F)

/-- The symbols of tokens. -/
def tokenSyms : List Sym :=
  [.beginObject, .endObject, .beginArray, .endArray, .nameSep, .valueSep, .string, .number, .identifier]

/-- **What a token does** that is expected with some containers open: what
it leaves on the stack, how high the stack gets, and what it does to the
build list. -/
inductive Move (ops : JsonOps H V) : List (Frame V) → Sym → List Sym → ℕ →
    (H → List V → Token V → Except Fault (H × List V)) → Prop
  | openObject {F : List (Frame V)} : (∀ f ∈ F, f.Waits) →
      Move ops F .beginObject (.objBody :: tails F) (F.length + 2) fun h build _ => .ok (h, ops.objStart :: build)
  | openArray {F : List (Frame V)} : (∀ f ∈ F, f.Waits) →
      Move ops F .beginArray (.arrBody :: tails F) (F.length + 2) fun h build _ => .ok (h, ops.arrStart :: build)
  | scalar {F : List (Frame V)} {sym : Sym} : sym ∈ [Sym.string, .number, .identifier] → F ≠ [] →
      (∀ f ∈ F, f.Waits) → Move ops F sym (tails F) (F.length + 1) (Parse.llActEcho ops)
  | name {m : List (V × V)} {F : List (Frame V)} : (∀ f ∈ F, f.Waits) →
      Move ops (.object m none :: F) .string (.nameSep :: .value :: .objTail :: tails F) (F.length + 4)
        (Parse.llActEcho ops)
  | closeObject {m : List (V × V)} {F : List (Frame V)} : (∀ f ∈ F, f.Waits) →
      Move ops (.object m none :: F) .endObject (tails F) (F.length + 1) fun h build _ => Parse.llActObjEnd ops h build
  | closeArray {l : List V} {F : List (Frame V)} : (∀ f ∈ F, f.Waits) →
      Move ops (.array l :: F) .endArray (tails F) (F.length + 1) fun h build _ => Parse.llActArrEnd ops h build
  | colon {m : List (V × V)} {name : V} {F : List (Frame V)} : (∀ f ∈ F, f.Waits) →
      Move ops (.object m (some name) :: F) .nameSep (.value :: .objTail :: tails F) 0 fun h build _ => .ok (h, build)
  | objComma {m : List (V × V)} {F : List (Frame V)} : (∀ f ∈ F, f.Waits) →
      Move ops (.object m none :: F) .valueSep (.objElems :: tails F) (F.length + 2) fun h build _ => .ok (h, build)
  | arrComma {l : List V} {F : List (Frame V)} : (∀ f ∈ F, f.Waits) →
      Move ops (.array l :: F) .valueSep (.arrElems :: tails F) (F.length + 2) fun h build _ => .ok (h, build)

end

/-! ## A stack and what is below it -/

/-- The verdict with more symbols below. -/
def Verdict.under : Verdict → List Sym → Verdict
  | .accept stack, σ => .accept (stack ++ σ)
  | .reject e stack, σ => .reject e (stack ++ σ)
  | .endless, _ => .endless

/-- The course with more symbols below. -/
def Course.under (c : Course) (σ : List Sym) : Course :=
  ⟨c.rules, if c.peak = 0 then 0 else c.peak + σ.length, c.verdict.under σ⟩

theorem course_append {n : ℕ} {s : List Sym} (hs : s ≠ []) (σ : List Sym) (sym : Sym) :
    course n (s ++ σ) sym = (course n s sym).under σ := by
  induction n generalizing s with
  | zero => rfl
  | succ n ih =>
    obtain ⟨top, s, rfl⟩ := List.exists_cons_of_ne_nil hs
    rw [List.cons_append, course, course]
    split_ifs with htop ht
    · rfl
    · rfl
    · have hne : llRules (llTable top sym) ++ s ≠ [] := by simp [Parse.llRules_ne_nil ht]
      have hlen : 0 < (llRules (llTable top sym) ++ s).length := List.length_pos_of_ne_nil hne
      rw [← List.append_assoc, ih hne]
      simp only [Course.after, Course.under, List.length_append, Course.mk.injEq, true_and, and_true] at hlen ⊢
      split_ifs <;> omega

theorem tokCourse_cons (top : Sym) (σ : List Sym) (sym : Sym) :
    Parse.tokCourse (top :: σ) sym = (Parse.tokCourse [top] sym).under σ :=
  course_append (List.cons_ne_nil top []) σ sym

/-! ## What a token does -/

section

variable {H V : Type} (ops : JsonOps H V) {stack : List Sym} {F : List (Frame V)} {sym : Sym}

/-- What is said of a token that is expected. -/
def Moves (ops : JsonOps H V) (F : List (Frame V)) (sym : Sym) (c : Course) : Prop :=
  ∃ rest peak act, Move ops F sym rest peak act ∧ c.verdict = .accept rest ∧ c.peak = peak ∧
    ∀ h build tok, Parse.llActions ops c.rules h build tok = act h build tok

theorem Ready.turn (h : Ready stack F) (hsym : sym ∈ tokenSyms) :
    (∃ e rest, Parse.tokCourse stack sym = ⟨[], 0, .reject e rest⟩) ∨ Moves ops F sym (Parse.tokCourse stack sym) := by
  have hone : ∀ x : Except Fault (H × List V), (x >>= fun hb => .ok (hb.1, hb.2)) = x := by
    intro x
    cases x <;> rfl
  simp only [tokenSyms, List.mem_cons, List.not_mem_nil, or_false] at hsym
  cases h with
  | document =>
    rcases hsym with rfl | rfl | rfl | rfl | rfl | rfl | rfl | rfl | rfl
    · exact Or.inr ⟨_, _, _, .openObject (fun f hf => absurd hf List.not_mem_nil), rfl, rfl, fun _ _ _ => rfl⟩
    · exact Or.inl ⟨_, _, rfl⟩
    · exact Or.inr ⟨_, _, _, .openArray (fun f hf => absurd hf List.not_mem_nil), rfl, rfl, fun _ _ _ => rfl⟩
    all_goals exact Or.inl ⟨_, _, rfl⟩
  | done => exact Or.inl ⟨_, _, rfl⟩
  | @object top m F htop hF =>
    have hlen : (tails F).length = F.length := List.length_map _
    rw [tokCourse_cons]
    simp only [List.mem_cons, List.not_mem_nil, or_false] at htop
    rcases htop with rfl | rfl | rfl <;> rcases hsym with rfl | rfl | rfl | rfl | rfl | rfl | rfl | rfl | rfl <;>
      first
      | exact Or.inl ⟨_, _, rfl⟩
      | exact Or.inr ⟨_, _, _, .closeObject hF, rfl, (show 1 + (tails F).length = _ by omega), fun _ _ _ => hone _⟩
      | exact Or.inr ⟨_, _, _, .objComma hF, rfl, (show 2 + (tails F).length = _ by omega), fun _ _ _ => rfl⟩
      | exact Or.inr ⟨_, _, _, .name hF, rfl, (show 4 + (tails F).length = _ by omega), fun _ _ _ => hone _⟩
  | @name m name F hF =>
    rw [tokCourse_cons]
    rcases hsym with rfl | rfl | rfl | rfl | rfl | rfl | rfl | rfl | rfl <;>
      first
      | exact Or.inl ⟨_, _, rfl⟩
      | exact Or.inr ⟨_, _, _, .colon hF, rfl, rfl, fun _ _ _ => rfl⟩
  | @colon m name F hF =>
    have hlen : (tails F).length = F.length := List.length_map _
    have hF' : ∀ f ∈ Frame.object m (some name) :: F, f.Waits := by
      intro f hf
      rcases List.mem_cons.1 hf with rfl | hf
      · rfl
      · exact hF f hf
    have hne : Frame.object m (some name) :: F ≠ [] := List.cons_ne_nil _ _
    rw [tokCourse_cons]
    rcases hsym with rfl | rfl | rfl | rfl | rfl | rfl | rfl | rfl | rfl <;>
      first
      | exact Or.inl ⟨_, _, rfl⟩
      | exact Or.inr ⟨_, _, _, .openObject hF', rfl, (show 2 + ((tails F).length + 1) = _ + 1 + 2 by omega),
          fun _ _ _ => rfl⟩
      | exact Or.inr ⟨_, _, _, .openArray hF', rfl, (show 2 + ((tails F).length + 1) = _ + 1 + 2 by omega),
          fun _ _ _ => rfl⟩
      | exact Or.inr ⟨_, _, _, .scalar (by decide) hne hF', rfl, (show 1 + ((tails F).length + 1) = _ + 1 + 1 by omega),
          fun _ _ _ => hone _⟩
  | @array top l F htop hF =>
    have hlen : (tails F).length = F.length := List.length_map _
    have hF' : ∀ f ∈ Frame.array l :: F, f.Waits := by
      intro f hf
      rcases List.mem_cons.1 hf with rfl | hf
      · trivial
      · exact hF f hf
    have hne : Frame.array l :: F ≠ [] := List.cons_ne_nil _ _
    rw [tokCourse_cons]
    simp only [List.mem_cons, List.not_mem_nil, or_false] at htop
    rcases htop with rfl | rfl | rfl <;> rcases hsym with rfl | rfl | rfl | rfl | rfl | rfl | rfl | rfl | rfl <;>
      first
      | exact Or.inl ⟨_, _, rfl⟩
      | exact Or.inr ⟨_, _, _, .closeArray hF, rfl, (show 1 + (tails F).length = _ by omega), fun _ _ _ => hone _⟩
      | exact Or.inr ⟨_, _, _, .arrComma hF, rfl, (show 2 + (tails F).length = _ by omega), fun _ _ _ => rfl⟩
      | exact Or.inr ⟨_, _, _, .openObject hF', rfl, (show 3 + (tails F).length = _ + 1 + 2 by omega),
          fun _ _ _ => rfl⟩
      | exact Or.inr ⟨_, _, _, .openArray hF', rfl, (show 3 + (tails F).length = _ + 1 + 2 by omega),
          fun _ _ _ => rfl⟩
      | exact Or.inr ⟨_, _, _, .scalar (by decide) hne hF', rfl, (show 2 + (tails F).length = _ + 1 + 1 by omega),
          fun _ _ _ => hone _⟩

end

end Json

end Mowgli
