import Mowgli.Ext.Json.Frames
import Mowgli.Ext.Json.Runs
/-!
# How deep the stack gets

There is one symbol on the stack for each container that is open, and up to
three more while a token is parsed: the stack is full when the 128th
container is opened inside the others, or a name is read inside the 126th.
Nothing else that is fed to a parser pushes past its end, or makes it fail
in another way.
-/

namespace Mowgli

namespace Json

/-- What the parser puts into a container: names are strings, and no marker
is a value. -/
def Frame.Plain : Frame Value → Prop
  | .object m name => (∃ r : List (List UInt8 × Value), m = r.map (fun e => (Value.string e.1, e.2)) ∧
      ∀ e ∈ r, ¬ e.2.IsMarker) ∧ ∀ k ∈ name, ∃ bytes, k = Value.string bytes
  | .array l => ∀ v ∈ l, ¬ v.IsMarker

/-- No more containers are open than there is room for. -/
structure Shallow (F : List (Frame Value)) : Prop where
  depth : F.length ≤ 127
  named : ∀ m name F', F = .object m (some name) :: F' → F.length ≤ 125

namespace Parse

/-- How many containers are open. -/
def opened (parse : Parser) : ℕ :=
  (parse.build.filter fun v => valueOps.isObjStart v || valueOps.isArrStart v).length

/-- A token for which there is no room: it opens a container inside 127
others, or is a name inside of 126. -/
def TooDeep (parse : Parser) (sym : Sym) : Prop :=
  ∃ top σ, parse.stack = top :: σ ∧ llTable top sym ≠ 0 ∧
    (sym ∈ [Sym.beginObject, .beginArray] ∧ 127 ≤ parse.opened ∨
      sym = .string ∧ top ∈ [Sym.objBody, .objElems] ∧ 126 ≤ parse.opened)

/-- A character that is such a token, or the end of one. -/
def Deepens (parse : Parser) (c : UInt8) : Prop :=
  ∃ sym, (parse.lex = .limbo ∧ easySym c = some sym ∨ parse.lex = .string ∧ c = ch '"' ∧ sym = .string) ∧
    parse.TooDeep sym

/-- The parser between two tokens, no error being recorded. -/
structure Between (parse : Parser) (F : List (Frame Value)) : Prop where
  ready : Ready parse.stack F
  build : parse.build = flatAll valueOps F
  plain : ∀ f ∈ F, f.Plain
  shallow : Shallow F

end Parse

section

variable {F F' : List (Frame Value)} {f : Frame Value} {v : Value} {stack rest : List Sym} {t : Terminal} {peak : ℕ}

/-! ## Containers -/

theorem flatAll_cons : flatAll valueOps (f :: F) = f.flat valueOps ++ flatAll valueOps F := List.flatMap_cons

theorem filter_plain {l : List Value} (h : ∀ v ∈ l, ¬ v.IsMarker) :
    l.filter (fun v => valueOps.isObjStart v || valueOps.isArrStart v) = [] := by
  rw [List.filter_eq_nil_iff]
  intro v hv
  rw [Value.isObjStart_of_not_marker (h v hv), Value.isArrStart_of_not_marker (h v hv)]
  decide

/-- There is one marker for each container. -/
theorem opened_flatAll (h : ∀ f ∈ F, f.Plain) :
    ((flatAll valueOps F).filter fun v => valueOps.isObjStart v || valueOps.isArrStart v).length = F.length := by
  induction F with
  | nil => rfl
  | cons f F ih =>
    rw [flatAll_cons, List.filter_append, List.length_append, ih fun f hf => h f (List.mem_cons_of_mem _ hf),
      List.length_cons, Nat.add_comm, Nat.add_left_cancel_iff]
    have hf := h f List.mem_cons_self
    cases f with
    | array l =>
      rw [Frame.flat, List.filter_append, filter_plain hf]
      rfl
    | object m name =>
      obtain ⟨⟨r, rfl, hr⟩, hname⟩ := hf
      rw [Frame.flat, List.filter_append, List.filter_append, filter_plain, filter_plain]
      · rfl
      · intro v hv
        simp only [List.mem_flatMap, List.mem_map, List.mem_cons, List.not_mem_nil, or_false] at hv
        obtain ⟨_, ⟨e, he, rfl⟩, rfl | rfl⟩ := hv
        · exact hr e he
        · exact id
      · intro v hv
        obtain ⟨bytes, rfl⟩ := hname v (Option.mem_toList.1 hv)
        exact id

/-- A value that is put into a container is on the build list. -/
theorem flatAll_addValue (hne : F ≠ []) (hw : ∀ f ∈ F, f.Waits) :
    flatAll valueOps (addValue v F) = v :: flatAll valueOps F := by
  cases F with
  | nil => exact absurd rfl hne
  | cons f F =>
    have hf := hw f List.mem_cons_self
    cases f with
    | array l => rfl
    | object m name =>
      cases name with
      | none => cases hf
      | some k => rfl

theorem ready_addValue (hne : F ≠ []) (hw : ∀ f ∈ F, f.Waits) : Ready (tails F) (addValue v F) := by
  cases F with
  | nil => exact absurd rfl hne
  | cons f F =>
    have hf := hw f List.mem_cons_self
    have hF : ∀ f ∈ F, f.Waits := fun f hf => hw f (List.mem_cons_of_mem _ hf)
    cases f with
    | array l => exact .array (show Sym.arrTail ∈ _ by decide) hF
    | object m name =>
      cases name with
      | none => cases hf
      | some k => exact .object (show Sym.objTail ∈ _ by decide) hF

theorem plain_addValue (hv : ¬ v.IsMarker) (h : ∀ f ∈ F, f.Plain) : ∀ f ∈ addValue v F, f.Plain := by
  cases F with
  | nil => exact h
  | cons f F =>
    have hf := h f List.mem_cons_self
    have hF : ∀ f ∈ F, f.Plain := fun f hf => h f (List.mem_cons_of_mem _ hf)
    cases f with
    | array l =>
      intro f hf'
      rcases List.mem_cons.1 hf' with rfl | hf'
      · intro w hw
        rcases List.mem_cons.1 hw with rfl | hw
        · exact hv
        · exact hf w hw
      · exact hF f hf'
    | object m name =>
      cases name with
      | none => exact h
      | some k =>
        obtain ⟨⟨r, rfl, hr⟩, hname⟩ := hf
        obtain ⟨bytes, rfl⟩ := hname k rfl
        intro f hf'
        rcases List.mem_cons.1 hf' with rfl | hf'
        · refine ⟨⟨(bytes, v) :: r, rfl, fun e he => ?_⟩, fun k hk => by cases hk⟩
          rcases List.mem_cons.1 he with rfl | he
          · exact hv
          · exact hr e he
        · exact hF f hf'

theorem shallow_addValue (h : F.length ≤ 127) : Shallow (addValue v F) := by
  cases F with
  | nil => exact ⟨h, fun _ _ _ heq => by cases heq⟩
  | cons f F =>
    cases f with
    | array l => exact ⟨h, fun _ _ _ heq => by cases heq⟩
    | object m name =>
      cases name with
      | none => exact ⟨h, fun _ _ _ heq => by cases heq⟩
      | some k => exact ⟨h, fun _ _ _ heq => by cases heq⟩

/-- A container that is closed is a value. -/
theorem llActObjEnd_plain {m : List (Value × Value)} (h : (Frame.object m none).Plain) (b : List Value) :
    ∃ v, ¬ v.IsMarker ∧
      Parse.llActObjEnd valueOps () ((Frame.object m none).flat valueOps ++ b) = .ok ((), v :: b) := by
  obtain ⟨⟨r, rfl, hr⟩, -⟩ := h
  refine ⟨.object (objectOf r.reverse), id, ?_⟩
  have hend := llActObjEnd_members (fun e he => hr e (List.mem_reverse.1 he)) b
  rw [membersBuild, List.reverse_reverse] at hend
  rw [Frame.flat, List.flatMap_map, List.append_assoc, List.append_assoc]
  exact hend

theorem llActArrEnd_plain {l : List Value} (h : (Frame.array l).Plain) (b : List Value) :
    ∃ v, ¬ v.IsMarker ∧
      Parse.llActArrEnd valueOps () ((Frame.array l).flat valueOps ++ b) = .ok ((), v :: b) := by
  refine ⟨.array l.reverse, id, ?_⟩
  have hend := llActArrEnd_elements (fun v hv => h v (List.mem_reverse.1 hv)) b
  rw [List.reverse_reverse] at hend
  rw [Frame.flat, List.append_assoc]
  exact hend

/-! ## A token that is expected -/

/-- How many containers are open after a token. -/
def depthAfter (sym : Sym) (n : ℕ) : ℕ :=
  match sym with
  | .beginObject | .beginArray => n + 1
  | .endObject | .endArray => n - 1
  | _ => n

/-- What the build list is after a token that leaves `rest` on the stack: of
`n` containers that are open, or of one document. -/
inductive Built (sym : Sym) (n peak : ℕ) (rest : List Sym) (b : List Value) : Prop
  | opened {F : List (Frame Value)} : rest ≠ [] → Ready rest F → b = flatAll valueOps F → (∀ f ∈ F, f.Plain) →
      (peak ≤ LL_STACK_SIZE → Shallow F) → (sym ∈ [Sym.number, .identifier] → rest = tails F) → F.length = n →
      Built sym n peak rest b
  | document {v : Value} : rest = [] → b = [v] → ¬ v.IsMarker → sym ∉ [Sym.number, .identifier] → n = 0 →
      Built sym n peak rest b

theorem length_addValue : (addValue v F).length = F.length := by
  cases F with
  | nil => rfl
  | cons f F =>
    cases f with
    | array l => rfl
    | object m name => cases name <;> rfl

/-- A value that is put where it is waited for. -/
theorem Built.value {sym : Sym} (hv : ¬ v.IsMarker) (hsym : F = [] → sym ∉ [Sym.number, .identifier])
    (hw : ∀ f ∈ F, f.Waits) (hp : ∀ f ∈ F, f.Plain) (hd : F.length ≤ 127) :
    Built sym F.length peak (tails F) (v :: flatAll valueOps F) := by
  by_cases hne : F = []
  · subst hne
    exact .document rfl rfl hv (hsym rfl) rfl
  · refine .opened ?_ (ready_addValue hne hw) (flatAll_addValue hne hw).symm (plain_addValue hv hp)
      (fun _ => shallow_addValue hd) (fun _ => ?_) length_addValue
    · intro hnil
      exact hne (List.map_eq_nil_iff.1 hnil)
    · cases F with
      | nil => exact absurd rfl hne
      | cons f F =>
        have hf := hw f List.mem_cons_self
        cases f with
        | array l => rfl
        | object m name =>
          cases name with
          | none => cases hf
          | some k => rfl

/-- The value of a terminal that has one. -/
theorem Terminal.val_scalar (h : t.sym ∈ [Sym.string, .number, .identifier]) :
    ∃ v, t.val = some v ∧ ¬ v.IsMarker ∧ (t.sym = .string → ∃ bytes, v = .string bytes) := by
  cases t <;> simp only [Terminal.sym, List.mem_cons, reduceCtorEq, or_false, or_self, List.not_mem_nil] at h <;>
    exact ⟨_, rfl, id, fun hs => by first | exact ⟨_, rfl⟩ | cases hs⟩

theorem llActEcho_scalar {b : List Value} (h : t.val = some v) :
    Parse.llActEcho valueOps () b t.token = .ok ((), v :: b) := by
  unfold Parse.llActEcho
  rw [Terminal.token, h]
  rfl

/-- **What a token that is expected builds.** -/
theorem Move.built {act : Unit → List Value → Token Value → Except Fault (Unit × List Value)}
    (hm : Move valueOps F t.sym rest peak act) (hp : ∀ f ∈ F, f.Plain) (hs : Shallow F) :
    ∃ b, act () (flatAll valueOps F) t.token = .ok ((), b) ∧ Built t.sym (depthAfter t.sym F.length) peak rest b := by
  have hd := hs.depth
  generalize hsym : t.sym = sym at hm
  cases hm with
  | openObject hw =>
    refine ⟨_, rfl, .opened (List.cons_ne_nil _ _) (.object (m := []) (by decide) hw) rfl ?_
      (fun hpeak => ⟨?_, ?_⟩) (fun hs => absurd hs (by decide)) rfl⟩
    · intro f hf
      rcases List.mem_cons.1 hf with rfl | hf
      · exact ⟨⟨[], rfl, fun _ he => absurd he List.not_mem_nil⟩, fun k hk => by cases hk⟩
      · exact hp f hf
    · unfold LL_STACK_SIZE at hpeak
      rw [List.length_cons]
      omega
    · exact fun _ _ _ heq => by cases heq
  | openArray hw =>
    refine ⟨_, rfl, .opened (List.cons_ne_nil _ _) (.array (l := []) (by decide) hw) rfl ?_
      (fun hpeak => ⟨?_, ?_⟩) (fun hs => absurd hs (by decide)) rfl⟩
    · intro f hf
      rcases List.mem_cons.1 hf with rfl | hf
      · exact fun v hv => absurd hv List.not_mem_nil
      · exact hp f hf
    · unfold LL_STACK_SIZE at hpeak
      rw [List.length_cons]
      omega
    · exact fun _ _ _ heq => by cases heq
  | scalar hmem hne hw =>
    rw [← hsym] at hmem
    obtain ⟨v, hval, hv, -⟩ := Terminal.val_scalar hmem
    have hn : depthAfter sym F.length = F.length := by
      rw [hsym] at hmem
      simp only [List.mem_cons, List.not_mem_nil, or_false] at hmem
      rcases hmem with rfl | rfl | rfl <;> rfl
    rw [hn]
    exact ⟨_, llActEcho_scalar hval, .value hv (fun hnil => absurd hnil hne) hw hp hd⟩
  | @name m F hw =>
    obtain ⟨v, hval, hv, hstr⟩ := Terminal.val_scalar (t := t) (by rw [hsym]; decide)
    obtain ⟨bytes, rfl⟩ := hstr hsym
    refine ⟨_, llActEcho_scalar hval, .opened (List.cons_ne_nil _ _) (.name (m := m) hw) rfl ?_
      (fun hpeak => ⟨?_, ?_⟩) (fun hs => absurd hs (by decide)) rfl⟩
    · intro f hf
      rcases List.mem_cons.1 hf with rfl | hf
      · refine ⟨(hp _ List.mem_cons_self).1, fun k hk => ?_⟩
        rw [Option.mem_some_iff] at hk
        exact ⟨bytes, hk.symm⟩
      · exact hp f (List.mem_cons_of_mem _ hf)
    · unfold LL_STACK_SIZE at hpeak
      rw [List.length_cons]
      omega
    · intro _ _ _ _
      unfold LL_STACK_SIZE at hpeak
      rw [List.length_cons]
      omega
  | @closeObject m F hw =>
    obtain ⟨v, hv, hrun⟩ := llActObjEnd_plain (hp _ List.mem_cons_self) (flatAll valueOps F)
    rw [List.length_cons] at hd
    exact ⟨_, hrun, .value hv (fun _ => by decide) hw (fun f hf => hp f (List.mem_cons_of_mem _ hf)) (by omega)⟩
  | @closeArray l F hw =>
    obtain ⟨v, hv, hrun⟩ := llActArrEnd_plain (hp _ List.mem_cons_self) (flatAll valueOps F)
    rw [List.length_cons] at hd
    exact ⟨_, hrun, .value hv (fun _ => by decide) hw (fun f hf => hp f (List.mem_cons_of_mem _ hf)) (by omega)⟩
  | colon hw => exact ⟨_, rfl, .opened (List.cons_ne_nil _ _) (.colon hw) rfl hp (fun _ => hs)
      (fun hs => absurd hs (by decide)) rfl⟩
  | objComma hw => exact ⟨_, rfl, .opened (List.cons_ne_nil _ _) (.object (by decide) hw) rfl hp (fun _ => hs)
      (fun hs => absurd hs (by decide)) rfl⟩
  | arrComma hw => exact ⟨_, rfl, .opened (List.cons_ne_nil _ _) (.array (by decide) hw) rfl hp (fun _ => hs)
      (fun hs => absurd hs (by decide)) rfl⟩

/-- **There is no room for a token** that is expected just when it is too
deep. -/
theorem Move.peak_gt {act : Unit → List Value → Token Value → Except Fault (Unit × List Value)} {sym : Sym}
    (hm : Move valueOps F sym rest peak act) (hd : F.length ≤ 127) : LL_STACK_SIZE < peak ↔
      sym ∈ [Sym.beginObject, .beginArray] ∧ 127 ≤ F.length ∨
        sym = .string ∧ (∃ m F', F = .object m none :: F') ∧ 126 ≤ F.length := by
  unfold LL_STACK_SIZE
  cases hm with
  | openObject | openArray =>
    simp only [List.mem_cons, true_or, or_true, true_and, reduceCtorEq, false_and, or_false]
    omega
  | scalar hmem hne hw =>
    refine iff_of_false (by omega) ?_
    rintro (⟨hsym, -⟩ | ⟨-, ⟨m, F', rfl⟩, -⟩)
    · simp only [List.mem_cons, List.not_mem_nil, or_false] at hmem hsym
      rcases hmem with rfl | rfl | rfl <;> rcases hsym with h | h <;> cases h
    · exact absurd (hw _ List.mem_cons_self) (by simp [Frame.Waits])
  | @name m F hw =>
    rw [List.length_cons]
    constructor
    · intro h
      exact Or.inr ⟨rfl, ⟨m, F, rfl⟩, by omega⟩
    · rintro (⟨hsym, -⟩ | ⟨-, -, h⟩)
      · exact absurd hsym (by decide)
      · omega
  | closeObject | closeArray | colon | objComma | arrComma =>
    simp only [List.length_cons] at hd ⊢
    refine iff_of_false (by omega) ?_
    rintro (⟨hsym, -⟩ | ⟨hsym, -⟩)
    · exact absurd hsym (by decide)
    · cases hsym

end

namespace Parse

variable {parse parse' : Parser} {F : List (Frame Value)} {t : Terminal} {c : UInt8}

/-! ## One token -/

theorem Between.opened_eq (h : parse.Between F) : parse.opened = F.length := by
  rw [opened, h.build, opened_flatAll h.plain]

theorem between_create (multidoc : Bool) : (create () multidoc : Parser).Between [] where
  ready := .document
  build := rfl
  plain _ hf := absurd hf List.not_mem_nil
  shallow := ⟨Nat.zero_le _, fun _ _ _ heq => by cases heq⟩

theorem Between.congr (h : parse.Between F) (hs : parse'.stack = parse.stack) (hb : parse'.build = parse.build) :
    parse'.Between F :=
  ⟨hs ▸ h.ready, hb.trans h.build, h.plain, h.shallow⟩

theorem tokenSyms_terminal (t : Terminal) : t.sym ∈ tokenSyms := by
  cases t <;> simp [tokenSyms, Terminal.sym]

/-- A token for which the stack gets higher is in the table. -/
theorem table_of_peak {stack : List Sym} {sym : Sym} (h : 0 < (tokCourse stack sym).peak) :
    ∃ top σ, stack = top :: σ ∧ llTable top sym ≠ 0 := by
  cases stack with
  | nil => exact absurd h (lt_irrefl 0)
  | cons top σ =>
    refine ⟨top, σ, rfl, fun ht => ?_⟩
    rw [tokCourse, course] at h
    split_ifs at h with htop
    · exact absurd h (lt_irrefl 0)
    · exact absurd h (lt_irrefl 0)

/-- The token is too deep just when the stack gets too high. -/
theorem Between.tooDeep_iff (h : parse.Between F) (t : Terminal) :
    parse.TooDeep t.sym ↔ LL_STACK_SIZE < (tokCourse parse.stack t.sym).peak := by
  rcases h.ready.turn valueOps (tokenSyms_terminal t) with ⟨e, rest, hc⟩ | ⟨rest, peak, act, hm, hv, rfl, -⟩
  · rw [hc]
    refine iff_of_false ?_ (Nat.not_lt_zero _)
    rintro ⟨top, σ, hs, ht, -⟩
    have hrules : (tokCourse parse.stack t.sym).rules ≠ [] := by
      rw [hs, tokCourse, course, if_neg ht, if_neg]
      · exact List.cons_ne_nil _ _
      · rintro rfl
        exact ht (llTable_terminal t _)
    rw [hc] at hrules
    exact hrules rfl
  · rw [hm.peak_gt h.shallow.depth, TooDeep, h.opened_eq]
    constructor
    · rintro ⟨top, σ, hs, ht, hdeep | ⟨hsym, htop, hopen⟩⟩
      · exact Or.inl hdeep
      · refine Or.inr ⟨hsym, ?_, hopen⟩
        have hready := h.ready
        rw [hs] at hready
        cases hready with
        | object => exact ⟨_, _, rfl⟩
        | array htop' => 
          simp only [List.mem_cons, List.not_mem_nil, or_false] at htop htop'
          rcases htop with rfl | rfl <;> rcases htop' with h | h | h <;> cases h
        | _ => exact absurd htop (by decide)
    · intro hdeep
      have hpos : 0 < (tokCourse parse.stack t.sym).peak :=
        Nat.lt_of_le_of_lt (Nat.zero_le _) ((hm.peak_gt h.shallow.depth).2 hdeep)
      obtain ⟨top, σ, hs, ht⟩ := table_of_peak hpos
      refine ⟨top, σ, hs, ht, hdeep.imp_right ?_⟩
      rintro ⟨hsym, ⟨m, F', hF⟩, hopen⟩
      refine ⟨hsym, ?_, hopen⟩
      have hready := h.ready
      rw [hs, hF] at hready
      rw [hsym] at ht
      cases hready with
      | object htop =>
        simp only [List.mem_cons, List.not_mem_nil, or_false] at htop
        rcases htop with rfl | rfl | rfl
        · decide
        · exact absurd rfl ht
        · decide

/-- **One token**, where no error was recorded: it is too deep, or an
error, or it is taken. -/
theorem Between.llParse (h : parse.Between F) (t : Terminal) :
    parse.TooDeep t.sym ∧ parse.llParse valueOps t.token = .error .overflow ∨
    ¬ parse.TooDeep t.sym ∧ ∃ parse', parse.llParse valueOps t.token = .ok parse' ∧ parse'.lex = parse.lex ∧
      ((parse'.error ≠ none ∧ parse'.build = parse.build ∧ ∃ e, tokCourse parse.stack t.sym = ⟨[], 0, .reject e parse'.stack⟩) ∨
        ∃ F', parse'.Between F' ∧ parse'.error = parse.error ∧ F'.length = depthAfter t.sym F.length ∧
          (t.sym ∈ [Sym.number, .identifier] → parse'.stack = tails F')) := by
  rw [h.tooDeep_iff]
  rcases h.ready.turn valueOps (tokenSyms_terminal t) with ⟨e, rest, hc⟩ | ⟨rest, peak, act, hm, hv, rfl, hact⟩
  · refine Or.inr ⟨by rw [hc]; exact Nat.not_lt_zero _, ?_⟩
    have hrules : llActions valueOps (tokCourse parse.stack t.sym).rules () parse.build t.token =
        .ok ((), parse.build) := by
      rw [hc]
      rfl
    obtain ⟨parse₁, hparsed, hrun⟩ := @llParse_of_le _ _ valueOps parse t.token
      (show (tokCourse parse.stack t.sym).peak ≤ _ by rw [hc]; exact Nat.zero_le _) _ hrules
    rw [llTokenFree_tree] at hrun
    have hv : (tokCourse parse.stack t.token.sym).verdict = .reject e rest := by
      show (tokCourse parse.stack t.sym).verdict = _
      rw [hc]
    cases hparsed with
    | taken hv' => exact absurd (hv.symm.trans hv') (by simp)
    | hollow hv' => exact absurd (hv.symm.trans hv') (by simp)
    | document hv' => exact absurd (hv.symm.trans hv') (by simp)
    | error hv' =>
      obtain ⟨rfl, rfl⟩ := Verdict.reject.inj (hv.symm.trans hv')
      exact ⟨_, hrun, rfl, Or.inl ⟨Option.some_ne_none _, rfl, e, hc⟩⟩
  · obtain ⟨b, hb, hbuilt⟩ := hm.built h.plain h.shallow
    rw [← h.build, ← hact] at hb
    by_cases hle : (tokCourse parse.stack t.sym).peak ≤ LL_STACK_SIZE
    · refine Or.inr ⟨not_lt.2 hle, ?_⟩
      obtain ⟨parse₁, hparsed, hrun⟩ := @llParse_of_le _ _ valueOps parse t.token hle _ hb
      rw [llTokenFree_tree] at hrun
      refine ⟨parse₁, hrun, ?_⟩
      cases hparsed with
      | @taken stack hv' hne =>
        obtain rfl : rest = stack := Verdict.accept.inj (hv.symm.trans hv')
        cases hbuilt with
        | document hrest => exact absurd hrest hne
        | @opened F' _ hready hflat hplain hshallow htails hlen =>
          exact ⟨rfl, Or.inr ⟨F', ⟨hready, hflat, hplain, hshallow hle⟩, rfl, hlen, htails⟩⟩
      | hollow hv' hnil =>
        obtain rfl : rest = [] := Verdict.accept.inj (hv.symm.trans hv')
        cases hbuilt with
        | opened hne => exact absurd rfl hne
        | document _ hv₁ => exact absurd (hnil.symm.trans hv₁) (by simp)
      | @document n rest' hv' hcons =>
        obtain rfl : rest = [] := Verdict.accept.inj (hv.symm.trans hv')
        cases hbuilt with
        | opened hne => exact absurd rfl hne
        | @document v _ hv₁ _ hsym hlen =>
          obtain ⟨-, rfl⟩ := List.cons.inj (hcons.symm.trans hv₁)
          refine ⟨rfl, Or.inr ⟨[], ⟨?_, rfl, fun _ hf => absurd hf List.not_mem_nil,
            ⟨Nat.zero_le _, fun _ _ _ heq => by cases heq⟩⟩, rfl, hlen.symm, fun hmem => absurd hmem hsym⟩⟩
          show Ready (baseStack parse.multidoc) []
          cases parse.multidoc
          · exact .done
          · exact .document
      | error hv' => exact absurd (hv.symm.trans hv') (by simp)
    · exact Or.inl ⟨not_le.1 hle, @llParse_overflow _ _ valueOps parse t.token (not_le.1 hle) _ hb⟩

/-! ## The token after an error

A number or an identifier that is an error has taken the symbol it is not
from the stack. The character that ended it is still sent once more. -/

theorem isObjStart_iff {v : Value} : valueOps.isObjStart v = true ↔ v = .objStart := by
  cases v <;> simp [valueOps]

theorem isArrStart_iff {v : Value} : valueOps.isArrStart v = true ↔ v = .arrStart := by
  cases v <;> simp [valueOps]

/-- The loop of `ll_act_obj_end` ends at the latest at a marker. -/
theorem objEndLoop_ok (o : List (CString × Value)) : ∀ b : List Value, .objStart ∈ b →
    ∃ r, objEndLoop valueOps () (.object o) b = .ok r
  | [], h => absurd h List.not_mem_nil
  | [v], h => by
    rw [objEndLoop, if_pos (isObjStart_iff.2 (List.mem_singleton.1 h).symm)]
    exact ⟨_, rfl⟩
  | v :: key :: b, h => by
    rw [objEndLoop]
    split_ifs with hv hk
    · exact ⟨_, rfl⟩
    · exact ⟨_, rfl⟩
    · rw [isObjStart_iff] at hv hk
      have hb : .objStart ∈ b := by
        rcases List.mem_cons.1 h with heq | h
        · exact absurd heq.symm hv
        · rcases List.mem_cons.1 h with heq | h
          · exact absurd heq.symm hk
          · exact h
      cases key with
      | string bytes => exact objEndLoop_ok _ b hb
      | _ => exact ⟨_, rfl⟩

/-- The loop of `ll_act_arr_end` ends at the latest at a marker. -/
theorem arrEndLoop_ok (l : List Value) {b : List Value} (h : .arrStart ∈ b) :
    ∃ r, arrEndLoop valueOps () (.array l) b = .ok r := by
  induction b generalizing l with
  | nil => exact absurd h List.not_mem_nil
  | cons v b ih =>
    rw [arrEndLoop]
    split_ifs with hv
    · exact ⟨_, rfl⟩
    · rcases List.mem_cons.1 h with heq | h
      · exact absurd (isArrStart_iff.2 heq.symm) hv
      · exact ih (v :: l) h

theorem llActions_closing_ok {rule : ℕ} (hobj : rule ∈ [9, 13] → .objStart ∈ parse.build)
    (harr : rule ∈ [16, 20] → .arrStart ∈ parse.build) (hr : rule ∈ closingRules) (tok : Token Value) :
    ∃ hb, llActions valueOps [rule] () parse.build tok = .ok hb := by
  have hend : ∀ {rule : ℕ} {hb : Unit × List Value}, llAction valueOps rule () parse.build tok = .ok hb →
      ∃ hb, llActions valueOps [rule] () parse.build tok = .ok hb := by
    intro rule hb hrun
    exact ⟨hb, by rw [llActions, hrun]; rfl⟩
  have hobj' : .objStart ∈ parse.build → ∃ hb, llActObjEnd valueOps () parse.build = .ok hb := by
    intro hmem
    obtain ⟨⟨obj, h, b⟩, hloop⟩ := objEndLoop_ok [] parse.build hmem
    refine ⟨(h, obj :: b), ?_⟩
    show (objEndLoop valueOps () (.object []) parse.build >>= _) = _
    rw [hloop]
    rfl
  have harr' : .arrStart ∈ parse.build → ∃ hb, llActArrEnd valueOps () parse.build = .ok hb := by
    intro hmem
    obtain ⟨⟨arr, h, b⟩, hloop⟩ := arrEndLoop_ok [] hmem
    refine ⟨(h, arr :: b), ?_⟩
    show (arrEndLoop valueOps () (.array []) parse.build >>= _) = _
    rw [hloop]
    rfl
  simp only [closingRules, List.mem_cons, List.not_mem_nil, or_false] at hr
  rcases hr with rfl | rfl | rfl | rfl
  · obtain ⟨hb, hrun⟩ := hobj' (hobj (by decide))
    exact hend hrun
  · obtain ⟨hb, hrun⟩ := hobj' (hobj (by decide))
    exact hend hrun
  · obtain ⟨hb, hrun⟩ := harr' (harr (by decide))
    exact hend hrun
  · obtain ⟨hb, hrun⟩ := harr' (harr (by decide))
    exact hend hrun

/-- What tokens of one character do to the stack: they close a container, or
have no action that could fail. -/
theorem tokCourse_easy : ∀ top : Sym, ∀ sym ∈ easySyms, (tokCourse [top] sym).peak ≤ 3 ∧
    ((tokCourse [top] sym).rules = [llTable top sym] ∧ llTable top sym ∈ closingRules ∨
      ∀ rule ∈ (tokCourse [top] sym).rules, rule ∉ [5, 6, 7, 14] ++ closingRules) := by
  decide

theorem llActions_harmless {rules : List ℕ} (h : ∀ rule ∈ rules, rule ∉ [5, 6, 7, 14] ++ closingRules)
    (b : List Value) (tok : Token Value) : ∃ hb, llActions valueOps rules () b tok = .ok hb := by
  induction rules generalizing b with
  | nil => exact ⟨_, rfl⟩
  | cons rule rules ih =>
    obtain ⟨b', hone⟩ : ∃ b', llAction valueOps rule () b tok = .ok ((), b') := by
      have hrule := h rule List.mem_cons_self
      simp only [closingRules, List.cons_append, List.nil_append, List.mem_cons, List.not_mem_nil, or_false,
        not_or] at hrule
      unfold llAction
      split <;> first | omega | exact ⟨_, rfl⟩
    rw [llActions, hone]
    exact ih (fun r hr => h r (List.mem_cons_of_mem _ hr)) b'

/-- Such a token does not fail where there are markers for what is on the
stack. -/
theorem llParse_easy_ok {sym : Sym} (hsym : sym ∈ easySyms) (hlen : parse.stack.length ≤ 126)
    (hobj : ∀ top σ, parse.stack = top :: σ → llTable top sym ∈ [9, 13] → .objStart ∈ parse.build)
    (harr : ∀ top σ, parse.stack = top :: σ → llTable top sym ∈ [16, 20] → .arrStart ∈ parse.build) :
    ∃ parse', parse.llParse valueOps ⟨sym, none⟩ = .ok parse' := by
  obtain ⟨hb, hpeak, hact⟩ : ∃ hb, (tokCourse parse.stack sym).peak ≤ LL_STACK_SIZE ∧
      llActions valueOps (tokCourse parse.stack sym).rules () parse.build ⟨sym, none⟩ = .ok hb := by
    cases hs : parse.stack with
    | nil => exact ⟨_, Nat.zero_le _, rfl⟩
    | cons top σ =>
      obtain ⟨hpeak, hrules⟩ := tokCourse_easy top sym hsym
      rw [tokCourse_cons]
      have hle : ((tokCourse [top] sym).under σ).peak ≤ LL_STACK_SIZE := by
        rw [hs, List.length_cons] at hlen
        unfold Course.under LL_STACK_SIZE
        simp only
        split_ifs <;> omega
      rcases hrules with ⟨hone, hclose⟩ | hall
      · obtain ⟨hb, hrun⟩ := llActions_closing_ok (hobj top σ hs) (harr top σ hs) hclose ⟨sym, none⟩
        refine ⟨hb, hle, ?_⟩
        show llActions valueOps (tokCourse [top] sym).rules () parse.build ⟨sym, none⟩ = _
        rw [hone, hrun]
      · obtain ⟨hb, hrun⟩ := llActions_harmless hall parse.build ⟨sym, none⟩
        exact ⟨hb, hle, hrun⟩
  obtain ⟨parse', -, hrun⟩ := @llParse_of_le _ _ valueOps parse ⟨sym, none⟩ hpeak _ hact
  exact ⟨parse', hrun⟩

theorem objStart_mem {F : List (Frame Value)} {m : List (Value × Value)} {name : Option Value}
    (h : Frame.object m name ∈ F) : .objStart ∈ flatAll valueOps F := by
  refine List.mem_flatMap.2 ⟨_, h, ?_⟩
  exact List.mem_append_right _ (List.mem_append_right _ List.mem_cons_self)

theorem arrStart_mem {F : List (Frame Value)} {l : List Value} (h : Frame.array l ∈ F) :
    .arrStart ∈ flatAll valueOps F :=
  List.mem_flatMap.2 ⟨_, h, List.mem_append_right _ List.mem_cons_self⟩

/-- The markers for what is below the top of the stack. -/
theorem tails_marked {F F' : List (Frame Value)} {top : Sym} {σ : List Sym} (h : tails F = top :: σ) (hF : F ⊆ F') :
    (top = .objTail → .objStart ∈ flatAll valueOps F') ∧ (top = .arrTail → .arrStart ∈ flatAll valueOps F') ∧
      (top = .objTail ∨ top = .arrTail) := by
  cases F with
  | nil => cases h
  | cons f F =>
    obtain ⟨rfl, -⟩ := List.cons.inj h
    have hmem := hF List.mem_cons_self
    cases f with
    | object m name => exact ⟨fun _ => objStart_mem hmem, (fun heq => by cases heq), Or.inl rfl⟩
    | array l => exact ⟨(fun heq => by cases heq), fun _ => arrStart_mem hmem, Or.inr rfl⟩

/-- **After an error**, the character that is sent once more does not
fail. -/
theorem Between.after_error {F : List (Frame Value)} (h : parse.Between F) {sym : Sym} {e : ParseError}
    (hc : tokCourse parse.stack sym = ⟨[], 0, .reject e parse'.stack⟩) (hb : parse'.build = parse.build)
    {sym' : Sym} (hsym' : sym' ∈ easySyms) : ∃ parse'', parse'.llParse valueOps ⟨sym', none⟩ = .ok parse'' := by
  have hpop : parse'.stack = parse.stack.tail := by
    cases hs : parse.stack with
    | nil =>
      rw [hs] at hc
      exact (Verdict.reject.inj (congrArg Course.verdict hc)).2.symm
    | cons top σ =>
      rw [hs, tokCourse, course] at hc
      split_ifs at hc
      · cases hc
      · exact (Verdict.reject.inj (congrArg Course.verdict hc)).2.symm
      · cases congrArg Course.rules hc
  have hclose : ∀ {F' : List (Frame Value)}, F' ⊆ F → F'.length ≤ 126 → parse'.stack = tails F' →
      ∃ parse'', parse'.llParse valueOps ⟨sym', none⟩ = .ok parse'' := by
    intro F' hsub hlen hs
    have htable : ∀ s ∈ easySyms, llTable .objTail s ∉ [16, 20] ∧ llTable .arrTail s ∉ [9, 13] := by decide
    refine llParse_easy_ok hsym' ?_ ?_ ?_
    · rw [hs, tails, List.length_map]
      exact hlen
    · intro top σ htop hrule
      obtain ⟨hobj, -, rfl | rfl⟩ := tails_marked (hs.symm.trans htop) hsub
      · rw [hb, h.build]
        exact hobj rfl
      · exact absurd hrule (htable _ hsym').2
    · intro top σ htop hrule
      obtain ⟨-, harr, rfl | rfl⟩ := tails_marked (hs.symm.trans htop) hsub
      · exact absurd hrule (htable _ hsym').1
      · rw [hb, h.build]
        exact harr rfl
  have hdepth := h.shallow.depth
  have hready := h.ready
  generalize hstack : parse.stack = stack at hready hpop
  cases hready with
  | document => exact hclose (List.nil_subset _) (Nat.zero_le _) hpop
  | done => exact hclose (List.nil_subset _) (Nat.zero_le _) hpop
  | object => exact hclose (List.subset_cons_self _ _) (by rw [List.length_cons] at hdepth; omega) hpop
  | array => exact hclose (List.subset_cons_self _ _) (by rw [List.length_cons] at hdepth; omega) hpop
  | colon => exact hclose (fun _ hf => hf) (by have := h.shallow.named _ _ _ rfl; omega) hpop
  | @name m name F hw =>
    have hnamed := h.shallow.named _ _ _ rfl
    have htable : ∀ s ∈ easySyms, llTable .value s ∉ [9, 13, 16, 20] := by decide
    refine llParse_easy_ok hsym' ?_ ?_ ?_
    · rw [hpop, List.tail_cons, List.length_cons, List.length_cons, tails, List.length_map]
      rw [List.length_cons] at hnamed
      omega
    · intro top σ htop hrule
      obtain ⟨rfl, -⟩ := List.cons.inj (hpop.symm.trans htop)
      refine absurd ?_ (htable _ hsym')
      simp only [List.mem_cons, List.not_mem_nil, or_false] at hrule ⊢
      omega
    · intro top σ htop hrule
      obtain ⟨rfl, -⟩ := List.cons.inj (hpop.symm.trans htop)
      refine absurd ?_ (htable _ hsym')
      simp only [List.mem_cons, List.not_mem_nil, or_false] at hrule ⊢
      omega

end Parse

end Json

end Mowgli
