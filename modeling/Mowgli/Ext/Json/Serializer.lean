import Mowgli.Base.Formatter
import Mowgli.Ext.Json.Numbers
import Mowgli.Ext.Json.Strings
/-!
# The serializer

`mowgli_json_serialize` on trees, with what it writes to. What it does not come
back from, or does with an `int` that is out of range, answers `none`: so a
value is written exactly if its strings have lengths that fit an `unsigned`,
its objects have no more members than an `int` can count, and the indentation
of the deepest of its values is an `int`.
-/

namespace Mowgli

namespace Json

open Parse

/-! ## The functions -/

/-- `mowgli_json_output_t`: what is done to `priv`. -/
structure JsonOutput (σ : Type) where
  append : σ → List UInt8 → σ
  appendChar : σ → UInt8 → σ

/-- The result of arithmetic on an `int`. -/
def intResult (z : ℤ) : Option ℤ := if -2147483648 ≤ z ∧ z ≤ 2147483647 then some z else none

/-- `TAB_STRING`. -/
def tabString : List UInt8 := chars "    "

/-- `serialize_pretty_increment`. -/
def serializePrettyIncrement (pretty : ℤ) : Option ℤ := if 0 < pretty then intResult (pretty + 1) else some 0

section

variable {σ : Type} (out : JsonOutput σ) (strtod : List UInt8 → Double)

/-- `serialize_pretty_indent`. -/
def serializePrettyIndent (priv : σ) (pretty : ℤ) : σ := (fun priv => out.append priv tabString)^[pretty.toNat] priv

/-- `serialize_pretty_break`. -/
def serializePrettyBreak (priv : σ) (pretty : ℤ) : σ := if pretty < 1 then priv else out.appendChar priv (ch '\n')

/-- `serialize_string_data`: its loop has ended after as many rounds as the
string has bytes, or it never ends. -/
def serializeData (p : List UInt8) (priv : σ) : Option σ :=
  (serializeStringData p.length p []).map fun text => text.foldl out.appendChar priv

mutual

/-- `mowgli_json_serialize`, with the serializers of the tags. A float is a
text, of which `strtod` has made the number. -/
def serialize : Value → σ → ℤ → Option σ
  | .bool true, priv, _ => some (out.append priv (chars "true"))
  | .bool false, priv, _ => some (out.append priv (chars "false"))
  | .int z, priv, _ => some (out.append priv (Formatter.decimal z).bytes)
  | .float text, priv, _ => some (out.append priv (serializeFloat (strtod text)))
  | .string bytes, priv, _ => serializeData out bytes priv
  | .array l, priv, pretty => do
    let priv ← serializeElements l (serializePrettyBreak out (out.appendChar priv (ch '[')) pretty) pretty
    let outer ← intResult (pretty - 1)
    some (out.appendChar (serializePrettyIndent out priv outer) (ch ']'))
  | .object m, priv, pretty => do
    let priv ← serializeMembers m (toInt m.length)
      (serializePrettyBreak out (out.appendChar priv (ch '\x7b')) pretty) pretty
    let outer ← intResult (pretty - 1)
    some (out.appendChar (serializePrettyIndent out priv outer) (ch '\x7d'))
  -- a tag that has no serializer
  | .null, priv, _ => some (out.append priv (chars "null"))
  | .objStart, priv, _ => some (out.append priv (chars "null"))
  | .arrStart, priv, _ => some (out.append priv (chars "null"))

/-- The loop of `serialize_array`. -/
def serializeElements : List Value → σ → ℤ → Option σ
  | [], priv, _ => some priv
  | v :: l, priv, pretty => do
    let next ← serializePrettyIncrement pretty
    let priv ← serialize v (serializePrettyIndent out priv pretty) next
    let priv := if l ≠ [] then out.appendChar priv (ch ',') else priv
    serializeElements l (serializePrettyBreak out priv pretty) pretty

/-- `mowgli_patricia_foreach` with `serialize_object_cb`, on the members that
are left. -/
def serializeMembers : List (CString × Value) → ℤ → σ → ℤ → Option σ
  | [], _, priv, _ => some priv
  | (key, v) :: m, remaining, priv, pretty => do
    let remaining ← intResult (remaining - 1)
    let priv ← serializeData out key.bytes (serializePrettyIndent out priv pretty)
    let priv := out.appendChar priv (ch ':')
    let priv := if pretty ≠ 0 then out.appendChar priv (ch ' ') else priv
    let next ← serializePrettyIncrement pretty
    let priv ← serialize v priv next
    let priv := if remaining ≠ 0 then out.appendChar priv (ch ',') else priv
    serializeMembers m remaining (serializePrettyBreak out priv pretty) pretty

end

end

/-- The output of `mowgli_json_serialize_to_string`. -/
def toStringOutput : JsonOutput MowgliString := ⟨MowgliString.append, MowgliString.appendChar⟩

/-- `mowgli_json_serialize_to_string`. -/
def serializeToString (strtod : List UInt8 → Double) (v : Value) (str : MowgliString) (pretty : ℤ) : Option MowgliString :=
  serialize toStringOutput strtod v str pretty

/-! ## Trees -/

/-- A value of the kinds that are read back: a NUL has no place in its strings,
its integers are `int`s. The members of an object are in the order of their
keys. -/
inductive Tree : Value → Prop
  | null : Tree .null
  | bool (b : Bool) : Tree (.bool b)
  | int {z : ℤ} : -2147483648 ≤ z → z ≤ 2147483647 → Tree (.int z)
  | string {bytes : List UInt8} : 0 ∉ bytes → Tree (.string bytes)
  | array {l : List Value} : (∀ v ∈ l, Tree v) → Tree (.array l)
  | object {m : List (CString × Value)} : (m.Pairwise fun x y => x.1.bytes < y.1.bytes) →
      (∀ e ∈ m, Tree e.2) → Tree (.object m)

mutual

/-- How far down a value goes, if an empty container goes down `k`. -/
def Value.height (k : ℕ) : Value → ℕ
  | .array l => elementsHeight k l
  | .object m => membersHeight k m
  | _ => 0

def elementsHeight (k : ℕ) : List Value → ℕ
  | [] => k
  | v :: l => max (v.height k + 1) (elementsHeight k l)

def membersHeight (k : ℕ) : List (CString × Value) → ℕ
  | [] => k
  | (_, v) :: m => max (v.height k + 1) (membersHeight k m)

end

/-- How deep a value is nested. -/
def Value.depth (v : Value) : ℕ := v.height 1

/-- How many containers the deepest value is in. -/
def Value.levels (v : Value) : ℕ := v.height 0

/-- The lengths of all strings and keys fit an `unsigned`, and the numbers of
the members of all objects fit an `int`. -/
inductive Sized : Value → Prop
  | null : Sized .null
  | bool (b : Bool) : Sized (.bool b)
  | int (z : ℤ) : Sized (.int z)
  | string {bytes : List UInt8} : bytes.length < 2 ^ 32 → Sized (.string bytes)
  | array {l : List Value} : (∀ v ∈ l, Sized v) → Sized (.array l)
  | object {m : List (CString × Value)} : m.length ≤ INT_MAX → (∀ e ∈ m, e.1.length < 2 ^ 32) →
      (∀ e ∈ m, Sized e.2) → Sized (.object m)

/-- There are so many levels of indentation behind `pretty`, if there is any. -/
def Fits (pretty : ℤ) (n : ℕ) : Prop := pretty = 0 ∨ pretty + n ≤ 2147483647

/-! ## What can be written -/

section

variable {σ : Type} {out : JsonOutput σ} {strtod : List UInt8 → Double} {priv priv' : σ} {p text : List UInt8}
  {pretty next remaining : ℤ} {n : ℕ} {v : Value} {l : List Value} {key : CString} {m : List (CString × Value)}

theorem intResult_eq_some {z y : ℤ} : intResult z = some y ↔ (-2147483648 ≤ z ∧ z ≤ 2147483647) ∧ z = y := by
  rw [intResult, Option.ite_none_right_eq_some, Option.some.injEq]

/-- A string is written as its literal, if its length fits an `unsigned`. -/
theorem serializeData_eq (hlen : p.length < 2 ^ 32) (priv : σ) :
    serializeData out p priv = some ((literal p).foldl out.appendChar priv) := by
  have hloop : serializeStringData p.length p [] = some (literal p) := by
    rw [serializeStringData, serializeLoop_eq hlen, if_pos (Nat.sub_le _ _)]
    rfl
  rw [serializeData, hloop, Option.map_some]

theorem length_lt_of_serializeData (h : serializeData out p priv = some priv') : p.length < 2 ^ 32 := by
  obtain ⟨text, htext, -⟩ := Option.map_eq_some_iff.1 h
  exact (serializeStringData_eq_some.1 ⟨_, htext⟩).1

theorem serializeElements_cons : serializeElements out strtod (v :: l) priv pretty = some priv' ↔
    ∃ next priv₁, serializePrettyIncrement pretty = some next ∧
      serialize out strtod v (serializePrettyIndent out priv pretty) next = some priv₁ ∧
      serializeElements out strtod l
        (serializePrettyBreak out (if l ≠ [] then out.appendChar priv₁ (ch ',') else priv₁) pretty) pretty =
          some priv' := by
  simp only [serializeElements, Option.bind_eq_bind, Option.bind_eq_some_iff]
  constructor
  · rintro ⟨next, hnext, priv₁, hv, hl⟩
    exact ⟨next, priv₁, hnext, hv, hl⟩
  · rintro ⟨next, priv₁, hnext, hv, hl⟩
    exact ⟨next, hnext, priv₁, hv, hl⟩

/-- What is behind a key. -/
def afterKey (out : JsonOutput σ) (priv : σ) (pretty : ℤ) : σ :=
  if pretty ≠ 0 then out.appendChar (out.appendChar priv (ch ':')) (ch ' ') else out.appendChar priv (ch ':')

theorem serializeMembers_cons : serializeMembers out strtod ((key, v) :: m) remaining priv pretty = some priv' ↔
    ∃ next priv₁ priv₂, -2147483648 ≤ remaining - 1 ∧ remaining - 1 ≤ 2147483647 ∧
      serializeData out key.bytes (serializePrettyIndent out priv pretty) = some priv₁ ∧
      serializePrettyIncrement pretty = some next ∧
      serialize out strtod v (afterKey out priv₁ pretty) next = some priv₂ ∧
      serializeMembers out strtod m (remaining - 1)
        (serializePrettyBreak out (if remaining - 1 ≠ 0 then out.appendChar priv₂ (ch ',') else priv₂) pretty) pretty =
          some priv' := by
  simp only [serializeMembers, Option.bind_eq_bind, Option.bind_eq_some_iff, intResult_eq_some]
  constructor
  · rintro ⟨r, ⟨hr, rfl⟩, priv₁, hkey, next, hnext, priv₂, hv, hm⟩
    exact ⟨next, priv₁, priv₂, hr.1, hr.2, hkey, hnext, hv, hm⟩
  · rintro ⟨next, priv₁, priv₂, hlow, hhigh, hkey, hnext, hv, hm⟩
    exact ⟨_, ⟨⟨hlow, hhigh⟩, rfl⟩, priv₁, hkey, next, hnext, priv₂, hv, hm⟩

theorem serialize_array : serialize out strtod (.array l) priv pretty = some priv' ↔
    ∃ priv₁, serializeElements out strtod l (serializePrettyBreak out (out.appendChar priv (ch '[')) pretty) pretty =
        some priv₁ ∧
      -2147483648 ≤ pretty - 1 ∧ pretty - 1 ≤ 2147483647 ∧
      out.appendChar (serializePrettyIndent out priv₁ (pretty - 1)) (ch ']') = priv' := by
  simp only [serialize, Option.bind_eq_bind, Option.bind_eq_some_iff, intResult_eq_some, Option.some.injEq]
  constructor
  · rintro ⟨priv₁, hl, _, ⟨hr, rfl⟩, rfl⟩
    exact ⟨priv₁, hl, hr.1, hr.2, rfl⟩
  · rintro ⟨priv₁, hl, hlow, hhigh, rfl⟩
    exact ⟨priv₁, hl, _, ⟨⟨hlow, hhigh⟩, rfl⟩, rfl⟩

theorem serialize_object : serialize out strtod (.object m) priv pretty = some priv' ↔
    ∃ priv₁, serializeMembers out strtod m (toInt m.length)
        (serializePrettyBreak out (out.appendChar priv (ch '\x7b')) pretty) pretty = some priv₁ ∧
      -2147483648 ≤ pretty - 1 ∧ pretty - 1 ≤ 2147483647 ∧
      out.appendChar (serializePrettyIndent out priv₁ (pretty - 1)) (ch '\x7d') = priv' := by
  simp only [serialize, Option.bind_eq_bind, Option.bind_eq_some_iff, intResult_eq_some, Option.some.injEq]
  constructor
  · rintro ⟨priv₁, hm, _, ⟨hr, rfl⟩, rfl⟩
    exact ⟨priv₁, hm, hr.1, hr.2, rfl⟩
  · rintro ⟨priv₁, hm, hlow, hhigh, rfl⟩
    exact ⟨priv₁, hm, _, ⟨⟨hlow, hhigh⟩, rfl⟩, rfl⟩

/-- A level of indentation. -/
def Level (pretty : ℤ) : Prop := 0 ≤ pretty ∧ pretty ≤ 2147483647

theorem fits_max {n' : ℕ} : Fits pretty (max n n') ↔ Fits pretty n ∧ Fits pretty n' := by
  unfold Fits
  omega

theorem Level.fits_zero (h : Level pretty) : Fits pretty 0 := by
  obtain ⟨-, hle⟩ := h
  exact Or.inr (by omega)

/-- The next level has one less behind it. -/
theorem Level.fits_succ (h : Level pretty) : Fits pretty (n + 1) ↔
    ∃ next, serializePrettyIncrement pretty = some next ∧ Level next ∧ Fits next n := by
  obtain ⟨h0, hle⟩ := h
  unfold serializePrettyIncrement Fits Level
  by_cases hpos : 0 < pretty
  · rw [if_pos hpos]
    simp only [intResult_eq_some]
    constructor
    · intro hfit
      exact ⟨pretty + 1, ⟨⟨by omega, by omega⟩, rfl⟩, ⟨by omega, by omega⟩, Or.inr (by omega)⟩
    · rintro ⟨_, ⟨hr, rfl⟩, hlevel, hfit⟩
      omega
  · obtain rfl : pretty = 0 := by omega
    rw [if_neg hpos]
    exact iff_of_true (Or.inl rfl) ⟨0, rfl, ⟨le_rfl, by decide⟩, Or.inl rfl⟩

theorem level_increment (h : serializePrettyIncrement pretty = some next) : Level next := by
  unfold serializePrettyIncrement at h
  split_ifs at h with hpos
  · obtain ⟨hr, rfl⟩ := intResult_eq_some.1 h
    exact ⟨by omega, hr.2⟩
  · cases h
    exact ⟨le_rfl, by decide⟩

/-- An `int` counts members down as long as it can. -/
theorem serializeMembers_counts (h : serializeMembers out strtod m remaining priv pretty = some priv') :
    m = [] ∨ -2147483648 ≤ remaining - m.length := by
  induction m generalizing remaining priv with
  | nil => exact Or.inl rfl
  | cons e m ih =>
    obtain ⟨next, priv₁, priv₂, hlow, -, -, -, -, hm⟩ := serializeMembers_cons.1 h
    right
    rcases ih hm with rfl | hr
    · simpa using hlow
    · rw [List.length_cons]
      push_cast
      omega

/-- What is written of a value says so of it. -/
def SizedIfWritten (out : JsonOutput σ) (strtod : List UInt8 → Double) (v : Value) : Prop :=
  ∀ {pretty : ℤ} {priv priv' : σ}, Level pretty → serialize out strtod v priv pretty = some priv' →
    Sized v ∧ Fits pretty v.levels

theorem sized_of_elements (hl : ∀ v ∈ l, SizedIfWritten out strtod v) (hp : Level pretty)
    (h : serializeElements out strtod l priv pretty = some priv') :
    (∀ v ∈ l, Sized v) ∧ Fits pretty (elementsHeight 0 l) := by
  induction l generalizing priv with
  | nil => exact ⟨fun v hv => absurd hv List.not_mem_nil, hp.fits_zero⟩
  | cons v l ih =>
    rw [List.forall_mem_cons] at hl
    obtain ⟨next, priv₁, hnext, hv, hrest⟩ := serializeElements_cons.1 h
    obtain ⟨hsized, hfits⟩ := ih hl.2 hrest
    obtain ⟨hsv, hfv⟩ := hl.1 (level_increment hnext) hv
    refine ⟨List.forall_mem_cons.2 ⟨hsv, hsized⟩, ?_⟩
    rw [elementsHeight, fits_max]
    exact ⟨hp.fits_succ.2 ⟨next, hnext, level_increment hnext, hfv⟩, hfits⟩

theorem sized_of_members (hm : ∀ e ∈ m, SizedIfWritten out strtod e.2) (hp : Level pretty)
    (h : serializeMembers out strtod m remaining priv pretty = some priv') :
    (∀ e ∈ m, e.1.length < 2 ^ 32) ∧ (∀ e ∈ m, Sized e.2) ∧ Fits pretty (membersHeight 0 m) := by
  induction m generalizing remaining priv with
  | nil => exact ⟨fun e he => absurd he List.not_mem_nil, fun e he => absurd he List.not_mem_nil, hp.fits_zero⟩
  | cons e m ih =>
    obtain ⟨key, v⟩ := e
    rw [List.forall_mem_cons] at hm
    obtain ⟨next, priv₁, priv₂, -, -, hkey, hnext, hv, hrest⟩ := serializeMembers_cons.1 h
    obtain ⟨hkeys, hsized, hfits⟩ := ih hm.2 hrest
    obtain ⟨hsv, hfv⟩ := hm.1 (level_increment hnext) hv
    refine ⟨List.forall_mem_cons.2 ⟨length_lt_of_serializeData hkey, hkeys⟩, List.forall_mem_cons.2 ⟨hsv, hsized⟩, ?_⟩
    rw [membersHeight, fits_max]
    exact ⟨hp.fits_succ.2 ⟨next, hnext, level_increment hnext, hfv⟩, hfits⟩

/-- The members of an object that is written can be counted with an `int`. -/
theorem length_le_of_members (h : serializeMembers out strtod m (toInt m.length) priv pretty = some priv') :
    m.length ≤ INT_MAX := by
  by_contra hlong
  have hcounts := serializeMembers_counts h
  have hwrap : toInt m.length ≤ 2147483647 ∧ (toInt m.length - m.length) % 4294967296 = 0 := by
    rw [toInt, Int.bmod_def]
    split_ifs <;> omega
  have hmax : INT_MAX = 2147483647 := rfl
  rcases hcounts with rfl | hcounts
  · exact hlong (Nat.zero_le _)
  · omega

/-- **What is written has lengths that can be counted**, and its indentation
is an `int`. -/
theorem Tree.sized (ht : Tree v) : SizedIfWritten out strtod v := by
  induction ht with
  | null => exact fun hp _ => ⟨.null, hp.fits_zero⟩
  | bool b => exact fun hp _ => ⟨.bool b, hp.fits_zero⟩
  | int => exact fun hp _ => ⟨.int _, hp.fits_zero⟩
  | string =>
    intro pretty priv priv' hp h
    exact ⟨.string (length_lt_of_serializeData h), hp.fits_zero⟩
  | array _ ih =>
    intro pretty priv priv' hp h
    obtain ⟨priv₁, hl, -⟩ := serialize_array.1 h
    obtain ⟨hsized, hfits⟩ := sized_of_elements ih hp hl
    exact ⟨.array hsized, hfits⟩
  | object _ _ ih =>
    intro pretty priv priv' hp h
    obtain ⟨priv₁, hm, -⟩ := serialize_object.1 h
    obtain ⟨hkeys, hsized, hfits⟩ := sized_of_members ih hp hm
    exact ⟨.object (length_le_of_members hm) hkeys hsized, hfits⟩

end

end Json

end Mowgli
