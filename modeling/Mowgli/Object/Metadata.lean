import Mowgli.Base.Ctype
import Mowgli.Library.Run
import Mowgli.Library.Store
/-!
# Object metadata, as `object/metadata.c` has it

The entries of an object are in a list, and a key is looked for from its
head, ignoring case. In `mowgli_object_metadata_associate` the variable of
the loop is what is found after it, so a search that finds nothing ends at
the last entry.
-/

namespace Mowgli

/-- `mowgli_object_metadata_entry_t`. -/
structure MetadataEntry where
  name : CString
  data : Option Addr

namespace Metadata

open CString

/-- The loop of `associate`: the position of the entry `e` points at after it,
where the search is at position `i`. -/
def search (key : CString) : List MetadataEntry → ℕ → Option ℕ → Option ℕ
  | [], _, e => e
  | x :: xs, i, _ => if strcasecmp x.name key = 0 then some i else search key xs (i + 1) (some i)

/-- `mowgli_object_metadata_associate`. -/
def associate (metadata : List MetadataEntry) (key : CString) (value : Option Addr) : List MetadataEntry :=
  match search key metadata 0 none with
  | some e => metadata.modify e fun x => { x with data := value }
  | none => metadata ++ [⟨key, value⟩]

/-- `mowgli_object_metadata_dissociate`. -/
def dissociate (metadata : List MetadataEntry) (key : CString) : List MetadataEntry :=
  metadata.filter fun x => strcasecmp x.name key ≠ 0

/-- `mowgli_object_metadata_retrieve`. -/
def retrieve (metadata : List MetadataEntry) (key : CString) : Option Addr :=
  match metadata with
  | [] => none
  | x :: xs => if strcasecmp x.name key = 0 then x.data else retrieve xs key

/-! ## A map that ignores case -/

/-- What each key has, and null for a key that has nothing. -/
abbrev KeyMap : Type := CString → Option Addr

/-- A call that changes the metadata. -/
inductive Op
  | associate (key : CString) (value : Option Addr)
  | dissociate (key : CString)

namespace Op

/-- What a call does. -/
def exec (metadata : List MetadataEntry) : Op → List MetadataEntry
  | associate key value => Metadata.associate metadata key value
  | dissociate key => Metadata.dissociate metadata key

/-- What it should do. -/
def apply (M : KeyMap) : Op → KeyMap
  | associate key value => fun k => if k.lower = key.lower then value else M k
  | dissociate key => fun k => if k.lower = key.lower then none else M k

/-- There is no entry, or one of the key, or the last entry and the value are
both null. -/
def Finds (metadata : List MetadataEntry) : Op → Prop
  | associate key value => metadata = [] ∨ (∃ e ∈ metadata, e.name.lower = key.lower) ∨
    (value = none ∧ ∀ e, metadata.getLast? = some e → e.data = none)
  | dissociate _ => True

/-- A call, with the map next to the entries. -/
def run (s : List MetadataEntry × KeyMap) (op : Op) : Option (Unit × List MetadataEntry × KeyMap) :=
  some ((), op.exec s.1, op.apply s.2)

end Op

/-- The runs on the metadata of an object that was just made. -/
abbrev Runs (ok : List MetadataEntry → Op → Prop) : List (Op × Unit) → List MetadataEntry × KeyMap → Prop :=
  Run Op.run (fun s op => ok s.1 op) ([], fun _ => none)

variable {es : List MetadataEntry} {M : KeyMap} {op : Op} {e : MetadataEntry} {key : CString}

/-- The map with one entry. -/
def only (e : MetadataEntry) : KeyMap := fun k => if k.lower = e.name.lower then e.data else none

/-- What an object's metadata is: it never has two entries. -/
inductive Is : List MetadataEntry → KeyMap → Prop
  | empty : Is [] fun _ => none
  | single (e : MetadataEntry) : Is [e] (only e)

theorem Is.retrieve (h : Is es M) (k : CString) : retrieve es k = M k := by
  cases h with
  | empty => rfl
  | single e =>
    rw [Metadata.retrieve, Metadata.retrieve, only]
    by_cases hk : k.lower = e.name.lower
    · rw [if_pos (strcasecmp_eq_zero.2 hk.symm), if_pos hk]
    · rw [if_neg fun h => hk (strcasecmp_eq_zero.1 h).symm, if_neg hk]

theorem associate_single (e : MetadataEntry) (key : CString) (value : Option Addr) :
    associate [e] key value = [{ e with data := value }] := by
  rw [associate, search, search]
  split_ifs <;> rfl

theorem apply_associate_same {value : Option Addr} (h : e.name.lower = key.lower) :
    Op.apply (only e) (.associate key value) = only { e with data := value } := by
  funext k
  simp only [Op.apply, only, h]
  split_ifs <;> rfl

theorem apply_associate_null (hd : e.data = none) :
    Op.apply (only e) (.associate key none) = only { e with data := none } := by
  funext k
  simp [Op.apply, only, hd]

theorem apply_dissociate_same (h : e.name.lower = key.lower) :
    Op.apply (only e) (.dissociate key) = fun _ => none := by
  funext k
  simp only [Op.apply, only, h]
  split_ifs <;> rfl

theorem apply_dissociate_other (h : e.name.lower ≠ key.lower) :
    Op.apply (only e) (.dissociate key) = only e := by
  funext k
  simp only [Op.apply, only]
  by_cases hk : k.lower = key.lower
  · rw [if_pos hk, if_neg fun hke => h (hke.symm.trans hk)]
  · rw [if_neg hk]

/-- Associating keeps the map exactly if it finds an entry to use. -/
theorem Is.associate (h : Is es M) (key : CString) (value : Option Addr) :
    ((Op.associate key value).Finds es →
      Is (Metadata.associate es key value) (Op.apply M (.associate key value))) ∧
      ((∀ k, Metadata.retrieve (Metadata.associate es key value) k = Op.apply M (.associate key value) k) →
        (Op.associate key value).Finds es) := by
  cases h with
  | empty => exact ⟨fun _ => Is.single ⟨key, value⟩, fun _ => Or.inl rfl⟩
  | single e =>
    rw [associate_single]
    by_cases hkey : e.name.lower = key.lower
    · rw [apply_associate_same hkey]
      exact ⟨fun _ => Is.single { e with data := value }, fun _ => Or.inr (Or.inl ⟨e, by simp, hkey⟩)⟩
    · constructor
      · rintro (hnil | ⟨e', he', hk⟩ | ⟨rfl, hlast⟩)
        · cases hnil
        · rw [List.mem_singleton.1 he'] at hk
          exact absurd hk hkey
        · rw [apply_associate_null (hlast e rfl)]
          exact Is.single { e with data := none }
      · intro hret
        have hk := hret key
        have he := hret e.name
        simp only [(Is.single { e with data := value }).retrieve, Op.apply, only, if_true, if_neg hkey,
          if_neg (Ne.symm hkey)] at hk he
        refine Or.inr (Or.inr ⟨hk.symm, fun e' he' => ?_⟩)
        obtain rfl : e = e' := Option.some.inj he'
        rw [← he, ← hk]

/-- Dissociating keeps it always. -/
theorem Is.dissociate (h : Is es M) (key : CString) :
    Is (Metadata.dissociate es key) (Op.apply M (.dissociate key)) := by
  cases h with
  | empty =>
    have hnone : Op.apply (fun _ => none) (.dissociate key) = fun _ => none := by
      funext k
      simp [Op.apply]
    rw [hnone]
    exact Is.empty
  | single e =>
    rw [Metadata.dissociate]
    by_cases hkey : e.name.lower = key.lower
    · rw [apply_dissociate_same hkey, List.filter_cons_of_neg (by simpa using strcasecmp_eq_zero.2 hkey)]
      exact Is.empty
    · rw [apply_dissociate_other hkey,
        List.filter_cons_of_pos (by simpa using fun h => hkey (strcasecmp_eq_zero.1 h))]
      exact Is.single e

/-- **One call** keeps the map exactly if it finds an entry to use. -/
theorem Is.step (h : Is es M) (op : Op) :
    (op.Finds es → Is (op.exec es) (op.apply M)) ∧
      ((∀ k, Metadata.retrieve (op.exec es) k = op.apply M k) → op.Finds es) := by
  cases op with
  | associate key value => exact h.associate key value
  | dissociate key => exact ⟨fun _ => h.dissociate key, fun _ => trivial⟩

theorem Runs.is {tr : List (Op × Unit)} (h : Runs (fun es op => op.Finds es) tr (es, M)) : Is es M :=
  Run.invariant (I := fun s => Is s.1 s.2) .empty (fun {s op out s'} hs hok hrun => by
    obtain ⟨-, rfl⟩ := Prod.mk.inj (Option.some.inj hrun)
    exact (hs.step op).1 hok) h

/-- **Metadata is a map that ignores case** as long as no association ends
its search at an entry of another key: `retrieve` gives what the map has,
and the next call keeps it so exactly if it is not such a one. -/
theorem runs_retrieve {tr : List (Op × Unit)} (h : Runs (fun es op => op.Finds es) tr (es, M)) :
    (∀ k, retrieve es k = M k) ∧
      ∀ op : Op, (∀ k, retrieve (op.exec es) k = op.apply M k) ↔ op.Finds es := by
  have his := h.is
  exact ⟨his.retrieve, fun op => ⟨(his.step op).2, fun hf => ((his.step op).1 hf).retrieve⟩⟩

/-- The key "a". -/
def keyA : CString := ⟨[97], CString.nul_free_a⟩

/-- The key "b". -/
def keyB : CString := ⟨[98], CString.nul_free_b⟩

/-- "a" is associated twice and dissociated, and then "b" is associated. -/
theorem runs_retrieve_again : ∃ tr es M, Runs (fun es op => op.Finds es) tr (es, M) ∧ tr.length = 4 ∧
    retrieve es keyA = none ∧ retrieve es keyB = some 3 := by
  have h₁ : Runs (fun es op => op.Finds es) ([] ++ [(Op.associate keyA (some 1), ())]) _ :=
    Run.nil.snoc (Or.inl rfl) rfl
  have h₂ := h₁.snoc (a := .associate keyA (some 2)) (b := ())
    (by exact Or.inr (Or.inl ⟨_, List.mem_singleton_self _, rfl⟩)) rfl
  have h₃ := h₂.snoc (a := .dissociate keyA) (b := ()) (by exact trivial) rfl
  have h₄ := h₃.snoc (a := .associate keyB (some 3)) (b := ()) (by exact Or.inl rfl) rfl
  have hr := runs_retrieve h₄
  exact ⟨_, _, _, h₄, rfl, hr.1 keyA, hr.1 keyB⟩

/-- After "a" and then "b" are associated, "a" has the data of "b" and "b"
has none. -/
theorem associate_takes_last : ∃ es M, Runs (fun _ _ => True)
    (([] ++ [(Op.associate keyA (some 1), ())]) ++ [(Op.associate keyB (some 2), ())]) (es, M) ∧
      M keyA = some 1 ∧ M keyB = some 2 ∧ retrieve es keyA = some 2 ∧ retrieve es keyB = none :=
  ⟨_, _, (Run.nil.snoc trivial rfl).snoc trivial rfl, rfl, rfl, rfl, rfl⟩

end Metadata

end Mowgli
