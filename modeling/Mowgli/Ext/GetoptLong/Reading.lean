import Mowgli.Ext.GetoptLong.Search
/-!
# The words of an argument vector

A word is an option or an operand. How many words an option takes is a matter
of the options there are (`Reading`): the letters of a word are gone over up
to one that has an argument, which is the rest of the word or the next word,
and so may a long option have its argument there. With this, an argument
vector falls into options with their arguments, and operands (`Parted`).
-/

namespace Mowgli

namespace Getopt

/-- A word that is no option. -/
def IsOperand (w : CString) : Prop := w.charAt 0 ≠ ch '-' ∨ w.charAt 1 = 0

instance (w : CString) : Decidable (IsOperand w) := inferInstanceAs (Decidable (_ ∨ _))

/-- What belongs to an option letter. -/
inductive Kind
  /-- Nothing. The letter may be unknown. -/
  | plain
  | required
  | optional
  /-- A long option, in the word or in the next one. -/
  | long
  deriving DecidableEq

/-- What is known of the options. -/
structure Reading where
  letter : UInt8 → Kind
  /-- The long option has its argument in the next word. -/
  takesNext : CString → Bool

/-- What the letters of a word come to. -/
inductive Tail
  /-- An argument in the next word, or none. -/
  | words (k : ℕ)
  /-- A long option, `k` words on. -/
  | long (k : ℕ) (text : CString)

/-- There are no more options: the word is "--", or `-W` has an empty argument. -/
def Tail.ends : Tail → Bool
  | .words _ => false
  | .long _ text => text = EMSG

namespace Reading

variable (R : Reading)

/-- What letters come to, with `rest` behind their word. -/
def letters (rest : List CString) : List UInt8 → Tail
  | [] => .words 0
  | c :: cs =>
    match R.letter c with
    | .plain => letters rest cs
    | .required => .words (if cs = [] then (rest.take 1).length else 0)
    | .optional => .words 0
    | .long => if cs = [] then rest.head?.elim (.words 0) (.long 1) else .long 0 (CString.ofBuffer cs)

/-- What an option comes to. -/
def tail (w : CString) (rest : List CString) : Tail :=
  if w.charAt 1 = ch '-' then .long 0 (w.drop 2) else R.letters rest (w.drop 1).bytes

/-- How many words are taken. -/
def taken (rest : List CString) : Tail → ℕ
  | .words k => k
  | .long k text => if text ≠ EMSG ∧ R.takesNext text then k + ((rest.drop k).take 1).length else k

/-- The words an option takes. -/
def takes (w : CString) (rest : List CString) : ℕ := R.taken rest (R.tail w rest)

/-- What is read of `argv` when `rest` is left: the name of the program and the options with
their arguments, and the operands. -/
inductive Parted (argv : List CString) : List CString → List CString → List CString → Prop
  | program {w : CString} {rest : List CString} : argv = w :: rest → Parted argv rest [w] []
  | operand {w : CString} {rest ks ps : List CString} :
    Parted argv (w :: rest) ks ps → IsOperand w → Parted argv rest ks (ps ++ [w])
  | option {w : CString} {rest ks ps : List CString} :
    Parted argv (w :: rest) ks ps → ¬ IsOperand w → (R.tail w rest).ends = false →
      Parted argv (rest.drop (R.takes w rest)) (ks ++ w :: rest.take (R.takes w rest)) ps

/-- All is read, or the words up to one that ends the options. -/
inductive Finished (argv : List CString) : List CString → List CString → List CString → Prop
  | all {ks ps : List CString} : R.Parted argv [] ks ps → Finished argv [] ks ps
  | ended {w : CString} {rest ks ps : List CString} :
    R.Parted argv (w :: rest) ks ps → ¬ IsOperand w → (R.tail w rest).ends = true →
      Finished argv (rest.drop (R.takes w rest)) (ks ++ w :: rest.take (R.takes w rest)) ps

end Reading

variable {R R' : Reading} {argv rest ks ps : List CString} {w : CString}

theorem Reading.letters_le (rest : List CString) : ∀ cs : List UInt8,
    match R.letters rest cs with
    | .words k => k ≤ rest.length
    | .long k _ => k ≤ rest.length
  | [] => Nat.zero_le _
  | c :: cs => by
    have ih := letters_le rest cs
    unfold letters
    rcases R.letter c with _ | _ | _ | _
    · exact ih
    · dsimp only
      split_ifs
      · rw [List.length_take]
        omega
      · exact Nat.zero_le _
    · exact Nat.zero_le _
    · dsimp only
      split_ifs
      · rcases rest with _ | ⟨text, rest⟩
        · exact Nat.zero_le _
        · simp
      · exact Nat.zero_le _

theorem Reading.taken_le (rest : List CString) (w : CString) : R.takes w rest ≤ rest.length := by
  have htaken : ∀ t : Tail, (match t with | .words k => k ≤ rest.length | .long k _ => k ≤ rest.length) →
      R.taken rest t ≤ rest.length := by
    rintro (k | ⟨k, text⟩) h
    · exact h
    · rw [taken]
      split_ifs
      · rw [List.length_take, List.length_drop]
        dsimp only at h
        omega
      · exact h
  refine htaken _ ?_
  rw [tail]
  split_ifs
  · exact Nat.zero_le _
  · exact letters_le rest _

namespace Reading.Parted

theorem length (h : R.Parted argv rest ks ps) : 0 < ks.length ∧ argv.length = ks.length + ps.length + rest.length := by
  induction h with
  | program hargv => exact ⟨Nat.one_pos, by rw [hargv, List.length_cons, List.length_singleton, List.length_nil]; omega⟩
  | operand _ _ ih =>
    simp only [List.length_append, List.length_cons, List.length_nil] at ih ⊢
    omega
  | @option w rest _ _ _ _ _ ih =>
    have hle := taken_le (R := R) rest w
    simp only [List.length_append, List.length_cons, List.length_take, List.length_drop] at ih ⊢
    omega

/-- What is left are the last words. -/
theorem suffix (h : R.Parted argv rest ks ps) : rest <:+ argv := by
  induction h with
  | program hargv => exact hargv ▸ List.suffix_cons ..
  | operand _ _ ih => exact (List.suffix_cons ..).trans ih
  | option _ _ _ ih => exact ((List.drop_suffix ..).trans (List.suffix_cons ..)).trans ih

/-- The words of an option are taken out of those that are left. -/
theorem option_perm (ks ps : List CString) (w : CString) (rest : List CString) (k : ℕ) :
    (ks ++ w :: rest.take k ++ ps ++ rest.drop k).Perm (ks ++ ps ++ w :: rest) := by
  rw [List.append_assoc ks, List.append_assoc ks, List.append_assoc ks, List.cons_append, List.cons_append]
  refine List.Perm.append_left ks (List.Perm.trans (List.Perm.cons w ?_) List.perm_middle.symm)
  refine (List.perm_append_comm.append_right _).trans ?_
  rw [List.append_assoc, List.take_append_drop]

/-- No word is lost, and none is there twice. -/
theorem perm (h : R.Parted argv rest ks ps) : (ks ++ ps ++ rest).Perm argv := by
  induction h with
  | program hargv => exact List.Perm.of_eq (by rw [hargv, List.append_nil, List.singleton_append])
  | operand _ _ ih => rwa [← List.append_assoc, List.append_assoc _ [_], List.singleton_append]
  | @option w rest ks ps _ _ _ ih => exact (option_perm ks ps w rest _).trans ih

end Reading.Parted

theorem Reading.Finished.perm (h : R.Finished argv rest ks ps) : (ks ++ ps ++ rest).Perm argv := by
  cases h with
  | all hparted => exact hparted.perm
  | @ended w rest ks _ hparted => exact (Parted.option_perm ks ps w rest _).trans hparted.perm

/-! ## The options of a call -/

/-- An option letter, as the string of option letters has it. -/
def letterKind (options : CString) (c : UInt8) : Kind :=
  match (options.bytes.drop (if ignoreFirst options then 1 else 0)).dropWhile (· != c) with
  | [] => .plain
  | _ :: oli =>
    if c = ch ':' then .plain
    else if c = ch 'W' ∧ oli.getD 0 0 = ch ';' then .long
    else if oli.getD 0 0 ≠ ch ':' then .plain
    else if oli.getD 1 0 ≠ ch ':' then .required
    else .optional

/-- A long option, as the table has it. -/
def longTakes (longOptions : List GetoptOption) (text : CString) : Bool :=
  match search text 0 longOptions none false with
  | some (some (_, o), false) => o.hasArg == required_argument && (hasEqual text).isNone
  | _ => false

theorem longTakes_of_found {longOptions : List GetoptOption} {text : CString} {i : ℕ} {o : GetoptOption}
    (h : search text 0 longOptions none false = some (some (i, o), false)) :
    longTakes longOptions text = true ↔ o.hasArg = required_argument ∧ hasEqual text = none := by
  unfold longTakes
  rw [h]
  simp

/-- An option that is not there, or that is not the only one, takes no word. -/
theorem longTakes_of_not_found {longOptions : List GetoptOption} {text : CString} {found : Option (ℕ × GetoptOption)}
    {ambiguous : Bool} (h : search text 0 longOptions none false = some (found, ambiguous))
    (hno : found = none ∨ ambiguous = true) : longTakes longOptions text = false := by
  unfold longTakes
  rw [h]
  rcases hno with rfl | rfl
  · rfl
  · cases found <;> rfl

/-- Once a long option was looked for, whether it takes a word is up to the entry found. -/
theorem longTakes_iff {longOptions : List GetoptOption} {text : CString} {r : Option (ℕ × GetoptOption) × Bool}
    (h : search text 0 longOptions none false = some r) : longTakes longOptions text = true ↔
      hasEqual text = none ∧ ∃ i o, r = (some (i, o), false) ∧ o.hasArg = required_argument := by
  obtain ⟨found, ambiguous⟩ := r
  rcases found with _ | ⟨i, o⟩
  · rw [longTakes_of_not_found h (.inl rfl)]
    simp
  · cases ambiguous
    · rw [longTakes_of_found h, and_comm]
      simp
    · rw [longTakes_of_not_found h (.inr rfl)]
      simp

/-- What is known of the options of a call. -/
def reading (options : CString) (longOptions : List GetoptOption) : Reading :=
  ⟨letterKind options, longTakes longOptions⟩

end Getopt

end Mowgli
