import Mowgli.Ext.GetoptLong.Reading
import Mowgli.Ext.ProgramOpts.Loop
import Mowgli.Library.Rotation
/-!
# The argument vector when all options are read

The words of the vector are read in their order: a word that is no option is
passed over, and an option is read with the words that belong to it. The
passed words are kept in one block (`Placed`), which `permute_args` moves
behind the options that come after it. So in the end the options stand in
front, with their arguments, and the passed words behind them, each in the
order they were given in (`getoptLong_parts`). This needs option letters other
than the two that are -1 and -2 as a `char`.
-/

namespace Mowgli

namespace Getopt

variable {env : Env} {options : CString} {longOptions : List GetoptOption} {s s' : State} {argv : List CString} {c : ℤ}
  {w : CString} {ws ws' ks ps rest : List CString}

/-! ## The exchange of two blocks -/

theorem permuteCycle_eq (e nn no cs : ℕ) : ∀ (j pos : ℕ) (v : List CString), permuteCycle e nn no cs j pos v =
    carry EMSG (fun pos => if e ≤ pos then pos - nn else pos + no) cs j pos v
  | 0, _, _ => rfl
  | j + 1, pos, v => by
    rw [permuteCycle, carry, permuteCycle_eq e nn no cs j]
    rfl

/-- **`permute_args` exchanges two blocks** that are not empty, and moves nothing else. -/
theorem permuteArgs_append (xs : List CString) {ys zs : List CString} (ws : List CString) (hy : ys ≠ []) (hz : zs ≠ []) :
    permuteArgs xs.length (xs.length + ys.length) (xs.length + ys.length + zs.length) (xs ++ ys ++ zs ++ ws) =
      xs ++ zs ++ ys ++ ws := by
  rw [← juggle_append (d := EMSG) hy hz, permuteArgs, juggle, Nat.add_sub_cancel_left, Nat.add_sub_cancel_left, gcd_eq,
    Nat.add_assoc, Nat.add_sub_cancel_left]
  simp only [permuteCycle_eq]

/-! ## Where the words are -/

/-- The words that were read are the kept ones, `before` and `after`, and in one block between
these the words that were passed over. Behind them is what is left. -/
structure Placed (s : State) (before ps after rest : List CString) : Prop where
  nargv : s.nargv = before ++ ps ++ after ++ rest
  optind : s.optind = before.length + ps.length + after.length
  begins : ∀ b, s.nonoptStart = some b → b = before.length ∧ ps ≠ []
  ends : ∀ e, s.nonoptEnd = some e → e = before.length + ps.length ∧ s.nonoptStart.isSome
  unmarked : s.nonoptStart = none → ps = [] ∧ after = []
  behind : s.nonoptEnd = none → after = []

/-- If words were passed over, it is known where they end. -/
def Marked (s : State) : Prop := s.nonoptStart.isSome → s.nonoptEnd.isSome

/-- If it is known where the passed words end, options follow them. -/
def Followed (s : State) (after : List CString) : Prop := s.nonoptEnd.isSome → after ≠ []

variable {before after args : List CString}

namespace Placed

theorem optind_eq (h : Placed s before ps after rest) : s.optind = (before ++ ps ++ after).length := by
  rw [h.optind, List.length_append, List.length_append]

/-- The word at `mowgli_optind`. -/
theorem word (h : Placed s before ps after (w :: rest)) : s.nargv.getD s.optind EMSG = w := by
  rw [h.optind_eq, h.nargv, List.getD_eq_getElem?_getD, List.getElem?_append_right le_rfl, Nat.sub_self]
  rfl

/-- The words behind it. -/
theorem next_word (h : Placed s before ps after (w :: rest)) (k : ℕ) : s.nargv[s.optind + 1 + k]? = rest[k]? := by
  have hlen : s.optind + 1 + k = (before ++ ps ++ after ++ [w]).length + k := by
    simp only [h.optind_eq, List.length_append, List.length_singleton]
  rw [hlen, h.nargv, List.append_cons, List.getElem?_append_right (Nat.le_add_right _ _), Nat.add_sub_cancel_left]

theorem length_le_iff (h : Placed s before ps after (w :: rest)) : s.nargv.length ≤ s.optind + 1 ↔ rest = [] := by
  simp only [h.optind_eq, h.nargv, List.length_append, List.length_cons, ← List.length_eq_zero_iff]
  omega

/-- **A word is passed over.** The block of passed words is moved to it first, if options stand
in between. -/
theorem passOver (h : Placed s before ps after (w :: rest)) (hend : Followed s after) :
    s.passOver.nonoptEnd = none ∧ Placed s.passOver (before ++ after) (ps ++ [w]) [] rest := by
  have hne : ps ++ [w] ≠ [] := List.append_ne_nil_of_right_ne_nil _ (List.cons_ne_nil _ _)
  have hoptind := h.optind
  unfold State.passOver
  rcases hb : s.nonoptStart with _ | b <;> rcases he : s.nonoptEnd with _ | e
  · obtain ⟨rfl, rfl⟩ := h.unmarked hb
    refine ⟨rfl, by simp [h.nargv], by simp [hoptind], ?_, ?_, by simp, by simp⟩
    · rintro b ⟨⟩
      exact ⟨by simpa using hoptind, hne⟩
    · intro e h
      simp at h
  · exact absurd (h.ends e he).2 (by simp [hb])
  · obtain ⟨hbegin, -⟩ := h.begins b hb
    obtain rfl := h.behind he
    refine ⟨rfl, by simp [h.nargv], by simp [hoptind]; omega, ?_, ?_, ?_, by simp⟩
    · intro b' h
      simp only [Option.some.injEq] at h
      exact ⟨by simpa using h ▸ hbegin, hne⟩
    · intro e h
      simp at h
    · intro h
      simp at h
  · obtain ⟨rfl, hps⟩ := h.begins b hb
    obtain ⟨rfl, -⟩ := h.ends e he
    have hperm := permuteArgs_append before (w :: rest) hps (hend (by simp [he]))
    rw [← h.nargv, ← h.optind] at hperm
    refine ⟨rfl, by simp [hperm], by simp [hoptind]; omega, ?_, by simp, by simp, by simp⟩
    rintro b ⟨⟩
    refine ⟨?_, hne⟩
    simp only [hoptind, List.length_append]
    omega

/-- At an option, the passed words end. -/
theorem markOption (h : Placed s before ps after (w :: rest)) (p : CString) :
    Placed { s.markOption with place := p } before ps after (w :: rest) ∧ Marked { s.markOption with place := p } := by
  unfold State.markOption
  by_cases hm : s.nonoptStart.isSome && s.nonoptEnd.isNone
  · rw [if_pos hm]
    rw [Bool.and_eq_true, Option.isNone_iff_eq_none] at hm
    obtain rfl := h.behind hm.2
    refine ⟨⟨h.nargv, h.optind, h.begins, ?_, h.unmarked, nofun⟩, fun _ => rfl⟩
    rintro e ⟨⟩
    exact ⟨h.optind, hm.1⟩
  · rw [if_neg hm]
    refine ⟨⟨h.nargv, h.optind, h.begins, h.ends, h.unmarked, h.behind⟩, fun hstart => ?_⟩
    by_contra hnone
    exact hm (by rw [hstart, Bool.true_and, Option.isNone_iff_eq_none]; simpa using hnone)

/-- **At the end, the passed words are moved behind all options.** -/
theorem permuted (h : Placed s before ps after rest) (hm : Marked s) (hend : Followed s after) :
    s.permuted.nargv = before ++ after ++ ps ++ rest ∧ s.permuted.optind = (before ++ after).length := by
  have hoptind := h.optind
  unfold State.permuted
  rcases hb : s.nonoptStart with _ | b
  · obtain ⟨rfl, rfl⟩ := h.unmarked hb
    exact ⟨by simp [h.nargv], by simp [hoptind]⟩
  · obtain ⟨e, he⟩ := Option.isSome_iff_exists.1 (hm (by simp [hb]))
    obtain ⟨rfl, hps⟩ := h.begins b hb
    obtain ⟨rfl, -⟩ := h.ends e he
    have hperm := permuteArgs_append before rest hps (hend (by simp [he]))
    rw [← h.nargv, ← h.optind] at hperm
    rw [he]
    refine ⟨hperm, ?_⟩
    simp only [List.length_append]
    omega

/-- There is nothing left. -/
theorem finish (h : Placed s before ps after []) (hend : Followed s after) :
    s.finish.nargv = before ++ after ++ ps ∧ s.finish.optind = (before ++ after).length := by
  unfold State.finish
  have hplace : Placed { s with place := EMSG } before ps after [] :=
    ⟨h.nargv, h.optind, h.begins, h.ends, h.unmarked, h.behind⟩
  have hperm : Marked s → State.nargv { s with place := EMSG }.permuted = before ++ after ++ ps ∧
      State.optind { s with place := EMSG }.permuted = (before ++ after).length := fun hm => by
    obtain ⟨hnargv, hoptind⟩ := hplace.permuted hm hend
    exact ⟨by rw [hnargv, List.append_nil], hoptind⟩
  rcases hb : s.nonoptStart with _ | b
  · rw [hb] at hperm
    exact hperm (by simp [Marked, hb])
  rcases he : s.nonoptEnd with _ | e
  · obtain ⟨rfl, -⟩ := h.begins b hb
    obtain rfl := h.behind he
    exact ⟨by simp [h.nargv], by simp⟩
  · rw [hb, he] at hperm
    exact hperm (by simp [Marked, he])

end Placed

/-- The variables that are for the permutation stay as they are, and `mowgli_optind` goes on
by `k`. -/
structure Moved (s s' : State) (k : ℕ) : Prop where
  nargv : s'.nargv = s.nargv
  nonoptStart : s'.nonoptStart = s.nonoptStart
  nonoptEnd : s'.nonoptEnd = s.nonoptEnd
  optind : s'.optind = s.optind + k

theorem Moved.trans {s₁ : State} {j k : ℕ} (h : Moved s s₁ j) (h' : Moved s₁ s' k) : Moved s s' (j + k) :=
  ⟨h'.nargv.trans h.nargv, h'.nonoptStart.trans h.nonoptStart, h'.nonoptEnd.trans h.nonoptEnd, by
    rw [h'.optind, h.optind, Nat.add_assoc]⟩

theorem Moved.fail {k : ℕ} (env : Env) (options : CString) (h : Moved s s' k) (w : Warning) (o : ℤ) :
    Moved s (s'.fail env options w o) k :=
  ⟨h.nargv, h.nonoptStart, h.nonoptEnd, h.optind⟩

theorem Marked.moved {k : ℕ} (h : Marked s) (hm : Moved s s' k) : Marked s' := by
  unfold Marked at h ⊢
  rwa [hm.nonoptStart, hm.nonoptEnd]

theorem Placed.moved (h : Placed s before ps after rest) (hm : Moved s s' 0) : Placed s' before ps after rest where
  nargv := hm.nargv ▸ h.nargv
  optind := hm.optind.trans h.optind
  begins := hm.nonoptStart ▸ h.begins
  ends := hm.nonoptEnd ▸ hm.nonoptStart ▸ h.ends
  unmarked := hm.nonoptStart ▸ h.unmarked
  behind := hm.nonoptEnd ▸ h.behind

/-- **An option was read**, with `k` words behind it. -/
theorem Placed.take {k : ℕ} (h : Placed s before ps after (w :: rest)) (hmark : Marked s) (hm : Moved s s' (k + 1))
    (hk : k ≤ rest.length) : ∃ before' after', Placed s' before' ps after' (rest.drop k) ∧ Marked s' ∧ Followed s' after' ∧
      before' ++ after' = before ++ after ++ w :: rest.take k := by
  have hoptind := h.optind
  have hmoved := hm.optind
  have hlen : (rest.take k).length = k := by rw [List.length_take, min_eq_left hk]
  have hnargv : s'.nargv = before ++ ps ++ after ++ w :: rest.take k ++ rest.drop k := by
    rw [hm.nargv, h.nargv, List.append_assoc _ (w :: _), List.cons_append, List.take_append_drop]
  rcases he : s.nonoptEnd with _ | e
  · -- no word was passed over
    have hb : s.nonoptStart = none := by
      by_contra hne
      have hsome := hmark (Option.isSome_iff_ne_none.2 hne)
      rw [he] at hsome
      cases hsome
    obtain ⟨rfl, rfl⟩ := h.unmarked hb
    refine ⟨before ++ w :: rest.take k, [], ⟨by simpa using hnargv, ?_, ?_, ?_, fun _ => ⟨rfl, rfl⟩, fun _ => rfl⟩,
      hmark.moved hm, ?_, by simp⟩
    · simp only [List.length_append, List.length_cons, List.length_nil, hlen] at hoptind ⊢
      omega
    · rw [hm.nonoptStart, hb]
      nofun
    · rw [hm.nonoptEnd, he]
      nofun
    · rw [Followed, hm.nonoptEnd, he]
      nofun
  · refine ⟨before, after ++ w :: rest.take k, ⟨?_, ?_, ?_, ?_, ?_, ?_⟩, hmark.moved hm,
      fun _ => List.append_ne_nil_of_right_ne_nil _ (List.cons_ne_nil _ _), by simp⟩
    · rw [hnargv, ← List.append_assoc]
    · simp only [List.length_append, List.length_cons, hlen]
      omega
    · rw [hm.nonoptStart]
      exact h.begins
    · rw [hm.nonoptEnd, hm.nonoptStart]
      exact h.ends
    · intro hb
      have hsome := (h.ends e he).2
      rw [← hm.nonoptStart, hb] at hsome
      cases hsome
    · intro hnone
      rw [hm.nonoptEnd, he] at hnone
      cases hnone

/-! ## What was read -/

variable {R : Reading}

/-- A call begins with the next word, when `rest` is left of `argv`. -/
def Between (R : Reading) (argv : List CString) (s : State) (rest : List CString) : Prop :=
  s.place = EMSG ∧ ∃ before ps after, R.Parted argv rest (before ++ after) ps ∧ Placed s before ps after rest ∧ Followed s after

/-- Option `w` is read, with `rest` behind it. -/
def AtOption (R : Reading) (argv : List CString) (s : State) (w : CString) (rest : List CString) : Prop :=
  ¬ IsOperand w ∧ ∃ before ps after, R.Parted argv (w :: rest) (before ++ after) ps ∧ Placed s before ps after (w :: rest) ∧
    Marked s

/-- A call goes on in the word. -/
def Inside (R : Reading) (argv : List CString) (s : State) (w : CString) (rest : List CString) : Prop :=
  s.place ≠ EMSG ∧ AtOption R argv s w rest ∧ R.tail w rest = R.letters rest s.place.bytes

/-- The words are in order: the options with what belongs to them, the words that were passed
over, and words that were not read, if the options ended before them. -/
def Ordered (R : Reading) (argv : List CString) (s : State) : Prop :=
  ∃ rest ks ps, R.Finished argv rest ks ps ∧ s.nargv = ks ++ ps ++ rest ∧ s.optind = ks.length

theorem between_init (w : CString) (rest : List CString) : Between R (w :: rest) (State.init (w :: rest)) rest :=
  ⟨rfl, [w], [], [], .program rfl, ⟨rfl, rfl, nofun, nofun, fun _ => ⟨rfl, rfl⟩, fun _ => rfl⟩, by simp [Followed, State.init]⟩

theorem AtOption.moved (h : AtOption R argv s w rest) (hm : Moved s s' 0) : AtOption R argv s' w rest := by
  obtain ⟨hw, before, ps, after, hparted, hplaced, hmark⟩ := h
  exact ⟨hw, before, ps, after, hparted, hplaced.moved hm, hmark.moved hm⟩

/-- An option was read, and more follow it. -/
theorem AtOption.between (h : AtOption R argv s w rest) (hm : Moved s s' (R.takes w rest + 1)) (hp : s'.place = EMSG)
    (hends : (R.tail w rest).ends = false) : Between R argv s' (rest.drop (R.takes w rest)) := by
  obtain ⟨hw, before, ps, after, hparted, hplaced, hmark⟩ := h
  obtain ⟨before', after', hplaced', -, hfollow, hkept⟩ := hplaced.take hmark hm (Reading.taken_le rest w)
  refine ⟨hp, before', ps, after', ?_, hplaced', hfollow⟩
  rw [hkept]
  exact hparted.option hw hends

/-- **The last option was read.** -/
theorem AtOption.ordered (h : AtOption R argv s w rest) (hm : Moved s s' (R.takes w rest + 1))
    (hends : (R.tail w rest).ends = true) : Ordered R argv s'.permuted := by
  obtain ⟨hw, before, ps, after, hparted, hplaced, hmark⟩ := h
  obtain ⟨before', after', hplaced', hmark', hfollow, hkept⟩ := hplaced.take hmark hm (Reading.taken_le rest w)
  obtain ⟨hnargv, hoptind⟩ := hplaced'.permuted hmark' hfollow
  rw [hkept] at hnargv hoptind
  exact ⟨_, _, ps, .ended hparted hw hends, hnargv, hoptind⟩

/-! ## An option letter -/

/-- No option letter is -1 or -2 as a `char`. -/
def Lettered (options : CString) : Prop := 0xff ∉ options.bytes ∧ 0xfe ∉ options.bytes

/-- What `getopt_internal` answers at option `w`: it goes on in the word, or it is done with
the words that belong to the option, or a long option is still to be read. -/
inductive Answer (R : Reading) (w : CString) (rest : List CString) (c : ℤ) (s s' : State) : Prop
  | inside : c ≠ -1 → c ≠ -2 → s'.place ≠ EMSG → s'.place.length < s.place.length → Moved s s' 0 →
    R.tail w rest = R.letters rest s'.place.bytes → Answer R w rest c s s'
  | behind {k : ℕ} : c ≠ -1 → c ≠ -2 → s'.place = EMSG → R.tail w rest = .words k → Moved s s' (k + 1) →
    Answer R w rest c s s'
  | long {k : ℕ} : c = -2 → R.tail w rest = .long k s'.place → Moved s s' k → Answer R w rest c s s'

theorem charInt_ne {b : UInt8} (h1 : b ≠ 0xff) (h2 : b ≠ 0xfe) : charInt b ≠ -1 ∧ charInt b ≠ -2 :=
  forall_uint8 (P := fun b => b ≠ 0xff → b ≠ 0xfe → charInt b ≠ -1 ∧ charInt b ≠ -2) (by decide +kernel) b h1 h2

theorem Answer.fail (h : Answer R w rest c s s') (a : Warning) (o : ℤ) :
    Answer R w rest c s (s'.fail env options a o) := by
  cases h with
  | inside h₁ h₂ hp hlt hm htail => exact .inside h₁ h₂ hp hlt (hm.fail ..) htail
  | behind h₁ h₂ hp htail hm => exact .behind h₁ h₂ hp htail (hm.fail ..)
  | long h₁ htail hm => exact .long h₁ htail (hm.fail ..)

theorem ofBuffer_bytes (k : CString) : CString.ofBuffer k.bytes = k :=
  CString.ext (List.takeWhile_eq_self_iff.2 fun _ hx => decide_eq_true fun h0 => k.nul_free (h0 ▸ hx))

/-- The letters of a word, by the first one. -/
theorem bytes_place : ∀ {place : CString}, place ≠ EMSG → place.bytes = place.charAt 0 :: (place.drop 1).bytes
  | ⟨[], _⟩, hp => absurd (CString.ext rfl) hp
  | ⟨_ :: _, _⟩, _ => rfl

/-- A letter that has no argument. -/
theorem answer_nextWord (hc : c ≠ -1 ∧ c ≠ -2) (hp : s.place ≠ EMSG) (htail : R.tail w rest = R.letters rest s.place.bytes)
    (hkind : R.letter (s.place.charAt 0) = .plain) :
    Answer R w rest c s ({ s with place := s.place.drop 1 } : State).nextWord := by
  rw [bytes_place hp, Reading.letters, hkind] at htail
  unfold State.nextWord
  by_cases hend : s.place.drop 1 = EMSG
  · rw [if_pos hend]
    rw [hend] at htail
    exact .behind hc.1 hc.2 hend htail ⟨rfl, rfl, rfl, rfl⟩
  · rw [if_neg hend]
    exact .inside hc.1 hc.2 hend (length_drop_lt hp) ⟨rfl, rfl, rfl, rfl⟩ htail

theorem letter_answer (hopt : Lettered options) (hat : AtOption (reading options longOptions) argv s w rest)
    (hp : s.place ≠ EMSG)
    (htail : (reading options longOptions).tail w rest = (reading options longOptions).letters rest s.place.bytes)
    (h : letter env options s = (c, s')) : Answer (reading options longOptions) w rest c s s' := by
  have hbadch : BADCH ≠ -1 ∧ BADCH ≠ -2 := by decide
  have hbadarg : BADARG options ≠ -1 ∧ BADARG options ≠ -2 := by
    have := badarg_pos options
    omega
  obtain ⟨before, ps, after, hplaced⟩ : ∃ before ps after, Placed s before ps after (w :: rest) := by
    obtain ⟨-, before, ps, after, -, hplaced, -⟩ := hat
    exact ⟨before, ps, after, hplaced⟩
  have hle := hplaced.length_le_iff
  have hnext := hplaced.next_word 0
  have hkind : (reading options longOptions).letter (s.place.charAt 0) = letterKind options (s.place.charAt 0) := rfl
  rw [letterKind] at hkind
  rw [letter] at h
  rcases hfound : (options.bytes.drop (if ignoreFirst options then 1 else 0)).dropWhile (· != s.place.charAt 0) with _ | ⟨b, oli⟩
  · rw [hfound] at h hkind
    obtain ⟨rfl, rfl⟩ := Prod.mk.inj h
    exact (answer_nextWord hbadch hp htail hkind).fail ..
  · rw [hfound] at h hkind
    -- the letter is one of the options
    have hmem : s.place.charAt 0 ∈ options.bytes := by
      have hb := List.head?_dropWhile_not (fun x => x != s.place.charAt 0)
        (options.bytes.drop (if ignoreFirst options then 1 else 0))
      rw [hfound] at hb
      have hb' : b = s.place.charAt 0 := by simpa using hb
      have hin : b ∈ options.bytes.drop (if ignoreFirst options then 1 else 0) :=
        (List.dropWhile_suffix _).subset (hfound ▸ List.mem_cons_self ..)
      exact hb' ▸ List.mem_of_mem_drop hin
    have hchar := charInt_ne (fun h => hopt.1 (h ▸ hmem)) (fun h => hopt.2 (h ▸ hmem))
    have hletters := htail
    rw [bytes_place hp, Reading.letters, hkind] at hletters
    have hempty : (s.place.drop 1).bytes = [] ↔ s.place.drop 1 = EMSG := ⟨fun h => CString.ext h, fun h => by rw [h]; rfl⟩
    dsimp only at h hkind hletters
    by_cases hcolon : s.place.charAt 0 = ch ':'
    · rw [if_pos hcolon] at h hkind
      obtain ⟨rfl, rfl⟩ := Prod.mk.inj h
      exact (answer_nextWord hbadch hp htail hkind).fail ..
    rw [if_neg hcolon] at h hkind hletters
    by_cases hlong : s.place.charAt 0 = ch 'W' ∧ oli.getD 0 0 = ch ';'
    · rw [if_pos hlong] at h hletters
      by_cases hrest : s.place.drop 1 = EMSG
      · rw [if_neg (not_not.2 hrest)] at h
        dsimp only at h hletters
        rw [if_pos (hempty.2 hrest)] at hletters
        rcases rest with _ | ⟨text, rest⟩
        · rw [if_pos (hle.2 rfl)] at h
          obtain ⟨rfl, rfl⟩ := Prod.mk.inj h
          refine Answer.fail ?_ _ _
          exact .behind hbadarg.1 hbadarg.2 hrest hletters ⟨rfl, rfl, rfl, rfl⟩
        · rw [if_neg (mt hle.1 (List.cons_ne_nil _ _))] at h
          obtain ⟨rfl, rfl⟩ := Prod.mk.inj h
          have htext : s.nargv.getD (s.optind + 1) EMSG = text := by
            rw [List.getD_eq_getElem?_getD, hnext]
            rfl
          exact .long rfl (htext.symm ▸ hletters) ⟨rfl, rfl, rfl, rfl⟩
      · rw [if_pos hrest] at h
        dsimp only at hletters
        rw [if_neg (mt hempty.1 hrest), ofBuffer_bytes] at hletters
        obtain ⟨rfl, rfl⟩ := Prod.mk.inj h
        exact .long rfl hletters ⟨rfl, rfl, rfl, rfl⟩
    rw [if_neg hlong] at h hkind hletters
    by_cases hplain : oli.getD 0 0 ≠ ch ':'
    · rw [if_pos hplain] at h hkind
      obtain ⟨rfl, rfl⟩ := Prod.mk.inj h
      exact answer_nextWord hchar hp htail hkind
    rw [if_neg hplain] at h hletters
    by_cases hrest : s.place.drop 1 = EMSG
    · rw [if_neg (not_not.2 hrest)] at h
      by_cases hreq : oli.getD 1 0 ≠ ch ':'
      · rw [if_pos hreq] at h hletters
        dsimp only at h hletters
        rw [if_pos (hempty.2 hrest)] at hletters
        rcases rest with _ | ⟨text, rest⟩
        · rw [if_pos (hle.2 rfl)] at h
          obtain ⟨rfl, rfl⟩ := Prod.mk.inj h
          refine Answer.fail ?_ _ _
          exact .behind hbadarg.1 hbadarg.2 hrest hletters ⟨rfl, rfl, rfl, rfl⟩
        · rw [if_neg (mt hle.1 (List.cons_ne_nil _ _))] at h
          obtain ⟨rfl, rfl⟩ := Prod.mk.inj h
          exact .behind hchar.1 hchar.2 hrest hletters ⟨rfl, rfl, rfl, rfl⟩
      · rw [if_neg hreq] at h hletters
        obtain ⟨rfl, rfl⟩ := Prod.mk.inj h
        exact .behind hchar.1 hchar.2 hrest hletters ⟨rfl, rfl, rfl, rfl⟩
    · -- the argument is in the word
      rw [if_pos hrest] at h
      have hwords : (reading options longOptions).tail w rest = .words 0 := by
        by_cases hreq : oli.getD 1 0 ≠ ch ':'
        · rw [if_pos hreq] at hletters
          dsimp only at hletters
          rwa [if_neg (mt hempty.1 hrest)] at hletters
        · rwa [if_neg hreq] at hletters
      obtain ⟨rfl, rfl⟩ := Prod.mk.inj h
      exact .behind hchar.1 hchar.2 rfl hwords ⟨rfl, rfl, rfl, rfl⟩

/-! ## `getopt_internal` -/

theorem not_inOrder (h : permute env options = true) : inOrder env options = false := by
  unfold permute ignoreFirst at h
  unfold inOrder
  revert h
  cases env.posixlyCorrect <;> cases options.charAt 0 == ch '-' <;> simp

/-- What `getopt_internal` does with `rest` left: it comes to the end, or answers at the first
option. -/
def Answers (R : Reading) (argv : List CString) (rest : List CString) (c : ℤ) (s' : State) : Prop :=
  (rest.dropWhile (IsOperand ·) = [] ∧ c = -1 ∧ Ordered R argv s') ∨
    ∃ s w rest', rest.dropWhile (IsOperand ·) = w :: rest' ∧ AtOption R argv s w rest' ∧ Answer R w rest' c s s'

theorem start_answers (hopt : Lettered options) (hperm : permute env options = true) : ∀ {n : ℕ} {s : State}
    {before ps after rest : List CString}, start env options n s = (c, s') → n = rest.length →
      (reading options longOptions).Parted argv rest (before ++ after) ps → Placed s before ps after rest →
        Followed s after → Answers (reading options longOptions) argv rest c s'
  | 0, s, before, ps, after, rest, hrun, hn, hparted, h, hend => by
    obtain rfl := List.length_eq_zero_iff.1 hn.symm
    obtain ⟨rfl, rfl⟩ := Prod.mk.inj hrun
    obtain ⟨hnargv, hoptind⟩ := h.finish hend
    exact .inl ⟨rfl, rfl, [], _, ps, .all hparted, by rw [hnargv, List.append_nil], hoptind⟩
  | n + 1, s, before, ps, after, rest, hrun, hn, hparted, h, hend => by
    rcases rest with _ | ⟨w, rest⟩
    · cases hn
    rw [start, h.word] at hrun
    dsimp only at hrun
    by_cases hword : IsOperand w
    · have hword' : w.charAt 0 ≠ ch '-' ∨ w.charAt 1 = 0 := hword
      rw [if_pos hword', not_inOrder hperm, if_neg Bool.false_ne_true, if_pos hperm] at hrun
      obtain ⟨hnone, hplaced⟩ := h.passOver hend
      have hparted' := hparted.operand hword
      rw [← List.append_nil (before ++ after)] at hparted'
      have ih := start_answers hopt hperm hrun (Nat.succ.inj hn) hparted' hplaced (by simp [Followed, hnone])
      rwa [Answers, List.dropWhile_cons_of_pos (by simpa using hword)]
    · have hword' : ¬ (w.charAt 0 ≠ ch '-' ∨ w.charAt 1 = 0) := hword
      rw [if_neg hword'] at hrun
      refine .inr ?_
      rw [List.dropWhile_cons_of_neg (by simpa using hword)]
      have hmark := fun p => h.markOption p
      have hat : ∀ p, AtOption (reading options longOptions) argv { s.markOption with place := p } w rest := fun p =>
        ⟨hword, before, ps, after, hparted, h.markOption p⟩
      by_cases hdash : w.charAt 1 = ch '-'
      · rw [if_pos hdash] at hrun
        obtain ⟨rfl, rfl⟩ := Prod.mk.inj hrun
        exact ⟨_, w, rest, rfl, hat (w.drop 2), .long rfl (by rw [Reading.tail, if_pos hdash]) ⟨rfl, rfl, rfl, rfl⟩⟩
      · rw [if_neg hdash] at hrun
        have hp : w.drop 1 ≠ EMSG := drop_ne fun h => hword (Or.inr h)
        exact ⟨_, w, rest, rfl, hat (w.drop 1), letter_answer hopt (hat (w.drop 1)) hp (by rw [Reading.tail, if_neg hdash]) hrun⟩

theorem Between.optind (h : Between R argv s rest) : s.optind ≠ 0 ∧ s.nargv.length - s.optind = rest.length := by
  obtain ⟨-, before, ps, after, hparted, hplaced, -⟩ := h
  have hpos := hparted.length.1
  rw [List.length_append] at hpos
  have hoptind := hplaced.optind
  rw [hplaced.nargv]
  simp only [List.length_append]
  omega

theorem AtOption.optind (h : AtOption R argv s w rest) : s.optind ≠ 0 ∧ s.optind + (w :: rest).length = argv.length := by
  obtain ⟨-, before, ps, after, hparted, hplaced, -⟩ := h
  obtain ⟨hpos, hlen⟩ := hparted.length
  rw [List.length_append] at hpos hlen
  have hoptind := hplaced.optind
  omega

theorem Between.answers (hopt : Lettered options) (hperm : permute env options = true)
    (h : Between (reading options longOptions) argv s rest) (hrun : getoptInternal env options s = (c, s')) :
    Answers (reading options longOptions) argv rest c s' := by
  obtain ⟨hpos, hleft⟩ := h.optind
  obtain ⟨hp, before, ps, after, hparted, hplaced, hend⟩ := h
  unfold getoptInternal at hrun
  simp only [hpos, if_false, hp, if_true] at hrun
  exact start_answers hopt hperm hrun hleft hparted (hplaced.moved ⟨rfl, rfl, rfl, rfl⟩) hend

theorem Inside.answer (hopt : Lettered options) (h : Inside (reading options longOptions) argv s w rest)
    (hrun : getoptInternal env options s = (c, s')) :
    AtOption (reading options longOptions) argv { s with optarg := none } w rest ∧
      Answer (reading options longOptions) w rest c { s with optarg := none } s' := by
  obtain ⟨hp, hat, htail⟩ := h
  have hat' : AtOption (reading options longOptions) argv { s with optarg := none } w rest := hat.moved ⟨rfl, rfl, rfl, rfl⟩
  unfold getoptInternal at hrun
  simp only [hat.optind.1, if_false, hp] at hrun
  exact ⟨hat', letter_answer hopt hat' hp htail hrun⟩

/-! ## `mowgli_getopt_long` -/

/-- The argument of a long option is the next word. -/
theorem takeArgument_next {a : CString} {o : GetoptOption} (hreq : o.hasArg = required_argument) (heq : hasEqual a = none) :
    takeArgument a o s = { s with optarg := s.nargv[s.optind]?, optind := s.optind + 1 } := by
  rw [takeArgument, if_pos (Or.inl hreq), heq]
  exact if_pos hreq

/-- It is in the word, or there is none. -/
theorem takeArgument_here {a : CString} {o : GetoptOption} (h : ¬ (o.hasArg = required_argument ∧ hasEqual a = none)) :
    Moved s (takeArgument a o s) 0 ∧ (takeArgument a o s).place = s.place ∧
      (o.hasArg = required_argument → (takeArgument a o s).optarg ≠ none) := by
  unfold takeArgument
  by_cases harg : o.hasArg = required_argument ∨ o.hasArg = optional_argument
  · rw [if_pos harg]
    rcases heq : hasEqual a with _ | v
    · have hreq : o.hasArg ≠ required_argument := fun hreq => h ⟨hreq, heq⟩
      dsimp only
      rw [if_neg hreq]
      exact ⟨⟨rfl, rfl, rfl, rfl⟩, rfl, fun h => absurd h hreq⟩
    · exact ⟨⟨rfl, rfl, rfl, rfl⟩, rfl, fun _ => Option.some_ne_none v⟩
  · rw [if_neg harg]
    exact ⟨⟨rfl, rfl, rfl, rfl⟩, rfl, fun h => absurd (Or.inl h) harg⟩

/-- What is done for a long option that was looked for: its argument is taken, if it is the next
word. -/
theorem outcome_spec {text : CString} {idx : Option ℕ} {found : Option (ℕ × GetoptOption) × Bool}
    (hval : ∀ o ∈ longOptions, o.val ≠ -1) (hsearch : search text 0 longOptions none false = some found) (hp : s.place = EMSG)
    (h : outcome env options text s found = (c, idx, s')) :
    c ≠ -1 ∧ s'.place = EMSG ∧
      Moved s s' (if longTakes longOptions text = true ∧ s.nargv[s.optind]? ≠ none then 1 else 0) := by
  have hsame : Moved s s 0 := ⟨rfl, rfl, rfl, rfl⟩
  have hbadch : BADCH ≠ -1 := by decide
  have hbadarg : BADARG options ≠ -1 := by
    have := badarg_pos options
    omega
  rcases found with ⟨found, _ | _⟩
  · rcases found with _ | ⟨i, o⟩
    · obtain ⟨rfl, -, rfl⟩ := Prod.mk.inj h |>.imp_right Prod.mk.inj
      have hfalse := longTakes_of_not_found hsearch (Or.inl rfl)
      rw [hfalse, if_neg (fun h => Bool.false_ne_true h.1)]
      exact ⟨hbadch, hp, hsame.fail ..⟩
    · have hval' : o.val ≠ -1 := by
        obtain ⟨j, -, hj, -⟩ := (search_getElem? hsearch).resolve_left (by simp)
        exact hval o (List.mem_of_getElem? hj)
      have htakes := longTakes_of_found hsearch
      change matched env options text i o s = (c, idx, s') at h
      unfold matched at h
      by_cases hno : o.hasArg = no_argument ∧ (hasEqual text).isSome
      · rw [if_pos hno] at h
        obtain ⟨rfl, -, rfl⟩ := Prod.mk.inj h |>.imp_right Prod.mk.inj
        rw [if_neg (fun h => absurd (hno.1.symm.trans (htakes.1 h.1).1) (by decide))]
        exact ⟨hbadarg, hp, hsame.fail ..⟩
      rw [if_neg hno] at h
      dsimp only at h
      by_cases hreq : o.hasArg = required_argument ∧ hasEqual text = none
      · rw [takeArgument_next hreq.1 hreq.2] at h
        by_cases hmiss : s.nargv[s.optind]? = none
        · -- a missing argument was looked for in the next word
          rw [if_pos ⟨hreq.1, hmiss⟩] at h
          obtain ⟨rfl, -, rfl⟩ := Prod.mk.inj h |>.imp_right Prod.mk.inj
          rw [if_neg (fun h => h.2 hmiss)]
          exact ⟨hbadarg, hp, rfl, rfl, rfl, rfl⟩
        · rw [if_neg (fun h => hmiss h.2)] at h
          obtain ⟨rfl, -, rfl⟩ := Prod.mk.inj h |>.imp_right Prod.mk.inj
          rw [if_pos ⟨htakes.2 hreq, hmiss⟩]
          exact ⟨hval', hp, rfl, rfl, rfl, rfl⟩
      · obtain ⟨hm, hplace, hsome⟩ := takeArgument_here (s := s) hreq
        rw [if_neg (fun h => hsome h.1 h.2)] at h
        obtain ⟨rfl, -, rfl⟩ := Prod.mk.inj h |>.imp_right Prod.mk.inj
        rw [if_neg (fun h => hreq (htakes.1 h.1))]
        exact ⟨hval', hplace.trans hp, hm⟩
  · obtain ⟨rfl, -, rfl⟩ := Prod.mk.inj h |>.imp_right Prod.mk.inj
    have hfalse := longTakes_of_not_found hsearch (Or.inr rfl)
    rw [hfalse, if_neg (fun h => Bool.false_ne_true h.1)]
    exact ⟨hbadch, hp, hsame.fail ..⟩

/-- A long option that `w` comes to can be looked for. -/
def Found (R : Reading) (longOptions : List GetoptOption) (w : CString) (rest : List CString) : Prop :=
  ∀ k text, R.tail w rest = .long k text → search text 0 longOptions none false ≠ none

/-- **A call that comes to an option.** It ends the options, or goes on behind the words of the
option, or goes on in the word. -/
theorem getoptLong_at {r : ℤ} {s₀ s₁ : State} {idx : Option ℕ} (hval : ∀ o ∈ longOptions, o.val ≠ -1)
    (hint : getoptInternal env options s = (r, s₁)) (hat : AtOption (reading options longOptions) argv s₀ w rest)
    (hans : Answer (reading options longOptions) w rest r s₀ s₁)
    (hrun : getoptLong env options longOptions s = some (c, idx, s')) :
    (((reading options longOptions).tail w rest).ends = true ∧ c = -1 ∧ Ordered (reading options longOptions) argv s') ∨
      (((reading options longOptions).tail w rest).ends = false ∧ c ≠ -1 ∧
        Between (reading options longOptions) argv s' (rest.drop ((reading options longOptions).takes w rest)) ∧
          Found (reading options longOptions) longOptions w rest) ∨
      (c ≠ -1 ∧ Inside (reading options longOptions) argv s' w rest ∧ s'.place.length < s₀.place.length) := by
  rw [getoptLong, hint] at hrun
  dsimp only at hrun
  cases hans with
  | inside h₁ h₂ hp hlt hm htail =>
    rw [if_pos h₂] at hrun
    obtain ⟨rfl, -, rfl⟩ := Prod.mk.inj (Option.some.inj hrun) |>.imp_right Prod.mk.inj
    exact .inr (.inr ⟨h₁, ⟨hp, hat.moved hm, htail⟩, hlt⟩)
  | @behind k h₁ h₂ hp htail hm =>
    rw [if_pos h₂] at hrun
    obtain ⟨rfl, -, rfl⟩ := Prod.mk.inj (Option.some.inj hrun) |>.imp_right Prod.mk.inj
    have hends : ((reading options longOptions).tail w rest).ends = false := by rw [htail, Tail.ends]
    have htakes : (reading options longOptions).takes w rest = k := by rw [Reading.takes, htail, Reading.taken]
    rw [← htakes] at hm
    refine .inr (.inl ⟨hends, h₁, hat.between hm hp hends, fun j text hlong => ?_⟩)
    rw [htail] at hlong
    cases hlong
  | @long k h₁ htail hm =>
    rw [if_neg (not_not.2 h₁)] at hrun
    have hnext : Moved s₀ { s₁ with optind := s₁.optind + 1, place := EMSG } (k + 1) :=
      ⟨hm.nargv, hm.nonoptStart, hm.nonoptEnd, by simp only [hm.optind, Nat.add_assoc]⟩
    by_cases hend : s₁.place = EMSG
    · rw [if_pos hend] at hrun
      obtain ⟨rfl, -, rfl⟩ := Prod.mk.inj (Option.some.inj hrun) |>.imp_right Prod.mk.inj
      have hends : ((reading options longOptions).tail w rest).ends = true := by
        rw [htail, Tail.ends, hend]
        rfl
      have htakes : (reading options longOptions).takes w rest = k := by
        rw [Reading.takes, htail, Reading.taken, if_neg (fun h => h.1 hend)]
      rw [← htakes] at hnext
      exact .inl ⟨hends, rfl, hat.ordered hnext hends⟩
    · rw [if_neg hend] at hrun
      obtain ⟨found, hsearch, hres⟩ := Option.map_eq_some_iff.1 hrun
      obtain ⟨hc, hp, hmoved⟩ := outcome_spec hval hsearch rfl hres
      have hends : ((reading options longOptions).tail w rest).ends = false := by
        rw [htail, Tail.ends]
        exact decide_eq_false hend
      -- the word behind the option, if there is one
      have hword : s₁.nargv[s₁.optind + 1]? = (rest.drop k)[0]? := by
        obtain ⟨-, before, ps, after, -, hplaced, -⟩ := hat
        rw [hm.nargv, hm.optind, Nat.add_right_comm, hplaced.next_word k, List.getElem?_drop, Nat.add_zero]
      have htakes : (reading options longOptions).takes w rest =
          k + if longTakes longOptions s₁.place = true ∧ s₁.nargv[s₁.optind + 1]? ≠ none then 1 else 0 := by
        rw [Reading.takes, htail, Reading.taken, hword]
        have hlong : (reading options longOptions).takesNext s₁.place = longTakes longOptions s₁.place := rfl
        rw [hlong]
        rcases rest.drop k with _ | ⟨x, xs⟩ <;> by_cases htake : longTakes longOptions s₁.place = true <;>
          simp [hend, htake]
      have htotal := hnext.trans hmoved
      rw [Nat.add_right_comm, ← htakes] at htotal
      refine .inr (.inl ⟨hends, hc, hat.between htotal hp hends, fun j text hlong => ?_⟩)
      rw [htail] at hlong
      obtain ⟨-, rfl⟩ := Tail.long.inj hlong
      exact Option.ne_none_iff_exists'.2 ⟨found, hsearch⟩

/-- A call is at the next word, or in a word. -/
def Stands (R : Reading) (argv : List CString) (s : State) : Prop :=
  (∃ rest, Between R argv s rest) ∨ ∃ w rest, Inside R argv s w rest

/-- **A call** leaves the words in the order they are read in, and the one that answers -1
leaves them in order. -/
theorem getoptLong_reads {idx : Option ℕ} (hopt : Lettered options) (hperm : permute env options = true)
    (hval : ∀ o ∈ longOptions, o.val ≠ -1) (hs : Stands (reading options longOptions) argv s)
    (hrun : getoptLong env options longOptions s = some (c, idx, s')) :
    (c = -1 ∧ Ordered (reading options longOptions) argv s') ∨ (c ≠ -1 ∧ Stands (reading options longOptions) argv s') := by
  rcases hint : getoptInternal env options s with ⟨r, s₁⟩
  have hat : ∀ {s₀ w rest}, AtOption (reading options longOptions) argv s₀ w rest →
      Answer (reading options longOptions) w rest r s₀ s₁ →
        (c = -1 ∧ Ordered (reading options longOptions) argv s') ∨ (c ≠ -1 ∧ Stands (reading options longOptions) argv s') := by
    intro s₀ w rest hat hans
    rcases getoptLong_at hval hint hat hans hrun with ⟨-, hc, hord⟩ | ⟨-, hc, hbetween, -⟩ | ⟨hc, hinside, -⟩
    · exact .inl ⟨hc, hord⟩
    · exact .inr ⟨hc, .inl ⟨_, hbetween⟩⟩
    · exact .inr ⟨hc, .inr ⟨w, rest, hinside⟩⟩
  rcases hs with ⟨rest, hs⟩ | ⟨w, rest, hs⟩
  · rcases hs.answers hopt hperm hint with ⟨-, rfl, hord⟩ | ⟨s₀, w, rest', -, h, hans⟩
    · rw [getoptLong, hint] at hrun
      dsimp only at hrun
      rw [if_pos (by decide)] at hrun
      obtain ⟨rfl, -, rfl⟩ := Prod.mk.inj (Option.some.inj hrun) |>.imp_right Prod.mk.inj
      exact .inl ⟨rfl, hord⟩
    · exact hat h hans
  · obtain ⟨h, hans⟩ := hs.answer hopt hint
    exact hat h hans

theorem Placed.perm {before after : List CString} (h : Placed s before ps after rest)
    (hparted : R.Parted argv rest (before ++ after) ps) : s.nargv.Perm argv := by
  refine List.Perm.trans ?_ hparted.perm
  rw [h.nargv]
  refine List.Perm.append_right rest ?_
  rw [List.append_assoc, List.append_assoc]
  exact List.perm_append_comm.append_left _

/-- No word is lost, and none is there twice. -/
theorem Stands.perm (h : Stands R argv s) : s.nargv.Perm argv := by
  rcases h with ⟨rest, -, before, ps, after, hparted, hplaced, -⟩ | ⟨w, rest, -, ⟨-, before, ps, after, hparted, hplaced, -⟩, -⟩
  · exact hplaced.perm hparted
  · exact hplaced.perm hparted

theorem Ordered.perm (h : Ordered R argv s) : s.nargv.Perm argv := by
  obtain ⟨rest, ks, ps, hfinished, hnargv, -⟩ := h
  rw [hnargv]
  exact hfinished.perm

end Getopt

namespace ProgramOpts

open Getopt

variable {env : Env} {shortops : CString} {gOpts : List GetoptOption} {argv : List CString} {s s' : State} {prog : CString}
  {args : List CString} {idx : Option ℕ}

theorem Reached.stands (h : Reached env shortops gOpts (prog :: args) s) (hopt : Lettered shortops)
    (hperm : permute env shortops = true) (hval : ∀ o ∈ gOpts, o.val ≠ -1) :
    Stands (reading shortops gOpts) (prog :: args) s := by
  induction h with
  | refl => exact .inl ⟨args, between_init prog args⟩
  | tail _ hcall ih =>
    obtain ⟨c, idx, hcall, hc⟩ := hcall
    exact ((getoptLong_reads hopt hperm hval ih hcall).resolve_left fun h => hc h.1).2

/-- **When all options are read, they stand in front**: the first call that answers -1 leaves
the name of the program, the options with their arguments and the "--" in front of
`mowgli_optind`, in the order they were given in, and behind it the words that
were passed over, in their order, and those that were not looked at. At no call is
a word lost. -/
theorem getoptLong_parts (h : Reached env shortops gOpts (prog :: args) s) (hopt : Lettered shortops)
    (hperm : permute env shortops = true) (hval : ∀ o ∈ gOpts, o.val ≠ -1)
    (hend : getoptLong env shortops gOpts s = some (-1, idx, s')) :
    s.nargv.Perm (prog :: args) ∧ s'.nargv.Perm (prog :: args) ∧ Ordered (reading shortops gOpts) (prog :: args) s' := by
  have hstands := h.stands hopt hperm hval
  have hord := ((getoptLong_reads hopt hperm hval hstands hend).resolve_right fun h => h.1 rfl).2
  exact ⟨hstands.perm, hord.perm, hord⟩

deriving instance DecidableEq for State

theorem nul_free_dash_a : (0 : UInt8) ∉ [ch '-', ch 'a'] := by decide

/-- "x -a". -/
def operandFirst : List CString := [⟨[ch 'x'], CString.nul_free_x⟩, ⟨[ch '-', ch 'a'], nul_free_dash_a⟩]

/-- The option "-a" was read, behind "x". -/
def operandRead : State :=
  { State.init (EMSG :: operandFirst) with optind := 3, nonoptStart := some 1, nonoptEnd := some 2 }

theorem reached_operandRead : Reached ⟨false, true⟩ ⟨[ch 'a'], by decide⟩ [] (EMSG :: operandFirst) operandRead :=
  .tail .refl ⟨97, none, by decide +kernel, by decide⟩

/-- "x" was moved behind "-a". -/
def operandMoved : State :=
  { operandRead with nargv := permuteArgs 1 2 3 operandRead.nargv, optind := 2, nonoptStart := none, nonoptEnd := none }

theorem getoptLong_parts_operand : operandRead.nargv.Perm (EMSG :: operandFirst) ∧ operandMoved.nargv.Perm (EMSG :: operandFirst) ∧
    Ordered (reading ⟨[ch 'a'], by decide⟩ []) (EMSG :: operandFirst) operandMoved :=
  getoptLong_parts reached_operandRead ⟨by decide, by decide⟩ (by decide) (by simp)
    (by decide +kernel : getoptLong _ _ _ _ = some (-1, none, _))

end ProgramOpts

end Mowgli
