import Mowgli.Ext.GetoptLong.Reading
import Mowgli.Ext.ProgramOpts.Loop
/-!
# Long options in the argument vector

A word `--name` is an occurrence of the entry with that long name (`Gives`),
if it is no argument of an option and not behind a "--". That is read off the
table (`ReadAt`), whatever the calls come to. The array that is made of the
table has no entry that ends it, and an entry without a long name ends it
before its end. `dispatches_iff` says of a table and an argument vector
whether every occurrence reaches its consumer, with nothing read or written
out of bounds.
-/

namespace Mowgli

namespace ProgramOpts

open Getopt

variable {env : Env} {opts : List ProgramOpt} {shortops : CString} {argv : List CString} {s s' : State}
variable {i k : ℕ} {text : CString} {arg : Option CString}

/-! ## Occurrences -/

/-- The index of the word at which a call comes upon a long option, and the
text of the option. -/
def longText (env : Env) (shortops : CString) (s : State) : Option (ℕ × CString) :=
  match getoptInternal env shortops s with
  | (r, s) => if r = -2 ∧ s.place ≠ EMSG then some (s.optind, s.place) else none

/-- Word `k` is `--text`, and not "--" alone. -/
def IsWord (argv : List CString) (k : ℕ) (text : CString) : Prop :=
  text ≠ EMSG ∧ ∃ w, argv[k]? = some w ∧ w.bytes = ch '-' :: ch '-' :: text.bytes

/-- The entries whose long names begin with `text`. -/
def candidates (opts : List ProgramOpt) (text : CString) : List ProgramOpt :=
  opts.filter fun o => o.longopt.any fun name => text.bytes.isPrefixOf name.bytes

/-- The options, as the table has them. -/
def tableReading (opts : List ProgramOpt) : Reading where
  letter c := if (opts.find? fun o => o.smallopt == c).any fun o => o.hasParam then .required else .plain
  takesNext text :=
    (hasEqual text).isNone && !(candidates opts text).isEmpty && (candidates opts text).all fun o => o.hasParam

/-- Word `k` is read as an option or as an operand, by the table: it is no argument of an option,
and the options do not end before it. -/
def ReadAt (env : Env) (opts : List ProgramOpt) (argv : List CString) (k : ℕ) : Prop :=
  ∃ rest ks ps, (tableReading opts).Parted argv rest ks ps ∧ k + rest.length = argv.length ∧
    (env.posixlyCorrect = true → ps = [])

/-- The option in word `k` is that of entry `i`, and its argument is `arg`. -/
inductive Gives (opts : List ProgramOpt) (argv : List CString) (k : ℕ) : CString → ℕ → Option CString → Prop
  /-- `--name`, where the entry has no parameter. -/
  | flag {i : ℕ} {o : ProgramOpt} {name : CString} :
    opts[i]? = some o → o.longopt = some name → ch '=' ∉ name.bytes → o.hasParam = false → Gives opts argv k name i none
  /-- `--name=arg`. -/
  | value {i : ℕ} {o : ProgramOpt} {name text arg : CString} :
    opts[i]? = some o → o.longopt = some name → ch '=' ∉ name.bytes → o.hasParam = true →
      text.bytes = name.bytes ++ ch '=' :: arg.bytes → Gives opts argv k text i (some arg)
  /-- `--name arg`. -/
  | next {i : ℕ} {o : ProgramOpt} {name arg : CString} :
    opts[i]? = some o → o.longopt = some name → ch '=' ∉ name.bytes → o.hasParam = true →
      argv[k + 1]? = some arg → Gives opts argv k name i (some arg)

/-- The options are parsed without going out of bounds, and at each occurrence of an entry there
is a turn that calls its consumer. -/
def Dispatches (env : Env) (opts : List ProgramOpt) (argv : List CString) : Prop :=
  ∃ turns, parse env opts argv = some turns ∧
    ∀ shortops, computeOptstr opts = some shortops → ∀ k text i arg, ReadAt env opts argv k → IsWord argv k text →
      Gives opts argv k text i arg → ∃ s, (s, .consumer i arg) ∈ turns ∧ longText env shortops s = some (k, text)

/-- No long name is a prefix of another one. -/
def PrefixFree (opts : List ProgramOpt) : Prop :=
  ∀ (i j : ℕ) (x y : ProgramOpt) (a b : CString), opts[i]? = some x → opts[j]? = some y → x.longopt = some a → y.longopt = some b →
    a.bytes <+: b.bytes → i = j

/-! ## What decides -/

/-- The search for an option has an entry to end at: one without a long name,
or the one with the very name. -/
def Bounded (opts : List ProgramOpt) (text : CString) : Prop :=
  ∃ j o, opts[j]? = some o ∧ j ≤ INT_MAX ∧
    (o.longopt = none ∨ o.longopt = some (argvName text) ∧ (argvName text).length < 4294967296)

/-- No entry before entry `i` is without a long name. -/
def InReach (opts : List ProgramOpt) (i : ℕ) : Prop := ∀ j x, j < i → opts[j]? = some x → x.longopt ≠ none

/-- Entry `i` has no parameter and is the first with the short name '?', which
is what is answered for an option that is not known. -/
def ByError (opts : List ProgramOpt) (i : ℕ) : Prop :=
  ∃ o, opts[i]? = some o ∧ o.smallopt = ch '?' ∧ o.hasParam = false ∧
    ∀ j x, j < i → opts[j]? = some x → x.smallopt ≠ ch '?'

/-! ## The search for an option -/

theorem bounded_iff : Bounded opts text ↔ Ends text 0 (convert opts) := by
  constructor
  · rintro ⟨j, o, hj, hle, hend⟩
    refine ⟨j, convertEntry o j, by rw [convert_getElem?, hj, Option.map_some], by omega, ?_⟩
    rwa [convertEntry_name]
  · rintro ⟨j, g, hj, hle, hend⟩
    rw [convert_getElem?] at hj
    obtain ⟨o, ho, rfl⟩ := Option.map_eq_some_iff.1 hj
    rw [convertEntry_name] at hend
    exact ⟨j, o, ho, by omega, hend⟩

/-- The name and the value in a word. -/
theorem Gives.reads (h : Gives opts argv k text i arg) :
    ∃ o, opts[i]? = some o ∧ o.longopt = some (argvName text) ∧
      ((o.hasParam = false ∧ hasEqual text = none ∧ arg = none) ∨
        (o.hasParam = true ∧ arg ≠ none ∧
          (hasEqual text = arg ∨ hasEqual text = none ∧ argv[k + 1]? = arg))) := by
  have hfind : ∀ {name : CString}, ch '=' ∉ name.bytes → argvLen name = name.bytes.length := fun hno =>
    List.findIdx_eq_length_of_false fun x hx => beq_false_of_ne fun h => hno (h ▸ hx)
  have hplain : ∀ {name : CString}, ch '=' ∉ name.bytes → argvName name = name ∧ hasEqual name = none := by
    intro name hno
    have hlen : argvLen name = name.length := hfind hno
    refine ⟨?_, ?_⟩
    · rw [argvName, hlen]
      exact CString.take_of_length_le le_rfl
    · rw [hasEqual, if_neg (by omega)]
  cases h with
  | flag hi hname hno hparam =>
    obtain ⟨hn, heq⟩ := hplain hno
    exact ⟨_, hi, hn.symm ▸ hname, Or.inl ⟨hparam, heq, rfl⟩⟩
  | next hi hname hno hparam hnext =>
    obtain ⟨hn, heq⟩ := hplain hno
    exact ⟨_, hi, hn.symm ▸ hname, Or.inr ⟨hparam, by simp, Or.inr ⟨heq, hnext⟩⟩⟩
  | @value _ o name _ v hi hname hno hparam htext =>
    have hlen : argvLen text = name.bytes.length := by
      have hno' : name.bytes.findIdx (· == ch '=') = name.bytes.length := hfind hno
      rw [argvLen, htext, List.findIdx_append, hno', if_neg (lt_irrefl _), List.findIdx_cons]
      simp
    have hn : argvName text = name := by
      refine CString.ext ?_
      show text.bytes.take (argvLen text) = name.bytes
      rw [hlen, htext, List.take_left]
    have hval : hasEqual text = some v := by
      have hlt : argvLen text < text.length := by
        rw [hlen, CString.length, htext, List.length_append, List.length_cons]
        omega
      rw [hasEqual, if_pos hlt]
      refine congrArg some (CString.ext ?_)
      show text.bytes.drop (argvLen text + 1) = v.bytes
      rw [hlen, htext, ← List.drop_drop, List.drop_left]
      rfl
    exact ⟨o, hi, hn.symm ▸ hname, Or.inr ⟨hparam, by simp, Or.inl hval⟩⟩

/-- No other entry matches the name of an entry. -/
theorem onlyAt {o : ProgramOpt} (hfree : PrefixFree opts) (hi : opts[i]? = some o)
    (hname : o.longopt = some (argvName text)) : OnlyAt text (convert opts) i := by
  intro j g nm hj hnm hpre
  rw [convert_getElem?] at hj
  obtain ⟨x, hx, rfl⟩ := Option.map_eq_some_iff.1 hj
  rw [convertEntry_name] at hnm
  exact (hfree i j o x _ nm hi hx hname hnm hpre).symm

/-- In a search that ends, an entry that is not found stands behind one
without a long name. -/
theorem hidden_of_not_inReach (h : ¬ InReach opts i) :
    ∃ j g, j < i ∧ (convert opts)[j]? = some g ∧ g.name = none := by
  simp only [InReach, not_forall, not_not] at h
  obtain ⟨j, x, hlt, hx, hnone⟩ := h
  exact ⟨j, convertEntry x j, hlt, by rw [convert_getElem?, hx, Option.map_some], (convertEntry_name x j).trans hnone⟩

theorem findSmall_badch {o : ProgramOpt} : findSmall opts BADCH = some (o, i) ↔
    opts[i]? = some o ∧ o.smallopt = ch '?' ∧ ∀ j x, j < i → opts[j]? = some x → x.smallopt ≠ ch '?' := by
  have hch : ∀ x : ProgramOpt, (charInt x.smallopt == BADCH) = true ↔ x.smallopt = ch '?' := by
    intro x
    rw [beq_iff_eq]
    constructor
    · intro h
      exact UInt8.toNat_inj.1 (toNat_of_charInt (by decide) h)
    · intro h
      rw [h]
      decide
  rw [findSmall, List.find?_eq_some_iff_getElem]
  constructor
  · rintro ⟨hp, j, hj, heq, hbefore⟩
    have hlt : j < opts.length := by simpa using hj
    rw [List.getElem_zipIdx, Nat.zero_add] at heq
    obtain ⟨rfl, rfl⟩ := Prod.mk.inj heq
    refine ⟨List.getElem?_eq_getElem hlt, (hch _).1 hp, fun m x hm hx hq => ?_⟩
    obtain ⟨hm', rfl⟩ := List.getElem?_eq_some_iff.1 hx
    have hno := hbefore m hm
    rw [List.getElem_zipIdx, Bool.not_eq_true'] at hno
    exact Bool.eq_false_iff.1 hno ((hch opts[m]).2 hq)
  · rintro ⟨hi, hq, hbefore⟩
    obtain ⟨hlt, rfl⟩ := List.getElem?_eq_some_iff.1 hi
    refine ⟨(hch _).2 hq, i, by simpa using hlt, by rw [List.getElem_zipIdx, Nat.zero_add], fun m hm => ?_⟩
    rw [List.getElem_zipIdx, Bool.not_eq_true']
    exact Bool.eq_false_iff.2 fun h =>
      hbefore m opts[m] hm (List.getElem?_eq_getElem (by omega)) ((hch opts[m]).1 h)

/-- An error is dispatched to an entry without a parameter. -/
theorem dispatch_error : dispatch (findSmall opts BADCH) none = .consumer i arg ↔ ByError opts i ∧ arg = none := by
  constructor
  · intro h
    rcases hfind : findSmall opts BADCH with _ | ⟨o, j⟩
    · rw [hfind] at h
      cases h
    · rw [hfind, dispatch] at h
      split_ifs at h with hparam
      obtain ⟨rfl, rfl⟩ := Event.consumer.inj h
      obtain ⟨hi, hq, hfirst⟩ := findSmall_badch.1 hfind
      exact ⟨⟨o, hi, hq, by simpa using hparam, hfirst⟩, rfl⟩
  · rintro ⟨⟨o, hi, hq, hparam, hfirst⟩, rfl⟩
    rw [findSmall_badch.2 ⟨hi, hq, hfirst⟩, dispatch]
    simp [hparam]

/-! ## A turn at a long option -/

/-- What is known where a call comes upon a long option. -/
theorem at_longText (gOpts : List GetoptOption) (hs : Scans argv s) (h : longText env shortops s = some (k, text)) :
    ∃ s₂, (∀ m, k < m → s₂.nargv[m]? = argv[m]?) ∧ s₂.optind = k + 1 ∧ s₂.optarg = none ∧
      getoptLong env shortops gOpts s =
        (search text 0 gOpts none false).map (outcome env shortops text s₂) := by
  rw [longText] at h
  rcases hint : getoptInternal env shortops s with ⟨r, s₁⟩
  rw [hint] at h
  dsimp only at h
  split_ifs at h with hr
  obtain ⟨rfl, rfl⟩ := Prod.mk.inj (Option.some.inj h)
  obtain ⟨rfl, hp⟩ := hr
  obtain ⟨hs₁, harg⟩ := getoptInternal_scans hint hs (by decide) fun _ => hp
  refine ⟨{ s₁ with optind := s₁.optind + 1, place := EMSG }, fun m hm => hs₁.rest m hm.le, rfl, harg rfl, ?_⟩
  rw [getoptLong, hint]
  simp only [ne_eq, not_true, if_false, if_neg hp]

/-- An option that is not known is answered with '?'. -/
theorem turn_unknown {s₂ : State}
    (hcall : getoptLong env shortops (convert opts) s =
      (search text 0 (convert opts) none false).map (outcome env shortops text s₂))
    (hsearch : search text 0 (convert opts) none false = some (none, false)) (harg : s₂.optarg = none) :
    ∃ s', turn env opts shortops (convert opts) s = some (some (dispatch (findSmall opts BADCH) none), s') := by
  have houtcome : outcome env shortops text s₂ (none, false) =
      (BADCH, none, s₂.fail env shortops (.illoptstring text) 0) := rfl
  refine ⟨s₂.fail env shortops (.illoptstring text) 0, ?_⟩
  rw [turn, hcall, hsearch, Option.map_some, houtcome, Option.bind_some]
  dsimp only
  rw [if_neg (by decide), if_neg (by decide), fail_optarg, harg]

/-- An entry that is found is dispatched, with its argument. -/
theorem turn_found {s₂ : State} {o : ProgramOpt} (h : Gives opts argv k text i arg) (hi : opts[i]? = some o)
    (hcall : getoptLong env shortops (convert opts) s =
      (search text 0 (convert opts) none false).map (outcome env shortops text s₂))
    (hsearch : search text 0 (convert opts) none false = some (some (i, convertEntry o i), false))
    (hnext : s₂.nargv[s₂.optind]? = argv[k + 1]?) (harg : s₂.optarg = none) :
    ∃ s', turn env opts shortops (convert opts) s = some (some (.consumer i arg), s') := by
  obtain ⟨o', hi', hname, hreads⟩ := h.reads
  obtain rfl : o = o' := Option.some.inj (hi.symm.trans hi')
  have hne : o.longopt ≠ none := by simp [hname]
  have hle : i ≤ INT_MAX := by
    rcases search_getElem? hsearch with heq | ⟨j, -, -, hle, -⟩
    · cases heq
    · exact hle
  have hhas := (convertEntry_named hne i).2
  -- the argument that is taken
  have hmatched : ∃ s₃, matched env shortops text i (convertEntry o i) s₂ = (0, some i, s₃) ∧ s₃.optarg = arg ∧
      (o.hasParam = true → arg ≠ none) := by
    rw [matched, hhas, convertEntry_val]
    rcases hreads with ⟨hparam, heq, rfl⟩ | ⟨hparam, hsome, hval⟩
    · have htake : takeArgument text (convertEntry o i) s₂ = s₂ := by
        rw [takeArgument, hhas, hparam]
        rfl
      simp [hparam, heq, htake, harg, no_argument, required_argument]
    · have htake : (takeArgument text (convertEntry o i) s₂).optarg = arg := by
        rw [takeArgument, hhas, hparam]
        rcases hval with heq | ⟨heq, hword⟩
        · obtain ⟨v, rfl⟩ := Option.ne_none_iff_exists'.1 hsome
          simp [heq]
        · simp [heq, hnext, hword]
      simp [hparam, htake, hsome, no_argument, required_argument]
  obtain ⟨s₃, hmatched, hoptarg, hsome⟩ := hmatched
  refine ⟨s₃, ?_⟩
  rw [turn, hcall, hsearch, Option.map_some, Option.bind_some]
  simp only [outcome, hmatched]
  rw [if_neg (by decide), if_pos trivial, resolve_eq hi hne hle, Option.map_some, dispatch, hoptarg]
  by_cases hparam : o.hasParam = true
  · simp [hsome hparam]
  · simp [hparam]

/-- A turn goes out of bounds in the search only. -/
theorem turn_ne_none (h : getoptLong env shortops (convert opts) s ≠ none) :
    turn env opts shortops (convert opts) s ≠ none := by
  obtain ⟨⟨c, idx, s'⟩, hcall⟩ := Option.ne_none_iff_exists'.1 h
  rw [turn, hcall, Option.bind_some]
  dsimp only
  split_ifs with hend hlong
  · simp
  · subst hlong
    have hres : ∃ opt, resolve opts (convert opts) idx = some opt := by
      rcases hint : getoptInternal env shortops s with ⟨r, s₁⟩
      rw [getoptLong, hint] at hcall
      dsimp only at hcall
      split_ifs at hcall with hr hp
      · exact absurd (Prod.mk.inj (Option.some.inj hcall)).1 (getoptInternal_ne_zero hint)
      · exact absurd (Prod.mk.inj (Option.some.inj hcall)).1 (by decide)
      · obtain ⟨⟨found, ambiguous⟩, hsearch, hout⟩ := Option.map_eq_some_iff.1 hcall
        rcases ambiguous with _ | _
        · rcases found with _ | ⟨i, g⟩
          · exact absurd (Prod.mk.inj hout).1 (by decide)
          · obtain rfl := matched_zero hout
            obtain ⟨j, rfl, hj, hle, hname⟩ := (search_getElem? hsearch).resolve_left (by simp)
            rw [convert_getElem?] at hj
            obtain ⟨o, ho, rfl⟩ := Option.map_eq_some_iff.1 hj
            rw [convertEntry_name] at hname
            exact ⟨_, by rw [Nat.zero_add] at hle ⊢; exact resolve_eq ho hname hle⟩
        · exact absurd (Prod.mk.inj hout).1 (by decide)
    obtain ⟨opt, hopt⟩ := hres
    simp [hopt]
  · simp

/-- A turn that comes upon an option does not go out of bounds exactly if the
search has an entry to end at. -/
theorem turn_ne_none_iff (hs : Scans argv s) (h : longText env shortops s = some (k, text)) :
    turn env opts shortops (convert opts) s ≠ none ↔ Bounded opts text := by
  obtain ⟨s₂, -, -, -, hcall⟩ := at_longText (convert opts) hs h
  have hends : (search text 0 (convert opts) none false).isSome ↔ Ends text 0 (convert opts) := search_isSome
  rw [bounded_iff, ← hends, ← Option.ne_none_iff_isSome]
  constructor
  · intro hturn hsearch
    rw [hsearch] at hcall
    exact hturn (by rw [turn, hcall]; rfl)
  · intro hsearch
    refine turn_ne_none ?_
    rw [hcall]
    simpa using hsearch

/-- **A turn at an occurrence.** Its consumer is called if its entry is found,
or if it is the one that errors go to. -/
theorem turn_gives_iff (hfree : PrefixFree opts) (hs : Scans argv s)
    (hlong : longText env shortops s = some (k, text)) (h : Gives opts argv k text i arg) (hb : Bounded opts text) :
    (∃ s', turn env opts shortops (convert opts) s = some (some (.consumer i arg), s')) ↔
      InReach opts i ∨ ByError opts i := by
  obtain ⟨o, hi, hname, hreads⟩ := h.reads
  obtain ⟨s₂, hrest, hopt, harg, hcall⟩ := at_longText (convert opts) hs hlong
  have honly := onlyAt hfree hi hname
  have hentry : (convert opts)[i]? = some (convertEntry o i) := by rw [convert_getElem?, hi, Option.map_some]
  have hsome : search text 0 (convert opts) none false ≠ none :=
    Option.ne_none_iff_isSome.2 (search_isSome.2 (bounded_iff.1 hb))
  by_cases hreach : InReach opts i
  · refine iff_of_true ?_ (Or.inl hreach)
    have hbefore : ∀ j x, j < i → (convert opts)[j]? = some x → x.name ≠ none := by
      intro j g hlt hg
      rw [convert_getElem?] at hg
      obtain ⟨x, hx, rfl⟩ := Option.map_eq_some_iff.1 hg
      rw [convertEntry_name]
      exact hreach j x hlt hx
    have hsearch := (search_found hentry ((convertEntry_name o i).trans hname) (List.prefix_refl _) honly
      hbefore).resolve_left hsome
    exact turn_found h hi hcall hsearch (by rw [hopt]; exact hrest _ (Nat.lt_succ_self k)) harg
  · have hsearch := (search_hidden honly (hidden_of_not_inReach hreach)).resolve_left hsome
    obtain ⟨s', hturn⟩ := turn_unknown hcall hsearch harg
    rw [hturn]
    constructor
    · rintro ⟨s'', heq⟩
      have hev : some (dispatch (findSmall opts BADCH) none) = some (.consumer i arg) :=
        (Prod.mk.inj (Option.some.inj heq)).1
      exact Or.inr (dispatch_error.1 (Option.some.inj hev)).1
    · rintro (hr | herr)
      · exact absurd hr hreach
      · have hnone : arg = none := by
          obtain ⟨o', hi', -, hparam, -⟩ := herr
          obtain rfl : o = o' := Option.some.inj (hi.symm.trans hi')
          rcases hreads with ⟨-, -, hnone⟩ | ⟨hparam', -, -⟩
          · exact hnone
          · rw [hparam] at hparam'
            cases hparam'
        exact ⟨s', by rw [dispatch_error.2 ⟨herr, hnone⟩]⟩

/-! ## Every occurrence -/

/-- A turn is bounded where the call comes upon no option. -/
theorem turn_of_no_longText (h : longText env shortops s = none) :
    turn env opts shortops (convert opts) s ≠ none := by
  refine turn_ne_none ?_
  rw [longText] at h
  rcases hint : getoptInternal env shortops s with ⟨r, s₁⟩
  rw [hint] at h
  rw [getoptLong, hint]
  dsimp only at h ⊢
  by_cases hr : r = -2
  · by_cases hp : s₁.place = EMSG
    · rw [if_neg (not_not.2 hr), if_pos hp]
      simp
    · rw [if_pos ⟨hr, hp⟩] at h
      cases h
  · rw [if_pos hr]
    simp

/-- Neither `POSIXLY_CORRECT` nor a change of `mowgli_opterr`. -/
def exampleEnv : Env := ⟨false, true⟩

/-- "b". -/
def exampleName : CString := ⟨[ch 'b'], by decide⟩

/-- The arguments `--b`. -/
def exampleArgv : List CString := [⟨[ch 'p'], by decide⟩, ⟨[ch '-', ch '-', ch 'b'], by decide⟩]

/-- An entry with a long name, and one with a short name. -/
def endedOpts : List ProgramOpt := [⟨some exampleName, 0, false⟩, ⟨none, ch 'x', false⟩]

/-- The same entries in the other order. -/
def gapOpts : List ProgramOpt := [⟨none, ch 'x', false⟩, ⟨some exampleName, 0, false⟩]

/-- The only word that is a long option. -/
theorem exampleArgv_word (h : IsWord exampleArgv k text) : k = 1 ∧ text = exampleName := by
  obtain ⟨-, w, hw, hbytes⟩ := h
  rcases k with _ | _ | k
  · obtain rfl := Option.some.inj hw
    cases hbytes
  · obtain rfl := Option.some.inj hw
    exact ⟨rfl, CString.ext (List.cons.inj (List.cons.inj hbytes).2).2.symm⟩
  · cases hw

theorem endedOpts_longopt {o : ProgramOpt} {name : CString} (hi : endedOpts[i]? = some o)
    (hname : o.longopt = some name) : i = 0 := by
  rcases i with _ | _ | i
  · rfl
  · obtain rfl := Option.some.inj hi
    cases hname
  · cases hi

theorem endedOpts_prefixFree : PrefixFree endedOpts := fun _ _ _ _ _ _ hi hj ha hb _ =>
  (endedOpts_longopt hi ha).trans (endedOpts_longopt hj hb).symm

end ProgramOpts

end Mowgli
