import Mowgli.Ext.ProgramOpts.Occurrences
import Mowgli.Ext.ProgramOpts.Permute
/-!
# Tables that are read as they are meant

In a plain table no entry with a long name stands behind one without, and no
short name is a character that the string of short options has another use
for, or one that is -1 or -2 as a `char`. The array and the string that are
made of it say of each option what the table says, so the calls come to every
occurrence (`reached_occurrence`), and each reaches its consumer.
-/

namespace Mowgli

namespace Getopt

variable {env : Env} {options : CString} {longOptions : List GetoptOption} {a : CString}

/-! ## The candidates of a search -/

/-- The name of the entry begins with the name in the word. -/
def Matches (a : CString) (o : GetoptOption) : Prop := ∃ name, o.name = some name ∧ (argvName a).bytes <+: name.bytes

/-- No entry with a name stands behind one without. -/
def Gapless (os : List GetoptOption) : Prop := os.Pairwise fun x y => x.name = none → y.name = none

/-- **The search finds an entry with a required argument** if there are candidates, and all of
them have one. -/
theorem search_required {r : Option (ℕ × GetoptOption) × Bool} : ∀ {i : ℕ} {os : List GetoptOption}
    {found : Option (ℕ × GetoptOption)} {ambiguous : Bool}, search a i os found ambiguous = some r →
      Gapless os → (∀ o ∈ os, o.name ≠ some (argvName a)) → (∀ o ∈ os, o.val = 0) → (∀ o, found.map Prod.snd = some o → o.val = 0) →
        ((∃ k o, r = (some (k, o), false) ∧ o.hasArg = required_argument) ↔
          ambiguous = false ∧ (found ≠ none ∨ ∃ o ∈ os, Matches a o) ∧
            (∀ o, found.map Prod.snd = some o → o.hasArg = required_argument) ∧ ∀ o ∈ os, Matches a o → o.hasArg = required_argument)
  | _, [], _, _, h, _, _, _, _ => by simp [search] at h
  | i, o :: os, found, ambiguous, h, hgap, hexact, hval, hfound => by
    rw [Gapless, List.pairwise_cons] at hgap
    rw [List.forall_mem_cons] at hexact hval
    by_cases hi : INT_MAX < i
    · rw [search_of_lt hi] at h
      cases h
    rcases hname : o.name with _ | name
    · rw [search_unnamed (not_lt.1 hi) hname] at h
      obtain rfl := Option.some.inj h
      have hnone : ∀ x ∈ o :: os, ¬ Matches a x := by
        rintro x hx ⟨name, hx', -⟩
        rcases List.mem_cons.1 hx with rfl | hx
        · rw [hname] at hx'
          cases hx'
        · rw [hgap.1 x hx hname] at hx'
          cases hx'
      rcases found with _ | ⟨k, f⟩
      · simp only [Prod.mk.injEq, reduceCtorEq, false_and, exists_false, ne_eq, not_true_eq_false, false_or, false_iff]
        rintro ⟨-, ⟨x, hx, hmatch⟩, -⟩
        exact hnone x hx hmatch
      · simp only [Prod.mk.injEq, Option.some.injEq]
        constructor
        · rintro ⟨k', f', ⟨⟨rfl, rfl⟩, rfl⟩, hreq⟩
          refine ⟨rfl, Or.inl (by simp), ?_, fun x hx hmatch => absurd hmatch (hnone x hx)⟩
          rintro o ⟨⟩
          exact hreq
        · rintro ⟨rfl, -, hreq, -⟩
          exact ⟨k, f, ⟨⟨rfl, rfl⟩, rfl⟩, hreq f rfl⟩
    by_cases hpre : (argvName a).bytes <+: name.bytes
    · have hmatch : Matches a o := ⟨name, hname, hpre⟩
      have hno : name.length ≠ argvLen a % 4294967296 := fun heq =>
        hexact.1 (hname.trans (congrArg some ((exact_iff hpre).1 heq).1))
      rw [search.eq_def] at h
      simp only [if_neg hi, hname] at h
      rw [if_neg (not_not.2 (strncmp_argvName.2 hpre)), if_neg hno] at h
      rcases found with _ | ⟨k, f⟩
      · rw [search_required h hgap.2 hexact.2 hval.2 (by rintro x ⟨⟩; exact hval.1)]
        simp only [List.exists_mem_cons_iff, List.forall_mem_cons, hmatch, forall_true_left, true_or, or_true, ne_eq,
          reduceCtorEq, not_false_eq_true, Option.map_some, Option.map_none, Option.some.injEq, forall_eq', IsEmpty.forall_iff,
          implies_true, true_and]
      · have hsame : identicalInterpretation o f = (o.hasArg == f.hasArg) := by
          rw [identicalInterpretation, hval.1, hfound f rfl, beq_self_eq_true, Bool.and_true]
        rw [search_required h hgap.2 hexact.2 hval.2 hfound, hsame]
        simp only [Bool.or_eq_false_iff, Bool.not_eq_false', beq_iff_eq, List.exists_mem_cons_iff, List.forall_mem_cons, hmatch,
          forall_true_left, true_or, ne_eq, reduceCtorEq, not_false_eq_true, Option.map_some, Option.some.injEq, forall_eq',
          true_and]
        constructor
        · rintro ⟨⟨hamb, hsame⟩, hreq, hall⟩
          exact ⟨hamb, hreq, hsame.trans hreq, hall⟩
        · rintro ⟨hamb, hreq, hreq', hall⟩
          exact ⟨⟨hamb, hreq'.trans hreq.symm⟩, hreq, hall⟩
    · have hmiss : ¬ Matches a o := by
        rintro ⟨name', hname', hpre'⟩
        exact hpre (Option.some.inj (hname.symm.trans hname') ▸ hpre')
      rw [search_pass hname hpre] at h
      rw [search_required h hgap.2 hexact.2 hval.2 hfound]
      simp only [List.exists_mem_cons_iff, List.forall_mem_cons, hmiss, false_or, IsEmpty.forall_iff, true_and]

/-- A call goes out of bounds in the search only. -/
theorem getoptLong_ne_none {s : State} (h : ∀ a, search a 0 longOptions none false ≠ none) :
    getoptLong env options longOptions s ≠ none := by
  rw [getoptLong]
  rcases getoptInternal env options s with ⟨r, s₁⟩
  dsimp only
  split_ifs
  · exact Option.some_ne_none _
  · exact Option.some_ne_none _
  · exact fun hnone => h _ (Option.map_eq_none_iff.1 hnone)

end Getopt

namespace ProgramOpts

open Getopt

variable {env : Env} {opts : List ProgramOpt} {argv rest os ks ps args : List CString} {w prog text shortops : CString}
variable {s : State} {c : UInt8} {i k : ℕ} {arg : Option CString} {gOpts : List GetoptOption}

/-- A table that is read as it is meant. -/
structure Plain (opts : List ProgramOpt) : Prop where
  letters : ∀ o ∈ opts, o.smallopt ∉ [ch ':', ch ';', ch '+', ch '-', 0xff, 0xfe]
  gapless : opts.Pairwise fun x y => x.longopt = none → y.longopt = none

/-! ## The option letters -/

/-- What follows a letter is none of the characters that say something of it. -/
theorem head_smallBytes : ∀ {opts : List ProgramOpt},
    (∀ o ∈ opts, o.smallopt ∉ [ch ':', ch ';', ch '+', ch '-', 0xff, 0xfe]) →
      (opts.flatMap smallBytes).getD 0 0 ∉ [ch ':', ch ';', ch '+', ch '-']
  | [], _ => by decide
  | o :: opts, h => by
    rw [List.flatMap_cons, smallBytes]
    by_cases h₀ : o.smallopt = 0
    · rw [if_pos h₀, List.nil_append]
      exact head_smallBytes fun x hx => h x (List.mem_cons_of_mem _ hx)
    · rw [if_neg h₀]
      intro hmem
      refine h o List.mem_cons_self ?_
      simp only [List.cons_append, List.getD_cons_zero, List.mem_cons, List.not_mem_nil, or_false] at hmem ⊢
      tauto

/-- Where the string of short options has a letter. -/
theorem dropWhile_smallBytes (hc : c ≠ 0) (hcolon : c ≠ ch ':') : ∀ opts : List ProgramOpt,
    match opts.find? fun o => o.smallopt == c with
    | none => (opts.flatMap smallBytes).dropWhile (· != c) = []
    | some o => ∃ rest ⊆ opts, (opts.flatMap smallBytes).dropWhile (· != c) =
        c :: ((if o.hasParam then [ch ':'] else []) ++ rest.flatMap smallBytes)
  | [] => rfl
  | o :: opts => by
    have ih := dropWhile_smallBytes hc hcolon opts
    by_cases heq : o.smallopt = c
    · rw [List.find?_cons_of_pos (by simpa using heq)]
      refine ⟨opts, List.subset_cons_self .., ?_⟩
      rw [List.flatMap_cons, smallBytes, heq, if_neg hc, List.cons_append, List.dropWhile_cons_of_neg (by simp)]
    · rw [List.find?_cons_of_neg (by simpa using heq)]
      have hskip : ((o :: opts).flatMap smallBytes).dropWhile (· != c) = (opts.flatMap smallBytes).dropWhile (· != c) := by
        rw [List.flatMap_cons]
        refine List.dropWhile_append_of_pos fun x hx => ?_
        rw [smallBytes] at hx
        split_ifs at hx
        · cases hx
        · rcases List.mem_cons.1 hx with rfl | hx
          · simpa using heq
          · rw [List.mem_singleton.1 hx]
            simpa using hcolon.symm
        · rw [List.mem_singleton.1 hx]
          simpa using heq
      rw [hskip]
      split at ih
      · exact ih
      · obtain ⟨rest, hsub, hdrop⟩ := ih
        exact ⟨rest, fun x hx => List.mem_cons_of_mem _ (hsub hx), hdrop⟩

theorem Plain.not_ignoreFirst (h : Plain opts) : ignoreFirst (optstr opts) = false := by
  have hhead := head_smallBytes h.letters
  rw [ignoreFirst, Bool.or_eq_false_iff]
  refine ⟨beq_false_of_ne fun heq => hhead ?_, beq_false_of_ne fun heq => hhead ?_⟩
  · rw [show (opts.flatMap smallBytes).getD 0 0 = ch '-' from heq]
    decide
  · rw [show (opts.flatMap smallBytes).getD 0 0 = ch '+' from heq]
    decide

/-- **A letter is read as the table has it.** -/
theorem Plain.letter_eq (h : Plain opts) (hc : c ≠ 0) : letterKind (optstr opts) c = (tableReading opts).letter c := by
  have hfind : ∀ o, opts.find? (fun o => o.smallopt == c) = some o → o ∈ opts ∧ o.smallopt = c := fun o ho =>
    ⟨List.mem_of_find?_eq_some ho, by simpa using List.find?_some ho⟩
  rw [letterKind, h.not_ignoreFirst, if_neg Bool.false_ne_true, List.drop_zero, tableReading]
  dsimp only
  by_cases hcolon : c = ch ':'
  · have hnone : opts.find? (fun o => o.smallopt == c) = none := by
      by_contra hne
      obtain ⟨o, hf⟩ := Option.ne_none_iff_exists'.1 hne
      obtain ⟨ho, heq⟩ := hfind o hf
      exact absurd (by rw [heq, hcolon]; decide) (h.letters o ho)
    rw [hnone]
    split
    · rfl
    · rw [if_pos hcolon]
      rfl
  have hdrop := dropWhile_smallBytes hc hcolon opts
  have hbytes : (optstr opts).bytes = opts.flatMap smallBytes := rfl
  rw [hbytes]
  rcases hf : opts.find? (fun o => o.smallopt == c) with _ | o
  · rw [hf] at hdrop
    dsimp only at hdrop
    rw [hdrop, hf]
    rfl
  · rw [hf] at hdrop
    obtain ⟨rest, hsub, hdrop⟩ := hdrop
    have hhead := head_smallBytes fun x hx => h.letters x (hsub hx)
    rw [hdrop, hf, Option.any_some]
    dsimp only
    rw [if_neg hcolon]
    by_cases hparam : o.hasParam = true
    · simp only [hparam, if_true, List.cons_append, List.nil_append, List.getD_cons_zero, List.getD_cons_succ]
      rw [if_neg (fun h => absurd h.2 (by decide)), if_neg (not_not.2 rfl), if_pos (fun heq => hhead (by rw [heq]; decide))]
    · simp only [hparam, if_false, List.nil_append, Bool.false_eq_true]
      rw [if_neg (fun h => hhead (by rw [h.2]; decide)), if_pos (fun heq => hhead (by rw [heq]; decide))]

theorem Plain.letters_eq (h : Plain opts) (rest : List CString) : ∀ cs : List UInt8, 0 ∉ cs →
    (reading (optstr opts) (convert opts)).letters rest cs = (tableReading opts).letters rest cs
  | [], _ => rfl
  | c :: cs, h₀ => by
    rw [List.mem_cons, not_or] at h₀
    have hletter : (reading (optstr opts) (convert opts)).letter c = (tableReading opts).letter c := h.letter_eq (Ne.symm h₀.1)
    rw [Reading.letters, Reading.letters, hletter, h.letters_eq rest cs h₀.2]

/-- No letter of the table comes to a long option. -/
theorem letters_words (rest : List CString) : ∀ cs : List UInt8, ∃ j, (tableReading opts).letters rest cs = .words j
  | [] => ⟨0, rfl⟩
  | c :: cs => by
    have hkind : (tableReading opts).letter c = .required ∨ (tableReading opts).letter c = .plain := by
      rw [tableReading]
      exact ite_eq_or_eq ..
    rw [Reading.letters]
    rcases hkind with hkind | hkind
    · rw [hkind]
      exact ⟨_, rfl⟩
    · rw [hkind]
      exact letters_words rest cs

theorem Plain.tail_eq (h : Plain opts) (w : CString) (rest : List CString) :
    (reading (optstr opts) (convert opts)).tail w rest = (tableReading opts).tail w rest := by
  rw [Reading.tail, Reading.tail, h.letters_eq rest _ (w.drop 1).nul_free]

/-! ## The long options -/

theorem Plain.inReach (h : Plain opts) {o : ProgramOpt} (hi : opts[i]? = some o) (hname : o.longopt ≠ none) : InReach opts i := by
  intro j x hlt hj hnone
  obtain ⟨hjlt, rfl⟩ := List.getElem?_eq_some_iff.1 hj
  obtain ⟨hilt, rfl⟩ := List.getElem?_eq_some_iff.1 hi
  exact hname (List.pairwise_iff_getElem.1 h.gapless j i hjlt hilt hlt hnone)

theorem mem_convert {g : GetoptOption} : g ∈ convert opts ↔ ∃ i o, opts[i]? = some o ∧ convertEntry o i = g := by
  rw [List.mem_iff_getElem?]
  refine exists_congr fun i => ?_
  rw [convert_getElem?, Option.map_eq_some_iff]

theorem Plain.gapless_convert (h : Plain opts) : Gapless (convert opts) := by
  refine List.pairwise_iff_getElem.2 fun j i hj hi hlt hnone => ?_
  have hentry : ∀ n (hn : n < (convert opts).length), ∃ o, opts[n]? = some o ∧ (convert opts)[n] = convertEntry o n := by
    intro n hn
    have hget : (convert opts)[n]? = some (convert opts)[n] := List.getElem?_eq_getElem hn
    rw [convert_getElem?, Option.map_eq_some_iff] at hget
    obtain ⟨o, ho, heq⟩ := hget
    exact ⟨o, ho, heq.symm⟩
  obtain ⟨x, hx, hjx⟩ := hentry j hj
  obtain ⟨y, hy, hiy⟩ := hentry i hi
  rw [hjx, convertEntry_name] at hnone
  rw [hiy, convertEntry_name]
  by_contra hname
  exact h.inReach hy hname j x hlt hx hnone

theorem argvName_of_no_equal (h : hasEqual text = none) : argvName text = text := by
  rw [hasEqual] at h
  split_ifs at h with hlt
  exact CString.take_of_length_le (not_lt.1 hlt)

theorem mem_candidates {o : ProgramOpt} :
    o ∈ candidates opts text ↔ o ∈ opts ∧ ∃ name, o.longopt = some name ∧ text.bytes <+: name.bytes := by
  rw [candidates, List.mem_filter, Option.any_eq_true]
  simp only [List.isPrefixOf_iff_prefix]

/-- What the table says of a long option without '='. -/
theorem takesNext_iff (h : hasEqual text = none) :
    (tableReading opts).takesNext text = true ↔
      (∃ o, o ∈ candidates opts text) ∧ ∀ o ∈ candidates opts text, o.hasParam = true := by
  rw [tableReading]
  dsimp only
  rw [h, Option.isNone_none, Bool.true_and, Bool.and_eq_true, Bool.not_eq_true', List.isEmpty_eq_false_iff_exists_mem,
    List.all_eq_true]

/-- **A long option is read as the table has it**, if it can be looked for. -/
theorem Plain.takesNext_eq (h : Plain opts) (hfree : PrefixFree opts)
    (hsome : search text 0 (convert opts) none false ≠ none) :
    longTakes (convert opts) text = (tableReading opts).takesNext text := by
  obtain ⟨r, hr⟩ := Option.ne_none_iff_exists'.1 hsome
  rcases heq : hasEqual text with _ | v
  · have hname := argvName_of_no_equal heq
    have htakes : longTakes (convert opts) text = true ↔
        ∃ k o, r = (some (k, o), false) ∧ o.hasArg = required_argument := by
      rw [longTakes_iff hr, heq, and_iff_right rfl]
    have hhas : ∀ {i : ℕ} {o : ProgramOpt}, o.longopt ≠ none → ((convertEntry o i).hasArg = required_argument ↔ o.hasParam = true) := by
      intro i o hnamed
      rw [(convertEntry_named hnamed i).2]
      by_cases hparam : o.hasParam = true
      · simp [hparam]
      · simp [hparam, no_argument, required_argument]
    rw [Bool.eq_iff_iff, htakes, takesNext_iff heq]
    by_cases hexact : ∃ (i : ℕ) (o : ProgramOpt), opts[i]? = some o ∧ o.longopt = some (argvName text)
    · -- the entry with this name is the only candidate
      obtain ⟨i, o, hi, hlong⟩ := hexact
      have hnamed : o.longopt ≠ none := by simp [hlong]
      have hbefore : ∀ j g, j < i → (convert opts)[j]? = some g → g.name ≠ none := by
        intro j g hlt hg
        rw [convert_getElem?] at hg
        obtain ⟨x, hx, rfl⟩ := Option.map_eq_some_iff.1 hg
        rw [convertEntry_name]
        exact h.inReach hi hnamed j x hlt hx
      have hentry : (convert opts)[i]? = some (convertEntry o i) := by rw [convert_getElem?, hi, Option.map_some]
      have hfound := (search_found hentry ((convertEntry_name o i).trans hlong) (List.prefix_refl _) (onlyAt hfree hi hlong)
        hbefore).resolve_left hsome
      obtain rfl := Option.some.inj (hr.symm.trans hfound)
      have hcand : ∀ x, x ∈ candidates opts text ↔ x = o := by
        intro x
        rw [mem_candidates]
        constructor
        · rintro ⟨hx, name, hxname, hpre⟩
          obtain ⟨j, hj⟩ := List.mem_iff_getElem?.1 hx
          obtain rfl := hfree i j o x _ name hi hj hlong hxname (hname.symm ▸ hpre)
          exact Option.some.inj (hj.symm.trans hi)
        · rintro rfl
          exact ⟨List.mem_of_getElem? hi, text, hname ▸ hlong, List.prefix_rfl⟩
      simp only [hcand, exists_eq, true_and, forall_eq, Prod.mk.injEq, Option.some.injEq, and_true]
      rw [← hhas (i := i) hnamed]
      constructor
      · rintro ⟨k, g, ⟨-, rfl⟩, hreq⟩
        exact hreq
      · exact fun hreq => ⟨i, _, ⟨rfl, rfl⟩, hreq⟩
    · have hno : ∀ g ∈ convert opts, g.name ≠ some (argvName text) := by
        rintro g hg hgname
        obtain ⟨i, o, hi, rfl⟩ := mem_convert.1 hg
        exact hexact ⟨i, o, hi, (convertEntry_name o i).symm.trans hgname⟩
      have hval : ∀ g ∈ convert opts, g.val = 0 := by
        rintro g hg
        obtain ⟨i, o, -, rfl⟩ := mem_convert.1 hg
        exact convertEntry_val o i
      have hmatch : ∀ (i : ℕ) (o : ProgramOpt), Matches text (convertEntry o i) ↔ ∃ name, o.longopt = some name ∧ text.bytes <+: name.bytes := by
        intro i o
        rw [Matches, convertEntry_name, hname]
      rw [search_required hr h.gapless_convert hno hval (fun _ h => absurd h.symm (Option.some_ne_none _))]
      simp only [ne_eq, not_true_eq_false, false_or, true_and, Option.map_none, reduceCtorEq, IsEmpty.forall_iff, implies_true]
      refine and_congr ⟨?_, ?_⟩ ⟨?_, ?_⟩
      · rintro ⟨g, hg, hm⟩
        obtain ⟨i, o, hi, rfl⟩ := mem_convert.1 hg
        exact ⟨o, mem_candidates.2 ⟨List.mem_of_getElem? hi, (hmatch i o).1 hm⟩⟩
      · rintro ⟨o, ho⟩
        obtain ⟨hmem, hm⟩ := mem_candidates.1 ho
        obtain ⟨i, hi⟩ := List.mem_iff_getElem?.1 hmem
        exact ⟨_, mem_convert.2 ⟨i, o, hi, rfl⟩, (hmatch i o).2 hm⟩
      · intro hall o ho
        obtain ⟨hmem, hm⟩ := mem_candidates.1 ho
        obtain ⟨i, hi⟩ := List.mem_iff_getElem?.1 hmem
        obtain ⟨name, hlong, -⟩ := id hm
        exact (hhas (by simp [hlong])).1 (hall _ (mem_convert.2 ⟨i, o, hi, rfl⟩) ((hmatch i o).2 hm))
      · intro hall g hg hm
        obtain ⟨i, o, hi, rfl⟩ := mem_convert.1 hg
        have hm' := (hmatch i o).1 hm
        obtain ⟨name, hlong, -⟩ := id hm'
        exact (hhas (by simp [hlong])).2 (hall o (mem_candidates.2 ⟨List.mem_of_getElem? hi, hm'⟩))
  · have hlong : longTakes (convert opts) text = false := by
      rw [Bool.eq_false_iff, ne_eq, longTakes_iff hr, heq]
      exact fun h => Option.some_ne_none _ h.1
    rw [hlong, tableReading]
    simp [heq]

/-! ## Every occurrence is come to -/

/-- A call in an option comes to the words behind it, or goes on in it. -/
theorem Reached.leaves (hopt : Lettered shortops) (hval : ∀ o ∈ gOpts, o.val ≠ -1)
    (hcalls : ∀ s, Reached env shortops gOpts argv s → getoptLong env shortops gOpts s ≠ none)
    (hends : ((reading shortops gOpts).tail w rest).ends = false) : ∀ (n : ℕ) (s : State), s.place.length ≤ n →
      Reached env shortops gOpts argv s → Inside (reading shortops gOpts) argv s w rest →
        ∃ s', Reached env shortops gOpts argv s' ∧
          Between (reading shortops gOpts) argv s' (rest.drop ((reading shortops gOpts).takes w rest)) ∧
            Found (reading shortops gOpts) gOpts w rest
  | 0, s, hn, _, hs => absurd hn (not_le.2 (length_pos hs.1))
  | n + 1, s, hn, hr, hs => by
    obtain ⟨⟨c, idx, s'⟩, hcall⟩ := Option.ne_none_iff_exists'.1 (hcalls s hr)
    rcases hint : getoptInternal env shortops s with ⟨r, s₁⟩
    obtain ⟨hat, hans⟩ := hs.answer hopt hint
    rcases getoptLong_at hval hint hat hans hcall with ⟨hend, -⟩ | ⟨-, hc, hbetween, hfound⟩ | ⟨hc, hinside, hlt⟩
    · rw [hends] at hend
      cases hend
    · exact ⟨s', hr.tail ⟨c, idx, hcall, hc⟩, hbetween, hfound⟩
    · have hlt' : s'.place.length < s.place.length := hlt
      exact Reached.leaves hopt hval hcalls hends n s' (by omega) (hr.tail ⟨c, idx, hcall, hc⟩) hinside

/-- **Operands and an option are gone over.** -/
theorem Reached.passes (hopt : Lettered shortops) (hperm : permute env shortops = true) (hval : ∀ o ∈ gOpts, o.val ≠ -1)
    (hcalls : ∀ s, Reached env shortops gOpts argv s → getoptLong env shortops gOpts s ≠ none)
    (hr : Reached env shortops gOpts argv s) (hs : Between (reading shortops gOpts) argv s (os ++ w :: rest))
    (hos : ∀ x ∈ os, IsOperand x) (hw : ¬ IsOperand w) (hends : ((reading shortops gOpts).tail w rest).ends = false) :
    ∃ s', Reached env shortops gOpts argv s' ∧
      Between (reading shortops gOpts) argv s' (rest.drop ((reading shortops gOpts).takes w rest)) ∧
        Found (reading shortops gOpts) gOpts w rest := by
  obtain ⟨⟨c, idx, s'⟩, hcall⟩ := Option.ne_none_iff_exists'.1 (hcalls s hr)
  rcases hint : getoptInternal env shortops s with ⟨r, s₁⟩
  have hdrop : (os ++ w :: rest).dropWhile (IsOperand ·) = w :: rest := by
    rw [List.dropWhile_append_of_pos (by simpa using hos), List.dropWhile_cons_of_neg (by simpa using hw)]
  obtain ⟨hnil, -⟩ | ⟨s₀, w', rest', heq, hat, hans⟩ := hs.answers hopt hperm hint
  · rw [hdrop] at hnil
    cases hnil
  · rw [hdrop] at heq
    obtain ⟨rfl, rfl⟩ := List.cons.inj heq
    rcases getoptLong_at hval hint hat hans hcall with ⟨hend, -⟩ | ⟨-, hc, hbetween, hfound⟩ | ⟨hc, hinside, -⟩
    · rw [hends] at hend
      cases hend
    · exact ⟨s', hr.tail ⟨c, idx, hcall, hc⟩, hbetween, hfound⟩
    · exact Reached.leaves hopt hval hcalls hends _ s' le_rfl (hr.tail ⟨c, idx, hcall, hc⟩) hinside

/-- The calls do not answer as if there were no more options. -/
theorem Plain.calls (h : Plain opts) (henv : env.posixlyCorrect = false) :
    Lettered (optstr opts) ∧ permute env (optstr opts) = true ∧ ∀ o ∈ convert opts, o.val ≠ -1 := by
  have hletter : ∀ b ∈ (optstr opts).bytes, b ≠ 0xff ∧ b ≠ 0xfe := by
    intro b hb
    obtain ⟨o, ho, hb⟩ := List.mem_flatMap.1 hb
    have hsmall := h.letters o ho
    rw [smallBytes] at hb
    split_ifs at hb
    · cases hb
    · rcases List.mem_cons.1 hb with rfl | hb
      · exact ⟨fun h => hsmall (by rw [h]; decide), fun h => hsmall (by rw [h]; decide)⟩
      · rw [List.mem_singleton.1 hb]
        decide
    · rw [List.mem_singleton.1 hb]
      exact ⟨fun h => hsmall (by rw [h]; decide), fun h => hsmall (by rw [h]; decide)⟩
  refine ⟨⟨fun hb => (hletter _ hb).1 rfl, fun hb => (hletter _ hb).2 rfl⟩, ?_, ?_⟩
  · rw [permute, henv, h.not_ignoreFirst]
    rfl
  · intro g hg
    obtain ⟨i, o, -, rfl⟩ := mem_convert.1 hg
    rw [convertEntry_val]
    decide

/-- **The calls come to every word that is read**, over operands that are left to pass. -/
theorem Plain.reached (h : Plain opts) (hfree : PrefixFree opts) (henv : env.posixlyCorrect = false)
    (hcalls : ∀ s, Reached env (optstr opts) (convert opts) (prog :: args) s →
      getoptLong env (optstr opts) (convert opts) s ≠ none)
    (hparted : (tableReading opts).Parted (prog :: args) rest ks ps) :
    ∃ s os, Reached env (optstr opts) (convert opts) (prog :: args) s ∧
      Between (reading (optstr opts) (convert opts)) (prog :: args) s (os ++ rest) ∧ ∀ x ∈ os, IsOperand x := by
  obtain ⟨hopt, hperm, hval⟩ := h.calls henv
  induction hparted with
  | program hargv =>
    obtain ⟨rfl, rfl⟩ := List.cons.inj hargv
    exact ⟨State.init (prog :: args), [], .refl, between_init prog args, by simp⟩
  | @operand w rest _ _ _ hw ih =>
    obtain ⟨s, os, hr, hs, hos⟩ := ih
    refine ⟨s, os ++ [w], hr, by rwa [List.append_assoc, List.singleton_append], fun x hx => ?_⟩
    rcases List.mem_append.1 hx with hx | hx
    · exact hos x hx
    · exact List.mem_singleton.1 hx ▸ hw
  | @option w rest _ _ _ hw hends ih =>
    obtain ⟨s, os, hr, hs, hos⟩ := ih
    obtain ⟨s', hr', hs', hfound⟩ := hr.passes hopt hperm hval hcalls hs hos hw (by rwa [h.tail_eq])
    have htakes : (reading (optstr opts) (convert opts)).takes w rest = (tableReading opts).takes w rest := by
      rw [Reading.takes, Reading.takes, h.tail_eq]
      rcases htail : (tableReading opts).tail w rest with k | ⟨k, text⟩
      · rfl
      · have hlong : longTakes (convert opts) text = (tableReading opts).takesNext text :=
          h.takesNext_eq hfree (hfound k text ((h.tail_eq w rest).trans htail))
        rw [Reading.taken, Reading.taken]
        rw [show (reading (optstr opts) (convert opts)).takesNext text = longTakes (convert opts) text from rfl, hlong]
    exact ⟨s', [], hr', by rwa [htakes] at hs', by simp⟩

/-- **The calls come to every occurrence.** -/
theorem Plain.reached_occurrence (h : Plain opts) (hfree : PrefixFree opts) (henv : env.posixlyCorrect = false)
    (hcalls : ∀ s, Reached env (optstr opts) (convert opts) (prog :: args) s →
      getoptLong env (optstr opts) (convert opts) s ≠ none)
    (hread : ReadAt env opts (prog :: args) k) (hword : IsWord (prog :: args) k text) :
    ∃ s, Reached env (optstr opts) (convert opts) (prog :: args) s ∧ longText env (optstr opts) s = some (k, text) := by
  obtain ⟨hopt, hperm, -⟩ := h.calls henv
  obtain ⟨rest, ks, ps, hparted, hk, -⟩ := hread
  obtain ⟨hne, w, hw, hbytes⟩ := hword
  obtain ⟨s, os, hr, hs, hos⟩ := h.reached hfree henv hcalls hparted
  -- the word is the first one that is left
  obtain ⟨rest', rfl⟩ : ∃ rest', rest = w :: rest' := by
    obtain ⟨before, happ⟩ := hparted.suffix
    have hlen : before.length = k := by
      have := congrArg List.length happ
      rw [List.length_append] at this
      omega
    rw [← happ, ← hlen, List.getElem?_append_right le_rfl, Nat.sub_self] at hw
    rcases rest with _ | ⟨x, rest'⟩
    · cases hw
    · exact ⟨rest', by rw [Option.some.inj hw]⟩
  have hchars : w.charAt 0 = ch '-' ∧ w.charAt 1 = ch '-' ∧ w.drop 2 = text := by
    refine ⟨?_, ?_, CString.ext ?_⟩
    · rw [CString.charAt, hbytes]
      rfl
    · rw [CString.charAt, hbytes]
      rfl
    · show w.bytes.drop 2 = text.bytes
      rw [hbytes]
      rfl
  have hoption : ¬ IsOperand w := by
    rintro (hfirst | hsecond)
    · exact hfirst hchars.1
    · rw [hchars.2.1] at hsecond
      exact absurd hsecond (by decide)
  rcases hint : getoptInternal env (optstr opts) s with ⟨r, s₁⟩
  have hdrop : (os ++ w :: rest').dropWhile (IsOperand ·) = w :: rest' := by
    rw [List.dropWhile_append_of_pos (by simpa using hos), List.dropWhile_cons_of_neg (by simpa using hoption)]
  obtain ⟨hnil, -⟩ | ⟨s₀, w', rest₁, heq, hat, hans⟩ := hs.answers hopt hperm hint
  · rw [hdrop] at hnil
    cases hnil
  rw [hdrop] at heq
  obtain ⟨rfl, rfl⟩ := List.cons.inj heq
  have htail : (reading (optstr opts) (convert opts)).tail w rest' = .long 0 text := by
    rw [Reading.tail, if_pos hchars.2.1, hchars.2.2]
  refine ⟨s, hr, ?_⟩
  rw [longText, hint]
  cases hans with
  | inside _ _ _ _ _ hinside =>
    obtain ⟨j, hwords⟩ := letters_words rest' s₁.place.bytes
    rw [htail, h.letters_eq rest' _ s₁.place.nul_free, hwords] at hinside
    cases hinside
  | behind _ _ _ hbehind _ =>
    rw [htail] at hbehind
    cases hbehind
  | long hr hlong hm =>
    rw [htail] at hlong
    obtain ⟨rfl, rfl⟩ := Tail.long.inj hlong
    dsimp only
    have hoptind : s₁.optind = k := by
      have hleft := hat.optind.2
      have hmoved := hm.optind
      omega
    rw [if_pos ⟨hr, hne⟩, hoptind]

theorem nul_free_dash_x : (0 : UInt8) ∉ [ch '-', ch 'x'] := by decide

theorem nul_free_dashes_b : (0 : UInt8) ∉ [ch '-', ch '-', ch 'b'] := by decide

/-- The arguments `x -x --b`. -/
def plainArgs : List CString :=
  [⟨[ch 'x'], CString.nul_free_x⟩, ⟨[ch '-', ch 'x'], nul_free_dash_x⟩, ⟨[ch '-', ch '-', ch 'b'], nul_free_dashes_b⟩]

end ProgramOpts

end Mowgli
