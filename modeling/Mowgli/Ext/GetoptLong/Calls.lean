import Mowgli.Ext.GetoptLong.Model
/-!
# Calls of `mowgli_getopt_long`

A permutation moves words the calls have gone over and no others, so the
words from `mowgli_optind` on are those of the vector the program was given
(`Scans`). A call that does not answer `-1` leaves less to go over.
-/

namespace Mowgli

theorem eq_of_bmod {n m : ℕ} (hn : n < 256) (hm : m < 128) (h : Int.bmod n 256 = m) : n = m := by
  rw [Int.bmod_def] at h
  split_ifs at h
  · omega
  · omega

/-- An `int` that is not negative is the code of its character. -/
theorem toNat_of_charInt {b : UInt8} {m : ℕ} (hm : m < 128) (h : charInt b = m) : b.toNat = m :=
  eq_of_bmod b.toNat_lt hm h

namespace Getopt

variable {env : Env} {options : CString} {s s' : State} {argv : List CString} {c : ℤ}

/-! ## The permutation -/

theorem gcd_eq (a b : ℕ) : gcd a b = Nat.gcd a b := by
  induction a, b using gcd.induct with
  | case1 a => rw [gcd, if_pos rfl, Nat.gcd_zero_right]
  | case2 a b hb hmod => rw [gcd, if_neg hb, if_pos hmod, Nat.gcd_eq_right (Nat.dvd_of_mod_eq_zero hmod)]
  | case3 a b hb hmod ih =>
    rw [gcd, if_neg hb, if_neg hmod, ih, Nat.gcd_comm, ← Nat.gcd_rec, Nat.gcd_comm]

theorem permuteCycle_length (e nn no cs : ℕ) : ∀ (j pos : ℕ) (v : List CString),
    (permuteCycle e nn no cs j pos v).length = v.length
  | 0, _, _ => rfl
  | j + 1, pos, v => by
    rw [permuteCycle, permuteCycle_length, List.length_set, List.length_set]

/-- A cycle that starts before the end of the blocks stays there. -/
theorem permuteCycle_getElem? {e nn no cs k : ℕ} (hcs : cs < e + no) (hk : e + no ≤ k) :
    ∀ (j pos : ℕ) (v : List CString), pos < e + no → (permuteCycle e nn no cs j pos v)[k]? = v[k]?
  | 0, _, _, _ => rfl
  | j + 1, pos, v, hpos => by
    have hpos' : (if e ≤ pos then pos - nn else pos + no) < e + no := by
      split_ifs with h
      · omega
      · omega
    rw [permuteCycle, permuteCycle_getElem? hcs hk j _ _ hpos', List.getElem?_set_ne (by omega),
      List.getElem?_set_ne (by omega)]

@[simp] theorem permuteArgs_length (b e oe : ℕ) (v : List CString) : (permuteArgs b e oe v).length = v.length := by
  rw [permuteArgs]
  generalize List.range _ = l
  induction l generalizing v with
  | nil => rfl
  | cons i l ih => rw [List.foldl_cons, ih, permuteCycle_length]

/-- Two blocks are permuted, and no word after them. -/
theorem permuteArgs_getElem? {b e oe k : ℕ} (he : e < oe) (hk : oe ≤ k) (v : List CString) :
    (permuteArgs b e oe v)[k]? = v[k]? := by
  have hle : gcd (e - b) (oe - e) ≤ oe - e := by
    rw [gcd_eq]
    exact Nat.gcd_le_right _ (by omega)
  have hmem : ∀ i ∈ List.range (gcd (e - b) (oe - e)), i < oe - e := fun i hi =>
    lt_of_lt_of_le (List.mem_range.1 hi) hle
  rw [permuteArgs]
  generalize List.range (gcd (e - b) (oe - e)) = l at hmem
  induction l generalizing v with
  | nil => rfl
  | cons i l ih =>
    have hi := hmem i List.mem_cons_self
    rw [List.foldl_cons, ih _ fun i hi => hmem i (List.mem_cons_of_mem _ hi),
      permuteCycle_getElem? (by omega) (by omega) _ _ _ (by omega)]

/-! ## The state between the calls -/

/-- The words that are left are those of `argv`. The words that were passed
over stand before the options that follow them. -/
structure Scans (argv : List CString) (s : State) : Prop where
  length : s.nargv.length = argv.length
  rest : ∀ k, s.optind ≤ k → s.nargv[k]? = argv[k]?
  nonopts : ∀ e, s.nonoptEnd = some e → e ≤ s.optind ∧ (s.place = EMSG → e < s.optind)

theorem scans_init (argv : List CString) : Scans argv (State.init argv) :=
  ⟨rfl, fun _ _ => rfl, fun _ h => by simp [State.init] at h⟩

/-- The call goes on to a later word, or stays in the word it is in. -/
theorem Scans.move (h : Scans argv s) (hargv : s'.nargv = s.nargv) (hend : s'.nonoptEnd = s.nonoptEnd)
    (hle : s.optind ≤ s'.optind) (hplace : s'.optind = s.optind → s'.place = EMSG → s.place = EMSG) :
    Scans argv s' := by
  refine ⟨hargv ▸ h.length, fun k hk => hargv ▸ h.rest k (hle.trans hk), fun e he => ?_⟩
  obtain ⟨hle', hlt⟩ := h.nonopts e (hend ▸ he)
  refine ⟨hle'.trans hle, fun hp => ?_⟩
  rcases Nat.eq_or_lt_of_le hle with heq | hgt
  · exact heq ▸ hlt (hplace heq.symm hp)
  · exact lt_of_le_of_lt hle' hgt

theorem Scans.passOver (h : Scans argv s) (hp : s.place = EMSG) : Scans argv s.passOver := by
  rw [State.passOver]
  rcases hb : s.nonoptStart with _ | b <;> rcases he : s.nonoptEnd with _ | e
  · exact h.move rfl he.symm (Nat.le_succ _) fun _ _ => hp
  · exact h.move rfl he.symm (Nat.le_succ _) fun _ _ => hp
  · exact h.move rfl he.symm (Nat.le_succ _) fun _ _ => hp
  · have hlt := (h.nonopts e he).2 hp
    refine ⟨(permuteArgs_length ..).trans h.length, fun k hk => ?_, fun e h => by simp at h⟩
    have hk' : s.optind + 1 ≤ k := hk
    exact (permuteArgs_getElem? hlt (by omega) _).trans (h.rest k (by omega))

/-- At an option the words passed over end, if there are any. -/
theorem Scans.markOption (h : Scans argv s) {p : CString} (hp : p ≠ EMSG) :
    Scans argv { s.markOption with place := p } := by
  rw [State.markOption]
  split_ifs with hnone
  · refine ⟨h.length, h.rest, fun e he => ?_⟩
    obtain rfl : s.optind = e := Option.some.inj he
    exact ⟨le_rfl, fun h => absurd h hp⟩
  · exact h.move rfl rfl le_rfl fun _ h => absurd h hp

/-! ## An option letter -/

theorem length_pos {k : CString} (h : k ≠ EMSG) : 0 < k.length :=
  List.length_pos_iff.2 fun hk => h (CString.ext hk)

@[simp] theorem fail_nargv (w : Warning) (o : ℤ) : (s.fail env options w o).nargv = s.nargv := rfl

@[simp] theorem fail_optind (w : Warning) (o : ℤ) : (s.fail env options w o).optind = s.optind := rfl

@[simp] theorem fail_place (w : Warning) (o : ℤ) : (s.fail env options w o).place = s.place := rfl

@[simp] theorem fail_nonoptEnd (w : Warning) (o : ℤ) : (s.fail env options w o).nonoptEnd = s.nonoptEnd := rfl

@[simp] theorem fail_optarg (w : Warning) (o : ℤ) : (s.fail env options w o).optarg = s.optarg := rfl

/-- What a call does at an option letter: it stays in the word, goes on after
the word, or, at `-W`, comes to a long option in the next word. -/
structure AtLetter (c : ℤ) (s s' : State) : Prop where
  nargv : s'.nargv = s.nargv
  nonoptEnd : s'.nonoptEnd = s.nonoptEnd
  moves : (s'.optind = s.optind ∧ s'.place = s.place.drop 1 ∧ s'.place ≠ EMSG ∧ s'.optarg = s.optarg) ∨
    (s.optind < s'.optind ∧ s'.place = EMSG) ∨
    (c = -2 ∧ s'.optind = s.optind + 1 ∧ s'.optind < s'.nargv.length ∧ s'.optarg = s.optarg)

theorem atLetter_nextWord (c : ℤ) (s : State) :
    AtLetter c s ({ s with place := s.place.drop 1 } : State).nextWord := by
  rw [State.nextWord]
  split_ifs with hp
  · exact ⟨rfl, rfl, Or.inr (Or.inl ⟨Nat.lt_succ_self _, hp⟩)⟩
  · exact ⟨rfl, rfl, Or.inl ⟨rfl, rfl, hp, rfl⟩⟩

theorem AtLetter.fail (h : AtLetter c s s') (w : Warning) (o : ℤ) : AtLetter c s (s'.fail env options w o) :=
  ⟨h.nargv, h.nonoptEnd, h.moves⟩

theorem atLetter (h : letter env options s = (c, s')) : AtLetter c s s' := by
  rw [letter] at h
  split at h
  · obtain ⟨rfl, rfl⟩ := Prod.mk.inj h
    exact (atLetter_nextWord _ s).fail ..
  · rename_i oli _
    split_ifs at h with h₁ h₂ h₃ h₄ h₅ h₆ h₇ h₈
    all_goals obtain ⟨rfl, rfl⟩ := Prod.mk.inj h
    · exact (atLetter_nextWord _ s).fail ..
    · exact ⟨rfl, rfl, Or.inl ⟨rfl, rfl, h₃, rfl⟩⟩
    · exact ⟨rfl, rfl, Or.inr (Or.inl ⟨Nat.lt_succ_self _, not_not.1 h₃⟩)⟩
    · exact ⟨rfl, rfl, Or.inr (Or.inr ⟨rfl, rfl, not_le.1 h₄, rfl⟩)⟩
    · exact atLetter_nextWord _ s
    · exact ⟨rfl, rfl, Or.inr (Or.inl ⟨Nat.lt_succ_self _, rfl⟩)⟩
    · exact ⟨rfl, rfl, Or.inr (Or.inl ⟨Nat.lt_succ_self _, not_not.1 h₆⟩)⟩
    · exact ⟨rfl, rfl, Or.inr (Or.inl ⟨Nat.lt_succ_of_lt (Nat.lt_succ_self _), not_not.1 h₆⟩)⟩
    · exact ⟨rfl, rfl, Or.inr (Or.inl ⟨Nat.lt_succ_self _, not_not.1 h₆⟩)⟩

theorem badarg_pos (options : CString) : 0 < BADARG options := by
  rw [BADARG]
  split_ifs
  · decide
  · decide

/-- What is answered for a letter is not zero. -/
theorem letter_ne_zero (h : letter env options s = (c, s')) (hp : s.place ≠ EMSG) : c ≠ 0 := by
  have hne : s.place.charAt 0 ≠ 0 := CString.charAt_of_lt (length_pos hp)
  have hchar : charInt (s.place.charAt 0) ≠ 0 := fun h0 =>
    hne (UInt8.toNat_inj.1 (toNat_of_charInt (by norm_num) h0))
  have hbadarg := (badarg_pos options).ne'
  have hbadch : BADCH ≠ 0 := by decide
  rw [letter] at h
  split at h
  · exact (Prod.mk.inj h).1 ▸ hbadch
  · split_ifs at h
    all_goals rw [← (Prod.mk.inj h).1]
    exacts [hbadch, by decide, hbadarg, by decide, hchar, hchar, hbadarg, hchar, hchar]

/-! ## `getopt_internal` -/

/-- What is known after a letter: the words that are left, and that a long
option that is left to be read finds no argument. -/
theorem AtLetter.scans (h : AtLetter c s s') (hs : Scans argv s) (harg : s.optarg = none)
    (hlong : c = -2 → s'.place ≠ EMSG) : Scans argv s' ∧ (c = -2 → s'.optarg = none) := by
  obtain ⟨hopt, -, hp', harg'⟩ | ⟨hlt, hp'⟩ | ⟨hc, hopt, -, harg'⟩ := h.moves
  · exact ⟨hs.move h.nargv h.nonoptEnd hopt.ge fun _ h => absurd h hp', fun _ => harg'.trans harg⟩
  · exact ⟨hs.move h.nargv h.nonoptEnd hlt.le fun heq _ => absurd heq hlt.ne', fun hc => absurd hp' (hlong hc)⟩
  · exact ⟨hs.move h.nargv h.nonoptEnd (by omega) fun heq _ => by omega, fun _ => harg'.trans harg⟩

theorem drop_ne {k : CString} {n : ℕ} (h : k.charAt n ≠ 0) : k.drop n ≠ EMSG := by
  intro heq
  have hlen : (k.drop n).length = 0 := by rw [heq]; rfl
  refine h (CString.charAt_of_ge ?_)
  have : k.bytes.length - n = 0 := by simpa [CString.drop, CString.length] using hlen
  exact Nat.le_of_sub_eq_zero this

theorem start_scans : ∀ {n : ℕ} {s : State}, start env options n s = (c, s') → Scans argv s → s.place = EMSG →
    s.optarg = none → c ≠ -1 → (c = -2 → s'.place ≠ EMSG) → Scans argv s' ∧ (c = -2 → s'.optarg = none)
  | 0, s, hrun, _, _, _, hc, _ => absurd (Prod.mk.inj hrun).1.symm hc
  | n + 1, s, hrun, hs, hp, harg, hc, hlong => by
    have hmark : s.markOption.optarg = none := by
      rw [State.markOption]
      split_ifs
      · exact harg
      · exact harg
    simp only [start] at hrun
    split_ifs at hrun with hword horder hperm hdash
    · obtain ⟨rfl, rfl⟩ := Prod.mk.inj hrun
      exact ⟨hs.move rfl rfl (Nat.le_succ _) fun _ _ => hp, fun h => absurd h (by decide)⟩
    · refine start_scans hrun (hs.passOver hp) ?_ ?_ hc hlong
      · rw [State.passOver]
        split <;> rfl
      · rw [State.passOver]
        split <;> exact harg
    · exact absurd (Prod.mk.inj hrun).1.symm hc
    · obtain ⟨rfl, rfl⟩ := Prod.mk.inj hrun
      exact ⟨hs.markOption (hlong rfl), fun _ => hmark⟩
    · have hne : (s.nargv.getD s.optind EMSG).drop 1 ≠ EMSG := drop_ne fun h => hword (Or.inr h)
      exact (atLetter hrun).scans (hs.markOption hne) hmark hlong

theorem start_ne_zero : ∀ {n : ℕ} {s : State}, start env options n s = (c, s') → c ≠ 0
  | 0, s, hrun => by
    rw [← (Prod.mk.inj hrun).1]
    decide
  | n + 1, s, hrun => by
    simp only [start] at hrun
    split_ifs at hrun with hword horder hperm hdash
    · rw [← (Prod.mk.inj hrun).1]
      decide
    · exact start_ne_zero hrun
    · rw [← (Prod.mk.inj hrun).1]
      decide
    · rw [← (Prod.mk.inj hrun).1]
      decide
    · exact letter_ne_zero hrun (drop_ne fun h => hword (Or.inr h))

theorem getoptInternal_ne_zero (hrun : getoptInternal env options s = (c, s')) : c ≠ 0 := by
  simp only [getoptInternal] at hrun
  split_ifs at hrun with h₀ hp hp
  · exact start_ne_zero hrun
  · exact letter_ne_zero hrun hp
  · exact start_ne_zero hrun
  · exact letter_ne_zero hrun hp

theorem getoptInternal_scans (hrun : getoptInternal env options s = (c, s')) (hs : Scans argv s) (hc : c ≠ -1)
    (hlong : c = -2 → s'.place ≠ EMSG) : Scans argv s' ∧ (c = -2 → s'.optarg = none) := by
  have hset : ∀ o, s.optind ≤ o → Scans argv { s with optarg := none, optind := o } := fun o ho =>
    hs.move rfl rfl ho fun _ h => h
  simp only [getoptInternal] at hrun
  split_ifs at hrun with h₀ hp hp
  · exact start_scans hrun (hset 1 (by omega)) hp rfl hc hlong
  · exact (atLetter hrun).scans (hset 1 (by omega)) rfl hlong
  · exact start_scans hrun (hset _ le_rfl) hp rfl hc hlong
  · exact (atLetter hrun).scans (hset _ le_rfl) rfl hlong

/-! ## What is left -/

namespace State

/-- The words from `mowgli_optind` on. -/
def left (s : State) : ℕ := s.nargv.length - s.optind

/-- Whether the pointer is to be set to a word that is left. -/
def unread (s : State) : ℕ := if s.place = EMSG ∧ s.optind < s.nargv.length then 1 else 0

/-- There is less to go over in `s'` than in `s`. -/
def Less (s' s : State) : Prop :=
  s'.left < s.left ∨ s'.left = s.left ∧
    (s'.unread < s.unread ∨ s'.unread = s.unread ∧ s'.place.length < s.place.length)

theorem unread_of_ne (h : s.place ≠ EMSG) : s.unread = 0 := if_neg fun h' => h h'.1

theorem unread_of_le (h : s.nargv.length ≤ s.optind) : s.unread = 0 := if_neg fun h' => absurd h'.2 (not_lt.2 h)

theorem Less.of_optind (hlen : s'.nargv.length = s.nargv.length) (h : s.optind < s.nargv.length)
    (hlt : s.optind < s'.optind) : s'.Less s := by
  refine Or.inl ?_
  rw [left, left]
  omega

/-- In a word, with characters gone over. -/
theorem Less.of_place (hlen : s'.nargv.length = s.nargv.length) (hp : s.place ≠ EMSG) (hle : s.optind ≤ s'.optind)
    (hnew : s'.optind = s.optind ∨ s.nargv.length ≤ s.optind → s'.unread = 0)
    (hlt : s'.place.length < s.place.length) : s'.Less s := by
  by_cases h : s.optind < s'.optind ∧ s.optind < s.nargv.length
  · exact Less.of_optind hlen h.2 h.1
  · refine Or.inr ⟨?_, Or.inr ⟨?_, hlt⟩⟩
    · rw [left, left]
      omega
    · rw [unread_of_ne hp, hnew (by omega)]

end State

theorem start_progress : ∀ {n : ℕ} {s : State}, start env options n s = (c, s') →
    n = s.nargv.length - s.optind → c ≠ -1 →
    s'.nargv.length = s.nargv.length ∧ s.optind < s.nargv.length ∧ s.optind ≤ s'.optind ∧
      (s'.optind = s.optind → c = -2 ∨ s'.place ≠ EMSG)
  | 0, s, hrun, _, hc => absurd (Prod.mk.inj hrun).1.symm hc
  | n + 1, s, hrun, hn, hc => by
    have hmark : s.markOption.nargv = s.nargv ∧ s.markOption.optind = s.optind := by
      rw [State.markOption]
      split_ifs
      · exact ⟨rfl, rfl⟩
      · exact ⟨rfl, rfl⟩
    have hover : s.passOver.nargv.length = s.nargv.length ∧ s.passOver.optind = s.optind + 1 := by
      rw [State.passOver]
      split
      · exact ⟨rfl, rfl⟩
      · exact ⟨permuteArgs_length .., rfl⟩
      · exact ⟨rfl, rfl⟩
    simp only [start] at hrun
    split_ifs at hrun with hword horder hperm hdash
    · obtain ⟨rfl, rfl⟩ := Prod.mk.inj hrun
      exact ⟨rfl, by omega, Nat.le_succ _, fun h => by simp at h⟩
    · obtain ⟨hlen, hlt, hle, -⟩ := start_progress hrun (by omega) hc
      exact ⟨hlen.trans hover.1, by omega, by omega, fun h => by omega⟩
    · exact absurd (Prod.mk.inj hrun).1.symm hc
    · obtain ⟨rfl, rfl⟩ := Prod.mk.inj hrun
      exact ⟨congrArg List.length hmark.1, by omega, hmark.2.ge, fun _ => Or.inl rfl⟩
    · have hat := atLetter hrun
      have hlen : s'.nargv.length = s.nargv.length := congrArg List.length (hat.nargv.trans hmark.1)
      have hle : s.optind ≤ s'.optind ∧ (s'.optind = s.optind → s'.place ≠ EMSG) := by
        obtain ⟨hopt, -, hp', -⟩ | ⟨hlt, -⟩ | ⟨-, hopt, -, -⟩ := hat.moves
        · exact ⟨(hopt.trans hmark.2).ge, fun _ => hp'⟩
        · exact ⟨(hmark.2 ▸ hlt).le, fun h => absurd h (hmark.2 ▸ hlt).ne'⟩
        · have hopt' : s'.optind = s.optind + 1 := hopt.trans (by rw [hmark.2])
          exact ⟨by omega, fun h => by omega⟩
      exact ⟨hlen, by omega, hle.1, fun h => Or.inr (hle.2 h)⟩

theorem length_drop_lt {k : CString} (h : k ≠ EMSG) : (k.drop 1).length < k.length := by
  have hpos := length_pos h
  have hlen : (k.drop 1).length = k.length - 1 := List.length_drop ..
  omega

/-- `getopt_internal` sets the pointer to a word that is left, or goes on in
the word it is in. -/
theorem getoptInternal_progress (hrun : getoptInternal env options s = (c, s')) (hc : c ≠ -1) :
    s'.nargv.length = s.nargv.length ∧
      ((s.place = EMSG ∧ s.optind < s.nargv.length ∧ s.optind ≤ s'.optind ∧
          (s'.optind = s.optind → c = -2 ∨ s'.place ≠ EMSG)) ∨
        (s.place ≠ EMSG ∧ s.optind ≤ s'.optind ∧ s'.place ≠ EMSG ∧ s'.place.length < s.place.length) ∨
        (s.place ≠ EMSG ∧ s.optind < s'.optind ∧ s'.place = EMSG) ∨
        (c = -2 ∧ s.optind < s'.optind ∧ s'.optind < s'.nargv.length)) := by
  -- the index is set to 1 if it was 0
  have hset : ∃ o, s.optind ≤ o ∧ getoptInternal env options s =
      if s.place = EMSG then start env options (s.nargv.length - o) { s with optarg := none, optind := o }
      else letter env options { s with optarg := none, optind := o } := by
    by_cases h₀ : s.optind = 0
    · exact ⟨1, by omega, by simp [getoptInternal, h₀]⟩
    · exact ⟨s.optind, le_rfl, by simp [getoptInternal, h₀]⟩
  obtain ⟨o, ho, heq⟩ := hset
  rw [heq] at hrun
  split_ifs at hrun with hp
  · obtain ⟨hlen, hlt, hle, hplace⟩ := start_progress hrun rfl hc
    have hlt' : o < s.nargv.length := hlt
    have hle' : o ≤ s'.optind := hle
    exact ⟨hlen, Or.inl ⟨hp, by omega, by omega, fun h => hplace (by simp only; omega)⟩⟩
  · have hat := atLetter hrun
    refine ⟨congrArg List.length hat.nargv, Or.inr ?_⟩
    obtain ⟨hopt, hdrop, hp', -⟩ | ⟨hlt, hp'⟩ | ⟨hc, hopt, hlt, -⟩ := hat.moves
    · exact Or.inl ⟨hp, ho.trans hopt.ge, hp', hdrop ▸ length_drop_lt hp⟩
    · exact Or.inr (Or.inl ⟨hp, lt_of_le_of_lt ho hlt, hp'⟩)
    · exact Or.inr (Or.inr ⟨hc, by simp only at hopt; omega, hlt⟩)

/-! ## `mowgli_getopt_long` -/

/-- What a call does once a long option is read: it goes on after the word. -/
structure AfterLong (s s' : State) : Prop where
  nargv : s'.nargv = s.nargv
  nonoptEnd : s'.nonoptEnd = s.nonoptEnd
  place : s'.place = EMSG
  optind : s.optind < s'.optind

theorem AfterLong.fail (h : AfterLong s s') (w : Warning) (o : ℤ) : AfterLong s (s'.fail env options w o) :=
  ⟨h.nargv, h.nonoptEnd, h.place, h.optind⟩

theorem afterLong_takeArgument {a : CString} {o : GetoptOption} {s₁ : State} (h : AfterLong s s₁) :
    AfterLong s (takeArgument a o s₁) := by
  rw [takeArgument]
  split_ifs with harg hreq
  · split
    · exact ⟨h.nargv, h.nonoptEnd, h.place, h.optind⟩
    · exact ⟨h.nargv, h.nonoptEnd, h.place, h.optind.trans (Nat.lt_succ_self _)⟩
  · split
    · exact ⟨h.nargv, h.nonoptEnd, h.place, h.optind⟩
    · exact h
  · exact h

/-- An argument that is missing was looked for in the next word. -/
theorem takeArgument_missing {a : CString} {o : GetoptOption} (hreq : o.hasArg = required_argument)
    (hmiss : (takeArgument a o s).optarg = none) : (takeArgument a o s).optind = s.optind + 1 := by
  rw [takeArgument, if_pos (Or.inl hreq)] at hmiss ⊢
  rcases heq : hasEqual a with _ | v
  · simp only [if_pos hreq]
  · simp [heq] at hmiss

theorem afterLong_matched {a : CString} {i : ℕ} {o : GetoptOption} {s₁ : State} (h : AfterLong s s₁) :
    AfterLong s (matched env options a i o s₁).2.2 := by
  have htake := afterLong_takeArgument (a := a) (o := o) h
  simp only [matched]
  split_ifs with hno hmiss
  · exact h.fail ..
  · have hopt := takeArgument_missing hmiss.1 hmiss.2
    have hlt := h.optind
    have hback : AfterLong s { takeArgument a o s₁ with optind := (takeArgument a o s₁).optind - 1 } :=
      ⟨htake.nargv, htake.nonoptEnd, htake.place, by simp only; omega⟩
    exact hback.fail ..
  · exact htake

/-- Zero is answered with the index of the entry. -/
theorem matched_zero {a : CString} {i : ℕ} {o : GetoptOption} {idx : Option ℕ}
    (h : matched env options a i o s = (0, idx, s')) : idx = some i := by
  simp only [matched] at h
  split_ifs at h
  · exact absurd (Prod.mk.inj h).1 ((badarg_pos options).ne')
  · exact absurd (Prod.mk.inj h).1 ((badarg_pos options).ne')
  · exact (Prod.mk.inj (Prod.mk.inj h).2).1.symm

/-- **A call of `mowgli_getopt_long`.** It passes on what `getopt_internal`
answers, or it reads the long option that stands there. -/
theorem getoptLong_cases {longOptions : List GetoptOption} {idx : Option ℕ}
    (hrun : getoptLong env options longOptions s = some (c, idx, s')) (hc : c ≠ -1) :
    ∃ r s₁, getoptInternal env options s = (r, s₁) ∧
      ((r ≠ -2 ∧ r = c ∧ s₁ = s') ∨ (r = -2 ∧ s₁.place ≠ EMSG ∧ AfterLong s₁ s')) := by
  rw [getoptLong] at hrun
  rcases hint : getoptInternal env options s with ⟨r, s₁⟩
  rw [hint] at hrun
  refine ⟨r, s₁, rfl, ?_⟩
  dsimp only at hrun
  split_ifs at hrun with hr hp
  · obtain ⟨rfl, -, rfl⟩ : r = c ∧ none = idx ∧ s₁ = s' := by simpa using hrun
    exact Or.inl ⟨hr, rfl, rfl⟩
  · exact absurd (by simpa using (Prod.mk.inj (Option.some.inj hrun)).1.symm) hc
  · refine Or.inr ⟨not_not.1 hr, hp, ?_⟩
    have hone : AfterLong s₁ { s₁ with optind := s₁.optind + 1, place := EMSG } :=
      ⟨rfl, rfl, rfl, Nat.lt_succ_self _⟩
    obtain ⟨⟨found, ambiguous⟩, -, hres⟩ := Option.map_eq_some_iff.1 hrun
    rcases ambiguous with _ | _
    · rcases found with _ | ⟨i, o⟩
      · obtain ⟨-, -, rfl⟩ := Prod.mk.inj hres |>.imp_right Prod.mk.inj
        exact hone.fail ..
      · have hmatched : AfterLong s₁ (matched env options s₁.place i o _).2.2 := afterLong_matched hone
        rwa [show matched env options s₁.place i o _ = (c, idx, s') from hres] at hmatched
    · obtain ⟨-, -, rfl⟩ := Prod.mk.inj hres |>.imp_right Prod.mk.inj
      exact hone.fail ..

theorem getoptLong_scans {longOptions : List GetoptOption} {idx : Option ℕ}
    (hrun : getoptLong env options longOptions s = some (c, idx, s')) (hc : c ≠ -1) (hs : Scans argv s) :
    Scans argv s' := by
  obtain ⟨r, s₁, hint, ⟨hr, rfl, rfl⟩ | ⟨rfl, hp, hafter⟩⟩ := getoptLong_cases hrun hc
  · exact (getoptInternal_scans hint hs hc fun h => absurd h hr).1
  · have h₁ := (getoptInternal_scans hint hs (by decide) fun _ => hp).1
    exact h₁.move hafter.nargv hafter.nonoptEnd hafter.optind.le fun h => absurd h hafter.optind.ne'

/-- **A call makes progress.** -/
theorem getoptLong_less {longOptions : List GetoptOption} {idx : Option ℕ}
    (hrun : getoptLong env options longOptions s = some (c, idx, s')) (hc : c ≠ -1) : s'.Less s := by
  obtain ⟨r, s₁, hint, ⟨hr, rfl, rfl⟩ | ⟨rfl, hp₁, hafter⟩⟩ := getoptLong_cases hrun hc
  · obtain ⟨hlen, ⟨hp, hlt, hle, hnew⟩ | ⟨hp, hle, hp', hlt⟩ | ⟨hp, hlt, hp'⟩ | ⟨h, -, -⟩⟩ :=
      getoptInternal_progress hint hc
    · rcases Nat.eq_or_lt_of_le hle with heq | hgt
      · have hne := (hnew heq.symm).resolve_left hr
        refine Or.inr ⟨by rw [State.left, State.left, hlen, heq], Or.inl ?_⟩
        rw [State.unread_of_ne hne, State.unread, if_pos ⟨hp, hlt⟩]
        exact Nat.one_pos
      · exact State.Less.of_optind hlen hlt hgt
    · exact State.Less.of_place hlen hp hle (fun _ => State.unread_of_ne hp') hlt
    · exact State.Less.of_place hlen hp hlt.le (fun h => State.unread_of_le (by omega)) (hp' ▸ length_pos hp)
    · exact absurd h hr
  · have hlen' : s'.nargv.length = s₁.nargv.length := congrArg List.length hafter.nargv
    have hopt := hafter.optind
    obtain ⟨hlen, ⟨hp, hlt, hle, -⟩ | ⟨hp, hle, -, -⟩ | ⟨-, -, hp'⟩ | ⟨-, hlt, hlt'⟩⟩ :=
      getoptInternal_progress hint (by decide)
    · exact State.Less.of_optind (hlen'.trans hlen) hlt (by omega)
    · exact State.Less.of_place (hlen'.trans hlen) hp (by omega) (fun h => State.unread_of_le (by omega))
        (hafter.place ▸ length_pos hp)
    · exact absurd hp' hp₁
    · exact State.Less.of_optind (hlen'.trans hlen) (by omega) (by omega)

end Getopt

end Mowgli
