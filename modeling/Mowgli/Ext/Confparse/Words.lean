import Mowgli.Ext.Confparse.Includes
import Mowgli.Ext.Confparse.RoundTrip
/-!
# Unquoted words

The grammar of config files ends an unquoted value at whitespace, of which
`'='` is a part, at a comment and at a double quote. `get_value` goes on at
`'='` and at a double quote, and ends at every slash.
-/

namespace Mowgli

namespace Confparse

open BinTree Cursor

/-- Whitespace other than a comment, a double quote, or one of `;`, `{` and
`}`. -/
def separates (x : UInt8) : Prop :=
  x = ch '\t' ∨ x = ch '\n' ∨ x = ch '\r' ∨ x = ch ' ' ∨ x = ch '=' ∨ x = ch '"' ∨ x = ch ';' ∨ x = ch '{' ∨ x = ch '}'

instance (x : UInt8) : Decidable (separates x) := by
  unfold separates
  infer_instance

/-- A text starts with a comment, of which the first character is `x`. -/
def startsComment (x : UInt8) (t : List UInt8) : Prop :=
  x = ch '#' ∨ x = ch '/' ∧ (t.head? = some (ch '*') ∨ t.head? = some (ch '/'))

instance (x : UInt8) (t : List UInt8) : Decidable (startsComment x t) := by
  unfold startsComment
  infer_instance

/-- An unquoted value as the grammar has it: up to whitespace, a double quote,
or one of `;`, `{` and `}`. -/
def plainRun : List UInt8 → List UInt8
  | [] => []
  | x :: t => if separates x ∨ startsComment x t then [] else x :: plainRun t

/-- What is behind it. -/
def afterRun : List UInt8 → List UInt8
  | [] => []
  | x :: t => if separates x ∨ startsComment x t then x :: t else afterRun t

variable {t u w s : List UInt8} {x : UInt8} {l : ℤ} {p : Place}

theorem plainRun_append (t : List UInt8) : plainRun t ++ afterRun t = t := by
  fun_induction plainRun t with
  | case1 => rfl
  | case2 x t h => rw [afterRun, if_pos h]; rfl
  | case3 x t h ih => rw [afterRun, if_neg h, List.cons_append, ih]

theorem not_separates_of_mem (h : x ∈ plainRun t) : ¬ separates x ∧ x ≠ ch '#' := by
  fun_induction plainRun t with
  | case1 => cases h
  | case2 => cases h
  | case3 y t hy ih =>
    rcases List.mem_cons.1 h with rfl | h
    · exact ⟨fun hs => hy (.inl hs), fun hc => hy (.inr (.inl hc))⟩
    · exact ih h

theorem afterRun_head (h : afterRun t = x :: u) : separates x ∨ startsComment x u := by
  fun_induction afterRun t with
  | case1 => cases h
  | case2 y t hy =>
    obtain ⟨rfl, rfl⟩ := List.cons.inj h
    exact hy
  | case3 y t hy ih => exact ih h

theorem inWord_iff (hx : x ≠ 0) :
    Place.inWord x = true ↔ x ≠ ch '/' ∧ x ≠ ch '#' ∧ (¬ separates x ∨ x = ch '=' ∨ x = ch '"') := by
  have hdec : ∀ x : UInt8, x ≠ 0 → (Place.inWord x = true ↔ x ≠ ch '/' ∧ x ≠ ch '#' ∧ (¬ separates x ∨ x = ch '=' ∨ x = ch '"')) :=
    forall_uint8 (by decide +kernel)
  exact hdec x hx

/-- The word of the parser is the run of the grammar exactly if there is no
slash in it, and neither `'='` nor a double quote behind it. -/
theorem takeWhile_eq_plainRun (ht : 0 ∉ t) :
    t.takeWhile Place.inWord = plainRun t ↔
      ch '/' ∉ plainRun t ∧ ∀ x, (afterRun t).head? = some x → x ≠ ch '=' ∧ x ≠ ch '"' := by
  have hslash : ch '/' ∉ t.takeWhile Place.inWord := fun h => by
    have := List.mem_takeWhile_imp h
    exact absurd this (by decide)
  have hsplit := plainRun_append t
  constructor
  -- the word of the parser has no slash, and does not end at `'='` or a double quote
  · intro heq
    rw [← heq]
    refine ⟨hslash, fun x hx => ?_⟩
    obtain ⟨u, hu⟩ := List.head?_eq_some_iff.1 hx
    have hstop : Place.inWord x = false := by
      have hdrop : t.dropWhile Place.inWord = x :: u := by
        have := List.takeWhile_append_dropWhile (p := Place.inWord) (l := t)
        conv at this => rhs; rw [← hsplit, ← heq, hu]
        exact List.append_cancel_left this
      have := List.head?_dropWhile_not Place.inWord t
      rw [hdrop] at this
      simpa using this
    constructor
    · rintro rfl
      exact absurd hstop (by decide)
    · rintro rfl
      exact absurd hstop (by decide)
  · rintro ⟨hrun, hnext⟩
    have hall : ∀ x ∈ plainRun t, Place.inWord x = true := by
      intro x hx
      obtain ⟨hsep, hhash⟩ := not_separates_of_mem hx
      have hx0 : x ≠ 0 := by
        rintro rfl
        exact ht (hsplit ▸ List.mem_append_left _ hx)
      exact (inWord_iff hx0).2 ⟨fun h => hrun (h ▸ hx), hhash, .inl hsep⟩
    conv_lhs => rw [← hsplit]
    rw [List.takeWhile_append_of_pos hall]
    rcases hrest : afterRun t with _ | ⟨x, u⟩
    · rw [List.takeWhile_nil, List.append_nil]
    · have hx0 : x ≠ 0 := by
        rintro rfl
        refine ht (hsplit ▸ List.mem_append_right _ ?_)
        rw [hrest]
        exact List.mem_cons_self
      have hx := hnext x (by rw [hrest]; rfl)
      have hstop : ¬ Place.inWord x = true := by
        rw [inWord_iff hx0]
        rintro ⟨hs, hh, hsep⟩
        rcases afterRun_head hrest with h | h | h
        · rcases hsep with hsep | hsep | hsep
          · exact hsep h
          · exact hx.1 hsep
          · exact hx.2 hsep
        · exact hh h
        · exact hs h.1
      rw [List.takeWhile_cons_of_neg hstop, List.append_nil]

/-! ## What `get_value` returns -/

/-- At an unquoted word `get_value` returns it, also if it is cut off or a
comment behind it has no end. -/
theorem getWord_string (ht : 0 ∉ t) (hw : t.takeWhile Place.inWord ≠ []) (d : List UInt8) (log : List LogLine) :
    ∃ k cur, (Place.cursor ⟨t, l⟩ d log).getWord = some (some d.length, k, cur) ∧
      stringAt cur.mem d.length = stringOf (t.takeWhile Place.inWord) := by
  have hfuel : t.length < (Place.cursor ⟨t, l⟩ d log).mem.length := by
    rw [cursor_length]
    omega
  have hword := wordLoop_eq hfuel d
  have hsplit : t.takeWhile Place.inWord ++ t.dropWhile Place.inWord = t := List.takeWhile_append_dropWhile
  have hu : 0 ∉ t.dropWhile Place.inWord := fun h => ht (hsplit ▸ List.mem_append_right _ h)
  generalize t.takeWhile Place.inWord = w at hw hword hsplit ⊢
  generalize t.dropWhile Place.inWord = u at hsplit hu
  have hne : ¬ d.length + w.length = d.length := by
    have hpos := List.length_pos_iff.2 hw
    omega
  obtain ⟨e, log', hrest, hskip⟩ := skipWs_cursor (p := ⟨u, l⟩) hu (d ++ w) log
  have hcur : (⟨d ++ (t ++ [0]), d.length + w.length, l, log⟩ : Cursor) = Place.cursor ⟨u, l⟩ (d ++ w) log := by
    rw [Place.cursor, Cursor.mk.injEq, ← hsplit]
    simp
  have hskip' : skipWs { Place.cursor ⟨t, l⟩ d log with pos := d.length + w.length } = _ :=
    (congrArg skipWs hcur).trans hskip
  -- skipping changes nothing in the block, so that the word ends where it did
  obtain ⟨x, v, hx⟩ : ∃ x v, u ++ [0] = x :: v := List.exists_cons_of_ne_nil (by simp)
  have hmem : ((⟨u, l⟩ : Place).skip.cursor (d ++ w ++ e) log').mem = (d ++ w) ++ x :: v := by
    rw [Place.cursor, List.append_assoc _ e, ← List.append_assoc e, ← hrest, hx]
  have hwrite : write ((d ++ w) ++ x :: v) (d.length + w.length) 0 = some ((d ++ w) ++ 0 :: v) := by
    rw [← List.length_append, write, if_pos (by simp), List.set_append_right _ _ le_rfl]
    simp
  have hget : ((d ++ w) ++ x :: v)[d.length + w.length]? = some x := by
    rw [← List.length_append]
    exact getElem?_behind (d ++ w) (x :: v)
  have hstring : stringAt ((d ++ w) ++ 0 :: v) d.length = stringOf w := by
    have hsettled : Settled (d ++ (w ++ 0 :: [])) d.length (stringOf w) := ⟨d, w, [], rfl, rfl, rfl⟩
    have hs := hsettled.stringAt v
    rwa [List.append_assoc, List.append_assoc, List.cons_append, List.nil_append, ← List.append_assoc] at hs
  rw [Cursor.getWord, show (Place.cursor ⟨t, l⟩ d log).pos = d.length from rfl,
    show wordLoop (Place.cursor ⟨t, l⟩ d log).mem _ d.length = _ from hword]
  simp only [Option.bind_eq_bind, Option.bind_some, if_neg hne, Cursor.endWord, hskip', hmem, hget, hwrite]
  split_ifs
  · exact ⟨_, _, rfl, hstring⟩
  · exact ⟨_, _, rfl, hstring⟩

/-- The cursor is at the text `t`, which the block ends with. -/
def Cursor.At (c : Cursor) (t : List UInt8) : Prop :=
  0 ∉ t ∧ ∃ d, c.mem = d ++ (t ++ [0]) ∧ c.pos = d.length

/-- `get_value` returns the value that the grammar has there. -/
def ReturnsRun (c : Cursor) (t : List UInt8) : Prop :=
  ∃ v k c', c.getValue = some (some v, k, c') ∧ (stringAt c'.mem v).bytes = plainRun t

/-- **At an unquoted value** `get_value` returns the run of the grammar
exactly if there is no slash in it, and neither `'='` nor a double quote
behind it. -/
theorem returnsRun_iff {c : Cursor} (hc : c.At t) (hrun : plainRun t ≠ []) :
    ReturnsRun c t ↔ ch '/' ∉ plainRun t ∧ ∀ x, (afterRun t).head? = some x → x ≠ ch '=' ∧ x ≠ ch '"' := by
  obtain ⟨ht, d, hmem, hpos⟩ := hc
  obtain ⟨mem, pos, l, log⟩ := c
  dsimp only at hmem hpos
  subst hmem hpos
  rw [← takeWhile_eq_plainRun ht]
  have hget : Cursor.getValue ⟨d ++ (t ++ [0]), d.length, l, log⟩ = (Place.cursor ⟨t, l⟩ d log).getWord := by
    cases t with
    | nil => exact absurd rfl hrun
    | cons x t =>
      have hx : x ≠ ch '"' := by
        rintro rfl
        rw [plainRun, if_pos (.inl (by decide))] at hrun
        exact hrun rfl
      have hhead : (d ++ (x :: t ++ [0]))[d.length]? = some x := getElem?_behind d _
      rw [Cursor.getValue, hhead, Option.bind_eq_bind, Option.bind_some, if_neg hx]
      rfl
  have hstring : (stringOf (t.takeWhile Place.inWord)).bytes = t.takeWhile Place.inWord :=
    stringOf_bytes fun h => ht (List.takeWhile_subset _ h)
  by_cases hw : t.takeWhile Place.inWord = []
  · -- a slash: nothing is returned
    have hnone : (Place.cursor ⟨t, l⟩ d log).getWord = some (none, 0, Place.cursor ⟨t, l⟩ d log) := by
      have hfuel : t.length < (Place.cursor ⟨t, l⟩ d log).mem.length := by
        rw [cursor_length]
        omega
      have hword := wordLoop_eq hfuel d
      rw [hw, List.length_nil, Nat.add_zero] at hword
      rw [Cursor.getWord, show (Place.cursor ⟨t, l⟩ d log).pos = d.length from rfl,
        show wordLoop (Place.cursor ⟨t, l⟩ d log).mem _ d.length = _ from hword]
      simp only [Option.bind_eq_bind, Option.bind_some, if_true]
    refine ⟨?_, fun heq => absurd (heq.symm.trans hw) hrun⟩
    rintro ⟨v, k, c', hval, -⟩
    rw [hget, hnone] at hval
    cases hval
  · obtain ⟨k, cur, hword, hs⟩ := getWord_string (l := l) ht hw d log
    constructor
    · rintro ⟨v, k', c', hval, hbytes⟩
      rw [hget, hword] at hval
      obtain ⟨hv, hrest⟩ := Prod.mk.inj (Option.some.inj hval)
      obtain ⟨-, rfl⟩ := Prod.mk.inj hrest
      rw [← Option.some.inj hv, hs, hstring] at hbytes
      exact hbytes
    · intro heq
      exact ⟨_, _, _, hget.trans hword, by rw [hs, hstring, heq]⟩

/-! ## Words in a text -/

/-- A word of plain characters: the grammar has it as an unquoted value. -/
structure PlainWord (n : CString) : Prop where
  ne : n.bytes ≠ []
  plain : plainRun n.bytes = n.bytes

theorem plainRun_ne_nil : plainRun t ≠ [] ↔ ∃ x u, t = x :: u ∧ ¬ separates x ∧ ¬ startsComment x u := by
  cases t with
  | nil => simp [plainRun]
  | cons x t =>
    rw [plainRun]
    split_ifs with h
    · simpa using or_iff_not_imp_left.1 h
    · simpa using not_or.1 h

/-- A word goes up to what separates it. -/
theorem plainRun_of_plain (hs : plainRun s = s) (hx : separates x) (u : List UInt8) :
    plainRun (s ++ x :: u) = s ∧ afterRun (s ++ x :: u) = x :: u := by
  induction s with
  | nil => exact ⟨if_pos (.inl hx), if_pos (.inl hx)⟩
  | cons y s ih =>
    rw [plainRun] at hs
    split_ifs at hs with hy
    obtain ⟨hrun, hafter⟩ := ih (List.cons.inj hs).2
    have hy' : ¬ (separates y ∨ startsComment y (s ++ x :: u)) := by
      rintro (h | h | ⟨rfl, h⟩)
      · exact hy (.inl h)
      · exact hy (.inr (.inl h))
      · cases s with
        | nil =>
          rcases h with h | h
          · obtain rfl := Option.some.inj h
            exact absurd hx (by decide)
          · obtain rfl := Option.some.inj h
            exact absurd hx (by decide)
        | cons z s => exact hy (.inr (.inr ⟨rfl, h⟩))
    rw [List.cons_append, plainRun, if_neg hy', afterRun, if_neg hy', hrun, hafter]
    exact ⟨rfl, rfl⟩

theorem skip_plain (hx : ¬ separates x) (hc : ¬ startsComment x u) : Place.skip ⟨x :: u, l⟩ = ⟨x :: u, l⟩ := by
  simp only [separates, startsComment, not_or, not_and] at hx hc
  obtain ⟨htab, hnl, hcr, hsp, heq, -⟩ := hx
  rw [Place.skip, Place.skipFrom, if_neg (by tauto), if_neg hnl, if_neg (by tauto), if_neg (by tauto), if_neg hc.1]

theorem skip_run (h : plainRun t ≠ []) : Place.skip ⟨t, l⟩ = ⟨t, l⟩ := by
  obtain ⟨x, u, rfl, hx, hc⟩ := plainRun_ne_nil.1 h
  exact skip_plain hx hc

theorem head_ne_quote (h : plainRun t ≠ []) : t.head? ≠ some (ch '"') := by
  obtain ⟨x, u, rfl, hx, -⟩ := plainRun_ne_nil.1 h
  intro heq
  obtain rfl := Option.some.inj heq
  exact hx (by decide)

theorem delimiter_run (h : plainRun t ≠ []) : Place.delimiter ⟨t, l⟩ 0 = (0, ⟨t, l⟩) := by
  obtain ⟨x, u, rfl, hx, -⟩ := plainRun_ne_nil.1 h
  have hne : ¬ (x = ch '{' ∨ x = ch ';') := by
    rintro (rfl | rfl)
    · exact hx (by decide)
    · exact hx (by decide)
  simp only [Place.delimiter, if_true, if_neg hne]

/-- In a run there is a slash: the word of the parser goes up to it. -/
theorem dropWhile_slash (ht : 0 ∉ t) (h : ch '/' ∈ plainRun t) :
    ∃ u, t.dropWhile Place.inWord = ch '/' :: u ∧ ¬ startsComment (ch '/') u := by
  induction t with
  | nil => cases h
  | cons x t ih =>
    rw [plainRun] at h
    split_ifs at h with hx
    · cases h
    by_cases hs : x = ch '/'
    · subst hs
      exact ⟨t, List.dropWhile_cons_of_neg (by decide), fun hc => hx (.inr hc)⟩
    · have hword : Place.inWord x = true :=
        (inWord_iff fun h0 => ht (h0 ▸ List.mem_cons_self)).2 ⟨hs, fun hh => hx (.inr (.inl hh)), .inl fun hsep => hx (.inl hsep)⟩
      rw [List.dropWhile_cons_of_pos hword]
      exact ih (fun h0 => ht (List.mem_cons_of_mem _ h0)) ((List.mem_cons.1 h).resolve_left (Ne.symm hs))

/-- A value up to a slash is none, or one with the slash behind it. -/
theorem value_slash (hq : t.head? ≠ some (ch '"')) (hdrop : t.dropWhile Place.inWord = ch '/' :: u)
    (hu : ¬ startsComment (ch '/') u) (l : ℤ) :
    Place.value ⟨t, l⟩ = some (none, 0, ⟨t, l⟩) ∨
      Place.value ⟨t, l⟩ = some (some (stringOf (t.takeWhile Place.inWord)), ch '/', ⟨u, l⟩) := by
  rw [Place.value, if_neg hq, Place.unquoted]
  dsimp only
  split_ifs with hw
  · exact .inl rfl
  · rw [hdrop]
    dsimp only
    rw [skip_plain (by decide) hu, if_pos rfl]
    exact .inr rfl

theorem value_word (hq : t.head? ≠ some (ch '"')) (hw : t.takeWhile Place.inWord = w) (hne : w ≠ [])
    (hdrop : t.dropWhile Place.inWord = x :: u) :
    Place.value ⟨t, l⟩ = if (Place.skip ⟨x :: u, l⟩).rest = x :: u then
      some (some (stringOf w), x, ⟨u, (Place.skip ⟨x :: u, l⟩).curline⟩) else some (some (stringOf w), 0, Place.skip ⟨x :: u, l⟩) := by
  rw [Place.value, if_neg hq, Place.unquoted]
  dsimp only
  rw [hw, if_neg hne, hdrop]

/-- A value is up to a slash: the parser stops there. -/
theorem readData_slash {r : Reader} (hq : r.place.rest.head? ≠ some (ch '"'))
    (hdrop : r.place.rest.dropWhile Place.inWord = ch '/' :: u) (hu : ¬ startsComment (ch '/') u)
    (hl : 0 < r.place.curline) (n : CString) : ∃ r', r.readData n = some (.off r') ∧ r'.place.errored := by
  obtain ⟨⟨t, l⟩, entries⟩ := r
  have herr : ∀ t, ¬ (⟨t, l⟩ : Place).errored := fun t => not_errored hl
  rw [Reader.readData]
  rcases value_slash hq hdrop hu l with hval | hval
  · simp only [hval, Option.bind_eq_bind, Option.bind_some, if_neg (herr _)]
    exact ⟨_, rfl, errored_error _⟩
  · have hdel : Place.delimiter ⟨u, l⟩ (ch '/') = (ch '/', ⟨u, l⟩) := if_neg (by decide)
    simp only [hval, Option.bind_eq_bind, Option.bind_some, if_neg (herr _), hdel]
    rw [Reader.afterData, if_neg (by decide), if_neg (by decide)]
    exact ⟨_, rfl, errored_error _⟩

theorem turn_start (h : plainRun t ≠ []) : (Reader.start t).turn = (Reader.start t).readEntry := by
  have hskip : (Reader.start t).place.skip = (Reader.start t).place := skip_run h
  obtain ⟨x, u, rfl, hx, -⟩ := plainRun_ne_nil.1 h
  have hend : ¬ ((Reader.start (x :: u)).place.rest = [] ∨ (Reader.start (x :: u)).place.errored) := by
    rintro (h | h)
    · cases h
    · exact not_errored Int.one_pos h
  have hbrace : ¬ (Reader.start (x :: u)).place.rest.head? = some (ch '}') := by
    intro h
    obtain rfl := Option.some.inj h
    exact hx (by decide)
  rw [Reader.turn, hskip, if_neg hend, if_neg hbrace]

/-- A name is up to a slash: the parser stops there. -/
theorem turn_slash (h : plainRun t ≠ []) (hdrop : t.dropWhile Place.inWord = ch '/' :: u)
    (hu : ¬ startsComment (ch '/') u) : ∃ r, (Reader.start t).turn = some (.off r) ∧ r.place.errored := by
  have herr : ∀ t, ¬ (⟨t, 1⟩ : Place).errored := fun t => not_errored Int.one_pos
  rw [turn_start h, Reader.readEntry]
  rcases value_slash (head_ne_quote h) hdrop hu 1 with hval | hval
  · simp only [Reader.start, hval, Option.bind_eq_bind, Option.bind_some, if_neg (herr _)]
    exact ⟨_, rfl, errored_error _⟩
  · have hdel : Place.delimiter ⟨u, 1⟩ (ch '/') = (ch '/', ⟨u, 1⟩) := if_neg (by decide)
    simp only [Reader.start, hval, Option.bind_eq_bind, Option.bind_some, if_neg (herr _), Reader.newEntry, hdel]
    rw [Reader.afterName, if_neg (by decide), if_neg (by decide), if_pos (by decide)]
    exact ⟨_, rfl, errored_error _⟩

/-! ## Quoted words -/

/-- Of two backslashes in a word one is left out. -/
theorem decode_pair (s : List UInt8) : Place.decode (ch '\\' :: ch '\\' :: s) = (ch '\\' :: (Place.decode s).1, (Place.decode s).2) :=
  decode_escaped (.inr rfl) s

/-- Another character of a word is read as it is. -/
theorem decode_char (hx : ¬ separates x) (hne : u ≠ []) (h : x = ch '\\' → u.head? ≠ some (ch '"') ∧ u.head? ≠ some (ch '\\')) :
    Place.decode (x :: u) = (x :: (Place.decode u).1, (Place.decode u).2) := by
  obtain ⟨y, u, rfl⟩ := List.exists_cons_of_ne_nil hne
  have hstop : ¬ (x = ch '\r' ∨ x = ch '\n' ∨ x = ch '"') := by
    rintro (rfl | rfl | rfl)
    · exact hx (by decide)
    · exact hx (by decide)
    · exact hx (by decide)
  have hesc : ¬ (x = ch '\\' ∧ (y = ch '"' ∨ y = ch '\\')) := by
    rintro ⟨rfl, rfl | rfl⟩
    · exact (h rfl).1 rfl
    · exact (h rfl).2 rfl
  rw [Place.decode, if_neg hstop, if_neg hesc]

/-- What a backslash in a word escapes: the quote behind the word, or another
backslash. -/
theorem escaped_next (hs : ∀ x ∈ s, ¬ separates x)
    (h : ¬ ((s ++ [ch '"', ch ';']).head? ≠ some (ch '"') ∧ (s ++ [ch '"', ch ';']).head? ≠ some (ch '\\'))) :
    s = [] ∨ ∃ s', s = ch '\\' :: s' := by
  rcases s with _ | ⟨y, s⟩
  · exact .inl rfl
  · refine .inr ⟨s, ?_⟩
    by_contra hne
    refine h ⟨fun hq => ?_, fun hq => hne (congrArg (· :: s) (Option.some.inj hq))⟩
    obtain rfl := Option.some.inj hq
    exact hs _ List.mem_cons_self (by decide)

/-- A word in quotes is read up to the second quote, or, where a backslash
escapes that, to the end of the text. -/
theorem decode_word (hs : ∀ x ∈ s, ¬ separates x) :
    (∃ w, Place.decode (s ++ [ch '"', ch ';']) = (w, [ch '"', ch ';']) ∧ w.length ≤ s.length) ∨
      (Place.decode (s ++ [ch '"', ch ';'])).2 = [] ∧ ch '"' ∈ (Place.decode (s ++ [ch '"', ch ';'])).1 := by
  -- on the length, since two backslashes are read at once
  induction hn : s.length using Nat.strong_induction_on generalizing s with
  | _ n ih =>
    rcases s with _ | ⟨x, s⟩
    · exact .inl ⟨[], decode_stop _, Nat.zero_le _⟩
    rw [List.length_cons] at hn
    obtain ⟨hx, hs'⟩ := List.forall_mem_cons.1 hs
    by_cases hesc : x = ch '\\' → (s ++ [ch '"', ch ';']).head? ≠ some (ch '"') ∧ (s ++ [ch '"', ch ';']).head? ≠ some (ch '\\')
    · rw [List.cons_append, decode_char hx (by simp) hesc]
      rcases ih s.length (by omega) hs' rfl with ⟨w, hw, hle⟩ | ⟨hnil, hmem⟩
      · refine .inl ⟨x :: w, by rw [hw], ?_⟩
        rw [List.length_cons]
        omega
      · exact .inr ⟨hnil, List.mem_cons_of_mem _ hmem⟩
    · rw [Classical.not_imp] at hesc
      obtain ⟨rfl, hesc⟩ := hesc
      rcases escaped_next hs' hesc with rfl | ⟨s, rfl⟩
      -- the quote is escaped, and there is no other
      · exact .inr ⟨rfl, by decide⟩
      · rw [List.length_cons] at hn
        rw [List.cons_append, List.cons_append, decode_pair]
        rcases ih s.length (by omega) (List.forall_mem_cons.1 hs').2 rfl with ⟨w, hw, hle⟩ | ⟨hnil, hmem⟩
        · refine .inl ⟨ch '\\' :: w, by rw [hw], ?_⟩
          simp only [List.length_cons]
          omega
        · exact .inr ⟨hnil, List.mem_cons_of_mem _ hmem⟩

/-- No backslash in the word escapes something. -/
def Unescaped (s : List UInt8) : Prop := ¬ [ch '\\', ch '\\'] <:+: s ∧ s.getLast? ≠ some (ch '\\')

theorem unescaped_cons (x : UInt8) (s : List UInt8) :
    Unescaped (x :: s) ↔ (x = ch '\\' → s ≠ [] ∧ s.head? ≠ some (ch '\\')) ∧ Unescaped s := by
  rw [Unescaped, Unescaped, List.infix_cons_iff, List.cons_prefix_cons]
  rcases s with _ | ⟨y, s⟩
  · simp
  · rw [List.getLast?_cons_cons, List.cons_prefix_cons, List.head?_cons]
    simp only [List.nil_prefix, and_true, Option.some.injEq, ne_eq, reduceCtorEq, not_false_eq_true, true_and]
    rw [not_or, eq_comm (a := x), eq_comm (a := y)]
    tauto

theorem decode_unescaped (hs : ∀ x ∈ s, ¬ separates x) (h : Unescaped s) :
    Place.decode (s ++ [ch '"', ch ';']) = (s, [ch '"', ch ';']) := by
  induction s with
  | nil => exact decode_stop _
  | cons x s ih =>
    obtain ⟨hx, hs'⟩ := List.forall_mem_cons.1 hs
    obtain ⟨hesc, hrest⟩ := (unescaped_cons x s).1 h
    rw [List.cons_append, decode_char hx (by simp), ih hs' hrest]
    intro hback
    obtain ⟨hne, hhead⟩ := hesc hback
    rw [List.head?_append_of_ne_nil _ hne]
    refine ⟨fun hq => ?_, hhead⟩
    exact hs' _ (List.mem_of_head? hq) (by decide)

theorem unescaped_of_decode (hs : ∀ x ∈ s, ¬ separates x) (h : (Place.decode (s ++ [ch '"', ch ';'])).1 = s) :
    Unescaped s := by
  induction s with
  | nil => exact ⟨by simp, by simp⟩
  | cons x s ih =>
    obtain ⟨hx, hs'⟩ := List.forall_mem_cons.1 hs
    by_cases hesc : x = ch '\\' → (s ++ [ch '"', ch ';']).head? ≠ some (ch '"') ∧ (s ++ [ch '"', ch ';']).head? ≠ some (ch '\\')
    · rw [List.cons_append, decode_char hx (by simp) hesc] at h
      refine (unescaped_cons x s).2 ⟨fun hback => ?_, ih hs' (List.cons.inj h).2⟩
      obtain ⟨hquote, hhead⟩ := hesc hback
      rcases s with _ | ⟨y, s⟩
      · exact absurd rfl hquote
      · exact ⟨List.cons_ne_nil _ _, hhead⟩
    · -- then the string is shorter, or the quote is in it
      rw [Classical.not_imp] at hesc
      obtain ⟨rfl, hesc⟩ := hesc
      have hquote : ch '"' ∉ ch '\\' :: s := fun hq => hs _ hq (by decide)
      rcases escaped_next hs' hesc with rfl | ⟨s, rfl⟩
      · cases h
      · rw [List.cons_append, List.cons_append, decode_pair] at h
        rcases decode_word (List.forall_mem_cons.1 hs').2 with ⟨w, hw, hle⟩ | ⟨-, hmem⟩
        · rw [hw] at h
          have hlen : w.length = (ch '\\' :: s).length := congrArg List.length (List.cons.inj h).2
          rw [List.length_cons] at hlen
          omega
        · exact absurd (h ▸ List.mem_cons_of_mem _ hmem) hquote

/-! ## The texts of an entry -/

/-- How an entry with a value is written. -/
inductive Layout
  /-- `n=v;` -/
  | equals
  /-- `n = v;` -/
  | spaced
  /-- `n "v";` -/
  | quoted
  /-- `n"v";` -/
  | joined

namespace Layout

def text (n v : CString) : Layout → List UInt8
  | equals => n.bytes ++ ch '=' :: (v.bytes ++ [ch ';'])
  | spaced => n.bytes ++ ch ' ' :: ch '=' :: ch ' ' :: (v.bytes ++ [ch ';'])
  | quoted => n.bytes ++ ch ' ' :: ch '"' :: (v.bytes ++ [ch '"', ch ';'])
  | joined => n.bytes ++ ch '"' :: (v.bytes ++ [ch '"', ch ';'])

/-- Which names and values the parser reads in a text: none without
whitespace between them, otherwise those without a slash, in quotes those
without an escape. -/
def Readable (n v : CString) : Layout → Prop
  | equals => False
  | spaced => ch '/' ∉ n.bytes ∧ ch '/' ∉ v.bytes
  | quoted => ch '/' ∉ n.bytes ∧ Unescaped v.bytes
  | joined => False

end Layout

variable {n v : CString}

/-- What the first turn of the parser makes of a text with the name `n` and
the value `v`: an error, an entry without a value, or one with the name `n`,
which has the value `v` if the text is readable. -/
def Outcome (n v : CString) (readable : Prop) (T : Turn) : Prop :=
  (∃ r, T = .off r ∧ r.place.errored ∧ ¬ readable) ∨
    (∃ w, T = .on ⟨⟨[], 1⟩, [.sibling nil ⟨1, w, none, 0⟩]⟩ ∧ ¬ readable) ∨
      ∃ s, T = (⟨⟨[], 1⟩, [.sibling nil ⟨1, n, some s, 0⟩]⟩ : Reader).directive n s ∧ (s = v ↔ readable)

theorem PlainWord.run (hn : PlainWord n) (hx : separates x) (u : List UInt8) :
    plainRun (n.bytes ++ x :: u) = n.bytes ∧ afterRun (n.bytes ++ x :: u) = x :: u :=
  plainRun_of_plain hn.plain hx u

theorem PlainWord.not_separates (hn : PlainWord n) : ∀ x ∈ n.bytes, ¬ separates x :=
  fun _ hx => (not_separates_of_mem (hn.plain.symm ▸ hx)).1

theorem stringOf_self (n : CString) : stringOf n.bytes = n := CString.ext (stringOf_bytes n.nul_free)

theorem PlainWord.inWord (hn : PlainWord n) (hslash : ch '/' ∉ n.bytes) : ∀ x ∈ n.bytes, Place.inWord x = true := by
  intro x hx
  have hx0 : x ≠ 0 := fun h0 => n.nul_free (h0 ▸ hx)
  obtain ⟨hs, hh⟩ := not_separates_of_mem (hn.plain.symm ▸ hx)
  exact (inWord_iff hx0).2 ⟨fun h => hslash (h ▸ hx), hh, .inl hs⟩

/-- A word without a slash that the parser ends at `x` is what it reads. -/
theorem PlainWord.value (hn : PlainWord n) (hslash : ch '/' ∉ n.bytes) (hx : separates x)
    (hstop : Place.inWord x = false) (u : List UInt8) :
    Place.value ⟨n.bytes ++ x :: u, l⟩ = if (Place.skip ⟨x :: u, l⟩).rest = x :: u then
      some (some n, x, ⟨u, (Place.skip ⟨x :: u, l⟩).curline⟩) else some (some n, 0, Place.skip ⟨x :: u, l⟩) := by
  have hall := hn.inWord hslash
  have hstop' : ¬ Place.inWord x = true := by rw [hstop]; decide
  have hne : plainRun (n.bytes ++ x :: u) ≠ [] := by
    rw [(hn.run hx u).1]
    exact hn.ne
  rw [value_word (head_ne_quote hne) (w := n.bytes) (x := x) (u := u) ?_ hn.ne ?_, stringOf_self]
  · rw [List.takeWhile_append_of_pos hall, List.takeWhile_cons_of_neg hstop', List.append_nil]
  · rw [List.dropWhile_append_of_pos hall, List.dropWhile_cons_of_neg hstop']

theorem skip_semicolon (u : List UInt8) : Place.skip ⟨ch ';' :: u, l⟩ = ⟨ch ';' :: u, l⟩ :=
  skipFrom_stop (stops_cons (by decide) u)

theorem PlainWord.value_semicolon (hn : PlainWord n) (hslash : ch '/' ∉ n.bytes) (u : List UInt8) :
    Place.value ⟨n.bytes ++ ch ';' :: u, l⟩ = some (some n, ch ';', ⟨u, l⟩) := by
  rw [hn.value hslash (by decide) (by decide), skip_semicolon, if_pos rfl]

/-- In a word there is a slash: the parser ends the word there. -/
theorem PlainWord.slash (hn : PlainWord n) (hslash : ch '/' ∈ n.bytes) (hx : separates x) (hu : 0 ∉ x :: u) :
    ∃ u', (n.bytes ++ x :: u).dropWhile Place.inWord = ch '/' :: u' ∧ ¬ startsComment (ch '/') u' := by
  refine dropWhile_slash (fun h0 => ?_) ((hn.run hx u).1.symm ▸ hslash)
  rcases List.mem_append.1 h0 with h0 | h0
  · exact n.nul_free h0
  · exact hu h0

theorem PlainWord.turn_slash (hn : PlainWord n) (hslash : ch '/' ∈ n.bytes) (hx : separates x) (hu : 0 ∉ x :: u) :
    ∃ r, (Reader.start (n.bytes ++ x :: u)).turn = some (.off r) ∧ r.place.errored := by
  obtain ⟨u', hdrop, hu'⟩ := hn.slash hslash hx hu
  refine Confparse.turn_slash ?_ hdrop hu'
  rw [(hn.run hx u).1]
  exact hn.ne

/-- Words that are joined are one word, or there is a slash in them. -/
theorem turn_joined (hn : PlainWord n) (hv : PlainWord v) (hx : x = ch '=' ∨ x = ch '"') {z : List UInt8}
    (hz : z = [ch ';'] ∨ z = [ch '"', ch ';']) :
    ∃ T, (Reader.start (n.bytes ++ x :: (v.bytes ++ z))).turn = some T ∧ Outcome n v False T := by
  have hsep : separates x := by rcases hx with rfl | rfl <;> decide
  have hword : Place.inWord x = true := by rcases hx with rfl | rfl <;> decide
  obtain ⟨y, z', rfl, hy⟩ : ∃ y z', z = y :: z' ∧ separates y := by
    rcases hz with rfl | rfl
    · exact ⟨_, _, rfl, by decide⟩
    · exact ⟨_, _, rfl, by decide⟩
  have hz0 : 0 ∉ y :: z' := by rcases hz with h | h <;> rw [h] <;> decide
  have hne : plainRun (n.bytes ++ x :: (v.bytes ++ y :: z')) ≠ [] := by
    rw [(hn.run hsep _).1]
    exact hn.ne
  by_cases hnslash : ch '/' ∈ n.bytes
  -- the name ends at its slash
  · have hu : 0 ∉ x :: (v.bytes ++ y :: z') := by
      intro h0
      rcases List.mem_cons.1 h0 with rfl | h0
      · exact absurd hword (by decide)
      · rcases List.mem_append.1 h0 with h0 | h0
        · exact v.nul_free h0
        · exact hz0 h0
    obtain ⟨r, hturn, herr⟩ := hn.turn_slash hnslash hsep hu
    exact ⟨_, hturn, .inl ⟨r, rfl, herr, not_false⟩⟩
  have hall := hn.inWord hnslash
  by_cases hvslash : ch '/' ∈ v.bytes
  -- it goes on to the slash in the value
  · obtain ⟨u', hdrop, hu'⟩ := hv.slash hvslash hy hz0
    obtain ⟨r, hturn, herr⟩ := Confparse.turn_slash hne (u := u')
      (by rw [List.dropWhile_append_of_pos hall, List.dropWhile_cons_of_pos hword, hdrop]) hu'
    exact ⟨_, hturn, .inl ⟨r, rfl, herr, not_false⟩⟩
  -- it goes on to the semicolon, and there is no value
  · have hdrop : (n.bytes ++ x :: (v.bytes ++ y :: z')).dropWhile Place.inWord = [ch ';'] := by
      rw [List.dropWhile_append_of_pos hall, List.dropWhile_cons_of_pos hword,
        List.dropWhile_append_of_pos (hv.inWord hvslash)]
      rcases hz with h | h <;> rw [h] <;> rfl
    have htake : (n.bytes ++ x :: (v.bytes ++ y :: z')).takeWhile Place.inWord ≠ [] := by
      rw [List.takeWhile_append_of_pos hall]
      exact List.append_ne_nil_of_left_ne_nil hn.ne _
    have hval := value_word (l := 1) (head_ne_quote hne) rfl htake hdrop
    rw [skip_semicolon, if_pos rfl] at hval
    have hdel : Place.delimiter ⟨[], 1⟩ (ch ';') = (ch ';', ⟨[], 1⟩) := if_neg (by decide)
    refine ⟨_, ?_, .inr (.inl ⟨stringOf ((n.bytes ++ x :: (v.bytes ++ y :: z')).takeWhile Place.inWord), rfl, not_false⟩)⟩
    rw [turn_start hne, Reader.readEntry]
    simp only [Reader.start, hval, Option.bind_eq_bind, Option.bind_some, if_neg (not_errored Int.one_pos),
      Reader.newEntry, hdel]
    rw [Reader.afterName, if_neg (by decide), if_pos rfl]

/-- A name without a slash is read, and what is behind the space is then to be
its value. -/
theorem PlainWord.turn_name (hn : PlainWord n) (hslash : ch '/' ∉ n.bytes) {u u' : List UInt8}
    (hskip : Place.skip ⟨ch ' ' :: u, 1⟩ = ⟨u', 1⟩) (hlt : u'.length ≤ u.length)
    (hdel : Place.delimiter ⟨u', 1⟩ 0 = (0, ⟨u', 1⟩)) :
    (Reader.start (n.bytes ++ ch ' ' :: u)).turn = (⟨⟨u', 1⟩, [.sibling nil ⟨1, n, none, 0⟩]⟩ : Reader).readData n := by
  have hne : plainRun (n.bytes ++ ch ' ' :: u) ≠ [] := by
    rw [(hn.run (by decide) _).1]
    exact hn.ne
  have hval := hn.value (l := 1) hslash (x := ch ' ') (by decide) (by decide) u
  rw [hskip, if_neg] at hval
  · rw [turn_start hne, Reader.readEntry]
    simp only [Reader.start, hval, Option.bind_eq_bind, Option.bind_some, if_neg (not_errored Int.one_pos),
      Reader.newEntry, hdel]
    exact afterName_zero _ _
  · intro heq
    have hlen := congrArg List.length heq
    dsimp only at hlen
    rw [List.length_cons] at hlen
    omega

theorem turn_spaced (hn : PlainWord n) (hv : PlainWord v) :
    ∃ T, (Reader.start (Layout.spaced.text n v)).turn = some T ∧ Outcome n v (Layout.spaced.Readable n v) T := by
  have hrun : plainRun (v.bytes ++ [ch ';']) ≠ [] := by
    rw [(hv.run (by decide) _).1]
    exact hv.ne
  have hz0 : 0 ∉ [ch ';'] := by decide
  by_cases hnslash : ch '/' ∈ n.bytes
  · have hu : 0 ∉ ch ' ' :: ch '=' :: ch ' ' :: (v.bytes ++ [ch ';']) := by
      simp only [List.mem_cons, List.mem_append, not_or]
      exact ⟨by decide, by decide, by decide, v.nul_free, by decide, List.not_mem_nil⟩
    obtain ⟨r, hturn, herr⟩ := hn.turn_slash hnslash (by decide) hu
    exact ⟨_, hturn, .inl ⟨r, rfl, herr, fun h => h.1 hnslash⟩⟩
  have hskip : Place.skip ⟨ch ' ' :: ch '=' :: ch ' ' :: (v.bytes ++ [ch ';']), 1⟩ = ⟨v.bytes ++ [ch ';'], 1⟩ := by
    have hblank : Place.skip ⟨ch ' ' :: ch '=' :: ch ' ' :: (v.bytes ++ [ch ';']), 1⟩ = Place.skip ⟨v.bytes ++ [ch ';'], 1⟩ := by
      simp +decide [Place.skip, Place.skipFrom]
    rw [hblank, skip_run hrun]
  have hturn := hn.turn_name hnslash hskip (by simp) (delimiter_run hrun)
  by_cases hvslash : ch '/' ∈ v.bytes
  · obtain ⟨u', hdrop, hu'⟩ := hv.slash hvslash (by decide) hz0
    obtain ⟨r, hdata, herr⟩ := readData_slash (r := ⟨⟨v.bytes ++ [ch ';'], 1⟩, [.sibling nil ⟨1, n, none, 0⟩]⟩)
      (head_ne_quote hrun) hdrop hu' Int.one_pos n
    exact ⟨_, hturn.trans hdata, .inl ⟨r, rfl, herr, fun h => h.2 hvslash⟩⟩
  · have hval := hv.value_semicolon (l := 1) hvslash []
    have hdel : Place.delimiter ⟨[], 1⟩ (ch ';') = (ch ';', ⟨[], 1⟩) := if_neg (by decide)
    refine ⟨_, hturn.trans ?_, .inr (.inr ⟨v, rfl, iff_of_true rfl ⟨hnslash, hvslash⟩⟩)⟩
    rw [Reader.readData]
    simp only [hval, Option.bind_eq_bind, Option.bind_some, if_neg (not_errored Int.one_pos), hdel, onTop]
    rw [Reader.afterData, if_neg (by decide), if_pos rfl]

theorem turn_quoted (hn : PlainWord n) (hv : PlainWord v) :
    ∃ T, (Reader.start (Layout.quoted.text n v)).turn = some T ∧ Outcome n v (Layout.quoted.Readable n v) T := by
  by_cases hnslash : ch '/' ∈ n.bytes
  · have hu : 0 ∉ ch ' ' :: ch '"' :: (v.bytes ++ [ch '"', ch ';']) := by
      simp only [List.mem_cons, List.mem_append, not_or]
      exact ⟨by decide, by decide, v.nul_free, by decide, by decide, List.not_mem_nil⟩
    obtain ⟨r, hturn, herr⟩ := hn.turn_slash hnslash (by decide) hu
    exact ⟨_, hturn, .inl ⟨r, rfl, herr, fun h => h.1 hnslash⟩⟩
  have hskip : Place.skip ⟨ch ' ' :: ch '"' :: (v.bytes ++ [ch '"', ch ';']), 1⟩ =
      ⟨ch '"' :: (v.bytes ++ [ch '"', ch ';']), 1⟩ := by
    simp +decide [Place.skip, Place.skipFrom]
  have hdel : Place.delimiter ⟨ch '"' :: (v.bytes ++ [ch '"', ch ';']), 1⟩ 0 =
      (0, ⟨ch '"' :: (v.bytes ++ [ch '"', ch ';']), 1⟩) := by
    simp +decide [Place.delimiter]
  have hturn := hn.turn_name hnslash hskip le_rfl hdel
  have hdecode : Place.value ⟨ch '"' :: (v.bytes ++ [ch '"', ch ';']), 1⟩ =
      some (Place.quoted ⟨ch '"' :: (v.bytes ++ [ch '"', ch ';']), 1⟩) := if_pos rfl
  rcases decode_word hv.not_separates with ⟨w, hw, hle⟩ | ⟨hnil, hmem⟩
  · have hval : Place.quoted ⟨ch '"' :: (v.bytes ++ [ch '"', ch ';']), 1⟩ = (some (stringOf w), 0, ⟨[ch ';'], 1⟩) := by
      rw [Place.quoted, List.tail_cons, hw]
      dsimp only
      rw [if_pos rfl, skip_semicolon]
    rw [hval] at hdecode
    have hdel' : Place.delimiter ⟨[ch ';'], 1⟩ 0 = (ch ';', ⟨[], 1⟩) := delimiter_reads (.inl rfl)
    refine ⟨_, hturn.trans ?_, .inr (.inr ⟨stringOf w, rfl, ?_⟩)⟩
    · rw [Reader.readData]
      simp only [hdecode, Option.bind_eq_bind, Option.bind_some, if_neg (not_errored Int.one_pos), hdel', onTop]
      rw [Reader.afterData, if_neg (by decide), if_pos rfl]
    · constructor
      · rintro rfl
        -- nothing was left out, being as long
        refine ⟨hnslash, unescaped_of_decode hv.not_separates ?_⟩
        rw [hw]
        exact ((List.takeWhile_prefix _).eq_of_length_le hle).symm
      · rintro ⟨-, hesc⟩
        rw [decode_unescaped hv.not_separates hesc] at hw
        rw [← (Prod.mk.inj hw).1, stringOf_self]
  -- the second quote is escaped: "File ends inside quoted string"
  · have hval : Place.quoted ⟨ch '"' :: (v.bytes ++ [ch '"', ch ';']), 1⟩ =
        (none, 0, (⟨ch '"' :: (v.bytes ++ [ch '"', ch ';']), 1⟩ : Place).error) := by
      rw [Place.quoted, List.tail_cons]
      rcases hdec : Place.decode (v.bytes ++ [ch '"', ch ';']) with ⟨w, u⟩
      rw [hdec] at hnil
      dsimp only at hnil
      rw [hnil]
    rw [hval] at hdecode
    have herr : (⟨(⟨ch '"' :: (v.bytes ++ [ch '"', ch ';']), 1⟩ : Place).error, [.sibling nil ⟨1, n, none, 0⟩]⟩ :
        Reader).place.errored := errored_error _
    refine ⟨_, hturn.trans ?_, .inl ⟨_, rfl, herr, ?_⟩⟩
    · rw [Reader.readData]
      simp only [hdecode, Option.bind_eq_bind, Option.bind_some, if_pos (errored_error _)]
    · rintro ⟨-, hesc⟩
      rw [decode_unescaped hv.not_separates hesc] at hnil
      cases hnil

/-- **The first turn** of each layout. -/
theorem Layout.turn (layout : Layout) (hn : PlainWord n) (hv : PlainWord v) :
    ∃ T, (Reader.start (layout.text n v)).turn = some T ∧ Outcome n v (layout.Readable n v) T := by
  cases layout with
  | equals => exact turn_joined hn hv (.inl rfl) (.inl rfl)
  | spaced => exact turn_spaced hn hv
  | quoted => exact turn_quoted hn hv
  | joined => exact turn_joined hn hv (.inr rfl) (.inr rfl)

/-! ## The entry that is parsed -/

/-- A file that is included can be loaded. -/
def Includes (load : CString → Option (Option (List Loaded))) (n v : CString) : Prop :=
  CString.strcasecmp n includeName = 0 → ∃ fs, load v = some (some fs)

/-- The entry is parsed. -/
def ParsesTo (x : Option (Option (List Loaded))) (n v : CString) : Prop :=
  ∃ filename f fs, x = some (some (⟨filename, f⟩ :: fs)) ∧ Rel Written (.node .nil (n, some v) .nil) f

theorem not_parsesTo_none : ¬ ParsesTo (some none) n v := by
  rintro ⟨_, _, _, h, -⟩
  cases h

theorem parsesTo_one {filename m : CString} {s : Option CString} {fs : List Loaded} :
    ParsesTo (some (some (⟨filename, .node .nil ⟨1, m, s, 0⟩ .nil⟩ :: fs))) n v ↔ m = n ∧ s = some v := by
  constructor
  · rintro ⟨_, f, _, h, hwritten⟩
    obtain ⟨hf, -⟩ := List.cons.inj (Option.some.inj (Option.some.inj h))
    obtain rfl := (Loaded.mk.inj hf).2
    exact hwritten.2.1
  · rintro ⟨rfl, rfl⟩
    exact ⟨_, _, _, rfl, trivial, ⟨rfl, rfl⟩, trivial⟩

variable {load : CString → Option (Option (List Loaded))} {fuel : ℕ} {filename : CString} {readable : Prop}

/-- A text of one turn. -/
theorem parseText_turn {T : Turn} (hne : t ≠ []) (hturn : (Reader.start t).turn = some T) :
    parseText load (fuel + 2) filename t = (T.run load).bind fun x =>
      (if x.1 then Reader.loop load (fuel + 1) x.2.1 x.2.2 else some (x.2.1, x.2.2)).map
        fun y => y.1.unclosed.finish filename y.2 := by
  have hne' : ¬ (Reader.start t).place.rest = [] := hne
  rw [parseText, Reader.loop, if_neg hne', Reader.body, hturn]
  simp only [Option.bind_eq_bind, Option.bind_some, List.nil_append]
  cases T.run load with
  | none => rfl
  | some x => rfl

theorem finish_errored {r : Reader} (h : r.place.errored) (next : List Loaded) : r.unclosed.finish filename next = none := by
  rw [Reader.finish, if_pos (unclosed_errored h)]

/-- At the end of the text. -/
theorem loop_end (entries : List (Frame Node)) (next : List Loaded) :
    Reader.loop load (fuel + 1) ⟨⟨[], 1⟩, entries⟩ next = some (⟨⟨[], 1⟩, entries⟩, next) := if_pos rfl

theorem finish_one (e : Node) (next : List Loaded) :
    (⟨⟨[], 1⟩, [.sibling nil e]⟩ : Reader).unclosed.finish filename next = some (⟨filename, .node .nil e .nil⟩ :: next) := by
  rw [Reader.unclosed, if_pos (.inl rfl), Reader.finish, if_neg (not_errored Int.one_pos)]
  rfl

/-- The text of an entry is parsed to it exactly if it is readable. -/
theorem parsesTo_iff {T : Turn} (hne : t ≠ []) (hturn : (Reader.start t).turn = some T) (hT : Outcome n v readable T) :
    ParsesTo (parseText load (fuel + 2) filename t) n v ↔ readable ∧ Includes load n v := by
  rw [parseText_turn hne hturn]
  rcases hT with ⟨r, rfl, herr, hnot⟩ | ⟨w, rfl, hnot⟩ | ⟨s, rfl, hs⟩
  · have hnone : (Turn.run load (.off r)).bind (fun x => (if x.1 then Reader.loop load (fuel + 1) x.2.1 x.2.2 else
        some (x.2.1, x.2.2)).map fun y => y.1.unclosed.finish filename y.2) = some none :=
      congrArg some (finish_errored herr [])
    rw [hnone]
    exact iff_of_false not_parsesTo_none fun h => hnot h.1
  · rw [Turn.run, Option.bind_some]
    dsimp only
    rw [if_pos rfl, loop_end, Option.map_some, finish_one, parsesTo_one]
    exact iff_of_false (fun h => absurd h.2 (by simp)) fun h => hnot h.1
  · rw [Reader.directive, Includes]
    by_cases hinc : CString.strcasecmp n includeName = 0
    · rw [if_pos ⟨rfl, hinc⟩, Turn.run, Reader.includeFile, ← hs]
      -- the load is undefined, fails, or gives the files
      rcases hload : load s with _ | _ | fs
      · rw [Option.map_none, Option.bind_none]
        refine iff_of_false ?_ ?_
        · rintro ⟨_, _, _, h, _⟩
          cases h
        · rintro ⟨rfl, h⟩
          obtain ⟨fs, hfs⟩ := h hinc
          rw [hload] at hfs
          cases hfs
      · rw [Option.map_some, Option.bind_some]
        dsimp only
        rw [if_neg (by decide), Option.map_some, finish_errored (errored_error _)]
        refine iff_of_false not_parsesTo_none ?_
        rintro ⟨rfl, h⟩
        obtain ⟨fs, hfs⟩ := h hinc
        rw [hload] at hfs
        cases hfs
      · rw [Option.map_some, Option.bind_some]
        dsimp only
        rw [if_pos rfl, loop_end, Option.map_some, finish_one, parsesTo_one]
        constructor
        · rintro ⟨-, h⟩
          obtain rfl := Option.some.inj h
          exact ⟨rfl, fun _ => ⟨fs, hload⟩⟩
        · rintro ⟨rfl, -⟩
          exact ⟨rfl, rfl⟩
    · rw [if_neg fun h => hinc h.2, Turn.run, Option.bind_some]
      dsimp only
      rw [if_pos rfl, loop_end, Option.map_some, finish_one, parsesTo_one, ← hs]
      constructor
      · rintro ⟨-, h⟩
        exact ⟨Option.some.inj h, fun h0 => absurd h0 hinc⟩
      · rintro ⟨rfl, -⟩
        exact ⟨rfl, rfl⟩

/-! ## The entry in memory -/

/-- What shows a forest was written for it. -/
theorem written_of_shows {m : Memory} {mem : List UInt8} {f : ConfigForest} {a : BinTree Addr} {f' : BinTree Node}
    {p : Option Addr} (hs : Shows m mem f p) (hl : Linked id (links m.entries) a p) (ht : Rel (IsNode m.entries mem) a f') :
    Rel Written f f' := by
  induction f generalizing a f' p with
  | nil =>
    obtain rfl : p = none := hs
    cases a with
    | nil =>
      cases f' with
      | nil => trivial
      | node l e r => exact ht.elim
    | node l x r => cases hl.1
  | node l x r ihl ihr =>
    obtain ⟨ce, e, rfl, he, hname, hdata, hsl, hsr⟩ := hs
    cases a with
    | nil => cases hl
    | node al y ar =>
      cases f' with
      | nil => exact ht.elim
      | node l' e' r' =>
        obtain ⟨hp, i, j, hy, hll, hlr⟩ := hl
        obtain ⟨htl, ⟨e'', he'', -, hname', hdata', -⟩, htr⟩ := ht
        obtain rfl : ce = y := Option.some.inj hp
        rw [he] at he''
        obtain rfl := Option.some.inj he''
        rw [links, id, he, Option.map_some] at hy
        obtain ⟨rfl, rfl⟩ := Prod.mk.inj (Option.some.inj hy)
        refine ⟨ihl hsl hll htl, ⟨hname'.stringAt_self.symm.trans hname, ?_⟩, ihr hsr hlr htr⟩
        rw [← hdata]
        generalize e.vardata = w, e'.vardata = w' at hdata'
        cases hdata' with
        | none => rfl
        | some hdata' => exact congrArg some hdata'.stringAt_self.symm

/-- The parser answers a file with one entry, which has this name and value. -/
def Yields (x : Option (List LogLine × Memory × Option Addr)) (n v : CString) : Prop :=
  ∃ log m cf file mem, x = some (log, m, some cf) ∧ m.files.get cf = some file ∧ m.blocks.get file.mem = some mem ∧
    Shows m mem (.node .nil (n, some v) .nil) file.entries

theorem Answers.yields_iff {m : Memory} {x : Option (List LogLine × Memory × Option Addr)}
    {y : Option (Option (List Loaded))} (h : Answers m x y) : Yields x n v ↔ ParsesTo y n v := by
  rcases x with _ | ⟨log, m', _ | cf⟩
  · refine iff_of_false (fun ⟨_, _, _, _, _, h, _⟩ => nomatch h) ?_
    rintro ⟨_, _, _, rfl, -⟩
    exact h.elim
  · refine iff_of_false (fun ⟨_, _, _, _, _, h, _⟩ => nomatch h) ?_
    rintro ⟨_, _, _, rfl, -⟩
    exact h.elim
  · rcases y with _ | _ | fs
    · exact h.elim
    · exact h.elim
    obtain ⟨cs, hchain, -⟩ := h
    rcases cs with _ | ⟨c, cs⟩
    · cases fs with
      | nil => cases hchain
      | cons g gs => exact hchain.elim
    rcases fs with _ | ⟨g, gs⟩
    · exact hchain.elim
    obtain ⟨hcf, next, ⟨p, text, hfile, -, hmem, hlinked, hnodes⟩, -⟩ := hchain
    obtain rfl := Option.some.inj hcf
    constructor
    · rintro ⟨log', m'', cf', file, mem, heq, hfile', hmem', hshows⟩
      cases heq
      rw [hfile] at hfile'
      obtain rfl := Option.some.inj hfile'
      rw [hmem] at hmem'
      obtain rfl := Option.some.inj hmem'
      exact ⟨g.filename, g.entries, gs, rfl, written_of_shows hshows hlinked hnodes⟩
    · rintro ⟨filename, f, fs, heq, hwritten⟩
      obtain ⟨rfl, rfl⟩ := List.cons.inj (Option.some.inj (Option.some.inj heq))
      exact ⟨log, m', _, _, text, rfl, hfile, hmem, shows_of_written hlinked hnodes hwritten⟩

/-- **Unquoted words**: where an unquoted value begins `get_value` returns the
run of the grammar exactly if there is no slash in it, and neither `'='` nor a
double quote behind it; and of the texts of an entry with a name and a value
that are plain words the parser reads back exactly the readable ones, a file
that is to be included being one that can be loaded. -/
theorem unquoted_iff {A : Allocators} (hA : A.entry.NeverFails) (hF : A.file.NeverFails) (hB : A.block.NeverFails)
    (files : CString → Opened) :
    (∀ (c : Cursor) (t : List UInt8), c.At t → plainRun t ≠ [] →
      (ReturnsRun c t ↔ ch '/' ∉ plainRun t ∧ ∀ x, (afterRun t).head? = some x → x ≠ ch '=' ∧ x ≠ ch '"')) ∧
    ∀ (n v : CString), PlainWord n → PlainWord v → ∀ (layout : Layout) (filename : CString) (m : Memory) (buf : Addr)
      (fuel depth : ℕ), m.blocks.get buf = some (layout.text n v ++ [0]) →
        (Yields (parse A (loadInternal A files (fuel + 2) depth) (fuel + 2) filename buf m) n v ↔
          layout.Readable n v ∧ Includes (loadText files (fuel + 2) depth m.nestcnt) n v) := by
  refine ⟨fun c t => returnsRun_iff, fun n v hn hv layout filename m buf fuel depth hbuf => ?_⟩
  obtain ⟨T, hturn, hT⟩ := layout.turn hn hv
  have hne : layout.text n v ≠ [] := by
    obtain ⟨x, s, hs⟩ := List.exists_cons_of_ne_nil hn.ne
    cases layout <;> simp [Layout.text]
  have hnul : 0 ∉ layout.text n v := by
    have hn0 := n.nul_free
    have hv0 := v.nul_free
    cases layout <;> simp +decide [Layout.text, hn0, hv0]
  have hanswers := parse_block_answers hA hF hB files filename ⟨layout.text n v, hnul⟩ hbuf (fuel + 2) depth
  rw [hanswers.yields_iff]
  exact parsesTo_iff hne hturn hT

/-- The text `a = a;` is read. -/
theorem unquoted_iff_spaced :
    (ReturnsRun ⟨shortName.bytes ++ [ch ' ', 0], 0, 1, []⟩ (shortName.bytes ++ [ch ' '])) ∧
      Yields (parse ⟨.bump, .bump, .bump⟩ (loadInternal ⟨.bump, .bump, .bump⟩ (fun _ => .noFile) 2 0) 2 shortName 0
        ⟨.empty, .empty, .set .empty 0 (Layout.spaced.text shortName shortName ++ [0]), 0⟩) shortName shortName := by
  obtain ⟨hrun, hlayout⟩ := unquoted_iff (A := ⟨.bump, .bump, .bump⟩) Allocator.bump_neverFails Allocator.bump_neverFails
    Allocator.bump_neverFails (fun _ => .noFile)
  have hword : PlainWord shortName := ⟨by decide, by decide⟩
  refine ⟨(hrun _ _ ⟨by decide, [], rfl, rfl⟩ (by decide)).2 ⟨by decide, fun x hx => ?_⟩, ?_⟩
  · obtain rfl : ch ' ' = x := Option.some.inj hx
    exact ⟨by decide, by decide⟩
  · exact (hlayout shortName shortName hword hword .spaced shortName _ 0 0 0 (Store.get_set_self ..)).2
      ⟨⟨by decide, by decide⟩, fun h => absurd h (by decide)⟩

/-- In the text `a=a;` the parser reads the word `a=a`. -/
theorem equals_is_read : ∃ c : Cursor, c.At (Layout.equals.text shortName shortName) ∧
    plainRun (Layout.equals.text shortName shortName) = shortName.bytes ∧
      ¬ ReturnsRun c (Layout.equals.text shortName shortName) := by
  refine ⟨⟨Layout.equals.text shortName shortName ++ [0], 0, 1, []⟩, ⟨by decide, [], rfl, rfl⟩, by decide, ?_⟩
  rintro ⟨v, k, c', hval, hbytes⟩
  have hget : (⟨Layout.equals.text shortName shortName ++ [0], 0, 1, []⟩ : Cursor).getValue =
      some (some 0, ch ';', ⟨[ch 'a', ch '=', ch 'a', 0, 0], 4, 1, []⟩) := rfl
  rw [hget] at hval
  cases hval
  exact absurd hbytes (by decide)

end Confparse

end Mowgli
