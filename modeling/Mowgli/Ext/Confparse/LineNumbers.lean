import Mowgli.Ext.Confparse.Includes
import Mowgli.Ext.Confparse.RoundTrip
/-!
# The line numbers of entries

`curline` is counted while whitespace is skipped, and behind a name it is
skipped before the entry is there. So an entry has the number of the line of
what comes after its name. A section has the number of the line of its closing
brace. Both are exact as far as an `int` can count.

A mark is where a text has the name of an entry, and its closing brace: the
marks of a text are made turn by turn, and have the shape of the entries.
-/

namespace Mowgli

namespace Confparse

open BinTree Links

variable {p p' : Place} {t u text : List UInt8} {l x : ℤ} {k : UInt8} {w : CString}

/-! ## The marks of a text -/

/-- The newlines between a place of a text and a later one. -/
def passed (t u : List UInt8) : ℕ := newlines (t.take (t.length - u.length))

/-- The name at a place. -/
def wordAt (t : List UInt8) : CString :=
  if t.head? = some (ch '"') then stringOf (Place.decode t.tail).1 else stringOf (t.takeWhile Place.inWord)

/-- What is behind the name. -/
def afterWord (t : List UInt8) : List UInt8 :=
  if t.head? = some (ch '"') then (Place.decode t.tail).2.tail else t.dropWhile Place.inWord

/-- What comes after the name, and the whitespace and the comments there. -/
def following (t : List UInt8) : List UInt8 := (Place.skip ⟨afterWord t, 1⟩).rest

/-- What is left of a text at the name of an entry, and at its closing brace. -/
structure Mark where
  name : List UInt8
  brace : Option (List UInt8)

namespace Reader

/-- A turn puts a closing brace to the section it closes, or has a new name. -/
def mark (r r' : Reader) (ms : List (Frame Mark)) : List (Frame Mark) :=
  let t := r.place.skip.rest
  if t.head? = some (ch '}') then onTop (fun k => { k with brace := some t }) ((shut ms nil).getD ms)
  else
    match r'.entries with
    | .child _ :: _ => .child ⟨t, none⟩ :: ms
    | _ => .sibling nil ⟨t, none⟩ :: ms

/-- The marks of what is left of the text. -/
def marks : ℕ → Reader → List (Frame Mark) → Option (List (Frame Mark))
  | 0, _, _ => none
  | fuel + 1, r, ms =>
    if r.place.rest = [] then some ms
    else r.turn.bind fun T =>
      match T.next with
      -- the loop is over
      | none => some ms
      | some r' => marks fuel r' (r.mark r' ms)

end Reader

/-- The marks of a text. -/
def marksOf (fuel : ℕ) (text : List UInt8) : Option (BinTree Mark) :=
  (Reader.marks fuel (.start text) []).map fun ms => plug ms nil

/-- An entry has the lines of its name and of its closing brace. -/
def HasLines (text : List UInt8) (k : Mark) (e : ConfigFileEntry) : Prop :=
  e.varlinenum = 1 + passed text k.name ∧ ∀ b, k.brace = some b → e.sectlinenum = 1 + passed text b

/-- No line is begun between a name and what follows it, and lines are few
enough for an `int`. -/
def Level (text : List UInt8) (k : Mark) : Prop :=
  (4294967296 ∣ passed k.name (following k.name) ∧ 1 + passed text k.name ≤ INT_MAX) ∧
    ∀ b, k.brace = some b → 1 + passed text b ≤ INT_MAX

/-- What has children was closed. -/
def Closed (l : BinTree Mark) (k : Mark) : Prop := l ≠ nil → k.brace ≠ none

/-- From `p` on there are the entries of the marks. -/
def Lays (m : Memory) (P : Mark → ConfigFileEntry → Prop) : BinTree Mark → Option Addr → Prop
  | .nil, p => p = none
  | .node l k r, p => ∃ ce e, p = some ce ∧ m.entries.get ce = some e ∧ P k e ∧ Lays m P l e.entries ∧ Lays m P r e.next

/-! ## Lines that are passed -/

theorem passed_append (e u : List UInt8) : passed (e ++ u) u = newlines e := by
  rw [passed, List.length_append, Nat.add_sub_cancel, List.take_left]

theorem passed_self (t : List UInt8) : passed t t = 0 := passed_append [] t

theorem passed_trans (htu : u <:+ t) {v : List UInt8} (huv : v <:+ u) : passed t v = passed t u + passed u v := by
  obtain ⟨d, rfl⟩ := huv
  obtain ⟨e, rfl⟩ := htu
  rw [← List.append_assoc, passed_append, List.append_assoc, passed_append, passed_append, newlines_append]

theorem passed_cons {x : UInt8} (hx : x ≠ ch '\n') (t : List UInt8) : passed (x :: t) t = 0 := by
  rw [show x :: t = [x] ++ t from rfl, passed_append, newlines, List.count_eq_zero, List.mem_singleton]
  exact Ne.symm hx

theorem passed_newline (h : u <:+ t) : passed (ch '\n' :: t) u = passed t u + 1 := by
  have hline : passed (ch '\n' :: t) t = 1 := passed_append [ch '\n'] t
  rw [passed_trans (List.suffix_cons _ t) h, hline, Nat.add_comm]

theorem passed_other {y : UInt8} (hy : y ≠ ch '\n') (h : u <:+ t) : passed (y :: t) u = passed t u := by
  rw [passed_trans (List.suffix_cons _ t) h, passed_cons hy, Nat.zero_add]

theorem toInt_add (x y : ℤ) : toInt (toInt x + y) = toInt (x + y) := Int.bmod_add_bmod

theorem skipFrom_isSuffix (m : Skipping) (t : List UInt8) (l : ℤ) : (Place.skipFrom m t l).rest <:+ t := by
  obtain ⟨e, he⟩ := Place.skipFrom_suffix m t l
  exact ⟨e, he.symm⟩

/-- Where whitespace ends does not depend on the line. -/
theorem skipFrom_rest (m : Skipping) (t : List UInt8) (l l' : ℤ) :
    (Place.skipFrom m t l).rest = (Place.skipFrom m t l').rest := by
  fun_induction Place.skipFrom m t l generalizing l'
  all_goals first
    | rfl
    | (rename_i ih
       exact ih _)
    | (rename_i ih
       rw [Place.skipFrom]
       simp only [*, if_true, if_false, and_self]
       exact ih _)
    | simp only [Place.skipFrom, *, if_false]

variable {q : Place} {y : UInt8}

theorem passed_stop (t : List UInt8) (hl : l = toInt x) : l = toInt (x + passed t t) := by
  rw [passed_self, hl]
  exact congrArg toInt (Int.add_zero x).symm

theorem passed_goOn (hy : y ≠ ch '\n') (h : q.rest <:+ t) (ih : q.curline = toInt (x + passed t q.rest)) :
    q.curline = toInt (x + passed (y :: t) q.rest) := by
  rw [passed_other hy h]
  exact ih

theorem passed_newLine (h : q.rest <:+ t) (ih : q.curline = toInt (x + 1 + passed t q.rest)) :
    q.curline = toInt (x + passed (ch '\n' :: t) q.rest) := by
  rw [passed_newline h, ih]
  exact congrArg toInt (by omega)

theorem toInt_next (hl : l = toInt x) : toInt (l + 1) = toInt (x + 1) := by rw [hl, toInt_add]

/-- **Whitespace is counted**: while there is no error `curline` goes on with
the newlines that are passed. -/
theorem skipFrom_passed (m : Skipping) (hm : m = .opening ∨ m = .closing → t.head? ≠ some (ch '\n')) (hl : l = toInt x)
    (h : ¬ (Place.skipFrom m t l).errored) :
    (Place.skipFrom m t l).curline = toInt (x + passed t (Place.skipFrom m t l).rest) := by
  fun_induction Place.skipFrom m t l generalizing x with
  | case1 | case8 | case12 | case18 => exact passed_stop [] hl
  | case7 => exact passed_stop _ hl
  | case14 => exact absurd (errored_error _) h
  -- a newline is counted
  | case3 t l _ ih | case9 t l ih | case16 t l _ ih =>
    exact passed_newLine (skipFrom_isSuffix _ _ _) (ih (by simp) (toInt_next hl) h)
  -- other characters are not
  | case2 y t l hy ih =>
    exact passed_goOn (by rintro rfl; exact absurd hy (by decide)) (skipFrom_isSuffix _ _ _) (ih (by simp) hl h)
  | case4 y t l _ hy hs ih =>
    exact passed_goOn hy (skipFrom_isSuffix _ _ _) (ih (fun _ => by rw [hs.2]; decide) hl h)
  | case5 y t l _ hy _ _ ih => exact passed_goOn hy (skipFrom_isSuffix _ _ _) (ih (by simp) hl h)
  | case6 t l _ hy _ _ ih => exact passed_goOn hy (skipFrom_isSuffix _ _ _) (ih (by simp) hl h)
  | case10 t l hy ih => exact passed_goOn hy (skipFrom_isSuffix _ _ _) (ih (by simp) hl h)
  | case11 y t l hy _ ih => exact passed_goOn hy (skipFrom_isSuffix _ _ _) (ih (by simp) hl h)
  | case15 y t l hs ih =>
    exact passed_goOn (by rw [hs.1]; decide) (skipFrom_isSuffix _ _ _) (ih (fun _ => by rw [hs.2]; decide) hl h)
  | case17 y t l _ hy ih => exact passed_goOn hy (skipFrom_isSuffix _ _ _) (ih (by simp) hl h)
  | case13 y t l ih =>
    refine passed_goOn (fun hy => hm (Or.inl rfl) ?_) (skipFrom_isSuffix _ _ _) (ih (by simp) hl h)
    rw [List.head?_cons, hy]
  | case19 y t l ih =>
    refine passed_goOn (fun hy => hm (Or.inr rfl) ?_) (skipFrom_isSuffix _ _ _) (ih (by simp) hl h)
    rw [List.head?_cons, hy]

/-! ## Names and values -/

/-- `curline` is the line of the place. -/
structure Counts (text : List UInt8) (p : Place) : Prop where
  suffix : p.rest <:+ text
  line : p.curline = toInt (1 + passed text p.rest)

theorem Counts.skip (h : Counts text p) (hp : ¬ p.skip.errored) : Counts text p.skip := by
  have hskip : p.skip.rest <:+ p.rest := skipFrom_isSuffix _ _ _
  refine ⟨hskip.trans h.suffix, ?_⟩
  rw [passed_trans h.suffix hskip, Place.skip, skipFrom_passed .blank (by simp) h.line hp]
  exact congrArg toInt (by push_cast; omega)

/-- No newline is passed. -/
theorem Counts.move (h : Counts text p) (hu : u <:+ p.rest) (h0 : passed p.rest u = 0) : Counts text ⟨u, p.curline⟩ := by
  refine ⟨hu.trans h.suffix, ?_⟩
  rw [passed_trans h.suffix hu, h0]
  exact h.line

theorem passed_word (t : List UInt8) : passed t (t.dropWhile Place.inWord) = 0 := by
  have hsplit : t.takeWhile Place.inWord ++ t.dropWhile Place.inWord = t := List.takeWhile_append_dropWhile
  have hpassed := passed_append (t.takeWhile Place.inWord) (t.dropWhile Place.inWord)
  rw [hsplit] at hpassed
  rw [hpassed, newlines, List.count_eq_zero]
  intro hmem
  have hin := List.all_eq_true.1 (List.all_takeWhile (p := Place.inWord) (l := t)) _ hmem
  exact absurd hin (by decide)

theorem passed_decode (t : List UInt8) : passed t (Place.decode t).2 = 0 := by
  fun_induction Place.decode t with
  | case1 => rfl
  | case2 x t hx => exact passed_self _
  | case3 x hx => exact passed_cons (fun hn => hx (Or.inr (Or.inl hn))) []
  | case4 x hx y u hesc ih =>
    obtain ⟨e, he⟩ := Place.decode_suffix u
    have hu : (Place.decode u).2 <:+ u := ⟨e, he.symm⟩
    have hy : y ≠ ch '\n' := by
      rintro rfl
      exact absurd hesc.2 (by decide)
    rw [passed_other (fun hn => hx (Or.inr (Or.inl hn))) (hu.trans (List.suffix_cons y u)), passed_other hy hu, ih]
  | case5 x hx y u hesc ih =>
    obtain ⟨e, he⟩ := Place.decode_suffix (y :: u)
    have hu : (Place.decode (y :: u)).2 <:+ y :: u := ⟨e, he.symm⟩
    rw [passed_other (fun hn => hx (Or.inr (Or.inl hn))) hu, ih]

theorem skip_rest (t : List UInt8) (l l' : ℤ) : (Place.skip ⟨t, l⟩).rest = (Place.skip ⟨t, l'⟩).rest :=
  skipFrom_rest _ _ _ _

/-- What is skipped up to does not begin with a newline. -/
theorem skip_stops (h : (Place.skip ⟨y :: t, l⟩).rest = y :: t) : y ≠ ch '\n' := by
  rintro rfl
  have hskip : Place.skip ⟨ch '\n' :: t, l⟩ = Place.skip ⟨t, toInt (l + 1)⟩ := by
    rw [Place.skip, Place.skipFrom, if_neg (by decide), if_pos rfl, Place.skip]
  have hle : (Place.skip ⟨t, toInt (l + 1)⟩).rest.length ≤ t.length := (skip_suffix _).length_le
  rw [← hskip, h, List.length_cons] at hle
  omega

theorem Counts.quoted (h : Counts text p) (hq : p.rest.head? = some (ch '"')) (hv : p.quoted = (some w, k, p'))
    (hp : ¬ p'.errored) :
    w = wordAt p.rest ∧ Counts text p' ∧ passed text p'.rest = passed text p.rest + passed p.rest (following p.rest) := by
  obtain ⟨t, l⟩ := p
  obtain ⟨u, rfl⟩ : ∃ u, t = ch '"' :: u := by
    cases t with
    | nil => cases hq
    | cons x u => exact ⟨u, by rw [Option.some.inj hq]⟩
  rw [Place.quoted, List.tail_cons] at hv
  rw [wordAt, following, afterWord, if_pos hq, if_pos hq, List.tail_cons]
  obtain ⟨e, he⟩ := Place.decode_suffix u
  have hpassed := passed_decode u
  split at hv
  · rename_i s y v hd
    rw [hd] at he hpassed
    simp only at he hpassed
    split_ifs at hv with hy
    · cases hv
      have hyv : y :: v <:+ u := ⟨e, he.symm⟩
      have hvu : v <:+ u := (List.suffix_cons y v).trans hyv
      have hvt : v <:+ ch '"' :: u := hvu.trans (List.suffix_cons _ u)
      have hmove : Counts text ⟨v, l⟩ := by
        refine h.move hvt ?_
        rw [passed_other (by decide) hvu, passed_trans hyv (List.suffix_cons y v), hpassed, hy, passed_cons (by decide)]
      refine ⟨by rw [hd], hmove.skip hp, ?_⟩
      rw [hd, List.tail_cons, skip_rest v 1 l]
      exact passed_trans h.suffix ((skip_suffix _).trans hvt)
    · cases hv
  · cases hv

theorem Counts.unquoted (h : Counts text p) (hq : p.rest.head? ≠ some (ch '"'))
    (hv : p.unquoted = some (some w, k, p')) (hp : ¬ p'.errored) :
    w = wordAt p.rest ∧ Counts text p' ∧ passed text p'.rest = passed text p.rest + passed p.rest (following p.rest) := by
  rw [Place.unquoted] at hv
  rw [wordAt, following, afterWord, if_neg hq, if_neg hq, skip_rest _ 1 p.curline]
  simp only at hv
  split_ifs at hv with hw
  · cases hv
  have hdrop : p.rest.dropWhile Place.inWord <:+ p.rest := List.dropWhile_suffix _
  have hmove : Counts text ⟨p.rest.dropWhile Place.inWord, p.curline⟩ := h.move hdrop (passed_word _)
  rw [← passed_trans h.suffix ((skip_suffix _).trans hdrop)]
  split at hv
  · cases hv
  · rename_i x u hu
    rw [hu] at hmove ⊢
    split_ifs at hv with hstop
    · cases hv
      -- nothing is skipped but the character that ends the word
      have hskip := hmove.skip hp
      have hk : k :: u <:+ text := hmove.suffix
      have hu : u <:+ k :: u := List.suffix_cons k u
      have hover : passed (k :: u) u = 0 := passed_cons (skip_stops hstop) u
      refine ⟨rfl, ?_, ?_⟩
      · refine hskip.move ?_ ?_
        · rw [hstop]
          exact hu
        · rw [hstop]
          exact hover
      · rw [hstop, passed_trans hk hu, hover, Nat.add_zero]
    · cases hv
      exact ⟨rfl, hmove.skip hp, rfl⟩

/-- **A name** is counted up to what follows it. -/
theorem Counts.value (h : Counts text p) (hv : p.value = some (some w, k, p')) (hp : ¬ p'.errored) :
    w = wordAt p.rest ∧ Counts text p' ∧ passed text p'.rest = passed text p.rest + passed p.rest (following p.rest) := by
  rw [Place.value] at hv
  split_ifs at hv with hq
  · exact h.quoted hq (Option.some.inj hv) hp
  · exact h.unquoted hq hv hp

theorem Counts.delimiter (h : Counts text p) (k : UInt8) : Counts text (p.delimiter k).2 := by
  rw [Place.delimiter]
  split_ifs
  · split
    · exact h
    · rename_i x t hx
      split_ifs with hd
      · refine h.move (hx ▸ List.suffix_cons x t) ?_
        rw [hx]
        exact passed_cons (by rintro rfl; exact absurd hd (by decide)) t
      · exact h
  · exact h

/-! ## A turn of the loop -/

variable {r r' : Reader} {T : Turn} {ms : List (Frame Mark)} {n : Node} {es : List (Frame Node)}

/-- What a mark says of an entry. -/
structure Numbered (text : List UInt8) (k : Mark) (n : Node) : Prop where
  name : n.varname = wordAt k.name
  line : n.varlinenum = toInt (1 + (passed text k.name + passed k.name (following k.name) : ℕ))
  brace : ∀ b, k.brace = some b → n.sectlinenum = toInt (1 + passed text b)

/-- The marks are those of what was read. -/
structure Marked (text : List UInt8) (r : Reader) (ms : List (Frame Mark)) : Prop where
  place : Counts text r.place
  nodes : FramesRel (Numbered text) ms r.entries
  closed : EachFrame Closed ms

/-- The entry is the last one, or the section that is open. -/
def Reader.Last (r : Reader) (n : Node) (es : List (Frame Node)) : Prop :=
  r.entries = .sibling nil n :: es ∨ r.entries = .child n :: es

theorem afterData_goes {u : CString} (hr : r.entries = .sibling nil n :: es) (h : (r.afterData w u k).next = some r') :
    r'.place = r.place ∧ r'.Last n es := by
  rw [Reader.afterData] at h
  split_ifs at h with hopen hsemi
  · cases h
    exact ⟨rfl, Or.inr (by rw [Reader.openSection, hr, opened])⟩
  · rw [Reader.directive] at h
    split_ifs at h
    · cases h
      exact ⟨rfl, Or.inl hr⟩
    · cases h
      exact ⟨rfl, Or.inl hr⟩
  · cases h

theorem readData_goes (hc : Counts text r.place) (hr : r.entries = .sibling nil n :: es) (h : r.readData w = some T)
    (hT : T.next = some r') : Counts text r'.place ∧ ∃ v, r'.Last { n with vardata := v } es := by
  rw [Reader.readData] at h
  simp only [Option.bind_eq_bind, Option.bind_eq_some_iff] at h
  obtain ⟨⟨val, k, p⟩, hval, h⟩ := h
  simp only at h
  split_ifs at h with hp
  · cases h
    cases hT
  rcases val with _ | val
  · cases h
    cases hT
  cases h
  have hentries : onTop (fun e => { e with vardata := some val }) r.entries = .sibling nil { n with vardata := some val } :: es := by
    rw [hr, onTop]
  obtain ⟨hplace, hlast⟩ := afterData_goes hentries hT
  exact ⟨hplace ▸ (hc.value hval hp).2.1.delimiter k, _, hlast⟩

theorem afterName_goes (hc : Counts text r.place) (hr : r.entries = .sibling nil n :: es)
    (h : r.afterName w k = some T) (hT : T.next = some r') :
    Counts text r'.place ∧ ∃ v, r'.Last { n with vardata := v } es := by
  rw [Reader.afterName] at h
  split_ifs at h with hopen hsemi hk
  · cases h
    cases hT
    exact ⟨hc, n.vardata, Or.inr (by rw [Reader.openSection, hr, opened])⟩
  · cases h
    cases hT
    exact ⟨hc, n.vardata, Or.inl hr⟩
  · cases h
    cases hT
  · exact readData_goes hc hr h hT

/-- **An entry** has the line of what follows its name. -/
theorem readEntry_goes (hc : Counts text r.place) (h : r.readEntry = some T) (hT : T.next = some r') :
    Counts text r'.place ∧ ∃ n, Numbered text ⟨r.place.rest, none⟩ n ∧ r'.Last n r.entries := by
  rw [Reader.readEntry] at h
  simp only [Option.bind_eq_bind, Option.bind_eq_some_iff] at h
  obtain ⟨⟨val, k, p⟩, hval, h⟩ := h
  simp only at h
  split_ifs at h with hp
  · cases h
    cases hT
  rcases val with _ | val
  · cases h
    cases hT
  obtain ⟨hword, hc', hpassed⟩ := hc.value hval hp
  have hd := hc'.delimiter k
  have hentries : .sibling nil ⟨p.curline, val, none, 0⟩ :: r.entries = .sibling nil ⟨p.curline, val, none, 0⟩ :: r.entries := rfl
  obtain ⟨hplace, v, hlast⟩ := afterName_goes hd hentries h hT
  refine ⟨hplace, _, ⟨hword, ?_, by simp⟩, hlast⟩
  rw [← hpassed]
  exact hc'.line

/-- **A closing brace** is the line of the section. -/
theorem closeSection_goes (hc : Counts text r.place) (hx : r.place.rest.head? = some (ch '}'))
    (hT : r.closeSection.next = some r') :
    Counts text r'.place ∧ ∃ es, shut r.entries nil = some es ∧
      r'.entries = onTop (fun e => { e with sectlinenum := r.place.curline }) es := by
  obtain ⟨t, ht⟩ : ∃ t, r.place.rest = ch '}' :: t := by
    rcases hrest : r.place.rest with _ | ⟨x, t⟩
    · rw [hrest] at hx
      cases hx
    · rw [hrest] at hx
      exact ⟨t, by rw [Option.some.inj hx]⟩
  have hmove : Counts text ⟨t, r.place.curline⟩ := by
    refine hc.move ?_ ?_
    · rw [ht]
      exact List.suffix_cons _ t
    · rw [ht]
      exact passed_cons (by decide) t
  rw [Reader.closeSection] at hT
  split at hT
  · cases hT
  · rename_i es hshut
    rw [ht, List.tail_cons] at hT
    simp only at hT
    split_ifs at hT with hp hsemi
    · cases hT
    · cases hT
      refine ⟨(hmove.skip hp).move (List.tail_suffix _) ?_, es, hshut, rfl⟩
      rcases hrest : (Place.skip ⟨t, r.place.curline⟩).rest with _ | ⟨x, u⟩
      · rfl
      · rw [hrest, List.head?_cons, Option.some.injEq] at hsemi
        rw [List.tail_cons, hsemi]
        exact passed_cons (by decide) u
    · cases hT

theorem Marked.turn (h : Marked text r ms) (ht : r.turn = some T) (hT : T.next = some r') :
    Marked text r' (r.mark r' ms) := by
  rw [Reader.turn] at ht
  rw [Reader.mark]
  by_cases hoff : r.place.skip.rest = [] ∨ r.place.skip.errored
  · rw [if_pos hoff] at ht
    cases ht
    cases hT
  rw [if_neg hoff] at ht
  have hc : Counts text r.place.skip := h.place.skip fun herr => hoff (Or.inr herr)
  by_cases hx : r.place.skip.rest.head? = some (ch '}')
  · rw [if_pos hx] at ht
    rw [if_pos hx]
    cases ht
    obtain ⟨hplace, es, hshut, hes⟩ := closeSection_goes (r := { r with place := r.place.skip }) hc hx hT
    have hrel := h.nodes.shut (show Rel _ nil nil from trivial)
    rw [hshut] at hrel
    obtain ⟨ms', hms, hnodes⟩ : ∃ ms', shut ms nil = some ms' ∧ FramesRel (Numbered text) ms' es := by
      cases hrel' : shut ms nil with
      | none => rw [hrel'] at hrel; cases hrel
      | some ms' => rw [hrel'] at hrel; cases hrel with | some h => exact ⟨ms', rfl, h⟩
    rw [hms, Option.getD_some]
    refine ⟨hplace, ?_, h.closed.shut (t := nil) trivial hms fun l k => by simp [Closed]⟩
    rw [hes]
    refine hnodes.onTop_both fun k n hn => ⟨hn.name, hn.line, ?_⟩
    rintro b hb
    obtain rfl := Option.some.inj hb
    exact hc.line
  -- the new entry is on top, as a sibling or with its section open
  · rw [if_neg hx] at ht
    rw [if_neg hx]
    obtain ⟨hplace, n, hn, hlast⟩ := readEntry_goes (r := { r with place := r.place.skip }) hc ht hT
    refine ⟨hplace, ?_, ?_⟩
    · rcases hlast with hlast | hlast
      · rw [hlast]
        exact ⟨trivial, hn, h.nodes⟩
      · rw [hlast]
        exact ⟨hn, h.nodes⟩
    · rcases hlast with hlast | hlast
      · rw [hlast]
        exact ⟨fun h => absurd rfl h, trivial, h.closed⟩
      · rw [hlast]
        exact h.closed

theorem afterData_off {u : CString} (h : r.afterData w u k = .off r') : r'.place.errored := by
  rw [Reader.afterData, Reader.directive] at h
  split_ifs at h
  cases h
  exact errored_error _

theorem readData_off (h : r.readData w = some (.off r')) : r'.place.errored := by
  rw [Reader.readData] at h
  obtain ⟨⟨val, k, p⟩, hval, h⟩ := Option.bind_eq_some_iff.1 h
  simp only at h
  split_ifs at h with hp
  · cases h
    exact hp
  rcases val with _ | val
  · cases h
    exact errored_error _
  · exact afterData_off (Option.some.inj h)

theorem afterName_off (h : r.afterName w k = some (.off r')) : r'.place.errored := by
  rw [Reader.afterName] at h
  split_ifs at h
  · cases h
  · cases h
  · cases h
    exact errored_error _
  · exact readData_off h

theorem readEntry_off (h : r.readEntry = some (.off r')) : r'.place.errored := by
  rw [Reader.readEntry] at h
  obtain ⟨⟨val, k, p⟩, hval, h⟩ := Option.bind_eq_some_iff.1 h
  simp only at h
  split_ifs at h with hp
  · cases h
    exact hp
  rcases val with _ | val
  · cases h
    exact errored_error _
  · exact afterName_off h

theorem closeSection_off (h : r.closeSection = .off r') : r'.place.errored := by
  rw [Reader.closeSection] at h
  split at h
  · cases h
    exact errored_error _
  · simp only at h
    split_ifs at h with hp
    · cases h
      exact hp
    · cases h
      exact errored_error _

/-- The loop ends for an error, or where nothing is left. -/
theorem turn_off (h : r.turn = some (.off r')) : r'.place.errored ∨ r'.entries = r.entries := by
  rw [Reader.turn] at h
  split_ifs at h with hoff hx
  · cases h
    exact Or.inr rfl
  · exact Or.inl (closeSection_off (Option.some.inj h))
  · exact Or.inl (readEntry_off h)

variable {load : CString → Option (Option (List Loaded))} {next next' : List Loaded}

/-- The marks that are made while the loop goes on are those of the entries. -/
theorem loop_marks (h : Marked text r ms) {fuel : ℕ} (hrun : Reader.loop load fuel r next = some (r', next'))
    (hr : ¬ r'.place.errored) :
    ∃ ms', Reader.marks fuel r ms = some ms' ∧ FramesRel (Numbered text) ms' r'.entries ∧ EachFrame Closed ms' := by
  induction fuel generalizing r ms next with
  | zero => cases hrun
  | succ fuel ih =>
    rw [Reader.loop] at hrun
    rw [Reader.marks]
    split_ifs at hrun ⊢ with hnil
    · cases hrun
      exact ⟨ms, rfl, h.nodes, h.closed⟩
    rcases hturn : r.turn with _ | T
    · rw [Reader.body, hturn] at hrun
      cases hrun
    rw [Reader.body, hturn] at hrun
    rw [Option.bind_some]
    rcases T with r₁ | r₁ | ⟨r₁, name⟩
    · exact ih (h.turn hturn rfl) hrun
    -- a turn that goes off without an error has left the entries as they were
    · cases hrun
      have hentries := (turn_off hturn).resolve_left hr
      exact ⟨ms, rfl, hentries ▸ h.nodes, h.closed⟩
    · simp only [Option.bind_eq_bind, Option.bind_some, Turn.run, Reader.includeFile] at hrun
      rcases hload : load name with _ | _ | files
      · rw [hload] at hrun
        cases hrun
      -- the file cannot be loaded, which is an error of this one
      · rw [hload] at hrun
        cases hrun
        exact absurd (errored_error _) hr
      · rw [hload] at hrun
        exact ih (h.turn hturn rfl) hrun

/-- The marks of a text that is accepted are those of its entries. -/
theorem parseText_marks {fuel : ℕ} {filename : CString} {fs : List Loaded}
    (h : parseText load fuel filename text = some (some fs)) :
    ∃ ks f gs, marksOf fuel text = some ks ∧ fs = ⟨filename, f⟩ :: gs ∧ Rel (Numbered text) ks f ∧ Each Closed ks := by
  rw [parseText] at h
  obtain ⟨⟨r, next⟩, hrun, hfinish⟩ := Option.map_eq_some_iff.1 h
  simp only [Reader.finish] at hfinish
  split_ifs at hfinish with herr
  have hr : ¬ r.place.errored := fun h => herr (unclosed_errored h)
  -- an open section at the end would be an error
  have hsections : sections r.entries = [] := by
    by_contra hne
    rw [Reader.unclosed, if_neg fun h => h.elim hne hr] at herr
    exact herr (errored_error _)
  have hstart : Marked text (.start text) [] := by
    refine ⟨⟨List.suffix_rfl, ?_⟩, trivial, trivial⟩
    rw [Reader.start, passed_self]
    rfl
  obtain ⟨ms, hms, hnodes, hclosed⟩ := loop_marks hstart hrun hr
  have hentries : r.unclosed = r := by rw [Reader.unclosed, if_pos (Or.inl hsections)]
  refine ⟨plug ms nil, plug r.entries nil, next, ?_, ?_, hnodes.plug (show Rel _ nil nil from trivial), ?_⟩
  · rw [marksOf, hms, Option.map_some]
  · rw [hentries] at hfinish
    exact (Option.some.inj hfinish).symm
  · exact hclosed.plug (hnodes.sections_eq_nil.2 hsections) trivial

/-! ## The entries in memory -/

variable {m : Memory} {P Q : Mark → ConfigFileEntry → Prop} {ks : BinTree Mark} {o : Option Addr}

theorem lays_of_linked {a : BinTree Addr} {f : BinTree Node} {R : Mark → Node → Prop} {mem : List UInt8}
    (hl : Linked id (links m.entries) a o) (ha : Rel (IsNode m.entries mem) a f) (hk : Rel R ks f)
    (hP : ∀ ce e n k, m.entries.get ce = some e → IsNode m.entries mem ce n → R k n → P k e) : Lays m P ks o := by
  induction ks generalizing a f o with
  | nil =>
    cases f with
    | nil =>
      cases a with
      | nil => exact hl
      | node l x r => exact ha.elim
    | node l n r => exact hk.elim
  | node l k r ihl ihr =>
    cases f with
    | nil => exact hk.elim
    | node l' n r' =>
      cases a with
      | nil => exact ha.elim
      | node al ce ar =>
        obtain ⟨hp, i, j, hce, hll, hlr⟩ := hl
        obtain ⟨hal, hn, har⟩ := ha
        obtain ⟨e, he, -⟩ := id hn
        rw [links, id, he, Option.map_some] at hce
        cases hce
        exact ⟨ce, e, hp, he, hP ce e n k he hn hk.2.1, ihl hll hal hk.1, ihr hlr har hk.2.2⟩

theorem Lays.mono (h : Lays m P ks o) (hQ : ∀ k e, P k e → Q k e) : Lays m Q ks o := by
  induction ks generalizing o with
  | nil => exact h
  | node l k r ihl ihr =>
    obtain ⟨ce, e, hp, he, hk, hl, hr⟩ := h
    exact ⟨ce, e, hp, he, hQ k e hk, ihl hl, ihr hr⟩

/-- What holds of the entries is up to the marks. -/
theorem Lays.iff {C : Mark → Prop} (h : Lays m P ks o) (hC : ∀ k e, P k e → (Q k e ↔ C k)) :
    Lays m Q ks o ↔ ∀ k ∈ ks.inorder, C k := by
  induction ks generalizing o with
  | nil => exact iff_of_true h (by simp)
  | node l k r ihl ihr =>
    obtain ⟨ce, e, hp, he, hk, hl, hr⟩ := h
    rw [inorder_node, List.forall_mem_append, List.forall_mem_cons, ← ihl hl, ← ihr hr, ← hC k e hk]
    constructor
    · rintro ⟨ce', e', hp', he', hq, hl', hr'⟩
      rw [hp] at hp'
      obtain rfl := Option.some.inj hp'
      rw [he] at he'
      obtain rfl := Option.some.inj he'
      exact ⟨hl', hq, hr'⟩
    · rintro ⟨hl', hq, hr'⟩
      exact ⟨ce, e, hp, he, hq, hl', hr'⟩

/-- A number is right that is not moved, and not too large. -/
theorem toInt_eq_iff (a g : ℕ) : toInt (1 + (a + g : ℕ)) = 1 + a ↔ 4294967296 ∣ g ∧ 1 + a ≤ INT_MAX := by
  rw [toInt, Int.bmod, INT_MAX]
  split_ifs <;> omega

/-- **Line numbers**: a text that is accepted has marks, and its file the entries
of the marks. All of these have the lines of their names and of their closing
braces exactly if no name has a newline, in whitespace or in a comment, between
it and what follows it, and the lines can be counted. -/
theorem lineNumbers_iff {A : Allocators} (hA : A.entry.NeverFails) (hF : A.file.NeverFails) (hB : A.block.NeverFails)
    (files : CString → Opened) (fuel depth : ℕ) (filename text : CString) {m m' : Memory} {buf cf : Addr}
    {log : List LogLine} (hbuf : m.blocks.get buf = some (text.bytes ++ [0]))
    (hrun : parse A (loadInternal A files fuel depth) fuel filename buf m = some (log, m', some cf)) :
    ∃ file mem ks, m'.files.get cf = some file ∧ m'.blocks.get file.mem = some mem ∧
      marksOf fuel text.bytes = some ks ∧ Each Closed ks ∧
      Lays m' (fun k e => stringAt mem e.varname = wordAt k.name) ks file.entries ∧
      (Lays m' (HasLines text.bytes) ks file.entries ↔ ∀ k ∈ ks.inorder, Level text.bytes k) := by
  have hanswers := parse_block_answers hA hF hB files filename text hbuf fuel depth
  rw [hrun] at hanswers
  rcases hparse : parseText (loadText files fuel depth m.nestcnt) fuel filename text.bytes with _ | _ | fs
  · rw [hparse] at hanswers
    exact hanswers.elim
  · rw [hparse] at hanswers
    exact hanswers.elim
  rw [hparse] at hanswers
  obtain ⟨ks, f, gs, hks, rfl, hrel, hclosed⟩ := parseText_marks hparse
  obtain ⟨cs, hchain, -⟩ := hanswers
  rcases cs with _ | ⟨c, cs⟩
  · exact hchain.elim
  obtain ⟨hcf, n, ⟨p, mem, hfile, -, hmem, hlinked, hnodes⟩, -⟩ := hchain
  cases hcf
  have hlays : Lays m' (fun k e => stringAt mem e.varname = wordAt k.name ∧
      e.varlinenum = toInt (1 + (passed text.bytes k.name + passed k.name (following k.name) : ℕ)) ∧
      ∀ b, k.brace = some b → e.sectlinenum = toInt (1 + passed text.bytes b)) ks p := by
    refine lays_of_linked hlinked hnodes hrel fun ce e n k he hn hk => ?_
    obtain ⟨e', he', hline, hname, -, hsect⟩ := hn
    obtain rfl : e = e' := Option.some.inj (he.symm.trans he')
    exact ⟨hname.stringAt_self.trans hk.name, hline.trans hk.line, fun b hb => hsect.trans (hk.brace b hb)⟩
  refine ⟨_, mem, ks, hfile, hmem, hks, hclosed, hlays.mono fun k e h => h.1, hlays.iff fun k e h => ?_⟩
  rw [HasLines, Level, h.2.1, toInt_eq_iff]
  refine and_congr_right fun _ => forall_congr' fun b => forall_congr' fun hb => ?_
  have hbrace := toInt_eq_iff (passed text.bytes b) 0
  simp only [Nat.add_zero, Nat.dvd_zero, true_and] at hbrace
  rw [h.2.2 b hb, hbrace]

/-- A comment, then a block with an entry, and an entry, on six lines. -/
def linesText : CString :=
  ⟨[ch '\n', ch '#', ch 'c', ch '\n', ch 'a', ch ' ', ch '{', ch '\n', ch ' ', ch 'b', ch ' ', ch 'c', ch ';', ch '\n',
    ch '}', ch ';', ch '\n', ch 'd', ch ';'], by decide⟩

/-- Its marks. -/
def linesMarks : BinTree Mark :=
  .node (.node .nil ⟨linesText.bytes.drop 9, none⟩ .nil) ⟨linesText.bytes.drop 4, some (linesText.bytes.drop 14)⟩
    (.node .nil ⟨linesText.bytes.drop 17, none⟩ .nil)

theorem lineNumbers_iff_block : ∃ log m' cf file, parse ⟨.bump, .bump, .bump⟩
    (loadInternal ⟨.bump, .bump, .bump⟩ (fun _ => .noFile) 8 0) 8 shortName 0 (.ofText linesText) = some (log, m', some cf) ∧
      m'.files.get cf = some file ∧ Lays m' (HasLines linesText.bytes) linesMarks file.entries := by
  have hrun : ∃ log m' cf, parse ⟨.bump, .bump, .bump⟩ (loadInternal ⟨.bump, .bump, .bump⟩ (fun _ => .noFile) 8 0) 8
      shortName 0 (.ofText linesText) = some (log, m', some cf) := ⟨_, _, _, rfl⟩
  obtain ⟨log, m', cf, hrun⟩ := hrun
  obtain ⟨file, mem, ks, hfile, -, hks, -, -, hiff⟩ := lineNumbers_iff Allocator.bump_neverFails
    Allocator.bump_neverFails Allocator.bump_neverFails (fun _ => .noFile) 8 0 shortName linesText
    (Store.get_set_self ..) hrun
  have hmarks : marksOf 8 linesText.bytes = some linesMarks := rfl
  obtain rfl := Option.some.inj (hmarks.symm.trans hks)
  refine ⟨log, m', cf, file, hrun, hfile, hiff.2 fun k hk => ?_⟩
  have hinorder : linesMarks.inorder = [⟨linesText.bytes.drop 9, none⟩,
    ⟨linesText.bytes.drop 4, some (linesText.bytes.drop 14)⟩, ⟨linesText.bytes.drop 17, none⟩] := rfl
  rw [hinorder] at hk
  simp only [List.mem_cons, List.not_mem_nil, or_false] at hk
  rcases hk with rfl | rfl | rfl
  · exact ⟨⟨by decide, by decide⟩, nofun⟩
  · refine ⟨⟨by decide, by decide⟩, fun b hb => ?_⟩
    obtain rfl := Option.some.inj hb
    decide
  · exact ⟨⟨by decide, by decide⟩, nofun⟩

/-- The text `a`, a newline and a semicolon. -/
def lineText : CString := ⟨[ch 'a', ch '\n', ch ';'], by decide⟩

/-- The entry that is named on the first line has the number of the second. -/
theorem name_before_newline : ∃ log m' cf file ce e, parse ⟨.bump, .bump, .bump⟩
    (loadInternal ⟨.bump, .bump, .bump⟩ (fun _ => .noFile) 2 0) 2 shortName 0 (.ofText lineText) = some (log, m', some cf) ∧
      m'.files.get cf = some file ∧ file.entries = some ce ∧ m'.entries.get ce = some e ∧
      e.varlinenum = 2 ∧ 1 + newlines (lineText.bytes.take e.varname) = 1 :=
  ⟨_, _, _, _, _, _, rfl, rfl, rfl, rfl, rfl, rfl⟩

end Confparse

end Mowgli
