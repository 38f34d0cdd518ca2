import Mathlib.Data.List.TakeWhile
import Mowgli.Ext.Confparse.Load
/-!
# Reading past the end of the text

The parser stays in its text and ends, unless it comes to a name or a value
that is an unquoted word up to the end of the text: behind that it goes on
reading.
-/

namespace Mowgli

namespace Confparse

open BinTree Cursor

variable {p p' : Place} {val : Option CString} {k c : UInt8} {r r' : Reader} {w u : CString} {t : Turn}
variable {load load' : CString → Option (Option (List Loaded))} {fuel depth : ℕ}

theorem stringOf_bytes {bytes : List UInt8} (h : 0 ∉ bytes) : (stringOf bytes).bytes = bytes := by
  rw [stringOf, List.takeWhile_eq_self_iff]
  rintro x hx
  simp only [ne_eq, decide_not, Bool.not_eq_true', decide_eq_false_iff_not]
  rintro rfl
  exact h hx

/-- The text is an unquoted word up to its end. -/
def CutOff (t : List UInt8) : Prop := t ≠ [] ∧ t.head? ≠ some (ch '"') ∧ ∀ x ∈ t, ¬ endsWord x

theorem value_eq_none : p.value = none ↔ CutOff p.rest := by
  have hword : p.rest.dropWhile Place.inWord = [] ↔ ∀ x ∈ p.rest, ¬ endsWord x := by
    rw [List.dropWhile_eq_nil_iff]
    simp [Place.inWord]
  rw [Place.value, CutOff]
  by_cases hq : p.rest.head? = some (ch '"')
  · simp [hq]
  rw [if_neg hq, Place.unquoted, ← hword]
  have hsplit : p.rest.takeWhile Place.inWord ++ p.rest.dropWhile Place.inWord = p.rest :=
    List.takeWhile_append_dropWhile
  generalize p.rest.takeWhile Place.inWord = v at hsplit ⊢
  generalize p.rest.dropWhile Place.inWord = s at hsplit ⊢
  rcases v with _ | ⟨x, v⟩
  · rw [List.nil_append] at hsplit
    subst hsplit
    simp only [if_true, Option.some_ne_none, false_iff]
    exact fun h => h.1 h.2.2
  · rcases s with _ | ⟨y, s⟩
    · have hne : p.rest ≠ [] := by simp [← hsplit]
      simp [hq, hne]
    · simp only [List.cons_ne_nil, if_false]
      split_ifs <;> simp

/-! ## A turn goes on in the text -/

/-- Where the loop goes on. -/
def Turn.next : Turn → Option Reader
  | .on r => some r
  | .off _ => none
  | .file r _ => some r

/-- What is left of a text after some of it was read. -/
def Within (t u : List UInt8) : Prop := t <:+ u ∧ t.length < u.length

theorem Within.of_suffix {t u v : List UInt8} (h : t <:+ u) (h' : Within u v) : Within t v :=
  ⟨h.trans h'.1, h.length_le.trans_lt h'.2⟩

theorem Within.trans_suffix {t u v : List UInt8} (h : Within t u) (h' : u <:+ v) : Within t v :=
  ⟨h.1.trans h', h.2.trans_le h'.length_le⟩

theorem within_tail {t : List UInt8} (h : t ≠ []) : Within t.tail t := by
  refine ⟨List.tail_suffix t, ?_⟩
  have hpos := List.length_pos_iff.2 h
  rw [List.length_tail]
  omega

theorem delimiter_suffix (p : Place) (k : UInt8) : (p.delimiter k).2.rest <:+ p.rest := by
  obtain ⟨e, he⟩ := p.delimiter_suffix k
  exact ⟨e, he.symm⟩

theorem skip_suffix (p : Place) : p.skip.rest <:+ p.rest := by
  obtain ⟨e, he⟩ := p.skip_suffix
  exact ⟨e, he.symm⟩

theorem value_within (h : p.value = some (some w, k, p')) : Within p'.rest p.rest := by
  obtain ⟨e, he, hne⟩ := Place.value_suffix h
  have hpos := List.length_pos_iff.2 (hne (by simp))
  refine ⟨⟨e, he.symm⟩, ?_⟩
  rw [he, List.length_append]
  omega

theorem afterData_place (h : (r.afterData w u c).next = some r') : r'.place = r.place := by
  rw [Reader.afterData, Reader.directive] at h
  split_ifs at h
  · rw [← Option.some.inj h]
    rfl
  · rw [← Option.some.inj h]
  · rw [← Option.some.inj h]
  · cases h

theorem readData_within (h : r.readData w = some t) (hn : t.next = some r') : Within r'.place.rest r.place.rest := by
  rw [Reader.readData] at h
  obtain ⟨⟨val, c, place⟩, hval, h⟩ := Option.bind_eq_some_iff.1 h
  simp only at h
  split_ifs at h
  · cases h
    cases hn
  · rcases val with _ | u
    · cases h
      cases hn
    · rw [← Option.some.inj h] at hn
      rw [afterData_place hn]
      exact .of_suffix (delimiter_suffix place c) (value_within hval)

theorem afterName_suffix (h : r.afterName w c = some t) (hn : t.next = some r') : r'.place.rest <:+ r.place.rest := by
  rw [Reader.afterName] at h
  split_ifs at h
  · cases h
    cases hn
    exact List.suffix_rfl
  · cases h
    cases hn
    exact List.suffix_rfl
  · cases h
    cases hn
  · exact (readData_within h hn).1

theorem readEntry_within (h : r.readEntry = some t) (hn : t.next = some r') : Within r'.place.rest r.place.rest := by
  rw [Reader.readEntry] at h
  obtain ⟨⟨val, c, place⟩, hval, h⟩ := Option.bind_eq_some_iff.1 h
  simp only at h
  split_ifs at h
  · cases h
    cases hn
  · rcases val with _ | w
    · cases h
      cases hn
    · exact .of_suffix ((afterName_suffix h hn).trans (delimiter_suffix place c)) (value_within hval)

theorem closeSection_within (hn : r.closeSection.next = some r') (hne : r.place.rest ≠ []) :
    Within r'.place.rest r.place.rest := by
  have hskip : (Place.skip ⟨r.place.rest.tail, r.place.curline⟩).rest <:+ r.place.rest.tail := skip_suffix _
  rw [Reader.closeSection] at hn
  split at hn
  · cases hn
  · simp only at hn
    split_ifs at hn
    · cases hn
    · rw [← Option.some.inj hn]
      exact .of_suffix ((List.tail_suffix _).trans hskip) (within_tail hne)
    · cases hn

/-- Each turn of the loop reads on. -/
theorem turn_within (h : r.turn = some t) (hn : t.next = some r') : Within r'.place.rest r.place.rest := by
  have hskip := skip_suffix r.place
  rw [Reader.turn] at h
  split_ifs at h with hend hclose
  · cases h
    cases hn
  · rw [← Option.some.inj h] at hn
    exact (closeSection_within hn fun h => hend (Or.inl h)).trans_suffix hskip
  · exact (readEntry_within h hn).trans_suffix hskip

theorem body_within {fs : List Loaded} (h : r.body load = some (true, r', fs)) : Within r'.place.rest r.place.rest := by
  obtain ⟨t, ht, hrun⟩ := Option.bind_eq_some_iff.1 h
  cases t with
  | on r₁ =>
    cases hrun
    exact turn_within ht rfl
  | off r₁ => cases hrun
  | file r₁ name =>
    obtain ⟨x, -, hx⟩ := Option.map_eq_some_iff.1 hrun
    cases x with
    | none => cases hx
    | some gs =>
      cases hx
      exact turn_within ht rfl

/-! ## Where names and values are read -/

/-- What is left of the text where a turn of the loop reads the name of an
entry, and where it reads its value. -/
def Reader.tokens (r : Reader) : List (List UInt8) :=
  let p := r.place.skip
  if p.rest = [] ∨ p.errored ∨ p.rest.head? = some (ch '}') then []
  else
    match p.value with
    | some (some _, k, p') =>
      if ¬ p'.errored ∧ (p'.delimiter k).1 = 0 then [p.rest, (p'.delimiter k).2.rest] else [p.rest]
    | _ => [p.rest]

theorem afterName_eq_none : r.afterName w c = none ↔ c = 0 ∧ r.place.value = none := by
  have hdata : r.readData w = none ↔ r.place.value = none := by
    rw [Reader.readData]
    rcases r.place.value with _ | ⟨val, k, p⟩
    · simp
    · simp only [Option.bind_eq_bind, Option.bind_some, reduceCtorEq, iff_false]
      split_ifs
      · simp
      · cases val <;> simp
  rw [Reader.afterName]
  by_cases hc : c = 0
  · subst hc
    rw [if_neg (by decide), if_neg (by decide), if_neg (by simp), hdata]
    simp
  · split_ifs <;> simp [hc]

/-- A turn cannot be made where a name or a value is cut off. -/
theorem turn_eq_none : r.turn = none ↔ ∃ t ∈ r.tokens, CutOff t := by
  rw [Reader.turn, Reader.tokens]
  by_cases hend : r.place.skip.rest = [] ∨ r.place.skip.errored
  · rw [if_pos hend, if_pos (by tauto)]
    simp
  rw [if_neg hend]
  by_cases hclose : r.place.skip.rest.head? = some (ch '}')
  · rw [if_pos hclose, if_pos (by tauto)]
    simp
  rw [if_neg hclose, if_neg (by tauto), Reader.readEntry]
  rcases hval : r.place.skip.value with _ | ⟨val, k, p⟩
  · simp [← value_eq_none, hval]
  have hcut : ¬ CutOff r.place.skip.rest := by rw [← value_eq_none, hval]; simp
  simp only [Option.bind_eq_bind, Option.bind_some]
  rcases val with _ | w
  · split_ifs <;> simp [hcut]
  by_cases hp : p.errored
  · simp [hp, hcut]
  simp only [hp, if_false, not_false_eq_true, true_and, afterName_eq_none, Reader.newEntry, value_eq_none]
  by_cases hk : (p.delimiter k).1 = 0
  · simp [hk, hcut]
  · simp [hk, hcut]

/-- The loop comes to the reader `r`. -/
inductive Turns (load : CString → Option (Option (List Loaded))) (r₀ : Reader) : Reader → Prop
  | start : Turns load r₀ r₀
  | turn {r r' : Reader} {fs : List Loaded} :
    Turns load r₀ r → r.place.rest ≠ [] → r.body load = some (true, r', fs) → Turns load r₀ r'

/-- The parser of a text, `nestcnt` being `n`, or that of a file it includes,
comes to where `t` is left and reads a name or a value there. -/
inductive Comes (files : CString → Opened) : ℕ → List UInt8 → List UInt8 → Prop
  | here {n fuel depth : ℕ} {text t : List UInt8} {r : Reader} :
    Turns (loadText files fuel depth n) (.start text) r → t ∈ r.tokens → Comes files n text t
  | included {n fuel depth : ℕ} {text t bytes : List UInt8} {r r' : Reader} {name : CString} :
    Turns (loadText files fuel depth n) (.start text) r → r.turn = some (.file r' name) → n ≤ maxIncludeNesting →
      files name = .contents bytes → Comes files (n + 1) (stringOf bytes).bytes t → Comes files n text t

/-! ## More fuel -/

/-- What the one loader answers the other answers. -/
def Below (load load' : CString → Option (Option (List Loaded))) : Prop := ∀ name x, load name = some x → load' name = some x

theorem body_mono (h : Below load load') {x : Bool × Reader × List Loaded} (hr : r.body load = some x) :
    r.body load' = some x := by
  obtain ⟨t, ht, hrun⟩ := Option.bind_eq_some_iff.1 hr
  rw [Reader.body, ht, Option.bind_some]
  cases t with
  | on r => exact hrun
  | off r => exact hrun
  | file r name =>
    obtain ⟨y, hy, hx⟩ := Option.map_eq_some_iff.1 hrun
    rw [Turn.run, Reader.includeFile, h name y hy, Option.map_some, hx]

theorem loop_mono (h : Below load load') {fuel' : ℕ} (hf : fuel ≤ fuel') {next : List Loaded} {x : Reader × List Loaded}
    (hr : Reader.loop load fuel r next = some x) : Reader.loop load' fuel' r next = some x := by
  induction fuel generalizing r next fuel' with
  | zero => cases hr
  | succ fuel ih =>
    obtain ⟨fuel', rfl⟩ : ∃ k, fuel' = k + 1 := ⟨fuel' - 1, by omega⟩
    rw [Reader.loop] at hr ⊢
    split_ifs at hr ⊢ with hnil
    · exact hr
    · obtain ⟨⟨go, r', fs⟩, hbody, hr⟩ := Option.bind_eq_some_iff.1 hr
      simp only [body_mono h hbody, Option.bind_eq_bind, Option.bind_some]
      simp only at hr
      split_ifs at hr ⊢ with hgo
      · exact ih (by omega) hr
      · exact hr

theorem loadText_mono (files : CString → Opened) (n : ℕ) {fuel fuel' depth depth' : ℕ} (hf : fuel ≤ fuel')
    (hd : depth ≤ depth') : Below (loadText files fuel depth n) (loadText files fuel' depth' n) := by
  induction depth generalizing n depth' with
  | zero =>
    intro name x hx
    unfold loadText at hx ⊢
    split_ifs at hx ⊢ with hn
    · exact hx
    · rcases hfile : files name with _ | _ | _ | _ | _ | bytes
      all_goals rw [hfile] at hx
      · exact hx
      · exact hx
      · exact hx
      · exact hx
      · exact hx
      · cases hx
  | succ depth ih =>
    obtain ⟨depth', rfl⟩ : ∃ k, depth' = k + 1 := ⟨depth' - 1, by omega⟩
    intro name x hx
    unfold loadText at hx ⊢
    split_ifs at hx ⊢ with hn
    · exact hx
    · rcases hfile : files name with _ | _ | _ | _ | _ | bytes
      all_goals rw [hfile] at hx
      · exact hx
      · exact hx
      · exact hx
      · exact hx
      · exact hx
      · obtain ⟨r, hloop, hx⟩ := Option.map_eq_some_iff.1 hx
        have hloop' := loop_mono (ih (n + 1) (by omega : depth ≤ depth')) hf hloop
        exact (congrArg (Option.map _) hloop').trans (congrArg some hx)

theorem Turns.mono (h : Below load load') {r₀ : Reader} (hr : Turns load r₀ r) : Turns load' r₀ r := by
  induction hr with
  | start => exact .start
  | turn _ hne hbody ih => exact .turn ih hne (body_mono h hbody)

/-- A loop that ends came by every reader it comes to. -/
theorem Turns.loop {r₀ : Reader} {next : List Loaded} {x : Reader × List Loaded} (hr : Turns load r₀ r)
    (hloop : Reader.loop load fuel r₀ next = some x) :
    ∃ fuel' next', Reader.loop load fuel' r next' = some x := by
  induction hr with
  | start => exact ⟨fuel, next, hloop⟩
  | turn _ hne hbody ih =>
    obtain ⟨fuel', next', hf⟩ := ih
    rcases fuel' with _ | fuel'
    · cases hf
    · rw [Reader.loop, if_neg hne, hbody] at hf
      exact ⟨fuel', _, hf⟩

/-! ## The parser ends -/

variable {files : CString → Opened} {n : ℕ} {text : List UInt8}

theorem rest_ne_nil {s : List UInt8} (h : s ∈ r.tokens) : r.place.rest ≠ [] := by
  intro hnil
  have hskip := skip_suffix r.place
  rw [hnil, List.suffix_nil] at hskip
  rw [Reader.tokens, hskip] at h
  simp at h

/-- Where a name or a value is cut off the parser does not end. -/
theorem Comes.not_ends {s : List UInt8} (h : Comes files n text s) (hcut : CutOff s) (fuel fuel' depth : ℕ)
    (filename : CString) : parseText (loadText files fuel depth n) fuel' filename text = none := by
  induction h generalizing fuel fuel' depth filename with
  | @here n fuel₀ depth₀ text s r hturns hs =>
    rcases hloop : Reader.loop (loadText files fuel depth n) fuel' (.start text) [] with _ | x
    · rw [parseText, hloop, Option.map_none]
    have hmax := loop_mono (loadText_mono files n (le_max_left fuel fuel₀) (le_max_left depth depth₀)) le_rfl hloop
    have hturns' := hturns.mono (loadText_mono files n (le_max_right fuel fuel₀) (le_max_right depth depth₀))
    obtain ⟨k, next, hk⟩ := hturns'.loop hmax
    rcases k with _ | k
    · cases hk
    · rw [Reader.loop, if_neg (rest_ne_nil hs), Reader.body, turn_eq_none.2 ⟨s, hs, hcut⟩] at hk
      cases hk
  | @included n fuel₀ depth₀ text s bytes r r' name hturns hturn hn hfile _ ih =>
    rcases hloop : Reader.loop (loadText files fuel depth n) fuel' (.start text) [] with _ | x
    · rw [parseText, hloop, Option.map_none]
    have hmax := loop_mono (loadText_mono files n (le_max_left fuel fuel₀) (le_max_left depth depth₀)) le_rfl hloop
    have hturns' := hturns.mono (loadText_mono files n (le_max_right fuel fuel₀) (le_max_right depth depth₀))
    obtain ⟨k, next, hk⟩ := hturns'.loop hmax
    have hne : r.place.rest ≠ [] := by
      intro hnil
      have hlt := (turn_within hturn rfl).2
      rw [hnil] at hlt
      exact absurd hlt (Nat.not_lt_zero _)
    have hload : ∀ f d, loadText files f d n name = none := by
      intro f d
      unfold loadText
      rw [if_neg (by omega), hfile]
      rcases d with _ | d
      · rfl
      · exact ih hcut _ _ _ _
    rcases k with _ | k
    · cases hk
    · rw [Reader.loop, if_neg hne, Reader.body, hturn] at hk
      simp [Turn.run, Reader.includeFile, hload] at hk

/-- The loop ends where no name and no value is cut off and the files that are
included can be loaded. -/
theorem loop_ends_of {r₀ : Reader} (hcut : ∀ f r, Turns (loadText files f depth n) r₀ r → r.turn ≠ none)
    (hload : ∀ f r r' name, Turns (loadText files f depth n) r₀ r → r.turn = some (.file r' name) →
      ∃ k, (loadText files k depth n name).isSome)
    (hr : Turns (loadText files fuel depth n) r₀ r) :
    ∃ k, ∀ f g next, k ≤ f → k ≤ g → (Reader.loop (loadText files f depth n) g r next).isSome := by
  induction hlen : r.place.rest.length using Nat.strong_induction_on generalizing r fuel with
  | _ len ih =>
    subst hlen
    by_cases hnil : r.place.rest = []
    · refine ⟨1, fun f g next _ hg => ?_⟩
      obtain ⟨g, rfl⟩ : ∃ k, g = k + 1 := ⟨g - 1, by omega⟩
      rw [Reader.loop, if_pos hnil]
      rfl
    obtain ⟨t, ht⟩ := Option.ne_none_iff_exists'.1 (hcut fuel r hr)
    -- from `k` on the turn is made the same way
    have hgo : ∀ (k : ℕ) (go : Bool) (r' : Reader) (fs : List Loaded),
        (∀ f, k ≤ f → r.body (loadText files f depth n) = some (go, r', fs)) →
        ∃ k, ∀ f g next, k ≤ f → k ≤ g → (Reader.loop (loadText files f depth n) g r next).isSome := by
      intro k go r' fs hbody
      have hnext : ∃ k', ∀ f g next, k' ≤ f → k' ≤ g → go = true →
          (Reader.loop (loadText files f depth n) g r' next).isSome := by
        cases go with
        | false => exact ⟨0, fun _ _ _ _ _ h => by cases h⟩
        | true =>
          have hr' : Turns (loadText files (max fuel k) depth n) r₀ r' :=
            .turn (hr.mono (loadText_mono files n (le_max_left ..) le_rfl)) hnil (hbody _ (le_max_right ..))
          obtain ⟨k', hk'⟩ := ih _ (body_within (hbody k le_rfl)).2 hr' rfl
          exact ⟨k', fun f g next hf hg _ => hk' f g next hf hg⟩
      obtain ⟨k', hk'⟩ := hnext
      refine ⟨max k k' + 1, fun f g next hf hg => ?_⟩
      obtain ⟨g, rfl⟩ : ∃ j, g = j + 1 := ⟨g - 1, by omega⟩
      rw [Reader.loop, if_neg hnil, hbody f (by omega)]
      simp only [Option.bind_eq_bind, Option.bind_some]
      split_ifs with h
      · exact hk' f g _ (by omega) (by omega) h
      · rfl
    cases t with
    | on r' => exact hgo 0 true r' [] fun f _ => by rw [Reader.body, ht]; rfl
    | off r' => exact hgo 0 false r' [] fun f _ => by rw [Reader.body, ht]; rfl
    | file r' name =>
      obtain ⟨k, hk⟩ := hload fuel r r' name hr ht
      obtain ⟨x, hx⟩ := Option.isSome_iff_exists.1 hk
      have hrun : ∀ f, k ≤ f → r.body (loadText files f depth n) = r'.includeFile (fun _ => some x) name := by
        intro f hf
        rw [Reader.body, ht]
        exact congrArg (Option.map _) (loadText_mono files n hf le_rfl name x hx)
      cases x with
      | none => exact hgo k false _ [] hrun
      | some fs => exact hgo k true _ fs hrun

/-- A text is parsed to its end where no name and no value is cut off and the
files that are included can be loaded. -/
theorem parseText_ends_of (h : ∀ s, Comes files n text s → ¬ CutOff s)
    (hload : ∀ f r r' name, Turns (loadText files f depth n) (.start text) r → r.turn = some (.file r' name) →
      ∃ k, (loadText files k depth n name).isSome) :
    ∃ k, ∀ f g filename, k ≤ f → k ≤ g → (parseText (loadText files f depth n) g filename text).isSome := by
  have hcut : ∀ f r, Turns (loadText files f depth n) (.start text) r → r.turn ≠ none := by
    intro f r hr hnone
    obtain ⟨s, hs, hcut⟩ := turn_eq_none.1 hnone
    exact h s (.here hr hs) hcut
  obtain ⟨k, hk⟩ := loop_ends_of hcut hload (.start : Turns (loadText files 0 depth n) _ _)
  refine ⟨k, fun f g filename hf hg => ?_⟩
  rw [parseText, Option.isSome_map]
  exact hk f g [] hf hg

/-- What need not be parsed is loaded. -/
theorem loadText_isSome_of (files : CString → Opened) (fuel depth n : ℕ) (name : CString)
    (h : n ≤ maxIncludeNesting → ∀ bytes, files name ≠ .contents bytes) : (loadText files fuel depth n name).isSome := by
  unfold loadText
  split_ifs with hn
  · rfl
  · have hfile := h (not_lt.1 hn)
    split
    · rename_i bytes hbytes
      exact absurd hbytes (hfile bytes)
    · rfl

/-- Where no name and no value is cut off the parser ends, and it parses as
many files at a time as may be nested. -/
theorem parseText_ends (h : ∀ s, Comes files n text s → ¬ CutOff s) (hd : maxIncludeNesting < n + depth) :
    ∃ k, ∀ f g filename, k ≤ f → k ≤ g → (parseText (loadText files f depth n) g filename text).isSome := by
  induction depth generalizing n text with
  | zero => exact parseText_ends_of h fun _ _ _ name _ _ => ⟨0, loadText_isSome_of files 0 0 n name (by omega)⟩
  | succ depth ih =>
    refine parseText_ends_of h fun f r r' name hr hturn => ?_
    by_cases hfile : n ≤ maxIncludeNesting ∧ ∃ bytes, files name = .contents bytes
    · obtain ⟨hn, bytes, hbytes⟩ := hfile
      obtain ⟨k, hk⟩ := ih (fun s hs => h s (.included hr hturn hn hbytes hs)) (by omega)
      refine ⟨k, ?_⟩
      unfold loadText
      rw [if_neg (by omega), hbytes]
      exact hk k k name le_rfl le_rfl
    · exact ⟨0, loadText_isSome_of files 0 _ n name fun hn bytes hbytes => hfile ⟨hn, bytes, hbytes⟩⟩

variable {A : Allocators} {m₀ m : Memory} {buf : Addr}

theorem Answers.isSome_iff {x : Option (List LogLine × Memory × Option Addr)} {y : Option (Option (List Loaded))}
    (h : Answers m x y) : x.isSome ↔ y.isSome := by
  rcases x with _ | ⟨log, m', _ | a⟩
  · rcases y with _ | _ | fs
    · rfl
    · exact h.elim
    · exact h.elim
  · rcases y with _ | _ | fs
    · exact h.elim
    · exact Iff.rfl
    · exact h.elim
  · rcases y with _ | _ | fs
    · exact h.elim
    · exact h.elim
    · exact Iff.rfl

/-- A text in a block is parsed as it says. What is there before is the memory
without the block. -/
theorem parse_block_answers (hA : A.entry.NeverFails) (hF : A.file.NeverFails) (hB : A.block.NeverFails)
    (files : CString → Opened) (filename text : CString) (hbuf : m.blocks.get buf = some (text.bytes ++ [0]))
    (fuel depth : ℕ) :
    Answers { m with blocks := m.blocks.free buf } (parse A (loadInternal A files fuel depth) fuel filename buf m)
      (parseText (loadText files fuel depth m.nestcnt) fuel filename text.bytes) := by
  let m₀ : Memory := { m with blocks := m.blocks.free buf }
  have hext : Extends m₀ m [] [] [buf] := by
    refine ⟨.refl _, .refl _, ⟨List.nodup_singleton _, ?_, ?_, ?_⟩, rfl⟩
    · intro a ha
      rw [List.mem_singleton.1 ha, Store.get_free, if_pos rfl]
    · intro a ha
      exact ⟨_, (List.mem_singleton.1 ha).symm ▸ hbuf⟩
    · intro a ha
      exact (Store.get_free_of_ne _ fun h => ha (List.mem_singleton.2 h)).symm
  have hload : LoadsAs m₀.nestcnt (loadInternal A files fuel depth) (loadText files fuel depth m.nestcnt) :=
    fun m' file hm' =>
      (show m'.nestcnt = m.nestcnt from hm') ▸ loadInternal_answers hA hF hB files fuel depth m' file
  exact parse_answers hA hF hB text.nul_free hbuf hext hload

theorem parse_isSome_iff (hA : A.entry.NeverFails) (hF : A.file.NeverFails) (hB : A.block.NeverFails)
    (files : CString → Opened) (filename text : CString) (hbuf : m.blocks.get buf = some (text.bytes ++ [0]))
    (fuel depth : ℕ) :
    (parse A (loadInternal A files fuel depth) fuel filename buf m).isSome ↔
      (parseText (loadText files fuel depth m.nestcnt) fuel filename text.bytes).isSome :=
  (parse_block_answers hA hF hB files filename text hbuf fuel depth).isSome_iff

/-- The cursor is in its text, which ends with the block. -/
def Cursor.InText (c : Cursor) : Prop := ∃ d t, 0 ∉ t ∧ c.mem = d ++ t ++ [0] ∧ c.pos = d.length

theorem Cursor.InText.cursor {c : Cursor} (h : c.InText) :
    ∃ p d, 0 ∉ p.rest ∧ c = Place.cursor p d c.log := by
  obtain ⟨d, t, ht, hmem, hpos⟩ := h
  refine ⟨⟨t, c.curline⟩, d, ht, ?_⟩
  obtain ⟨mem, pos, l, log⟩ := c
  simp only at hmem hpos
  rw [hmem, hpos, Place.cursor, List.append_assoc]

theorem skipWs_isSome {c : Cursor} (h : c.InText) : c.skipWs.isSome := by
  obtain ⟨p, d, hp, hc⟩ := h.cursor
  obtain ⟨e, log, -, hskip⟩ := skipWs_cursor hp d c.log
  rw [hc, hskip]
  rfl

theorem getValue_isSome {c : Cursor} (h : c.InText) : c.getValue.isSome := by
  obtain ⟨p, d, hp, hc⟩ := h.cursor
  obtain ⟨hsome, hnone⟩ := getValue_cursor hp d c.log
  rw [hc]
  rcases hval : p.value with _ | ⟨val, k, p'⟩
  · obtain ⟨a, cur, hget, -⟩ := hnone hval
    rw [hget]
    rfl
  · obtain ⟨v, cur, hget, -⟩ := hsome val k p' hval
    rw [hget]
    rfl

/-- **When the parser stays in its text and ends**: exactly when no name and no
value that it comes to, in the text or in that of a file it includes, is an
unquoted word up to the end of the text. `skip_ws` and `get_value` stay in the
text they are called in. -/
theorem parse_stays_iff (hA : A.entry.NeverFails) (hF : A.file.NeverFails) (hB : A.block.NeverFails)
    (files : CString → Opened) (filename text : CString) (hbuf : m.blocks.get buf = some (text.bytes ++ [0])) :
    (∀ c : Cursor, c.InText → c.skipWs.isSome ∧ c.getValue.isSome) ∧
    ((∃ k, ∀ fuel, k ≤ fuel →
      (parse A (loadInternal A files fuel (maxIncludeNesting + 1)) fuel filename buf m).isSome) ↔
      ¬ ∃ s, Comes files m.nestcnt text.bytes s ∧ CutOff s) := by
  simp only [parse_isSome_iff hA hF hB files filename text hbuf]
  refine ⟨fun c hc => ⟨skipWs_isSome hc, getValue_isSome hc⟩, ?_, ?_⟩
  · rintro ⟨k, hk⟩ ⟨s, hs, hcut⟩
    have hsome := hk k le_rfl
    rw [hs.not_ends hcut] at hsome
    cases hsome
  · intro h
    have hd : maxIncludeNesting < m.nestcnt + (maxIncludeNesting + 1) := by omega
    obtain ⟨k, hk⟩ := parseText_ends (fun s hs hcut => h ⟨s, hs, hcut⟩) hd
    exact ⟨k, fun fuel hf => hk fuel fuel filename hf hf⟩

/-- A memory that holds one text. -/
def Memory.ofText (text : CString) : Memory := ⟨.empty, .empty, .set .empty 0 (text.bytes ++ [0]), 0⟩

/-- The text `a;`. -/
def closedText : CString := ⟨[ch 'a', ch ';'], by decide⟩

/-- The text `foo`. -/
def openText : CString := ⟨[ch 'f', ch 'o', ch 'o'], by decide⟩

theorem parse_stays_closed : ∃ k, ∀ fuel, k ≤ fuel →
    (parse ⟨.bump, .bump, .bump⟩ (loadInternal ⟨.bump, .bump, .bump⟩ (fun _ => .noFile) fuel (maxIncludeNesting + 1)) fuel
      includeName 0 (.ofText closedText)).isSome := by
  refine (parse_stays_iff Allocator.bump_neverFails Allocator.bump_neverFails Allocator.bump_neverFails _ includeName
    closedText (Store.get_set_self ..)).2.2 ?_
  -- the loop comes to the first entry and to the end
  have hturns : ∀ {load r}, Turns load (.start closedText.bytes) r →
      r = .start closedText.bytes ∨ r.place.rest = [] := by
    intro load r h
    induction h with
    | start => exact Or.inl rfl
    | turn _ hne hbody ih =>
      obtain rfl | hnil := ih
      · cases hbody
        exact Or.inr rfl
      · exact absurd hnil hne
  rintro ⟨s, hs, hcut⟩
  cases hs with
  | here hr ht =>
    obtain rfl | hnil := hturns hr
    · obtain rfl : s = closedText.bytes := List.mem_singleton.1 ht
      exact hcut.2.2 (ch ';') (by decide) (by decide)
    · exact rest_ne_nil ht hnil
  | included hr hturn hn hfile => cases hfile

/-- The parser reads on behind a word that ends the text. -/
theorem parse_leaves_text : ¬ ∃ k, ∀ fuel, k ≤ fuel →
    (parse ⟨.bump, .bump, .bump⟩ (loadInternal ⟨.bump, .bump, .bump⟩ (fun _ => .noFile) fuel (maxIncludeNesting + 1)) fuel
      includeName 0 (.ofText openText)).isSome := by
  rintro ⟨k, hk⟩
  have hsome := hk k le_rfl
  rw [parse_isSome_iff Allocator.bump_neverFails Allocator.bump_neverFails Allocator.bump_neverFails _ includeName
    openText (Store.get_set_self ..)] at hsome
  have hcut : CutOff openText.bytes := by
    refine ⟨by decide, by decide, fun x hx => ?_⟩
    simp only [openText, List.mem_cons, List.not_mem_nil, or_false] at hx
    rcases hx with rfl | rfl | rfl <;> decide
  have hstart : Turns (loadText (fun _ => .noFile) 0 0 0) (.start openText.bytes) (.start openText.bytes) := .start
  have hnone := (Comes.here hstart (List.mem_singleton.2 rfl)).not_ends hcut k k (maxIncludeNesting + 1) includeName
  rw [show (Memory.ofText openText).nestcnt = 0 from rfl, hnone] at hsome
  cases hsome

end Confparse

end Mowgli
