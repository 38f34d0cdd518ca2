import Mowgli.Ext.Confparse.Bounds
import Mowgli.Library.Preorder
/-!
# The files that are included

What a text includes can be told from the text alone. Where every text ends
in a newline a load comes to an end, and what it loads are the files in the
pre-order of their directives, as deep as they may be nested. A load that
reaches a file that is missing or malformed, or one that includes itself,
loads nothing.
-/

namespace Mowgli

namespace Confparse

open BinTree Relation

variable {files : CString → Opened} {fuel depth n : ℕ} {r r' r'' : Reader} {s t text bytes : List UInt8}
variable {load : CString → Option (Option (List Loaded))} {name : CString} {names : List CString}

/-! ## Texts that end in a newline -/

/-- Each file is text that ends in a newline. -/
def Proper (files : CString → Opened) : Prop :=
  ∀ name bytes, files name = .contents bytes → 0 ∉ bytes ∧ bytes.getLast? = some (ch '\n')

theorem not_cutOff (h : t.getLast? = some (ch '\n')) (hs : s <:+ t) : ¬ CutOff s := by
  obtain ⟨e, rfl⟩ := hs
  rintro ⟨hne, -, hall⟩
  rw [List.getLast?_append_of_ne_nil _ hne] at h
  exact hall _ (List.mem_of_getLast? h) (by decide)

theorem tokens_suffix (h : t ∈ r.tokens) : t <:+ r.place.rest := by
  have hskip := skip_suffix r.place
  rw [Reader.tokens] at h
  split_ifs at h
  · cases h
  · split at h
    · rename_i w k p hval
      have hdel := (delimiter_suffix p k).trans (value_within hval).1
      split_ifs at h
      · rcases List.mem_cons.1 h with rfl | h
        · exact hskip
        · rw [List.mem_singleton.1 h]
          exact hdel.trans hskip
      · rw [List.mem_singleton.1 h]
        exact hskip
    · rw [List.mem_singleton.1 h]
      exact hskip

theorem Turns.suffix {r₀ : Reader} (h : Turns load r₀ r) : r.place.rest <:+ r₀.place.rest := by
  induction h with
  | start => exact List.suffix_rfl
  | turn _ _ hbody ih => exact (body_within hbody).1.trans ih

/-- In no file a word goes up to the end of the text. -/
def Uncut (files : CString → Opened) : Prop :=
  ∀ name bytes, files name = .contents bytes → ∀ s, s <:+ (stringOf bytes).bytes → ¬ CutOff s

theorem Comes.uncut (hfiles : Uncut files) (h : Comes files n text s) (ht : ∀ s, s <:+ text → ¬ CutOff s) : ¬ CutOff s := by
  induction h with
  | here hr hs => exact ht _ ((tokens_suffix hs).trans hr.suffix)
  | included _ _ _ hfile _ ih => exact ih (hfiles _ _ hfile)

/-- A load of files in which nothing is cut off comes to an end, with as many
files parsed at a time as may be nested. -/
theorem Uncut.loadText_ends (hfiles : Uncut files) (hd : maxIncludeNesting < n + depth) (name : CString) :
    ∃ k, ∀ fuel, k ≤ fuel → (loadText files fuel depth n name).isSome := by
  by_cases hn : maxIncludeNesting < n
  · refine ⟨0, fun fuel _ => ?_⟩
    unfold loadText
    rw [if_pos hn]
    rfl
  rcases hfile : files name with _ | _ | _ | _ | _ | bytes
  case neg.contents =>
    obtain ⟨depth, rfl⟩ : ∃ d, depth = d + 1 := ⟨depth - 1, by omega⟩
    have hcut : ∀ s, Comes files (n + 1) (stringOf bytes).bytes s → ¬ CutOff s :=
      fun s hs => hs.uncut hfiles (hfiles name bytes hfile)
    obtain ⟨k, hk⟩ := parseText_ends hcut (by omega : maxIncludeNesting < n + 1 + depth)
    refine ⟨k, fun fuel hf => ?_⟩
    unfold loadText
    rw [if_neg hn, hfile]
    exact hk fuel fuel name hf hf
  all_goals
    refine ⟨0, fun fuel _ => ?_⟩
    unfold loadText
    rw [if_neg hn, hfile]
    rfl

/-- In texts that end in a newline nothing is cut off. -/
theorem Proper.uncut (hfiles : Proper files) : Uncut files := by
  intro name bytes hfile s hs
  obtain ⟨hnul, hlast⟩ := hfiles name bytes hfile
  rw [stringOf_bytes hnul] at hs
  exact not_cutOff hlast hs

/-- **A load comes to an end**, with as many files parsed at a time as may be
nested. -/
theorem loadText_ends (hfiles : Proper files) (hd : maxIncludeNesting < n + depth) (name : CString) :
    ∃ k, ∀ fuel, k ≤ fuel → (loadText files fuel depth n name).isSome :=
  hfiles.uncut.loadText_ends hd name

/-! ## The directives of a text -/

/-- What the parser includes on its way through a text when all that is
included is there, and where it is then. -/
def Reader.outline : ℕ → Reader → Option (List CString × Reader)
  | 0, _ => none
  | fuel + 1, r =>
    if r.place.rest = [] then some ([], r)
    else do
      match ← r.turn with
      | .on r => outline fuel r
      | .off r => some ([], r)
      | .file r name =>
        let (names, r) ← outline fuel r
        some (name :: names, r)

/-- The names of the files that a text includes, in their order, unless the
text is malformed. -/
def includes (text : List UInt8) : Option (List CString) := do
  let (names, r) ← Reader.outline (text.length + 1) (.start text)
  if r.unclosed.place.errored then none else some names

/-- The files that a file includes. -/
def directives (files : CString → Opened) (name : CString) : Option (List CString) :=
  match files name with
  | .contents bytes => includes bytes
  | _ => none

/-- There is nothing to be read under a name. -/
def Missing (files : CString → Opened) (name : CString) : Prop := ∀ bytes, files name ≠ .contents bytes

/-- What is read under a name is an error, whatever is included. -/
def Malformed (files : CString → Opened) (name : CString) : Prop :=
  ∃ bytes, files name = .contents bytes ∧ includes bytes = none

theorem outline_isSome (h : ∀ s, s <:+ r.place.rest → ¬ CutOff s) (hfuel : r.place.rest.length < fuel) :
    ∃ x, r.outline fuel = some x := by
  induction fuel generalizing r with
  | zero => cases hfuel
  | succ fuel ih =>
    rw [Reader.outline]
    by_cases hnil : r.place.rest = []
    · rw [if_pos hnil]
      exact ⟨_, rfl⟩
    rw [if_neg hnil]
    have hnext : ∀ {t r'}, r.turn = some t → t.next = some r' → ∃ x, r'.outline fuel = some x := by
      intro t r' ht hr'
      obtain ⟨hsuf, hlt⟩ := turn_within ht hr'
      exact ih (fun s hs => h s (hs.trans hsuf)) (by omega)
    rcases ht : r.turn with _ | t
    · obtain ⟨s, hs, hcut⟩ := turn_eq_none.1 ht
      exact absurd hcut (h s (tokens_suffix hs))
    cases t with
    | on r' => exact hnext ht rfl
    | off r' => exact ⟨_, rfl⟩
    | file r' name =>
      obtain ⟨x, hx⟩ := hnext ht rfl
      simp only [Option.bind_eq_bind, Option.bind_some, hx]
      exact ⟨_, rfl⟩

/-- The loop includes what the text says, or meets an error in one of these
files. -/
theorem loop_outline {next next' : List Loaded} {pre : CString → Option (List CString)} {k : ℕ}
    (hload : ∀ name x, load name = some x → x.map (List.map Loaded.filename) = pre name)
    (hout : r.outline k = some (names, r'')) (hloop : Reader.loop load fuel r next = some (r', next')) :
    (∃ ls, names.mapM pre = some ls ∧ r' = r'' ∧
      next'.map Loaded.filename = next.map Loaded.filename ++ ls.flatten) ∨
    (names.mapM pre = none ∧ r'.place.errored) := by
  induction fuel generalizing k r next names with
  | zero => cases hloop
  | succ fuel ih =>
    rcases k with _ | k
    · cases hout
    rw [Reader.outline] at hout
    rw [Reader.loop] at hloop
    by_cases hnil : r.place.rest = []
    · rw [if_pos hnil] at hout hloop
      cases hout
      cases hloop
      exact Or.inl ⟨[], rfl, rfl, by simp⟩
    rw [if_neg hnil] at hout hloop
    rw [Reader.body] at hloop
    rcases ht : r.turn with _ | t
    · rw [ht] at hout
      cases hout
    rw [ht] at hout hloop
    cases t with
    | on r₁ =>
      simp only [Turn.run, Option.bind_eq_bind, Option.bind_some, if_true, List.append_nil] at hout hloop
      exact ih hout hloop
    | off r₁ =>
      simp only [Turn.run, Option.bind_eq_bind, Option.bind_some, List.append_nil] at hout hloop
      cases hout
      cases hloop
      exact Or.inl ⟨[], rfl, rfl, by simp⟩
    | file r₁ name =>
      simp only [Turn.run, Reader.includeFile, Option.bind_eq_bind, Option.bind_some] at hout hloop
      obtain ⟨⟨names', r₂⟩, hout', hnames⟩ := Option.bind_eq_some_iff.1 hout
      cases hnames
      rcases hx : load name with _ | _ | fs
      · rw [hx] at hloop
        cases hloop
      · rw [hx] at hloop
        cases hloop
        refine Or.inr ⟨mapM_eq_none_iff.2 ⟨name, List.mem_cons_self .., (hload name _ hx).symm⟩, errored_error _⟩
      · rw [hx] at hloop
        have hpre := hload name _ hx
        rw [Option.map_some] at hpre
        rw [List.mapM_cons, ← hpre]
        rcases ih hout' hloop with ⟨ls, hls, hr, hnext⟩ | ⟨hnone, herr⟩
        · refine Or.inl ⟨fs.map Loaded.filename :: ls, by rw [hls]; rfl, hr, ?_⟩
          rw [hnext, List.map_append, List.flatten_cons, List.append_assoc]
        · exact Or.inr ⟨by rw [hnone]; rfl, herr⟩

theorem unclosed_errored (h : r.place.errored) : r.unclosed.place.errored := by
  rw [Reader.unclosed, if_pos (Or.inr h)]
  exact h

/-- A text is parsed as it says, if what it includes is. -/
theorem parseText_includes {pre : CString → Option (List CString)} {x : Option (List Loaded)} {filename : CString}
    (hload : ∀ name x, load name = some x → x.map (List.map Loaded.filename) = pre name)
    (hcut : ∀ s, s <:+ text → ¬ CutOff s) (h : parseText load fuel filename text = some x) :
    x.map (List.map Loaded.filename) =
      (includes text).bind fun names => (names.mapM pre).bind fun ls => some (filename :: ls.flatten) := by
  obtain ⟨⟨r', next'⟩, hloop, rfl⟩ := Option.map_eq_some_iff.1 h
  obtain ⟨⟨names, r''⟩, hout⟩ := outline_isSome (r := .start text) hcut (Nat.lt_succ_self text.length)
  rw [includes, hout]
  simp only [Option.bind_eq_bind, Option.bind_some]
  rcases loop_outline hload hout hloop with ⟨ls, hls, rfl, hnext⟩ | ⟨hnone, herr⟩
  · rw [Reader.finish]
    split_ifs with herr
    · rfl
    · rw [Option.bind_some, hls, Option.bind_some, Option.map_some, List.map_cons, hnext]
      rfl
  · rw [Reader.finish, if_pos (unclosed_errored herr)]
    split_ifs
    · rfl
    · rw [Option.bind_some, hnone]
      rfl

theorem preorder_of_missing (h : ∀ bytes, files name ≠ .contents bytes) (d : ℕ) :
    preorder (directives files) d name = none := by
  rcases d with _ | d
  · rfl
  · rw [preorder, directives]
    split
    · rename_i bytes hbytes
      exact absurd hbytes (h bytes)
    · rfl

/-- **What is loaded** are the files in the pre-order of their directives. -/
theorem loadText_preorder (hfiles : Proper files) {x : Option (List Loaded)}
    (h : loadText files fuel depth n name = some x) :
    x.map (List.map Loaded.filename) = preorder (directives files) (maxIncludeNesting + 1 - n) name := by
  induction depth generalizing n name x with
  | zero =>
    unfold loadText at h
    split_ifs at h with hn
    · rw [show maxIncludeNesting + 1 - n = 0 by omega, ← Option.some.inj h]
      rfl
    · split at h
      · cases h
      · rename_i hfile
        rw [preorder_of_missing hfile, ← Option.some.inj h]
        rfl
  | succ depth ih =>
    unfold loadText at h
    split_ifs at h with hn
    · rw [show maxIncludeNesting + 1 - n = 0 by omega, ← Option.some.inj h]
      rfl
    · split at h
      · rename_i bytes hbytes
        obtain ⟨hnul, hlast⟩ := hfiles name bytes hbytes
        simp only [stringOf_bytes hnul] at h
        have hload : ∀ name x, loadText files fuel depth (n + 1) name = some x → x.map (List.map Loaded.filename) =
            preorder (directives files) (maxIncludeNesting - n) name := by
          intro name x hx
          rw [ih hx, Nat.add_sub_add_right]
        rw [show maxIncludeNesting + 1 - n = maxIncludeNesting - n + 1 by omega, preorder, directives, hbytes]
        exact parseText_includes hload (fun s hs => not_cutOff hlast hs) h
      · rename_i hfile
        rw [preorder_of_missing hfile, ← Option.some.inj h]
        rfl

/-! ## The files in memory -/

/-- From `p` on there are files with these names. -/
def Lists (m : Memory) : Option Addr → List CString → Prop
  | p, [] => p = none
  | p, name :: names => ∃ a f, p = some a ∧ m.files.get a = some f ∧
      m.blocks.get f.filename = some (name.bytes ++ [0]) ∧ Lists m f.next names

theorem Chain.lists {m : Memory} {cs : List FileCells} {fs : List Loaded} {p : Option Addr} (h : Chain m cs fs p none) :
    Lists m p (fs.map Loaded.filename) := by
  induction cs generalizing fs p with
  | nil =>
    cases fs with
    | nil => exact h
    | cons f fs => exact h.elim
  | cons c cs ih =>
    cases fs with
    | nil => exact h.elim
    | cons f fs =>
      obtain ⟨hp, next, ⟨e, t, hfile, hname, -⟩, h⟩ := h
      exact ⟨c.cell, _, hp, hfile, hname, ih h⟩

/-- Nothing that is listed reaches a file that is missing or malformed, or one
that includes itself. -/
theorem preorder_eq_none {d : ℕ} {filename : CString} (h : ReflTransGen (HasChild (directives files)) filename name)
    (hbad : Missing files name ∨ Malformed files name ∨ TransGen (HasChild (directives files)) name name) :
    preorder (directives files) d filename = none := by
  rw [← Option.not_isSome_iff_eq_none]
  intro hsome
  obtain ⟨d', hd'⟩ := preorder_isSome_reaches hsome h
  rcases hbad with hmiss | ⟨bytes, hfile, hbad⟩ | hcycle
  · rw [preorder_of_missing hmiss] at hd'
    cases hd'
  · have hsome := children_isSome hd'
    rw [directives, hfile] at hsome
    simp [hbad] at hsome
  · exact not_transGen_self hd' hcycle

theorem directives_isSome_iff : (directives files name).isSome ↔ ¬ Missing files name ∧ ¬ Malformed files name := by
  constructor
  · intro hsome
    refine ⟨fun hmiss => ?_, ?_⟩
    · rw [directives] at hsome
      split at hsome
      · rename_i bytes hbytes
        exact hmiss bytes hbytes
      · cases hsome
    · rintro ⟨bytes, hfile, hbad⟩
      rw [directives, hfile] at hsome
      simp [hbad] at hsome
  · rintro ⟨hthere, hwell⟩
    obtain ⟨bytes, hfile⟩ : ∃ bytes, files name = .contents bytes := by
      by_contra hno
      exact hthere fun bytes hfile => hno ⟨bytes, hfile⟩
    rw [directives, hfile, Option.isSome_iff_ne_none]
    exact fun hbad => hwell ⟨bytes, hfile, hbad⟩

variable {A : Allocators}

/-- **Loading a file with all it includes**, where each file ends in a newline:
the load comes to an end with at most as many files parsed at a time as may be
nested, `nestcnt` is what it was, a load that reaches a file that is missing or
malformed or that includes itself answers null, and the chain that is answered
has the files in the pre-order of their directives. There is a chain exactly if
nothing that is reached is missing or malformed, and no path is nested too deep. -/
theorem load_includes (hA : A.entry.NeverFails) (hF : A.file.NeverFails) (hB : A.block.NeverFails)
    (files : CString → Opened) (hfiles : Proper files) (filename : CString) (m : Memory) :
    ∃ k, ∀ fuel, k ≤ fuel → ∃ log m' cf,
      Confparse.load A files fuel (maxIncludeNesting + 1) filename m = some (log, m', cf) ∧ m'.nestcnt = m.nestcnt ∧
      (∀ name, ReflTransGen (HasChild (directives files)) filename name →
        Missing files name ∨ Malformed files name ∨ TransGen (HasChild (directives files)) name name → cf = none) ∧
      (∀ a, cf = some a → ∃ names,
        preorder (directives files) (maxIncludeNesting + 1 - m.nestcnt) filename = some names ∧ Lists m' (some a) names) ∧
      (cf.isSome ↔
        (∀ name, ReflTransGen (HasChild (directives files)) filename name → ¬ Missing files name ∧ ¬ Malformed files name) ∧
        Shallow (directives files) (maxIncludeNesting + 1 - m.nestcnt) filename) := by
  have hd : maxIncludeNesting < m.nestcnt + (maxIncludeNesting + 1) := by omega
  obtain ⟨k, hk⟩ := loadText_ends hfiles hd filename
  refine ⟨k, fun fuel hf => ?_⟩
  obtain ⟨x, hx⟩ := Option.isSome_iff_exists.1 (hk fuel hf)
  have hanswers := loadInternal_answers hA hF hB files fuel (maxIncludeNesting + 1) m filename
  have hpre := loadText_preorder hfiles hx
  rw [hx] at hanswers
  rcases hrun : loadInternal A files fuel (maxIncludeNesting + 1) filename m with _ | ⟨log, m', cf⟩
  · rw [hrun] at hanswers
    exact hanswers.elim
  rw [hrun] at hanswers
  have hiff : x.isSome ↔
      (∀ name, ReflTransGen (HasChild (directives files)) filename name → ¬ Missing files name ∧ ¬ Malformed files name) ∧
      Shallow (directives files) (maxIncludeNesting + 1 - m.nestcnt) filename := by
    rw [← Option.isSome_map (f := List.map Loaded.filename), hpre, preorder_isSome_iff]
    simp only [directives_isSome_iff]
  refine ⟨log, m', cf, hrun, ?_⟩
  rcases cf with _ | a
  · rcases x with _ | fs
    · exact ⟨hanswers.nestcnt, fun _ _ _ => rfl, fun a ha => (by cases ha), hiff⟩
    · exact hanswers.elim
  · rcases x with _ | fs
    · exact hanswers.elim
    · obtain ⟨cs, hchain, hext⟩ := hanswers
      refine ⟨hext.nestcnt, fun name hreach hbad => ?_, fun b hb => ?_, hiff⟩
      · rw [preorder_eq_none hreach hbad] at hpre
        cases hpre
      · cases hb
        exact ⟨_, hpre.symm, hchain.lists⟩

/-- The name `x`. -/
def selfName : CString := ⟨[ch 'x'], CString.nul_free_x⟩

/-- A file that includes itself. -/
def selfFiles (name : CString) : Opened :=
  if name.bytes = selfName.bytes then .contents (includeName.bytes ++ ch ' ' :: selfName.bytes ++ [ch ';', ch '\n'])
  else .noFile

theorem load_includes_self : ∃ k, ∀ fuel, k ≤ fuel → ∃ log m', Confparse.load ⟨.bump, .bump, .bump⟩ selfFiles fuel
    (maxIncludeNesting + 1) selfName ⟨.empty, .empty, .empty, 0⟩ = some (log, m', none) ∧ m'.nestcnt = 0 := by
  have hfiles : Proper selfFiles := by
    intro name bytes h
    rw [selfFiles] at h
    split_ifs at h
    cases h
    exact ⟨by decide, by decide⟩
  have hchild : HasChild (directives selfFiles) selfName selfName := ⟨[selfName], rfl, List.mem_singleton.2 rfl⟩
  obtain ⟨k, hk⟩ := load_includes (A := ⟨.bump, .bump, .bump⟩) Allocator.bump_neverFails Allocator.bump_neverFails
    Allocator.bump_neverFails selfFiles hfiles selfName ⟨.empty, .empty, .empty, 0⟩
  refine ⟨k, fun fuel hf => ?_⟩
  obtain ⟨log, m', cf, hrun, hcnt, hnull, -⟩ := hk fuel hf
  rw [hnull selfName .refl (Or.inr (Or.inr (.single hchild)))] at hrun
  exact ⟨log, m', hrun, hcnt⟩

end Confparse

end Mowgli
