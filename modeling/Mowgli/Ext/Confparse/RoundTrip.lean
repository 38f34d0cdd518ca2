import Mowgli.Ext.Confparse.Rendered
/-!
# A text that was written is read back

The parser reads the entries that a text was written for back, if its line
comments end at the first carriage return or newline and its lines can be
counted. The file that it answers has them in memory, with the names, the
values and the pointers that the forest says.
-/

namespace Mowgli

namespace Confparse

open BinTree Relation

variable {r r' : Reader} {next : List Loaded} {f : ConfigForest} {text : List UInt8}

theorem loop_of_steps (h : ReflTransGen Step r r') {y : Reader × List Loaded}
    (hr' : ∃ k, ∀ load fuel, k ≤ fuel → Reader.loop load fuel r' next = some y) :
    ∃ k, ∀ load fuel, k ≤ fuel → Reader.loop load fuel r next = some y := by
  induction h using ReflTransGen.head_induction_on with
  | refl => exact hr'
  | head hstep _ ih =>
    obtain ⟨k, hk⟩ := ih
    refine ⟨k + 1, fun load fuel hf => ?_⟩
    obtain ⟨fuel, rfl⟩ : ∃ n, fuel = n + 1 := ⟨fuel - 1, by omega⟩
    rw [Reader.loop, if_neg hstep.rest_ne_nil, Reader.body, show _ = some _ from hstep]
    simp only [Option.bind_eq_bind, Option.bind_some, Turn.run, List.append_nil, if_true]
    exact hk load fuel (by omega)

/-- **The forest of a text is read back.** -/
theorem parseText_rendered (hf : Renders EndsLine f text) (hinc : NoInclude f) (hl : 1 + newlines text ≤ INT_MAX) :
    ∃ f', Rel Written f f' ∧ ∃ k, ∀ load fuel filename, k ≤ fuel →
      parseText load fuel filename text = some (some [⟨filename, f'⟩]) := by
  have hl' : (1 : ℤ) + newlines text ≤ 2147483647 := by exact_mod_cast hl
  obtain ⟨g, f', l, hg, hf', h₀, hcount, hsteps⟩ := hf.steps [] (u := []) (fun x hx => by cases hx)
    (by decide) hl' fun _ => hinc
  rw [List.append_nil, List.append_nil] at hsteps
  have hsections : sections (extend [] f') = [] := sections_extend [] f'
  -- what is left is a gap, which a last turn skips
  obtain ⟨place, herr, k, hloop⟩ : ∃ place : Place, ¬ place.errored ∧ ∃ k, ∀ load fuel, k ≤ fuel →
      Reader.loop load fuel (.start text) [] = some (⟨place, extend [] f'⟩, []) := by
    by_cases hnil : g = []
    · refine ⟨⟨g, l⟩, not_errored h₀, loop_of_steps hsteps ⟨1, fun load fuel hf => ?_⟩⟩
      obtain ⟨fuel, rfl⟩ : ∃ n, fuel = n + 1 := ⟨fuel - 1, by omega⟩
      rw [Reader.loop, if_pos hnil]
    · have hskip := skip_gap (u := []) hg (fun x hx => by cases hx) h₀ (by omega)
      rw [List.append_nil] at hskip
      refine ⟨⟨[], l + newlines g⟩, not_errored (by omega), loop_of_steps hsteps ⟨1, fun load fuel hf => ?_⟩⟩
      obtain ⟨fuel, rfl⟩ : ∃ n, fuel = n + 1 := ⟨fuel - 1, by omega⟩
      rw [Reader.loop, if_neg hnil, Reader.body, Reader.turn]
      simp only [hskip]
      rw [if_pos (Or.inl trivial)]
      rfl
  refine ⟨f', hf', k, fun load fuel filename hfuel => ?_⟩
  rw [parseText, hloop load fuel hfuel, Option.map_some, Reader.unclosed, if_pos (Or.inl hsections), Reader.finish, if_neg herr,
    plug_extend, plug]

/-! ## The entries in memory -/

/-- From `p` on there are the entries of the forest, of which the text `mem`
has the names and the values. -/
def Shows (m : Memory) (mem : List UInt8) : ConfigForest → Option Addr → Prop
  | .nil, p => p = none
  | .node l x r, p => ∃ ce e, p = some ce ∧ m.entries.get ce = some e ∧ stringAt mem e.varname = x.1 ∧
      e.vardata.map (stringAt mem) = x.2 ∧ Shows m mem l e.entries ∧ Shows m mem r e.next

theorem Settled.stringAt_self {d : List UInt8} {a : ℕ} {s : CString} (h : Settled d a s) :
    Confparse.stringAt d a = s := by
  have hs := h.stringAt []
  rwa [List.append_nil] at hs

/-- What was read is what was written. -/
theorem shows_of_written {m : Memory} {mem : List UInt8} {t : BinTree Addr} {f' : BinTree Node} {p : Option Addr}
    (hl : Linked id (links m.entries) t p) (ht : Rel (IsNode m.entries mem) t f') (hf : Rel Written f f') :
    Shows m mem f p := by
  induction f generalizing t f' p with
  | nil =>
    cases f' with
    | nil =>
      cases t with
      | nil => exact hl
      | node l a r => exact ht.elim
    | node l e r => exact hf.elim
  | node l x r ihl ihr =>
    cases f' with
    | nil => exact hf.elim
    | node l' n r' =>
      cases t with
      | nil => exact ht.elim
      | node tl a tr =>
        obtain ⟨hp, u, v, ha, htl, htr⟩ := hl
        obtain ⟨hl', ⟨e, he, -, hname, hdata, -⟩, hr'⟩ := ht
        obtain ⟨hfl, ⟨hn, hv⟩, hfr⟩ := hf
        rw [links, id, he, Option.map_some] at ha
        cases ha
        refine ⟨a, e, hp, he, hname.stringAt_self.trans hn, ?_, ihl htl hl' hfl, ihr htr hr' hfr⟩
        rw [← hv]
        generalize e.vardata = w, n.vardata = w' at hdata
        cases hdata with
        | none => rfl
        | some hdata => exact congrArg some hdata.stringAt_self

variable {A : Allocators} {m : Memory} {buf : Addr}

/-- **A text is read back** as the forest it was written for: the parser comes
to an end and answers a file that has the entries in memory, each with its
name, its value and what is in it, in their order. -/
theorem parse_rendered (hA : A.entry.NeverFails) (hF : A.file.NeverFails) (hB : A.block.NeverFails)
    (files : CString → Opened) (depth : ℕ) (filename text : CString)
    (hbuf : m.blocks.get buf = some (text.bytes ++ [0])) (hf : Renders EndsLine f text.bytes) (hinc : NoInclude f)
    (hl : 1 + newlines text.bytes ≤ INT_MAX) :
    ∃ k, ∀ fuel, k ≤ fuel → ∃ log m' cf file mem,
      parse A (loadInternal A files fuel depth) fuel filename buf m = some (log, m', some cf) ∧
      m'.files.get cf = some file ∧ file.next = none ∧ m'.blocks.get file.mem = some mem ∧
      Shows m' mem f file.entries := by
  obtain ⟨f', hf', k, hk⟩ := parseText_rendered hf hinc hl
  refine ⟨k, fun fuel hfuel => ?_⟩
  have hanswers := parse_block_answers hA hF hB files filename text hbuf fuel depth
  rw [hk _ fuel filename hfuel] at hanswers
  rcases hrun : parse A (loadInternal A files fuel depth) fuel filename buf m with _ | ⟨log, m', _ | cf⟩
  all_goals rw [hrun] at hanswers
  · exact hanswers.elim
  · exact hanswers.elim
  · obtain ⟨cs, hchain, -⟩ := hanswers
    rcases cs with _ | ⟨c, cs⟩
    · exact hchain.elim
    · obtain ⟨hcf, n, ⟨p, mem, hfile, -, hmem, hlinked, hnodes⟩, hnext⟩ := hchain
      cases hcf
      refine ⟨log, m', _, _, mem, rfl, hfile, ?_, hmem, shows_of_written hlinked hnodes hf'⟩
      cases cs with
      | nil => exact hnext
      | cons c' cs => exact hnext.elim

/-- The name `a`. -/
def shortName : CString := ⟨[ch 'a'], CString.nul_free_a⟩

/-- A quotation mark and a backslash. -/
def oddName : CString := ⟨[ch '"', ch '\\'], by decide⟩

/-- An entry in a block, and one behind it. -/
def blockForest : ConfigForest :=
  .node (.node .nil (shortName, some oddName) .nil) (shortName, none) (.node .nil (oddName, some shortName) .nil)

/-- Its text has a comment in front, and each entry is on a line of its own. -/
def blockText : CString where
  bytes := ([ch '#'] ++ ([ch 'c'] ++ ch '\n' :: [])) ++ (quote shortName ++ ([ch ' '] ++ ch '{' ::
    (([ch '\n'] ++ ((quote shortName ++ ([ch '='] ++ quote oddName)) ++ ([] ++ ch ';' :: [ch '\n']))) ++ ch '}' ::
      ([] ++ ch ';' :: ([ch '\n'] ++ ((quote oddName ++ ([ch ' '] ++ quote shortName)) ++ ([] ++ ch ';' :: [ch '\n'])))))))
  nul_free := by decide

theorem parse_rendered_block : ∃ k, ∀ fuel, k ≤ fuel → ∃ log m' cf file mem,
    parse ⟨.bump, .bump, .bump⟩ (loadInternal ⟨.bump, .bump, .bump⟩ (fun _ => .noFile) fuel 0) fuel shortName 0
      (.ofText blockText) = some (log, m', some cf) ∧
    m'.files.get cf = some file ∧ file.next = none ∧ m'.blocks.get file.mem = some mem ∧
    Shows m' mem blockForest file.entries := by
  have hshort : OneLine shortName := by decide
  have hodd : OneLine oddName := by decide
  have hspace : Gap EndsLine [ch ' '] := .blank (by decide) .nil
  have hnewline : Gap EndsLine [ch '\n'] := .blank (by decide) .nil
  have hequals : Gap EndsLine [ch '='] := .blank (by decide) .nil
  have hcomment : Gap EndsLine ([ch '#'] ++ ([ch 'c'] ++ ch '\n' :: [])) :=
    .line (by decide) (List.forall_mem_singleton.2 (by decide)) (.inl rfl) .nil
  have htext : Renders EndsLine blockForest blockText.bytes :=
    .block hcomment (.name hshort) hspace
      (.entry hnewline (.value hshort hodd hequals) .nil (.nil hnewline)) .nil
      (.entry hnewline (.value hodd hshort hspace) .nil (.nil hnewline))
  exact parse_rendered Allocator.bump_neverFails Allocator.bump_neverFails Allocator.bump_neverFails _ 0 shortName
    blockText (Store.get_set_self ..) htext ⟨nofun, fun _ _ => by decide, trivial⟩ (by decide)

/-- The text `#`, `a`, a carriage return, `a` and a newline. -/
def returnText : CString := ⟨[ch '#', ch 'a', ch '\r', ch 'a', ch '\n'], by decide⟩

/-- Empty lines. -/
def emptyLines (n : ℕ) : CString where
  bytes := List.replicate n (ch '\n')
  nul_free h := absurd (List.eq_of_mem_replicate h) (by decide)

theorem gap_replicate (n : ℕ) : Gap EndsLine (List.replicate n (ch '\n')) := by
  induction n with
  | zero => exact .nil
  | succ n ih => exact .blank (by decide) ih

/-- The lines of a text cannot be counted further than an `int` goes. -/
theorem parseText_emptyLines {n : ℕ} (hn : n + 1 = INT_MAX) (load : CString → Option (Option (List Loaded))) (fuel : ℕ)
    (filename : CString) : parseText load (fuel + 1) filename (emptyLines (n + 1)).bytes = some none := by
  have hcount : newlines (List.replicate n (ch '\n')) = n := by rw [newlines, List.count_replicate_self]
  have hmax : (1 : ℤ) + n = 2147483647 := by
    have hcast : ((n + 1 : ℕ) : ℤ) = 2147483647 := by rw [hn]; rfl
    push_cast at hcast
    omega
  have hlast : Place.skip ⟨(emptyLines (n + 1)).bytes, 1⟩ = ⟨[], -2147483648⟩ := by
    have hbytes : (emptyLines (n + 1)).bytes = List.replicate n (ch '\n') ++ [ch '\n'] := List.replicate_succ'
    rw [hbytes, Place.skip, skipFrom_gap (gap_replicate n) Int.one_pos (by rw [hcount, hmax]), hcount, hmax]
    rfl
  have hnil : (Reader.start (emptyLines (n + 1)).bytes).place.rest ≠ [] := List.cons_ne_nil _ _
  rw [parseText, Reader.loop, if_neg hnil, Reader.body, Reader.turn]
  simp only [Reader.start, hlast]
  rw [if_pos (Or.inl trivial)]
  rfl

/-- What is not read as a text is not parsed. -/
theorem parse_ne_of_text {filename text : CString} (h : ∀ load fuel, parseText load (fuel + 1) filename text.bytes = some none)
    (fuel : ℕ) (log : List LogLine) (m' : Memory) (cf : Addr) :
    parse ⟨.bump, .bump, .bump⟩ (loadInternal ⟨.bump, .bump, .bump⟩ (fun _ => .noFile) fuel 0) fuel filename 0
      (.ofText text) ≠ some (log, m', some cf) := by
  intro hrun
  have hanswers := parse_block_answers (A := ⟨.bump, .bump, .bump⟩) (m := .ofText text) Allocator.bump_neverFails
    Allocator.bump_neverFails Allocator.bump_neverFails (fun _ => .noFile) filename text (Store.get_set_self ..) fuel 0
  rw [hrun] at hanswers
  rcases fuel with _ | fuel
  · exact hanswers.elim
  · rw [h] at hanswers
    exact hanswers.elim

/-- A line comment that goes on behind a carriage return is an error, and so is
a text with more lines than can be counted. -/
theorem parse_rendered_not :
    (Renders (fun x => x = ch '\n') .nil returnText.bytes ∧ 1 + newlines returnText.bytes ≤ INT_MAX ∧
      ∀ fuel log m' cf, parse ⟨.bump, .bump, .bump⟩ (loadInternal ⟨.bump, .bump, .bump⟩ (fun _ => .noFile) fuel 0) fuel
        shortName 0 (.ofText returnText) ≠ some (log, m', some cf)) ∧
    Renders EndsLine .nil (emptyLines INT_MAX).bytes ∧
      ∀ fuel log m' cf, parse ⟨.bump, .bump, .bump⟩ (loadInternal ⟨.bump, .bump, .bump⟩ (fun _ => .noFile) fuel 0) fuel
        shortName 0 (.ofText (emptyLines INT_MAX)) ≠ some (log, m', some cf) := by
  refine ⟨⟨.nil ?_, by decide, parse_ne_of_text fun load fuel => rfl⟩, .nil (gap_replicate _), parse_ne_of_text ?_⟩
  · have hline : ∀ x ∈ [ch 'a', ch '\r', ch 'a'], ¬ x = ch '\n' := by
      simp only [List.forall_mem_cons, List.not_mem_nil, false_implies, implies_true, and_true]
      decide
    have hgap : Gap (fun x => x = ch '\n') ([ch '#'] ++ ([ch 'a', ch '\r', ch 'a'] ++ ch '\n' :: [])) :=
      .line (by simp) hline rfl .nil
    exact hgap
  · exact fun load fuel => parseText_emptyLines (n := 2147483646) rfl load fuel shortName

end Confparse

end Mowgli
