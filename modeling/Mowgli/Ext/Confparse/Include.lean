import Mowgli.Ext.Confparse.Entries
/-!
# Files that are included

An included file is parsed into memory that was free, and the chain of the
files it comes with is put behind the last file there is.
-/

namespace Mowgli

namespace Confparse

open BinTree Links

variable {m₀ m m' : Memory} {filename : CString} {name buf a : Addr} {s : Parse} {r : Reader}
variable {next : List Loaded} {fr : List (Frame Addr)} {c : FileCells} {cs ds : List FileCells} {fs gs : List Loaded}
variable {p q t : Option Addr} {fuel : ℕ}

/-! ## Chains -/

theorem Chain.append (h : Chain m cs fs p q) (h' : Chain m ds gs q t) : Chain m (cs ++ ds) (fs ++ gs) p t := by
  induction cs generalizing fs p with
  | nil =>
    cases fs with
    | nil => exact (show p = q from h) ▸ h'
    | cons f fs => exact h.elim
  | cons c cs ih =>
    cases fs with
    | nil => exact h.elim
    | cons f fs =>
      obtain ⟨hp, n, hf, h⟩ := h
      exact ⟨hp, n, hf, ih h⟩

/-- The memory with a file changed. -/
def Memory.setFile (m : Memory) (a : Addr) (f : ConfigFile) : Memory := { m with files := m.files.set a f }

/-- Another file changes nothing of a chain. -/
theorem Chain.setFile (h : Chain m cs fs p q) (ha : a ∉ filesOf cs) (f : ConfigFile) : Chain (m.setFile a f) cs fs p q := by
  refine h.congr (fun _ _ => rfl) (fun b hb => Store.get_set_of_ne _ _ ?_) fun _ _ => rfl
  rintro rfl
  exact ha hb

theorem lastCell_mem (a : Addr) (cs : List FileCells) : lastCell a cs ∈ a :: filesOf cs := by
  induction cs generalizing a with
  | nil => simp [lastCell]
  | cons c cs ih =>
    rw [lastCell, filesOf, List.map_cons]
    exact List.mem_cons_of_mem _ (ih c.cell)

/-- The end of a chain is put elsewhere. -/
theorem Chain.relink (h : Chain m (c :: cs) fs p none) (hnd : (filesOf (c :: cs)).Nodup) :
    ∃ f, m.files.get (lastCell c.cell cs) = some f ∧
      Chain (m.setFile (lastCell c.cell cs) { f with next := q }) (c :: cs) fs p q := by
  induction cs generalizing c fs p with
  | nil =>
    rcases fs with _ | ⟨f, _ | ⟨g, fs⟩⟩
    · exact h.elim
    · obtain ⟨hp, n, ⟨e, text, hfile, hn, ht, hl, hr⟩, -⟩ := h
      exact ⟨_, hfile, hp, q, ⟨e, text, Store.get_set_self _ _ _, hn, ht, hl, hr⟩, rfl⟩
    · obtain ⟨-, n, -, h⟩ := h
      exact h.elim
  | cons c' cs ih =>
    rcases fs with _ | ⟨f, fs⟩
    · exact h.elim
    · obtain ⟨hp, n, hfile, h⟩ := h
      rw [filesOf, List.map_cons, List.nodup_cons] at hnd
      obtain ⟨g, hg, hchain⟩ := ih h hnd.2
      refine ⟨g, hg, hp, n, hfile.congr (Store.get_set_of_ne _ _ ?_) (fun _ _ => rfl) fun _ _ => rfl, hchain⟩
      intro heq
      exact hnd.1 (heq ▸ lastCell_mem c'.cell cs)

theorem lastCell_append (a : Addr) (cs ds : List FileCells) : lastCell a (cs ++ ds) = lastCell (lastCell a cs) ds := by
  induction cs generalizing a with
  | nil => rfl
  | cons c cs ih => exact ih c.cell

/-- The last file is found. -/
theorem lastOf_eq {f : ConfigFile} (ha : m.files.get a = some f) (h : Chain m cs fs f.next none)
    (hfuel : cs.length < fuel) : Parse.lastOf m.files fuel a = some (lastCell a cs) := by
  induction cs generalizing a f fs fuel with
  | nil =>
    obtain ⟨fuel, rfl⟩ : ∃ k, fuel = k + 1 := ⟨fuel - 1, by omega⟩
    rcases fs with _ | ⟨g, fs⟩
    · rw [Parse.lastOf, ha]
      simp only [Option.bind_eq_bind, Option.bind_some]
      rw [show f.next = none from h]
      rfl
    · exact h.elim
  | cons c cs ih =>
    obtain ⟨fuel, rfl⟩ : ∃ k, fuel = k + 1 := ⟨fuel - 1, by simp at hfuel; omega⟩
    rcases fs with _ | ⟨g, fs⟩
    · exact h.elim
    · obtain ⟨hp, n, ⟨e, text, hfile, -⟩, h⟩ := h
      rw [Parse.lastOf, ha]
      simp only [Option.bind_eq_bind, Option.bind_some]
      rw [hp]
      exact ih hfile h (by simpa using hfuel)

/-- The file behind which the chain is, and the chain, with its end put
elsewhere. -/
theorem splice {f : ConfigFile} (hf : m.files.get a = some f) (h : Chain m cs fs f.next none)
    (hnd : (a :: filesOf cs).Nodup) (q : Option Addr) :
    ∃ g n, m.files.get (lastCell a cs) = some g ∧
      (m.setFile (lastCell a cs) { g with next := q }).files.get a = some { f with next := n } ∧
      Chain (m.setFile (lastCell a cs) { g with next := q }) cs fs n q := by
  rcases cs with _ | ⟨c, cs⟩
  · rcases fs with _ | ⟨g, fs⟩
    · exact ⟨f, q, hf, Store.get_set_self _ _ _, rfl⟩
    · exact h.elim
  · rw [List.nodup_cons] at hnd
    obtain ⟨g, hg, hchain⟩ := h.relink (q := q) hnd.2
    refine ⟨g, f.next, hg, (Store.get_set_of_ne _ _ ?_).trans hf, hchain⟩
    intro heq
    exact hnd.1 (heq ▸ lastCell_mem c.cell cs)

theorem entriesOf_append (cs ds : List FileCells) : entriesOf (cs ++ ds) = entriesOf cs ++ entriesOf ds :=
  List.flatMap_append

theorem filesOf_append (cs ds : List FileCells) : filesOf (cs ++ ds) = filesOf cs ++ filesOf ds := List.map_append

theorem blocksOf_append (cs ds : List FileCells) : blocksOf (cs ++ ds) = blocksOf cs ++ blocksOf ds :=
  List.flatMap_append

/-! ## Another file -/

/-- What a loader answers: memory as it was, or a chain of files in memory
that was free. -/
def Answers (m : Memory) : Option (List LogLine × Memory × Option Addr) → Option (Option (List Loaded)) → Prop
  | none, none => True
  | some (_, m', none), some none => Extends m m' [] [] []
  | some (_, m', some a), some (some fs) =>
    ∃ cs, Chain m' cs fs (some a) none ∧ Extends m m' (entriesOf cs) (filesOf cs) (blocksOf cs)
  | _, _ => False

/-- What the parser has stays while memory is added to. -/
theorem Sim.grow {es ls bs : List Addr} (h : Sim m₀ filename name buf s r next fr cs) (hx : Extends s.m m' es ls bs) :
    (∃ p n, m'.files.get s.cf = some ⟨name, buf, p, n⟩ ∧ OpenAt id (links m'.entries) fr none p ∧
      Chain m' cs next n none) ∧ m'.blocks.get name = some (filename.bytes ++ [0]) ∧ Ups m'.entries (sections fr) ∧
    Extends m₀ m' (es ++ (elements fr ++ entriesOf cs)) (ls ++ s.cf :: filesOf cs) (bs ++ name :: buf :: blocksOf cs) ∧
    (¬ r.place.errored → FramesRel (IsNode m'.entries s.cur.behind) fr r.entries) := by
  have hg := hx.grows
  obtain ⟨p, n, hfile, hopen, hchain⟩ := h.file
  refine ⟨⟨p, n, hg.files _ _ hfile, hopen.mono (links_mono hg.entries),
    hchain.congr (fun b hb => ?_) (fun b hb => ?_) fun b hb => ?_⟩, hg.blocks _ _ h.named,
    h.ups.mono fun b x hb => ⟨x, hg.entries _ _ hb, rfl⟩, h.ext.trans hx,
    fun hr => (h.nodes hr).mono fun _ _ _ hn => hn.mono hg⟩
  · obtain ⟨x, hx⟩ := h.ext.entries.live b (List.mem_append_right _ hb)
    rw [hx, hg.entries _ _ hx]
  · obtain ⟨x, hx⟩ := h.ext.files.live b (List.mem_cons_of_mem _ hb)
    rw [hx, hg.files _ _ hx]
  · obtain ⟨x, hx⟩ := h.ext.blocks.live b (List.mem_cons_of_mem _ (List.mem_cons_of_mem _ hb))
    rw [hx, hg.blocks _ _ hx]

/-- The parser goes where the reader goes, and on as long as it. -/
def Matches (m₀ : Memory) (filename : CString) (name buf : Addr) (next : List Loaded) :
    Option (Bool × Parse) → Option (Bool × Reader × List Loaded) → Prop
  | none, none => True
  | some (go, s), some (go', r, files) =>
    go = go' ∧ (go' = true → ¬ r.place.errored) ∧ ∃ fr cs, Sim m₀ filename name buf s r (next ++ files) fr cs
  | _, _ => False

/-- Without a file that is included. -/
theorem Sim.goes (h : Sim m₀ filename name buf s r next fr cs) (go : Bool) (hgo : go = true → ¬ r.place.errored) :
    Matches m₀ filename name buf next (some (go, s)) (some (go, r, [])) :=
  ⟨rfl, hgo, fr, cs, by rw [List.append_nil]; exact h⟩

/-- **An included file** and those it includes come behind the last file. -/
theorem includeFile_matches {load : Loader} {loadT : CString → Option (Option (List Loaded))} {file : CString}
    (h : Sim m₀ filename name buf s r next fr cs) (hr : ¬ r.place.errored)
    (hload : Answers s.m (load file s.m) (loadT file)) :
    Matches m₀ filename name buf next (s.includeFile load file) (r.includeFile loadT file) := by
  rw [Parse.includeFile, Reader.includeFile]
  rcases hC : load file s.m with _ | ⟨log, m', _ | a⟩
  · rcases hT : loadT file with _ | _
    · trivial
    · rw [hC, hT] at hload
      exact hload.elim
  · rcases hT : loadT file with _ | _ | gs
    · rw [hC, hT] at hload
      exact hload.elim
    · rw [hC, hT] at hload
      obtain ⟨hfile, hnamed, hups, hext, -⟩ := h.grow hload
      let cur : Cursor := { s.cur with log := s.cur.log ++ log }
      have hsim : Sim m₀ filename name buf { s with cur := cur.error "Error in file included from here", m := m' }
          { r with place := r.place.error } next fr cs := by
        refine ⟨hfile, hnamed, h.last, h.slot, h.up, hups, hext, ?_, fun hp => absurd (errored_error _) hp,
          fun hp => absurd (errored_error _) hp⟩
        change -|s.cur.curline| = -|r.place.curline|
        rw [h.line]
      exact hsim.goes false (by simp)
    · rw [hC, hT] at hload
      exact hload.elim
  · rcases hT : loadT file with _ | _ | gs
    · rw [hC, hT] at hload
      exact hload.elim
    · rw [hC, hT] at hload
      exact hload.elim
    rw [hC, hT] at hload
    obtain ⟨ds, hds, hx⟩ := hload
    obtain ⟨⟨p, n, hfile, hopen, hchain⟩, hnamed, hups, hext, hnodes⟩ := h.grow hx
    obtain ⟨-, hnd, hdisj⟩ := List.nodup_append.1 hext.files.nodup
    obtain ⟨g, n', hg, hfile', hchain'⟩ := splice hfile hchain hnd (some a)
    have hlast : lastCell s.cf cs ∉ filesOf ds := fun hm => hdisj _ hm _ (lastCell_mem s.cf cs) rfl
    have hds' := hds.setFile hlast { g with next := some a }
    have hfiles := hext.files.set (List.mem_append_right _ (lastCell_mem s.cf cs)) { g with next := some a }
    have hlen : ds.length ≤ (m'.files.set (lastCell s.cf cs) { g with next := some a }).live.card := by
      have hle := hfiles.length_le
      rw [List.length_append, filesOf, List.length_map] at hle
      omega
    have hfound := lastOf_eq (m := m'.setFile _ { g with next := some a }) (Store.get_set_self _ _ _) hds'
      (Nat.lt_succ_of_le hlen)
    have hmod := modifyFile_eq (s := { s with cur := { s.cur with log := s.cur.log ++ log }, m := m' })
      (a := s.lastcf) (h.last ▸ hg) fun f => { f with next := some a }
    rw [← h.last] at hfound hg hlast hfile' hchain' hds' hfiles
    simp only [Option.bind_eq_bind, Option.bind_some, hmod, Option.map_some]
    refine (congrArg (Matches m₀ filename name buf next · _) (congrArg (Option.bind · _) hfound)).mpr ?_
    refine ⟨rfl, fun _ => hr, fr, cs ++ ds, ⟨p, n', hfile', hopen, hchain'.append hds'⟩, hnamed, ?_, h.slot, h.up, hups,
      ⟨?_, ?_, ?_, hext.nestcnt⟩, h.line, fun hp => ?_, fun hp => ?_⟩
    · rw [lastCell_append, ← h.last]
    · rw [entriesOf_append, ← List.append_assoc]
      exact hext.entries.perm List.perm_append_comm
    · rw [filesOf_append, ← List.cons_append]
      exact hfiles.perm List.perm_append_comm
    · rw [blocksOf_append, ← List.cons_append, ← List.cons_append]
      exact hext.blocks.perm List.perm_append_comm
    · exact ⟨congrArg (fun c : Cursor => { c with log := s.cur.log ++ log }) (h.place hp).1, (h.place hp).2⟩
    · exact hnodes hp

end Confparse

end Mowgli
