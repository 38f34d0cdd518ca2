import Mowgli.Ext.Confparse.Free
/-!
# A file and the files it includes

Parsing a text and loading a file answer what they answer of the text: the
chain of the files, or, after an error, the memory as it was.
-/

namespace Mowgli

namespace Confparse

open BinTree Links

variable {m₀ m : Memory} {filename : CString} {name buf a : Addr} {s : Parse} {r : Reader}
variable {next : List Loaded} {fr : List (Frame Addr)} {cs : List FileCells} {A : Allocators} {load : Loader}
variable {loadT : CString → Option (Option (List Loaded))} {fuel : ℕ} {text : List UInt8}

theorem outermost_some {entries : Store ConfigFileEntry} {l : List Addr} (h : Ups entries (a :: l))
    (hfuel : l.length < fuel) : ∃ b e, Parse.outermost entries fuel a = some b ∧ entries.get b = some e := by
  induction l generalizing a fuel with
  | nil =>
    obtain ⟨fuel, rfl⟩ : ∃ k, fuel = k + 1 := ⟨fuel - 1, by omega⟩
    obtain ⟨⟨e, he, hup⟩, -⟩ := h
    refine ⟨a, e, ?_, he⟩
    rw [Parse.outermost, he]
    simp only [Option.bind_eq_bind, Option.bind_some]
    rw [hup]
    rfl
  | cons b l ih =>
    obtain ⟨fuel, rfl⟩ : ∃ k, fuel = k + 1 := ⟨fuel - 1, by omega⟩
    obtain ⟨⟨e, he, hup⟩, h⟩ := h
    rw [Parse.outermost, he]
    simp only [Option.bind_eq_bind, Option.bind_some]
    rw [hup]
    exact ih h (by simpa using hfuel)

/-- Sections that are open at the end are an error. -/
theorem Sim.unclosed (h : Sim m₀ filename name buf s r next fr cs) :
    ∃ s', s.unclosed = some s' ∧ Sim m₀ filename name buf s' r.unclosed next fr cs := by
  by_cases hr : r.place.errored
  · have hC : s.unclosed = some s := by
      rw [Parse.unclosed]
      split
      · rfl
      · rw [if_pos (h.errored_iff.2 hr)]
    rw [Reader.unclosed, if_pos (Or.inr hr)]
    exact ⟨s, hC, h⟩
  have hsec : sections fr = [] ↔ sections r.entries = [] := (h.nodes hr).sections_eq_nil
  have hup := h.up
  rcases hs : sections fr with _ | ⟨ce, l⟩
  · rw [hs] at hup
    rw [Reader.unclosed, if_pos (Or.inl (hsec.1 hs))]
    exact ⟨s, by rw [Parse.unclosed, hup]; rfl, h⟩
  · rw [hs] at hup
    have hne : ¬ (sections r.entries = [] ∨ r.place.errored) := by
      rintro (hnil | herr)
      · rw [hsec.2 hnil] at hs
        cases hs
      · exact hr herr
    have hlen : l.length < s.m.entries.live.card + 1 := by
      have hle := h.ext.entries.length_le
      have hsub := (sections_sublist fr).length_le
      rw [hs, List.length_cons] at hsub
      rw [List.length_append] at hle
      omega
    obtain ⟨b, e, hrun, he⟩ := outermost_some (hs ▸ h.ups) hlen
    rw [Parse.unclosed, hup, Reader.unclosed, if_neg hne]
    simp only [List.head?_cons, if_neg fun herr => hr (h.errored_iff.1 herr), Option.bind_eq_bind, hrun,
      Option.bind_some, he]
    refine ⟨_, rfl, h.file, h.named, h.last, h.slot, by rw [hs]; rfl, h.ups, h.ext, ?_,
      fun hp => absurd (errored_error _) hp, fun hp => absurd (errored_error _) hp⟩
    rw [Cursor.error, Cursor.error, Place.error, Place.error, h.line]

/-- The cells of a file that was parsed. -/
theorem Sim.cells_perm (s : Parse) (fr : List (Frame Addr)) (cs : List FileCells) (name buf : Addr) :
    (elements fr ++ entriesOf cs).Perm (entriesOf (⟨s.cf, name, buf, plug fr nil⟩ :: cs)) := by
  have hperm := inorder_plug fr nil
  rw [inorder_nil, List.nil_append] at hperm
  exact hperm.symm.append_right _

/-- The file that was parsed, and after an error the memory as it was. -/
theorem Sim.finish (h : Sim m₀ filename name buf s r next fr cs) :
    ∃ x, s.finish = some x ∧ Answers m₀ (some x) (some (r.finish filename next)) := by
  obtain ⟨p, n, hfile, hopen, hchain⟩ := h.file
  have hbnd := h.ext.blocks.nodup
  rw [List.nodup_cons, List.nodup_cons, List.mem_cons, not_or] at hbnd
  obtain ⟨⟨hnb, -⟩, hbuf, -⟩ := hbnd
  let m : Memory := { s.m with blocks := s.m.blocks.set buf s.cur.mem }
  have hchain' : Chain m cs next n none := by
    refine hchain.congr (fun _ _ => rfl) (fun _ _ => rfl) fun b hb => Store.get_set_of_ne _ _ ?_
    rintro rfl
    exact hbuf hb
  have hnamed : m.blocks.get name = some (filename.bytes ++ [0]) := (Store.get_set_of_ne _ _ hnb).trans h.named
  have hmem : m.blocks.get buf = some s.cur.mem := Store.get_set_self _ _ _
  have hlinked : Linked id (links m.entries) (plug fr nil) p := hopen.plug (show Linked id _ nil none from rfl)
  have hext : Extends m₀ m (entriesOf (⟨s.cf, name, buf, plug fr nil⟩ :: cs))
      (filesOf (⟨s.cf, name, buf, plug fr nil⟩ :: cs)) (blocksOf (⟨s.cf, name, buf, plug fr nil⟩ :: cs)) :=
    ⟨h.ext.entries.perm (Sim.cells_perm s fr cs name buf), h.ext.files, h.ext.blocks.set (by simp) _, h.ext.nestcnt⟩
  rw [Parse.finish, hfile]
  simp only [Option.bind_eq_bind, Option.bind_some]
  by_cases hr : r.place.errored
  · have hcells : Cells m (⟨s.cf, name, buf, plug fr nil⟩ :: cs) (some s.cf) :=
      ⟨rfl, _, hfile, rfl, rfl, by rw [hnamed]; rfl, by rw [hmem]; rfl, hlinked, hchain'.cells⟩
    have hlen := hext.files.length_le
    rw [filesOf, List.length_map] at hlen
    obtain ⟨m', hrun, hfree⟩ := freeFiles_spec hcells hext.entries.nodup hext.files.nodup hext.blocks.nodup
      (Nat.lt_succ_of_le hlen)
    rw [if_pos (h.errored_iff.2 hr), Reader.finish, if_pos hr]
    refine ⟨(s.cur.log, m', none), ?_, ?_⟩
    · rw [show (m.freeFiles (m.files.live.card + 1) (some s.cf)) = _ from hrun]
      rfl
    · refine Extends.frees ?_ hfree
      rw [List.append_nil, List.append_nil, List.append_nil]
      exact hext
  · rw [if_neg fun herr => hr (h.errored_iff.1 herr), Reader.finish, if_neg hr]
    refine ⟨_, rfl, ⟨s.cf, name, buf, plug fr nil⟩ :: cs,
      ⟨rfl, n, ⟨p, s.cur.mem, hfile, hnamed, hmem, hlinked, ?_⟩, hchain'⟩, hext⟩
    rw [show s.cur.mem = s.cur.behind ++ (r.place.rest ++ [0]) from congrArg Cursor.mem (h.place hr).1]
    have hnodes := (h.nodes hr).mono fun _ _ _ hn => hn.append (r.place.rest ++ [0])
    exact hnodes.plug (show Rel _ nil nil from trivial)

/-- **A text is parsed** as the text says. -/
theorem parse_answers (hA : A.entry.NeverFails) (hF : A.file.NeverFails) (hB : A.block.NeverFails)
    (htext : 0 ∉ text) (hbuf : m.blocks.get buf = some (text ++ [0])) (hext : Extends m₀ m [] [] [buf])
    (hload : LoadsAs m₀.nestcnt load loadT) :
    Answers m₀ (parse A load fuel filename buf m) (parseText loadT fuel filename text) := by
  obtain ⟨cf, hcf⟩ := Option.isSome_iff_exists.1 (hF m.files)
  obtain ⟨name, hname⟩ := Option.isSome_iff_exists.1 (hB m.blocks)
  let m' : Memory := { m with
    files := m.files.set cf ⟨name, buf, none, none⟩
    blocks := m.blocks.set name (filename.bytes ++ [0]) }
  have hstart : Sim m₀ filename name buf ⟨⟨text ++ [0], 0, 1, []⟩, m', cf, cf, .file, none⟩ (.start text) [] [] [] :=
    ⟨⟨none, none, Store.get_set_self _ _ _, rfl, rfl⟩, Store.get_set_self _ _ _, rfl, rfl, rfl, trivial,
      ⟨hext.entries, hext.files.alloc (A.file.fresh hcf) _, hext.blocks.alloc (A.block.fresh hname) _, hext.nestcnt⟩,
      rfl, fun _ => ⟨rfl, htext⟩, fun _ => trivial⟩
  have hends := loop_ends hA hload fuel hstart (show ¬ (1 : ℤ) ≤ 0 by decide)
  rw [parse, parseText, hcf]
  simp only [Option.bind_eq_bind, Option.bind_some, hname, hbuf]
  rcases hC : Parse.loop A load fuel ⟨⟨text ++ [0], 0, 1, []⟩, m', cf, cf, .file, none⟩ with _ | s
  · rcases hT : Reader.loop loadT fuel (.start text) [] with _ | ⟨r, next⟩
    · trivial
    · rw [hC, hT] at hends
      exact hends.elim
  · rcases hT : Reader.loop loadT fuel (.start text) [] with _ | ⟨r, next⟩
    · rw [hC, hT] at hends
      exact hends.elim
    · rw [hC, hT] at hends
      obtain ⟨fr, cs, hsim⟩ := hends
      obtain ⟨s', hunclosed, hsim'⟩ := hsim.unclosed
      obtain ⟨x, hfinish, hanswers⟩ := hsim'.finish
      rw [Option.bind_some, hunclosed, Option.bind_some, hfinish]
      exact hanswers

/-- `nestcnt--`. -/
theorem Answers.leave {x : Option (List LogLine × Memory × Option Addr)} {y : Option (Option (List Loaded))}
    (h : Answers { m with nestcnt := m.nestcnt + 1 } x y) :
    Answers m (x.bind fun x => some (x.1, { x.2.1 with nestcnt := x.2.1.nestcnt - 1 }, x.2.2)) y := by
  have hleave : ∀ {m' es fs bs}, Extends { m with nestcnt := m.nestcnt + 1 } m' es fs bs →
      Extends m { m' with nestcnt := m'.nestcnt - 1 } es fs bs := fun h =>
    ⟨h.entries, h.files, h.blocks, by
      have hn := h.nestcnt
      simp only at hn ⊢
      omega⟩
  rcases x with _ | ⟨log, m', _ | a⟩
  · rcases y with _ | _ | fs
    · exact h
    · exact h
    · exact h
  · rcases y with _ | _ | fs
    · exact h
    · exact hleave h
    · exact h
  · rcases y with _ | _ | fs
    · exact h
    · exact h
    · obtain ⟨cs, hchain, hext⟩ := h
      exact ⟨cs, hchain.congr (fun _ _ => rfl) (fun _ _ => rfl) fun _ _ => rfl, hleave hext⟩

theorem loadInternal_step (hA : A.entry.NeverFails) (hF : A.file.NeverFails) (hB : A.block.NeverFails)
    (files : CString → Opened) (fuel depth : ℕ)
    (ih : ∀ d, depth = d + 1 → ∀ m filename,
      Answers m (loadInternal A files fuel d filename m) (loadText files fuel d m.nestcnt filename))
    (m : Memory) (filename : CString) :
    Answers m (loadInternal A files fuel depth filename m) (loadText files fuel depth m.nestcnt filename) := by
  have hsame : Extends m m [] [] [] := ⟨.refl _, .refl _, .refl _, rfl⟩
  unfold loadInternal loadText
  by_cases hnest : maxIncludeNesting < m.nestcnt
  · rw [if_pos hnest, if_pos hnest]
    exact hsame
  rw [if_neg hnest, if_neg hnest]
  obtain ⟨buf, hbuf⟩ := Option.isSome_iff_exists.1 (hB m.blocks)
  rcases files filename with _ | _ | _ | _ | _ | bytes
  · exact hsame
  · exact hsame
  · exact hsame
  · exact hsame
  · simp only [hbuf, Option.bind_eq_bind, Option.bind_some, Memory.freeBlock, Store.get_set_self, Option.map_some]
    exact ⟨.refl _, .refl _, ((Store.Adds.refl _).alloc (A.block.fresh hbuf) _).free, rfl⟩
  · rcases depth with _ | depth
    · trivial
    simp only [hbuf, Option.bind_eq_bind, Option.bind_some]
    let m₁ : Memory := { m with blocks := m.blocks.set buf ((stringOf bytes).bytes ++ [0]), nestcnt := m.nestcnt + 1 }
    have hext : Extends { m with nestcnt := m.nestcnt + 1 } m₁ [] [] [buf] :=
      ⟨.refl _, .refl _, (Store.Adds.refl _).alloc (A.block.fresh hbuf) _, rfl⟩
    have hload : LoadsAs (m.nestcnt + 1) (loadInternal A files fuel depth)
        (loadText files fuel depth (m.nestcnt + 1)) := fun m' file hm' => hm' ▸ ih depth rfl m' file
    exact (parse_answers hA hF hB (stringOf bytes).nul_free (Store.get_set_self _ _ _) hext hload).leave

/-- **A file is loaded** as the texts of the files say. -/
theorem loadInternal_answers (hA : A.entry.NeverFails) (hF : A.file.NeverFails) (hB : A.block.NeverFails)
    (files : CString → Opened) (fuel depth : ℕ) (m : Memory) (filename : CString) :
    Answers m (loadInternal A files fuel depth filename m) (loadText files fuel depth m.nestcnt filename) := by
  induction depth generalizing m filename with
  | zero => exact loadInternal_step hA hF hB files fuel 0 (fun d hd => by cases hd) m filename
  | succ depth ih =>
    refine loadInternal_step hA hF hB files fuel (depth + 1) (fun d hd => ?_) m filename
    rw [← Nat.succ_injective hd]
    exact ih

end Confparse

end Mowgli
