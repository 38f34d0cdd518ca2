import Mowgli.Ext.Confparse.Includes
/-!
# What a load leaves in memory

A load that fails gives back all it allocated, and what a load that succeeds
allocated is given back by one `mowgli_config_file_free`. To give back what is
not there is undefined, so nothing is given back twice.
-/

namespace Mowgli

namespace Confparse

variable {files : CString → Opened} {m m' m'' : Memory} {A : Allocators} {cs : List FileCells} {p : Option Addr} {fuel : ℕ}

/-- Each file is text, and if it is not empty it ends in a newline. -/
def Lined (files : CString → Opened) : Prop :=
  ∀ name bytes, files name = .contents bytes → 0 ∉ bytes ∧ ∀ x, bytes.getLast? = some x → x = ch '\n'

/-- The same entries, files and blocks are there, with the same in them. -/
structure Memory.Same (m m' : Memory) : Prop where
  entries : ∀ a, m'.entries.get a = m.entries.get a
  files : ∀ a, m'.files.get a = m.files.get a
  blocks : ∀ a, m'.blocks.get a = m.blocks.get a
  nestcnt : m'.nestcnt = m.nestcnt

theorem Lined.uncut (hfiles : Lined files) : Uncut files := by
  intro name bytes hfile s hs hcut
  obtain ⟨hnul, hlast⟩ := hfiles name bytes hfile
  rw [stringOf_bytes hnul] at hs
  have hne : bytes ≠ [] := by
    rintro rfl
    exact hcut.1 (List.suffix_nil.1 hs)
  refine not_cutOff ?_ hs hcut
  rw [List.getLast?_eq_some_getLast hne, hlast _ (List.getLast?_eq_some_getLast hne)]

theorem Extends.unchanged (h : Extends m m' [] [] []) : m.Same m' :=
  ⟨fun a => h.entries.same a List.not_mem_nil, fun a => h.files.same a List.not_mem_nil,
    fun a => h.blocks.same a List.not_mem_nil, h.nestcnt⟩

/-- What was added as files is given back at once, and only once. -/
theorem Extends.release (h : Extends m m' (entriesOf cs) (filesOf cs) (blocksOf cs)) (hc : Cells m' cs p) :
    ∃ m'', m'.freeFiles (m'.files.live.card + 1) p = some m'' ∧ m.Same m'' ∧
      ∀ a fuel, p = some a → m''.freeFiles fuel p = none := by
  have hlen := h.files.length_le
  rw [filesOf, List.length_map] at hlen
  obtain ⟨m'', hrun, hfree⟩ := freeFiles_spec hc h.entries.nodup h.files.nodup h.blocks.nodup (Nat.lt_succ_of_le hlen)
  have hext : Extends m m'' [] [] [] := by
    refine Extends.frees ?_ hfree
    rw [List.append_nil, List.append_nil, List.append_nil]
    exact h
  refine ⟨m'', hrun, hext.unchanged, fun a fuel hp => ?_⟩
  subst hp
  cases fuel with
  | zero => rfl
  | succ fuel =>
    have hdead : m''.files.get a = none := by
      cases cs with
      | nil => cases hc
      | cons c cs =>
        have ha : a = c.cell := Option.some.inj hc.1
        rw [hfree.files, if_pos (ha ▸ List.mem_cons_self)]
    rw [Memory.freeFiles, hdead]
    rfl

/-- **Loading leaks nothing and gives nothing back twice**: a load of text
files whose lines all end comes to an end; where it answers null the memory is
as it was, and otherwise what it answers can be given back once, which leaves
the memory as it was. -/
theorem load_releases (hA : A.entry.NeverFails) (hF : A.file.NeverFails) (hB : A.block.NeverFails)
    (files : CString → Opened) (hfiles : Lined files) (filename : CString) (m : Memory) :
    ∃ k, ∀ fuel, k ≤ fuel → ∃ log m' cf,
      Confparse.load A files fuel (maxIncludeNesting + 1) filename m = some (log, m', cf) ∧
      (cf = none → m.Same m') ∧
      ∀ a, cf = some a → ∃ m'', m'.freeFiles (m'.files.live.card + 1) (some a) = some m'' ∧ m.Same m'' ∧
        ∀ fuel, m''.freeFiles fuel (some a) = none := by
  have hd : maxIncludeNesting < m.nestcnt + (maxIncludeNesting + 1) := by omega
  obtain ⟨k, hk⟩ := hfiles.uncut.loadText_ends hd filename
  refine ⟨k, fun fuel hf => ?_⟩
  obtain ⟨x, hx⟩ := Option.isSome_iff_exists.1 (hk fuel hf)
  have hanswers := loadInternal_answers hA hF hB files fuel (maxIncludeNesting + 1) m filename
  rw [hx] at hanswers
  rcases hrun : loadInternal A files fuel (maxIncludeNesting + 1) filename m with _ | ⟨log, m', cf⟩
  · rw [hrun] at hanswers
    exact hanswers.elim
  rw [hrun] at hanswers
  refine ⟨log, m', cf, hrun, ?_⟩
  rcases cf with _ | a
  · rcases x with _ | fs
    · exact ⟨fun _ => hanswers.unchanged, nofun⟩
    · exact hanswers.elim
  · rcases x with _ | fs
    · exact hanswers.elim
    · obtain ⟨cs, hchain, hext⟩ := hanswers
      refine ⟨nofun, fun b hb => ?_⟩
      obtain rfl := Option.some.inj hb
      obtain ⟨m'', hrun', hsame, htwice⟩ := hext.release hchain.cells
      exact ⟨m'', hrun', hsame, fun fuel => htwice a fuel rfl⟩

/-- Loading `x`, which is a file that includes itself, from an empty memory
leaves it empty. -/
theorem load_releases_self : ∃ k, ∀ fuel, k ≤ fuel → ∃ log m' cf, Confparse.load ⟨.bump, .bump, .bump⟩ selfFiles fuel
    (maxIncludeNesting + 1) selfName ⟨.empty, .empty, .empty, 0⟩ = some (log, m', cf) ∧
    (cf = none → ∀ a, m'.files.get a = none) := by
  have hfiles : Lined selfFiles := by
    intro name bytes h
    rw [selfFiles] at h
    split_ifs at h
    cases h
    refine ⟨by decide, fun x hx => ?_⟩
    rw [← Option.some.inj hx]
    rfl
  obtain ⟨k, hk⟩ := load_releases (A := ⟨.bump, .bump, .bump⟩) Allocator.bump_neverFails Allocator.bump_neverFails
    Allocator.bump_neverFails selfFiles hfiles selfName ⟨.empty, .empty, .empty, 0⟩
  refine ⟨k, fun fuel hf => ?_⟩
  obtain ⟨log, m', cf, hrun, hnull, -⟩ := hk fuel hf
  exact ⟨log, m', cf, hrun, fun hcf a => (hnull hcf).files a⟩

end Confparse

end Mowgli
