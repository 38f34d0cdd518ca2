import Mowgli.Ext.Confparse.Body
/-!
# Memory that is given back

`mowgli_config_file_free` gives back the entries, the records, the names and
the texts of a chain of files, each once.
-/

namespace Mowgli

namespace Confparse

open BinTree Links

variable {m₀ m m' m'' : Memory} {es fs bs es' fs' bs' : List Addr} {p q : Option Addr} {cs : List FileCells}
variable {c : FileCells} {t : BinTree Addr} {a : Addr} {fuel : ℕ}

/-- Cells were given back; the other ones are as they were. -/
structure Frees (m m' : Memory) (es fs bs : List Addr) : Prop where
  entries : ∀ b, m'.entries.get b = if b ∈ es then none else m.entries.get b
  files : ∀ b, m'.files.get b = if b ∈ fs then none else m.files.get b
  blocks : ∀ b, m'.blocks.get b = if b ∈ bs then none else m.blocks.get b
  nestcnt : m'.nestcnt = m.nestcnt

theorem Frees.refl (m : Memory) : Frees m m [] [] [] :=
  ⟨fun b => by simp, fun b => by simp, fun b => by simp, rfl⟩

theorem get_append {α : Type} {s s' s'' : Store α} {xs ys : List Addr}
    (h : ∀ b, s'.get b = if b ∈ xs then none else s.get b) (h' : ∀ b, s''.get b = if b ∈ ys then none else s'.get b)
    (b : Addr) : s''.get b = if b ∈ xs ++ ys then none else s.get b := by
  rw [h', h]
  by_cases hx : b ∈ xs
  · simp [hx]
  · by_cases hy : b ∈ ys <;> simp [hx, hy]

theorem Frees.trans (h : Frees m m' es fs bs) (h' : Frees m' m'' es' fs' bs') :
    Frees m m'' (es ++ es') (fs ++ fs') (bs ++ bs') :=
  ⟨get_append h.entries h'.entries, get_append h.files h'.files, get_append h.blocks h'.blocks,
    h'.nestcnt.trans h.nestcnt⟩

theorem get_free_singleton {α : Type} (s : Store α) (a b : Addr) :
    (s.free a).get b = if b ∈ [a] then none else s.get b := by
  rw [Store.get_free]
  simp

/-- One cell is given back, if it is there. -/
theorem freeEntry_spec (ha : (m.entries.get a).isSome) : ∃ m', m.freeEntry a = some m' ∧ Frees m m' [a] [] [] := by
  obtain ⟨e, he⟩ := Option.isSome_iff_exists.1 ha
  exact ⟨{ m with entries := m.entries.free a }, by rw [Memory.freeEntry, he, Option.map_some],
    get_free_singleton _ _, by simp, by simp, rfl⟩

theorem freeFile_spec (ha : (m.files.get a).isSome) : ∃ m', m.freeFile a = some m' ∧ Frees m m' [] [a] [] := by
  obtain ⟨e, he⟩ := Option.isSome_iff_exists.1 ha
  exact ⟨{ m with files := m.files.free a }, by rw [Memory.freeFile, he, Option.map_some],
    by simp, get_free_singleton _ _, by simp, rfl⟩

theorem freeBlock_spec (ha : (m.blocks.get a).isSome) : ∃ m', m.freeBlock a = some m' ∧ Frees m m' [] [] [a] := by
  obtain ⟨e, he⟩ := Option.isSome_iff_exists.1 ha
  exact ⟨{ m with blocks := m.blocks.free a }, by rw [Memory.freeBlock, he, Option.map_some],
    by simp, by simp, get_free_singleton _ _, rfl⟩

/-- A forest of entries is given back. -/
theorem freeEntries_spec (h : Linked id (links m.entries) t p) (hnd : t.inorder.Nodup) (hfuel : t.inorder.length < fuel) :
    ∃ m', m.freeEntries fuel p = some m' ∧ Frees m m' t.inorder [] [] := by
  induction t generalizing m p fuel with
  | nil =>
    obtain ⟨fuel, rfl⟩ : ∃ k, fuel = k + 1 := ⟨fuel - 1, by omega⟩
    obtain rfl : p = none := h
    exact ⟨m, rfl, .refl m⟩
  | node l x r ihl ihr =>
    obtain ⟨fuel, rfl⟩ : ∃ k, fuel = k + 1 := ⟨fuel - 1, by omega⟩
    obtain ⟨rfl, u, v, hx, hl, hr⟩ := h
    obtain ⟨e, he, huv⟩ := Option.map_eq_some_iff.1 hx
    obtain ⟨rfl, rfl⟩ := Prod.mk.inj huv
    rw [inorder_node] at hnd hfuel
    obtain ⟨hndl, hndr, hdisj⟩ := List.nodup_append.1 hnd
    obtain ⟨hxr, hndr⟩ := List.nodup_cons.1 hndr
    rw [List.length_append, List.length_cons] at hfuel
    obtain ⟨m₁, hrun₁, hfree₁⟩ := ihl hl hndl (show l.inorder.length < fuel by omega)
    have hxl : x ∉ l.inorder := fun hm => hdisj x hm x (List.mem_cons_self ..) rfl
    have hx₁ : (m₁.entries.get x).isSome := by
      rw [hfree₁.entries, if_neg hxl]
      exact Option.isSome_iff_exists.2 ⟨e, he⟩
    obtain ⟨m₂, hrun₂, hfree₂⟩ := freeEntry_spec hx₁
    have hr₂ : Linked id (links m₂.entries) r e.next := hr.congr fun y hy => by
      have hyl : y ∉ l.inorder := fun hm => hdisj y hm y (List.mem_cons_of_mem _ hy) rfl
      have hyx : y ∉ [x] := fun hm => hxr (List.mem_singleton.1 hm ▸ hy)
      rw [links, links, id, hfree₂.entries, if_neg hyx, hfree₁.entries, if_neg hyl]
    obtain ⟨m₃, hrun₃, hfree₃⟩ := ihr hr₂ hndr (show r.inorder.length < fuel by omega)
    refine ⟨m₃, ?_, ?_⟩
    · rw [id] at he
      simp only [Memory.freeEntries, id, he, Option.bind_eq_bind, Option.bind_some, hrun₁, hrun₂, hrun₃]
    · have hall := (hfree₁.trans hfree₂).trans hfree₃
      rw [List.append_assoc] at hall
      exact hall

/-- From `p` on there are the cells of files. -/
def Cells (m : Memory) : List FileCells → Option Addr → Prop
  | [], p => p = none
  | c :: cs, p => p = some c.cell ∧ ∃ f, m.files.get c.cell = some f ∧ f.filename = c.name ∧ f.mem = c.mem ∧
      (m.blocks.get c.name).isSome ∧ (m.blocks.get c.mem).isSome ∧ Linked id (links m.entries) c.entries f.entries ∧
      Cells m cs f.next

/-- The files that were loaded have their cells. -/
theorem Chain.cells {fs : List Loaded} (h : Chain m cs fs p none) : Cells m cs p := by
  induction cs generalizing fs p with
  | nil =>
    cases fs with
    | nil => exact h
    | cons f fs => exact h.elim
  | cons c cs ih =>
    cases fs with
    | nil => exact h.elim
    | cons f fs =>
      obtain ⟨hp, n, ⟨e, text, hf, hn, ht, hl, -⟩, h⟩ := h
      exact ⟨hp, _, hf, rfl, rfl, by rw [hn]; rfl, by rw [ht]; rfl, hl, ih h⟩

/-- What files do not have may be given back. -/
theorem Cells.congr (h : Cells m cs p) (he : ∀ a ∈ entriesOf cs, m'.entries.get a = m.entries.get a)
    (hf : ∀ a ∈ filesOf cs, m'.files.get a = m.files.get a) (hb : ∀ a ∈ blocksOf cs, m'.blocks.get a = m.blocks.get a) :
    Cells m' cs p := by
  induction cs generalizing p with
  | nil => exact h
  | cons c cs ih =>
    rw [entriesOf, List.flatMap_cons, List.forall_mem_append] at he
    rw [filesOf, List.map_cons, List.forall_mem_cons] at hf
    rw [blocksOf, List.flatMap_cons, List.forall_mem_append] at hb
    obtain ⟨hp, f, hfile, hfn, hfm, hn, ht, hl, h⟩ := h
    refine ⟨hp, f, hf.1.trans hfile, hfn, hfm, ?_, ?_, hl.congr fun a ha => ?_, ih h he.2 hf.2 hb.2⟩
    · rw [hb.1 _ (by simp)]
      exact hn
    · rw [hb.1 _ (by simp)]
      exact ht
    · rw [links, links, id, he.1 a ha]

theorem linked_length_le {entries : Store ConfigFileEntry} (h : Linked id (links entries) t p) (hnd : t.inorder.Nodup) :
    t.inorder.length ≤ entries.live.card := by
  have hlive : ∀ a ∈ t.inorder, a ∈ entries.live := by
    induction t generalizing p with
    | nil => simp
    | node l x r ihl ihr =>
      obtain ⟨-, u, v, hx, hl, hr⟩ := h
      obtain ⟨hndl, hndr, -⟩ := List.nodup_append.1 hnd
      intro a ha
      rw [inorder_node, List.mem_append, List.mem_cons] at ha
      rcases ha with ha | rfl | ha
      · exact ihl hl hndl a ha
      · obtain ⟨e, he, -⟩ := Option.map_eq_some_iff.1 hx
        exact Store.mem_live.2 ⟨e, he⟩
      · exact ihr hr (List.nodup_cons.1 hndr).2 a ha
  rw [← List.toFinset_card_of_nodup hnd]
  exact Finset.card_le_card fun a ha => hlive a (List.mem_toFinset.1 ha)

/-- One file is given back. -/
theorem freeOne {f : ConfigFile} (hfile : m.files.get c.cell = some f) (hfn : f.filename = c.name) (hfm : f.mem = c.mem)
    (hn : (m.blocks.get c.name).isSome) (ht : (m.blocks.get c.mem).isSome)
    (hl : Linked id (links m.entries) c.entries f.entries) (hes : c.entries.inorder.Nodup) (hne : c.name ≠ c.mem)
    (fuel : ℕ) :
    ∃ m', m.freeFiles (fuel + 1) (some c.cell) = m'.freeFiles fuel f.next ∧
      Frees m m' c.entries.inorder [c.cell] [c.name, c.mem] := by
  obtain ⟨m₁, hrun₁, h₁⟩ := freeEntries_spec hl hes (Nat.lt_succ_of_le (linked_length_le hl hes))
  obtain ⟨m₂, hrun₂, h₂⟩ := freeBlock_spec (m := m₁) (a := c.name) (by rw [h₁.blocks, if_neg (by simp)]; exact hn)
  obtain ⟨m₃, hrun₃, h₃⟩ := freeBlock_spec (m := m₂) (a := c.mem)
    (by rw [h₂.blocks, if_neg (by simpa using hne.symm), h₁.blocks, if_neg (by simp)]; exact ht)
  obtain ⟨m₄, hrun₄, h₄⟩ := freeFile_spec (m := m₃) (a := c.cell)
    (by rw [h₃.files, if_neg (by simp), h₂.files, if_neg (by simp), h₁.files, if_neg (by simp), hfile]; rfl)
  refine ⟨m₄, ?_, ?_⟩
  · rw [Memory.freeFiles]
    simp only [hfile, Option.bind_eq_bind, Option.bind_some, hfn, hfm, hrun₁, hrun₂, hrun₃, hrun₄]
  · have hall := ((h₁.trans h₂).trans h₃).trans h₄
    simpa using hall

/-- **Files are given back**, with all they have. -/
theorem freeFiles_spec (h : Cells m cs p) (hes : (entriesOf cs).Nodup) (hfs : (filesOf cs).Nodup) (hbs : (blocksOf cs).Nodup)
    (hfuel : cs.length < fuel) :
    ∃ m', m.freeFiles fuel p = some m' ∧ Frees m m' (entriesOf cs) (filesOf cs) (blocksOf cs) := by
  induction cs generalizing m p fuel with
  | nil =>
    obtain ⟨fuel, rfl⟩ : ∃ k, fuel = k + 1 := ⟨fuel - 1, by omega⟩
    obtain rfl : p = none := h
    exact ⟨m, rfl, .refl m⟩
  | cons c cs ih =>
    obtain ⟨fuel, rfl⟩ : ∃ k, fuel = k + 1 := ⟨fuel - 1, by omega⟩
    obtain ⟨rfl, f, hfile, hfn, hfm, hn, ht, hl, h⟩ := h
    rw [entriesOf, List.flatMap_cons] at hes ⊢
    rw [filesOf, List.map_cons] at hfs ⊢
    rw [blocksOf, List.flatMap_cons] at hbs ⊢
    obtain ⟨hese, hescs, hesd⟩ := List.nodup_append.1 hes
    obtain ⟨hbse, hbscs, hbsd⟩ := List.nodup_append.1 hbs
    obtain ⟨hfc, hfs⟩ := List.nodup_cons.1 hfs
    rw [List.length_cons] at hfuel
    obtain ⟨m₁, hrun₁, h₁⟩ := freeOne hfile hfn hfm hn ht hl hese (by simpa using hbse) fuel
    have hcells : Cells m₁ cs f.next := by
      refine h.congr (fun a ha => ?_) (fun a ha => ?_) fun a ha => ?_
      · rw [h₁.entries, if_neg fun hm => hesd a hm a ha rfl]
      · have hac : a ∉ [c.cell] := by
          rw [List.mem_singleton]
          rintro rfl
          exact hfc ha
        rw [h₁.files, if_neg hac]
      · rw [h₁.blocks, if_neg fun hm => hbsd a hm a ha rfl]
    obtain ⟨m₂, hrun₂, h₂⟩ := ih hcells hescs hfs hbscs (show cs.length < fuel by omega)
    exact ⟨m₂, hrun₁.trans hrun₂, h₁.trans h₂⟩

/-- Cells that were added and given back are as before. -/
theorem adds_of_frees {α : Type} {s₀ s s' : Store α} {xs ys : List Addr} (h : Store.Adds s₀ s (xs ++ ys))
    (hfree : ∀ b, s'.get b = if b ∈ xs then none else s.get b) : Store.Adds s₀ s' ys := by
  obtain ⟨-, hnd, hdisj⟩ := List.nodup_append.1 h.nodup
  have hkeep : ∀ b, b ∉ xs → s'.get b = s.get b := fun b hb => by rw [hfree, if_neg hb]
  refine ⟨hnd, fun b hb => h.fresh b (List.mem_append_right _ hb), fun b hb => ?_, fun b hb => ?_⟩
  · rw [hkeep b fun hx => hdisj b hx b hb rfl]
    exact h.live b (List.mem_append_right _ hb)
  · by_cases hx : b ∈ xs
    · rw [hfree, if_pos hx, h.fresh b (List.mem_append_left _ hx)]
    · rw [hkeep b hx, h.same b fun hm => (List.mem_append.1 hm).elim hx hb]

/-- What was added may be given back. -/
theorem Extends.frees (h : Extends m₀ m (es ++ es') (fs ++ fs') (bs ++ bs')) (hfree : Frees m m' es fs bs) :
    Extends m₀ m' es' fs' bs' :=
  ⟨adds_of_frees h.entries hfree.entries, adds_of_frees h.files hfree.files, adds_of_frees h.blocks hfree.blocks,
    hfree.nestcnt.trans h.nestcnt⟩

end Confparse

end Mowgli
