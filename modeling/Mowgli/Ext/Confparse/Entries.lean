import Mowgli.Library.Adds
import Mowgli.Ext.Confparse.Cursor
/-!
# The entries and the forest

What the parser has built is the forest of the text: the entries are its
elements, their pointers its shape, `pprevce` points at its open place and
`upce` is the section it is in. All of it is memory that was free before.
-/

namespace Mowgli

namespace Confparse

open BinTree Links

/-- The pointers of the entries. -/
def links (entries : Store ConfigFileEntry) : Links := fun a => (entries.get a).map fun e => (e.entries, e.next)

/-- At `a` there is an entry of which the text `d` has the names. -/
def IsNode (entries : Store ConfigFileEntry) (d : List UInt8) (a : Addr) (n : Node) : Prop :=
  ∃ e, entries.get a = some e ∧ e.varlinenum = n.varlinenum ∧ Settled d e.varname n.varname ∧
    Option.Rel (Settled d) e.vardata n.vardata ∧ e.sectlinenum = n.sectlinenum

/-- Each section is in the next one. -/
def Ups (entries : Store ConfigFileEntry) : List Addr → Prop
  | [] => True
  | a :: l => (∃ e, entries.get a = some e ∧ e.prevlevel = l.head?) ∧ Ups entries l

/-- The pointer to the open place. -/
def slotOf : List (Frame Addr) → Slot
  | [] => .file
  | .child a :: _ => .entries a
  | .sibling _ a :: _ => .next a

/-- The memory of a file. -/
structure FileCells where
  cell : Addr
  name : Addr
  mem : Addr
  entries : BinTree Addr

/-- The entries of files. -/
def entriesOf (cs : List FileCells) : List Addr := cs.flatMap fun c => c.entries.inorder

/-- The records of files. -/
def filesOf (cs : List FileCells) : List Addr := cs.map FileCells.cell

/-- The names and the texts of files. -/
def blocksOf (cs : List FileCells) : List Addr := cs.flatMap fun c => [c.name, c.mem]

/-- The memory was added to. -/
structure Extends (m₀ m : Memory) (es fs bs : List Addr) : Prop where
  entries : Store.Adds m₀.entries m.entries es
  files : Store.Adds m₀.files m.files fs
  blocks : Store.Adds m₀.blocks m.blocks bs
  nestcnt : m.nestcnt = m₀.nestcnt

/-- At the cells `c` there is the file `f`, and `next` behind it. -/
def IsFile (m : Memory) (c : FileCells) (f : Loaded) (next : Option Addr) : Prop :=
  ∃ p text, m.files.get c.cell = some ⟨c.name, c.mem, p, next⟩ ∧
    m.blocks.get c.name = some (f.filename.bytes ++ [0]) ∧ m.blocks.get c.mem = some text ∧
    Linked id (links m.entries) c.entries p ∧ Rel (IsNode m.entries text) c.entries f.entries

/-- From `p` on there are files, up to `q`. -/
def Chain (m : Memory) : List FileCells → List Loaded → Option Addr → Option Addr → Prop
  | [], [], p, q => p = q
  | c :: cs, f :: fs, p, q => p = some c.cell ∧ ∃ n, IsFile m c f n ∧ Chain m cs fs n q
  | _, _, _, _ => False

/-- The last file. -/
def lastCell (cf : Addr) : List FileCells → Addr
  | [] => cf
  | c :: cs => lastCell c.cell cs

/-- What the cursor is behind. -/
def Cursor.behind (c : Cursor) : List UInt8 := c.mem.take c.pos

@[simp] theorem behind_cursor (p : Place) (d : List UInt8) (log : List LogLine) : (p.cursor d log).behind = d :=
  List.take_left

/-- The parser is where the reader is: `fr` are the entries it has made, and
`cs` the files that were included. -/
structure Sim (m₀ : Memory) (filename : CString) (name buf : Addr) (s : Parse) (r : Reader) (next : List Loaded)
    (fr : List (Frame Addr)) (cs : List FileCells) : Prop where
  file : ∃ p n, s.m.files.get s.cf = some ⟨name, buf, p, n⟩ ∧ OpenAt id (links s.m.entries) fr none p ∧
    Chain s.m cs next n none
  named : s.m.blocks.get name = some (filename.bytes ++ [0])
  last : s.lastcf = lastCell s.cf cs
  slot : s.pprevce = slotOf fr
  up : s.upce = (sections fr).head?
  ups : Ups s.m.entries (sections fr)
  ext : Extends m₀ s.m (elements fr ++ entriesOf cs) (s.cf :: filesOf cs) (name :: buf :: blocksOf cs)
  line : s.cur.curline = r.place.curline
  place : ¬ r.place.errored → s.cur = r.place.cursor s.cur.behind s.cur.log ∧ 0 ∉ r.place.rest
  nodes : ¬ r.place.errored → FramesRel (IsNode s.m.entries s.cur.behind) fr r.entries

variable {entries entries' : Store ConfigFileEntry} {d : List UInt8} {a : Addr} {n : Node}
variable {m₀ m m' : Memory} {filename : CString} {name buf : Addr} {s : Parse} {r : Reader}
variable {next : List Loaded} {fr : List (Frame Addr)} {cs ds : List FileCells} {fs gs : List Loaded} {p q : Option Addr}

/-! ## Memory that stays -/

theorem IsNode.append (h : IsNode entries d a n) (e : List UInt8) : IsNode entries (d ++ e) a n := by
  obtain ⟨x, hx, hl, hn, hd, hs⟩ := h
  refine ⟨x, hx, hl, hn.append e, ?_, hs⟩
  generalize x.vardata = v, n.vardata = w at hd ⊢
  cases hd with
  | none => exact .none
  | some hd => exact .some (hd.append e)

theorem links_mono (h : ∀ a x, entries.get a = some x → entries'.get a = some x) (a : Addr)
    (w : Option Addr × Option Addr) (ha : links entries a = some w) : links entries' a = some w := by
  obtain ⟨x, hx, rfl⟩ := Option.map_eq_some_iff.1 ha
  rw [links, h a x hx, Option.map_some]

theorem Ups.mono {l : List Addr} (h : Ups entries l)
    (he : ∀ a x, entries.get a = some x → ∃ y, entries'.get a = some y ∧ y.prevlevel = x.prevlevel) : Ups entries' l := by
  induction l with
  | nil => trivial
  | cons a l ih =>
    obtain ⟨⟨x, hx, hp⟩, h⟩ := h
    obtain ⟨y, hy, hyx⟩ := he a x hx
    exact ⟨⟨y, hy, hyx.trans hp⟩, ih h⟩

/-- All that is in the one memory is in the other. -/
structure Grows (m m' : Memory) : Prop where
  entries : ∀ a x, m.entries.get a = some x → m'.entries.get a = some x
  files : ∀ a x, m.files.get a = some x → m'.files.get a = some x
  blocks : ∀ a x, m.blocks.get a = some x → m'.blocks.get a = some x

theorem IsNode.mono (h : IsNode m.entries d a n) (hm : Grows m m') : IsNode m'.entries d a n := by
  obtain ⟨x, hx, h⟩ := h
  exact ⟨x, hm.entries a x hx, h⟩

theorem IsFile.congr {c : FileCells} {f : Loaded} (h : IsFile m c f p)
    (hf : m'.files.get c.cell = m.files.get c.cell) (hb : ∀ a ∈ [c.name, c.mem], m'.blocks.get a = m.blocks.get a)
    (he : ∀ a ∈ c.entries.inorder, m'.entries.get a = m.entries.get a) : IsFile m' c f p := by
  obtain ⟨e, text, hfile, hn, ht, hl, hr⟩ := h
  refine ⟨e, text, hf.trans hfile, (hb _ (by simp)).trans hn, (hb _ (by simp)).trans ht, hl.congr fun a ha => ?_,
    hr.mono fun a ha n hn => ?_⟩
  · rw [links, links, id, he a ha]
  · rw [IsNode, he a ha]
    exact hn

/-- What a chain does not have may change. -/
theorem Chain.congr (h : Chain m cs fs p q) (he : ∀ a ∈ entriesOf cs, m'.entries.get a = m.entries.get a)
    (hf : ∀ a ∈ filesOf cs, m'.files.get a = m.files.get a) (hb : ∀ a ∈ blocksOf cs, m'.blocks.get a = m.blocks.get a) :
    Chain m' cs fs p q := by
  induction cs generalizing fs p with
  | nil =>
    cases fs with
    | nil => exact h
    | cons f fs => exact h.elim
  | cons c cs ih =>
    cases fs with
    | nil => exact h.elim
    | cons f fs =>
      obtain ⟨hp, n, hfile, h⟩ := h
      rw [entriesOf, List.flatMap_cons, List.forall_mem_append] at he
      rw [filesOf, List.map_cons, List.forall_mem_cons] at hf
      rw [blocksOf, List.flatMap_cons, List.forall_mem_append] at hb
      exact ⟨hp, n, hfile.congr hf.1 hb.1 he.1, ih h he.2 hf.2 hb.2⟩

theorem Extends.grows {es ls bs : List Addr} (h : Extends m m' es ls bs) : Grows m m' :=
  ⟨fun _ _ => h.entries.keeps, fun _ _ => h.files.keeps, fun _ _ => h.blocks.keeps⟩

theorem Extends.trans {es ls bs es' ls' bs' : List Addr} (h : Extends m₀ m es ls bs) (h' : Extends m m' es' ls' bs') :
    Extends m₀ m' (es' ++ es) (ls' ++ ls) (bs' ++ bs) :=
  ⟨h.entries.trans h'.entries, h.files.trans h'.files, h.blocks.trans h'.blocks, h'.nestcnt.trans h.nestcnt⟩

/-! ## The cursor -/

/-- The cursor goes on. -/
theorem Sim.goOn {cur : Cursor} {place : Place} (h : Sim m₀ filename name buf s r next fr cs) (hr : ¬ r.place.errored)
    (hline : cur.curline = place.curline)
    (hplace : ¬ place.errored → (∃ e log, cur = place.cursor (s.cur.behind ++ e) log) ∧ 0 ∉ place.rest) :
    Sim m₀ filename name buf { s with cur := cur } { r with place := place } next fr cs := by
  refine ⟨h.file, h.named, h.last, h.slot, h.up, h.ups, h.ext, hline, fun hp => ?_, fun hp => ?_⟩
  · obtain ⟨⟨e, log, rfl⟩, hnul⟩ := hplace hp
    exact ⟨by rw [behind_cursor]; rfl, hnul⟩
  · obtain ⟨⟨e, log, rfl⟩, hnul⟩ := hplace hp
    rw [behind_cursor]
    exact (h.nodes hr).mono fun _ _ _ hn => hn.append e

/-- After an error only the memory counts. -/
theorem Sim.fail (h : Sim m₀ filename name buf s r next fr cs) (format : String) :
    Sim m₀ filename name buf (s.fail format).2 { r with place := r.place.error } next fr cs :=
  ⟨h.file, h.named, h.last, h.slot, h.up, h.ups, h.ext, by rw [Parse.fail, Cursor.error, Place.error, h.line],
    fun hp => absurd (errored_error _) hp, fun hp => absurd (errored_error _) hp⟩

/-! ## A new entry -/

theorem links_set (e : ConfigFileEntry) :
    links (entries.set a e) = fun b => if b = a then some (e.entries, e.next) else links entries b := by
  funext b
  rw [links, Store.get_set]
  split_ifs <;> rfl

theorem links_setNext {e : ConfigFileEntry} (ha : entries.get a = some e) (q : Option Addr) :
    links (entries.set a { e with next := q }) = (links entries).setSnd a q := by
  funext b
  rw [links_set, Links.setSnd, show links entries a = some (e.entries, e.next) by rw [links, ha]; rfl]
  rfl

theorem links_setEntries {e : ConfigFileEntry} (ha : entries.get a = some e) (q : Option Addr) :
    links (entries.set a { e with entries := q }) = (links entries).setFst a q := by
  funext b
  rw [links_set, Links.setFst, show links entries a = some (e.entries, e.next) by rw [links, ha]; rfl]
  rfl

theorem IsNode.set {b : Addr} {e e' : ConfigFileEntry} (ha : entries.get a = some e)
    (he : (e'.varlinenum, e'.varname, e'.vardata, e'.sectlinenum) = (e.varlinenum, e.varname, e.vardata, e.sectlinenum))
    (h : IsNode entries d b n) : IsNode (entries.set a e') d b n := by
  obtain ⟨x, hx, h⟩ := h
  simp only [Prod.mk.injEq] at he
  by_cases hb : b = a
  · obtain rfl : e = x := Option.some.inj (ha.symm.trans (hb ▸ hx))
    refine ⟨e', by rw [hb, Store.get_set_self], ?_⟩
    rw [he.1, he.2.1, he.2.2.1, he.2.2.2]
    exact h
  · exact ⟨x, by rw [Store.get_set_of_ne _ _ hb, hx], h⟩

/-- The memory with an entry changed. -/
def Memory.setEntry (m : Memory) (a : Addr) (e : ConfigFileEntry) : Memory := { m with entries := m.entries.set a e }

theorem modifyEntry_eq {e : ConfigFileEntry} (ha : s.m.entries.get a = some e) (f : ConfigFileEntry → ConfigFileEntry) :
    s.modifyEntry a f = some { s with m := s.m.setEntry a (f e) } := by
  rw [Parse.modifyEntry, Store.modify_of_get f ha]
  rfl

theorem modifyFile_eq {f₀ : ConfigFile} (ha : s.m.files.get a = some f₀) (f : ConfigFile → ConfigFile) :
    s.modifyFile a f = some { s with m := { s.m with files := s.m.files.set a (f f₀) } } := by
  rw [Parse.modifyFile, Store.modify_of_get f ha]
  rfl

/-- The elements of the forest are not those of the files behind. -/
theorem Sim.not_behind (h : Sim m₀ filename name buf s r next fr cs) (ha : a ∈ elements fr) : a ∉ entriesOf cs := fun hb =>
  (List.nodup_append.1 h.ext.entries.nodup).2.2 a ha a hb rfl

theorem Sim.nodup (h : Sim m₀ filename name buf s r next fr cs) : ((elements fr).map id).Nodup := by
  rw [List.map_id]
  exact (List.nodup_append.1 h.ext.entries.nodup).1

theorem Sim.live (h : Sim m₀ filename name buf s r next fr cs) (ha : a ∈ elements fr) : ∃ e, s.m.entries.get a = some e :=
  h.ext.entries.live a (List.mem_append_left _ ha)

/-- The memory after `*pprevce = ce`: the open place is set, and nothing else
is changed. -/
structure SetsOpen (cf : Addr) (f : ConfigFile) (fr : List (Frame Addr)) (ce : Addr) (m m' : Memory) : Prop where
  links : links m'.entries = setOpen id (links m.entries) fr (some ce)
  nodes : ∀ {d b n}, IsNode m.entries d b n → IsNode m'.entries d b n
  up : ∀ b x, m.entries.get b = some x → ∃ y, m'.entries.get b = some y ∧ y.prevlevel = x.prevlevel
  entries : ∀ b, b ∉ elements fr → m'.entries.get b = m.entries.get b
  added : ∀ {s xs}, (∀ a ∈ elements fr, a ∈ xs) → Store.Adds s m.entries xs → Store.Adds s m'.entries xs
  files : m'.files = m.files.set cf { f with entries := if fr = [] then some ce else f.entries }
  blocks : m'.blocks = m.blocks
  nestcnt : m'.nestcnt = m.nestcnt

theorem setsOpen_entry {x e : ConfigFileEntry} {f : ConfigFile} {cf ce : Addr} (ha : m.entries.get a = some x)
    (hmem : a ∈ elements fr) (hne : fr ≠ []) (hf : m.files.get cf = some f)
    (he : (e.varlinenum, e.varname, e.vardata, e.sectlinenum) = (x.varlinenum, x.varname, x.vardata, x.sectlinenum))
    (hup : e.prevlevel = x.prevlevel)
    (hlinks : Confparse.links (m.entries.set a e) = setOpen id (Confparse.links m.entries) fr (some ce)) :
    SetsOpen cf f fr ce m (m.setEntry a e) := by
  refine ⟨hlinks, fun hn => hn.set ha he, fun b y hb => ?_, fun b hb => ?_, fun hxs h => h.set (hxs a hmem) e, ?_, rfl, rfl⟩
  · by_cases hba : b = a
    · obtain rfl : x = y := Option.some.inj (ha.symm.trans (hba ▸ hb))
      exact ⟨e, by rw [hba, Memory.setEntry, Store.get_set_self], hup⟩
    · exact ⟨y, by rw [Memory.setEntry, Store.get_set_of_ne _ _ hba, hb], rfl⟩
  · exact Store.get_set_of_ne _ _ fun hba => hb (hba ▸ hmem)
  · rw [if_neg hne]
    exact (Store.set_eq_self hf).symm

theorem setSlot_spec {f : ConfigFile} (ce : Addr) (hslot : s.pprevce = slotOf fr) (hf : s.m.files.get s.cf = some f)
    (hlive : ∀ a ∈ elements fr, ∃ e, s.m.entries.get a = some e) :
    ∃ m', s.setSlot ce = some { s with m := m' } ∧ SetsOpen s.cf f fr ce s.m m' := by
  rcases fr with _ | ⟨a | ⟨l, a⟩, fr⟩
  · have hrun : s.setSlot ce = s.modifyFile s.cf fun f => { f with entries := some ce } := by
      rw [Parse.setSlot, hslot, slotOf]
    refine ⟨_, hrun.trans (modifyFile_eq hf _), rfl, id, fun b x hb => ⟨x, hb, rfl⟩, fun _ _ => rfl, fun _ h => h, ?_,
      rfl, rfl⟩
    rw [if_pos rfl]
  · have hrun : s.setSlot ce = s.modifyEntry a fun e => { e with entries := some ce } := by
      rw [Parse.setSlot, hslot, slotOf]
    obtain ⟨e, he⟩ := hlive a (by simp [elements])
    exact ⟨_, hrun.trans (modifyEntry_eq he _),
      setsOpen_entry he (by simp [elements]) (by simp) hf rfl rfl (links_setEntries he _)⟩
  · have hrun : s.setSlot ce = s.modifyEntry a fun e => { e with next := some ce } := by
      rw [Parse.setSlot, hslot, slotOf]
    obtain ⟨e, he⟩ := hlive a (by simp [elements])
    exact ⟨_, hrun.trans (modifyEntry_eq he _),
      setsOpen_entry he (by simp [elements]) (by simp) hf rfl rfl (links_setNext he _)⟩

variable {A : Allocators}

/-- **A new entry** goes to the open place. -/
theorem newEntry_spec (hA : A.entry.NeverFails) (h : Sim m₀ filename name buf s r next fr cs) (hr : ¬ r.place.errored)
    {v : ℕ} {w : CString} (hv : Settled s.cur.behind v w) :
    ∃ ce s' e, s.newEntry A v = some (ce, s') ∧ s'.cur = s.cur ∧ s'.m.entries.get ce = some e ∧
      e.prevlevel = s'.upce ∧ e.varname = v ∧ Sim m₀ filename name buf s' (r.newEntry w) next (.sibling nil ce :: fr) cs := by
  obtain ⟨ce, hce⟩ := Option.isSome_iff_exists.1 (hA s.m.entries)
  have hfresh := A.entry.fresh hce
  let e : ConfigFileEntry := ⟨s.cur.curline, v, none, 0, none, s.upce, none⟩
  obtain ⟨p, n, hfile, hopen, hchain⟩ := h.file
  have hne : ∀ b x, s.m.entries.get b = some x → b ≠ ce := by
    rintro b x hb rfl
    rw [hfresh] at hb
    cases hb
  have hkeep : ∀ b x, s.m.entries.get b = some x → (s.m.entries.set ce e).get b = some x := fun b x hb => by
    rw [Store.get_set_of_ne _ _ (hne b x hb), hb]
  have hnotMem : ce ∉ elements fr := fun hm => by
    obtain ⟨x, hx⟩ := h.live hm
    exact hne ce x hx rfl
  obtain ⟨m', hrun, hsets⟩ := setSlot_spec ce (s := { s with m := s.m.setEntry ce e }) h.slot hfile
    fun a ha => (h.live ha).imp fun x hx => hkeep a x hx
  have hget : m'.entries.get ce = some e := by
    rw [hsets.entries ce hnotMem]
    exact Store.get_set_self _ _ _
  refine ⟨ce, { s with m := m', pprevce := .next ce }, e, ?_, rfl, hget, rfl, rfl, ?_, ?_, h.last, rfl, h.up, ?_, ?_, h.line,
    h.place, fun _ => ?_⟩
  · rw [Parse.newEntry, hce]
    exact (congrArg (Option.bind · _) hrun).trans rfl
  · refine ⟨if fr = [] then some ce else p, n, ?_, ?_, hchain.congr (fun b hb => ?_) (fun b hb => ?_) fun b hb => ?_⟩
    · rw [hsets.files]
      exact Store.get_set_self _ _ _
    · rw [hsets.links]
      refine (hopen.mono (links_mono hkeep)).grow h.nodup (fun x hx hxc => hnotMem ?_) ?_
      · exact (show x = ce from hxc) ▸ hx
      · exact (congrFun (links_set e) ce).trans (if_pos rfl)
    · have hnot : b ∉ elements fr := fun hm => h.not_behind hm hb
      obtain ⟨x, hx⟩ := h.ext.entries.live b (List.mem_append_right _ hb)
      rw [hsets.entries b hnot, hx]
      exact hkeep b x hx
    · rw [hsets.files]
      refine Store.get_set_of_ne _ _ ?_
      rintro rfl
      exact (List.nodup_cons.1 h.ext.files.nodup).1 hb
    · rw [hsets.blocks]
      rfl
  · rw [hsets.blocks]
    exact h.named
  · refine h.ups.mono fun b x hb => ?_
    exact hsets.up b x (hkeep b x hb)
  · refine ⟨?_, ?_, ?_, hsets.nestcnt.trans h.ext.nestcnt⟩
    · refine hsets.added (fun b hb => ?_) (h.ext.entries.alloc hfresh e)
      exact List.mem_cons_of_mem _ (List.mem_append_left _ hb)
    · rw [hsets.files]
      exact h.ext.files.set (List.mem_cons_self ..) _
    · rw [hsets.blocks]
      exact h.ext.blocks
  · refine ⟨trivial, ?_, (h.nodes hr).mono fun b hb n hn => ?_⟩
    · exact ⟨e, hget, h.line, hv, .none, rfl⟩
    · obtain ⟨x, hx, hn⟩ := hn
      exact hsets.nodes ⟨x, hkeep b x hx, hn⟩

/-- The last entry becomes the section that is open. -/
theorem Sim.openSection {ce : Addr} {e : ConfigFileEntry} (h : Sim m₀ filename name buf s r next (.sibling nil ce :: fr) cs)
    (hce : s.m.entries.get ce = some e) (hup : e.prevlevel = s.upce) :
    Sim m₀ filename name buf (s.openSection ce) r.openSection next (.child ce :: fr) cs := by
  obtain ⟨p, n, hfile, ⟨a, ha, hnil, hopen⟩, hchain⟩ := h.file
  obtain rfl : a = none := hnil
  refine ⟨⟨p, n, hfile, ⟨ha, hopen⟩, hchain⟩, h.named, h.last, rfl, rfl, ⟨⟨e, hce, hup.trans h.up⟩, h.ups⟩, h.ext, h.line,
    h.place, fun hr => (h.nodes hr).opened⟩

theorem links_set_eq {x e : ConfigFileEntry} (ha : entries.get a = some x) (hp : (e.entries, e.next) = (x.entries, x.next)) :
    links (entries.set a e) = links entries := by
  rw [links_set]
  funext b
  by_cases hb : b = a
  · rw [if_pos hb, hb, links, ha, hp]
    rfl
  · rw [if_neg hb]

/-- The files behind do not have the entries. -/
theorem Sim.chain_setEntry (h : Sim m₀ filename name buf s r next fr cs) (ha : a ∈ elements fr) (e : ConfigFileEntry)
    (hc : Chain s.m cs fs p q) : Chain (s.m.setEntry a e) cs fs p q := by
  refine hc.congr (fun b hb => ?_) (fun _ _ => rfl) fun _ _ => rfl
  refine Store.get_set_of_ne _ _ ?_
  rintro rfl
  exact h.not_behind ha hb

/-- An entry is changed, but for its pointers. -/
theorem Sim.alter {x e : ConfigFileEntry} {nodes : List (Frame Node)} (h : Sim m₀ filename name buf s r next fr cs)
    (hmem : a ∈ elements fr) (ha : s.m.entries.get a = some x)
    (hp : (e.entries, e.next, e.prevlevel) = (x.entries, x.next, x.prevlevel))
    (hnodes : ¬ r.place.errored → FramesRel (IsNode (s.m.entries.set a e) s.cur.behind) fr nodes) :
    Sim m₀ filename name buf { s with m := s.m.setEntry a e } { r with entries := nodes } next fr cs := by
  simp only [Prod.mk.injEq] at hp
  obtain ⟨p, n, hfile, hopen, hchain⟩ := h.file
  have hlinks : links (s.m.entries.set a e) = links s.m.entries := links_set_eq ha (by rw [hp.1, hp.2.1])
  refine ⟨⟨p, n, hfile, ?_, h.chain_setEntry hmem e hchain⟩, h.named, h.last, h.slot, h.up, h.ups.mono fun b y hb => ?_,
    ⟨h.ext.entries.set (List.mem_append_left _ hmem) e, h.ext.files, h.ext.blocks, h.ext.nestcnt⟩, h.line, h.place, hnodes⟩
  · rw [Memory.setEntry, hlinks]
    exact hopen
  · by_cases hba : b = a
    · obtain rfl : x = y := Option.some.inj (ha.symm.trans (hba ▸ hb))
      exact ⟨e, by rw [hba, Memory.setEntry, Store.get_set_self], hp.2.2⟩
    · exact ⟨y, by rw [Memory.setEntry, Store.get_set_of_ne _ _ hba, hb], rfl⟩

/-- The last entry is changed, in the memory and in the forest. -/
theorem Sim.alterTop {l : BinTree Addr} {x e : ConfigFileEntry} {f : Node → Node}
    (h : Sim m₀ filename name buf s r next (.sibling l a :: fr) cs) (ha : s.m.entries.get a = some x)
    (hp : (e.entries, e.next, e.prevlevel) = (x.entries, x.next, x.prevlevel))
    (hf : ∀ y, IsNode s.m.entries s.cur.behind a y → IsNode (s.m.entries.set a e) s.cur.behind a (f y)) :
    Sim m₀ filename name buf { s with m := s.m.setEntry a e } { r with entries := onTop f r.entries }
      next (.sibling l a :: fr) cs := by
  refine h.alter (by simp [elements]) ha hp fun hr => (h.nodes hr).onTop hf fun z hz y hy => ?_
  obtain ⟨w, hw, hy⟩ := hy
  have hza : z ≠ a := by
    have hnd := h.nodup
    rw [List.map_id, elements, List.nodup_cons] at hnd
    exact fun hza => hnd.1 (hza ▸ hz)
  exact ⟨w, by rw [Store.get_set_of_ne _ _ hza, hw], hy⟩

/-- The value of the last entry is set. -/
theorem Sim.setData {ce : Addr} {e : ConfigFileEntry} {v : ℕ} {w : CString}
    (h : Sim m₀ filename name buf s r next (.sibling nil ce :: fr) cs) (hce : s.m.entries.get ce = some e)
    (hv : Settled s.cur.behind v w) :
    Sim m₀ filename name buf { s with m := s.m.setEntry ce { e with vardata := some v } }
      { r with entries := onTop (fun e => { e with vardata := some w }) r.entries } next (.sibling nil ce :: fr) cs := by
  refine h.alterTop hce rfl fun y hy => ?_
  obtain ⟨x, hx, hl, hn, -, hs⟩ := hy
  obtain rfl : e = x := Option.some.inj (hce.symm.trans hx)
  exact ⟨_, Store.get_set_self _ _ _, hl, hn, .some hv, hs⟩

/-- The innermost section is closed. -/
theorem Sim.shut {ce : Addr} (h : Sim m₀ filename name buf s r next fr cs) (hr : ¬ r.place.errored) (hce : s.upce = some ce) :
    ∃ e l fr' nodes, s.m.entries.get ce = some e ∧ BinTree.shut r.entries nil = some nodes ∧
      Sim m₀ filename name buf { s with pprevce := .next ce, upce := e.prevlevel } { r with entries := nodes }
        next (.sibling l ce :: fr') cs := by
  have hsec : sections fr ≠ [] := by
    intro hnil
    rw [h.up, hnil] at hce
    cases hce
  obtain ⟨fr', hshut⟩ := exists_shut hsec nil
  obtain ⟨l, x, fr₀, rfl, xs, hx⟩ := shut_head hshut
  obtain rfl : x = ce := by
    rw [h.up, hx] at hce
    exact Option.some.inj hce
  obtain ⟨y, hy⟩ := shut_sections hshut
  obtain ⟨⟨e, he, hup⟩, hups⟩ : Ups s.m.entries (x :: sections (.sibling l x :: fr₀)) := by
    have hxy : x = y := by
      rw [hx, List.cons.injEq] at hy
      exact hy.1
    have hups := h.ups
    rw [hy, ← hxy] at hups
    exact hups
  have hrel : Option.Rel (FramesRel (IsNode s.m.entries s.cur.behind)) (BinTree.shut fr nil) (BinTree.shut r.entries nil) :=
    (h.nodes hr).shut trivial
  rw [hshut] at hrel
  generalize hn : BinTree.shut r.entries nil = o at hrel
  rcases hrel with hrel | -
  rename_i nodes
  obtain ⟨p, n, hfile, hopen, hchain⟩ := h.file
  refine ⟨e, l, fr₀, nodes, he, rfl, ⟨p, n, hfile, hopen.shut (show Linked id _ nil none from rfl) hshut, hchain⟩, h.named, h.last, rfl, hup, hups,
    ⟨h.ext.entries.perm ?_, h.ext.files, h.ext.blocks, h.ext.nestcnt⟩, h.line, h.place, fun _ => hrel⟩
  exact (shut_elements hshut).symm.append_right _

end Confparse

end Mowgli
