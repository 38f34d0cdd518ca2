import Mowgli.Ext.Confparse.Include
/-!
# The parser and the reader

Each part of the loop of the parser does to the text, the forest and the
files what the same part of the reader does.
-/

namespace Mowgli

namespace Confparse

open BinTree Links Cursor

variable {m₀ : Memory} {filename : CString} {name buf ce : Addr} {s : Parse} {r : Reader} {e : ConfigFileEntry}
variable {next : List Loaded} {fr : List (Frame Addr)} {cs : List FileCells} {A : Allocators} {load : Loader}
variable {loadT : CString → Option (Option (List Loaded))} {u w : CString} {v : ℕ}

/-! ## The cursor -/

/-- Both have met an error or neither has. -/
theorem Sim.errored_iff (h : Sim m₀ filename name buf s r next fr cs) : s.cur.errored ↔ r.place.errored := by
  rw [Cursor.errored, Place.errored, h.line]

/-- Without an error the cursor is on the first byte of what the reader has left, or on the NUL
behind it. -/
theorem Sim.get (h : Sim m₀ filename name buf s r next fr cs) (hr : ¬ r.place.errored) :
    s.cur.mem[s.cur.pos]? = some (r.place.rest.headD 0) := by
  rw [(h.place hr).1]
  exact cursor_get _ _ _

/-- The cursor goes over one character. -/
theorem Sim.goOver {x : UInt8} {t : List UInt8} (h : Sim m₀ filename name buf s r next fr cs) (hr : ¬ r.place.errored)
    (hx : r.place.rest = x :: t) :
    Sim m₀ filename name buf { s with cur := s.cur.next } { r with place := ⟨t, r.place.curline⟩ } next fr cs := by
  obtain ⟨hcur, hnul⟩ := h.place hr
  refine h.goOn hr h.line fun _ => ⟨⟨[x], s.cur.log, ?_⟩, fun hm => hnul (hx ▸ List.mem_cons_of_mem _ hm)⟩
  have hplace : r.place = ⟨x :: t, r.place.curline⟩ := by rw [← hx]
  rw [← cursor_next, ← hplace, ← hcur]

/-- `skip_ws` comes to where the reader's `skip` comes to. -/
theorem Sim.skipWs (h : Sim m₀ filename name buf s r next fr cs) (hr : ¬ r.place.errored) :
    ∃ cur, s.cur.skipWs = some cur ∧ cur.mem[cur.pos]? = some (r.place.skip.rest.headD 0) ∧
      Sim m₀ filename name buf { s with cur := cur } { r with place := r.place.skip } next fr cs := by
  obtain ⟨hcur, hnul⟩ := h.place hr
  obtain ⟨e, log, hrest, hrun⟩ := skipWs_cursor hnul s.cur.behind s.cur.log
  rw [← hcur] at hrun
  refine ⟨_, hrun, cursor_get _ _ _, h.goOn hr rfl fun _ => ⟨⟨e, log, rfl⟩, ?_⟩⟩
  rw [hrest, List.mem_append, not_or] at hnul
  exact hnul.2

/-- `get_value` finds the value that the reader finds, and the word is in place behind the cursor. Where the
reader has no value the text ended within a word: then the cursor is past the buffer. -/
theorem Sim.getValue (h : Sim m₀ filename name buf s r next fr cs) (hr : ¬ r.place.errored) :
    (r.place.value = none ∧
      ∃ a cur, s.cur.getValue = some (some a, 0, cur) ∧ ¬ cur.errored ∧ cur.mem[cur.pos]? = none) ∨
    ∃ val k p a cur, r.place.value = some (val, k, p) ∧ s.cur.getValue = some (a, k, cur) ∧
      Sim m₀ filename name buf { s with cur := cur } { r with place := p } next fr cs ∧ (a = none ↔ val = none) ∧
      (¬ p.errored → (∃ e, cur.behind = s.cur.behind ++ e) ∧ ∀ b w, a = some b → val = some w → Settled cur.behind b w) := by
  obtain ⟨hcur, hnul⟩ := h.place hr
  obtain ⟨hsome, hnone⟩ := getValue_cursor hnul s.cur.behind s.cur.log
  rw [← hcur] at hsome hnone
  rcases hval : r.place.value with _ | ⟨val, k, p⟩
  · obtain ⟨a, cur, hrun, hline, hget⟩ := hnone hval
    refine Or.inl ⟨rfl, a, cur, hrun, fun herr => hr ?_, hget⟩
    rw [Cursor.errored, hline] at herr
    exact herr
  · obtain ⟨a, cur, hrun, hgets⟩ := hsome val k p hval
    obtain ⟨e', hrest, -⟩ := Place.value_suffix hval
    have hnul' : 0 ∉ p.rest := fun hm => hnul (hrest ▸ List.mem_append_right _ hm)
    refine Or.inr ⟨val, k, p, a, cur, rfl, hrun, h.goOn hr hgets.line fun hp => ⟨?_, hnul'⟩, hgets.null, fun hp => ?_⟩
    · obtain ⟨e, log, hcur', -⟩ := hgets.place hp
      exact ⟨e, log, hcur'⟩
    · obtain ⟨e, log, rfl, hset⟩ := hgets.place hp
      rw [behind_cursor]
      exact ⟨⟨e, rfl⟩, hset⟩

/-- The character that ended a word: both see the same one, and go on behind it. -/
theorem Sim.delimiter (h : Sim m₀ filename name buf s r next fr cs) (hr : ¬ r.place.errored) (k : UInt8) :
    ∃ cur, s.cur.delimiter k = some ((r.place.delimiter k).1, cur) ∧
      Sim m₀ filename name buf { s with cur := cur } { r with place := (r.place.delimiter k).2 } next fr cs ∧
      ¬ (r.place.delimiter k).2.errored ∧ ∃ e, cur.behind = s.cur.behind ++ e := by
  obtain ⟨hcur, hnul⟩ := h.place hr
  obtain ⟨e, hrest, hrun⟩ := delimiter_cursor (p := r.place) s.cur.behind s.cur.log k
  rw [← hcur] at hrun
  have hline : (r.place.delimiter k).2.curline = r.place.curline := by
    rw [Place.delimiter]
    split_ifs
    · split
      · rfl
      · split_ifs <;> rfl
    · rfl
  refine ⟨_, hrun, h.goOn hr rfl fun _ => ⟨⟨e, _, rfl⟩, ?_⟩, ?_, e, by simp⟩
  · rw [hrest, List.mem_append, not_or] at hnul
    exact hnul.2
  · rw [Place.errored, hline]
    exact hr

/-! ## An entry -/

/-- The parser answers for the reader wherever it can be. -/
def LoadsAs (n : ℕ) (load : Loader) (loadT : CString → Option (Option (List Loaded))) : Prop :=
  ∀ m file, m.nestcnt = n → Answers m (load file m) (loadT file)

/-- An error of the parser is one of the reader. -/
theorem Sim.fail_matches (h : Sim m₀ filename name buf s r next fr cs)
    (loadT : CString → Option (Option (List Loaded))) (format : String) :
    Matches m₀ filename name buf next (some (s.fail format)) (r.fail.run loadT) :=
  (h.fail format).goes false (by simp)

/-- An entry that ends in a semicolon is a file to include, or it is just there. -/
theorem directive_matches (h : Sim m₀ filename name buf s r next (.sibling nil ce :: fr) cs) (hr : ¬ r.place.errored)
    (hce : s.m.entries.get ce = some e) (hn : Settled s.cur.behind e.varname w) (hd : e.vardata = some v)
    (hv : Settled s.cur.behind v u) (hload : LoadsAs m₀.nestcnt load loadT) :
    Matches m₀ filename name buf next (s.directive load ce) ((r.directive w u).run loadT) := by
  have hmem : s.cur.mem = s.cur.behind ++ (r.place.rest ++ [0]) := congrArg Cursor.mem (h.place hr).1
  have hup : s.upce = none ↔ sections r.entries = [] := by
    rw [h.up, List.head?_eq_none_iff]
    exact (h.nodes hr).sections_eq_nil
  rw [Parse.directive, Reader.directive, hce]
  simp only [Option.bind_eq_bind, Option.bind_some, hup, hd, hmem, hn.stringAt, hv.stringAt]
  split_ifs
  · exact includeFile_matches h hr (hload s.m u h.ext.nestcnt)
  · exact h.goes true fun _ => hr

/-- What comes behind the value of an entry: a section, the end of the entry, or what is not
allowed there. -/
theorem afterData_matches (h : Sim m₀ filename name buf s r next (.sibling nil ce :: fr) cs) (hr : ¬ r.place.errored)
    (hce : s.m.entries.get ce = some e) (hup : e.prevlevel = s.upce) (hn : Settled s.cur.behind e.varname w)
    (hd : e.vardata = some v) (hv : Settled s.cur.behind v u) (hload : LoadsAs m₀.nestcnt load loadT) (c : UInt8) :
    Matches m₀ filename name buf next (s.afterData load ce c) ((r.afterData w u c).run loadT) := by
  rw [Parse.afterData, Reader.afterData]
  split_ifs
  · exact Sim.goes (h.openSection hce hup) true fun _ => hr
  · exact directive_matches h hr hce hn hd hv hload
  · exact h.fail_matches loadT _

/-- The value of an entry is read and put in it; the name, which is before it in the buffer, stays where it was. -/
theorem readData_matches (h : Sim m₀ filename name buf s r next (.sibling nil ce :: fr) cs) (hr : ¬ r.place.errored)
    (hce : s.m.entries.get ce = some e) (hup : e.prevlevel = s.upce) (hn : Settled s.cur.behind e.varname w)
    (hload : LoadsAs m₀.nestcnt load loadT) :
    Matches m₀ filename name buf next (s.readData load ce) ((r.readData w).bind (Turn.run loadT)) := by
  rw [Parse.readData, Reader.readData]
  rcases h.getValue hr with ⟨hval, a, cur, hrun, herr, hget⟩ | ⟨val, k, p, a, cur, hval, hrun, hsim, hnull, hset⟩
  · rw [hval, hrun]
    simp only [Option.bind_eq_bind, Option.bind_some, Option.bind_none, if_neg herr]
    rw [modifyEntry_eq (s := { s with cur := cur }) hce, Option.bind_some, delimiter_behind hget]
    trivial
  rw [hval, hrun]
  simp only [Option.bind_eq_bind, Option.bind_some, hsim.errored_iff]
  split_ifs with hp
  · exact hsim.goes false (by simp)
  obtain ⟨⟨d, hbehind⟩, hset⟩ := hset hp
  rcases val with _ | u
  · rw [hnull.2 rfl]
    exact hsim.fail_matches loadT _
  obtain ⟨b, rfl⟩ : ∃ b, a = some b := Option.ne_none_iff_exists'.1 fun ha => by cases hnull.1 ha
  have hdata := hsim.setData hce (hset b u rfl rfl)
  obtain ⟨cur', hdel, hsim', hp', d', hbehind'⟩ := hdata.delimiter hp k
  simp only at hdel
  simp only [modifyEntry_eq (s := { s with cur := cur }) hce, Option.bind_some, hdel]
  refine afterData_matches hsim' hp' (Store.get_set_self _ _ _) hup ?_ rfl ?_ hload _
  · rw [hbehind', hbehind]
    exact (hn.append d).append d'
  · rw [hbehind']
    exact (hset b u rfl rfl).append d'

/-- What comes behind the name of an entry. -/
theorem afterName_matches (h : Sim m₀ filename name buf s r next (.sibling nil ce :: fr) cs) (hr : ¬ r.place.errored)
    (hce : s.m.entries.get ce = some e) (hup : e.prevlevel = s.upce) (hn : Settled s.cur.behind e.varname w)
    (hload : LoadsAs m₀.nestcnt load loadT) (c : UInt8) :
    Matches m₀ filename name buf next (s.afterName load ce c) ((r.afterName w c).bind (Turn.run loadT)) := by
  rw [Parse.afterName, Reader.afterName]
  split_ifs
  · exact Sim.goes (h.openSection hce hup) true fun _ => hr
  · exact h.goes true fun _ => hr
  · exact h.fail_matches loadT _
  · exact readData_matches h hr hce hup hn hload

/-- A new entry leaves the cursor alone. -/
theorem newEntry_cur {v : ℕ} {s' : Parse} (h : s.newEntry A v = some (ce, s')) : s'.cur = s.cur := by
  rw [Parse.newEntry] at h
  simp only [Option.bind_eq_bind, Option.bind_eq_some_iff] at h
  obtain ⟨a, -, t, hset, heq⟩ := h
  cases heq
  rw [Parse.setSlot] at hset
  split at hset
  · obtain ⟨-, -, rfl⟩ := Option.map_eq_some_iff.1 hset
    rfl
  · obtain ⟨-, -, rfl⟩ := Option.map_eq_some_iff.1 hset
    rfl
  · obtain ⟨-, -, rfl⟩ := Option.map_eq_some_iff.1 hset
    rfl

/-- **An entry.** Its name is read before the entry is made. If the text ended within the name the entry is made all
the same, and what is read next is outside of the buffer. -/
theorem readEntry_matches (hA : A.entry.NeverFails) (h : Sim m₀ filename name buf s r next fr cs) (hr : ¬ r.place.errored)
    (hload : LoadsAs m₀.nestcnt load loadT) :
    Matches m₀ filename name buf next (s.readEntry A load) (r.readEntry.bind (Turn.run loadT)) := by
  rw [Parse.readEntry, Reader.readEntry]
  rcases h.getValue hr with ⟨hval, a, cur, hrun, herr, hget⟩ | ⟨val, k, p, a, cur, hval, hrun, hsim, hnull, hset⟩
  · rw [hval, hrun]
    simp only [Option.bind_eq_bind, Option.bind_some, Option.bind_none, if_neg herr]
    rcases hnew : Parse.newEntry A { s with cur := cur } a with _ | ⟨ce, s'⟩
    · trivial
    · rw [Option.bind_some, newEntry_cur hnew, delimiter_behind hget]
      trivial
  rw [hval, hrun]
  simp only [Option.bind_eq_bind, Option.bind_some, hsim.errored_iff]
  split_ifs with hp
  · exact hsim.goes false (by simp)
  obtain ⟨-, hset⟩ := hset hp
  rcases val with _ | w
  · rw [hnull.2 rfl]
    exact hsim.fail_matches loadT _
  obtain ⟨b, rfl⟩ : ∃ b, a = some b := Option.ne_none_iff_exists'.1 fun ha => by cases hnull.1 ha
  obtain ⟨ce, s', e, hnew, hcur, hce, hup, hname, hsim'⟩ := newEntry_spec hA hsim hp (hset b w rfl rfl)
  obtain ⟨cur', hdel, hsim'', hp', d, hbehind⟩ := hsim'.delimiter hp k
  simp only [hnew, Option.bind_some, hdel]
  refine afterName_matches hsim'' hp' hce hup ?_ hload _
  rw [hbehind, hcur, hname]
  exact (hset b w rfl rfl).append d

/-! ## A turn of the loop -/

/-- **The end of a section**: the brace closes the innermost one that is open, and a semicolon has to follow. -/
theorem closeSection_matches (h : Sim m₀ filename name buf s r next fr cs) (hr : ¬ r.place.errored)
    (hx : r.place.rest.head? = some (ch '}')) :
    Matches m₀ filename name buf next s.closeSection (r.closeSection.run loadT) := by
  rw [Parse.closeSection, Reader.closeSection]
  rcases hup : s.upce with _ | ce
  · have hsec : sections r.entries = [] := by
      rw [← (h.nodes hr).sections_eq_nil, ← List.head?_eq_none_iff, ← h.up, hup]
    rw [shut_eq_none hsec]
    exact h.fail_matches loadT _
  obtain ⟨e, l, fr', nodes, hce, hshut, hsim⟩ := h.shut hr hup
  obtain ⟨t, ht⟩ : ∃ t, r.place.rest = ch '}' :: t := by
    rcases hrest : r.place.rest with _ | ⟨x, t⟩
    · rw [hrest] at hx
      cases hx
    · rw [hrest] at hx
      exact ⟨t, by rw [Option.some.inj hx]⟩
  have hline : s.cur.curline = r.place.curline := h.line
  have hdone := hsim.alterTop (e := { e with sectlinenum := s.cur.curline })
    (f := fun e => { e with sectlinenum := r.place.curline }) hce rfl fun y hy => by
      obtain ⟨x, hx, hl, hn, hd, -⟩ := hy
      obtain rfl : e = x := Option.some.inj (hce.symm.trans hx)
      exact ⟨_, Store.get_set_self _ _ _, hl, hn, hd, hline⟩
  have hon := hdone.goOver hr ht
  obtain ⟨cur, hskip, hget, hsim'⟩ := hon.skipWs hr
  simp only at hskip
  rw [hshut]
  simp only [ht, List.tail_cons, Option.bind_eq_bind, modifyEntry_eq hce, Option.bind_some, Memory.setEntry,
    Store.get_set_self, hskip, hsim'.errored_iff]
  by_cases hp : (Place.skip ⟨t, r.place.curline⟩).errored
  · rw [if_pos hp, if_pos hp]
    exact hsim'.goes false (by simp)
  rw [if_neg hp, if_neg hp, hget, Option.bind_some]
  simp only
  rcases hrest : (Place.skip ⟨t, r.place.curline⟩).rest with _ | ⟨x, u⟩
  · exact hsim'.fail_matches loadT _
  rw [List.headD_cons, List.head?_cons]
  by_cases hsemi : x = ch ';'
  · rw [if_pos hsemi, if_pos (by rw [hsemi])]
    exact Sim.goes (hsim'.goOver hp hrest) true fun _ => hp
  · rw [if_neg hsemi, if_neg fun h => hsemi (Option.some.inj h)]
    exact hsim'.fail_matches loadT _

/-- The NUL is found just at the end of the text. -/
theorem headD_eq_zero {t : List UInt8} (ht : 0 ∉ t) : t.headD 0 = 0 ↔ t = [] := by
  cases t with
  | nil => simp
  | cons x t =>
    rw [List.mem_cons, not_or] at ht
    simp [Ne.symm ht.1]

/-- Any other character is found just if it is the next one. -/
theorem headD_eq {t : List UInt8} {x : UInt8} (hx : x ≠ 0) : t.headD 0 = x ↔ t.head? = some x := by
  cases t with
  | nil => simp [Ne.symm hx]
  | cons y t => simp

/-- **One turn** of the loop. -/
theorem body_matches (hA : A.entry.NeverFails) (h : Sim m₀ filename name buf s r next fr cs) (hr : ¬ r.place.errored)
    (hload : LoadsAs m₀.nestcnt load loadT) : Matches m₀ filename name buf next (s.body A load) (r.body loadT) := by
  obtain ⟨cur, hskip, hget, hsim⟩ := h.skipWs hr
  rw [Parse.body, Reader.body, Reader.turn, hskip]
  simp only [Option.bind_eq_bind, Option.bind_some, hget, hsim.errored_iff]
  by_cases hp : r.place.skip.errored
  · rw [if_pos (Or.inr hp), if_pos (Or.inr hp)]
    exact hsim.goes false (by simp)
  obtain ⟨-, hnul⟩ := hsim.place hp
  by_cases hnil : r.place.skip.rest = []
  · rw [if_pos (Or.inl ((headD_eq_zero hnul).2 hnil)), if_pos (Or.inl hnil)]
    exact hsim.goes false (by simp)
  have hgo : ¬ (r.place.skip.rest.headD 0 = 0 ∨ r.place.skip.errored) :=
    fun h => h.elim (fun h => hnil ((headD_eq_zero hnul).1 h)) hp
  have hgo' : ¬ (r.place.skip.rest = [] ∨ r.place.skip.errored) := fun h => h.elim hnil hp
  rw [if_neg hgo, if_neg hgo']
  by_cases hclose : r.place.skip.rest.head? = some (ch '}')
  · rw [if_pos ((headD_eq (by decide)).2 hclose), if_pos hclose]
    exact closeSection_matches hsim hp hclose
  · rw [if_neg fun hx => hclose ((headD_eq (by decide)).1 hx), if_neg hclose]
    exact readEntry_matches hA hsim hp hload

/-- The parser ends where the reader ends. -/
def Ends (m₀ : Memory) (filename : CString) (name buf : Addr) : Option Parse → Option (Reader × List Loaded) → Prop
  | none, none => True
  | some s, some (r, next) => ∃ fr cs, Sim m₀ filename name buf s r next fr cs
  | _, _ => False

/-- **The loop** of the parser is the loop of the reader. -/
theorem loop_ends (hA : A.entry.NeverFails) (hload : LoadsAs m₀.nestcnt load loadT) (fuel : ℕ)
    (h : Sim m₀ filename name buf s r next fr cs) (hr : ¬ r.place.errored) :
    Ends m₀ filename name buf (Parse.loop A load fuel s) (Reader.loop loadT fuel r next) := by
  induction fuel generalizing s r next fr cs with
  | zero => trivial
  | succ fuel ih =>
    obtain ⟨-, hnul⟩ := h.place hr
    rw [Parse.loop, Reader.loop, h.get hr]
    simp only [Option.bind_eq_bind, Option.bind_some, headD_eq_zero hnul]
    by_cases hnil : r.place.rest = []
    · rw [if_pos hnil, if_pos hnil]
      exact ⟨fr, cs, h⟩
    rw [if_neg hnil, if_neg hnil]
    have hbody := body_matches hA h hr hload
    rcases hC : s.body A load with _ | ⟨go, s'⟩
    · rcases hT : r.body loadT with _ | ⟨go', r', files⟩
      · trivial
      · rw [hC, hT] at hbody
        exact hbody.elim
    · rcases hT : r.body loadT with _ | ⟨go', r', files⟩
      · rw [hC, hT] at hbody
        exact hbody.elim
      · rw [hC, hT] at hbody
        obtain ⟨rfl, hr', fr', cs', hsim⟩ := hbody
        cases go with
        | false => exact ⟨fr', cs', hsim⟩
        | true => exact ih hsim (hr' rfl)

end Confparse

end Mowgli
