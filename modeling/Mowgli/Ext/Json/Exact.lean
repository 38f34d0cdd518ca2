import Mowgli.Ext.Json.Text
/-!
# Whether the counts are right

Of the values that the parser made, those that it lost have one reference
and no owner. Where it lost none, every count is right, and to take one
reference away from each value that was returned frees all of them. It
loses just the values that `Doc.Distinct` is about: of the members of an
object that have one name, only the last is put in.
-/

namespace Mowgli

namespace Json

section

variable {h h₀ g : JsonHeap} {E O L : List (Ref × Value)} {S : Multiset Addr} {r : Ref} {v : Value} {k : ℕ}

/-! ## What is freed -/

/-- Values that are freed leave nothing, and the rest as it was. -/
def Freed (g : JsonHeap) (S : Multiset Addr) (g' : JsonHeap) : Prop := ∀ b, g'.get b = if b ∈ S then none else g.get b

theorem freed_zero (g : JsonHeap) : Freed g 0 g := fun b => (if_neg (Multiset.notMem_zero b)).symm

theorem Freed.add {g₁ g₂ : JsonHeap} {S₁ S₂ : Multiset Addr} (h₁ : Freed g S₁ g₁) (h₂ : Freed g₁ S₂ g₂) :
    Freed g (S₁ + S₂) g₂ := by
  intro b
  rw [h₂, h₁]
  simp only [Multiset.mem_add]
  by_cases hb : b ∈ S₂
  · rw [if_pos hb, if_pos (.inr hb)]
  · simp only [hb, or_false, if_false]

/-- A value that was written to, and then freed after others. -/
theorem Freed.free {g₁ : JsonHeap} {S₁ : Multiset Addr} {a : Addr} {x : JsonCell} (h : Freed (g.set a x) S₁ g₁) :
    Freed g (a ::ₘ S₁) (Store.free g₁ a) := by
  intro b
  rw [Store.get_free, h, Store.get_set]
  simp only [Multiset.mem_cons]
  by_cases hb : b = a
  · rw [if_pos hb, if_pos (.inl hb)]
  · simp only [hb, false_or, if_false]

/-- What was not freed is as it was. -/
theorem Freed.kept {g₁ : JsonHeap} {S₁ S₂ : Multiset Addr} (h : Freed g S₁ g₁) (hdisj : Disjoint S₁ S₂) {b : Addr}
    (hb : b ∈ S₂) : g₁.get b = g.get b := by
  rw [h, if_neg fun hin => Multiset.disjoint_left.1 hdisj hin hb]

/-- **The only reference is taken away** from some values, in a memory that
has their cells. -/
theorem decrefIn_owns (ho : Owns counted h E S) (hnodup : S.Nodup) (hg : ∀ b ∈ S, g.get b = h.get b) (hk : S.card < k) :
    ∃ g', (E.map Prod.fst).foldlM (JsonHeap.decrefIn k) g = .ok g' ∧ Freed g S g' := by
  induction ho generalizing g k with
  | nil => exact ⟨g, rfl, freed_zero g⟩
  | @plain r v E S hr _ _ ih =>
    obtain ⟨g', hrun, hfreed⟩ := ih hnodup hg hk
    obtain ⟨k, rfl⟩ := Nat.exists_eq_succ_of_ne_zero (Nat.ne_zero_of_lt hk)
    have hone : JsonHeap.decrefIn (k + 1) g r = .ok g := by
      cases r <;> first | rfl | cases hr
    refine ⟨g', ?_, hfreed⟩
    rw [List.map_cons, List.foldlM_cons, hone]
    exact hrun
  | @cell r v a x l E S₁ S hr hx hv _ _ ih ih' =>
    obtain rfl : r = .cell a := by
      cases r <;> cases hr
      rfl
    obtain ⟨hmem, hnodup⟩ := Multiset.nodup_cons.1 hnodup
    obtain ⟨hnodup₁, hnodup₂, hdisj⟩ := Multiset.nodup_add.1 hnodup
    rw [Multiset.mem_add, not_or] at hmem
    rw [Multiset.card_cons, Multiset.card_add] at hk
    obtain ⟨k, rfl⟩ := Nat.exists_eq_succ_of_ne_zero (Nat.ne_zero_of_lt hk)
    have hget : g.get a = some ⟨1, x.contents⟩ := by
      rw [hg a (Multiset.mem_cons_self a _), hx, ← JsonCell.Shape.refcount_eq hv]
    -- what the value holds is freed first
    have hin : ∀ b ∈ S₁, (g.set a ⟨0, x.contents⟩).get b = h.get b := fun b hb => by
      have hne : b ≠ a := by
        rintro rfl
        exact hmem.1 hb
      rw [Store.get_set_of_ne _ _ hne]
      exact hg b (Multiset.mem_cons_of_mem (Multiset.mem_add.2 (.inl hb)))
    obtain ⟨g₁, hrun₁, hfreed₁⟩ := @ih _ k hnodup₁ hin (by omega)
    have hget₁ : g₁.get a = some ⟨0, x.contents⟩ := by
      rw [hfreed₁, if_neg hmem.1, Store.get_set_self]
    have hone : JsonHeap.decrefIn (k + 1) g (.cell a) = .ok (Store.free g₁ a) := by
      rw [← JsonCell.Shape.held_eq hv] at hrun₁
      simp only [JsonHeap.decrefIn, hget]
      show (x.contents.held.foldlM (JsonHeap.decrefIn k) (g.set a ⟨0, x.contents⟩) >>= fun h => JsonHeap.free h a) = _
      rw [hrun₁]
      show JsonHeap.free g₁ a = _
      rw [JsonHeap.free, hget₁]
    -- and the other values after it
    have hrest : ∀ b ∈ S, (Store.free g₁ a).get b = h.get b := fun b hb => by
      have hdisj' : Disjoint (a ::ₘ S₁) S := Multiset.disjoint_cons_left.2 ⟨hmem.2, hdisj⟩
      rw [hfreed₁.free.kept hdisj' hb]
      exact hg b (Multiset.mem_cons_of_mem (Multiset.mem_add.2 (.inr hb)))
    obtain ⟨g₂, hrun₂, hfreed₂⟩ := @ih' _ (k + 1) hnodup₂ hrest (by omega)
    refine ⟨g₂, ?_, ?_⟩
    · rw [List.map_cons, List.foldlM_cons, hone]
      exact hrun₂
    · rw [← Multiset.cons_add]
      exact hfreed₁.free.add hfreed₂

/-- **`mowgli_json_decref`** on values that have one reference each. -/
theorem decrefAll_owns (A : Allocator JsonCell) (hA : A.NeverFails) (ho : Owns counted h E S) (hnodup : S.Nodup)
    (hg : ∀ b ∈ S, g.get b = h.get b) :
    ∃ g', Parse.decrefAll (countedOps A hA) g (E.map Prod.fst) = .ok g' ∧ Freed g S g' := by
  induction E generalizing g S with
  | nil =>
    cases ho
    exact ⟨g, rfl, freed_zero g⟩
  | cons e E ih =>
    obtain ⟨S₁, S₂, rfl, he, hE⟩ := ho.uncons
    obtain ⟨hnodup₁, hnodup₂, hdisj⟩ := Multiset.nodup_add.1 hnodup
    have hin : ∀ b ∈ S₁, g.get b = h.get b := fun b hb => hg b (Multiset.mem_add.2 (.inl hb))
    have hsub : S₁ ≤ g.live.val := by
      refine (Multiset.le_iff_subset hnodup₁).2 fun b hb => ?_
      obtain ⟨x, hx⟩ := he.live hb
      exact Store.mem_live.2 ⟨x, (hin b hb).trans hx⟩
    obtain ⟨g₁, hrun₁, hfreed₁⟩ := decrefIn_owns he hnodup₁ hin (Nat.lt_succ_of_le (Multiset.card_le_card hsub))
    have hrest : ∀ b ∈ S₂, g₁.get b = h.get b := fun b hb => by
      rw [hfreed₁.kept hdisj hb]
      exact hg b (Multiset.mem_add.2 (.inr hb))
    obtain ⟨g₂, hrun₂, hfreed₂⟩ := ih hE hnodup₂ hrest
    refine ⟨g₂, ?_, hfreed₁.add hfreed₂⟩
    have hone : (countedOps A hA).decref g e.1 = .ok g₁ := by
      rw [List.map_singleton, List.foldlM_cons] at hrun₁
      show JsonHeap.decrefIn (g.live.card + 1) g e.1 = _
      cases hdec : JsonHeap.decrefIn (g.live.card + 1) g e.1 with
      | error f =>
        have hdec' : JsonHeap.decrefIn (g.live.val.card).succ g e.1 = .error f := hdec
        rw [hdec'] at hrun₁
        cases hrun₁
      | ok g' =>
        have hdec' : JsonHeap.decrefIn (g.live.val.card).succ g e.1 = .ok g' := hdec
        rw [hdec'] at hrun₁
        exact hrun₁
    rw [List.map_cons, Parse.decrefAll]
    simp only [hone, bind, Except.bind]
    exact hrun₂

/-! ## What is lost -/

/-- How many cells some values are. -/
def cellsIn (L : List (Ref × Value)) : ℕ := (L.map fun e => e.2.cells).sum

theorem card_owns (ho : Owns counted h E S) : S.card = cellsIn E :=
  ho.card_eq (fun hv => Ref.Constant.cells_eq hv) fun hv => JsonCell.Shape.cells_eq hv

theorem count_cells (a : Addr) (l : List Ref) : (counted.cells l).count a = l.count (.cell a) := by
  have hcoe : (counted.cells l).count a = (l.filterMap Ref.addr).count a := Multiset.coe_count a _
  rw [hcoe]
  clear hcoe
  induction l with
  | nil => rfl
  | cons r l ih =>
    cases r with
    | cell b =>
      rw [List.filterMap_cons_some (show Ref.addr (.cell b) = some b from rfl), List.count_cons, List.count_cons, ih]
      simp
    | _ =>
      rw [List.filterMap_cons_none rfl, List.count_cons, ih]
      simp

/-- The containers that hold a value. -/
theorem holders_eq {a : Addr} (hl : Ledger counted h₀ h E S) :
    holders h₀ h a = (S.bind fun b => counted.cells (heldAt h b)).count a := by
  rw [Multiset.count_bind, ← hl.toFinset_eq]
  show ((made h₀ h).val.map fun b => (heldAt h b).count (.cell a)).sum = _
  refine congrArg _ (Multiset.map_congr rfl fun b _ => ?_)
  rw [count_cells]

/-- **The counts are right** if nothing was lost, and only then. -/
theorem countsExact_iff_lost (hl : Ledger counted h₀ h (O ++ L) S) :
    CountsExact h₀ h (O.map Prod.fst) ↔ cellsIn L = 0 := by
  obtain ⟨S₁, S₂, rfl, hO, hL⟩ := hl.owns.split
  rw [← card_owns hL, Multiset.card_eq_zero, ← hL.eq_zero_iff]
  have hmade : ∀ a, a ∈ made h₀ h ↔ a ∈ S₁ + S₂ := fun a => hl.mem_iff.symm
  -- every value has one owner
  have hone : ∀ a ∈ S₁ + S₂, holders h₀ h a + (O.map Prod.fst).count (.cell a) +
      (counted.cells (L.map Prod.fst)).count a = 1 := by
    intro a ha
    have hheld := hl.owns.held_once fun hv => JsonCell.Shape.held_eq hv
    have hcount := congrArg (Multiset.count a) hheld
    have hcells : counted.cells ((O ++ L).map Prod.fst) = counted.cells (O.map Prod.fst) + counted.cells (L.map Prod.fst) := by
      rw [Ownership.cells, List.map_append, List.filterMap_append]
      rfl
    rw [Multiset.count_add, hcells, Multiset.count_add, Multiset.count_eq_one_of_mem hl.nodup ha, count_cells] at hcount
    rw [holders_eq hl]
    show _ + _ + _ = 1
    have hbind : (S₁ + S₂).bind (fun b => counted.cells (heldAt h b)) =
        (S₁ + S₂).bind fun b => counted.cells ((h.get b).elim [] fun n => n.contents.held) := rfl
    rw [hbind]
    omega
  constructor
  · intro hexact
    refine Multiset.eq_zero_of_forall_notMem fun a ha => ?_
    have hmem : a ∈ S₁ + S₂ := by
      have hheld := hL.held_once fun hv => JsonCell.Shape.held_eq hv
      rw [← hheld, Multiset.mem_add, Multiset.mem_add]
      exact .inr (.inl ha)
    obtain ⟨n, hn, hcount⟩ := hexact a ((hmade a).2 hmem)
    obtain ⟨x, v, l, hx, hshape⟩ := hl.owns.shaped hmem
    obtain rfl := Option.some.inj (hx.symm.trans hn)
    have hrefcount : x.refcount = 1 := by rw [JsonCell.Shape.refcount_eq hshape]
    have hpos := Multiset.count_pos.2 ha
    have hsum := hone a hmem
    rw [hrefcount] at hcount
    omega
  · intro hnone a ha
    rw [hmade] at ha
    obtain ⟨x, v, l, hx, hshape⟩ := hl.owns.shaped ha
    have hrefcount : x.refcount = 1 := by rw [JsonCell.Shape.refcount_eq hshape]
    have hsum := hone a ha
    rw [hnone, Multiset.count_zero] at hsum
    refine ⟨x, hx, ?_⟩
    rw [hrefcount]
    omega

/-- **Everything is freed** if nothing was lost, and only then. -/
theorem decrefAll_iff_lost (A : Allocator JsonCell) (hA : A.NeverFails) (hl : Ledger counted h₀ h (O ++ L) S) :
    Parse.decrefAll (countedOps A hA) h (O.map Prod.fst) = .ok h₀ ↔ cellsIn L = 0 := by
  obtain ⟨S₁, S₂, rfl, hO, hL⟩ := hl.owns.split
  obtain ⟨hnodup₁, -, hdisj⟩ := Multiset.nodup_add.1 hl.nodup
  obtain ⟨g, hrun, hfreed⟩ := decrefAll_owns A hA hO hnodup₁ fun _ _ => rfl
  rw [hrun, ← card_owns hL, Multiset.card_eq_zero]
  constructor
  · intro heq
    obtain rfl := Except.ok.inj heq
    refine Multiset.eq_zero_of_forall_notMem fun a ha => ?_
    obtain ⟨x, hx⟩ := hL.live ha
    have hnew := hl.new a (Multiset.mem_add.2 (.inr ha))
    rw [hfreed.kept hdisj ha, hx] at hnew
    cases hnew
  · rintro rfl
    rw [add_zero] at hl
    refine congrArg _ (Store.ext_get fun a => ?_)
    rw [hfreed]
    split_ifs with ha
    · exact (hl.new a ha).symm
    · exact hl.kept a ha

end

/-! ## Runs -/

/-- A parser that was made or reset. -/
inductive Started {H V : Type} (ops : JsonOps H V) : Parse H V → Prop
  | create (h : H) (multidoc : Bool) : Started ops (Parse.create h multidoc)
  | reset {parse parse' : Parse H V} {multidoc : Bool} : parse.parseReset ops multidoc = .ok parse' → Started ops parse'

/-- Nothing is on a list. -/
theorem Started.clean {H V : Type} {ops : JsonOps H V} {parse : Parse H V} (h : Started ops parse) :
    parse.out = [] ∧ parse.error = none ∧ parse.build = [] ∧ parse.stack = [.jsonDocument] := by
  cases h with
  | create => exact ⟨rfl, rfl, rfl, rfl⟩
  | @reset parse₀ _ multidoc hrun =>
    obtain ⟨heap, rfl⟩ := Parse.parseReset_ok hrun
    exact ⟨rfl, rfl, rfl, rfl⟩

/-- **What is done with a parser** that was made or reset: a text is fed to
it, in any chunks, and values are returned. -/
inductive Feeding {H V : Type} (ops : JsonOps H V) (parse₀ : Parse H V) : List UInt8 → List V → Parse H V → Prop
  | start : Started ops parse₀ → Feeding ops parse₀ [] [] parse₀
  | data {parse parse' : Parse H V} {text data : List UInt8} {vals : List V} : Feeding ops parse₀ text vals parse →
      parse.parseData ops data = .ok parse' → Feeding ops parse₀ (text ++ data) vals parse'
  | next {parse parse' : Parse H V} {text : List UInt8} {vals : List V} {v : V} : Feeding ops parse₀ text vals parse →
      parse.parseNext = (some v, parse') → Feeding ops parse₀ text (vals ++ [v]) parse'

section

variable {q₀ q q' : Parse JsonHeap Ref} {p : Parser} {text data : List UInt8} {vals : List Ref} {R : List (Ref × Value)}

/-- **A parser on trees** to which the same was done, with the values that
were returned. -/
structure Tracks (q₀ : Parse JsonHeap Ref) (text : List UInt8) (vals : List Ref) (q : Parse JsonHeap Ref) (p : Parser)
    (R : List (Ref × Value)) : Prop where
  returned : vals = R.map Prod.fst
  mirror : Parse.Mirror q₀.heap R p q
  reading : Reading p
  held : Held (R.map Prod.snd) p
  tokens : tokens p.log = (q₀.lexer.scan text).map Terminal.token
  more : ∀ data, q₀.lexer.scan (text ++ data) = q₀.lexer.scan text ++ p.lexer.scan data

/-- Nothing is done yet. -/
theorem Started.tracks {ops : JsonOps JsonHeap Ref} (h : Started ops q₀) :
    Tracks q₀ [] [] q₀ ((Parse.create () q₀.multidoc).withLexer q₀.lexer) [] := by
  obtain ⟨hout, herr, hbuild, hstack⟩ := h.clean
  refine ⟨rfl, ⟨[], [], [], [], 0, rfl, herr, rfl, hstack, rfl, ?_, ⟨rfl, hbuild⟩, ⟨rfl, hout⟩, .nil counted _, rfl⟩,
    (reading_create q₀.multidoc).congr rfl rfl rfl rfl rfl, rfl, rfl, fun _ => rfl⟩
  exact (Parse.between_create q₀.multidoc).congr rfl rfl

/-- **Counting is never in the way**: a text is read without an error just
where it is on trees. -/
theorem Started.reads_iff (A : Allocator JsonCell) (hA : A.NeverFails) (h : Started (countedOps A hA) q₀) :
    (∃ q, q₀.parseData (countedOps A hA) text = .ok q ∧ q.error = none) ↔
      ∃ p, ((Parse.create () q₀.multidoc : Parser).withLexer q₀.lexer).parseData valueOps text = .ok p ∧ p.error = none := by
  have hstep := Parse.mirror_lockstep A hA q₀.heap []
  have hmeets := @Parse.Lockstep.parseData _ _ _ _ _ _ _ _ _ text hstep h.tracks.mirror
  cases hmeets with
  | on hp hq hmirror => exact iff_of_true ⟨_, hq, (hstep.live hmirror).2⟩ ⟨_, hp, (hstep.live hmirror).1⟩
  | off hp hq =>
    refine iff_of_false ?_ ?_
    · rintro ⟨q, hrun, herr⟩
      exact hq q hrun herr
    · rintro ⟨p, hrun, herr⟩
      exact hp p hrun herr

/-- Something is fed. -/
theorem Tracks.feed (A : Allocator JsonCell) (hA : A.NeverFails) (h : Tracks q₀ text vals q p R)
    (hrun : q.parseData (countedOps A hA) data = .ok q') (herr : q'.error = none) :
    ∃ p', Tracks q₀ (text ++ data) vals q' p' R := by
  have hmeets := @Parse.Lockstep.parseData _ _ _ _ _ _ _ _ _ data (Parse.mirror_lockstep A hA q₀.heap R) h.mirror
  cases hmeets with
  | off _ hfail => exact absurd herr (hfail q' hrun)
  | @on p' q₁ hptree hqcell hmirror =>
    obtain rfl := Except.ok.inj (hqcell.symm.trans hrun)
    have hlive : p'.error = none := ((Parse.mirror_lockstep A hA q₀.heap R).live hmirror).1
    obtain ⟨hlog, hmore⟩ := Parse.scan_parseData hptree hlive
    refine ⟨p', h.returned, hmirror, reading_kept.parseData h.reading hptree, (held_kept _).parseData h.held hptree, ?_, ?_⟩
    · rw [hlog, h.tokens, h.more, List.map_append]
    · intro data'
      rw [List.append_assoc, h.more, hmore, h.more, List.append_assoc]

/-- A value is returned. -/
theorem Tracks.next {v : Ref} (h : Tracks q₀ text vals q p R) (hnext : q.parseNext = (some v, q')) :
    ∃ p' x, Tracks q₀ text (vals ++ [v]) q' p' (R ++ [x]) := by
  obtain ⟨F, B, O, L, S, hm⟩ := h.mirror
  obtain ⟨hpout, hqout⟩ := hm.out
  obtain ⟨out, hq, rfl⟩ := Parse.parseNext_some hnext
  rw [hqout] at hq
  obtain ⟨x, O, rfl, rfl, rfl⟩ := List.map_eq_cons_iff.1 hq
  refine ⟨{ p with out := O.map Prod.snd }, x, ?_, ⟨F, B, O, L, S, ?_⟩, h.reading.congr rfl rfl rfl rfl rfl, ?_, h.tokens,
    h.more⟩
  · rw [h.returned, List.map_append]
    rfl
  · refine ⟨hm.live, hm.error, hm.multidoc, hm.stack, hm.lexer, hm.between.congr rfl rfl, hm.build, ⟨rfl, rfl⟩, ?_, hm.count⟩
    refine hm.ledger.perm (List.Perm.append_left B ?_)
    rw [← List.append_assoc L, ← List.append_assoc O, List.cons_append]
    exact (List.perm_append_singleton _ _).symm
  · have hheld := h.held
    unfold Held at hheld ⊢
    rw [hheld, hpout, List.map_append, List.append_assoc]
    rfl

theorem Feeding.tracks (A : Allocator JsonCell) (hA : A.NeverFails) (h : Feeding (countedOps A hA) q₀ text vals q)
    (herr : q.error = none) : ∃ p R, Tracks q₀ text vals q p R := by
  induction h with
  | start hstart => exact ⟨_, [], hstart.tracks⟩
  | @data parse parse' text data vals _ hrun ih =>
    have hnone : parse.error = none := by
      by_contra he
      exact (Parse.error_kept _).parseData he hrun herr
    obtain ⟨p, R, ht⟩ := ih hnone
    obtain ⟨p', ht'⟩ := ht.feed A hA hrun herr
    exact ⟨p', R, ht'⟩
  | @next parse parse' text vals v _ hnext ih =>
    have hnone : parse.error = none := by
      obtain ⟨out, -, rfl⟩ := Parse.parseNext_some hnext
      exact herr
    obtain ⟨p, R, ht⟩ := ih hnone
    obtain ⟨p', x, ht'⟩ := ht.next hnext
    exact ⟨p', R ++ [x], ht'⟩

/-- **Where documents are complete**: the values that were returned and those
on the queue are theirs, and those that were lost make up for the rest of
the cells. -/
theorem Tracks.complete (h : Tracks q₀ text vals q p R) (hbuild : q.build = []) : ∃ O L S,
    vals ++ q.out = O.map Prod.fst ∧ Ledger counted q₀.heap q.heap (O ++ L) S ∧
      Documents (q₀.lexer.scan text) (O.map Prod.snd) ∧
      cellsIn O + cellsIn L + terminalNames (q₀.lexer.scan text) = terminalCells (q₀.lexer.scan text) := by
  obtain ⟨F, B, O, L, S, hm⟩ := h.mirror
  obtain rfl : B = [] := List.map_eq_nil_iff.1 (hm.build.2.symm.trans hbuild)
  have hF : F = [] := by
    cases F with
    | nil => rfl
    | cons f F =>
      have hflat := hm.between.build.symm.trans hm.build.1
      rw [flatAll_cons] at hflat
      cases f <;> simp [Frame.flat] at hflat
  subst hF
  have hstack : p.stack = [.jsonDocument] ∨ p.stack = [] := by
    have hready := hm.between.ready
    generalize p.stack = stack at hready
    cases hready with
    | document => exact .inl rfl
    | done => exact .inr rfl
  -- the tokens of the text are documents
  obtain ⟨-, ts, ts', htoks, hdocs, hplace⟩ := h.reading.live hm.live
  obtain rfl : ts' = [] := by
    cases hplace with
    | inside _ hne _ hnil _ =>
      rcases hstack with hs | hs
      · exact hnil.2 (by rw [hs]; exact List.mem_cons_self)
      · exact absurd hs hne
    | done => rfl
  have hheld : documents p.log = R.map Prod.snd ++ p.out := h.held
  rw [List.append_nil, h.tokens] at htoks
  rw [← Terminal.token_injective.list_map htoks, hheld, hm.out.1, ← List.map_append] at hdocs
  have hledger : Ledger counted q₀.heap q.heap ((R ++ O) ++ L) S := by
    refine hm.ledger.perm ?_
    rw [List.nil_append, ← List.append_assoc]
    exact List.perm_append_comm.trans (by rw [List.append_assoc])
  refine ⟨R ++ O, L, S, ?_, hledger, hdocs, ?_⟩
  · rw [h.returned, hm.out.2, List.map_append]
  · have hcount := hm.count
    have hbare : bareNames p.stack = 0 := by
      rcases hstack with hs | hs <;> rw [hs] <;> rfl
    have hcard := card_owns hledger.owns
    have hcells : cellsIn ((R ++ O) ++ L) = cellsIn (R ++ O) + cellsIn L := by
      rw [cellsIn, List.map_append, List.sum_append]
      rfl
    rw [hbare, hm.build.1, h.tokens] at hcount
    rw [← hcells, ← hcard]
    exact hcount

end

/-- The cells of the values of documents are those of the documents, if all
of them are in them. -/
theorem docs_cells (docs : List Doc) : terminalCells (docs.flatMap Doc.terminals) =
      terminalNames (docs.flatMap Doc.terminals) + (docs.map Doc.cells).sum ∧
    ((docs.map Doc.value).map Value.cells).sum ≤ (docs.map Doc.cells).sum ∧
    (((docs.map Doc.value).map Value.cells).sum = (docs.map Doc.cells).sum ↔ ∀ d ∈ docs, d.Distinct) := by
  induction docs with
  | nil => exact ⟨rfl, le_rfl, iff_of_true rfl fun d hd => absurd hd List.not_mem_nil⟩
  | cons d docs ih =>
    obtain ⟨hterms, hle, heq⟩ := ih
    obtain ⟨hd, hdeq⟩ := d.value_cells
    have hdterms := d.terminalCells_eq
    simp only [List.flatMap_cons, terminalCells_append, terminalNames_append, List.map_cons, List.sum_cons,
      List.forall_mem_cons, ← heq, ← hdeq]
    omega

/-- **The counts are right**, and all values are freed with those that were
returned, just where of the members of an object that have one name all but
the last have values that are not counted. -/
theorem counts_exact_iff (A : Allocator JsonCell) (hA : A.NeverFails) {parse₀ parse : Parse JsonHeap Ref}
    {text : List UInt8} {vals : List Ref} (hrun : Feeding (countedOps A hA) parse₀ text vals parse)
    (herr : parse.error = none) (hbuild : parse.build = [])
    (hnames : ∀ name ∈ memberNames (parse₀.lexer.scan text), name.length < 2 ^ 30) :
    TreesHold (· ∈ memberNames (parse₀.lexer.scan text)) ∧
    ((CountsExact parse₀.heap parse.heap (vals ++ parse.out) ∧
        Parse.decrefAll (countedOps A hA) parse.heap (vals ++ parse.out) = .ok parse₀.heap) ↔
      ∃ docs : List Doc, parse₀.lexer.scan text = docs.flatMap Doc.terminals ∧ ∀ d ∈ docs, d.Distinct) := by
  refine ⟨treesHold_of_short hnames, ?_⟩
  obtain ⟨p, R, htracks⟩ := hrun.tracks A hA herr
  obtain ⟨O, L, S, hO, hl, hdocs, hcells⟩ := htracks.complete hbuild
  rw [hO, countsExact_iff_lost hl, decrefAll_iff_lost A hA hl, and_self_iff]
  have hOcells : cellsIn O = ((O.map Prod.snd).map Value.cells).sum := by
    rw [cellsIn, List.map_map]
    rfl
  obtain ⟨docs, hscan, hvalues⟩ := hdocs.written
  constructor
  · intro hlost
    obtain ⟨hterms, hle, heq⟩ := docs_cells docs
    refine ⟨docs, hscan, heq.1 ?_⟩
    rw [hscan, hOcells, hvalues] at hcells
    omega
  · rintro ⟨docs', hscan', hdistinct⟩
    obtain ⟨hterms, -, heq⟩ := docs_cells docs'
    have hall := heq.2 hdistinct
    rw [hOcells, hvalues, docs_unique (hscan.symm.trans hscan'), hscan'] at hcells
    omega

set_option maxRecDepth 100000 in
/-- An object with two members of one name, the first of which is not counted, and an array in the other. -/
theorem counts_exact_iff_array : ∃ parse v, Feeding (countedOps Allocator.bump Allocator.bump_neverFails)
    (Parse.create Store.empty false) (Parse.chars "\x7b\"a\":null,\"a\":[1]\x7d") [v] parse ∧ parse.error = none ∧
    parse.build = [] ∧ CountsExact Store.empty parse.heap ([v] ++ parse.out) ∧
    Parse.decrefAll (countedOps Allocator.bump Allocator.bump_neverFails) parse.heap ([v] ++ parse.out) =
      .ok Store.empty := by
  have hrun : Feeding (countedOps Allocator.bump Allocator.bump_neverFails) (Parse.create Store.empty false)
      (Parse.chars "\x7b\"a\":null,\"a\":[1]\x7d") [_] _ := .next (.data (.start (.create _ _)) rfl) rfl
  have hnames : ∀ name ∈ memberNames ((Parse.create (Store.empty : JsonHeap) false : Parse JsonHeap Ref).lexer.scan
      (Parse.chars "\x7b\"a\":null,\"a\":[1]\x7d")), name.length < 2 ^ 30 := by decide
  refine ⟨_, _, hrun, rfl, rfl, (counts_exact_iff _ _ hrun rfl rfl hnames).2.2
    ⟨[.object [([97], .null), ([97], .array [.int 1])]], rfl, fun d hd => ?_⟩⟩
  rw [List.mem_singleton.1 hd]
  exact ⟨trivial, fun _ => trivial, ⟨trivial, trivial⟩, fun h => absurd h.choose_spec.1 List.not_mem_nil, trivial⟩

set_option maxRecDepth 100000 in
/-- **The first of two members of one name is lost**: it has a reference, and
nothing holds it. -/
theorem first_member_is_lost : ∃ parse, Feeding (countedOps Allocator.bump Allocator.bump_neverFails)
    (Parse.create Store.empty false) (Parse.chars "\x7b\"a\":1,\"a\":2\x7d") [.cell 5] parse ∧ parse.error = none ∧
    parse.build = [] ∧ parse.out = [] ∧ parse.heap.get 2 = some ⟨1, .int 1⟩ ∧
    holders Store.empty parse.heap 2 = 0 ∧ ¬ CountsExact Store.empty parse.heap [.cell 5] ∧
    Parse.decrefAll (countedOps Allocator.bump Allocator.bump_neverFails) parse.heap [.cell 5] ≠ .ok Store.empty := by
  have hrun : Feeding (countedOps Allocator.bump Allocator.bump_neverFails) (Parse.create Store.empty false)
      (Parse.chars "\x7b\"a\":1,\"a\":2\x7d") [.cell 5] _ := .next (.data (.start (.create _ _)) rfl) rfl
  refine ⟨_, hrun, rfl, rfl, rfl, rfl, rfl, fun hexact => ?_, fun hfree => ?_⟩
  · obtain ⟨n, hn, hcount⟩ := hexact 2 (by decide)
    cases hn
    exact absurd hcount (by decide)
  · have hget := congrArg (fun r => (Except.toOption r).bind fun h => h.get 2) hfree
    cases hget

end Json

end Mowgli
