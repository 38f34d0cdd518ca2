import Mowgli.Container.Dictionary.Foreach
import Mowgli.Container.Dictionary.Ptrdiff
import Mowgli.Container.Patricia.Search
/-!
# Cutting a `foreach` short

Both headers say that returning non-zero from the callback cuts the
iteration short. Neither `foreach` looks at what is returned: each calls
the callback on every element. So the calls are the promised ones just
where stopping makes no difference and the elements are listed in the order
of their keys. In a dictionary they are, as long as what the comparator
returns is an `int`.
-/

namespace Mowgli

open Calls

/-- The return values to stop at. -/
def nonZero (ret : ℤ) : Bool := ret ≠ 0

/-- What `mowgli_patricia_foreach` calls the callback on. -/
def Patricia.foreachCalls {D σ : Type} (d : Patricia D) (cb : CString × D → σ → ℤ × σ) (s : σ) :
    Option (List (CString × D)) :=
  (d.foreach (some fun key data => noted cb (key, data)) (s, [])).map Prod.snd

/-- **`mowgli_patricia_foreach` calls the callback on every element**, in order. -/
theorem Patricia.Inv.foreachCalls {D σ : Type} {d : Patricia D} {t : PTrie D} (h : Inv d t)
    (cb : CString × D → σ → ℤ × σ) (s : σ) :
    d.foreachCalls cb s = some (t.leaves.map keyData) := by
  have hfuel := h.lt_fuel
  rw [Patricia.foreachCalls, foreach_eq h.root h.repr (by omega)]
  have hfold := foldl_noted cb (t.leaves.map keyData) s []
  rw [List.foldl_map] at hfold
  exact congrArg (fun calls => some (Prod.snd calls)) hfold

/-- Calls on all of some elements are those up to the first non-zero return
value when no other call returns one. -/
theorem calls_iff {X σ : Type} {cb : X → σ → ℤ × σ} {xs : List X} {s : σ}
    {calls : Option (List X)} (h : calls = some xs) :
    calls = some (upTo nonZero cb xs s) ↔ ∀ ret ∈ (returns cb xs s).dropLast, ret = 0 := by
  have hself : upTo nonZero cb xs s = xs ↔ ∀ ret ∈ (returns cb xs s).dropLast, nonZero ret = false := upTo_eq_self_iff
  simp only [nonZero, decide_eq_false_iff_not, ne_eq, not_not] at hself
  rw [h, Option.some.injEq, eq_comm]
  exact hself

/-- The callback is called on the elements `xs` in the order of their keys, up to
and with the first it returns non-zero for. -/
def Dictionary.StopsInOrder {K D σ : Type} (C : PtrComparator K) (d : Dictionary K D) (xs : List (Item Addr K D))
    (cb : Item Addr K D → σ → ℤ × σ) (s : σ) : Prop :=
  ∃ ys : List (Item Addr K D), ys.Perm xs ∧ ys.Pairwise (fun x y => C.cmp x.key y.key ≤ 0) ∧
    d.foreachCalls cb s = some (upTo nonZero cb ys s)

/-- Calls on all elements of a list are those where the list is in order, and no
call but the last returns non-zero. -/
theorem Dictionary.stopsInOrder_iff {K D σ : Type} {C : PtrComparator K} {d : Dictionary K D} {xs : List (Item Addr K D)} {cb : Item Addr K D → σ → ℤ × σ} {s : σ}
    (h : d.foreachCalls cb s = some xs) : StopsInOrder C d xs cb s ↔
      xs.Pairwise (fun x y => C.cmp x.key y.key ≤ 0) ∧ ∀ ret ∈ (returns cb xs s).dropLast, ret = 0 := by
  rw [← calls_iff h]
  constructor
  · rintro ⟨ys, hperm, hsorted, hcalls⟩
    have hup : xs = upTo nonZero cb ys s := Option.some.inj (h.symm.trans hcalls)
    have hys : upTo nonZero cb ys s = ys :=
      (upTo_isPrefix nonZero cb ys s).eq_of_length (by rw [← hup, hperm.length_eq])
    rw [hys] at hup
    subst hup
    exact ⟨hsorted, hcalls⟩
  · rintro ⟨hsorted, hcalls⟩
    exact ⟨xs, List.Perm.refl xs, hsorted, hcalls⟩

section

variable {K D E τ : Type} [DecidableEq K] {A : Allocator (DictElem K D)} {C : Dictionary.PtrComparator K}
variable {d : Dictionary K D} {tr : List (Dictionary.Op K D × Dictionary.Out D)}
variable {B : Allocator (PatriciaElem E)} {canonize : Option (CString → CString)}
variable {p : Patricia E} {tr' : List (Patricia.Op E τ × Patricia.Out E)}

/-- **When `foreach` stops where it should.** The callback is called on the
elements in the order of their keys, and on no element after the first it
returns non-zero for, just when it returns zero for all but the last, and, in a
dictionary, the list has the elements in that order. It has if what the
comparator returns is an `int`. -/
theorem runs_foreach_stops_iff (hd : Dictionary.PtrRuns A C tr d) (hB : B.NeverFails)
    (hcan : Patricia.Canonizes canonize)
    (hp : Patricia.Runs B canonize (fun p op => op.Valid p ∧ op.Fits p) tr' p) :
    (∃ xs : List (Item Addr K D), (Dictionary.threads d.mem).Dll d.head (xs.map Item.cell) d.tail ∧
      (∀ x, x ∈ xs ↔ Dictionary.contents d.mem x.cell = some (x.key, x.data)) ∧
      (∀ C' : Dictionary.Comparator K, C'.cmp = C.cmp → ∃ M, Dictionary.MapRuns C' tr M ∧ Lists xs M ∧
        xs.Pairwise (fun x y => C.cmp x.key y.key < 0)) ∧
      ∀ (σ : Type) (cb : Item Addr K D → σ → ℤ × σ) (s : σ),
        d.foreachCalls cb s = some xs ∧ (Dictionary.StopsInOrder C d xs cb s ↔
          xs.Pairwise (fun x y => C.cmp x.key y.key ≤ 0) ∧ ∀ ret ∈ (returns cb xs s).dropLast, ret = 0)) ∧
    ∃ M xs, Patricia.MapRuns canonize tr' M ∧ Lists xs M ∧
      xs.Pairwise (fun x y => x.key.bytes < y.key.bytes) ∧
      ∀ (σ : Type) (cb : CString × E → σ → ℤ × σ) (s : σ),
        p.foreachCalls cb s = some (upTo nonZero cb (xs.map Patricia.keyData) s) ↔
          ∀ ret ∈ (returns cb (xs.map Patricia.keyData) s).dropLast, ret = 0 := by
  constructor
  · obtain ⟨⟨t, hw⟩, -⟩ := hd.wired
    refine ⟨t.inorder, hw.threaded, fun x => ⟨hw.holds.contents x, fun hx => ?_⟩, fun C' hC' => ?_,
      fun σ cb s => ⟨hw.foreachCalls cb s, Dictionary.stopsInOrder_iff (hw.foreachCalls cb s)⟩⟩
    · obtain ⟨e, he, -⟩ := Dictionary.exists_of_contents hx
      obtain ⟨y, hy, hcell⟩ := hw.live x.cell (Store.mem_live.2 ⟨e, he⟩)
      obtain ⟨hkey, hdata⟩ := Prod.mk.inj (Option.some.inj ((hw.holds.contents y hy).symm.trans (hcell ▸ hx)))
      cases x
      cases y
      cases hcell
      cases hkey
      cases hdata
      exact hy
    · have hruns : Dictionary.Runs A C' tr d := by
        rw [Dictionary.Runs, hC']
        exact hd
      obtain ⟨M, hM, his⟩ := hruns.is
      obtain ⟨t', hinv, hl⟩ := his.lists
      have heq : t'.inorder = t.inorder := Option.some.inj
        ((hinv.wired.foreachCalls (fun _ (s : Unit) => (0, s)) ()).symm.trans (hw.foreachCalls (fun _ s => (0, s)) ()))
      rw [heq] at hl
      have hsorted := hinv.sorted
      rw [heq, hC'] at hsorted
      exact ⟨M, hM, hl, hsorted⟩
  · obtain ⟨M, hM, hp⟩ := hp.is hB hcan
    obtain ⟨t, hinv, -, -, hl⟩ := hp.lists
    exact ⟨M, t.leaves, hM, hl, hinv.pairwise.imp fun hlt => hlt.2.1,
      fun σ cb s => calls_iff (hinv.foreachCalls cb s)⟩

end

/-! ## Two elements and a callback that returns 1 -/

/-- The callback that returns 1 for every element. -/
def one {X : Type} (_ : X) (s : Unit) : ℤ × Unit := (1, s)

theorem upTo_one {X : Type} {xs : List X} (h : xs.length = 2) : (upTo nonZero one xs ()).length = 1 := by
  obtain ⟨x, y, rfl⟩ := List.length_eq_two.1 h
  rfl

theorem Dictionary.exists_runs_two : ∃ (tr : List (Op ℕ Unit × Out Unit)) (d : Dictionary ℕ Unit)
    (t : DTree ℕ Unit), Runs Allocator.bump natOrder tr d ∧ Inv natOrder d t ∧ t.inorder.length = 2 := by
  obtain ⟨tr, d, M, hruns, h, hkeys⟩ := exists_runs_add 2
  obtain ⟨t, hinv, hl⟩ := h.lists
  refine ⟨tr, d, t, hruns, hinv, ?_⟩
  rw [← hl.keys_card (nodup_keys hinv.sorted), hkeys, Finset.card_range]

/-- **The iteration goes on**: the callback returns 1 for the first of two
elements, and is called on the second. -/
theorem foreach_goes_on :
    (∃ (tr : List (Dictionary.Op ℕ Unit × Dictionary.Out Unit)) (d : Dictionary ℕ Unit)
      (xs : List (Item Addr ℕ Unit)), Dictionary.Runs Allocator.bump Dictionary.natOrder tr d ∧
        d.foreachCalls one () = some xs ∧ xs.length = 2 ∧ (upTo nonZero one xs ()).length = 1) ∧
    ∃ (tr : List (Patricia.Op Unit Unit × Patricia.Out Unit)) (p : Patricia Unit)
      (xs : List (CString × Unit)),
        Patricia.Runs Allocator.bump none (fun p op => op.Valid p ∧ op.Fits p) tr p ∧
          p.foreachCalls one () = some xs ∧ xs.length = 2 ∧ (upTo nonZero one xs ()).length = 1 := by
  constructor
  · obtain ⟨tr, d, t, hruns, hinv, hlen⟩ := Dictionary.exists_runs_two
    exact ⟨tr, d, t.inorder, hruns, hinv.wired.foreachCalls one (), hlen, upTo_one hlen⟩
  · obtain ⟨p, hp, hruns⟩ := Patricia.exists_runs_twoKeys
    obtain ⟨M, -, his⟩ := hruns.is Allocator.bump_neverFails Patricia.canonizes_none
    obtain ⟨t, hinv, -, hlen32, -⟩ := his.lists
    have hcount := congrArg UInt32.toNat hinv.count
    rw [hp.count, UInt32.toNat_ofNat_of_lt' hlen32] at hcount
    have hlen : (t.leaves.map Patricia.keyData).length = 2 := by rw [List.length_map, ← hcount]; rfl
    exact ⟨_, p, _, hruns, hinv.foreachCalls one (), hlen, upTo_one hlen⟩

/-- A callback that returns 0. -/
def zero {X : Type} (_ : X) (s : Unit) : ℤ × Unit := (0, s)

/-- 2^32 + 7 is listed before 8, so that even a callback that returns 0 is not
called in order; in the tree with the keys "a" and "b", one is. -/
theorem runs_foreach_stops_iff_two :
    (∃ (tr : List (Dictionary.Op (Fin 4611686018427387904) Unit × Dictionary.Out Unit))
      (d : Dictionary (Fin 4611686018427387904) Unit) (xs : List (Item Addr (Fin 4611686018427387904) Unit)),
      Dictionary.PtrRuns Allocator.bump Dictionary.difference tr d ∧ d.foreachCalls zero () = some xs ∧
        ¬ Dictionary.StopsInOrder Dictionary.difference d xs zero ()) ∧
    ∃ (p : Patricia Unit) (M : Elems CString Unit) (xs : List (Item Addr CString Unit)),
      Patricia.MapRuns (σ := Unit) none
        [(.add Patricia.keyA (), .bool true), (.add Patricia.keyB (), .bool true)] M ∧ Lists xs M ∧
        (p.foreachCalls one () = some (upTo nonZero one (xs.map Patricia.keyData) ()) ↔
          ∀ ret ∈ (returns one (xs.map Patricia.keyData) ()).dropLast, ret = 0) := by
  obtain ⟨tr, d, hruns, hcalls⟩ : ∃ tr d,
      Dictionary.PtrRuns (D := Unit) Allocator.bump Dictionary.difference tr d ∧
        d.foreachCalls zero () = some [⟨2, 4294967303, ()⟩, ⟨1, 8, ()⟩] :=
    ⟨([] ++ [(.add 8 (), .elem (some 1))]) ++ [(.add 4294967303 (), .elem (some 2))], _,
      (Run.nil.snoc trivial rfl).snoc trivial rfl, rfl⟩
  obtain ⟨p, -, hp⟩ := Patricia.exists_runs_twoKeys
  obtain ⟨⟨xs, -, -, -, hxs⟩, M', ys, hM', hl', -, hys⟩ :=
    runs_foreach_stops_iff hruns Allocator.bump_neverFails Patricia.canonizes_none hp
  obtain ⟨hall, hiff⟩ := hxs Unit zero ()
  obtain rfl := Option.some.inj (hall.symm.trans hcalls)
  refine ⟨⟨tr, d, _, hruns, hcalls, fun hstops => ?_⟩, p, M', ys, hM', hl', hys Unit one ()⟩
  have hle := (List.pairwise_cons.1 (hiff.1 hstops).1).1 ⟨1, 8, ()⟩ (by simp)
  exact absurd hle (by decide)

end Mowgli
