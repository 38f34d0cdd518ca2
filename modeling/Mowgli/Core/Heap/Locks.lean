import Mowgli.Core.Heap.Runs
/-!
# The mutexes of several heaps

An element of one heap may be freed in another. The check that finds this comes
after the mutex of that heap is taken, and returns without giving it back. Of
any run of calls on several heaps, such ones among them, it is shown which calls
leave the mutexes as they were.
-/

namespace Mowgli

namespace Heap

open Store

variable {E F : ℕ} {A : Allocator (Block E)} {h h' h₀ : Heap E} {o : Heap F} {xs ys : List Addr}

/-- `mowgli_heap_free`, of an element in the memory `mem` of another heap. What
comes after the checks is left out. -/
def freeForeign (h : Heap E) (mem : Store (Block F)) (s : Slot F) : Option (Heap E) := do
  let h ← h.lock
  let hblk ← mem.get s.block
  let b ← (hblk.elems s.index).block?
  let b ← b
  let blk ← mem.get b
  if blk.heap ≠ some h.addr then some { h with log := h.log ++ [.returnIfFail "b->heap == heap"] }
  else none

theorem lock_of_mutex (hmutex : h.mutex = true) : h.lock = none := if_pos hmutex

/-- An element whose header names a block is handed out. -/
theorem Inv.live_of_header {s : Slot E} (hi : Inv h xs) {blk : Block E} {b : Addr} (hblk : h.mem.get s.block = some blk)
    (hb : (blk.elems s.index).block? = some (some b)) : Live (bodies h.mem) s := by
  have hB : bodies h.mem s.block = some (body blk) := by rw [bodies, hblk]; rfl
  obtain ⟨is, hok⟩ := hi.blocks.block _ _ hB
  have hno : s.index ∉ is := by
    intro hmem
    obtain ⟨q, hq⟩ := hok.chain.exists_next hmem
    have hnext : blk.elems s.index = .next q := hq
    rw [hnext] at hb
    cases hb
  exact ⟨_, hB, hok.used _ hno⟩

/-- What is freed is handed out, if `free` returns. -/
theorem Inv.live_of_free {s : Slot E} (hi : Inv h xs) (hrun : h.free s = some h') :
    h.mutex = false ∧ Live (bodies h.mem) s := by
  obtain ⟨h₁, hlock, hrun⟩ := Option.bind_eq_some_iff.1 hrun
  obtain ⟨hmutex, rfl⟩ := lock_eq_some hlock
  obtain ⟨blk, hblk, hrun⟩ := Option.bind_eq_some_iff.1 hrun
  obtain ⟨b, hb, hrun⟩ := Option.bind_eq_some_iff.1 hrun
  obtain ⟨b, rfl, -⟩ := Option.bind_eq_some_iff.1 hrun
  exact ⟨hmutex, hi.live_of_header hblk hb⟩

/-- Where `alloc` returns there was memory for the block that it needed. -/
theorem Inv.of_alloc {r : Option (Slot E) × Heap E} (hi : Inv h xs) (hE : 2 ≤ E) (hrun : h.alloc A = some r) :
    h.mutex = false ∧ (h.freeElems = 0 → (A.pick h.mem).isSome) := by
  obtain ⟨h₁, hlock, hrun⟩ := Option.bind_eq_some_iff.1 hrun
  obtain ⟨hmutex, rfl⟩ := lock_eq_some hlock
  refine ⟨hmutex, fun hfree => ?_⟩
  have hempty := hi.emptyBlock_of_full (by omega) hfree
  by_contra hpick
  rw [Option.not_isSome_iff_eq_none] at hpick
  have hexpand : Heap.expand A { h with mutex := true } = none := by
    simp [Heap.expand, hempty, hpick]
  rw [if_pos hfree, hexpand] at hrun
  cases hrun

/-- **`free` of a foreign element** takes the mutex and leaves all else but the log. -/
theorem Inv.freeForeign {s : Slot F} (hi : Inv o ys) (hne : o.addr ≠ h.addr) (hmutex : h.mutex = false)
    (hs : Live (bodies o.mem) s) : h.freeForeign o.mem s =
      some { h with mutex := true, log := h.log ++ [.returnIfFail "b->heap == heap"] } := by
  obtain ⟨B, hB, hused⟩ := hs
  obtain ⟨is, hok⟩ := hi.blocks.block _ _ hB
  obtain ⟨blk, hblk, rfl⟩ := exists_of_bodies hB
  have hlock := lock_of_free hmutex
  have hused' : blk.elems s.index = .block (some s.block) := hused
  have hother : blk.heap ≠ some h.addr := by
    rw [show blk.heap = some o.addr from hok.heap]
    exact fun heq => hne (Option.some.inj heq)
  simp only [Heap.freeForeign, hlock, hblk, hused', HeapElemHeader.block?, Option.bind_eq_bind, Option.bind_some, ne_eq,
    hother, not_false_eq_true, if_true]

theorem Inv.live_of_freeForeign {s : Slot F} (hi : Inv o ys) (hrun : h.freeForeign o.mem s = some h') :
    h.mutex = false ∧ Live (bodies o.mem) s := by
  obtain ⟨h₁, hlock, hrun⟩ := Option.bind_eq_some_iff.1 hrun
  obtain ⟨hmutex, -⟩ := lock_eq_some hlock
  obtain ⟨blk, hblk, hrun⟩ := Option.bind_eq_some_iff.1 hrun
  obtain ⟨b, hb, hrun⟩ := Option.bind_eq_some_iff.1 hrun
  obtain ⟨b, rfl, -⟩ := Option.bind_eq_some_iff.1 hrun
  exact ⟨hmutex, hi.live_of_header hblk hb⟩

theorem create_addr {addr : Addr} {now : Bool} (hcreate : create A addr now = some h₀) : h₀.addr = addr := by
  cases now with
  | false => exact (Option.some.inj hcreate) ▸ rfl
  | true =>
    -- the mutex of a new heap is free
    obtain ⟨h₁, hexpand, hcreate⟩ := Option.bind_eq_some_iff.1 hcreate
    obtain ⟨b, -, hexpand⟩ := Option.bind_eq_some_iff.1 hexpand
    rw [← Option.some.inj hcreate, ← Option.some.inj hexpand]
    rfl

end Heap

/-! ## Several heaps -/

variable {ι : Type} [DecidableEq ι] {E : ι → ℕ}

/-- Heaps, with `E t` elements a block in the heap `t`. -/
abbrev Heaps (E : ι → ℕ) : Type := ∀ t, Heap (E t)

namespace Heaps

/-- A call. An element is given with the heap that it is of. -/
inductive Call (E : ι → ℕ)
  | alloc (t : ι)
  | free (t o : ι) (s : Slot (E o))

/-- The heap that is passed. -/
def Call.heap : Call E → ι
  | alloc t => t
  | free t _ _ => t

/-- What is freed is of another heap. -/
def Call.Foreign : Call E → Prop
  | alloc _ => False
  | free t o _ => o ≠ t

/-- A call, with what an `alloc` answers. -/
def Call.run (A : ∀ t, Allocator (Block (E t))) (p : Heaps E) : Call E → Option (Option (Σ t, Slot (E t)) × Heaps E)
  | alloc t => ((p t).alloc (A t)).map fun r => (r.1.map fun s => ⟨t, s⟩, Function.update p t r.2)
  | free t o s =>
    (if ho : o = t then (p t).free (ho ▸ s) else (p t).freeForeign (p o).mem s).map fun h =>
      (none, Function.update p t h)

/-- The invariants of the heaps, which are in different places. -/
structure Sound (p : Heaps E) : Prop where
  inv : ∀ t, ∃ xs, Heap.Inv (p t) xs
  addr : Function.Injective fun t => (p t).addr

variable {A : ∀ t, Allocator (Block (E t))} {p p' p₀ : Heaps E} {c : Call E} {r : Option (Σ t, Slot (E t))} {t : ι}

/-- A heap is changed, but stays where it was. -/
theorem Sound.update (hs : p.Sound) {h : Heap (E t)} {xs : List Addr} (hi : Heap.Inv h xs) (haddr : h.addr = (p t).addr) :
    Sound (Function.update p t h) := by
  have haddrs : (fun u => (Function.update p t h u).addr) = fun u => (p u).addr := by
    funext u
    by_cases hu : u = t
    · subst hu
      rw [Function.update_self, haddr]
    · rw [Function.update_of_ne hu]
  refine ⟨fun u => ?_, by rw [haddrs]; exact hs.addr⟩
  by_cases hu : u = t
  · subst hu
    rw [Function.update_self]
    exact ⟨xs, hi⟩
  · rw [Function.update_of_ne hu]
    exact hs.inv u

/-- What a call that returns does: it keeps the mutex of the heap, or what is freed
is of another heap and the mutex stays taken. -/
theorem Sound.step (hs : p.Sound) (hE : ∀ t, 2 ≤ E t) (hrun : c.run A p = some (r, p')) :
    p'.Sound ∧ (p c.heap).mutex = false ∧ (∀ u ≠ c.heap, p' u = p u) ∧
      ((¬c.Foreign ∧ (p' c.heap).mutex = false) ∨
        c.Foreign ∧ p' c.heap = { p c.heap with
          mutex := true
          log := (p c.heap).log ++ [.returnIfFail "b->heap == heap"] }) := by
  cases c with
  | alloc t =>
    obtain ⟨⟨r', h'⟩, halloc, heq⟩ := Option.map_eq_some_iff.1 hrun
    obtain ⟨-, rfl⟩ := Prod.mk.inj heq
    obtain ⟨xs, hi⟩ := hs.inv t
    obtain ⟨hmutex, hpick⟩ := hi.of_alloc (hE t) halloc
    obtain ⟨s, h₁, xs', halloc', hi', -, -, hmutex', -, haddr, -⟩ := hi.alloc (hE t) hpick hmutex
    obtain ⟨-, rfl⟩ := Prod.mk.inj (Option.some.inj (halloc.symm.trans halloc'))
    refine ⟨hs.update hi' haddr, hmutex, fun u hu => Function.update_of_ne hu .., Or.inl ⟨id, ?_⟩⟩
    dsimp only [Call.heap]
    rwa [Function.update_self]
  | free t o s =>
    obtain ⟨h', hfree, heq⟩ := Option.map_eq_some_iff.1 hrun
    obtain ⟨-, rfl⟩ := Prod.mk.inj heq
    obtain ⟨xs, hi⟩ := hs.inv t
    by_cases ho : o = t
    · subst ho
      rw [dif_pos rfl] at hfree
      obtain ⟨hmutex, hlive⟩ := hi.live_of_free hfree
      obtain ⟨h₁, xs', hfree', hi', -, hmutex', -, haddr, -⟩ := hi.free (hE o) hmutex hlive
      obtain rfl := Option.some.inj (hfree.symm.trans hfree')
      refine ⟨hs.update hi' haddr, hmutex, fun u hu => Function.update_of_ne hu .., Or.inl ⟨fun h => h rfl, ?_⟩⟩
      dsimp only [Call.heap]
      rwa [Function.update_self]
    · rw [dif_neg ho] at hfree
      obtain ⟨ys, hio⟩ := hs.inv o
      obtain ⟨hmutex, hlive⟩ := hio.live_of_freeForeign hfree
      obtain rfl := Option.some.inj (hfree.symm.trans (hio.freeForeign (fun haddr => ho (hs.addr haddr)) hmutex hlive))
      have hi' : Heap.Inv { p t with mutex := true, log := (p t).log ++ [.returnIfFail "b->heap == heap"] } xs :=
        ⟨hi.list, hi.data, hi.blocks⟩
      refine ⟨hs.update hi' rfl, hmutex, fun u hu => Function.update_of_ne hu ..,
        Or.inr ⟨ho, ?_⟩⟩
      dsimp only [Call.heap]
      rw [Function.update_self]

/-- No call on a heap whose mutex is taken returns. -/
theorem run_of_mutex (hmutex : (p c.heap).mutex = true) : c.run A p = none := by
  have hlock := Heap.lock_of_mutex hmutex
  cases c with
  | alloc t =>
    have hnone : (p t).alloc (A t) = none := by
      rw [Heap.alloc, show (p t).lock = none from hlock]
      rfl
    rw [Call.run, hnone]
    rfl
  | free t o s =>
    rw [Call.run]
    split_ifs with ho
    · rw [Heap.free, show (p t).lock = none from hlock]
      rfl
    · rw [Heap.freeForeign, show (p t).lock = none from hlock]
      rfl

theorem Run.sound {addr : ι → Addr} (haddr : Function.Injective addr) {now : ι → Bool}
    (hcreate : ∀ t, Heap.create (A t) (addr t) (now t) = some (p₀ t)) (hE : ∀ t, 2 ≤ E t)
    {tr : List (Call E × Option (Σ t, Slot (E t)))} (hrun : Run (Call.run A) (fun _ _ => True) p₀ tr p) : p.Sound := by
  refine Run.invariant ⟨fun t => (Heap.good_create (hcreate t)).inv, ?_⟩ (fun hs _ hstep => (hs.step hE hstep).1) hrun
  have haddrs : (fun t => (p₀ t).addr) = addr := funext fun t => Heap.create_addr (hcreate t)
  rwa [haddrs]

/-- **Which calls leave the mutexes as they were**: in any state a run reaches, all
that return, but for a `free` of an element of another heap. That one returns as
well, changes nothing else but the log, and no call on the heap returns after it. -/
theorem mutex_kept_iff {addr : ι → Addr} (haddr : Function.Injective addr) {now : ι → Bool}
    (hcreate : ∀ t, Heap.create (A t) (addr t) (now t) = some (p₀ t)) (hE : ∀ t, 2 ≤ E t)
    {tr : List (Call E × Option (Σ t, Slot (E t)))} (hrun : Run (Call.run A) (fun _ _ => True) p₀ tr p)
    (hstep : c.run A p = some (r, p')) :
    ((∀ u, (p' u).mutex = (p u).mutex) ↔ ¬c.Foreign) ∧
      (c.Foreign → p' = Function.update p c.heap { p c.heap with
          mutex := true
          log := (p c.heap).log ++ [.returnIfFail "b->heap == heap"] } ∧
        ∀ c' : Call E, c'.heap = c.heap → c'.run A p' = none) ∧
      ∀ t o, o ≠ t → ∀ s : Slot (E o), (p t).mutex = false → Heap.Live (Heap.bodies (p o).mem) s →
        ((Call.free t o s).run A p).isSome := by
  have hs := Run.sound haddr hcreate hE hrun
  obtain ⟨-, hfree, hothers, hcase⟩ := hs.step hE hstep
  have hreturns : ∀ t o, o ≠ t → ∀ s : Slot (E o), (p t).mutex = false → Heap.Live (Heap.bodies (p o).mem) s →
      ((Call.free t o s).run A p).isSome := by
    intro t o hne s hmutex hlive
    obtain ⟨ys, hio⟩ := hs.inv o
    rw [Call.run, dif_neg hne, hio.freeForeign (fun haddr => hne (hs.addr haddr)) hmutex hlive]
    rfl
  rcases hcase with ⟨hown, hmutex⟩ | ⟨hforeign, hheld⟩
  · refine ⟨iff_of_true (fun u => ?_) hown, fun h => absurd h hown, hreturns⟩
    by_cases hu : u = c.heap
    · rw [hu, hmutex, hfree]
    · rw [hothers u hu]
  · have htaken : (p' c.heap).mutex = true := by rw [hheld]
    refine ⟨iff_of_false (fun h => ?_) (fun h => h hforeign), fun _ => ⟨?_, fun c' hc' => ?_⟩, hreturns⟩
    · have hsame := h c.heap
      rw [htaken, hfree] at hsame
      cases hsame
    · funext u
      by_cases hu : u = c.heap
      · subst hu
        rw [Function.update_self, hheld]
      · rw [Function.update_of_ne hu, hothers u hu]
    · exact run_of_mutex (hc' ▸ htaken)

/-- Two heaps of two elements a block. -/
def exampleHeaps : Heaps fun _ : Bool => 2 := fun t => (Heap.create Allocator.bump t.toNat true).get rfl

theorem mutex_kept_iff_alloc : ∃ r p', (Call.alloc true).run (fun _ => Allocator.bump) exampleHeaps = some (r, p') ∧
    ∀ u, (p' u).mutex = (exampleHeaps u).mutex := by
  have haddr : Function.Injective Bool.toNat := by decide
  have hcreate : ∀ t : Bool, Heap.create (E := 2) Allocator.bump t.toNat true = some (exampleHeaps t) := by
    intro t
    cases t <;> rfl
  exact ⟨_, _, rfl, (mutex_kept_iff (A := fun _ => Allocator.bump) (c := .alloc true) haddr hcreate (fun _ => by decide)
    Run.nil rfl).1.2 id⟩

/-- An element of one heap is freed in the other. -/
theorem mutex_not_kept : ¬ ∀ (c : Call fun _ : Bool => 2) (r : Option (Σ _ : Bool, Slot 2)) (p p' : Heaps fun _ : Bool => 2)
    (tr : List (Call (fun _ : Bool => 2) × Option (Σ _ : Bool, Slot 2))),
    Run (Call.run fun _ => Allocator.bump) (fun _ _ => True) exampleHeaps tr p →
    c.run (fun _ => Allocator.bump) p = some (r, p') → ∀ u, (p' u).mutex = (p u).mutex := by
  intro h
  have hrun : Run (Call.run fun _ => Allocator.bump) (fun _ _ => True) exampleHeaps
      ([] ++ [(.alloc true, some ⟨true, ⟨1, 1⟩⟩)]) _ := Run.nil.snoc trivial rfl
  have hkept := h (.free false true ⟨1, 1⟩) none _ _ _ hrun rfl false
  exact absurd hkept (by decide)

end Heaps

end Mowgli
