import Mowgli.Container.List.Edit
import Mowgli.Eventloop.Pollable.Life
import Mowgli.Library.Run
/-!
# The poll and select backends

`poll_pollops.c` and `select_pollops.c` keep a list of what they poll, and
their `setselect` and `destroy` are the same code on it. The rest of
`mowgli_poll_eventloop_private_t` is filled anew from the list by each
`select`, and left out here.

Whether a pollable is on the list is not stored anywhere: `setselect` tells
it from the two functions, `destroy` takes it for granted.
-/

namespace Mowgli

namespace PollLoop

/-- `if (pollable->read_function || pollable->write_function)
mowgli_node_delete(...)`. -/
def unlink (m : Store Pollable) (l : MowgliList) (pollable : Addr) :
    Option (Store Pollable × MowgliList) := do
  let p ← m.get pollable
  if p.hasFunction then Pollable.nodeField.nodeDelete m pollable l else some (m, l)

/-- `if (pollable->read_function || pollable->write_function)
mowgli_node_add(...)`. -/
def link (m : Store Pollable) (l : MowgliList) (pollable : Addr) :
    Option (Store Pollable × MowgliList) := do
  let p ← m.get pollable
  if p.hasFunction then Pollable.nodeField.nodeAdd m (some pollable) pollable l else some (m, l)

/-- `mowgli_poll_eventloop_setselect` and `mowgli_select_eventloop_setselect`. -/
def listSetselect (el : PollLoop MowgliList) (pollable : Addr) (dir : IoDir) (f : Option Addr) :
    Option (PollLoop MowgliList) := do
  let (m, l) ← unlink el.pollables el.poller pollable
  let m ← m.modify pollable fun p => p.setFunction dir f
  let (m, l) ← link m l pollable
  some { el with pollables := m, poller := l, log := logDirection dir el.log }

/-- `mowgli_poll_eventloop_destroy` and `mowgli_select_eventloop_destroy`. -/
def listDestroy (el : PollLoop MowgliList) (pollable : Addr) : Option (PollLoop MowgliList) := do
  let (m, l) ← Pollable.nodeField.nodeDelete el.pollables pollable el.poller
  some { el with pollables := m, poller := l }

/-- `_mowgli_poll_pollops`. -/
def pollPollops : PollOps MowgliList := ⟨listSetselect, listDestroy⟩

/-- `_mowgli_select_pollops`. -/
def selectPollops : PollOps MowgliList := ⟨listSetselect, listDestroy⟩

/-- What holds of one of the two holds of the other. -/
theorem selectPollops_eq : selectPollops = pollPollops := rfl

/-! ## The list -/

/-- A pollable that is live and has something to poll for. -/
def Polled (m : Store Pollable) (a : Addr) : Prop :=
  ∃ p, m.get a = some p ∧ p.removed = false ∧ p.hasFunction = true

/-- The list is what it should be. -/
def Listed (el : PollLoop MowgliList) : Prop :=
  Pollable.nodeField.Lists el.pollables el.poller (Polled el.pollables)

variable {m m' : Store Pollable} {l : MowgliList} {S : Addr → Prop}
variable {el el' : PollLoop MowgliList} {a b : Addr} {p q : Pollable}

/-- All of a pollable but its node. -/
def core (p : Pollable) : Pollable := { p with node := ⟨none, none, none⟩ }

theorem get_of_keeps (h : Pollable.nodeField.Keeps m m') (hp : m.get a = some p) :
    ∃ n, m'.get a = some { p with node := n } := by
  have ha := h core (fun _ _ => rfl) a
  rw [hp, Option.map_some, Option.map_eq_some_iff] at ha
  obtain ⟨q, hq, hqp⟩ := ha
  refine ⟨q.node, ?_⟩
  rw [hq, Option.some_inj]
  cases p
  cases q
  simp only [core, Pollable.mk.injEq] at hqp ⊢
  tauto

theorem polled_of_same (h : Store.Same (fun p => (p.removed, p.hasFunction)) m m') :
    Polled m' a ↔ Polled m a := by
  have ha := h a
  constructor
  · rintro ⟨p, hp, hr, hf⟩
    rw [hp, Option.map_some, eq_comm, Option.map_eq_some_iff] at ha
    obtain ⟨q, hq, hqp⟩ := ha
    rw [Prod.mk.injEq] at hqp
    exact ⟨q, hq, hqp.1.trans hr, hqp.2.trans hf⟩
  · rintro ⟨p, hp, hr, hf⟩
    rw [hp, Option.map_some, Option.map_eq_some_iff] at ha
    obtain ⟨q, hq, hqp⟩ := ha
    rw [Prod.mk.injEq] at hqp
    exact ⟨q, hq, hqp.1.trans hr, hqp.2.trans hf⟩

theorem polled_of_keeps (h : Pollable.nodeField.Keeps m m') : Polled m' a ↔ Polled m a :=
  polled_of_same (h _ fun _ _ => rfl)

/-- Whether a pollable is listed is the matter of its own cell. -/
theorem polled_iff (hp : m.get a = some p) :
    Polled m a ↔ p.removed = false ∧ p.hasFunction = true := by
  constructor
  · rintro ⟨q, hq, h⟩
    rw [hp, Option.some_inj] at hq
    rwa [hq]
  · rintro h
    exact ⟨p, hp, h⟩

theorem polled_congr (h : m'.get a = m.get a) : Polled m' a ↔ Polled m a := by
  rw [Polled, Polled, h]

@[simp] theorem setFunction_removed (dir : IoDir) (f : Option Addr) :
    (p.setFunction dir f).removed = p.removed := by
  cases dir <;> rfl

@[simp] theorem setFunction_node (dir : IoDir) (f : Option Addr) :
    (p.setFunction dir f).node = p.node := by
  cases dir <;> rfl

/-- The list is what it should be, in this order. -/
structure Ordered (el : PollLoop MowgliList) (xs : List Addr) : Prop where
  holds : Pollable.nodeField.Holds el.pollables el.poller xs
  polled : ∀ a, a ∈ xs ↔ Polled el.pollables a
  data : ∀ a ∈ xs, Pollable.nodeField.data el.pollables a = some (some a)

theorem listed_iff : el.Listed ↔ ∃ xs, el.Ordered xs := by
  constructor
  · rintro ⟨xs, h, hmem, hdata⟩
    exact ⟨xs, h, hmem, hdata⟩
  · rintro ⟨xs, h⟩
    exact ⟨xs, h.holds, h.polled, h.data⟩

/-- After the first `if`, the pollable is not on the list. -/
theorem unlink_spec {xs : List Addr} (h : Pollable.nodeField.Holds m l xs) (hp : m.get a = some p)
    (ha : a ∈ xs ↔ p.hasFunction = true) :
    ∃ m' l', unlink m l a = some (m', l') ∧ Pollable.nodeField.Holds m' l' (xs.erase a) ∧
      Pollable.nodeField.Keeps m m' ∧ Pollable.nodeField.data m' = Pollable.nodeField.data m ∧
      ∀ b ∉ xs.erase a, Pollable.nodeField.links m' b = Pollable.nodeField.links m b := by
  cases hf : p.hasFunction with
  | true =>
    obtain ⟨ys, zs, rfl⟩ := List.append_of_mem (ha.2 hf)
    obtain ⟨m', l', hrun, hl, hk, hdata⟩ := h.nodeDelete
    have hmid := h.nodup
    rw [List.nodup_middle, List.nodup_cons, List.mem_append, not_or] at hmid
    have herase : (ys ++ a :: zs).erase a = ys ++ zs := by
      rw [List.erase_append_right _ hmid.1.1, List.erase_cons_head]
    rw [herase]
    refine ⟨m', l', ?_, hl, hk, hdata, fun b hb => h.nodeDelete_frame hrun hb⟩
    simp only [unlink, hp, hf, Option.bind_eq_bind, Option.bind_some, if_true, hrun]
  | false =>
    have hxs : a ∉ xs := fun hax => Bool.false_ne_true (hf.symm.trans (ha.1 hax))
    rw [List.erase_of_not_mem hxs]
    refine ⟨m, l, ?_, h, NodeField.Keeps.refl m, rfl, fun _ _ => rfl⟩
    simp only [unlink, hp, hf, Option.bind_eq_bind, Option.bind_some, Bool.false_eq_true, if_false]

/-- The last `if` puts a pollable that has a function at the end. -/
theorem link_spec {xs : List Addr} (h : Pollable.nodeField.Holds m l xs) (hp : m.get a = some p) (ha : a ∉ xs) :
    ∃ m' l', link m l a = some (m', l') ∧
      Pollable.nodeField.Holds m' l' (xs ++ if p.hasFunction then [a] else []) ∧
      Pollable.nodeField.Keeps m m' ∧
      (p.hasFunction = true → Pollable.nodeField.data m' a = some (some a)) ∧
      (∀ b ≠ a, Pollable.nodeField.data m' b = Pollable.nodeField.data m b) ∧
      ∀ b ∉ xs ++ (if p.hasFunction then [a] else []),
        Pollable.nodeField.links m' b = Pollable.nodeField.links m b ∧
          Pollable.nodeField.data m' b = Pollable.nodeField.data m b := by
  cases hf : p.hasFunction with
  | true =>
    obtain ⟨m', l', hrun, hl, hk, hda, hdo⟩ := h.nodeAdd (some a) (Store.mem_live.2 ⟨p, hp⟩) ha
    refine ⟨m', l', ?_, hl, hk, fun _ => hda, hdo, fun b hb => ?_⟩
    · simp only [link, hp, hf, Option.bind_eq_bind, Option.bind_some, if_true, hrun]
    · rw [if_pos rfl, List.mem_append, List.mem_singleton, not_or] at hb
      exact ⟨h.nodeAdd_frame hrun hb.1 hb.2, hdo b hb.2⟩
  | false =>
    rw [if_neg Bool.false_ne_true, List.append_nil]
    refine ⟨m, l, ?_, h, NodeField.Keeps.refl m, fun hf' => absurd hf' Bool.false_ne_true, fun _ _ => rfl,
      fun _ _ => ⟨rfl, rfl⟩⟩
    simp only [link, hp, hf, Option.bind_eq_bind, Option.bind_some, Bool.false_eq_true, if_false]

/-- What a call that concerns the pollable `a` does to the pollables, if the list
has the cells `xs` after it. -/
structure Relinks (el el' : PollLoop MowgliList) (a : Addr) (xs : List Addr) : Prop where
  ordered : el'.Ordered xs
  /-- The others keep all but their nodes. -/
  others : ∀ b ≠ a, (el'.pollables.get b).map core = (el.pollables.get b).map core
  /-- What is not on the list keeps its node, too. -/
  nodes : ∀ b ∉ xs, Pollable.nodeField.links el'.pollables b = Pollable.nodeField.links el.pollables b ∧
    Pollable.nodeField.data el'.pollables b = Pollable.nodeField.data el.pollables b

/-- **`setselect`** moves a pollable to the end of the list, or takes it off. -/
theorem Ordered.setselect {xs : List Addr} (h : el.Ordered xs) (hp : el.pollables.get a = some p)
    (hr : p.removed = false) (dir : IoDir) (f : Option Addr) :
    ∃ el' n, listSetselect el a dir f = some el' ∧ SameLife el el' ∧
      Relinks el el' a (xs.erase a ++ if (p.setFunction dir f).hasFunction then [a] else []) ∧
      el'.pollables.get a = some { p.setFunction dir f with node := n } := by
  have hax : a ∈ xs ↔ p.hasFunction = true := by
    rw [h.polled, polled_iff hp]
    exact and_iff_right hr
  obtain ⟨m₁, l₁, hrun₁, hl₁, hk₁, hdata₁, hlinks₁⟩ := unlink_spec h.holds hp hax
  obtain ⟨n₁, hp₁⟩ := get_of_keeps hk₁ hp
  have hfun : (Pollable.setFunction { p with node := n₁ } dir f).hasFunction =
      (p.setFunction dir f).hasFunction := by cases dir <;> rfl
  have hnotin : a ∉ xs.erase a := h.holds.nodup.not_mem_erase
  have hset : ∀ b ≠ a, (m₁.set a (Pollable.setFunction { p with node := n₁ } dir f)).get b = m₁.get b :=
    fun b hb => Store.get_set_of_ne _ _ hb
  have hl₂ : Pollable.nodeField.Holds (m₁.set a (Pollable.setFunction { p with node := n₁ } dir f)) l₁
      (xs.erase a) := by
    refine hl₁.congr fun b hb => ?_
    rw [NodeField.links, NodeField.links, hset b fun hba => hnotin (hba ▸ hb)]
  obtain ⟨m₃, l₃, hrun₃, hl₃, hk₃, hda, hdo, hlinks₃⟩ := link_spec hl₂ (Store.get_set_self ..) hnotin
  rw [hfun] at hl₃ hda hlinks₃
  obtain ⟨n₃, hp₃⟩ := get_of_keeps hk₃ (Store.get_set_self m₁ a _)
  have hp₃' : m₃.get a = some { p.setFunction dir f with node := n₃ } := by
    rw [hp₃]
    cases dir <;> rfl
  have hothers : ∀ b ≠ a, (m₃.get b).map core = (el.pollables.get b).map core := by
    intro b hb
    rw [hk₃ core (fun _ _ => rfl) b, hset b hb, hk₁ core (fun _ _ => rfl) b]
  refine ⟨{ el with pollables := m₃, poller := l₃, log := logDirection dir el.log }, n₃, ?_,
    ⟨fun b => ?_, rfl, rfl, rfl, rfl⟩, ⟨⟨hl₃, fun b => ?_, fun b hb => ?_⟩, hothers, fun b hb => ?_⟩, hp₃'⟩
  · simp only [listSetselect, hrun₁, Store.modify_of_get _ hp₁, hrun₃, Option.bind_eq_bind, Option.bind_some]
  · by_cases hb : b = a
    · subst hb
      simp [hp, hp₃']
    · have hcore := congrArg (Option.map Pollable.removed) (hothers b hb)
      rwa [Option.map_map, Option.map_map] at hcore
  · by_cases hb : b = a
    · subst hb
      rw [polled_iff hp₃', List.mem_append, or_iff_right hnotin]
      change _ ↔ (p.setFunction dir f).removed = false ∧ (p.setFunction dir f).hasFunction = true
      rw [setFunction_removed, and_iff_right hr]
      split_ifs with hf <;> simp [hf]
    · have hpolled : Polled m₃ b ↔ Polled el.pollables b := by
        rw [polled_of_keeps hk₃, polled_congr (hset b hb), polled_of_keeps hk₁]
      rw [hpolled, ← h.polled, List.mem_append, List.mem_erase_of_ne hb]
      refine or_iff_left fun hmem => ?_
      split_ifs at hmem with hf
      · exact hb (List.mem_singleton.1 hmem)
      · exact absurd hmem List.not_mem_nil
  · by_cases hba : b = a
    · subst hba
      rw [List.mem_append, or_iff_right hnotin] at hb
      split_ifs at hb with hf
      · exact hda hf
      · exact absurd hb List.not_mem_nil
    · have hbx : b ∈ xs := by
        rcases List.mem_append.1 hb with hb | hb
        · exact List.mem_of_mem_erase hb
        · split_ifs at hb with hf
          · exact absurd (List.mem_singleton.1 hb) hba
          · exact absurd hb List.not_mem_nil
      dsimp only
      rw [hdo b hba, NodeField.data, hset b hba, ← h.data b hbx, ← hdata₁]
      rfl
  · have hbx : b ∉ xs.erase a := fun hbx => hb (List.mem_append_left _ hbx)
    have hnode : Pollable.nodeField.links (m₁.set a (Pollable.setFunction { p with node := n₁ } dir f)) b =
          Pollable.nodeField.links m₁ b ∧
        Pollable.nodeField.data (m₁.set a (Pollable.setFunction { p with node := n₁ } dir f)) b =
          Pollable.nodeField.data m₁ b := by
      by_cases hba : b = a
      · subst hba
        rw [NodeField.links, NodeField.links, NodeField.data, NodeField.data, Store.get_set_self, hp₁]
        cases dir <;> exact ⟨rfl, rfl⟩
      · rw [NodeField.links, NodeField.links, NodeField.data, NodeField.data, hset b hba]
        exact ⟨rfl, rfl⟩
    dsimp only
    rw [(hlinks₃ b hb).1, (hlinks₃ b hb).2, hnode.1, hnode.2, hlinks₁ b hbx, hdata₁]
    exact ⟨rfl, rfl⟩

/-- **`setselect`** keeps the list what it should be. -/
theorem Listed.setselect (h : el.Listed) (ha : el.Live a) (dir : IoDir) (f : Option Addr) :
    ∃ el', listSetselect el a dir f = some el' ∧ el'.Listed ∧ SameLife el el' := by
  obtain ⟨p, hp, hr⟩ := ha
  obtain ⟨xs, hxs⟩ := listed_iff.1 h
  obtain ⟨el', n, hrun, hs, hrel, -⟩ := hxs.setselect hp hr dir f
  exact ⟨el', hrun, listed_iff.2 ⟨_, hrel.ordered⟩, hs⟩

/-- **`destroy`** takes a pollable off the list that is on it. -/
theorem Listed.destroy (h : el.Listed) (hp : el.pollables.get a = some p) (hr : p.removed = false)
    (hf : p.hasFunction = true) :
    ∃ el', listDestroy el a = some el' ∧ SameLife el el' ∧
      Pollable.nodeField.Keeps el.pollables el'.pollables ∧
      Pollable.nodeField.Lists el'.pollables el'.poller (fun b => Polled el.pollables b ∧ b ≠ a) := by
  obtain ⟨m', l', hrun, hl, hk⟩ := NodeField.Lists.nodeDelete h ((polled_iff hp).2 ⟨hr, hf⟩)
  refine ⟨{ el with pollables := m', poller := l' }, ?_, ⟨hk _ fun _ _ => rfl, rfl, rfl, rfl, rfl⟩, hk, hl⟩
  simp only [listDestroy, hrun, Option.bind_eq_bind, Option.bind_some]

/-- A new pollable is not listed. -/
theorem Listed.create (h : el.Listed) (hk : el.Kept) (fd : ℤ) (userdata : Option Addr) :
    (el.pollableCreate fd userdata).2.Listed := by
  have hne : ∀ b, Polled el.pollables b → b ≠ el.allocated := by
    rintro b ⟨p, hp, -⟩ rfl
    exact hk.not_live_allocated (Store.mem_live.2 ⟨p, hp⟩)
  refine NodeField.Lists.congr h (fun b => ?_) fun b hb => ?_
  · by_cases hb : b = el.allocated
    · subst hb
      constructor
      · intro hb
        exact absurd rfl (hne _ hb)
      · intro hb
        exact absurd ((polled_iff (Store.get_set_self ..)).1 hb).2 Bool.false_ne_true
    · exact (polled_congr (Store.get_set_of_ne _ _ hb)).symm
  · exact congrArg _ (Store.get_set_of_ne _ _ (hne b hb))

/-- A listed pollable that is destroyed is not listed any more, and the
others are as they were. -/
theorem Listed.pollableDestroy (h : el.Listed) (hk : el.Kept) (hp : el.pollables.get a = some p)
    (hr : p.removed = false) (hf : p.hasFunction = true) :
    ∃ el', el.pollableDestroy pollPollops a = some el' ∧ el'.Listed ∧ el'.Kept := by
  obtain ⟨el', hrun, hs, hkeep, hl⟩ := h.destroy hp hr hf
  obtain ⟨n, hq⟩ := get_of_keeps hkeep hp
  have hk' := hk.congr hs
  cases he : el'.processingEvents with
  | true =>
    refine ⟨_, pollableDestroy_processing pollPollops hp hr hrun hq he, ?_, hk'.remove hq hr⟩
    refine hl.congr (fun b => ?_) fun b hb => ?_
    · by_cases hb : b = a
      · subst hb
        rw [polled_iff (Store.get_set_self ..)]
        simp
      · rw [polled_congr (Store.get_set_of_ne _ _ hb), polled_of_keeps hkeep]
        simp [hb]
    · exact congrArg _ (Store.get_set_of_ne _ _ hb.2)
  | false =>
    refine ⟨_, pollableDestroy_idle pollPollops hp hr hrun hq he, ?_, hk'.free hq hr⟩
    refine hl.congr (fun b => ?_) fun b hb => ?_
    · by_cases hb : b = a
      · subst hb
        simp [Polled, Store.get_free]
      · rw [polled_congr (Store.get_free_of_ne _ hb), polled_of_keeps hkeep]
        simp [hb]
    · exact congrArg _ (Store.get_free_of_ne _ hb.2)

/-- While events are processed, a listed pollable that is destroyed is taken off
the list and marked. -/
theorem Ordered.pollableDestroy {xs : List Addr} (h : el.Ordered xs) (hp : el.pollables.get a = some p)
    (hr : p.removed = false) (hf : p.hasFunction = true) (he : el.processingEvents = true) :
    ∃ el' n, el.pollableDestroy pollPollops a = some el' ∧ Relinks el el' a (xs.erase a) ∧
      el'.pollables.get a = some { p with node := n, removed := true } ∧ el'.processingEvents = true := by
  have hmem : a ∈ xs := (h.polled a).2 ((polled_iff hp).2 ⟨hr, hf⟩)
  obtain ⟨m', l', hrun, hl, hk, hdata, hlinks⟩ := unlink_spec h.holds hp (iff_of_true hmem hf)
  obtain ⟨n, hq⟩ := get_of_keeps hk hp
  have hdel : listDestroy el a = some { el with pollables := m', poller := l' } := by
    rw [unlink, hp, Option.bind_eq_bind, Option.bind_some, if_pos hf] at hrun
    rw [listDestroy, hrun]
    rfl
  have hnotin : a ∉ xs.erase a := h.holds.nodup.not_mem_erase
  have hset : ∀ b ≠ a, (m'.set a { p with node := n, removed := true }).get b = m'.get b :=
    fun b hb => Store.get_set_of_ne _ _ hb
  refine ⟨_, n, pollableDestroy_processing pollPollops hp hr hdel hq he,
    ⟨⟨hl.congr fun b hb => ?_, fun b => ?_, fun b hb => ?_⟩, fun b hb => ?_, fun b hb => ?_⟩,
    Store.get_set_self .., he⟩
  · rw [NodeField.links, NodeField.links, hset b fun hba => hnotin (hba ▸ hb)]
  · by_cases hb : b = a
    · subst hb
      rw [polled_iff (Store.get_set_self ..)]
      simp [hnotin]
    · rw [List.mem_erase_of_ne hb, h.polled, polled_congr (hset b hb), polled_of_keeps hk]
  · rw [NodeField.data, hset b fun hba => hnotin (hba ▸ hb), ← h.data b (List.mem_of_mem_erase hb), ← hdata]
    rfl
  · rw [← hk core (fun _ _ => rfl) b]
    exact congrArg _ (hset b hb)
  · rw [← hlinks b hb, ← hdata]
    by_cases hba : b = a
    · subst hba
      rw [NodeField.links, NodeField.links, NodeField.data, NodeField.data, Store.get_set_self, hq]
      exact ⟨rfl, rfl⟩
    · rw [NodeField.links, NodeField.links, NodeField.data, NodeField.data, hset b hba]
      exact ⟨rfl, rfl⟩

/-- The reap frees nothing that is listed. -/
theorem Listed.reap (h : el.Listed) (hk : el.Kept) :
    ∃ el', el.reapPollables = some el' ∧ el'.Listed ∧ el'.Kept := by
  obtain ⟨m, hrun, hget, hk'⟩ := hk.reap
  have hne : ∀ b, Polled el.pollables b → b ∉ el.destroyedPollableList := by
    rintro b ⟨p, hp, hr, -⟩ hb
    exact Live.not_removed ⟨p, hp, hr⟩ ((hk.destroyed b).1 hb)
  refine ⟨_, hrun, NodeField.Lists.congr h (fun b => ?_) fun b hb => ?_, hk'⟩
  · by_cases hb : b ∈ el.destroyedPollableList
    · constructor
      · intro hb'
        exact absurd hb (hne b hb')
      · rintro ⟨p, hp, -⟩
        have hb' := hget b
        rw [if_pos hb] at hb'
        exact absurd (hp.symm.trans hb') (by simp)
    · exact (polled_congr ((hget b).trans (if_neg hb))).symm
  · exact congrArg _ ((hget b).trans (if_neg (hne b hb)))

/-! ## Runs -/

/-- What happens to an event loop: calls, made from anywhere, and what
`mowgli_eventloop_run` and `mowgli_eventloop_run_once` do besides. -/
inductive PollStep
  | call (c : Call)
  | processing (events : Bool)
  | reap

/-- A step of the event loop. -/
def pollStep (el : PollLoop MowgliList) : PollStep → Option (Option Addr × PollLoop MowgliList)
  | .call c => el.call pollPollops c
  | .processing events => some (none, { el with processingEvents := events })
  | .reap => el.reapPollables.map fun el => (none, el)

/-- The calls are made with live pollables. -/
def PollOk (el : PollLoop MowgliList) : PollStep → Prop
  | .call (.create _ _) => True
  | .call (.setselect a _ _) => el.Live a
  | .call (.destroy a) => el.Live a
  | .processing _ => True
  | .reap => True

/-- And no pollable is destroyed that has neither function. -/
def ListedOk (el : PollLoop MowgliList) : PollStep → Prop
  | .call (.create _ _) => True
  | .call (.setselect a _ _) => el.Live a
  | .call (.destroy a) => Polled el.pollables a
  | .processing _ => True
  | .reap => True

/-- **A step** that destroys no unset pollable has an answer, and keeps the
list what it should be. -/
theorem Listed.step {c : PollStep} (h : el.Listed) (hk : el.Kept) (hok : ListedOk el c) :
    ∃ b el', pollStep el c = some (b, el') ∧ el'.Listed ∧ el'.Kept := by
  match c, hok with
  | .call (.create fd userdata), _ =>
    exact ⟨_, _, rfl, h.create hk fd userdata, hk.create fd userdata⟩
  | .call (.setselect a dir f), hok =>
    obtain ⟨el', hrun, hl, hs⟩ := h.setselect hok dir f
    exact ⟨none, el', congrArg (Option.map _) hrun, hl, hk.congr hs⟩
  | .call (.destroy a), hok =>
    obtain ⟨p, hp, hr, hf⟩ := hok
    obtain ⟨el', hrun, hl, hk'⟩ := h.pollableDestroy hk hp hr hf
    exact ⟨none, el', congrArg (Option.map _) hrun, hl, hk'⟩
  | .processing events, _ =>
    exact ⟨none, _, rfl, h, hk.fresh, hk.destroyed, hk.nodup, hk.once, hk.freed⟩
  | .reap, _ =>
    obtain ⟨el', hrun, hl, hk'⟩ := h.reap hk
    exact ⟨none, el', congrArg (Option.map _) hrun, hl, hk'⟩

/-- What destroying does to the count, and to what should be listed, listed
or not. -/
theorem pollableDestroy_count (hp : el.pollables.get a = some p) (hr : p.removed = false)
    (h : el.pollableDestroy pollPollops a = some el') :
    (∀ b, Polled el'.pollables b ↔ Polled el.pollables b ∧ b ≠ a) ∧
      el'.poller.count = sizeDec el.poller.count := by
  obtain ⟨el₁, hd⟩ : ∃ el₁, listDestroy el a = some el₁ := by
    rw [← Option.ne_none_iff_exists']
    intro hd
    simp [PollLoop.pollableDestroy, hp, hr, pollPollops, hd] at h
  obtain ⟨⟨m, l⟩, hdel, heq⟩ := Option.bind_eq_some_iff.1 hd
  obtain ⟨hk, hc⟩ := NodeField.nodeDelete_count hdel
  rw [Option.some_inj] at heq
  subst heq
  obtain ⟨n, hq⟩ := get_of_keeps hk hp
  cases he : el.processingEvents with
  | true =>
    rw [pollableDestroy_processing pollPollops hp hr hd hq he, Option.some_inj] at h
    subst h
    refine ⟨fun b => ?_, hc⟩
    by_cases hb : b = a
    · subst hb
      rw [polled_iff (Store.get_set_self ..)]
      simp
    · rw [polled_congr (Store.get_set_of_ne _ _ hb), polled_of_keeps hk]
      simp [hb]
  | false =>
    rw [pollableDestroy_idle pollPollops hp hr hd hq he, Option.some_inj] at h
    subst h
    refine ⟨fun b => ?_, hc⟩
    by_cases hb : b = a
    · subst hb
      simp [Polled, Store.get_free]
    · rw [polled_congr (Store.get_free_of_ne _ hb), polled_of_keeps hk]
      simp [hb]

/-- **Destroying a live pollable keeps the list what it should be just when
one of its functions is set.** Without, `mowgli_node_delete` counts down
a list the pollable is not on. -/
theorem Listed.destroy_iff (h : el.Listed) (hk : el.Kept) (ha : el.Live a) :
    (∃ el', el.pollableDestroy pollPollops a = some el' ∧ el'.Listed) ↔ Polled el.pollables a := by
  obtain ⟨p, hp, hr⟩ := ha
  constructor
  · rintro ⟨el', hrun, hl'⟩
    by_contra hf
    obtain ⟨xs, hxs, hmem, -⟩ := h
    obtain ⟨xs', hxs', hmem', -⟩ := hl'
    obtain ⟨hpolled, hcount⟩ := pollableDestroy_count hp hr hrun
    have hperm : xs'.Perm xs := by
      refine (List.perm_ext_iff_of_nodup hxs'.nodup hxs.nodup).2 fun b => ?_
      rw [hmem, hmem', hpolled]
      constructor
      · exact And.left
      · exact fun hb => ⟨hb, fun hba => hf (hba ▸ hb)⟩
    refine sizeDec_ne xs.length ?_
    rw [← hxs.count, ← hcount, hxs'.count, hxs.count]
    exact hperm.length_eq
  · rintro hf
    rw [polled_iff hp] at hf
    obtain ⟨el', hrun, hl, -⟩ := h.pollableDestroy hk hp hr hf.2
    exact ⟨el', hrun, hl⟩

theorem listed_create : (create MowgliList.zero).Listed := by
  refine (NodeField.lists_zero _).congr (fun a => ?_) fun _ _ => rfl
  constructor
  · exact False.elim
  · rintro ⟨p, hp, -⟩
    exact absurd (hp.symm.trans (Store.get_empty a)) (by simp)

/-- **The list of the poll and select backends.** So long as no pollable is
destroyed that has neither function, the list holds each live pollable
that has one, once, and nothing else; no step gets stuck; and to destroy
a pollable that has neither would break this each time. -/
theorem runs_listed {tr : List (PollStep × Option Addr)}
    (h : Run pollStep ListedOk (create .zero) tr el) :
    el.Listed ∧ (∀ c, ListedOk el c → (pollStep el c).isSome) ∧
      ∀ a, el.Live a →
        ((∃ el', el.pollableDestroy pollPollops a = some el' ∧ el'.Listed) ↔ Polled el.pollables a) := by
  obtain ⟨hl, hk⟩ := h.invariant (I := fun el => el.Listed ∧ el.Kept)
    ⟨listed_create, kept_create _⟩ fun {el c b el'} hI hok hrun => by
      obtain ⟨b', el'', hrun', hl', hk'⟩ := hI.1.step hI.2 hok
      rw [hrun, Option.some_inj, Prod.mk.injEq] at hrun'
      exact hrun'.2 ▸ ⟨hl', hk'⟩
  refine ⟨hl, fun c hok => ?_, fun a ha => hl.destroy_iff hk ha⟩
  obtain ⟨b, el', hrun, -⟩ := hl.step hk hok
  exact Option.isSome_iff_exists.2 ⟨(b, el'), hrun⟩

/-- Of two pollables that are set one is destroyed: the other may be, too, and destroying it keeps the list right. -/
theorem runs_listed_two :
    ∃ tr el, Run pollStep ListedOk (create .zero) tr el ∧ el.freed = [0] ∧ el.poller.count = 1 ∧ el.Listed ∧
      (pollStep el (.call (.setselect 1 .write none))).isSome ∧
      ∃ el', el.pollableDestroy pollPollops 1 = some el' ∧ el'.Listed := by
  have h₁ : Run pollStep ListedOk (create .zero) ([] ++ [(.call (.create 5 none), some 0)]) _ :=
    Run.nil.snoc trivial rfl
  have h₂ := h₁.snoc (a := .call (.setselect 0 .read (some 7))) (b := none)
    (by simp only [ListedOk]; exact ⟨_, rfl, rfl⟩) rfl
  have h₃ := h₂.snoc (a := .call (.create 6 none)) (b := some 1) (by simp only [ListedOk]) rfl
  have h₄ := h₃.snoc (a := .call (.setselect 1 .write (some 8))) (b := none)
    (by simp only [ListedOk]; exact ⟨_, rfl, rfl⟩) rfl
  have h₅ := h₄.snoc (a := .call (.destroy 0)) (b := none)
    (by simp only [ListedOk]; exact ⟨_, rfl, rfl, rfl⟩) rfl
  obtain ⟨hl, hstep, hiff⟩ := runs_listed h₅
  exact ⟨_, _, h₅, rfl, rfl, hl, hstep _ (by simp only [ListedOk]; exact ⟨_, rfl, rfl⟩),
    (hiff 1 ⟨_, rfl, rfl⟩).2 ⟨_, rfl, rfl, rfl⟩⟩

/-- **A list that loses a pollable.** The first pollable is set to read;
the second, on which nothing was ever set, is destroyed. -/
theorem runs_unlisted :
    ∃ tr el, Run pollStep PollOk (create .zero) tr el ∧ Polled el.pollables 0 ∧ el.poller.head = none ∧
      ¬ el.Listed := by
  have h₁ : Run pollStep PollOk (create .zero) ([] ++ [(.call (.create 5 none), some 0)]) _ :=
    Run.nil.snoc trivial rfl
  have h₂ := h₁.snoc (a := .call (.setselect 0 .read (some 7))) (b := none)
    (by simp only [PollOk]; exact ⟨_, rfl, rfl⟩) rfl
  have h₃ := h₂.snoc (a := .call (.create 6 none)) (b := some 1) (by simp only [PollOk]) rfl
  have h₄ := h₃.snoc (a := .call (.destroy 1)) (b := none)
    (by simp only [PollOk]; exact ⟨_, rfl, rfl⟩) rfl
  refine ⟨_, _, h₄, ⟨_, rfl, rfl, rfl⟩, rfl, ?_⟩
  rintro ⟨xs, hxs, hmem, -⟩
  have hnil : xs.head? = none := hxs.head_eq.symm
  rw [List.head?_eq_none_iff] at hnil
  have h0 : 0 ∈ xs := (hmem 0).2 ⟨_, rfl, rfl, rfl⟩
  rw [hnil] at h0
  exact absurd h0 List.not_mem_nil

end PollLoop

end Mowgli
