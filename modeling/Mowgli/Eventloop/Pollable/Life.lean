import Mowgli.Eventloop.Pollable.Model
/-!
# The life of a pollable

From `mowgli_pollable_create` to the heap: a pollable is live until it is
destroyed, and then it is either freed at once or goes to
`destroyed_pollable_list`, to be freed by the reap. None of this depends
on the backend, so long as it leaves the life of pollables alone.
-/

namespace Mowgli

namespace PollLoop

variable {P : Type} {el el' el'' : PollLoop P} {a b : Addr} {p : Pollable}

/-- A pollable that was created and not destroyed. -/
def Live (el : PollLoop P) (a : Addr) : Prop := ∃ p, el.pollables.get a = some p ∧ p.removed = false

/-- A pollable that was destroyed and not freed. -/
def Removed (el : PollLoop P) (a : Addr) : Prop := ∃ p, el.pollables.get a = some p ∧ p.removed = true

theorem Live.mem_live (h : el.Live a) : a ∈ el.pollables.live :=
  have ⟨p, hp, _⟩ := h
  Store.mem_live.2 ⟨p, hp⟩

theorem Removed.mem_live (h : el.Removed a) : a ∈ el.pollables.live :=
  have ⟨p, hp, _⟩ := h
  Store.mem_live.2 ⟨p, hp⟩

theorem Live.not_removed (h : el.Live a) : ¬ el.Removed a := by
  rintro ⟨p, hp, hr⟩
  obtain ⟨q, hq, hr'⟩ := h
  rw [hp, Option.some_inj] at hq
  rw [hq, hr'] at hr
  exact Bool.false_ne_true hr

theorem live_or_removed (ha : a ∈ el.pollables.live) : el.Live a ∨ el.Removed a := by
  obtain ⟨p, hp⟩ := Store.mem_live.1 ha
  cases hr : p.removed with
  | false => exact Or.inl ⟨p, hp, hr⟩
  | true => exact Or.inr ⟨p, hp, hr⟩

/-! ## What a backend leaves alone -/

/-- No pollable has come to life, been destroyed or freed. -/
structure SameLife (el el' : PollLoop P) : Prop where
  removed : Store.Same Pollable.removed el.pollables el'.pollables
  allocated : el'.allocated = el.allocated
  destroyed : el'.destroyedPollableList = el.destroyedPollableList
  processing : el'.processingEvents = el.processingEvents
  freed : el'.freed = el.freed

theorem SameLife.exists_iff {b : Bool} (h : SameLife el el') :
    (∃ p, el'.pollables.get a = some p ∧ p.removed = b) ↔ ∃ p, el.pollables.get a = some p ∧ p.removed = b := by
  rw [← Option.map_eq_some_iff, ← Option.map_eq_some_iff, h.removed a]

theorem SameLife.live_iff (h : SameLife el el') : el'.Live a ↔ el.Live a :=
  h.exists_iff

theorem SameLife.removed_iff (h : SameLife el el') : el'.Removed a ↔ el.Removed a :=
  h.exists_iff

/-! ## The bookkeeping of the loop -/

/-- What holds of the life of pollables at any time. -/
structure Kept (el : PollLoop P) : Prop where
  fresh : ∀ a ∈ el.pollables.live, a < el.allocated
  destroyed : ∀ a, a ∈ el.destroyedPollableList ↔ el.Removed a
  nodup : el.destroyedPollableList.Nodup
  /-- Nothing is freed twice. -/
  once : el.freed.Nodup
  freed : ∀ a, a ∈ el.freed ↔ a < el.allocated ∧ a ∉ el.pollables.live

theorem kept_create (poller : P) : (create poller).Kept := by
  have hget : ∀ a, (create poller).pollables.get a = none := Store.get_empty
  constructor
  · intro a ha
    obtain ⟨p, hp⟩ := Store.mem_live.1 ha
    exact absurd (hp.symm.trans (hget a)) (by simp)
  · intro a
    constructor
    · intro h
      exact absurd h List.not_mem_nil
    · rintro ⟨p, hp, -⟩
      exact absurd (hp.symm.trans (hget a)) (by simp)
  · exact List.nodup_nil
  · exact List.nodup_nil
  · intro a
    constructor
    · intro h
      exact absurd h List.not_mem_nil
    · rintro ⟨h, -⟩
      exact absurd h (Nat.not_lt_zero a)

theorem Kept.congr (h : el.Kept) (hs : SameLife el el') : el'.Kept := by
  constructor
  · rw [hs.removed.live, hs.allocated]
    exact h.fresh
  · intro a
    rw [hs.destroyed, hs.removed_iff]
    exact h.destroyed a
  · rw [hs.destroyed]
    exact h.nodup
  · rw [hs.freed]
    exact h.once
  · intro a
    rw [hs.freed, hs.allocated, hs.removed.live]
    exact h.freed a

theorem Kept.not_live_allocated (h : el.Kept) : el.allocated ∉ el.pollables.live :=
  fun ha => lt_irrefl _ (h.fresh _ ha)

/-- **A new pollable.** -/
theorem Kept.create (h : el.Kept) (fd : ℤ) (userdata : Option Addr) :
    (el.pollableCreate fd userdata).2.Kept := by
  have hget : ∀ a ≠ el.allocated, (el.pollableCreate fd userdata).2.pollables.get a = el.pollables.get a :=
    fun a ha => Store.get_set_of_ne _ _ ha
  constructor
  · intro a ha
    rcases Store.mem_live_set.1 ha with rfl | ha
    · exact Nat.lt_succ_self _
    · exact Nat.lt_succ_of_lt (h.fresh a ha)
  · intro a
    rw [show (el.pollableCreate fd userdata).2.destroyedPollableList = el.destroyedPollableList from rfl,
      h.destroyed]
    by_cases ha : a = el.allocated
    · subst ha
      constructor
      · intro hr
        exact absurd hr.mem_live h.not_live_allocated
      · rintro ⟨p, hp, hr⟩
        rw [show (el.pollableCreate fd userdata).2.pollables.get el.allocated = some _ from
          Store.get_set_self .., Option.some_inj] at hp
        rw [← hp] at hr
        exact absurd hr Bool.false_ne_true
    · rw [Removed, Removed, hget a ha]
  · exact h.nodup
  · exact h.once
  · intro a
    rw [show (el.pollableCreate fd userdata).2.freed = el.freed from rfl, h.freed,
      show (el.pollableCreate fd userdata).2.allocated = el.allocated + 1 from rfl,
      show (el.pollableCreate fd userdata).2.pollables = el.pollables.set el.allocated _ from rfl,
      Store.mem_live_set]
    constructor
    · rintro ⟨hlt, hl⟩
      refine ⟨Nat.lt_succ_of_lt hlt, ?_⟩
      rintro (ha | ha)
      · exact Nat.ne_of_lt hlt ha
      · exact hl ha
    · rintro ⟨hlt, hl⟩
      rw [not_or] at hl
      exact ⟨Nat.lt_of_le_of_ne (Nat.le_of_lt_succ hlt) hl.1, hl.2⟩

theorem live_create_iff (fd : ℤ) (userdata : Option Addr) :
    (el.pollableCreate fd userdata).2.Live a ↔ a = el.allocated ∨ a ≠ el.allocated ∧ el.Live a := by
  rw [Live, show (el.pollableCreate fd userdata).2.pollables = el.pollables.set el.allocated _ from rfl,
    Store.get_set]
  split_ifs with ha
  · simp [ha]
  · simp [ha, Live]

/-! ## Destroying -/

theorem pollableDestroy_removed (ops : PollOps P) (hp : el.pollables.get a = some p) (hr : p.removed = true) :
    el.pollableDestroy ops a = some { el with log := el.log ++ [.returnIfFail "!pollable->removed"] } := by
  simp only [pollableDestroy, hp, hr, Option.bind_eq_bind, Option.bind_some, if_true]

/-- A pollable is destroyed while events are processed. -/
theorem pollableDestroy_processing (ops : PollOps P) {q : Pollable} (hp : el.pollables.get a = some p)
    (hr : p.removed = false) (hd : ops.destroy el a = some el') (hq : el'.pollables.get a = some q)
    (he : el'.processingEvents = true) :
    el.pollableDestroy ops a = some { el' with
      pollables := el'.pollables.set a { q with removed := true }
      destroyedPollableList := el'.destroyedPollableList ++ [a] } := by
  simp only [pollableDestroy, hp, hr, hd, he, Option.bind_eq_bind, Option.bind_some, if_true,
    Bool.false_eq_true, if_false, Store.modify_of_get _ hq]

/-- A pollable is destroyed while no events are processed. -/
theorem pollableDestroy_idle (ops : PollOps P) {q : Pollable} (hp : el.pollables.get a = some p)
    (hr : p.removed = false) (hd : ops.destroy el a = some el') (hq : el'.pollables.get a = some q)
    (he : el'.processingEvents = false) :
    el.pollableDestroy ops a = some { el' with
      pollables := el'.pollables.free a, freed := el'.freed ++ [a] } := by
  simp only [pollableDestroy, pollableFree, hp, hr, hd, he, hq, Option.bind_eq_bind, Option.bind_some,
    Bool.false_eq_true, if_false, Option.map_some]

/-- How a pollable ends its life: marked, and on the list. -/
theorem Kept.remove (h : el.Kept) (hp : el.pollables.get a = some p) (hr : p.removed = false) :
    Kept { el with
      pollables := el.pollables.set a { p with removed := true }
      destroyedPollableList := el.destroyedPollableList ++ [a] } := by
  have hlive : ∀ b, b ∈ (el.pollables.set a { p with removed := true }).live ↔ b ∈ el.pollables.live := by
    intro b
    rw [Store.mem_live_set]
    constructor
    · rintro (rfl | hb)
      · exact Store.mem_live.2 ⟨p, hp⟩
      · exact hb
    · exact Or.inr
  have ha : a ∉ el.destroyedPollableList :=
    fun ha => Live.not_removed ⟨p, hp, hr⟩ ((h.destroyed a).1 ha)
  constructor
  · intro b hb
    exact h.fresh b ((hlive b).1 hb)
  · intro b
    rw [List.mem_append, List.mem_singleton, h.destroyed, Removed, Removed, Store.get_set]
    split_ifs with hb
    · simp [hb]
    · simp [hb]
  · rw [List.nodup_append]
    refine ⟨h.nodup, List.nodup_singleton a, fun b hb c hc hbc => ?_⟩
    rw [hbc, List.mem_singleton.1 hc] at hb
    exact ha hb
  · exact h.once
  · intro b
    rw [hlive]
    exact h.freed b

/-- How a pollable ends its life: freed at once. -/
theorem Kept.free (h : el.Kept) (hp : el.pollables.get a = some p) (hr : p.removed = false) :
    Kept { el with pollables := el.pollables.free a, freed := el.freed ++ [a] } := by
  have ha : a ∈ el.pollables.live := Store.mem_live.2 ⟨p, hp⟩
  constructor
  · intro b hb
    exact h.fresh b (Store.mem_live_free.1 hb).2
  · intro b
    rw [h.destroyed, Removed, Removed, Store.get_free]
    split_ifs with hb
    · simp [hb, hp, hr]
    · rfl
  · exact h.nodup
  · rw [List.nodup_append]
    refine ⟨h.once, List.nodup_singleton a, fun b hb c hc hbc => ?_⟩
    rw [hbc, List.mem_singleton.1 hc] at hb
    exact ((h.freed a).1 hb).2 ha
  · intro b
    rw [List.mem_append, List.mem_singleton, h.freed, Store.mem_live_free]
    constructor
    · rintro (⟨hlt, hb⟩ | rfl)
      · exact ⟨hlt, fun hb' => hb hb'.2⟩
      · exact ⟨h.fresh _ ha, fun hb' => hb'.1 rfl⟩
    · rintro ⟨hlt, hb⟩
      by_cases hba : b = a
      · exact Or.inr hba
      · exact Or.inl ⟨hlt, fun hb' => hb ⟨hba, hb'⟩⟩

/-! ## Reaping -/

theorem reapLoop_spec : ∀ (l : List Addr) (el : PollLoop P), l.Nodup → (∀ a ∈ l, a ∈ el.pollables.live) →
    ∃ m, el.reapLoop l = some { el with pollables := m, freed := el.freed ++ l } ∧
      ∀ a, m.get a = if a ∈ l then none else el.pollables.get a := by
  intro l
  induction l with
  | nil =>
    intro el _ _
    exact ⟨el.pollables, by simp [reapLoop], fun a => by simp⟩
  | cons x l ih =>
    intro el hnd hl
    obtain ⟨p, hp⟩ := Store.mem_live.1 (hl x List.mem_cons_self)
    rw [List.nodup_cons] at hnd
    obtain ⟨m, hrun, hget⟩ := ih { el with pollables := el.pollables.free x, freed := el.freed ++ [x] }
      hnd.2 fun a ha => Store.mem_live_free.2
        ⟨fun hax => hnd.1 (hax ▸ ha), hl a (List.mem_cons_of_mem x ha)⟩
    refine ⟨m, ?_, fun a => ?_⟩
    · rw [reapLoop, pollableFree, hp, Option.map_some, Option.bind_eq_bind, Option.bind_some, hrun]
      simp only [List.append_assoc, List.singleton_append]
    · rw [hget, Store.get_free]
      by_cases hax : a = x
      · simp [hax]
      · simp [hax]

/-- **The reap** frees what was destroyed, and nothing else. -/
theorem Kept.reap (h : el.Kept) :
    ∃ m, el.reapPollables = some { el with
        pollables := m, destroyedPollableList := [], freed := el.freed ++ el.destroyedPollableList } ∧
      (∀ a, m.get a = if a ∈ el.destroyedPollableList then none else el.pollables.get a) ∧
      Kept { el with
        pollables := m, destroyedPollableList := [], freed := el.freed ++ el.destroyedPollableList } := by
  obtain ⟨m, hrun, hget⟩ := reapLoop_spec el.destroyedPollableList el h.nodup
    fun a ha => ((h.destroyed a).1 ha).mem_live
  have hlive : ∀ a, a ∈ m.live ↔ a ∉ el.destroyedPollableList ∧ a ∈ el.pollables.live := by
    intro a
    rw [Store.mem_live, Store.mem_live, hget]
    split_ifs with ha
    · simp [ha]
    · simp [ha]
  refine ⟨m, ?_, hget, ?_⟩
  · rw [reapPollables, hrun]
    rfl
  · constructor
    · intro a ha
      exact h.fresh a ((hlive a).1 ha).2
    · intro a
      constructor
      · intro ha
        exact absurd ha List.not_mem_nil
      · rintro ⟨p, hp, hr⟩
        have hp' := hget a
        rw [hp] at hp'
        split_ifs at hp' with ha
        exact absurd ((h.destroyed a).2 ⟨p, hp'.symm, hr⟩) ha
    · exact List.nodup_nil
    · rw [List.nodup_append]
      refine ⟨h.once, h.nodup, fun a ha b hb hab => ?_⟩
      rw [← hab] at hb
      exact ((h.freed a).1 ha).2 ((h.destroyed a).1 hb).mem_live
    · intro a
      rw [List.mem_append, h.freed, hlive]
      constructor
      · rintro (⟨hlt, ha⟩ | ha)
        · exact ⟨hlt, fun ha' => ha ha'.2⟩
        · exact ⟨h.fresh a ((h.destroyed a).1 ha).mem_live, fun ha' => ha'.1 ha⟩
      · rintro ⟨hlt, ha⟩
        by_cases had : a ∈ el.destroyedPollableList
        · exact Or.inr had
        · exact Or.inl ⟨hlt, fun ha' => ha ⟨had, ha'⟩⟩

/-- The reap leaves live pollables and the backend as they are. -/
theorem Kept.reap_live (h : el.Kept) :
    ∃ el', el.reapPollables = some el' ∧ el'.poller = el.poller ∧
      (∀ b r, r.removed = false → (el'.pollables.get b = some r ↔ el.pollables.get b = some r)) ∧ el'.Kept := by
  obtain ⟨m, hrun, hget, hk⟩ := h.reap
  refine ⟨_, hrun, rfl, fun b r hr => ?_, hk⟩
  dsimp only
  rw [hget]
  split_ifs with hb
  · exact ⟨fun hb' => hb'.elim, fun hb' => absurd ((h.destroyed b).1 hb) (Live.not_removed ⟨r, hb', hr⟩)⟩
  · exact Iff.rfl

end PollLoop

end Mowgli
