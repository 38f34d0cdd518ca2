import Mowgli.Eventloop.Pollable.Dispatch
/-!
# Callbacks for another slot's event

Callbacks may create pollables, set the functions of any, and destroy those that
are listed. What comes to the list that way is walked like the rest, and looks
at the entry of the slot it has: 0 if it is new, and else what it was given in
some round before. That entry is another pollable's.
-/

namespace Mowgli

namespace PollTurn

/-- The node that the walk has read. -/
def rest : PollTurn → Option Addr
  | .idle => none
  | .next _ tn | .calling _ _ _ tn | .between _ _ tn => tn

/-- What the walk looks at is in `W`. -/
def In (W : Addr → Prop) : PollTurn → Prop
  | .idle => True
  | .next n tn => W n ∧ ∀ m, tn = some m → W m
  | .calling dir a _ tn => dir ≠ .error ∧ W a ∧ ∀ m, tn = some m → W m
  | .between a _ tn => W a ∧ ∀ m, tn = some m → W m

theorem In.mono {W W' : Addr → Prop} {t : PollTurn} (h : t.In W) (hsub : ∀ b, W b → W' b) : t.In W' := by
  match t, h with
  | .idle, _ => trivial
  | .next n tn, h => exact ⟨hsub n h.1, fun m hm => hsub m (h.2 m hm)⟩
  | .calling dir a slot tn, h => exact ⟨h.1, hsub a h.2.1, fun m hm => hsub m (h.2.2 m hm)⟩
  | .between a slot tn, h => exact ⟨hsub a h.1, fun m hm => hsub m (h.2 m hm)⟩

theorem In.rest {W : Addr → Prop} {t : PollTurn} (h : t.In W) : ∀ m, t.rest = some m → W m := by
  match t, h with
  | .idle, _ => exact nofun
  | .next n tn, h => exact h.2
  | .calling dir a slot tn, h => exact h.2.2
  | .between a slot tn, h => exact h.2

end PollTurn

namespace PollLoop

variable {el el' : PollLoop MowgliList} {a b : Addr} {p : Pollable} {xs : List Addr} {W : Addr → Prop}

/-- The way on from the nodes of `W` does not lead out of it. -/
def Closed (m : Store Pollable) (W : Addr → Prop) : Prop :=
  ∀ w, W w → ∃ p, m.get w = some p ∧ p.node.data = some w ∧ ∀ n, p.node.next = some n → W n

theorem Ordered.closed (h : el.Ordered xs) : Closed el.pollables (· ∈ xs) := by
  intro w hw
  obtain ⟨p, hp, hd, -⟩ := h.cell hw
  obtain ⟨ys, zs, rfl⟩ := List.append_of_mem hw
  obtain ⟨p', hp', hnext⟩ := h.holds.next_eq
  obtain rfl := Option.some.inj (hp.symm.trans hp')
  refine ⟨p, hp, hd, fun n hn => ?_⟩
  have hhead : zs.head? = some n := hnext.symm.trans hn
  exact List.mem_append_right _ (List.mem_cons_of_mem w (List.mem_of_head? hhead))

/-- A call changes the way on for the nodes of the list only. -/
theorem Closed.relinks (h : Closed el.pollables W) (hrel : Relinks el el' a xs) :
    Closed el'.pollables fun b => W b ∨ b ∈ xs := by
  intro w hw
  by_cases hwx : w ∈ xs
  · obtain ⟨p, hp, hd, hnext⟩ := hrel.ordered.closed w hwx
    exact ⟨p, hp, hd, fun n hn => Or.inr (hnext n hn)⟩
  · obtain ⟨p, hp, hd, hnext⟩ := h w (hw.resolve_right hwx)
    obtain ⟨hlinks, hdata⟩ := hrel.nodes w hwx
    rw [NodeField.data, NodeField.data, hp, Option.map_some, Option.map_eq_some_iff] at hdata
    obtain ⟨q, hq, hqd⟩ := hdata
    rw [NodeField.links, NodeField.links, hp, hq, Option.map_some, Option.map_some, Option.some_inj,
      Prod.mk.injEq] at hlinks
    have hqn : q.node.next = p.node.next := hlinks.2
    exact ⟨q, hq, hqd.trans hd, fun n hn => Or.inl (hnext n (hqn.symm.trans hn))⟩

/-- A new pollable is on no list. -/
theorem Ordered.create (h : el.Ordered xs) (hk : el.Kept) (fd : ℤ) (userdata : Option Addr) :
    (el.pollableCreate fd userdata).2.Ordered xs := by
  have hne : ∀ b ∈ xs, b ≠ el.allocated := by
    rintro b hb rfl
    exact hk.not_live_allocated (h.holds.mem_live hb)
  have hget : ∀ b ≠ el.allocated, (el.pollableCreate fd userdata).2.pollables.get b = el.pollables.get b :=
    fun b hb => Store.get_set_of_ne _ _ hb
  refine ⟨h.holds.congr fun b hb => ?_, fun b => ?_, fun b hb => ?_⟩
  · rw [NodeField.links, NodeField.links, hget b (hne b hb)]
  · by_cases hb : b = el.allocated
    · subst hb
      constructor
      · exact fun hmem => absurd rfl (hne _ hmem)
      · exact fun hpolled => absurd ((polled_iff (Store.get_set_self ..)).1 hpolled).2 Bool.false_ne_true
    · rw [h.polled, polled_congr (hget b hb)]
  · rw [NodeField.data, hget b (hne b hb)]
    exact h.data b hb

theorem Closed.create (h : Closed el.pollables W) (hk : el.Kept) (fd : ℤ) (userdata : Option Addr) :
    Closed (el.pollableCreate fd userdata).2.pollables W := by
  intro w hw
  obtain ⟨p, hp, hp'⟩ := h w hw
  have hne : w ≠ el.allocated := by
    rintro rfl
    exact hk.not_live_allocated (Store.mem_live.2 ⟨p, hp⟩)
  exact ⟨p, (Store.get_set_of_ne _ _ hne).trans hp, hp'⟩

end PollLoop

namespace Dispatch

open PollLoop

/-- The steps of a round with any callbacks. -/
def AnyOk (s : Dispatch) : DispatchStep → Prop
  | .other (.call c) => (∃ dir a slot tn, s.turn = .calling dir a slot tn) ∧ ListedOk s.el (.call c)
  | c => WalkOk s c

variable {s s' s₀ s₁ : Dispatch} {xs ys zs : List Addr} {a b : Addr} {p q : Pollable} {slot : ℕ} {t : PollTurn}
variable {tn : Option Addr} {result : Option (ℕ → BitVec 16)}

theorem WalkOk.any {c : DispatchStep} (h : WalkOk s c) : AnyOk s c := by
  match c, h with
  | .visit, h => exact h
  | .ret, h => exact h

/-- What holds at any time in a round, with any callbacks. -/
structure Sane (s₁ s : Dispatch) : Prop where
  sound : s.Sound
  busy : s.el.processingEvents = true
  pollfds : s.pollfds = s₁.pollfds
  /-- Nothing the walk can come to was freed. -/
  reach : ∃ W, Closed s.el.pollables W ∧ (∀ b, Polled s.el.pollables b → W b) ∧ s.turn.In W

/-- **A call in a callback** has an answer, and frees nothing. -/
theorem Sane.call {c : Call} (h : Sane s₁ s) (hok : ListedOk s.el (.call c)) :
    ∃ r el', pollStep s.el (.call c) = some (r, el') ∧ Sane s₁ { s with el := el' } := by
  obtain ⟨W, hclosed, hpolled, hin⟩ := h.reach
  obtain ⟨r, el', hrun, hsound⟩ := h.sound.other hok
  obtain ⟨xs, hxs⟩ := listed_iff.1 h.sound.listed
  -- what a call relinks is on the list, before or after it
  have hrelinks : ∀ {a xs'}, Relinks s.el el' a xs' → el'.processingEvents = true → Sane s₁ { s with el := el' } := by
    intro a xs' hrel hbusy
    exact ⟨hsound, hbusy, h.pollfds, _, hclosed.relinks hrel, fun b hb => Or.inr ((hrel.ordered.polled b).2 hb),
      hin.mono fun b hb => Or.inl hb⟩
  refine ⟨r, el', hrun, ?_⟩
  match c, hok with
  | .create fd userdata, _ =>
    obtain ⟨-, rfl⟩ := Prod.mk.inj (Option.some.inj hrun)
    refine ⟨hsound, h.busy, h.pollfds, W, hclosed.create h.sound.kept fd userdata, fun b hb => ?_, hin⟩
    exact hpolled b ((hxs.polled b).1 (((hxs.create h.sound.kept fd userdata).polled b).2 hb))
  | .setselect a dir f, ⟨p, hp, hr⟩ =>
    obtain ⟨el₁, n, hset, hlife, hrel, -⟩ := hxs.setselect hp hr dir f
    have hrun' : pollStep s.el (.call (.setselect a dir f)) = some (none, el₁) := congrArg (Option.map _) hset
    rw [hrun, Option.some_inj, Prod.mk.injEq] at hrun'
    obtain rfl := hrun'.2
    exact hrelinks hrel (hlife.processing.trans h.busy)
  | .destroy a, ⟨p, hp, hr, hf⟩ =>
    obtain ⟨el₁, n, hdestroy, hrel, -, hbusy⟩ := hxs.pollableDestroy hp hr hf h.busy
    have hrun' : pollStep s.el (.call (.destroy a)) = some (none, el₁) := congrArg (Option.map _) hdestroy
    rw [hrun, Option.some_inj, Prod.mk.injEq] at hrun'
    obtain rfl := hrun'.2
    exact hrelinks hrel hbusy

/-- Where the walk can get to in a step, and what it calls. -/
inductive Walks (s : Dispatch) : DispatchAnswer → PollTurn → Prop
  /-- It is over. -/
  | ended : s.turn.rest = none → Walks s (.returned none) .idle
  /-- It goes on to the next node. -/
  | on (n : Addr) (x : Pollable) : s.turn.rest = some n → s.el.pollables.get n = some x →
    Walks s (.returned none) (.next n x.node.next)
  /-- The first test calls nothing. -/
  | test (n : Addr) (tn : Option Addr) (p : Pollable) : s.turn = .next n tn → s.el.pollables.get n = some p →
    Walks s (.returned none) (.between n p.slot.toNat tn)
  /-- It calls the read function. -/
  | read (n : Addr) (tn : Option Addr) (p : Pollable) (f : Addr) (userdata : Option Addr) : s.turn = .next n tn →
    s.el.pollables.get n = some p → p.calls (revents s.pollfds p.slot.toNat) .read = some (f, userdata) →
    Walks s (.called n .read f userdata) (.calling .read n p.slot.toNat tn)
  /-- The second test calls the write function. -/
  | write (a : Addr) (slot : ℕ) (tn : Option Addr) (p : Pollable) (f : Addr) (userdata : Option Addr) :
    s.turn = .between a slot tn → s.el.pollables.get a = some p →
    p.calls (revents s.pollfds slot) .write = some (f, userdata) →
    Walks s (.called a .write f userdata) (.calling .write a slot tn)
  /-- The read function returns. -/
  | back (a : Addr) (slot : ℕ) (tn : Option Addr) : s.turn = .calling .read a slot tn →
    Walks s (.returned none) (.between a slot tn)

/-- The walk goes on. -/
theorem walks_advance (hrest : ∀ n, s.turn.rest = some n → ∃ x, s.el.pollables.get n = some x) :
    ∃ b t, s.advance s.turn.rest = some (b, { s with turn := t }) ∧ Walks s b t := by
  cases hn : s.turn.rest with
  | none => exact ⟨_, _, rfl, Walks.ended hn⟩
  | some n =>
    obtain ⟨x, hx⟩ := hrest n hn
    exact ⟨_, _, by rw [advance, hx]; rfl, Walks.on n x hn hx⟩

/-- **A step of the walk** has an answer, and goes where it can. -/
theorem Sane.walk {c : DispatchStep} (h : Sane s₁ s) (hok : WalkOk s c) :
    ∃ b t, step s c = some (b, { s with turn := t }) ∧ Walks s b t := by
  obtain ⟨W, hclosed, -, hin⟩ := h.reach
  have hrest : ∀ n, s.turn.rest = some n → ∃ x, s.el.pollables.get n = some x := by
    intro n hn
    obtain ⟨x, hx, -⟩ := hclosed n (hin.rest n hn)
    exact ⟨x, hx⟩
  obtain ⟨b₀, t₀, hadv, hwalks⟩ := walks_advance hrest
  match c, hok with
  | .visit, .inl ⟨n, tn, hturn⟩ =>
    rw [hturn] at hin hadv
    obtain ⟨p, hp, hd, -⟩ := hclosed n hin.1
    have hvisit := visitNode_eq tn hp hd (h.sound.slots n p hp) h.sound.fits
    rw [step, hturn]
    dsimp only
    rw [hvisit]
    split_ifs with hrev
    · exact ⟨b₀, t₀, hadv, hwalks⟩
    · cases hcall : p.calls (revents s.pollfds p.slot.toNat) .read with
      | none => exact ⟨_, _, rfl, Walks.test n tn p hturn hp⟩
      | some r => exact ⟨_, _, rfl, Walks.read n tn p r.1 r.2 hturn hp hcall⟩
  | .visit, .inr ⟨a, slot, tn, hturn⟩ =>
    rw [hturn] at hin hadv
    obtain ⟨p, hp, -⟩ := hclosed a hin.1
    rw [step, hturn]
    dsimp only
    rw [visitWrite_eq hp]
    cases hcall : p.calls (revents s.pollfds slot) .write with
    | none => exact ⟨b₀, t₀, hadv, hwalks⟩
    | some r => exact ⟨_, _, rfl, Walks.write a slot tn p r.1 r.2 hturn hp hcall⟩
  | .ret, ⟨dir, a, slot, tn, hturn⟩ =>
    rw [hturn] at hin hadv
    rw [step, hturn]
    cases dir with
    | read => exact ⟨_, _, rfl, Walks.back a slot tn hturn⟩
    | write => exact ⟨b₀, t₀, hadv, hwalks⟩
    | error => exact absurd rfl hin.1

/-- Where the walk gets to, nothing was freed. -/
theorem Sane.walks {b : DispatchAnswer} (h : Sane s₁ s) (hw : Walks s b t) : Sane s₁ { s with turn := t } := by
  obtain ⟨W, hclosed, hpolled, hin⟩ := h.reach
  refine ⟨h.sound.at t, h.busy, h.pollfds, W, hclosed, hpolled, ?_⟩
  cases hw with
  | ended => trivial
  | on n x hn hx =>
    obtain ⟨x', hx', -, hnext⟩ := hclosed n (hin.rest n hn)
    obtain rfl := Option.some.inj (hx.symm.trans hx')
    exact ⟨hin.rest n hn, hnext⟩
  | test n tn p hturn hp =>
    rw [hturn] at hin
    exact hin
  | read n tn p f userdata hturn hp hcall =>
    rw [hturn] at hin
    exact ⟨by decide, hin⟩
  | write a slot tn p f userdata hturn hp hcall =>
    rw [hturn] at hin
    exact ⟨by decide, hin⟩
  | back a slot tn hturn =>
    rw [hturn] at hin
    exact hin.2

theorem Sane.isSome {c : DispatchStep} (h : Sane s₁ s) (hok : AnyOk s c) : (step s c).isSome := by
  have hwalk : WalkOk s c → (step s c).isSome := by
    intro hok
    obtain ⟨b, t, hrun, -⟩ := h.walk hok
    exact Option.isSome_iff_exists.2 ⟨_, hrun⟩
  match c, hok with
  | .other (.call c), ⟨⟨dir, a, slot, tn, hturn⟩, hlisted⟩ =>
    obtain ⟨r, el', hrun, -⟩ := h.call hlisted
    rw [step, hturn, PollTurn.callable, if_pos rfl, hrun]
    rfl
  | .visit, hok => exact hwalk hok
  | .ret, hok => exact hwalk hok

/-! ## What an entry is for -/

/-- The descriptor of a pollable had an event for a direction, in the pollable's own
entry. -/
def HadEvent (s₁ : Dispatch) (xs : List Addr) (a : Addr) (dir : IoDir) : Prop :=
  ∃ (i : ℕ) (p : Pollable) (e : Pollfd), xs[i]? = some a ∧ s₁.el.pollables.get a = some p ∧
    s₁.pollfds[i]? = some e ∧ e.fd = p.fd ∧ e.revents &&& dir.pollMask ≠ 0

/-- If there is anything to call for in an entry, the entry is the pollable's own. -/
def Owns (s₁ : Dispatch) (xs : List Addr) (a : Addr) (slot : ℕ) : Prop :=
  ∀ dir : IoDir, revents s₁.pollfds slot &&& dir.pollMask ≠ 0 → xs[slot]? = some a

theorem Owns.hadEvent {dir : IoDir} {f : Addr} {userdata : Option Addr} (h : Owns s₁ xs a slot)
    (hsel : Selected s s₁ xs result) (hcall : q.calls (revents s₁.pollfds slot) dir = some (f, userdata)) :
    HadEvent s₁ xs a dir := by
  have hrev := (calls_eq_some.1 hcall).1
  obtain ⟨p, e, hp, -, hentry, hfd⟩ := hsel.slot slot a (h dir hrev)
  refine ⟨slot, p, e, h dir hrev, hp, hentry, hfd, ?_⟩
  rw [revents, hentry] at hrev
  exact hrev

/-- What is kept through a round in which each callback is for its own entry. -/
structure Preserved (s₁ : Dispatch) (xs : List Addr) (I : Dispatch → Prop) : Prop where
  call : ∀ {s : Dispatch} {c : Call} {r : Option Addr} {el' : PollLoop MowgliList}, Sane s₁ s → I s →
    AnyOk s (.other (.call c)) → pollStep s.el (.call c) = some (r, el') → I { s with el := el' }
  walks : ∀ {s : Dispatch} {b : DispatchAnswer} {t : PollTurn}, Sane s₁ s → I s → Walks s b t → I { s with turn := t }
  own : ∀ {s : Dispatch} {a : Addr} {dir : IoDir} {f : Addr} {userdata : Option Addr} {t : PollTurn}, Sane s₁ s →
    I s → Walks s (.called a dir f userdata) t → HadEvent s₁ xs a dir

/-- **A step of this kind.** -/
theorem Preserved.step {I : Dispatch → Prop} {c : DispatchStep} {b : DispatchAnswer} (hI : Preserved s₁ xs I)
    (hs : Sane s₁ s) (h : I s) (hok : AnyOk s c) (hrun : s.step c = some (b, s')) :
    Sane s₁ s' ∧ I s' ∧ ∀ a dir f userdata, b = .called a dir f userdata → HadEvent s₁ xs a dir := by
  have hwalk : WalkOk s c → Sane s₁ s' ∧ I s' ∧ ∀ a dir f userdata, b = .called a dir f userdata →
      HadEvent s₁ xs a dir := by
    intro hok
    obtain ⟨b', t, hrun', hw⟩ := hs.walk hok
    rw [hrun, Option.some_inj, Prod.mk.injEq] at hrun'
    obtain ⟨rfl, rfl⟩ := hrun'
    refine ⟨hs.walks hw, hI.walks hs h hw, ?_⟩
    rintro a dir f userdata rfl
    exact hI.own hs h hw
  rcases c with (c | x | -) | x | - | -
  · obtain ⟨⟨dir, a, slot, tn, hturn⟩, hlisted⟩ := id hok
    obtain ⟨r, el', hcall, hs'⟩ := hs.call hlisted
    have hrun' : s.step (.other (.call c)) = some (.returned r, { s with el := el' }) := by
      rw [Dispatch.step, hturn, PollTurn.callable, if_pos rfl, hcall]
      rfl
    rw [hrun, Option.some_inj, Prod.mk.injEq] at hrun'
    obtain ⟨rfl, rfl⟩ := hrun'
    refine ⟨hs', hI.call hs h hok hcall, ?_⟩
    rintro a dir f userdata ⟨⟩
  · exact hwalk hok
  · exact hwalk hok
  · exact hwalk hok
  · exact hwalk hok
  · exact hwalk hok

/-- **A whole round of this kind.** -/
theorem Preserved.run {I : Dispatch → Prop} {tr : List (DispatchStep × DispatchAnswer)} (hI : Preserved s₁ xs I)
    (hs : Sane s₁ s₁) (h₁ : I s₁) (h : Run Dispatch.step AnyOk s₁ tr s) :
    Sane s₁ s ∧ I s ∧ ∀ c a dir f userdata, (c, .called a dir f userdata) ∈ tr → HadEvent s₁ xs a dir := by
  induction h with
  | nil => exact ⟨hs, h₁, fun c a dir f userdata hmem => absurd hmem List.not_mem_nil⟩
  | @snoc tr s s' c b _ hok hrun ih =>
    obtain ⟨hsane, hIs, hcalls⟩ := ih
    obtain ⟨hsane', hIs', hcalled⟩ := hI.step hsane hIs hok hrun
    refine ⟨hsane', hIs', fun c' a dir f userdata hmem => ?_⟩
    rcases List.mem_append.1 hmem with hmem | hmem
    · exact hcalls _ _ _ _ _ hmem
    · exact hcalled a dir f userdata (Prod.mk.inj (List.mem_singleton.1 hmem)).2.symm

/-! ## A round that calls only the last pollable -/

/-- Where the round is then. -/
inductive LastOnly (s₁ : Dispatch) (xs : List Addr) : Dispatch → Prop
  | node (ys zs : List Addr) : xs = ys ++ zs → LastOnly s₁ xs { s₁ with turn := turnAt zs }
  | tested (ys zs : List Addr) (b : Addr) (p : Pollable) : xs = ys ++ b :: zs → s₁.el.pollables.get b = some p →
    LastOnly s₁ xs { s₁ with turn := .between b p.slot.toNat zs.head? }
  /-- The last pollable is called, or was. -/
  | last (s : Dispatch) (z : Addr) (slot : ℕ) : Owns s₁ xs z slot →
    ((∃ dir, s.turn = .calling dir z slot none) ∨ s.turn = .between z slot none) → LastOnly s₁ xs s
  | ended (s : Dispatch) : s.turn = .idle → LastOnly s₁ xs s

/-- A pollable of the list has its own slot. -/
theorem owns_of_selected (hsel : Selected s s₁ xs result) (ha : a ∈ xs) (hp : s₁.el.pollables.get a = some p) :
    Owns s₁ xs a p.slot.toNat := by
  intro dir _
  obtain ⟨i, hi⟩ := List.getElem?_of_mem ha
  obtain ⟨p', e, hp', hslot, -⟩ := hsel.slot i a hi
  obtain rfl := Option.some.inj (hp.symm.trans hp')
  rw [hslot]
  exact hi

/-- The walk goes on to the rest of the list, which is as it was. -/
theorem lastOnly_rest {x : Pollable} {n z : Addr} (hxs : s₁.el.Ordered xs) (hcells : xs = ys ++ z :: zs)
    (hn : zs.head? = some n) (hx : s₁.el.pollables.get n = some x) :
    LastOnly s₁ xs { s₁ with turn := .next n x.node.next } := by
  obtain ⟨zs', rfl⟩ := List.head?_eq_some_iff.1 hn
  have hcells' : xs = (ys ++ [z]) ++ n :: zs' := by rw [hcells, List.append_assoc, List.singleton_append]
  have hholds := hxs.holds
  rw [hcells'] at hholds
  obtain ⟨x', hx', hnext⟩ := hholds.next_eq
  obtain rfl := Option.some.inj (hx.symm.trans hx')
  have hnext' : x.node.next = zs'.head? := hnext
  rw [hnext']
  exact LastOnly.node (ys ++ [z]) (n :: zs') hcells'

/-- Only the last is called. -/
theorem lastOnly_call {dir : IoDir} {f z : Addr} {userdata : Option Addr} (hsel : Selected s s₁ xs result)
    (hlast : OnlyLast s₁ xs) (hcells : xs = ys ++ z :: zs)
    (hp : s₁.el.pollables.get z = some p) (hcall : p.calls (revents s₁.pollfds p.slot.toNat) dir = some (f, userdata)) :
    LastOnly s₁ xs { s₁ with turn := .calling dir z p.slot.toNat zs.head? } ∧ HadEvent s₁ xs z dir := by
  have hown : Owns s₁ xs z p.slot.toNat :=
    owns_of_selected hsel (by rw [hcells]; exact List.mem_append_right _ List.mem_cons_self) hp
  cases zs with
  | nil => exact ⟨LastOnly.last _ z _ hown (Or.inl ⟨dir, rfl⟩), hown.hadEvent hsel hcall⟩
  | cons b zs =>
    rw [hlast ys z b zs p dir hcells hp] at hcall
    cases hcall

/-- **A step of the walk** of such a round. -/
theorem LastOnly.walks {s' : Dispatch} {b : DispatchAnswer} (h : LastOnly s₁ xs s') (hsel : Selected s s₁ xs result)
    (hlast : OnlyLast s₁ xs) (hfds : s'.pollfds = s₁.pollfds) (hw : Walks s' b t) :
    LastOnly s₁ xs { s' with turn := t } ∧ ∀ a dir f userdata, b = .called a dir f userdata → HadEvent s₁ xs a dir := by
  cases h with
  | node ys zs hcells =>
    cases zs with
    | nil =>
      cases hw with
      | ended hrest => exact ⟨LastOnly.ended _ rfl, nofun⟩
      | on n x hrest => cases hrest
      | test n tn p hturn => cases hturn
      | read n tn p f userdata hturn => cases hturn
      | write a slot tn p f userdata hturn => cases hturn
      | back a slot tn hturn => cases hturn
    | cons z zs =>
      cases hw with
      | ended hrest => exact ⟨LastOnly.ended _ rfl, nofun⟩
      | on n x hrest hx => exact ⟨lastOnly_rest hsel.ordered hcells hrest hx, nofun⟩
      | test n tn p hturn hp =>
        obtain ⟨rfl, rfl⟩ := PollTurn.next.inj hturn
        exact ⟨LastOnly.tested ys zs z p hcells hp, nofun⟩
      | read n tn p f userdata hturn hp hcall =>
        obtain ⟨rfl, rfl⟩ := PollTurn.next.inj hturn
        obtain ⟨hnext, hhad⟩ := lastOnly_call hsel hlast hcells hp hcall
        refine ⟨hnext, fun a dir f userdata heq => ?_⟩
        obtain ⟨rfl, rfl, -⟩ := DispatchAnswer.called.inj heq
        exact hhad
      | write a slot tn p f userdata hturn => cases hturn
      | back a slot tn hturn => cases hturn
  | tested ys zs z p hcells hp =>
    cases hw with
    | ended hrest => exact ⟨LastOnly.ended _ rfl, nofun⟩
    | on n x hrest hx => exact ⟨lastOnly_rest hsel.ordered hcells hrest hx, nofun⟩
    | test n tn p hturn => cases hturn
    | read n tn p f userdata hturn => cases hturn
    | write a slot tn q f userdata hturn hq hcall =>
      obtain ⟨rfl, rfl, rfl⟩ := PollTurn.between.inj hturn
      obtain rfl := Option.some.inj (hp.symm.trans hq)
      obtain ⟨hnext, hhad⟩ := lastOnly_call hsel hlast hcells hp hcall
      refine ⟨hnext, fun a dir f userdata heq => ?_⟩
      obtain ⟨rfl, rfl, -⟩ := DispatchAnswer.called.inj heq
      exact hhad
    | back a slot tn hturn => cases hturn
  | last s' z slot hown hturn =>
    have hrest : s'.turn.rest = none := by
      rcases hturn with ⟨dir, hturn⟩ | hturn <;> rw [hturn] <;> rfl
    cases hw with
    | ended => exact ⟨LastOnly.ended _ rfl, nofun⟩
    | on n x hrest' => cases hrest.symm.trans hrest'
    | test n tn p hturn' => rcases hturn with ⟨dir, hturn⟩ | hturn <;> cases hturn.symm.trans hturn'
    | read n tn p f userdata hturn' => rcases hturn with ⟨dir, hturn⟩ | hturn <;> cases hturn.symm.trans hturn'
    | write a slot tn q f userdata hturn' hq hcall =>
      rcases hturn with ⟨dir, hturn⟩ | hturn
      · cases hturn.symm.trans hturn'
      · obtain ⟨rfl, rfl, rfl⟩ := PollTurn.between.inj (hturn.symm.trans hturn')
        refine ⟨LastOnly.last _ z slot hown (Or.inl ⟨.write, rfl⟩), fun a dir f userdata heq => ?_⟩
        obtain ⟨rfl, rfl, -⟩ := DispatchAnswer.called.inj heq
        rw [hfds] at hcall
        exact hown.hadEvent hsel hcall
    | back a slot tn hturn' =>
      rcases hturn with ⟨dir, hturn⟩ | hturn
      · obtain ⟨-, rfl, rfl, rfl⟩ := PollTurn.calling.inj (hturn.symm.trans hturn')
        exact ⟨LastOnly.last _ z slot hown (Or.inr rfl), nofun⟩
      · cases hturn.symm.trans hturn'
  | ended s' hturn =>
    cases hw with
    | ended => exact ⟨LastOnly.ended _ rfl, nofun⟩
    | on n x hrest => rw [hturn] at hrest; cases hrest
    | test n tn p hturn' => cases hturn.symm.trans hturn'
    | read n tn p f userdata hturn' => cases hturn.symm.trans hturn'
    | write a slot tn p f userdata hturn' => cases hturn.symm.trans hturn'
    | back a slot tn hturn' => cases hturn.symm.trans hturn'

/-- A call in a callback of such a round. -/
theorem LastOnly.call {s' : Dispatch} {dir : IoDir} (h : LastOnly s₁ xs s') (hturn : s'.turn = .calling dir a slot tn)
    (el' : PollLoop MowgliList) : LastOnly s₁ xs { s' with el := el' } := by
  cases h with
  | node ys zs => cases zs <;> cases hturn
  | tested ys zs b p => cases hturn
  | last s' z slot hown hturn' => exact LastOnly.last _ z slot hown hturn'
  | ended s' hturn' => cases hturn.symm.trans hturn'

theorem preserved_lastOnly (hsel : Selected s s₁ xs result) (hlast : OnlyLast s₁ xs) :
    Preserved s₁ xs (LastOnly s₁ xs) where
  call _ h hok _ := by
    obtain ⟨⟨dir, a, slot, tn, hturn⟩, -⟩ := hok
    exact h.call hturn _
  walks hs h hw := (h.walks hsel hlast hs.pollfds hw).1
  own hs h hw := (h.walks hsel hlast hs.pollfds hw).2 _ _ _ _ rfl

/-! ## A round in which each slot is the pollable's own -/

/-- What a round calls from has an entry of its own, or one with nothing to call for. -/
structure OwnSlots (s₁ : Dispatch) (xs : List Addr) (s : Dispatch) : Prop where
  slots : ∀ b p, s.el.pollables.get b = some p → p.removed = false → Owns s₁ xs b p.slot.toNat
  turn : ∀ a slot tn, s.turn = .between a slot tn ∨ (∃ dir, s.turn = .calling dir a slot tn) →
    s.el.Live a → Owns s₁ xs a slot

/-- The pollable that a round is at was not freed. -/
theorem Sane.turn_live (h : Sane s₁ s)
    (hturn : s.turn = .between a slot tn ∨ ∃ dir, s.turn = .calling dir a slot tn) : a ∈ s.el.pollables.live := by
  obtain ⟨W, hclosed, -, hin⟩ := h.reach
  have ha : W a := by
    rcases hturn with hturn | ⟨dir, hturn⟩
    · rw [hturn] at hin
      exact hin.1
    · rw [hturn] at hin
      exact hin.2.1
  obtain ⟨p, hp, -⟩ := hclosed a ha
  exact Store.mem_live.2 ⟨p, hp⟩

/-- A call in a callback: new pollables have slot 0, and the others keep theirs. -/
theorem OwnSlots.call {c : Call} {r : Option Addr} {el' : PollLoop MowgliList} (h : OwnSlots s₁ xs s)
    (hzero : ∀ dir : IoDir, revents s₁.pollfds 0 &&& dir.pollMask = 0) (hs : Sane s₁ s)
    (hok : ListedOk s.el (.call c)) (hrun : pollStep s.el (.call c) = some (r, el')) :
    OwnSlots s₁ xs { s with el := el' } := by
  refine ⟨fun b q hq hr => ?_, fun b slot tn hturn hlive => ?_⟩
  · rcases slot_step hs.sound.listed hs.sound.kept hok hrun hq with ⟨-, hslot⟩ | ⟨p, hp, hslot, hremoved⟩
    · rw [hslot]
      exact fun dir hrev => absurd (hzero dir) hrev
    · rw [← hslot]
      exact h.slots b p hp (hremoved hr)
  · obtain ⟨q, hq, hr⟩ := hlive
    have hold := hs.sound.kept.fresh b (hs.turn_live hturn)
    rcases slot_step hs.sound.listed hs.sound.kept hok hrun hq with ⟨hnew, -⟩ | ⟨p, hp, -, hremoved⟩
    · exact absurd hnew (Nat.ne_of_lt hold)
    · exact h.turn b slot tn hturn ⟨p, hp, hremoved hr⟩

theorem OwnSlots.walks {b : DispatchAnswer} (h : OwnSlots s₁ xs s) (hw : Walks s b t) :
    OwnSlots s₁ xs { s with turn := t } := by
  refine ⟨h.slots, fun a slot tn hturn hlive => ?_⟩
  have hslots : ∀ p, s.el.pollables.get a = some p → Owns s₁ xs a p.slot.toNat := by
    intro p hp
    obtain ⟨q, hq, hr⟩ := hlive
    obtain rfl := Option.some.inj (hp.symm.trans hq)
    exact h.slots a p hp hr
  cases hw with
  | ended => rcases hturn with hturn | ⟨dir, hturn⟩ <;> cases hturn
  | on n x => rcases hturn with hturn | ⟨dir, hturn⟩ <;> cases hturn
  | test n tn' p hturn' hp =>
    rcases hturn with hturn | ⟨dir, hturn⟩
    · obtain ⟨rfl, rfl, -⟩ := PollTurn.between.inj hturn
      exact hslots p hp
    · cases hturn
  | read n tn' p f userdata hturn' hp =>
    rcases hturn with hturn | ⟨dir, hturn⟩
    · cases hturn
    · obtain ⟨-, rfl, rfl, -⟩ := PollTurn.calling.inj hturn
      exact hslots p hp
  | write a' slot' tn' p f userdata hturn' =>
    rcases hturn with hturn | ⟨dir, hturn⟩
    · cases hturn
    · obtain ⟨-, rfl, rfl, -⟩ := PollTurn.calling.inj hturn
      exact h.turn _ _ _ (Or.inl hturn') hlive
  | back a' slot' tn' hturn' =>
    rcases hturn with hturn | ⟨dir, hturn⟩
    · obtain ⟨rfl, rfl, -⟩ := PollTurn.between.inj hturn
      exact h.turn _ _ _ (Or.inr ⟨.read, hturn'⟩) hlive
    · cases hturn

theorem OwnSlots.hadEvent {dir : IoDir} {f : Addr} {userdata : Option Addr} (h : OwnSlots s₁ xs s)
    (hsel : Selected s₀ s₁ xs result) (hfds : s.pollfds = s₁.pollfds) (hw : Walks s (.called a dir f userdata) t) :
    HadEvent s₁ xs a dir := by
  cases hw with
  | read n tn p f userdata hturn hp hcall =>
    rw [hfds] at hcall
    exact (h.slots a p hp (calls_eq_some.1 hcall).2.1).hadEvent hsel hcall
  | write a slot tn p f userdata hturn hp hcall =>
    rw [hfds] at hcall
    exact (h.turn a slot tn (Or.inl hturn) ⟨p, hp, (calls_eq_some.1 hcall).2.1⟩).hadEvent hsel hcall

theorem preserved_ownSlots (hsel : Selected s₀ s₁ xs result)
    (hzero : ∀ dir : IoDir, revents s₁.pollfds 0 &&& dir.pollMask = 0) : Preserved s₁ xs (OwnSlots s₁ xs) where
  call hs h hok hrun := h.call hzero hs hok.2 hrun
  walks _ h hw := h.walks hw
  own hs h hw := h.hadEvent hsel hs.pollfds hw

/-- What the pollables are called for is in entries of their own, so long as nothing is in
the entry of a new pollable, or of one that was not polled. -/
def NothingForeign (s : Dispatch) (xs : List Addr) (result : Option (ℕ → BitVec 16)) : Prop :=
  (∀ dir : IoDir, polled result xs.length 0 &&& dir.pollMask = 0) ∧
    ∀ (c : Addr) (p : Pollable) (dir : IoDir), s.el.pollables.get c = some p → p.removed = false → c ∉ xs →
      polled result xs.length p.slot.toNat &&& dir.pollMask = 0

theorem ownSlots_of_selected (hsel : Selected s s₁ xs result) (hno : NothingForeign s xs result) :
    OwnSlots s₁ xs s₁ := by
  refine ⟨fun b p hp hr => ?_, fun a slot tn hturn => ?_⟩
  · by_cases hb : b ∈ xs
    · exact owns_of_selected hsel hb hp
    · intro dir hrev
      rw [hsel.entries] at hrev
      rw [hsel.others b hb] at hp
      exact absurd (hno.2 b p dir hp hr hb) hrev
  · rw [hsel.turn] at hturn
    split_ifs at hturn
    · rcases hturn with hturn | ⟨dir, hturn⟩ <;> cases xs <;> cases hturn
    · rcases hturn with hturn | ⟨dir, hturn⟩ <;> cases hturn

/-! ## A round in which one is not -/

/-- **A pollable that a callback puts on the list** is called for what is in the entry of its
slot. -/
theorem foreign_called {c : Addr} {dir : IoDir} (dir' : IoDir) (hs : s.Sound) (hxs : s.el.Ordered (ys ++ a :: b :: zs))
    (hturn : s.turn = .calling dir a slot (some b)) (hdir : dir ≠ .error) (hq : s.el.pollables.get c = some q)
    (hr : q.removed = false) (hc : c ∉ ys ++ a :: b :: zs)
    (hrev : revents s.pollfds q.slot.toNat &&& dir'.pollMask ≠ 0) :
    ∃ tr s' f userdata, Run step AnyOk s (tr ++ [(.visit, .called c dir' f userdata)]) s' := by
  have hdir' : dir' ≠ .error := by
    rintro rfl
    exact hrev BitVec.and_zero
  have ha : a ∈ ys ++ a :: b :: zs := List.mem_append_right _ List.mem_cons_self
  obtain ⟨p, hp, -⟩ := hxs.cell ha
  -- the callback sets a function of `c`, which comes to the end of the list
  obtain ⟨el', n, hset, -, hrel, hq'⟩ := hxs.setselect hq hr dir' (some 0)
  have hord := hrel.ordered
  rw [setFunction_hasFunction hdir', if_pos rfl, List.erase_of_not_mem hc] at hord
  obtain ⟨hrun₁, hs', -⟩ := step_setselect hs ⟨q, hq, hr⟩ (hturn ▸ rfl) hset
  -- it returns, and the walk passes what was on the list
  obtain ⟨p', hp'⟩ : ∃ p', el'.pollables.get a = some p' := by
    have hcore := hrel.others a fun hac => hc (hac ▸ ha)
    rw [hp, Option.map_some, Option.map_eq_some_iff] at hcore
    obtain ⟨p', hp', -⟩ := hcore
    exact ⟨p', hp'⟩
  have hcells : ys ++ a :: b :: zs ++ [c] = (ys ++ [a]) ++ (b :: zs ++ [c]) := by simp
  have hnext := advance_eq (s := { s with el := el' }) (ys ++ [a]) (b :: zs ++ [c])
    (hcells ▸ hord.holds)
  obtain ⟨tr₂, hrun₂⟩ := walk_calling (s := { s with el := el' }) slot hp' hdir hnext
  obtain ⟨tr₃, hrun₃⟩ := walk_nodes (s := { s with el := el' }) hs' (b :: zs) (ys ++ [a]) [c]
    (by rw [List.append_assoc]; exact hcells ▸ hord)
  -- and comes to `c`
  have hcalls : Pollable.calls { q.setFunction dir' (some 0) with node := n } (revents s.pollfds q.slot.toNat) dir' =
      some (0, q.userdata) := by
    rw [calls_eq_some]
    cases dir' with
    | read => exact ⟨hrev, hr, rfl, rfl⟩
    | write => exact ⟨hrev, hr, rfl, rfl⟩
    | error => exact absurd rfl hdir'
  have hslot : ({ q.setFunction dir' (some 0) with node := n } : Pollable).slot = q.slot := by
    cases dir' <;> rfl
  obtain ⟨tr₄, hrun₄⟩ := walk_call (s := { s with el := el' }) none hs' hord
    (List.mem_append_right _ (List.mem_singleton_self c)) hq' (by rw [hslot]; exact hcalls)
  have hany : ∀ s c, WalkOk s c → AnyOk s c := fun _ _ => WalkOk.any
  have hback : Run step WalkOk { s with el := el' } tr₂ { s with el := el', turn := turnAt (b :: zs ++ [c]) } := by
    rw [show ({ s with el := el' } : Dispatch) = { s with el := el', turn := .calling dir a slot (some b) } by
      rw [← hturn]]
    exact hrun₂
  have hok : AnyOk s (.other (.call (.setselect c dir' (some 0)))) := ⟨⟨dir, a, slot, _, hturn⟩, ⟨q, hq, hr⟩⟩
  have hfirst := (Run.one hok hrun₁).trans (hback.mono hany)
  have hall := (hfirst.trans (hrun₃.mono hany)).trans (hrun₄.mono hany)
  rw [← List.append_assoc] at hall
  exact ⟨_, _, _, _, hall⟩

/-- A callback that is not the last to be called has a pollable called that had no event, if
there is something in an entry that is not its own. -/
theorem foreign_run {dir : IoDir} {f : Addr} {userdata : Option Addr} (hsel : Selected s s₁ xs result)
    (hcells : xs = ys ++ a :: b :: zs) (hp : s₁.el.pollables.get a = some p)
    (hcall : p.calls (revents s₁.pollfds p.slot.toNat) dir = some (f, userdata)) (hno : ¬ NothingForeign s xs result) :
    ∃ tr s' c d f userdata, Run step AnyOk s₁ (tr ++ [(.visit, .called c d f userdata)]) s' ∧ c ∉ xs := by
  have hany : ∀ s c, WalkOk s c → AnyOk s c := fun _ _ => WalkOk.any
  have hs := hsel.sound
  have hxs := hsel.ordered
  have hturn := hsel.turn_of_calls hcall
  rw [hcells] at hxs hturn
  have hdir := dir_of_calls hcall
  -- the walk comes to `a`, and calls it
  obtain ⟨tr₁, hrun₁⟩ := walk_nodes hs ys [] (a :: b :: zs) hxs
  obtain ⟨tr₂, hrun₂⟩ := walk_call (some b) hs hxs
    (List.mem_append_right _ List.mem_cons_self) hp hcall
  have hfirst := ((hrun₁.trans hrun₂).mono hany)
  rw [show { s₁ with turn := turnAt (ys ++ a :: b :: zs) } = s₁ by rw [← hturn]] at hfirst
  rw [NothingForeign, not_and_or] at hno
  rcases hno with hnew | hstale
  · -- the callback creates a pollable
    rw [not_forall] at hnew
    obtain ⟨d, hrev⟩ := hnew
    have hfresh : s₁.el.allocated ∉ xs := by
      intro hmem
      exact hs.kept.not_live_allocated (hsel.ordered.holds.mem_live hmem)
    obtain ⟨r', el', hcreate, hs'⟩ := (hs.at (.calling dir a p.slot.toNat (some b))).other
      (c := .call (.create 0 none)) trivial
    obtain ⟨rfl, rfl⟩ := Prod.mk.inj (Option.some.inj hcreate)
    have hrun₃ : step { s₁ with turn := .calling dir a p.slot.toNat (some b) } (.other (.call (.create 0 none))) =
        some (.returned (some s₁.el.allocated), ⟨(s₁.el.pollableCreate 0 none).2, s₁.pollfds,
          .calling dir a p.slot.toNat (some b)⟩) := rfl
    have hok : AnyOk { s₁ with turn := .calling dir a p.slot.toNat (some b) } (.other (.call (.create 0 none))) :=
      ⟨⟨dir, a, _, _, rfl⟩, trivial⟩
    obtain ⟨tr₄, s', f, userdata, hrun₄⟩ := foreign_called (c := s₁.el.allocated) d hs'
      (hxs.create hs.kept 0 none) rfl hdir (Store.get_set_self ..) rfl (hcells ▸ hfresh)
      (by
        have hentry := hsel.entries 0
        exact fun hz => hrev ((congrArg (· &&& d.pollMask) hentry).symm.trans hz))
    have hall := (hfirst.snoc hok hrun₃).trans hrun₄
    rw [← List.append_assoc] at hall
    exact ⟨_, _, _, _, _, _, hall, hfresh⟩
  · -- the callback sets one that was not polled
    push Not at hstale
    obtain ⟨c, q, d, hq, hr, hc, hrev⟩ := hstale
    rw [← hsel.others c hc] at hq
    rw [← hsel.entries] at hrev
    obtain ⟨tr₄, s', f, userdata, hrun₄⟩ := foreign_called (c := c) d
      (hs.at (.calling dir a p.slot.toNat (some b))) hxs rfl hdir hq hr (hcells ▸ hc) hrev
    have hall := hfirst.trans hrun₄
    rw [← List.append_assoc] at hall
    exact ⟨_, _, _, _, _, _, hall, hc⟩

/-- A round calls pollables for events of their own descriptors only, whatever its
callbacks do. -/
def CallsOwn (s : Dispatch) (xs : List Addr) (result : Option (ℕ → BitVec 16)) : Prop :=
  ∃ s₁, step s (.select result) = some (.returned none, s₁) ∧ ∀ tr s', Run step AnyOk s₁ tr s' →
    (∀ c a dir f userdata, (c, .called a dir f userdata) ∈ tr → HadEvent s₁ xs a dir) ∧
    ∀ c, AnyOk s' c → (step s' c).isSome

theorem Selected.sane (hsel : Selected s s₁ xs result) (hbusy : s.el.processingEvents = true) : Sane s₁ s₁ := by
  refine ⟨hsel.sound, hsel.life.processing.trans hbusy, rfl, (· ∈ xs), hsel.ordered.closed,
    fun b hb => (hsel.ordered.polled b).2 hb, ?_⟩
  rw [hsel.turn]
  split_ifs
  · cases xs with
    | nil => trivial
    | cons x xs => exact ⟨List.mem_cons_self, fun m hm => List.mem_cons_of_mem x (List.mem_of_head? hm)⟩
  · trivial

/-- **When a round calls nothing for another's slot.** -/
theorem Sound.callsOwn_iff (hs : s.Sound) (hturn : s.turn = .idle) (hbusy : s.el.processingEvents = true)
    (hxs : s.el.Ordered xs) : CallsOwn s xs result ↔
      xs.length ≤ FD_SETSIZE ∧ (QuietBeforeLast s xs result ∨ NothingForeign s xs result) := by
  obtain ⟨hfits, hlong⟩ := select_spec hs hxs hturn result
  constructor
  · rintro ⟨s₁, hsel, hruns⟩
    have hle : xs.length ≤ FD_SETSIZE := by
      by_contra hlt
      exact absurd (hsel.symm.trans (hlong (Nat.lt_of_not_le hlt))) (Option.some_ne_none _)
    obtain ⟨s₁', hsel', hspec⟩ := hfits hle
    rw [hsel, Option.some_inj, Prod.mk.injEq] at hsel'
    obtain rfl := hsel'.2
    refine ⟨hle, ?_⟩
    rw [← hspec.onlyLast_iff hxs, or_iff_not_imp_right]
    intro hno ys a b zs q dir hcells hq
    by_contra hne
    obtain ⟨⟨g, u⟩, hcall⟩ := Option.ne_none_iff_exists'.1 hne
    obtain ⟨tr, s', c, d, f, userdata, hrun, hc⟩ := foreign_run hspec hcells hq hcall hno
    obtain ⟨i, -, -, hi, -⟩ := (hruns _ _ hrun).1 .visit c d f userdata (by simp)
    exact hc (List.mem_of_getElem? hi)
  · rintro ⟨hle, hcond⟩
    obtain ⟨s₁, hsel, hspec⟩ := hfits hle
    have hsane := hspec.sane hbusy
    refine ⟨s₁, hsel, fun tr s' hrun => ?_⟩
    have hrun' : Sane s₁ s' ∧ ∀ c a dir f userdata, (c, .called a dir f userdata) ∈ tr → HadEvent s₁ xs a dir := by
      rcases hcond with hquiet | hno
      · have hlast := (hspec.onlyLast_iff hxs).2 hquiet
        have h₁ : LastOnly s₁ xs s₁ := by
          have hturn₁ := hspec.turn
          split_ifs at hturn₁ with hres
          · have hnode : LastOnly s₁ xs _ := LastOnly.node [] xs rfl
            rwa [← hturn₁] at hnode
          · exact LastOnly.ended s₁ hturn₁
        obtain ⟨hs', -, hcalls⟩ := (preserved_lastOnly hspec hlast).run hsane h₁ hrun
        exact ⟨hs', hcalls⟩
      · have hzero : ∀ dir : IoDir, revents s₁.pollfds 0 &&& dir.pollMask = 0 := by
          intro dir
          rw [hspec.entries]
          exact hno.1 dir
        obtain ⟨hs', -, hcalls⟩ := (preserved_ownSlots hspec hzero).run hsane (ownSlots_of_selected hspec hno) hrun
        exact ⟨hs', hcalls⟩
    exact ⟨hrun'.2, fun c hok => hrun'.1.isSome hok⟩

/-- **And that in every run**, at each round: a round calls nothing for an event of
another's, whatever its callbacks do, just when the array has room for the pollables of the
list, and either none but the last has a function for what is in its entry, or there is
nothing in the first entry, nor in the slot of one that is not polled. -/
theorem runs_callsOwn_iff {tr : List (DispatchStep × DispatchAnswer)} (h : Run step DispatchOk start tr s)
    (hturn : s.turn = .idle) (hbusy : s.el.processingEvents = true) (hxs : s.el.Ordered xs)
    (result : Option (ℕ → BitVec 16)) : CallsOwn s xs result ↔
      xs.length ≤ FD_SETSIZE ∧ (QuietBeforeLast s xs result ∨ NothingForeign s xs result) :=
  (runs_sound h).callsOwn_iff hturn hbusy hxs

/-- Of two pollables the second has something to read: the callbacks may do what they want. -/
theorem runs_callsOwn_two : ∃ tr s, Run step DispatchOk start tr s ∧ s.el.Ordered [0, 1] ∧
    CallsOwn s [0, 1] (some fun i => if i = 1 then POLLIN else 0) := by
  obtain ⟨tr, s, h, hturn, hbusy, halloc, hxs⟩ := exists_runs_two
  refine ⟨tr, s, h, hxs, (runs_callsOwn_iff h hturn hbusy hxs _).2 ⟨by decide, Or.inr ⟨fun dir => ?_, fun c p dir hp _ hc => ?_⟩⟩⟩
  · cases dir <;> decide
  · -- there are no others
    have hlt := (runs_sound h).kept.fresh c (Store.mem_live.2 ⟨p, hp⟩)
    rw [halloc] at hlt
    rcases hlt with _ | hlt
    · exact absurd (List.mem_cons_of_mem 0 (List.mem_singleton.2 rfl)) hc
    · rw [Nat.le_zero.1 (Nat.le_of_succ_le_succ hlt)] at hc
      exact absurd List.mem_cons_self hc

theorem any_nil {tr : List (DispatchStep × DispatchAnswer)} (_ : Run step DispatchOk start tr s) :
    Run step AnyOk s [] s := Run.nil

/-- **A pollable that is called for another's event.** Of two pollables the first has something
to read, and its callback creates a third, with a read function. The third is called. -/
theorem runs_foreign_called : ∃ tr s xs, Run step DispatchOk start tr s ∧ s.turn = .idle ∧
    s.el.processingEvents = true ∧ s.el.Ordered xs ∧
    ¬ CallsOwn s xs (some fun i => if i = 0 then POLLIN else 0) := by
  have h₁ : Run step DispatchOk start ([] ++ [(.other (.call (.create 5 none)), .returned (some 0))]) _ :=
    Run.nil.snoc ⟨rfl, trivial⟩ rfl
  have h₂ := h₁.snoc (a := .other (.call (.create 6 none))) (b := .returned (some 1)) (by exact ⟨rfl, trivial⟩) rfl
  have h₃ := h₂.snoc (a := .other (.call (.setselect 0 .read (some 7)))) (b := .returned none)
    (by exact ⟨rfl, _, rfl, rfl⟩) rfl
  have h₄ := h₃.snoc (a := .other (.call (.setselect 1 .read (some 8)))) (b := .returned none)
    (by exact ⟨rfl, _, rfl, rfl⟩) rfl
  have h₅ := h₄.snoc (a := .other (.processing true)) (b := .returned none) (by exact rfl) rfl
  have h₆ := h₅.snoc (a := .select (some fun i => if i = 0 then POLLIN else 0)) (b := .returned none)
    (by exact rfl) rfl
  have r₁ := (any_nil h₆).snoc (a := .visit) (b := .called 0 .read 7 none) (by exact Or.inl ⟨_, _, rfl⟩) rfl
  have r₂ := r₁.snoc (a := .other (.call (.create 9 none))) (b := .returned (some 2))
    (by exact ⟨⟨_, _, _, _, rfl⟩, trivial⟩) rfl
  have r₃ := r₂.snoc (a := .other (.call (.setselect 2 .read (some 10)))) (b := .returned none)
    (by exact ⟨⟨_, _, _, _, rfl⟩, _, rfl, rfl⟩) rfl
  have r₄ := r₃.snoc (a := .ret) (b := .returned none) (by exact ⟨_, _, _, _, rfl⟩) rfl
  have r₅ := r₄.snoc (a := .visit) (b := .returned none) (by exact Or.inr ⟨_, _, _, rfl⟩) rfl
  have r₆ := r₅.snoc (a := .visit) (b := .returned none) (by exact Or.inl ⟨_, _, rfl⟩) rfl
  have r₇ := r₆.snoc (a := .visit) (b := .called 2 .read 10 none) (by exact Or.inl ⟨_, _, rfl⟩) rfl
  obtain ⟨xs, hxs⟩ := listed_iff.1 (runs_sound h₅).listed
  refine ⟨_, _, xs, h₅, rfl, rfl, hxs, ?_⟩
  rintro ⟨s₁, hsel, hruns⟩
  obtain rfl := (Prod.mk.inj (Option.some.inj hsel)).2
  obtain ⟨i, -, -, hi, -⟩ := (hruns _ _ r₇).1 .visit 2 .read 10 none (by simp)
  obtain ⟨p, hp, -⟩ := (hxs.polled 2).1 (List.mem_of_getElem? hi)
  cases hp

end Dispatch

end Mowgli
