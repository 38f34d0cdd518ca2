import Mowgli.Eventloop.Pollable.Dispatch
/-!
# Callbacks that set their own functions

A callback that sets its own function, as a line buffer's does, moves its pollable
to the end of the list, where the walk comes to it again; and the entry of
the pollable still says what it said before. Only the last pollable of the
list is not met twice: the walk has already read that nothing follows it.
-/

namespace Mowgli

/-- The function that was called, if one was. -/
def DispatchAnswer.call : DispatchAnswer → Option (Addr × IoDir)
  | .returned _ => none
  | .called a dir _ _ => some (a, dir)

/-- Whether the walk makes a test. -/
def DispatchStep.isVisit : DispatchStep → Bool
  | .visit => true
  | _ => false

namespace Dispatch

open PollLoop

/-- The steps of a round whose callbacks set functions of their own pollable only. -/
def OwnOk (s : Dispatch) : DispatchStep → Prop
  | .other (.call (.setselect a _ _)) => ∃ dir slot tn, s.turn = .calling dir a slot tn
  | c => WalkOk s c

/-- The functions that were called. -/
def calls (tr : List (DispatchStep × DispatchAnswer)) : List (Addr × IoDir) := tr.filterMap fun c => c.2.call

/-- How many tests the walk has made. -/
def visits (tr : List (DispatchStep × DispatchAnswer)) : ℕ := tr.countP fun c => c.1.isVisit

/-- A round has an end, and calls no function of a pollable twice, whatever its
callbacks set the functions of their own pollables to. -/
def CallsOnce (s : Dispatch) (result : Option (ℕ → BitVec 16)) : Prop :=
  ∃ s₁, step s (.select result) = some (.returned none, s₁) ∧ ∃ N, ∀ tr s', Run step OwnOk s₁ tr s' →
    visits tr ≤ N ∧ (calls tr).Nodup ∧ ∀ c, OwnOk s' c → (step s' c).isSome

variable {s s' s₁ : Dispatch} {xs ys zs : List Addr} {a z : Addr} {p : Pollable} {slot v : ℕ} {t : PollTurn}
variable {tn : Option Addr} {cs : List (Addr × IoDir)} {result : Option (ℕ → BitVec 16)}

theorem calls_append (tr tr' : List (DispatchStep × DispatchAnswer)) : calls (tr ++ tr') = calls tr ++ calls tr' :=
  List.filterMap_append

theorem visits_append (tr tr' : List (DispatchStep × DispatchAnswer)) :
    visits (tr ++ tr') = visits tr + visits tr' := List.countP_append

theorem mem_calls {tr : List (DispatchStep × DispatchAnswer)} {c : DispatchStep} {dir : IoDir} (f : Addr)
    (userdata : Option Addr) (h : (c, .called a dir f userdata) ∈ tr) : (a, dir) ∈ calls tr :=
  List.mem_filterMap.2 ⟨_, h, rfl⟩

theorem WalkOk.own {c : DispatchStep} (h : WalkOk s c) : OwnOk s c := by
  match c, h with
  | .visit, h => exact h
  | .ret, h => exact h

/-! ## A round that calls only the last pollable -/

/-- Where the round is, what it has called and how often it has tested, if it calls
only the last pollable. -/
inductive Passing (s₁ : Dispatch) (xs : List Addr) : List (Addr × IoDir) → ℕ → Dispatch → Prop
  /-- The walk comes to the first of `zs`, and nothing has happened. -/
  | node (ys zs : List Addr) (v : ℕ) : xs = ys ++ zs → v ≤ 2 * ys.length →
    Passing s₁ xs [] v { s₁ with turn := turnAt zs }
  | tested (ys zs : List Addr) (b : Addr) (p : Pollable) (v : ℕ) : xs = ys ++ b :: zs →
    s₁.el.pollables.get b = some p → v ≤ 2 * ys.length + 1 →
    Passing s₁ xs [] v { s₁ with turn := .between b p.slot.toNat zs.head? }
  /-- The last pollable is called. -/
  | reading (s' : Dispatch) (z : Addr) (slot v : ℕ) : s'.Sound → s'.el.Live z →
    s'.turn = .calling .read z slot none → v < 2 * xs.length → Passing s₁ xs [(z, .read)] v s'
  | read (s' : Dispatch) (z : Addr) (slot v : ℕ) : s'.Sound → s'.el.Live z →
    s'.turn = .between z slot none → v < 2 * xs.length → Passing s₁ xs [(z, .read)] v s'
  | writing (s' : Dispatch) (z : Addr) (slot v : ℕ) (cs : List (Addr × IoDir)) : s'.Sound → s'.el.Live z →
    s'.turn = .calling .write z slot none → cs.Nodup → v ≤ 2 * xs.length → Passing s₁ xs cs v s'
  | ended (s' : Dispatch) (v : ℕ) (cs : List (Addr × IoDir)) : s'.turn = .idle → cs.Nodup → v ≤ 2 * xs.length →
    Passing s₁ xs cs v s'

/-- What there is to a step of such a round. -/
def PassingStep (s₁ : Dispatch) (xs : List Addr) (cs : List (Addr × IoDir)) (v : ℕ) (s' : Dispatch)
    (c : DispatchStep) : Prop :=
  ∃ b s'', step s' c = some (b, s'') ∧ Passing s₁ xs (cs ++ b.call.toList) (v + if c.isVisit then 1 else 0) s''

theorem passing_node (hs : s₁.Sound) (hxs : s₁.el.Ordered xs) (hlast : OnlyLast s₁ xs) {z : Addr}
    (h : xs = ys ++ z :: zs) (hv : v ≤ 2 * ys.length) :
    PassingStep s₁ xs [] v { s₁ with turn := turnAt (z :: zs) } .visit := by
  have hz : z ∈ xs := by rw [h]; exact List.mem_append_right _ List.mem_cons_self
  obtain ⟨p, hp, -, hr, -⟩ := hxs.cell hz
  have hlen : xs.length = ys.length + (zs.length + 1) := by rw [h, List.length_append, List.length_cons]
  have hrest : xs = (ys ++ [z]) ++ zs := by rw [h, List.append_assoc, List.singleton_append]
  have hnext : s₁.advance zs.head? = some (.returned none, { s₁ with turn := turnAt zs }) :=
    advance_eq (ys ++ [z]) zs (hrest ▸ hxs.holds)
  have hvisit := step_next zs.head? hs hxs hp hz
  split_ifs at hvisit with hrev
  · refine ⟨_, _, hvisit.trans hnext, Passing.node (ys ++ [z]) zs _ hrest ?_⟩
    rw [List.length_append, List.length_singleton]
    simp only [DispatchStep.isVisit, if_true]
    omega
  · cases hcall : p.calls (revents s₁.pollfds p.slot.toNat) .read with
    | none =>
      rw [hcall] at hvisit
      refine ⟨_, _, hvisit, Passing.tested ys zs z p _ h hp ?_⟩
      simp only [DispatchStep.isVisit, if_true]
      omega
    | some r =>
      rw [hcall] at hvisit
      cases zs with
      | nil =>
        refine ⟨_, _, hvisit, Passing.reading _ z _ _ (hs.at _) ⟨p, hp, hr⟩ rfl ?_⟩
        simp only [DispatchStep.isVisit, if_true]
        simp only [List.length_nil] at hlen
        omega
      | cons b zs =>
        rw [hlast ys z b zs p .read h hp] at hcall
        cases hcall

theorem passing_tested (hxs : s₁.el.Ordered xs) (hlast : OnlyLast s₁ xs) {z : Addr} (h : xs = ys ++ z :: zs)
    (hp : s₁.el.pollables.get z = some p) (hs : s₁.Sound) (hr : p.removed = false) (hv : v ≤ 2 * ys.length + 1) :
    PassingStep s₁ xs [] v { s₁ with turn := .between z p.slot.toNat zs.head? } .visit := by
  have hlen : xs.length = ys.length + (zs.length + 1) := by rw [h, List.length_append, List.length_cons]
  have hrest : xs = (ys ++ [z]) ++ zs := by rw [h, List.append_assoc, List.singleton_append]
  have hnext : s₁.advance zs.head? = some (.returned none, { s₁ with turn := turnAt zs }) :=
    advance_eq (ys ++ [z]) zs (hrest ▸ hxs.holds)
  have hvisit := step_between p.slot.toNat zs.head? hp
  cases hcall : p.calls (revents s₁.pollfds p.slot.toNat) .write with
  | none =>
    rw [hcall] at hvisit
    refine ⟨_, _, hvisit.trans hnext, Passing.node (ys ++ [z]) zs _ hrest ?_⟩
    rw [List.length_append, List.length_singleton]
    simp only [DispatchStep.isVisit, if_true]
    omega
  | some r =>
    rw [hcall] at hvisit
    cases zs with
    | nil =>
      refine ⟨_, _, hvisit, Passing.writing _ z _ _ _ (hs.at _) ⟨p, hp, hr⟩ rfl (List.nodup_singleton _) ?_⟩
      simp only [DispatchStep.isVisit, if_true]
      simp only [List.length_nil] at hlen
      omega
    | cons b zs =>
      rw [hlast ys z b zs p .write h hp] at hcall
      cases hcall

/-- The last pollable is between its two tests, or back from the second. -/
theorem passing_read (hs : s'.Sound) (hl : s'.el.Live z) (hturn : s'.turn = .between z slot none)
    (hv : v < 2 * xs.length) : PassingStep s₁ xs [(z, .read)] v s' .visit := by
  obtain ⟨p, hp, -⟩ := id hl
  have hvisit := step_between slot none hp
  rw [← hturn] at hvisit
  cases hcall : p.calls (revents s'.pollfds slot) .write with
  | none =>
    rw [hcall] at hvisit
    exact ⟨_, _, hvisit, Passing.ended _ _ _ rfl (List.nodup_singleton _) hv⟩
  | some r =>
    rw [hcall] at hvisit
    refine ⟨_, _, hvisit, Passing.writing _ z _ _ _ (hs.at _) hl rfl ?_ hv⟩
    simp [DispatchAnswer.call]

/-- **A step of such a round** has an answer, and the round goes on the same way. -/
theorem Passing.step {c : DispatchStep} (h : Passing s₁ xs cs v s') (hs : s₁.Sound) (hxs : s₁.el.Ordered xs)
    (hlast : OnlyLast s₁ xs) (hok : OwnOk s' c) : PassingStep s₁ xs cs v s' c := by
  cases h with
  | node ys zs v hcells hv =>
    cases zs with
    | nil =>
      match c, hok with
      | .other (.call (.setselect _ _ _)), ⟨_, _, _, hturn⟩ => cases hturn
      | .visit, .inl ⟨_, _, hturn⟩ => cases hturn
      | .visit, .inr ⟨_, _, _, hturn⟩ => cases hturn
      | .ret, ⟨_, _, _, _, hturn⟩ => cases hturn
    | cons z zs =>
      match c, hok with
      | .other (.call (.setselect _ _ _)), ⟨_, _, _, hturn⟩ => cases hturn
      | .visit, _ => exact passing_node hs hxs hlast hcells hv
      | .ret, ⟨_, _, _, _, hturn⟩ => cases hturn
  | tested ys zs b p v hcells hp hv =>
    match c, hok with
    | .other (.call (.setselect _ _ _)), ⟨_, _, _, hturn⟩ => cases hturn
    | .visit, _ =>
      have hb : b ∈ xs := by rw [hcells]; exact List.mem_append_right _ List.mem_cons_self
      obtain ⟨q, hq, -, hr, -⟩ := hxs.cell hb
      obtain rfl := Option.some.inj (hp.symm.trans hq)
      exact passing_tested hxs hlast hcells hp hs hr hv
    | .ret, ⟨_, _, _, _, hturn⟩ => cases hturn
  | reading s' z slot v hs' hl hturn hv =>
    match c, hok with
    | .other (.call (.setselect a d f)), ⟨_, _, _, hturn'⟩ =>
      obtain ⟨-, rfl, -⟩ := PollTurn.calling.inj (hturn.symm.trans hturn')
      obtain ⟨el', hset, -⟩ := hs'.listed.setselect hl d f
      obtain ⟨hrun, hs'', hl'⟩ := step_setselect hs' hl (hturn ▸ rfl) hset
      exact ⟨_, _, hrun, Passing.reading _ z slot _ hs'' hl' hturn hv⟩
    | .visit, .inl ⟨_, _, hturn'⟩ => cases hturn.symm.trans hturn'
    | .visit, .inr ⟨_, _, _, hturn'⟩ => cases hturn.symm.trans hturn'
    | .ret, _ =>
      have hret := step_ret_read s' z slot none
      rw [← hturn] at hret
      exact ⟨_, _, hret, Passing.read _ z slot _ (hs'.at _) hl rfl hv⟩
  | read s' z slot v hs' hl hturn hv =>
    match c, hok with
    | .other (.call (.setselect _ _ _)), ⟨_, _, _, hturn'⟩ => cases hturn.symm.trans hturn'
    | .visit, _ => exact passing_read hs' hl hturn hv
    | .ret, ⟨_, _, _, _, hturn'⟩ => cases hturn.symm.trans hturn'
  | writing s' z slot v cs hs' hl hturn hnd hv =>
    match c, hok with
    | .other (.call (.setselect a d f)), ⟨_, _, _, hturn'⟩ =>
      obtain ⟨-, rfl, -⟩ := PollTurn.calling.inj (hturn.symm.trans hturn')
      obtain ⟨el', hset, -⟩ := hs'.listed.setselect hl d f
      obtain ⟨hrun, hs'', hl'⟩ := step_setselect hs' hl (hturn ▸ rfl) hset
      refine ⟨_, _, hrun, ?_⟩
      rw [DispatchAnswer.call, Option.toList_none, List.append_nil]
      exact Passing.writing _ z slot _ _ hs'' hl' hturn hnd hv
    | .visit, .inl ⟨_, _, hturn'⟩ => cases hturn.symm.trans hturn'
    | .visit, .inr ⟨_, _, _, hturn'⟩ => cases hturn.symm.trans hturn'
    | .ret, _ =>
      have hret := step_ret_write s' z slot none
      rw [← hturn] at hret
      refine ⟨_, _, hret, ?_⟩
      rw [DispatchAnswer.call, Option.toList_none, List.append_nil]
      exact Passing.ended _ _ _ rfl hnd hv
  | ended s' v cs hturn hnd hv =>
    match c, hok with
    | .other (.call (.setselect _ _ _)), ⟨_, _, _, hturn'⟩ => cases hturn.symm.trans hturn'
    | .visit, .inl ⟨_, _, hturn'⟩ => cases hturn.symm.trans hturn'
    | .visit, .inr ⟨_, _, _, hturn'⟩ => cases hturn.symm.trans hturn'
    | .ret, ⟨_, _, _, _, hturn'⟩ => cases hturn.symm.trans hturn'

theorem Passing.bound (h : Passing s₁ xs cs v s') : v ≤ 2 * xs.length ∧ cs.Nodup := by
  cases h with
  | node ys zs v hcells hv =>
    rw [hcells, List.length_append]
    exact ⟨by omega, List.nodup_nil⟩
  | tested ys zs b p v hcells hp hv =>
    rw [hcells, List.length_append, List.length_cons]
    exact ⟨by omega, List.nodup_nil⟩
  | reading s' z slot v hs' hl hturn hv => exact ⟨hv.le, List.nodup_singleton _⟩
  | read s' z slot v hs' hl hturn hv => exact ⟨hv.le, List.nodup_singleton _⟩
  | writing s' z slot v cs hs' hl hturn hnd hv => exact ⟨hv, hnd⟩
  | ended s' v cs hturn hnd hv => exact ⟨hv, hnd⟩

/-- **A whole round that calls only the last pollable.** -/
theorem passing_run {tr : List (DispatchStep × DispatchAnswer)} (hs : s₁.Sound) (hxs : s₁.el.Ordered xs)
    (hlast : OnlyLast s₁ xs) (hturn : s₁.turn = .idle ∨ s₁.turn = turnAt xs) (h : Run step OwnOk s₁ tr s') :
    Passing s₁ xs (calls tr) (visits tr) s' := by
  induction h with
  | nil =>
    rcases hturn with hturn | hturn
    · exact Passing.ended _ _ _ hturn List.nodup_nil (Nat.zero_le _)
    · have hnode : Passing s₁ xs [] 0 _ := Passing.node [] xs 0 rfl (Nat.zero_le _)
      rw [← hturn] at hnode
      exact hnode
  | @snoc tr s' s'' c b _ hok hrun ih =>
    obtain ⟨b', s₂, hrun', hpass⟩ := ih.step hs hxs hlast hok
    rw [hrun, Option.some_inj, Prod.mk.injEq] at hrun'
    obtain ⟨rfl, rfl⟩ := hrun'
    have hcalls : calls [(c, b)] = b.call.toList := by
      cases b <;> rfl
    have hvisits : visits [(c, b)] = if c.isVisit then 1 else 0 := by
      cases hc : c.isVisit <;> simp [visits, hc]
    rw [calls_append, visits_append, hcalls, hvisits]
    exact hpass

/-! ## A round that calls another one -/

/-- Setting the function that is set already changes nothing about what is called. -/
theorem calls_setFunction {dir : IoDir} {revents : BitVec 16} {f : Addr} {userdata : Option Addr} (n : MowgliNode)
    (h : p.calls revents dir = some (f, userdata)) :
    Pollable.calls { p.setFunction dir (some f) with node := n } revents dir = some (f, userdata) := by
  have hdir := dir_of_calls h
  obtain ⟨hrev, hr, -, hu⟩ := calls_eq_some.1 h
  rw [calls_eq_some]
  cases dir with
  | read => exact ⟨hrev, hr, rfl, hu⟩
  | write => exact ⟨hrev, hr, rfl, hu⟩
  | error => exact absurd rfl hdir

/-- **A pollable that sets its function again** is called again, if it is not the last. -/
theorem called_twice {b : Addr} {dir : IoDir} {f : Addr} {userdata : Option Addr} (hs : s₁.Sound)
    (hxs : s₁.el.Ordered (ys ++ a :: b :: zs)) (hturn : s₁.turn = turnAt (ys ++ a :: b :: zs))
    (hp : s₁.el.pollables.get a = some p)
    (hcall : p.calls (revents s₁.pollfds p.slot.toNat) dir = some (f, userdata)) :
    ∃ tr s', Run step OwnOk s₁ tr s' ∧ ¬ (calls tr).Nodup := by
  have hdir := dir_of_calls hcall
  have hr := (calls_eq_some.1 hcall).2.1
  have ha : a ∈ ys ++ a :: b :: zs := List.mem_append_right _ List.mem_cons_self
  have hmid := hxs.holds.nodup
  rw [List.nodup_middle, List.nodup_cons, List.mem_append, not_or] at hmid
  -- the walk comes to `a`, and calls it
  obtain ⟨tr₁, hrun₁⟩ := walk_nodes hs ys [] (a :: b :: zs) hxs
  obtain ⟨tr₂, hrun₂⟩ := walk_call (some b) hs hxs ha hp hcall
  -- `a` sets its function, and is the last now
  obtain ⟨el', n, hset, -, hrel, hp'⟩ := hxs.setselect hp hr dir (some f)
  have hord := hrel.ordered
  rw [setFunction_hasFunction hdir, if_pos rfl, List.erase_append_right _ hmid.1.1, List.erase_cons_head] at hord
  obtain ⟨hrun₃, hs', -⟩ := step_setselect (s := { s₁ with turn := .calling dir a p.slot.toNat (some b) })
    (hs.at _) ⟨p, hp, hr⟩ rfl hset
  -- the callback returns, and the walk comes to `a` again
  have hnext := advance_eq (s := { s₁ with el := el' }) ys (b :: zs ++ [a])
    (by rw [← List.append_assoc]; exact hord.holds)
  obtain ⟨tr₄, hrun₄⟩ := walk_calling (s := { s₁ with el := el' }) p.slot.toNat hp' hdir hnext
  obtain ⟨tr₅, hrun₅⟩ := walk_nodes (s := { s₁ with el := el' }) (hs'.at _) (b :: zs) ys [a] hord
  have hslot : ({ p.setFunction dir (some f) with node := n } : Pollable).slot = p.slot := by
    cases dir <;> rfl
  obtain ⟨tr₆, hrun₆⟩ := walk_call (s := { s₁ with el := el' }) none (hs'.at _) hord
    (List.mem_append_right _ (List.mem_singleton_self a)) hp' (by rw [hslot]; exact calls_setFunction n hcall)
  have hown : ∀ s c, WalkOk s c → OwnOk s c := fun _ _ => WalkOk.own
  have hstart : { s₁ with turn := turnAt (ys ++ a :: b :: zs) } = s₁ := by rw [← hturn]
  have hfirst := ((hrun₁.trans hrun₂).mono hown).snoc (by exact ⟨dir, _, _, rfl⟩) hrun₃
  rw [hstart] at hfirst
  refine ⟨_, _, ((hfirst.trans (hrun₄.mono hown)).trans (hrun₅.mono hown)).trans (hrun₆.mono hown), fun hnd => ?_⟩
  rw [calls_append, List.nodup_append] at hnd
  refine hnd.2.2 (a, dir) (mem_calls (c := .visit) f userdata ?_) (a, dir)
    (mem_calls (c := .visit) f userdata ?_) rfl
  · simp
  · simp

/-- **When a round calls nothing twice.** A round ends, and calls no function of a pollable
twice, whatever the callbacks set their own functions to, just when the array has room for the
pollables of the list, and none but the last has a function for what is in its entry. -/
theorem Sound.callsOnce_iff (hs : s.Sound) (hturn : s.turn = .idle) (hxs : s.el.Ordered xs) :
    CallsOnce s result ↔ xs.length ≤ FD_SETSIZE ∧ QuietBeforeLast s xs result := by
  obtain ⟨hfits, hlong⟩ := select_spec hs hxs hturn result
  constructor
  · rintro ⟨s₁, hsel, N, hruns⟩
    have hle : xs.length ≤ FD_SETSIZE := by
      by_contra hlt
      exact absurd (hsel.symm.trans (hlong (Nat.lt_of_not_le hlt))) (Option.some_ne_none _)
    obtain ⟨s₁', hsel', hspec⟩ := hfits hle
    rw [hsel, Option.some_inj, Prod.mk.injEq] at hsel'
    obtain rfl := hsel'.2
    refine ⟨hle, (hspec.onlyLast_iff hxs).1 fun ys a b zs q dir hcells hq => ?_⟩
    by_contra hne
    obtain ⟨⟨f, userdata⟩, hcall⟩ := Option.ne_none_iff_exists'.1 hne
    obtain ⟨tr, s', hrun, hnd⟩ := called_twice hspec.sound (hcells ▸ hspec.ordered)
      (hcells ▸ hspec.turn_of_calls hcall) hq hcall
    exact hnd (hruns tr s' hrun).2.1
  · rintro ⟨hle, hquiet⟩
    obtain ⟨s₁, hsel, hspec⟩ := hfits hle
    have hlast := (hspec.onlyLast_iff hxs).2 hquiet
    have hturn₁ : s₁.turn = .idle ∨ s₁.turn = turnAt xs := by
      rw [hspec.turn]
      split_ifs
      · exact Or.inr rfl
      · exact Or.inl rfl
    refine ⟨s₁, hsel, 2 * xs.length, fun tr s' hrun => ?_⟩
    have hpass := passing_run hspec.sound hspec.ordered hlast hturn₁ hrun
    refine ⟨hpass.bound.1, hpass.bound.2, fun c hok => ?_⟩
    obtain ⟨b, s'', hstep, -⟩ := hpass.step hspec.sound hspec.ordered hlast hok
    exact Option.isSome_iff_exists.2 ⟨(b, s''), hstep⟩

/-- **And that in every run**, at each round. -/
theorem runs_callsOnce_iff {tr : List (DispatchStep × DispatchAnswer)} (h : Run step DispatchOk start tr s)
    (hturn : s.turn = .idle) (hxs : s.el.Ordered xs) (result : Option (ℕ → BitVec 16)) :
    CallsOnce s result ↔ xs.length ≤ FD_SETSIZE ∧ QuietBeforeLast s xs result :=
  (runs_sound h).callsOnce_iff hturn hxs

/-- Of two pollables the last one has something to read: it is called once. -/
theorem runs_callsOnce_two : ∃ tr s, Run step DispatchOk start tr s ∧ s.el.Ordered [0, 1] ∧
    CallsOnce s (some fun i => if i = 1 then POLLIN else 0) := by
  obtain ⟨tr, s, h, hturn, -, -, hxs⟩ := exists_runs_two
  refine ⟨tr, s, h, hxs, (runs_callsOnce_iff h hturn hxs _).2 ⟨by decide, fun ys a b zs p dir hcells hp hpoll => ?_⟩⟩
  obtain rfl : ys = [] := by
    have hlen := congrArg List.length hcells
    simp only [List.length_cons, List.length_append, List.length_nil] at hlen
    exact List.eq_nil_of_length_eq_zero (by omega)
  exact absurd (by cases dir <;> decide) hpoll

/-- A round goes on from where the program has come to. -/
theorem own_nil {tr : List (DispatchStep × DispatchAnswer)} (_ : Run step DispatchOk start tr s) :
    Run step OwnOk s [] s := Run.nil

/-- **A function that is called twice.** Two pollables have something to read, and the
callback of the first sets its function again. -/
theorem runs_called_twice : ∃ tr s, Run step DispatchOk start tr s ∧ s.turn = .idle ∧
    ¬ CallsOnce s (some fun _ => POLLIN) := by
  have h₁ : Run step DispatchOk start ([] ++ [(.other (.call (.create 5 none)), .returned (some 0))]) _ :=
    Run.nil.snoc ⟨rfl, trivial⟩ rfl
  have h₂ := h₁.snoc (a := .other (.call (.create 6 none))) (b := .returned (some 1)) (by exact ⟨rfl, trivial⟩) rfl
  have h₃ := h₂.snoc (a := .other (.call (.setselect 0 .read (some 7)))) (b := .returned none)
    (by exact ⟨rfl, _, rfl, rfl⟩) rfl
  have h₄ := h₃.snoc (a := .other (.call (.setselect 1 .read (some 8)))) (b := .returned none)
    (by exact ⟨rfl, _, rfl, rfl⟩) rfl
  have h₅ := h₄.snoc (a := .select (some fun _ => POLLIN)) (b := .returned none) (by exact rfl) rfl
  have r₁ := (own_nil h₅).snoc (a := .visit) (b := .called 0 .read 7 none) (by exact Or.inl ⟨_, _, rfl⟩) rfl
  have r₂ := r₁.snoc (a := .other (.call (.setselect 0 .read (some 7)))) (b := .returned none)
    (by exact ⟨_, _, _, rfl⟩) rfl
  have r₃ := r₂.snoc (a := .ret) (b := .returned none) (by exact ⟨_, _, _, _, rfl⟩) rfl
  have r₄ := r₃.snoc (a := .visit) (b := .returned none) (by exact Or.inr ⟨_, _, _, rfl⟩) rfl
  have r₅ := r₄.snoc (a := .visit) (b := .called 1 .read 8 none) (by exact Or.inl ⟨_, _, rfl⟩) rfl
  have r₆ := r₅.snoc (a := .ret) (b := .returned none) (by exact ⟨_, _, _, _, rfl⟩) rfl
  have r₇ := r₆.snoc (a := .visit) (b := .returned none) (by exact Or.inr ⟨_, _, _, rfl⟩) rfl
  have r₈ := r₇.snoc (a := .visit) (b := .called 0 .read 7 none) (by exact Or.inl ⟨_, _, rfl⟩) rfl
  refine ⟨_, _, h₄, rfl, ?_⟩
  rintro ⟨s₁, hsel, N, hruns⟩
  obtain rfl := (Prod.mk.inj (Option.some.inj hsel)).2
  exact absurd (hruns _ _ r₈).2.1 (by decide)

end Dispatch

end Mowgli
