import Mowgli.Container.Index.Ops
import Mowgli.Library.Run
/-!
# Indexes are growing arrays

A run makes calls on any number of indexes, and keeps next to them the
arrays they should be. Positions and ranges are within the arrays, source
and target of a copy are not the same, and no array has 2^20 elements. What
a run needs besides is that no call loses a pointer when the room grows
(`Preserves`): `mowgli_index_allocate` keeps `oldsize` bytes of the memory
it had, of `oldsize` pointers.
-/

namespace Mowgli

namespace Index

/-- A call on the indexes of a program, which are told by their addresses. -/
inductive Op
  | insert (i : Addr) (pos : ℕ) (value : Option Addr)
  | append (i : Addr) (value : Option Addr)
  | copyInsert (source : Addr) (src : ℕ) (target : Addr) (dst count : ℕ)
  | copyAppend (source : Addr) (src : ℕ) (target : Addr) (count : ℕ)
  | mergeInsert (first : Addr) (pos : ℕ) (second : Addr)
  | mergeAppend (first second : Addr)
  | move (i : Addr) (src dst count : ℕ)
  | delete (i : Addr) (pos count : ℕ)
  | set (i : Addr) (pos : ℕ) (value : Option Addr)
  | get (i : Addr) (pos : ℕ)

/-- The indexes of a program. -/
abbrev State : Type := Addr → MowgliIndex

/-- The arrays they should be. -/
abbrev Arrays : Type := Addr → List (Option Addr)

/-- What `mowgli_index_get` gives at the first `n` positions. -/
def contents (ix : MowgliIndex) : ℕ → Option (List (Option Addr))
  | 0 => some []
  | n + 1 => do
    let xs ← contents ix n
    let x ← Index.get ix n
    some (xs ++ [x])

namespace Op

/-- What a call does; `get` answers with a pointer. -/
def exec (s : State) : Op → Option (Option (Option Addr) × State)
  | insert i pos value => (Index.insert (s i) pos value).map fun ix => (none, Function.update s i ix)
  | append i value => (Index.append (s i) value).map fun ix => (none, Function.update s i ix)
  | copyInsert source src target dst count =>
    (Index.copyInsert (s source) src (s target) dst count).map fun ix => (none, Function.update s target ix)
  | copyAppend source src target count =>
    (Index.copyAppend (s source) src (s target) count).map fun ix => (none, Function.update s target ix)
  | mergeInsert first pos second =>
    (Index.mergeInsert (s first) pos (s second)).map fun ix => (none, Function.update s first ix)
  | mergeAppend first second =>
    (Index.mergeAppend (s first) (s second)).map fun ix => (none, Function.update s first ix)
  | move i src dst count => (Index.move (s i) src dst count).map fun ix => (none, Function.update s i ix)
  | delete i pos count => (Index.delete (s i) pos count).map fun ix => (none, Function.update s i ix)
  | set i pos value => (Index.set (s i) pos value).map fun ix => (none, Function.update s i ix)
  | get i pos => (Index.get (s i) pos).map fun v => (some v, s)

/-- What it should do to the arrays, and answer. -/
def apply (S : Arrays) : Op → Option (Option Addr) × Arrays
  | insert i pos value => (none, Function.update S i ((S i).take pos ++ [value] ++ (S i).drop pos))
  | append i value => (none, Function.update S i (S i ++ [value]))
  | copyInsert source src target dst count => (none, Function.update S target
    ((S target).take dst ++ ((S source).drop src).take count ++ (S target).drop dst))
  | copyAppend source src target count => (none, Function.update S target
    (S target ++ ((S source).drop src).take count))
  | mergeInsert first pos second => (none, Function.update S first
    ((S first).take pos ++ S second ++ (S first).drop pos))
  | mergeAppend first second => (none, Function.update S first (S first ++ S second))
  | move i src dst count => (none, Function.update S i
    ((S i).take dst ++ ((S i).drop src).take count ++ (S i).drop (dst + count)))
  | delete i pos count => (none, Function.update S i ((S i).take pos ++ (S i).drop (pos + count)))
  | set i pos value => (none, Function.update S i ((S i).set pos value))
  | get i pos => ((S i)[pos]?, S)

/-- The calls a program may make. -/
def Ok (S : Arrays) : Op → Prop
  | insert i pos _ => pos ≤ (S i).length ∧ (S i).length + 1 < 2 ^ 20
  | append i _ => (S i).length + 1 < 2 ^ 20
  | copyInsert source src target dst count => source ≠ target ∧ src + count ≤ (S source).length ∧
    dst ≤ (S target).length ∧ (S target).length + count < 2 ^ 20
  | copyAppend source src target count => source ≠ target ∧ src + count ≤ (S source).length ∧
    (S target).length + count < 2 ^ 20
  | mergeInsert first pos second => first ≠ second ∧ pos ≤ (S first).length ∧
    (S first).length + (S second).length < 2 ^ 20
  | mergeAppend first second => first ≠ second ∧ (S first).length + (S second).length < 2 ^ 20
  | move i src dst count => src + count ≤ (S i).length ∧ dst + count ≤ (S i).length
  | delete i pos count => pos + count ≤ (S i).length
  | set i pos _ => pos < (S i).length
  | get i pos => pos < (S i).length

/-- The index that gets more pointers, and how many. -/
def grows (s : State) : Op → Option (Addr × ℤ)
  | insert i _ _ => some (i, 1)
  | append i _ => some (i, 1)
  | copyInsert _ _ target _ count => some (target, count)
  | copyAppend _ _ target count => some (target, count)
  | mergeInsert first _ second => some (first, (s second).count)
  | mergeAppend first second => some (first, (s second).count)
  | move .. => none
  | delete .. => none
  | set .. => none
  | get .. => none

/-- No pointer is lost: if the room of an index has to grow, all its pointers
from position `size / 8` on are null. -/
def Preserves (s : State) (op : Op) : Prop :=
  ∀ i n, op.grows s = some (i, n) → (s i).size < (s i).count + n →
    ∀ k : ℕ, (s i).size / 8 ≤ k → (k : ℤ) < (s i).count → Index.get (s i) k = some none

/-- A call, with the arrays next to the indexes. -/
def run (s : State × Arrays) (op : Op) : Option (Option (Option Addr) × State × Arrays) :=
  (op.exec s.1).map fun r => (r.1, r.2, (op.apply s.2).2)

end Op

/-- The indexes store the arrays. -/
def Models (s : State) (S : Arrays) : Prop := ∀ i, Stores (s i) (S i)

variable {s s' : State} {S : Arrays} {ix : MowgliIndex} {xs ys : List (Option Addr)} {op : Op}

/-- An index stores what can be got from it. -/
theorem Stores.contents (h : Stores ix xs) : contents ix ix.count.toNat = some xs := by
  have key : ∀ n ≤ xs.length, Index.contents ix n = some (xs.take n) := by
    intro n
    induction n with
    | zero => exact fun _ => rfl
    | succ n ih =>
      intro hn
      simp only [Index.contents, ih (by omega), h.get (show n < xs.length by omega),
        List.getElem?_eq_getElem (show n < xs.length by omega), Option.bind_eq_bind, Option.bind_some,
        List.take_succ_eq_append_getElem (show n < xs.length by omega)]
  rw [h.count, Int.toNat_natCast, key _ le_rfl, List.take_length]

/-- One index has changed. -/
theorem Models.update (h : Models s S) {i : Addr} (hi : Stores ix xs) :
    Models (Function.update s i ix) (Function.update S i xs) := by
  intro c
  by_cases hc : c = i
  · subst hc
    rw [Function.update_self, Function.update_self]
    exact hi
  · rw [Function.update_of_ne hc, Function.update_of_ne hc]
    exact h c

/-- What the condition comes to for the arrays. -/
theorem Models.preserves_iff (h : Models s S) {i : Addr} {n : ℕ} (hg : op.grows s = some (i, (n : ℤ))) :
    op.Preserves s ↔ survivors (s i).size ((S i).length + n) (S i) = S i := by
  have hc := (h i).count
  rw [survivors_eq_iff]
  constructor
  · intro hp hgrow k x hk hx
    have hlt := (List.getElem?_eq_some_iff.1 hx).1
    have := hp i n hg (by omega) k hk (by omega)
    rw [(h i).get hlt, hx] at this
    exact Option.some.inj this
  · intro hsurv i' n' hg' hgrow k hk hlt
    rw [hg] at hg'
    obtain ⟨rfl, rfl⟩ := Prod.mk.inj (Option.some.inj hg')
    have hlt' : k < (S i).length := by omega
    rw [(h i).get hlt', List.getElem?_eq_getElem hlt']
    exact congrArg some (hsurv (by omega) k _ hk (List.getElem?_eq_getElem hlt'))

theorem preserves_of_grows (hg : op.grows s = none) : op.Preserves s := fun i n h => by
  rw [hg] at h
  cases h

/-- An insertion of `ws` at `pos` into what is left of the pointers is one
into the pointers exactly if all are left. -/
theorem insert_eq_iff {ws : List (Option Addr)} {pos : ℕ} (hlen : ys.length = xs.length) :
    ys.take pos ++ ws ++ ys.drop pos = xs.take pos ++ ws ++ xs.drop pos ↔ ys = xs := by
  refine ⟨fun h => ?_, fun h => by rw [h]⟩
  rw [List.append_assoc, List.append_assoc] at h
  obtain ⟨htake, h⟩ := List.append_inj h (by rw [List.length_take, List.length_take, hlen])
  rw [← List.take_append_drop pos ys, htake, (List.append_inj h rfl).2, List.take_append_drop]

/-- An answer, and whether the arrays are stored after it. -/
def Answered (s : State) (S : Arrays) (op : Op) : Prop :=
  ∃ s', op.exec s = some ((op.apply S).1, s') ∧ (op.Preserves s → Models s' (op.apply S).2) ∧
    ((∀ i, contents (s' i) (s' i).count.toNat = some ((op.apply S).2 i)) → op.Preserves s)

/-- An insertion. -/
theorem Models.answered {i : Addr} {n pos : ℕ} {ws : List (Option Addr)} (h : Models s S)
    (hg : op.grows s = some (i, (n : ℤ)))
    (hexec : op.exec s = some (none, Function.update s i ix))
    (happly : op.apply S = (none, Function.update S i ((S i).take pos ++ ws ++ (S i).drop pos)))
    (hix : Stores ix ((survivors (s i).size ((S i).length + n) (S i)).take pos ++ ws ++
      (survivors (s i).size ((S i).length + n) (S i)).drop pos)) : Answered s S op := by
  refine ⟨Function.update s i ix, by rw [happly]; exact hexec, fun hp => ?_, fun hc => ?_⟩
  · rw [(h.preserves_iff hg).1 hp] at hix
    rw [happly]
    exact h.update hix
  · rw [h.preserves_iff hg]
    have hi := hc i
    simp only [happly, Function.update_self, hix.contents, Option.some_inj] at hi
    exact (insert_eq_iff (survivors_length ..)).1 hi

/-- **One call.** -/
theorem Models.step (h : Models s S) (hok : op.Ok S) : Answered s S op := by
  cases op with
  | insert i pos value =>
    obtain ⟨ix, hrun, hix⟩ := (h i).insert hok.1 hok.2 value
    exact h.answered (n := 1) rfl (by rw [Op.exec, hrun]; rfl) rfl hix
  | append i value =>
    obtain ⟨ix, hrun, hix⟩ := (h i).insert le_rfl hok value
    refine h.answered (n := 1) rfl (by rw [Op.exec, Index.append, (h i).count, hrun]; rfl) ?_ hix
    rw [Op.apply, List.take_length, List.drop_length, List.append_nil]
  | copyInsert source src target dst count =>
    obtain ⟨hne, hsrc, hdst, hle⟩ := hok
    obtain ⟨ix, hrun, hix⟩ := (h source).copyInsert src (h target) hsrc hdst hle
    exact h.answered rfl (by rw [Op.exec, hrun]; rfl) rfl hix
  | copyAppend source src target count =>
    obtain ⟨hne, hsrc, hle⟩ := hok
    obtain ⟨ix, hrun, hix⟩ := (h source).copyInsert src (h target) hsrc le_rfl hle
    refine h.answered rfl (by rw [Op.exec, Index.copyAppend, (h target).count, hrun]; rfl) ?_ hix
    rw [Op.apply, List.take_length, List.drop_length, List.append_nil]
  | mergeInsert first pos second =>
    obtain ⟨hne, hpos, hle⟩ := hok
    obtain ⟨ix, hrun, hix⟩ := (h second).copyInsert (n := (S second).length) 0 (h first) (by omega)
      hpos hle
    rw [List.drop_zero, List.take_length] at hix
    refine h.answered (by rw [Op.grows, (h second).count]) ?_ rfl hix
    rw [Op.exec, Index.mergeInsert, (h second).count]
    erw [hrun]
    rfl
  | mergeAppend first second =>
    obtain ⟨hne, hle⟩ := hok
    obtain ⟨ix, hrun, hix⟩ := (h second).copyInsert (n := (S second).length) 0 (h first) (by omega)
      le_rfl hle
    rw [List.drop_zero, List.take_length] at hix
    refine h.answered (by rw [Op.grows, (h second).count]) ?_ ?_ hix
    · rw [Op.exec, Index.mergeAppend, (h second).count, (h first).count]
      erw [hrun]
      rfl
    · rw [Op.apply, List.take_length, List.drop_length, List.append_nil]
  | move i src dst count =>
    obtain ⟨ix, hrun, -, hix⟩ := (h i).move hok.1 hok.2
    exact ⟨_, by rw [Op.exec, hrun]; rfl, fun _ => h.update hix, fun _ => preserves_of_grows rfl⟩
  | delete i pos count =>
    obtain ⟨ix, hrun, -, hix⟩ := (h i).delete hok
    exact ⟨_, by rw [Op.exec, hrun]; rfl, fun _ => h.update hix, fun _ => preserves_of_grows rfl⟩
  | set i pos value =>
    obtain ⟨ix, hrun, -, hix⟩ := (h i).set hok value
    exact ⟨_, by rw [Op.exec, hrun]; rfl, fun _ => h.update hix, fun _ => preserves_of_grows rfl⟩
  | get i pos =>
    have hget := (h i).get hok
    have hlt : pos < (S i).length := hok
    refine ⟨s, ?_, fun _ => h, fun _ => preserves_of_grows rfl⟩
    rw [Op.exec, hget, Op.apply, List.getElem?_eq_getElem hlt]
    rfl

/-- The runs of indexes from those just created, of calls a program may make
that meet a condition `ok`. -/
abbrev Runs (ok : State → Op → Prop) : List (Op × Option (Option Addr)) → State × Arrays → Prop :=
  Run Op.run (fun s op => op.Ok s.2 ∧ ok s.1 op) (fun _ => create, fun _ => [])

theorem Runs.models {tr : List (Op × Option (Option Addr))} (h : Runs (fun s op => op.Preserves s) tr (s, S)) :
    Models s S :=
  Run.invariant (I := fun s => Models s.1 s.2) (fun _ => stores_create) (fun {s op out s'} hs hok hrun => by
    obtain ⟨s₁, hexec, hmodels, -⟩ := hs.step hok.1
    rw [Op.run, hexec] at hrun
    obtain ⟨-, rfl⟩ := Prod.mk.inj (Option.some.inj hrun)
    exact hmodels hok.2) h

/-- **An index is a growing array** as long as no call loses a pointer: what
can be got from each is the array it should be, and so is what the next
call answers. That call keeps it so exactly if it loses none. -/
theorem runs_array {tr : List (Op × Option (Option Addr))} (h : Runs (fun s op => op.Preserves s) tr (s, S)) :
    (∀ i, contents (s i) (s i).count.toNat = some (S i)) ∧
      ∀ op : Op, op.Ok S → ∃ s', op.exec s = some ((op.apply S).1, s') ∧
        ((∀ i, contents (s' i) (s' i).count.toNat = some ((op.apply S).2 i)) ↔ op.Preserves s) := by
  have hm := h.models
  refine ⟨fun i => (hm i).contents, fun op hok => ?_⟩
  obtain ⟨s', hexec, hmodels, hpres⟩ := hm.step hok
  exact ⟨s', hexec, hpres, fun hp i => (hmodels hp i).contents⟩

/-- Three pointers are appended and inserted, and the one in the middle is deleted. -/
theorem runs_array_three : ∃ s : State, contents (s 0) 2 = some [some 6, some 7] ∧
    ∃ s', (Op.insert 0 1 (some 8)).exec s = some (none, s') := by
  have h₁ : Runs (fun s op => op.Preserves s) ([] ++ [(.append 0 (some 5), none)]) _ :=
    Run.nil.snoc ⟨show (0 + 1 : ℕ) < 2 ^ 20 by norm_num,
      ((Runs.models .nil).preserves_iff (n := 1) (i := 0) rfl).2 rfl⟩ rfl
  have h₂ := h₁.snoc (a := .insert 0 0 (some 6)) (b := none)
    (by exact ⟨⟨Nat.zero_le _, show (1 + 1 : ℕ) < 2 ^ 20 by norm_num⟩,
      ((Runs.models h₁).preserves_iff (n := 1) (i := 0) rfl).2 rfl⟩) rfl
  have h₃ := h₂.snoc (a := .append 0 (some 7)) (b := none)
    (by exact ⟨show (2 + 1 : ℕ) < 2 ^ 20 by norm_num,
      ((Runs.models h₂).preserves_iff (n := 1) (i := 0) rfl).2 rfl⟩) rfl
  have h₄ := h₃.snoc (a := .delete 0 1 1) (b := none)
    (by exact ⟨show (1 + 1 : ℕ) ≤ 3 by norm_num, preserves_of_grows rfl⟩) rfl
  obtain ⟨hcontents, hnext⟩ := runs_array h₄
  obtain ⟨s', hs', -⟩ := hnext (.insert 0 1 (some 8)) ⟨show (1 : ℕ) ≤ 2 by norm_num, show (2 + 1 : ℕ) < 2 ^ 20 by norm_num⟩
  exact ⟨_, hcontents 0, s', hs'⟩

/-- The calls of `ops`, one after the other. -/
def execAll : List Op → State × Arrays → Option (State × Arrays)
  | [], s => some s
  | op :: ops, s => do
    let r ← op.run s
    execAll ops r.2

set_option maxRecDepth 100000 in
/-- After 65 pointers have been appended to an index the ninth is null. -/
theorem append_loses : ∃ s S, execAll (List.replicate 65 (Op.append 0 (some 5))) (fun _ => create, fun _ => []) =
    some (s, S) ∧ (S 0)[8]? = some (some 5) ∧ Index.get (s 0) 8 = some none := by
  refine ⟨_, _, rfl, rfl, rfl⟩

end Index

end Mowgli
