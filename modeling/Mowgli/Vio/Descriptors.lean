import Mowgli.Library.Store
import Mathlib.Logic.Function.Basic
import Mathlib.Data.List.Basic
import Mathlib.Data.Int.Order.Basic
/-!
# Who has which descriptor

What becomes of descriptors when all that is known of a socket is its
descriptor and whether it counts as closed: one that does is not closed when it
is gone, and it counts as closed after the other side hung up, too.
-/

namespace Mowgli

/-- A socket. -/
structure Sock where
  /-- `-1` if there is none. -/
  fd : ℤ
  closed : Bool

/-- Sockets, and the open descriptors, each with its socket. -/
structure Sockets where
  vios : Addr → Option Sock
  fds : ℤ → Option Addr

/-- What happens to sockets. -/
inductive SockOp
  | made (v : Addr)
  /-- It got a descriptor. -/
  | given (v : Addr) (fd : ℤ)
  /-- The other side hung up. -/
  | hungUp (v : Addr)
  /-- It was made to listen or to connect. -/
  | revived (v : Addr)
  | closed (v : Addr)
  | gone (v : Addr)
  deriving DecidableEq

namespace Sockets

/-- The descriptors after a socket is gone. -/
def fdsWithout (k : Sockets) (v : Addr) : ℤ → Option Addr :=
  match k.vios v with
  | some s => if s.closed || s.fd = -1 then k.fds else Function.update k.fds s.fd none
  | none => k.fds

/-- The sockets when one of them counts as closed or not. -/
def mark (k : Sockets) (v : Addr) (closed : Bool) : Sockets :=
  { k with vios := Function.update k.vios v ((k.vios v).map fun s => ⟨s.fd, closed⟩) }

/-- Sockets change. -/
def apply (k : Sockets) : SockOp → Sockets
  | .made v => { k with vios := Function.update k.vios v (some ⟨-1, false⟩) }
  | .given v fd => ⟨Function.update k.vios v (some ⟨fd, false⟩), Function.update k.fds fd (some v)⟩
  | .hungUp v => k.mark v true
  | .revived v => k.mark v false
  | .closed v =>
    match k.vios v with
    | some s => ⟨Function.update k.vios v (some ⟨s.fd, true⟩), Function.update k.fds s.fd none⟩
    | none => k
  | .gone v => ⟨Function.update k.vios v none, k.fdsWithout v⟩

/-- A socket has a descriptor, and it is open. -/
def Owns (k : Sockets) (v : Addr) : Prop := ∃ s, k.vios v = some s ∧ s.fd ≠ -1 ∧ k.fds s.fd = some v

/-- What is asked of a change after others. -/
def Ok (k : Sockets) (ops : List SockOp) : SockOp → Prop
  | .made v => .made v ∉ ops
  | .given v fd => k.vios v = some ⟨-1, false⟩ ∧ 0 ≤ fd ∧ k.fds fd = none
  | .hungUp v | .revived v | .closed v => k.Owns v
  | .gone v => ∃ s, k.vios v = some s

/-- What a change says on whether the other side hung up, and nothing else came after. -/
def hangs (v : Addr) (h : Bool) : SockOp → Bool
  | .hungUp u => if u = v then true else h
  | .revived u | .closed u => if u = v then false else h
  | _ => h

/-- The other side of a socket hung up, and the socket was neither closed nor used anew. -/
def hung (ops : List SockOp) (v : Addr) : Bool := ops.foldl (hangs v) false

/-- The books on sockets and descriptors. -/
structure Books (ops : List SockOp) (k : Sockets) : Prop where
  made : ∀ v fd, .given v fd ∈ ops ∨ .gone v ∈ ops → .made v ∈ ops
  alive : ∀ v, (∃ s, k.vios v = some s) ↔ .made v ∈ ops ∧ .gone v ∉ ops
  /-- A socket has one descriptor in its life. -/
  fd : ∀ v s, k.vios v = some s → ∀ fd, .given v fd ∈ ops ↔ fd = s.fd ∧ fd ≠ -1
  flag : ∀ v s, k.vios v = some s → (s.closed ↔ .closed v ∈ ops ∨ hung ops v)
  used : ∀ v, .closed v ∈ ops ∨ hung ops v → ∃ fd, .given v fd ∈ ops
  shut : ∀ v, .closed v ∈ ops → hung ops v = false
  /-- **When a descriptor is still open.** -/
  open_iff : ∀ v fd, .given v fd ∈ ops → (k.fds fd = some v ↔ .closed v ∉ ops ∧ (.gone v ∈ ops → hung ops v))
  owner : ∀ fd v, k.fds fd = some v → .given v fd ∈ ops

variable {ops : List SockOp} {op : SockOp} {k : Sockets} {v u : Addr} {fd : ℤ}

theorem hung_append : hung (ops ++ [op]) v = hangs v (hung ops v) op := by
  unfold hung
  rw [List.foldl_append]
  rfl

theorem mem_append_iff {o : SockOp} : o ∈ ops ++ [op] ↔ o ∈ ops ∨ o = op := by
  rw [List.mem_append, List.mem_singleton]

theorem books_nil : Books [] ⟨fun _ => none, fun _ => none⟩ := by
  refine ⟨?_, ?_, nofun, nofun, ?_, nofun, nofun, nofun⟩
  · rintro v fd (h | h)
    · exact absurd h List.not_mem_nil
    · exact absurd h List.not_mem_nil
  · intro v
    constructor
    · rintro ⟨s, hs⟩
      cases hs
    · rintro ⟨h, -⟩
      exact absurd h List.not_mem_nil
  · rintro v (h | h)
    · exact absurd h List.not_mem_nil
    · cases h

namespace Books

variable (h : Books ops k)

include h

/-- A socket that is not there yet. -/
theorem fresh (hv : .made v ∉ ops) : (∀ fd, .given v fd ∉ ops) ∧ .gone v ∉ ops ∧ .closed v ∉ ops ∧ hung ops v = false := by
  have hgiven : ∀ fd, .given v fd ∉ ops := fun fd hg => hv (h.made v fd (.inl hg))
  have hused : ¬ (.closed v ∈ ops ∨ hung ops v) := fun hu => (h.used v hu).elim hgiven
  rw [not_or, Bool.not_eq_true] at hused
  exact ⟨hgiven, fun hg => hv (h.made v 0 (.inr hg)), hused⟩

theorem step_made (hv : .made v ∉ ops) : Books (ops ++ [.made v]) (k.apply (.made v)) := by
  obtain ⟨hgiven, hgone, hclosed, hhung⟩ := h.fresh hv
  have hsame : ∀ u, hung (ops ++ [.made v]) u = hung ops u := fun u => hung_append
  constructor
  · intro u fd hu
    simp only [mem_append_iff, reduceCtorEq, or_false] at hu
    exact mem_append_iff.2 (.inl (h.made u fd hu))
  · intro u
    simp only [apply, mem_append_iff, reduceCtorEq, or_false, SockOp.made.injEq, Function.update_apply]
    split_ifs with huv
    · simp [huv, hgone]
    · rw [h.alive u, or_iff_left huv]
  · intro u s hs fd
    simp only [mem_append_iff, reduceCtorEq, or_false]
    simp only [apply, Function.update_apply] at hs
    split_ifs at hs with huv
    · obtain rfl := Option.some.inj hs
      rw [huv, iff_false_left (hgiven fd)]
      exact fun hfd => hfd.2 hfd.1
    · exact h.fd u s hs fd
  · intro u s hs
    simp only [mem_append_iff, reduceCtorEq, or_false, hsame]
    simp only [apply, Function.update_apply] at hs
    split_ifs at hs with huv
    · obtain rfl := Option.some.inj hs
      simp [huv, hclosed, hhung]
    · exact h.flag u s hs
  · intro u hu
    simp only [mem_append_iff, reduceCtorEq, or_false, hsame] at hu ⊢
    exact h.used u hu
  · intro u hu
    simp only [mem_append_iff, reduceCtorEq, or_false, hsame] at hu ⊢
    exact h.shut u hu
  · intro u fd hu
    simp only [mem_append_iff, reduceCtorEq, or_false, hsame] at hu ⊢
    exact h.open_iff u fd hu
  · intro fd u hu
    exact mem_append_iff.2 (.inl (h.owner fd u hu))

theorem step_given (hv : k.vios v = some ⟨-1, false⟩) (hfd : 0 ≤ fd) (hfree : k.fds fd = none) :
    Books (ops ++ [.given v fd]) (k.apply (.given v fd)) := by
  have hsame : ∀ u, hung (ops ++ [.given v fd]) u = hung ops u := fun u => hung_append
  have hmade := (h.alive v).1 ⟨_, hv⟩
  have hgiven : ∀ fd, .given v fd ∉ ops := fun fd hg => by
    obtain ⟨heq, hne⟩ := (h.fd v _ hv fd).1 hg
    exact hne heq
  have hunused : ¬ (.closed v ∈ ops ∨ hung ops v) := fun hu => (h.used v hu).elim hgiven
  constructor
  · intro u fd' hu
    simp only [mem_append_iff, reduceCtorEq, or_false, SockOp.given.injEq] at hu ⊢
    rcases hu with (hu | ⟨rfl, -⟩) | hu
    · exact h.made u fd' (.inl hu)
    · exact hmade.1
    · exact h.made u fd' (.inr hu)
  · intro u
    simp only [apply, mem_append_iff, reduceCtorEq, or_false, Function.update_apply]
    split_ifs with huv
    · simp [huv, hmade]
    · exact h.alive u
  · intro u s hs fd'
    simp only [mem_append_iff, SockOp.given.injEq]
    simp only [apply, Function.update_apply] at hs
    split_ifs at hs with huv
    · obtain rfl := Option.some.inj hs
      rw [huv, or_iff_right (hgiven fd')]
      constructor
      · rintro ⟨-, rfl⟩
        exact ⟨rfl, by omega⟩
      · rintro ⟨rfl, -⟩
        exact ⟨rfl, rfl⟩
    · rw [or_iff_left fun heq => huv heq.1]
      exact h.fd u s hs fd'
  · intro u s hs
    simp only [mem_append_iff, reduceCtorEq, or_false, hsame]
    simp only [apply, Function.update_apply] at hs
    split_ifs at hs with huv
    · obtain rfl := Option.some.inj hs
      rw [huv]
      exact iff_of_false Bool.false_ne_true hunused
    · exact h.flag u s hs
  · intro u hu
    simp only [mem_append_iff, reduceCtorEq, or_false, hsame] at hu ⊢
    obtain ⟨fd', hfd'⟩ := h.used u hu
    exact ⟨fd', .inl hfd'⟩
  · intro u hu
    simp only [mem_append_iff, reduceCtorEq, or_false, hsame] at hu ⊢
    exact h.shut u hu
  · intro u fd' hu
    simp only [mem_append_iff, reduceCtorEq, or_false, hsame, SockOp.given.injEq] at hu ⊢
    simp only [apply, Function.update_apply]
    rcases hu with hu | ⟨rfl, rfl⟩
    · have huv : v ≠ u := fun heq => hgiven fd' (heq ▸ hu)
      split_ifs with hfds
      · -- the descriptor was free, so that it is not open for another socket
        rw [← h.open_iff u fd' hu, hfds, hfree]
        simp [huv]
      · exact h.open_iff u fd' hu
    · rw [if_pos rfl]
      exact iff_of_true rfl ⟨fun hc => hunused (.inl hc), fun hg => absurd hg hmade.2⟩
  · intro fd' u hu
    simp only [mem_append_iff, SockOp.given.injEq]
    simp only [apply, Function.update_apply] at hu
    split_ifs at hu with hfds
    · obtain rfl := Option.some.inj hu
      exact .inr ⟨rfl, hfds⟩
    · exact .inl (h.owner fd' u hu)

/-- A socket whose descriptor is open was given it, and was not closed. -/
theorem of_owns (hv : k.Owns v) : ∃ s, k.vios v = some s ∧ s.fd ≠ -1 ∧ .given v s.fd ∈ ops ∧ .closed v ∉ ops ∧
    .made v ∈ ops ∧ .gone v ∉ ops := by
  obtain ⟨s, hs, hne, hfds⟩ := hv
  have hgiven := (h.fd v s hs s.fd).2 ⟨rfl, hne⟩
  exact ⟨s, hs, hne, hgiven, ((h.open_iff v s.fd hgiven).1 hfds).1, (h.alive v).1 ⟨s, hs⟩⟩

/-- A socket without a descriptor does not count as closed. -/
theorem closed_without {s : Sock} (hv : k.vios v = some s) (hfd : s.fd = -1) : s.closed = false := by
  refine Bool.eq_false_iff.2 fun hc => ?_
  obtain ⟨fd, hgiven⟩ := h.used v ((h.flag v s hv).1 hc)
  obtain ⟨heq, hne⟩ := (h.fd v s hv fd).1 hgiven
  exact hne (heq.trans hfd)

/-- The other side hangs up, or the socket is used anew. -/
theorem step_flag {b : Bool} (hop : op = if b then .hungUp v else .revived v) (hv : k.Owns v) :
    Books (ops ++ [op]) (k.mark v b) := by
  obtain ⟨s₀, hs₀, hne, hgiven, hclosed, hmade⟩ := h.of_owns hv
  have hhung : ∀ u, hung (ops ++ [op]) u = if v = u then b else hung ops u := by
    intro u
    rw [hung_append, hop]
    cases b <;> rfl
  have hmem : ∀ o, (∀ u, o ≠ .hungUp u) → (∀ u, o ≠ .revived u) → (o ∈ ops ++ [op] ↔ o ∈ ops) := by
    intro o h₁ h₂
    rw [mem_append_iff, hop]
    cases b with
    | true => exact or_iff_left (h₁ v)
    | false => exact or_iff_left (h₂ v)
  have hmemMade : ∀ u, (.made u ∈ ops ++ [op] ↔ .made u ∈ ops) := fun u => hmem _ nofun nofun
  have hmemGiven : ∀ u fd, (.given u fd ∈ ops ++ [op] ↔ .given u fd ∈ ops) := fun u fd => hmem _ nofun nofun
  have hmemClosed : ∀ u, (.closed u ∈ ops ++ [op] ↔ .closed u ∈ ops) := fun u => hmem _ nofun nofun
  have hmemGone : ∀ u, (.gone u ∈ ops ++ [op] ↔ .gone u ∈ ops) := fun u => hmem _ nofun nofun
  constructor
  · intro u fd hu
    rw [hmemGiven, hmemGone] at hu
    exact (hmemMade u).2 (h.made u fd hu)
  · intro u
    rw [hmemMade, hmemGone, ← h.alive u]
    dsimp only [mark]
    rw [Function.update_apply]
    split_ifs with huv
    · simp [huv, hs₀]
    · rfl
  · intro u s hs fd
    rw [hmemGiven]
    dsimp only [mark] at hs
    rw [Function.update_apply] at hs
    split_ifs at hs with huv
    · rw [hs₀] at hs
      obtain rfl := Option.some.inj hs
      exact huv ▸ h.fd v s₀ hs₀ fd
    · exact h.fd u s hs fd
  · intro u s hs
    rw [hmemClosed, hhung]
    dsimp only [mark] at hs
    rw [Function.update_apply] at hs
    split_ifs at hs with huv
    · rw [hs₀] at hs
      obtain rfl := Option.some.inj hs
      rw [if_pos huv.symm, huv, or_iff_right hclosed]
    · rw [if_neg (Ne.symm huv)]
      exact h.flag u s hs
  · intro u hu
    rw [hmemClosed, hhung] at hu
    by_cases huv : v = u
    · exact ⟨s₀.fd, (hmemGiven u s₀.fd).2 (huv ▸ hgiven)⟩
    · rw [if_neg huv] at hu
      obtain ⟨fd, hfd⟩ := h.used u hu
      exact ⟨fd, (hmemGiven u fd).2 hfd⟩
  · intro u hu
    rw [hmemClosed] at hu
    have huv : v ≠ u := fun heq => hclosed (heq ▸ hu)
    rw [hhung, if_neg huv]
    exact h.shut u hu
  · intro u fd hu
    rw [hmemGiven] at hu
    rw [hmemClosed, hmemGone, hhung]
    dsimp only [mark]
    rw [h.open_iff u fd hu]
    refine and_congr_right fun _ => forall_congr' fun hgone => ?_
    have huv : v ≠ u := fun heq => hmade.2 (heq ▸ hgone)
    rw [if_neg huv]
  · intro fd u hu
    exact (hmemGiven u fd).2 (h.owner fd u hu)

theorem step_closed (hv : k.Owns v) : Books (ops ++ [.closed v]) (k.apply (.closed v)) := by
  obtain ⟨s₀, hs₀, hne, hgiven, hclosed, hmade⟩ := h.of_owns hv
  have hhung : ∀ u, hung (ops ++ [.closed v]) u = if v = u then false else hung ops u := fun u => hung_append
  constructor
  · intro u fd hu
    simp only [mem_append_iff, reduceCtorEq, or_false] at hu ⊢
    exact h.made u fd hu
  · intro u
    simp only [apply, hs₀, mem_append_iff, reduceCtorEq, or_false, Function.update_apply]
    split_ifs with huv
    · simp [huv, hmade]
    · exact h.alive u
  · intro u s hs fd
    simp only [mem_append_iff, reduceCtorEq, or_false]
    simp only [apply, hs₀, Function.update_apply] at hs
    split_ifs at hs with huv
    · obtain rfl := Option.some.inj hs
      exact huv ▸ h.fd v s₀ hs₀ fd
    · exact h.fd u s hs fd
  · intro u s hs
    rw [hhung, mem_append_iff, SockOp.closed.injEq]
    simp only [apply, hs₀, Function.update_apply] at hs
    split_ifs at hs with huv
    · obtain rfl := Option.some.inj hs
      exact iff_of_true rfl (.inl (.inr huv))
    · rw [if_neg (Ne.symm huv), or_iff_left huv]
      exact h.flag u s hs
  · intro u hu
    simp only [mem_append_iff, reduceCtorEq, or_false, SockOp.closed.injEq, hhung] at hu ⊢
    by_cases huv : v = u
    · exact ⟨s₀.fd, huv ▸ hgiven⟩
    · rw [if_neg huv, or_iff_left (Ne.symm huv)] at hu
      exact h.used u hu
  · intro u hu
    rw [hhung]
    split_ifs with huv
    · rfl
    · rw [mem_append_iff, SockOp.closed.injEq, or_iff_left (Ne.symm huv)] at hu
      exact h.shut u hu
  · intro u fd hu
    simp only [mem_append_iff, reduceCtorEq, or_false, SockOp.closed.injEq, hhung] at hu ⊢
    simp only [apply, hs₀, Function.update_apply]
    by_cases huv : u = v
    · obtain rfl := ((h.fd v s₀ hs₀ fd).1 (huv ▸ hu)).1
      rw [if_pos rfl]
      exact iff_of_false nofun fun hc => hc.1 (.inr huv)
    · rw [if_neg (Ne.symm huv), or_iff_left huv]
      split_ifs with hfd
      · -- another socket that was given this descriptor does not have it any more
        refine iff_of_false nofun fun hc => huv ?_
        have hu' := (h.open_iff u fd hu).2 hc
        have hv' := (h.open_iff v s₀.fd hgiven).2 ⟨hclosed, fun hg => absurd hg hmade.2⟩
        rw [hfd, hv'] at hu'
        exact (Option.some.inj hu').symm
      · exact h.open_iff u fd hu
  · intro fd u hu
    simp only [mem_append_iff, reduceCtorEq, or_false]
    simp only [apply, hs₀, Function.update_apply] at hu
    split_ifs at hu
    exact h.owner fd u hu

/-- The descriptors of other sockets are left alone when a socket is gone. -/
theorem fdsWithout_of_ne {s : Sock} (hv : k.vios v = some s) (huv : u ≠ v) (fd : ℤ) :
    k.fdsWithout v fd = some u ↔ k.fds fd = some u := by
  unfold fdsWithout
  rw [hv]
  dsimp only
  split_ifs with hclosed
  · rfl
  · rw [Bool.or_eq_true, decide_eq_true_eq, not_or, Bool.not_eq_true] at hclosed
    rw [Function.update_apply]
    split_ifs with hfd
    · -- the socket does not count as closed, and so the descriptor is its own
      have hgiven := (h.fd v s hv s.fd).2 ⟨rfl, hclosed.2⟩
      have hunclosed : .closed v ∉ ops := fun hc => by
        have hflag := (h.flag v s hv).2 (.inl hc)
        rw [hclosed.1] at hflag
        exact Bool.false_ne_true hflag
      have hown := (h.open_iff v s.fd hgiven).2 ⟨hunclosed, fun hg => absurd hg ((h.alive v).1 ⟨s, hv⟩).2⟩
      rw [hfd, hown]
      exact iff_of_false nofun fun heq => huv (Option.some.inj heq).symm
    · rfl

/-- **A socket is gone**, and its descriptor is still open just if the other side hung up on it. -/
theorem fdsWithout_self {s : Sock} (hv : k.vios v = some s) (hgiven : .given v fd ∈ ops) :
    k.fdsWithout v fd = some v ↔ .closed v ∉ ops ∧ hung ops v := by
  have hfd := (h.fd v s hv fd).1 hgiven
  have hflag := h.flag v s hv
  have hopen := h.open_iff v fd hgiven
  have hgone := ((h.alive v).1 ⟨s, hv⟩).2
  rw [and_iff_left fun hg => absurd hg hgone] at hopen
  unfold fdsWithout
  rw [hv]
  dsimp only
  cases hclosed : s.closed with
  | true =>
    rw [Bool.true_or, if_pos rfl, hopen]
    rw [hclosed] at hflag
    exact ⟨fun hc => ⟨hc, (hflag.1 rfl).resolve_left hc⟩, And.left⟩
  | false =>
    have hne : ¬ s.fd = -1 := fun heq => hfd.2 (hfd.1.trans heq)
    rw [Bool.false_or, if_neg fun hd => hne (of_decide_eq_true hd), hfd.1, Function.update_self]
    rw [hclosed] at hflag
    exact iff_of_false nofun fun hc => Bool.false_ne_true (hflag.2 (.inr hc.2))

theorem step_gone {s : Sock} (hv : k.vios v = some s) : Books (ops ++ [.gone v]) (k.apply (.gone v)) := by
  have hsame : ∀ u, hung (ops ++ [.gone v]) u = hung ops u := fun u => hung_append
  have hmade := (h.alive v).1 ⟨s, hv⟩
  constructor
  · intro u fd hu
    simp only [mem_append_iff, reduceCtorEq, or_false, SockOp.gone.injEq] at hu ⊢
    rcases hu with hu | hu | rfl
    · exact h.made u fd (.inl hu)
    · exact h.made u fd (.inr hu)
    · exact hmade.1
  · intro u
    simp only [apply, mem_append_iff, reduceCtorEq, or_false, SockOp.gone.injEq, Function.update_apply]
    split_ifs with huv
    · simp [huv]
    · rw [or_iff_left huv]
      exact h.alive u
  · intro u s' hs fd
    simp only [mem_append_iff, reduceCtorEq, or_false]
    simp only [apply, Function.update_apply] at hs
    split_ifs at hs
    exact h.fd u s' hs fd
  · intro u s' hs
    simp only [mem_append_iff, reduceCtorEq, or_false, hsame]
    simp only [apply, Function.update_apply] at hs
    split_ifs at hs
    exact h.flag u s' hs
  · intro u hu
    simp only [mem_append_iff, reduceCtorEq, or_false, hsame] at hu ⊢
    exact h.used u hu
  · intro u hu
    simp only [mem_append_iff, reduceCtorEq, or_false, hsame] at hu ⊢
    exact h.shut u hu
  · intro u fd hu
    simp only [mem_append_iff, reduceCtorEq, or_false, SockOp.gone.injEq, hsame] at hu ⊢
    dsimp only [apply]
    by_cases huv : u = v
    · subst huv
      rw [h.fdsWithout_self hv hu]
      exact and_congr_right fun _ => ⟨fun hh _ => hh, fun hh => hh (.inr rfl)⟩
    · rw [h.fdsWithout_of_ne hv huv, or_iff_left huv]
      exact h.open_iff u fd hu
  · intro fd u hu
    simp only [mem_append_iff, reduceCtorEq, or_false]
    dsimp only [apply] at hu
    by_cases huv : u = v
    · subst huv
      unfold fdsWithout at hu
      rw [hv] at hu
      dsimp only at hu
      split_ifs at hu
      · exact h.owner fd u hu
      · rw [Function.update_apply] at hu
        split_ifs at hu
        exact h.owner fd u hu
    · exact h.owner fd u ((h.fdsWithout_of_ne hv huv fd).1 hu)

/-- **The books are kept.** -/
theorem step (hok : k.Ok ops op) : Books (ops ++ [op]) (k.apply op) := by
  match op, hok with
  | .made v, hv => exact h.step_made hv
  | .given v fd, ⟨hv, hfd, hfree⟩ => exact h.step_given hv hfd hfree
  | .hungUp v, hv => exact h.step_flag (b := true) rfl hv
  | .revived v, hv => exact h.step_flag (b := false) rfl hv
  | .closed v, hv => exact h.step_closed hv
  | .gone v, ⟨s, hv⟩ => exact h.step_gone hv

end Books

end Sockets

end Mowgli
