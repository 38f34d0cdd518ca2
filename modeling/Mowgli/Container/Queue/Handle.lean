import Mowgli.Container.Queue.Deque
/-!
# Insertion at a handle

The handle of a queue may be any cell of its chain. `mowgli_queue_shift`
puts a new cell right before it wherever it is. `mowgli_queue_push` does
not look at what is after the handle, and puts a new cell behind it only
where that is nothing.
-/

namespace Mowgli

namespace Queue

open Store NodeField

variable {A : Allocator MowgliIterator} {s : QueueHeap} {ys zs : List Addr} {ds : List (Option Addr)} {h out : Addr}

/-- A cell that is pushed points on at nothing. -/
theorem Chain.push_next (hc : Chain s.mem (ys ++ h :: zs) ds) (hpick : A.pick s.mem = some out) (d : Option Addr) :
    ∃ m', Queue.push A s (some h) d = some (some out, { s with mem := m' }) ∧
      F.links m' out = some (some h, none) := by
  obtain ⟨hrun, hout, h₀, hlout, hlive⟩ := hc.create hpick
  have hh : h ∈ ys ++ h :: zs := by simp
  have hoh : out ≠ h := fun hoh => hout (hoh ▸ hh)
  obtain ⟨m₁, hm₁, hl₁, -, hk₁⟩ := setPrev_spec (F := F) hlive (some h)
  obtain ⟨m₂, hm₂, hl₂, -, -, hk₂⟩ := setData_spec (F := F) (hk₁.live ▸ hlive) d
  obtain ⟨m₃, hm₃, hl₃, -, -⟩ := setNext_spec (F := F) (hk₂.live ▸ hk₁.live ▸ h₀.mem_live hh) (some out)
  refine ⟨m₃, ?_, ?_⟩
  · simp only [Queue.push, hrun, hm₁, hm₂, hm₃, Option.bind_eq_bind, Option.bind_some]
  · rw [hl₃, Links.setSnd_of_ne hoh, hl₂, hl₁, Links.setFst_self, hlout]
    rfl

/-- **Shifting is right at every handle, pushing at the last cell.** A chain
gets the new element right before the handle, by `mowgli_queue_shift`, and
right behind it, by `mowgli_queue_push`, if nothing is behind it and only
then. -/
theorem shift_push_iff (hc : Chain s.mem (ys ++ h :: zs) ds) (hpick : A.pick s.mem = some out) (d : Option Addr) :
    (∃ m', shift A s (some h) d = some (some out, { s with mem := m' }) ∧
      Chain m' (ys ++ out :: h :: zs) (ds.take ys.length ++ d :: ds.drop ys.length)) ∧
    ((∃ m', push A s (some h) d = some (some out, { s with mem := m' }) ∧
      Chain m' (ys ++ h :: out :: zs) (ds.take (ys.length + 1) ++ d :: ds.drop (ys.length + 1))) ↔ zs = []) := by
  refine ⟨hc.shift hpick d, fun ⟨m', hrun, hm'⟩ => ?_, ?_⟩
  · obtain ⟨m₁, hrun₁, hlinks⟩ := hc.push_next hpick d
    obtain ⟨-, heq⟩ := Prod.mk.inj (Option.some.inj (hrun.symm.trans hrun₁))
    rw [QueueHeap.mk.injEq] at heq
    obtain rfl := heq.1
    have happ : ys ++ h :: out :: zs = (ys ++ [h]) ++ out :: zs := by simp
    rw [happ] at hm'
    have hnext := congrArg Prod.snd (Option.some.inj (hm'.links.symm.trans hlinks))
    exact List.head?_eq_none_iff.1 hnext
  · rintro rfl
    have hlen := hc.length
    rw [List.length_append, List.length_singleton] at hlen
    obtain ⟨m', hrun, hm'⟩ := hc.push hpick d
    refine ⟨m', hrun, ?_⟩
    rw [List.take_of_length_le (by omega), List.drop_eq_nil_of_le (by omega)]
    rwa [List.append_assoc] at hm'

/-- A queue of two cells. -/
def twoCells : QueueHeap := ⟨(Store.empty.set 1 ⟨none, some 2, some 5⟩).set 2 ⟨some 1, none, some 6⟩, []⟩

theorem twoCells_chain : Chain twoCells.mem [1, 2] [some 5, some 6] where
  dll := ⟨rfl, some 2, rfl, rfl, none, rfl, rfl, rfl⟩
  nodup := by decide
  data := rfl

theorem shift_push_iff_two : ∃ (out : Addr) (m' : Store MowgliIterator),
    shift Allocator.bump twoCells (some 2) (some 7) = some (some out, { twoCells with mem := m' }) ∧
      Chain m' [1, out, 2] [some 5, some 7, some 6] := by
  have hchain : Chain twoCells.mem ([1] ++ 2 :: []) [some 5, some 6] := twoCells_chain
  obtain ⟨m', hrun, hm'⟩ := (shift_push_iff hchain
    (show Allocator.bump.pick twoCells.mem = some 3 from rfl) (some 7)).1
  exact ⟨3, m', hrun, hm'⟩

/-- **A cell that is pushed at the head of two cuts the other off.** -/
theorem push_cuts_off : ∃ (s s' : QueueHeap) (out : Addr), Chain s.mem [1, 2] [some 5, some 6] ∧
    push Allocator.bump s (some 1) (some 7) = some (some out, s') ∧ F.links s'.mem out = some (some 1, none) ∧
      ¬ Chain s'.mem [1, out, 2] [some 5, some 7, some 6] := by
  have hchain : Chain twoCells.mem ([] ++ 1 :: [2]) [some 5, some 6] := twoCells_chain
  obtain ⟨m', hrun, hlinks⟩ := hchain.push_next
    (show Allocator.bump.pick twoCells.mem = some 3 from rfl) (some 7)
  refine ⟨twoCells, { twoCells with mem := m' }, 3, twoCells_chain, hrun, hlinks, fun hc => ?_⟩
  have hlink := Chain.links (show Chain m' ([1] ++ 3 :: [2]) [some 5, some 7, some 6] from hc)
  rw [hlinks] at hlink
  cases hlink

end Queue

end Mowgli
