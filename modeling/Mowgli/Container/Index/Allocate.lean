import Mowgli.Container.Index.Runs
/-!
# How far an index can grow

`mowgli_index_allocate` doubles an `int` until it is enough. From 2 ^ 30 on
that gives the least `int`, and then 0, which stays 0. So a request for
more than 2 ^ 30 pointers is never answered, and every other one is.
-/

namespace Mowgli

namespace Index

variable {ix ix' source : MowgliIndex} {size s pos n : ℤ}

/-- The room of an index is its memory, and was made by doubling from 64. -/
structure Room (ix : MowgliIndex) : Prop where
  size : ix.size = (block ix).length
  null : ix.data = none ↔ ix.size = 0
  pow : ix.size = 0 ∨ ∃ j, 6 ≤ j ∧ j ≤ 30 ∧ ix.size = 2 ^ j

theorem room_create : Room create := ⟨rfl, iff_of_true rfl rfl, Or.inl rfl⟩

/-- What `index->size` is in the loop, whatever is asked for. -/
def Doubled (s : ℤ) : Prop := (∃ j ≤ 30, s = 2 ^ j) ∨ s = -2147483648 ∨ s = 0

theorem Doubled.double (h : Doubled s) : Doubled (toInt (s * 2)) := by
  rcases h with ⟨j, hj, rfl⟩ | rfl | rfl
  · rcases Nat.lt_or_ge j 30 with hlt | hge
    · have hpow : (2 : ℤ) ^ (j + 1) ≤ 2 ^ 30 := pow_le_pow_right₀ (by norm_num) hlt
      have hpos : (0 : ℤ) < 2 ^ (j + 1) := by positivity
      rw [← pow_succ, toInt_of_range (by omega) (by norm_num at hpow; omega)]
      exact Or.inl ⟨j + 1, hlt, rfl⟩
    · obtain rfl : j = 30 := by omega
      exact Or.inr (Or.inl rfl)
  · exact Or.inr (Or.inr rfl)
  · exact Or.inr (Or.inr rfl)

theorem Doubled.le (h : Doubled s) : s ≤ 2 ^ 30 := by
  rcases h with ⟨j, hj, rfl⟩ | rfl | rfl
  · exact pow_le_pow_right₀ (by norm_num) hj
  · norm_num
  · norm_num

/-- **The loop does not end** where more than 2 ^ 30 pointers are asked for,
however many rounds it makes. -/
theorem Doubled.growSize (h : Doubled s) (hsize : 2 ^ 30 < size) (fuel : ℕ) : Index.growSize size fuel s = none := by
  induction fuel generalizing s with
  | zero =>
    have hle := h.le
    rw [Index.growSize, if_pos (by omega)]
  | succ fuel ih =>
    have hle := h.le
    rw [Index.growSize, if_pos (by omega)]
    exact ih h.double

/-- The room that the loop starts from. -/
theorem Room.oldsize (h : Room ix) : ∃ j, 6 ≤ j ∧ j ≤ 30 ∧ (if ix.size = 0 then 64 else ix.size) = (2 : ℤ) ^ j := by
  rcases h.pow with h0 | ⟨j, hj, hj30, hpow⟩
  · exact ⟨6, le_rfl, by omega, by rw [if_pos h0]; norm_num⟩
  · refine ⟨j, hj, hj30, ?_⟩
    rw [if_neg (by rw [hpow]; positivity), hpow]

/-- The old memory is copied to the new. -/
theorem copyBytes_alloc {old : PtrArray} {j k : ℕ} (hj : 6 ≤ j) (hjk : j ≤ k) (hold : (old.length : ℤ) = 2 ^ j) :
    ∃ a, (PtrArray.alloc (2 ^ k)).copyBytes old (2 ^ j) = some a ∧ a.length = 2 ^ k := by
  have hmul : (8 : ℤ) ∣ 2 ^ j := by
    rw [show (8 : ℤ) = 2 ^ 3 by norm_num]
    exact pow_dvd_pow 2 (by omega)
  have hpos : (0 : ℤ) < 2 ^ j := by positivity
  have hle : (2 : ℤ) ^ j ≤ 2 ^ k := pow_le_pow_right₀ (by norm_num) hjk
  have hnew : ((PtrArray.alloc (2 ^ k)).length : ℤ) = 2 ^ k := by
    rw [PtrArray.alloc]
    norm_cast
  refine ⟨(PtrArray.alloc (2 ^ k)).paste old 0 0 ((2 : ℤ) ^ j / 8).toNat, ?_, rfl⟩
  rw [PtrArray.copyBytes, if_pos (Int.emod_eq_zero_of_dvd hmul), PtrArray.copy, if_pos (by omega)]
  rfl

/-- **`mowgli_index_allocate`** of no more than 2 ^ 30 pointers. -/
theorem Room.allocate (h : Room ix) (hsize : size ≤ 2 ^ 30) :
    ∃ ix', Index.allocate ix size = some ix' ∧ Room ix' ∧ size ≤ ix'.size := by
  rw [Index.allocate]
  by_cases hgrow : size ≤ ix.size
  · rw [if_pos hgrow]
    exact ⟨ix, rfl, h, hgrow⟩
  · rw [if_neg hgrow]
    obtain ⟨j, hj, hj30, hold⟩ := h.oldsize
    obtain ⟨k, hk, hjk, hk30, hle⟩ := growSize_spec (n := 30) le_rfl hsize 32 j hj30 (by omega)
    have hkn : ((2 : ℤ) ^ k).toNat = 2 ^ k := by norm_cast
    have hkpos : (2 : ℤ) ^ k ≠ 0 := by positivity
    have hkcast : (2 : ℤ) ^ k = ((2 ^ k : ℕ) : ℤ) := by norm_cast
    have hroom : ∀ a : PtrArray, a.length = 2 ^ k → Room { ix with data := some a, size := 2 ^ k } := by
      intro a ha
      refine ⟨?_, iff_of_false (by simp) hkpos, Or.inr ⟨k, by omega, hk30, rfl⟩⟩
      rw [block, Option.getD_some, ha]
      exact hkcast
    simp only [hold, hk, hkn, Option.bind_eq_bind, Option.bind_some]
    cases hd : ix.data with
    | none => exact ⟨_, rfl, hroom _ rfl, hle⟩
    | some old =>
      have hne : ix.size ≠ 0 := fun h0 => by simpa [hd] using h.null.2 h0
      rw [if_neg hne] at hold
      have hlen : (old.length : ℤ) = 2 ^ j := by
        rw [← hold, h.size, block, hd, Option.getD_some]
      obtain ⟨a, ha, halen⟩ := copyBytes_alloc hj hjk hlen
      simp only [ha, Option.bind_some]
      exact ⟨_, rfl, hroom a halen, hle⟩

/-- A request for more than 2 ^ 30 pointers is not answered. -/
theorem Room.allocate_none (h : Room ix) (hsize : 2 ^ 30 < size) : Index.allocate ix size = none := by
  have hle : ix.size ≤ 2 ^ 30 := by
    rcases h.pow with h0 | ⟨j, -, hj, hpow⟩
    · rw [h0]
      norm_num
    · rw [hpow]
      exact pow_le_pow_right₀ (by norm_num) hj
  obtain ⟨j, -, hj30, hold⟩ := h.oldsize
  have hgrow := Doubled.growSize (Or.inl ⟨j, hj30, hold⟩) hsize 32
  rw [Index.allocate, if_neg (by omega)]
  simp only [hgrow, Option.bind_eq_bind, Option.bind_none]

/-! ## Runs -/

/-- A call that changes an index. A copy is from any other index. -/
inductive Call
  | allocate (size : ℤ)
  | set (pos : ℤ) (value : Option Addr)
  | insert (pos : ℤ) (value : Option Addr)
  | append (value : Option Addr)
  | copyInsert (source : MowgliIndex) (src dst count : ℤ)
  | copyAppend (source : MowgliIndex) (src count : ℤ)
  | mergeInsert (pos : ℤ) (second : MowgliIndex)
  | mergeAppend (second : MowgliIndex)
  | move (src dst count : ℤ)
  | delete (pos count : ℤ)

/-- What the index is after a call. -/
def Call.exec (ix : MowgliIndex) : Call → Option MowgliIndex
  | allocate size => Index.allocate ix size
  | set pos value => Index.set ix pos value
  | insert pos value => Index.insert ix pos value
  | append value => Index.append ix value
  | copyInsert source src dst count => Index.copyInsert source src ix dst count
  | copyAppend source src count => Index.copyAppend source src ix count
  | mergeInsert pos second => Index.mergeInsert ix pos second
  | mergeAppend second => Index.mergeAppend ix second
  | move src dst count => Index.move ix src dst count
  | delete pos count => Index.delete ix pos count

/-- A call. -/
def Call.run (ix : MowgliIndex) (c : Call) : Option (Unit × MowgliIndex) := (c.exec ix).map fun ix' => ((), ix')

/-- The runs of an index from its creation, with any calls. -/
abbrev CallRuns : List (Call × Unit) → MowgliIndex → Prop := Run Call.run (fun _ _ => True) create

/-- Other memory of the same length. -/
theorem Room.replace (h : Room ix) {a b : PtrArray} (hd : ix.data = some a) (hb : b.length = a.length) :
    Room { ix with data := some b } := by
  refine ⟨?_, iff_of_false (by simp) fun h0 => ?_, h.pow⟩
  · rw [h.size, block, block, hd, Option.getD_some, Option.getD_some, hb]
  · rw [h.null.2 h0] at hd
    cases hd

theorem Room.withCount (h : Room ix) (c : ℤ) : Room { ix with count := c } := ⟨h.size, h.null, h.pow⟩

theorem length_of_copy {a b a' : PtrArray} {dst src : ℤ} (h : a.copy b dst src n = some a') : a'.length = a.length := by
  unfold PtrArray.copy at h
  split_ifs at h
  rw [← Option.some.inj h]
  rfl

theorem Room.memmove (h : Room ix) {dst src : ℤ} (hrun : Index.memmove ix dst src n = some ix') : Room ix' := by
  unfold Index.memmove at hrun
  split_ifs at hrun
  · exact Option.some.inj hrun ▸ h
  · obtain ⟨a, hd, hrun⟩ := Option.bind_eq_some_iff.1 hrun
    obtain ⟨b, hb, hrun⟩ := Option.bind_eq_some_iff.1 hrun
    exact Option.some.inj hrun ▸ h.replace hd (length_of_copy hb)

theorem Room.memcpy (h : Room ix) {dst src : ℤ} (hrun : Index.memcpy source ix dst src n = some ix') : Room ix' := by
  unfold Index.memcpy at hrun
  split_ifs at hrun
  · exact Option.some.inj hrun ▸ h
  · obtain ⟨_, -, hrun⟩ := Option.bind_eq_some_iff.1 hrun
    obtain ⟨a, hd, hrun⟩ := Option.bind_eq_some_iff.1 hrun
    obtain ⟨b, hb, hrun⟩ := Option.bind_eq_some_iff.1 hrun
    exact Option.some.inj hrun ▸ h.replace hd (length_of_copy hb)

theorem Room.set (h : Room ix) {v : Option Addr} (hrun : Index.set ix pos v = some ix') : Room ix' := by
  obtain ⟨a, hd, hrun⟩ := Option.bind_eq_some_iff.1 hrun
  obtain ⟨b, hb, hrun⟩ := Option.bind_eq_some_iff.1 hrun
  refine Option.some.inj hrun ▸ h.replace hd ?_
  unfold PtrArray.set at hb
  split_ifs at hb
  rw [← Option.some.inj hb]

/-- An answered request was for no more than 2 ^ 30 pointers. -/
theorem Room.of_allocate (h : Room ix) (hrun : Index.allocate ix size = some ix') : Room ix' := by
  rcases le_or_gt size (2 ^ 30) with hle | hgt
  · obtain ⟨ix₁, hrun₁, h₁, -⟩ := h.allocate hle
    exact Option.some.inj (hrun.symm.trans hrun₁) ▸ h₁
  · rw [h.allocate_none hgt] at hrun
    cases hrun

theorem Room.makeRoom (h : Room ix) (hrun : Index.makeRoom ix pos n = some ix') : Room ix' := by
  obtain ⟨ix₁, hrun₁, hrun⟩ := Option.bind_eq_some_iff.1 hrun
  have h₁ := h.of_allocate hrun₁
  dsimp only at hrun
  split_ifs at hrun
  · obtain ⟨ix₂, hrun₂, hrun⟩ := Option.bind_eq_some_iff.1 hrun
    exact Option.some.inj hrun ▸ (h₁.memmove hrun₂).withCount _
  · exact Option.some.inj hrun ▸ h₁.withCount _

theorem Room.insert (h : Room ix) {v : Option Addr} (hrun : Index.insert ix pos v = some ix') : Room ix' := by
  obtain ⟨ix₁, hrun₁, hrun⟩ := Option.bind_eq_some_iff.1 hrun
  exact (h.makeRoom hrun₁).set hrun

theorem Room.copyInsert (h : Room ix) {src dst : ℤ} (hrun : Index.copyInsert source src ix dst n = some ix') :
    Room ix' := by
  obtain ⟨ix₁, hrun₁, hrun⟩ := Option.bind_eq_some_iff.1 hrun
  exact (h.makeRoom hrun₁).memcpy hrun

/-- One call. -/
theorem Room.exec (h : Room ix) {c : Call} (hrun : c.exec ix = some ix') : Room ix' := by
  cases c with
  | allocate size => exact h.of_allocate hrun
  | set pos value => exact h.set hrun
  | insert pos value => exact h.insert hrun
  | append value => exact h.insert hrun
  | copyInsert source src dst count => exact h.copyInsert hrun
  | copyAppend source src count => exact h.copyInsert hrun
  | mergeInsert pos second => exact h.copyInsert hrun
  | mergeAppend second => exact h.copyInsert hrun
  | move src dst count => exact h.memmove hrun
  | delete pos count => exact (h.withCount _).memmove hrun

theorem CallRuns.room {tr : List (Call × Unit)} (h : CallRuns tr ix) : Room ix :=
  Run.invariant room_create (fun {ix c _ ix'} hix _ hrun => by
    obtain ⟨ix₁, hrun₁, heq⟩ := Option.map_eq_some_iff.1 hrun
    exact (Prod.mk.inj heq).2 ▸ hix.exec hrun₁) h

/-- **An allocation is answered exactly up to 2 ^ 30 pointers.** Whatever calls
have been made on an index, `mowgli_index_allocate` ends, with room for what
is asked for, if that is no more than 2 ^ 30; otherwise its loop goes on for
any number of rounds. -/
theorem runs_allocate {tr : List (Call × Unit)} (h : CallRuns tr ix) (size : ℤ) :
    ((∃ ix', Index.allocate ix size = some ix' ∧ size ≤ ix'.size) ↔ size ≤ 2 ^ 30) ∧
      (2 ^ 30 < size → ∀ fuel, growSize size fuel (if ix.size = 0 then 64 else ix.size) = none) := by
  refine ⟨⟨fun ⟨ix', hrun, _⟩ => ?_, fun hsize => ?_⟩, fun hsize fuel => ?_⟩
  · by_contra hgt
    rw [h.room.allocate_none (not_le.1 hgt)] at hrun
    cases hrun
  · obtain ⟨ix', hrun, -, hle⟩ := h.room.allocate hsize
    exact ⟨ix', hrun, hle⟩
  · obtain ⟨j, -, hj30, hold⟩ := h.room.oldsize
    exact Doubled.growSize (Or.inl ⟨j, hj30, hold⟩) hsize fuel

theorem runs_allocate_hundred : ∃ ix', Index.allocate create 100 = some ix' ∧ 100 ≤ ix'.size :=
  (runs_allocate Run.nil 100).1.2 (by norm_num)

/-- **A request for one pointer more than 2 ^ 30 is not answered.** -/
theorem allocate_endless : Index.allocate create (2 ^ 30 + 1) = none ∧
    ∀ fuel, growSize (2 ^ 30 + 1) fuel 64 = none :=
  ⟨room_create.allocate_none (by norm_num), Doubled.growSize (Or.inl ⟨6, by norm_num, by norm_num⟩) (by norm_num)⟩

end Index

end Mowgli
