import Mowgli.Container.Index
/-!
# What the operations on an index store

Each insertion goes through `make_room`. The pointers an operation finds
are those that survived it (`survivors`), and to these it does what it
should.
-/

namespace Mowgli

namespace Index

variable {ix source target : MowgliIndex} {xs ys ws : List (Option Addr)} {pos n : ℕ}

/-- **Storage is made** for `want` pointers. -/
theorem Stores.allocate (h : Stores ix xs) (want : ℤ) (hle : want ≤ 2 ^ 20) (hlen : xs.length ≤ want) :
    ∃ ix', allocate ix want = some ix' ∧ Stores ix' (survivors ix.size want xs) ∧
      want ≤ (block ix').length := by
  rw [Index.allocate]
  by_cases hgrow : want ≤ ix.size
  · rw [if_pos hgrow, survivors, if_neg (not_lt.2 hgrow)]
    exact ⟨ix, rfl, h, by rw [← h.sized.size]; exact hgrow⟩
  · rw [if_neg hgrow, survivors, if_pos (not_le.1 hgrow)]
    have hfits := h.fits
    have hsize := h.sized.size
    -- The room it starts from, and the room there is at the end.
    obtain ⟨j, hj, hj20, hold, hmul⟩ : ∃ j, 6 ≤ j ∧ j ≤ 20 ∧ (if ix.size = 0 then 64 else ix.size) = (2 : ℤ) ^ j ∧
        (8 : ℤ) ∣ 2 ^ j := by
      have h8 : ∀ j, 6 ≤ j → (8 : ℤ) ∣ 2 ^ j := fun j hj => by
        rw [show (8 : ℤ) = 2 ^ 3 by norm_num]
        exact pow_dvd_pow 2 (by omega)
      rcases h.sized.pow with h0 | ⟨j, hj, hj20, hpow⟩
      · exact ⟨6, le_rfl, by omega, by rw [if_pos h0]; norm_num, h8 6 le_rfl⟩
      · refine ⟨j, hj, hj20, ?_, h8 j hj⟩
        rw [if_neg (by rw [hpow]; positivity), hpow]
    obtain ⟨k, hk, hjk, hk20, hwant⟩ := growSize_spec (n := 20) (by omega) hle 32 j hj20 (by omega)
    have hkpos : (0 : ℤ) < 2 ^ k := by positivity
    have hkn : ((2 : ℤ) ^ k).toNat = 2 ^ k := by norm_cast
    have hjk' : (2 : ℤ) ^ j ≤ 2 ^ k := pow_le_pow_right₀ (by norm_num) hjk
    simp only [hold, hk, Option.bind_eq_bind, Option.bind_some]
    cases hd : ix.data with
    | none =>
      have h0 := h.sized.null.1 hd
      have hnil : xs = [] := by
        rw [block, hd] at hfits
        exact List.length_eq_zero_iff.1 (Nat.le_zero.1 hfits)
      subst hnil
      rw [show ([] : List (Option Addr)).take (ix.size / 8).toNat ++ List.replicate ([].length - (ix.size / 8).toNat) none = [] by simp]
      refine ⟨_, rfl, ⟨⟨?_, ?_, Or.inr ⟨k, by omega, hk20, rfl⟩⟩, h.count, Nat.zero_le _, by simp⟩, ?_⟩
      · rw [block, Option.getD_some, PtrArray.alloc]
        exact (Int.toNat_of_nonneg hkpos.le).symm
      · exact iff_of_false (by simp) hkpos.ne'
      · rw [block, Option.getD_some, PtrArray.alloc, hkn]
        exact_mod_cast hwant
    | some old =>
      have hne : ix.size ≠ 0 := fun h0 => by simpa [hd] using h.sized.null.2 h0
      rw [if_neg hne] at hold
      have hblock : block ix = old := by rw [block, hd, Option.getD_some]
      rw [hblock] at hsize hfits
      have hcopy : (PtrArray.alloc (2 ^ k)).copyBytes old (2 ^ j) =
          some ((PtrArray.alloc (2 ^ k)).paste old 0 0 ((2 : ℤ) ^ j / 8).toNat) := by
        have h2k : ((PtrArray.alloc (2 ^ k)).length : ℤ) = 2 ^ k := by
          rw [PtrArray.alloc]
          norm_cast
        rw [PtrArray.copyBytes, if_pos (Int.emod_eq_zero_of_dvd hmul), PtrArray.copy, if_pos (by omega)]
        rfl
      simp only [hkn, hcopy, Option.bind_some]
      refine ⟨_, rfl, ⟨⟨?_, ?_, Or.inr ⟨k, by omega, hk20, rfl⟩⟩, ?_, ?_, fun i x hx => ?_⟩, ?_⟩
      · rw [block, Option.getD_some]
        show (2 : ℤ) ^ k = ((2 ^ k : ℕ) : ℤ)
        norm_cast
      · exact iff_of_false (by simp) hkpos.ne'
      · rw [List.length_append, List.length_take, List.length_replicate, h.count]
        omega
      · rw [List.length_append, List.length_take, List.length_replicate]
        show _ ≤ 2 ^ k
        have : ((2 ^ k : ℕ) : ℤ) = 2 ^ k := by norm_cast
        omega
      · show (if 0 ≤ i ∧ i < 0 + ((2 : ℤ) ^ j / 8).toNat then old.cell (i - 0 + 0) else none) = x
        rw [hold] at hx
        by_cases hi : i < ((2 : ℤ) ^ j / 8).toNat
        · rw [if_pos (by omega)]
          have hxi : xs[i]? = some x := by
            rw [List.getElem?_append] at hx
            split_ifs at hx with hlt
            · rw [List.getElem?_take_of_lt hi] at hx
              exact hx
            · rw [List.length_take] at hlt
              rw [List.getElem?_replicate] at hx
              split_ifs at hx with hr
              omega
          have := h.cell i x hxi
          rwa [hblock] at this
        · rw [if_neg (by omega)]
          rw [List.getElem?_append_right (by rw [List.length_take]; omega), List.getElem?_replicate] at hx
          split_ifs at hx
          exact Option.some.inj hx
      · show want ≤ ((2 ^ k : ℕ) : ℤ)
        norm_cast at hwant ⊢

/-- The pointers `ys` with room for `n` more before the one at `pos`. -/
structure Gap (ix : MowgliIndex) (ys : List (Option Addr)) (pos n : ℕ) : Prop where
  sized : Sized ix
  count : ix.count = ys.length + n
  fits : ys.length + n ≤ (block ix).length
  cell : ∀ i x, ys[i]? = some x → (block ix).cell (if i < pos then i else i + n) = x

/-- **`make_room`** makes the room, with the pointers that survived it. -/
theorem Stores.makeRoom (h : Stores ix xs) (hpos : pos ≤ xs.length) (hle : xs.length + n < 2 ^ 20) :
    ∃ ix', makeRoom ix pos n = some ix' ∧ Gap ix' (survivors ix.size (xs.length + n) xs) pos n := by
  have hsum : ∀ c : ℤ, c = xs.length → toInt (c + n) = xs.length + n := by
    rintro c rfl
    exact toInt_of_range (by omega) (by norm_num at hle; omega)
  obtain ⟨ix₁, hrun₁, h₁, hroom⟩ := h.allocate (xs.length + n) (by omega) (by omega)
  have hlen := survivors_length ix.size (xs.length + n) xs
  generalize survivors ix.size (xs.length + n) xs = ys at h₁ hlen ⊢
  have hcount₁ : ix₁.count = xs.length := by rw [h₁.count, hlen]
  rw [Index.makeRoom, hsum _ h.count, hrun₁, Option.bind_eq_bind, Option.bind_some]
  by_cases hlt : (pos : ℤ) < ix₁.count
  · obtain ⟨ix₂, hrun₂, hs₂, hc₂, hz₂, hcell₂⟩ := memmove_spec h₁.sized (pos + n) pos (xs.length - pos)
      (by omega) (by omega)
    have hrun₂' : memmove ix₁ (pos + n) pos (ix₁.count - pos) = some ix₂ := by
      rw [← hrun₂, hcount₁]
      congr 1
      omega
    have hlen₂ : (block ix₂).length = (block ix₁).length := by
      have h₂ := hs₂.size
      have h₁ := h₁.sized.size
      omega
    rw [if_pos hlt, hrun₂', Option.bind_some]
    refine ⟨_, rfl, hs₂.withCount _, ?_, ?_, fun i x hx => ?_⟩
    · show toInt (ix₂.count + n) = _
      rw [hsum _ (hc₂.trans hcount₁), hlen]
    · show _ ≤ (block ix₂).length
      omega
    · show (block ix₂).cell _ = x
      have hi : i < xs.length := hlen ▸ (List.getElem?_eq_some_iff.1 hx).1
      rw [hcell₂, ← h₁.cell i x hx]
      split_ifs with h₁ h₂ h₂
      · omega
      · rfl
      · congr 1
        omega
      · omega
  · rw [if_neg hlt, Option.bind_some]
    refine ⟨_, rfl, h₁.sized.withCount _, ?_, ?_, fun i x hx => ?_⟩
    · show toInt (ix₁.count + n) = _
      rw [hsum _ hcount₁, hlen]
    · show _ ≤ (block ix₁).length
      omega
    · show (block ix₁).cell _ = x
      have hi : i < xs.length := hlen ▸ (List.getElem?_eq_some_iff.1 hx).1
      rw [if_pos (by omega)]
      exact h₁.cell i x hx

/-- The gap is filled with the pointers `ws`. -/
theorem Gap.fill {ix' : MowgliIndex} (h : Gap ix ys pos n) (hpos : pos ≤ ys.length) (hn : ws.length = n)
    (hs : Sized ix') (hc : ix'.count = ix.count) (hz : ix'.size = ix.size)
    (hw : ∀ i x, ws[i]? = some x → (block ix').cell (pos + i) = x)
    (ho : ∀ i, i < pos ∨ pos + n ≤ i → (block ix').cell i = (block ix).cell i) :
    Stores ix' (ys.take pos ++ ws ++ ys.drop pos) := by
  have hlen : (ys.take pos ++ ws ++ ys.drop pos).length = ys.length + n := by
    rw [List.length_append, List.length_append, List.length_take, List.length_drop]
    omega
  refine ⟨hs, ?_, ?_, fun i x hx => ?_⟩
  · rw [hlen, hc, h.count]
    push_cast
    rfl
  · have hsize' := hs.size
    have hsize := h.sized.size
    have hfits := h.fits
    omega
  · rw [List.append_assoc, List.getElem?_append, List.length_take] at hx
    split_ifs at hx with hi
    · rw [ho i (by omega)]
      rw [List.getElem?_take_of_lt (by omega)] at hx
      have := h.cell i x hx
      rwa [if_pos (by omega)] at this
    · rw [List.getElem?_append] at hx
      split_ifs at hx with hi'
      · have := hw _ x hx
        rwa [show pos + (i - min pos ys.length) = i by omega] at this
      · rw [List.getElem?_drop] at hx
        rw [ho i (by omega)]
        have := h.cell _ x hx
        rw [if_neg (by omega)] at this
        rwa [show pos + (i - min pos ys.length - ws.length) + n = i by omega] at this

/-- **Inserting a pointer.** -/
theorem Stores.insert (h : Stores ix xs) (hpos : pos ≤ xs.length) (hle : xs.length + 1 < 2 ^ 20)
    (v : Option Addr) :
    ∃ ix', insert ix pos v = some ix' ∧
      Stores ix' ((survivors ix.size (xs.length + 1) xs).take pos ++ [v] ++
        (survivors ix.size (xs.length + 1) xs).drop pos) := by
  obtain ⟨ix₁, hrun₁, hgap⟩ := h.makeRoom (n := 1) hpos hle
  have hlen := survivors_length ix.size (xs.length + (1 : ℕ)) xs
  have hfits := hgap.fits
  obtain ⟨ix₂, hrun₂, hs₂, hc₂, hz₂, hcell₂⟩ := set_spec hgap.sized pos (by omega) v
  refine ⟨ix₂, ?_, hgap.fill (by rw [hlen]; exact hpos) rfl hs₂ hc₂ hz₂ (fun i x hx => ?_) fun i hi => ?_⟩
  · rw [Index.insert]
    erw [hrun₁]
    exact hrun₂
  · rw [List.getElem?_singleton] at hx
    split_ifs at hx with hi
    rw [hi, Nat.add_zero, hcell₂, if_pos rfl]
    exact Option.some.inj hx
  · rw [hcell₂, if_neg (by omega)]

/-- **Inserting pointers of another index.** -/
theorem Stores.copyInsert (src : ℕ) (hs : Stores source ws) (h : Stores target xs) (hsrc : src + n ≤ ws.length)
    (hpos : pos ≤ xs.length) (hle : xs.length + n < 2 ^ 20) :
    ∃ ix', copyInsert source src target pos n = some ix' ∧
      Stores ix' ((survivors target.size (xs.length + n) xs).take pos ++ (ws.drop src).take n ++
        (survivors target.size (xs.length + n) xs).drop pos) := by
  obtain ⟨ix₁, hrun₁, hgap⟩ := h.makeRoom (n := n) hpos hle
  have hlen := survivors_length target.size (xs.length + n) xs
  have hfits := hgap.fits
  have hfits' := hs.fits
  obtain ⟨ix₂, hrun₂, hs₂, hc₂, hz₂, hcell₂⟩ := memcpy_spec source hgap.sized pos src n (by omega) (by omega)
  refine ⟨ix₂, ?_, hgap.fill (by rw [hlen]; exact hpos) ?_ hs₂ hc₂ hz₂ (fun i x hx => ?_) fun i hi => ?_⟩
  · rw [Index.copyInsert, hrun₁, Option.bind_eq_bind, Option.bind_some, hrun₂]
  · rw [List.length_take, List.length_drop]
    omega
  · have hi : i < n := by
      have := (List.getElem?_eq_some_iff.1 hx).1
      rw [List.length_take] at this
      omega
    rw [List.getElem?_take_of_lt hi, List.getElem?_drop] at hx
    rw [hcell₂, if_pos (by omega), show pos + i - pos + src = src + i by omega]
    exact hs.cell _ x hx
  · rw [hcell₂, if_neg (by omega)]

/-- **Moving a range** over another. -/
theorem Stores.move {src dst : ℕ} (h : Stores ix xs) (hsrc : src + n ≤ xs.length) (hdst : dst + n ≤ xs.length) :
    ∃ ix', move ix src dst n = some ix' ∧ ix'.size = ix.size ∧
      Stores ix' (xs.take dst ++ (xs.drop src).take n ++ xs.drop (dst + n)) := by
  have hfits := h.fits
  obtain ⟨ix', hrun, hs, hc, hz, hcell⟩ := memmove_spec h.sized dst src n (by omega)
    (by omega)
  have hlen : (xs.take dst ++ (xs.drop src).take n ++ xs.drop (dst + n)).length = xs.length := by
    rw [List.length_append, List.length_append, List.length_take, List.length_take, List.length_drop,
      List.length_drop]
    omega
  have hsize := hs.size
  have hsize' := h.sized.size
  refine ⟨ix', hrun, hz, hs, by rw [hc, h.count, hlen], by omega, fun i x hx => ?_⟩
  rw [hcell]
  rw [List.append_assoc, List.getElem?_append, List.length_take] at hx
  split_ifs at hx with hi
  · rw [List.getElem?_take_of_lt (by omega)] at hx
    rw [if_neg (by omega)]
    exact h.cell i x hx
  · rw [List.getElem?_append, List.length_take, List.length_drop] at hx
    split_ifs at hx with hi'
    · rw [List.getElem?_take_of_lt (by omega), List.getElem?_drop] at hx
      rw [if_pos (by omega), show i - dst + src = src + (i - min dst xs.length) by omega]
      exact h.cell _ x hx
    · rw [List.getElem?_drop] at hx
      rw [if_neg (by omega)]
      rw [show dst + n + (i - min dst xs.length - min n (xs.length - src)) = i by omega] at hx
      exact h.cell i x hx

/-- **Deleting a range.** -/
theorem Stores.delete (h : Stores ix xs) (hpos : pos + n ≤ xs.length) :
    ∃ ix', delete ix pos n = some ix' ∧ ix'.size = ix.size ∧ Stores ix' (xs.take pos ++ xs.drop (pos + n)) := by
  have hfits := h.fits
  have hle := h.sized.length_le
  have hcount : toInt (ix.count - n) = (xs.length - n : ℕ) := by
    rw [h.count, toInt_of_range (by omega) (by norm_num at hle; omega)]
    omega
  obtain ⟨ix', hrun, hs, hc, hz, hcell⟩ := memmove_spec (h.sized.withCount (xs.length - n : ℕ))
    pos (pos + n) (xs.length - n - pos) (by show _ ≤ (block ix).length; omega)
    (by show _ ≤ (block ix).length; omega)
  have hlen : (xs.take pos ++ xs.drop (pos + n)).length = xs.length - n := by
    rw [List.length_append, List.length_take, List.length_drop]
    omega
  have hsize := hs.size
  have hsize' : ix'.size = (block ix).length := by rw [hz]; exact h.sized.size
  refine ⟨ix', ?_, hz, hs, by rw [hc, hlen], by omega, fun i x hx => ?_⟩
  · rw [Index.delete, hcount, ← hrun]
    show memmove _ _ _ ((xs.length - n : ℕ) - pos) = _
    congr 1
    omega
  · rw [hcell]
    show (if _ then (block ix).cell _ else (block ix).cell _) = x
    rw [List.getElem?_append, List.length_take] at hx
    split_ifs at hx with hi
    · rw [List.getElem?_take_of_lt (by omega)] at hx
      rw [if_neg (by omega)]
      exact h.cell i x hx
    · rw [List.getElem?_drop] at hx
      have := (List.getElem?_eq_some_iff.1 hx).1
      rw [if_pos (by omega), show i - pos + (pos + n) = pos + n + (i - min pos xs.length) by omega]
      exact h.cell _ x hx

/-- **Setting a pointer.** -/
theorem Stores.set (h : Stores ix xs) (hpos : pos < xs.length) (v : Option Addr) :
    ∃ ix', set ix pos v = some ix' ∧ ix'.size = ix.size ∧ Stores ix' (xs.set pos v) := by
  have hfits := h.fits
  obtain ⟨ix', hrun, hs, hc, hz, hcell⟩ := set_spec h.sized pos (by omega) v
  have hsize := hs.size
  have hsize' := h.sized.size
  refine ⟨ix', hrun, hz, hs, by rw [hc, h.count, List.length_set], by rw [List.length_set]; omega,
    fun i x hx => ?_⟩
  rw [hcell]
  rw [List.getElem?_set] at hx
  split_ifs at hx with hi
  · rw [if_pos hi.symm]
    exact Option.some.inj hx
  · rw [if_neg (Ne.symm hi)]
    exact h.cell i x hx

end Index

end Mowgli
