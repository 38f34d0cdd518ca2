import Mathlib.Data.Int.GCD
import Mathlib.Data.List.Basic
import Mathlib.Data.Nat.ModEq
import Mathlib.Data.Set.Function
import Mathlib.Order.Interval.Set.Basic
import Mathlib.Tactic.LinearCombination
/-!
# Rotation in place

Letters are moved along a cycle of places by exchanges with one place of it
(`carry`). The places of two blocks that stand side by side fall into as many
cycles as the greatest common divisor of their lengths, and when each was gone
around, the blocks have changed places (`juggle_append`).
-/

namespace Mowgli

variable {α : Type} {d : α} {v v' : List α} {i j k l x c m n q b z : ℕ} {next p : ℕ → ℕ}

/-- Two letters change places; `d` is in no list. -/
def exchange (d : α) (v : List α) (i j : ℕ) : List α := (v.set i (v.getD j d)).set j (v.getD i d)

/-- Letters are carried on from place to place, by exchanges with the place `c`. -/
def carry (d : α) (next : ℕ → ℕ) (c : ℕ) : ℕ → ℕ → List α → List α
  | 0, _, v => v
  | n + 1, pos, v => carry d next c n (next pos) (exchange d v (next pos) c)

theorem length_exchange : (exchange d v i j).length = v.length := by
  rw [exchange, List.length_set, List.length_set]

theorem getElem?_exchange (hi : i < v.length) (hj : j < v.length) (x : ℕ) : (exchange d v i j)[x]? =
    if x = j then v[i]? else if x = i then v[j]? else v[x]? := by
  have hlen : j < (v.set i (v.getD j d)).length := by rwa [List.length_set]
  rw [exchange]
  by_cases hxj : x = j
  · subst hxj
    rw [if_pos rfl, List.getElem?_set_self hlen, List.getD_eq_getElem?_getD, List.getElem?_eq_getElem hi, Option.getD_some]
  rw [if_neg hxj, List.getElem?_set_ne (Ne.symm hxj)]
  by_cases hxi : x = i
  · subst hxi
    rw [if_pos rfl, List.getElem?_set_self hi, List.getD_eq_getElem?_getD, List.getElem?_eq_getElem hj, Option.getD_some]
  · rw [if_neg hxi, List.getElem?_set_ne (Ne.symm hxi)]

/-! ## One cycle -/

/-- What `v` is when letters were carried along the places `p 0`, ..., `p i`: each is one
place on, and that of `p i` is at `p 0`. -/
structure Carried (p : ℕ → ℕ) (v : List α) (i : ℕ) (v' : List α) : Prop where
  length : v'.length = v.length
  first : v'[p 0]? = v[p i]?
  placed : ∀ k < i, v'[p (k + 1)]? = v[p k]?
  rest : ∀ x, (∀ k ≤ i, x ≠ p k) → v'[x]? = v[x]?

theorem carried_zero : Carried p v 0 v := ⟨rfl, rfl, fun _ hk => absurd hk (Nat.not_lt_zero _), fun _ _ => rfl⟩

/-- The next letter is carried to a place where none was. -/
theorem Carried.step (h : Carried p v i v') (hinj : Set.InjOn p (Set.Iic (i + 1))) (hp : ∀ k, p k < v.length) :
    Carried p v (i + 1) (exchange d v' (p (i + 1)) (p 0)) := by
  have hne : ∀ k k', k ≤ i + 1 → k' ≤ i + 1 → k ≠ k' → p k ≠ p k' := fun k k' hk hk' hkk heq => hkk (hinj hk hk' heq)
  have hget := getElem?_exchange (d := d) (v := v') (h.length.symm ▸ hp (i + 1)) (h.length.symm ▸ hp 0)
  refine ⟨length_exchange.trans h.length, ?_, fun k hk => ?_, fun x hx => ?_⟩
  · rw [hget, if_pos rfl, h.rest _ fun k hk => hne _ _ le_rfl (by omega) (by omega)]
  · rw [hget, if_neg (hne _ _ (by omega) (by omega) (by omega))]
    rcases Nat.lt_succ_iff_lt_or_eq.1 hk with hlt | rfl
    · rw [if_neg (hne _ _ (by omega) le_rfl (by omega)), h.placed k hlt]
    · rw [if_pos rfl, h.first]
  · rw [hget, if_neg (hx 0 (Nat.zero_le _)), if_neg (hx (i + 1) le_rfl), h.rest x fun k hk => hx k (by omega)]

/-- Some places of a cycle are gone along, without coming back. -/
theorem carried_carry (hp : ∀ k, p k < v.length) (hnext : ∀ k, next (p k) = p (k + 1)) :
    ∀ {n i : ℕ} {v' : List α}, Carried p v i v' → Set.InjOn p (Set.Iic (i + n)) →
      Carried p v (i + n) (carry d next (p 0) n (p i) v')
  | 0, _, _, h, _ => h
  | n + 1, i, v', h, hinj => by
    rw [carry, hnext]
    have hstep := h.step (d := d) (hinj.mono (Set.Iic_subset_Iic.2 (by omega))) hp
    rw [show i + (n + 1) = i + 1 + n by omega] at hinj ⊢
    exact carried_carry hp hnext hstep hinj

theorem carry_succ (d : α) (next : ℕ → ℕ) (c : ℕ) : ∀ (n pos : ℕ) (v : List α),
    carry d next c (n + 1) pos v = exchange d (carry d next c n pos v) (next^[n + 1] pos) c
  | 0, _, _ => rfl
  | n + 1, pos, v => by
    rw [carry, carry_succ d next c n, carry, ← Function.iterate_succ_apply]

/-- **A cycle is gone around**: each letter is one place on, and no others are moved. -/
theorem carry_around (next : ℕ → ℕ) (hp : ∀ k, p k < v.length) (hnext : ∀ k, next (p k) = p (k + 1)) (hl : p (l + 1) = p 0)
    (hinj : Set.InjOn p (Set.Iic l)) : (carry d next (p 0) (l + 1) (p 0) v).length = v.length ∧
      (∀ k ≤ l, (carry d next (p 0) (l + 1) (p 0) v)[p (k + 1)]? = v[p k]?) ∧
      ∀ x, (∀ k ≤ l, x ≠ p k) → (carry d next (p 0) (l + 1) (p 0) v)[x]? = v[x]? := by
  have hiter : ∀ k, next^[k] (p 0) = p k := by
    intro k
    induction k with
    | zero => rfl
    | succ k ih => rw [Function.iterate_succ_apply', ih, hnext]
  have h := carried_carry (d := d) (n := l) hp hnext carried_zero (by rwa [Nat.zero_add])
  rw [Nat.zero_add] at h
  rw [carry_succ, hiter, hl]
  -- the last exchange is that of a place with itself
  have hget := getElem?_exchange (d := d) (v := carry d next (p 0) l (p 0) v) (h.length.symm ▸ hp 0) (h.length.symm ▸ hp 0)
  refine ⟨length_exchange.trans h.length, fun k hk => ?_, fun x hx => ?_⟩
  · rw [hget]
    rcases Nat.lt_or_eq_of_le hk with hlt | rfl
    · have hne : p (k + 1) ≠ p 0 := fun heq => absurd (hinj (Nat.succ_le_of_lt hlt) (Nat.zero_le _) heq) (Nat.succ_ne_zero k)
      rw [if_neg hne, if_neg hne, h.placed k hlt]
    · rw [hl, if_pos rfl, h.first]
  · rw [hget, if_neg (hx 0 (Nat.zero_le _)), if_neg (hx 0 (Nat.zero_le _)), h.rest x hx]

/-! ## Two blocks -/

/-- The places that a letter comes to, of `n`, when it goes on by `q` from the place `z`. -/
def orbit (b n q z k : ℕ) : ℕ := b + (z + k * q) % n

theorem orbit_zero (hz : z < n) : orbit b n q z 0 = b + z := by
  rw [orbit, Nat.zero_mul, Nat.add_zero, Nat.mod_eq_of_lt hz]

/-- A letter of the first block goes on by the length of the second one, and a letter of the
second block goes back by that of the first one. -/
theorem orbit_succ (hm : 0 < m) (k : ℕ) : (if b + m ≤ orbit b (m + q) q z k then orbit b (m + q) q z k - m
    else orbit b (m + q) q z k + q) = orbit b (m + q) q z (k + 1) := by
  have hsucc : (z + (k + 1) * q) % (m + q) = ((z + k * q) % (m + q) + q) % (m + q) := by
    rw [Nat.succ_mul, ← Nat.add_assoc, Nat.mod_add_mod]
  have hlt : (z + k * q) % (m + q) < m + q := Nat.mod_lt _ (by omega)
  unfold orbit
  rw [hsucc]
  generalize (z + k * q) % (m + q) = r at hlt
  by_cases h : m ≤ r
  · rw [if_pos (by omega), show r + q = r - m + (m + q) by omega, Nat.add_mod_right, Nat.mod_eq_of_lt (by omega)]
    omega
  · rw [if_neg (by omega), Nat.mod_eq_of_lt (by omega), Nat.add_assoc]

theorem eq_gcd_mul (n q : ℕ) : ∃ r, q = Nat.gcd n q * r ∧ n / Nat.gcd n q * q = n * r := by
  obtain ⟨r, hr⟩ := Nat.gcd_dvd_right n q
  refine ⟨r, hr, ?_⟩
  calc n / Nat.gcd n q * q = n / Nat.gcd n q * (Nat.gcd n q * r) := by rw [← hr]
    _ = n * r := by rw [← Nat.mul_assoc, Nat.div_mul_cancel (Nat.gcd_dvd_left n q)]

/-- What a place on the way is, up to the greatest common divisor. -/
theorem orbit_mod {y : ℕ} (h : orbit b n q z k = b + y) : y % Nat.gcd n q = z % Nat.gcd n q := by
  obtain ⟨r, hr, -⟩ := eq_gcd_mul n q
  have hmul : k * q = Nat.gcd n q * (k * r) := by rw [Nat.mul_left_comm, ← hr]
  rw [← Nat.add_left_cancel h, Nat.mod_mod_of_dvd _ (Nat.gcd_dvd_left n q), hmul, Nat.add_mul_mod_self_left]

/-- A letter is back after so many turns, and not before. -/
theorem orbit_period : orbit b n q z (n / Nat.gcd n q) = orbit b n q z 0 := by
  obtain ⟨r, -, hmul⟩ := eq_gcd_mul n q
  rw [orbit, orbit, hmul, Nat.add_mul_mod_self_left, Nat.zero_mul, Nat.add_zero]

theorem orbit_injOn (hn : 0 < n) (hl : l + 1 = n / Nat.gcd n q) : Set.InjOn (orbit b n q z) (Set.Iic l) := by
  have hg : 0 < Nat.gcd n q := Nat.gcd_pos_of_pos_left q hn
  have hcop : Nat.Coprime (n / Nat.gcd n q) (q / Nat.gcd n q) := Nat.coprime_div_gcd_div_gcd hg
  have hdvd : ∀ k, n ∣ k * q → n / Nat.gcd n q ∣ k := by
    intro k hk
    have hk' : n / Nat.gcd n q ∣ k * q / Nat.gcd n q := Nat.div_dvd_div (Nat.gcd_dvd_left n q) hk
    rw [Nat.mul_div_assoc _ (Nat.gcd_dvd_right n q)] at hk'
    exact hcop.dvd_of_dvd_mul_right hk'
  have hle : ∀ k k', k ≤ k' → k' ≤ l → orbit b n q z k = orbit b n q z k' → k = k' := by
    intro k k' hkk hk' heq
    have hmod : Nat.ModEq n (z + k * q) (z + k' * q) := Nat.add_left_cancel heq
    have hsub : n ∣ (k' - k) * q := by
      rw [Nat.sub_mul]
      exact (Nat.modEq_iff_dvd' (Nat.mul_le_mul_right q hkk)).1 (Nat.ModEq.add_left_cancel' z hmod)
    have hzero := Nat.eq_zero_of_dvd_of_lt (hdvd _ hsub) (by omega)
    omega
  intro k hk k' hk' heq
  rcases Nat.le_total k k' with hkk | hkk
  · exact hle k k' hkk hk' heq
  · exact (hle k' k hkk hk heq.symm).symm

/-- On the way are all places that are the same up to the greatest common divisor. -/
theorem exists_orbit (hl : l + 1 = n / Nat.gcd n q) {y : ℕ} (hy : y < n)
    (hmod : y % Nat.gcd n q = z % Nat.gcd n q) : ∃ k ≤ l, orbit b n q z k = b + y := by
  obtain ⟨r, -, hmul⟩ := eq_gcd_mul n q
  -- `w` turns go on by the divisor, so `w * s` go from `z` to `y`
  obtain ⟨s, hs⟩ : (Nat.gcd n q : ℤ) ∣ (y : ℤ) - z := (Nat.modEq_iff_dvd (n := Nat.gcd n q)).1 hmod.symm
  have hbez := Nat.gcd_eq_gcd_ab n q
  let w := Nat.gcdB n q
  have hperiod : (0 : ℤ) < (l + 1 : ℕ) := by omega
  have hdiv := Int.emod_add_mul_ediv (w * s) (l + 1 : ℕ)
  have hlow := Int.emod_nonneg (w * s) hperiod.ne'
  have hhigh := Int.emod_lt_of_pos (w * s) hperiod
  generalize w * s % (l + 1 : ℕ) = k, w * s / (l + 1 : ℕ) = t at hdiv hlow hhigh
  obtain ⟨k, rfl⟩ := Int.eq_ofNat_of_zero_le hlow
  have hmul' : ((l + 1 : ℕ) : ℤ) * q = n * r := by
    rw [hl]
    exact_mod_cast hmul
  have hplace : (z + k * q : ℤ) = y + n * -(Nat.gcdA n q * s + r * t) := by
    linear_combination -hs - s * hbez + q * hdiv - t * hmul'
  refine ⟨k, by omega, congrArg (b + ·) ?_⟩
  have hint : ((z + k * q : ℕ) : ℤ) % n = y := by
    push_cast
    rw [hplace, Int.add_mul_emod_self_left, Int.emod_eq_of_lt (by omega) (by omega)]
  exact_mod_cast hint

/-! ## All cycles -/

/-- The cycles that start at the first letters of the second block are gone around, one after
the other: two blocks of the lengths `m` and `q` that begin at `b`. -/
def juggle (d : α) (b m q : ℕ) (v : List α) : List α :=
  (List.range (Nat.gcd m q)).foldl (fun v i => carry d (fun pos => if b + m ≤ pos then pos - m else pos + q) (b + m + i)
    ((m + q) / Nat.gcd m q) (b + m + i) v) v

/-- What is left to move, when `i` cycles were gone around. -/
structure Juggled (b m q : ℕ) (v : List α) (i : ℕ) (v' : List α) : Prop where
  length : v'.length = v.length
  moved : ∀ z < m + q, z % Nat.gcd m q < i → v'[b + (z + q) % (m + q)]? = v[b + z]?
  left : ∀ z < m + q, i ≤ z % Nat.gcd m q → v'[b + z]? = v[b + z]?
  outside : ∀ x, x < b ∨ b + (m + q) ≤ x → v'[x]? = v[x]?

theorem Juggled.step (h : Juggled b m q v i v') (hm : 0 < m) (hq : 0 < q) (hlen : b + (m + q) ≤ v.length)
    (hi : i < Nat.gcd m q) : Juggled b m q v (i + 1) (carry d (fun pos => if b + m ≤ pos then pos - m else pos + q)
      (b + m + i) ((m + q) / Nat.gcd m q) (b + m + i) v') := by
  have hg : Nat.gcd (m + q) q = Nat.gcd m q := Nat.gcd_add_self_left ..
  have hle : Nat.gcd m q ≤ q := Nat.gcd_le_right m hq
  have hpos : 0 < (m + q) / Nat.gcd m q := Nat.div_pos (by omega) (by omega)
  have hmod : (m + i) % Nat.gcd m q = i := by
    rw [Nat.add_mod, Nat.mod_eq_zero_of_dvd (Nat.gcd_dvd_left m q), Nat.zero_add, Nat.mod_mod, Nat.mod_eq_of_lt hi]
  have h0 : orbit b (m + q) q (m + i) 0 = b + m + i := by
    rw [orbit_zero (by omega), Nat.add_assoc]
  obtain ⟨l, hl⟩ : ∃ l, l + 1 = (m + q) / Nat.gcd m q := ⟨_, Nat.sub_add_cancel hpos⟩
  have hl' : l + 1 = (m + q) / Nat.gcd (m + q) q := by rw [hg, hl]
  have hlt : ∀ k, orbit b (m + q) q (m + i) k < b + (m + q) := fun k =>
    Nat.add_lt_add_left (Nat.mod_lt _ (by omega)) b
  -- a place on the way is the same as `i`, up to the divisor
  have hclass : ∀ y k, y % Nat.gcd m q ≠ i → b + y ≠ orbit b (m + q) q (m + i) k := by
    intro y k hy heq
    have := orbit_mod heq.symm
    rw [hg, hmod] at this
    exact hy this
  obtain ⟨hlen', hplaced, hrest⟩ := carry_around (d := d) (v := v') (l := l) (p := orbit b (m + q) q (m + i))
    (fun pos => if b + m ≤ pos then pos - m else pos + q) (fun k => h.length ▸ (hlt k).trans_le hlen) (orbit_succ hm)
    (hl' ▸ orbit_period) (orbit_injOn (by omega) hl')
  rw [h0, hl] at hlen' hplaced hrest
  refine ⟨hlen'.trans h.length, fun z hz hzi => ?_, fun z hz hzi => ?_, fun x hx => ?_⟩
  · by_cases hzi' : z % Nat.gcd m q = i
    · obtain ⟨k, hk, hkz⟩ := exists_orbit (b := b) (z := m + i) hl' hz (by rw [hg, hzi', hmod])
      have hsucc : orbit b (m + q) q (m + i) (k + 1) = b + (z + q) % (m + q) := by
        have hk' := Nat.add_left_cancel hkz
        rw [orbit, Nat.succ_mul, ← Nat.add_assoc, ← Nat.mod_add_mod, hk']
      rw [← hsucc, hplaced k hk, hkz, h.left z hz hzi'.ge]
    · rw [hrest _ fun k _ => hclass _ k ?_, h.moved z hz (by omega)]
      have hstay : (z + q) % (m + q) % Nat.gcd m q = z % Nat.gcd m q := by
        have := orbit_mod (b := b) (n := m + q) (q := q) (z := z) (k := 1) rfl
        rwa [Nat.one_mul, hg] at this
      rwa [hstay]
  · rw [hrest _ fun k _ => hclass z k (by omega), h.left z hz (by omega)]
  · rw [hrest x fun k _ heq => ?_, h.outside x hx]
    have := hlt k
    have hge : b ≤ orbit b (m + q) q (m + i) k := Nat.le_add_right ..
    omega

theorem juggled (hm : 0 < m) (hq : 0 < q) (hlen : b + (m + q) ≤ v.length) :
    ∀ i ≤ Nat.gcd m q, Juggled b m q v i ((List.range i).foldl (fun v i => carry d
      (fun pos => if b + m ≤ pos then pos - m else pos + q) (b + m + i) ((m + q) / Nat.gcd m q) (b + m + i) v) v)
  | 0, _ => ⟨rfl, fun _ _ h => absurd h (Nat.not_lt_zero _), fun _ _ _ => rfl, fun _ _ => rfl⟩
  | i + 1, hi => by
    rw [List.range_succ, List.foldl_append]
    exact (juggled hm hq hlen i (by omega)).step hm hq hlen hi

/-- **Two blocks that are not empty change places**, and nothing else is moved. -/
theorem juggle_append {xs ys zs ws : List α} (hy : ys ≠ []) (hz : zs ≠ []) :
    juggle d xs.length ys.length zs.length (xs ++ ys ++ zs ++ ws) = xs ++ zs ++ ys ++ ws := by
  have hm := List.length_pos_iff.2 hy
  have hq := List.length_pos_iff.2 hz
  have h : Juggled xs.length ys.length zs.length (xs ++ ys ++ zs ++ ws) (Nat.gcd ys.length zs.length)
      (juggle d xs.length ys.length zs.length (xs ++ ys ++ zs ++ ws)) :=
    juggled hm hq (by simp only [List.length_append]; omega) _ le_rfl
  have hmoved := fun z hz => h.moved z hz (Nat.mod_lt _ (Nat.gcd_pos_of_pos_left zs.length hm))
  refine List.ext_getElem? fun x => ?_
  rcases Nat.lt_or_ge x xs.length with hx | hx
  · rw [h.outside x (.inl hx)]
    simp only [List.append_assoc, List.getElem?_append_left hx]
  obtain ⟨y, rfl⟩ := Nat.exists_eq_add_of_le hx
  rcases Nat.lt_or_ge y zs.length with hlt | hge
  · -- a letter of the second block
    have hback : (ys.length + y + zs.length) % (ys.length + zs.length) = y := by
      rw [Nat.add_right_comm, Nat.add_mod_left, Nat.mod_eq_of_lt (by omega)]
    have hget := hmoved (ys.length + y) (by omega)
    rw [hback] at hget
    rw [hget]
    simp only [List.append_assoc, List.getElem?_append_right (Nat.le_add_right _ _), Nat.add_sub_cancel_left,
      List.getElem?_append_left hlt]
  obtain ⟨z, rfl⟩ := Nat.exists_eq_add_of_le hge
  rcases Nat.lt_or_ge z ys.length with hlt | hge'
  · have hforth : (z + zs.length) % (ys.length + zs.length) = zs.length + z := by
      rw [Nat.mod_eq_of_lt (by omega), Nat.add_comm]
    have hget := hmoved z (by omega)
    rw [hforth] at hget
    rw [hget]
    simp only [List.append_assoc, List.getElem?_append_right (Nat.le_add_right _ _), Nat.add_sub_cancel_left,
      List.getElem?_append_left hlt]
  · obtain ⟨w, rfl⟩ := Nat.exists_eq_add_of_le hge'
    rw [h.outside _ (.inr (by omega))]
    simp only [List.append_assoc, List.getElem?_append_right (Nat.le_add_right _ _), Nat.add_sub_cancel_left]
    rw [show zs.length + (ys.length + w) = ys.length + (zs.length + w) by omega]
    simp only [List.getElem?_append_right (Nat.le_add_right _ _), Nat.add_sub_cancel_left]

end Mowgli
