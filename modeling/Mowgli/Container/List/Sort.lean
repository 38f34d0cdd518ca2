import Mowgli.Container.List.Concat
/-!
# Sorting a list

`mowgli_list_sort` of `container/list.c`. Each node is taken through the
list, past the smaller nodes after it, and what happens to it at another
node depends on where the two are: on their positions, kept in an `int`.

As long as every position is an `int`, what the walk of a node does to the
list is that the node sinks to after the last node smaller than it
(`Holds.sortPass`). The outer loop stays at a place until the least of the
nodes from there on has come to it. A list in which a position is past the
largest `int` has a node that seems to come before the head, and a
comparator for which it should stand there.
-/

namespace Mowgli

namespace NodeField

open Store

variable {α : Type} (F : NodeField α)

/-- `mowgli_list_sort`: what is done with two nodes at the positions `i` and
`i2`. -/
def sortMove (m : Store α) (l : MowgliList) (result i i2 : ℤ) (n n2 : Addr) : Option (Store α × MowgliList) :=
  if result = 0 then some (m, l)
  else if result < 0 ∧ i > i2 then do
    let (m, l) ← F.nodeDelete m n l
    let x ← m.get n
    F.nodeAddBefore m (F.get x).data n l (some n2)
  else if result > 0 ∧ i < i2 then do
    let (m, l) ← F.nodeDelete m n l
    let x ← m.get n
    F.nodeAddAfter m (F.get x).data n l (some n2)
  else some (m, l)

variable (comp : Addr → Addr → ℤ)

/-- The body of the inner loop of `mowgli_list_sort`. -/
def sortBody (m : Store α) (l : MowgliList) (n n2 : Addr) : Option (Store α × MowgliList) :=
  if n = n2 then some (m, l)
  else do
    let i ← F.nodeIndex m n l
    let i2 ← F.nodeIndex m n2 l
    F.sortMove m l (comp n n2) (toInt i) (toInt i2) n n2

/-- The inner loop of `mowgli_list_sort`, `MOWGLI_LIST_FOREACH_SAFE(n2, tn2, ..)`.
It answers `none` if it has not ended after `fuel` nodes. -/
def sortInner (n : Addr) : ℕ → Store α → MowgliList → Option Addr → Option Addr →
    Option (Store α × MowgliList)
  | _, m, l, none, _ => some (m, l)
  | 0, _, _, some _, _ => none
  | fuel + 1, m, l, some n2, tn2 => do
    let (m, l) ← F.sortBody comp m l n n2
    let tn2' ← F.next? m tn2
    sortInner n fuel m l tn2 tn2'

/-- The outer loop of `mowgli_list_sort`, with `inner` steps for each inner one. -/
def sortOuter (inner : ℕ) : ℕ → Store α → MowgliList → Option Addr → Option Addr →
    Option (Store α × MowgliList)
  | _, m, l, none, _ => some (m, l)
  | 0, _, _, some _, _ => none
  | fuel + 1, m, l, some n, tn => do
    let tn2 ← F.next? m l.head
    let (m, l) ← F.sortInner comp n inner m l l.head tn2
    let tn' ← F.next? m tn
    sortOuter inner fuel m l tn tn'

/-- `mowgli_list_sort`. -/
def listSort (fuel : ℕ) (m : Store α) (l : MowgliList) : Option (Store α × MowgliList) := do
  let tn ← F.next? m l.head
  F.sortOuter comp fuel fuel m l l.head tn

/-! ## What the loops are to do -/

/-- A comparator that is a total preorder: its results are ints, it is
transitive, and turning the nodes around turns the sign around. -/
structure Orders (comp : Addr → Addr → ℤ) : Prop where
  range : ∀ a b, -2147483648 ≤ comp a b ∧ comp a b ≤ 2147483647
  swap : ∀ a b, comp a b < 0 ↔ 0 < comp b a
  trans : ∀ a b c, comp a b ≤ 0 → comp b c ≤ 0 → comp a c ≤ 0

/-- The list has been given the cells `ys`, each with its data as before. -/
structure Reorders (m m' : Store α) (l' : MowgliList) (ys : List Addr) : Prop where
  holds : F.Holds m' l' ys
  data : F.data m' = F.data m
  keeps : F.Keeps m m'

/-- Sorting the list of the cells `xs` ends, with these cells in order. -/
def Sorts (m : Store α) (l : MowgliList) (xs : List Addr) : Prop :=
  ∃ m' l' ys, (∃ k, ∀ fuel ≥ k, F.listSort comp fuel m l = some (m', l')) ∧ F.Reorders m m' l' ys ∧
    ys.Perm xs ∧ ys.Pairwise fun a b => comp a b ≤ 0

variable {F} {comp} {m m' m'' : Store α} {l l' : MowgliList} {xs ys zs us vs ws ps rs ds hs ts : List Addr}
  {a b n w : Addr}

theorem Orders.refl (h : Orders comp) (a : Addr) : comp a a ≤ 0 := by
  by_contra hlt
  have hneg := (h.swap a a).2 (by omega)
  omega

theorem Orders.le_of_pos (h : Orders comp) (hpos : 0 < comp a b) : comp b a ≤ 0 := by
  have hneg := (h.swap b a).2 hpos
  omega

theorem Orders.nonneg (h : Orders comp) (hle : comp a b ≤ 0) : 0 ≤ comp b a := by
  by_contra hlt
  have hpos := (h.swap b a).1 (by omega)
  omega

theorem Orders.pos_trans (h : Orders comp) (hab : 0 < comp a b) (hbc : comp w b ≤ 0) : 0 < comp a w := by
  by_contra hle
  have hlt := h.trans a w b (by omega) hbc
  omega

/-- Some node of a list is less than or equal to all of it. -/
theorem Orders.exists_least (h : Orders comp) (hxs : xs ≠ []) :
    ∃ us w vs, xs = us ++ w :: vs ∧ ∀ r ∈ xs, comp w r ≤ 0 := by
  induction xs with
  | nil => exact absurd rfl hxs
  | cons a xs ih =>
    by_cases hnil : xs = []
    · subst hnil
      exact ⟨[], a, [], rfl, by simpa using h.refl a⟩
    · obtain ⟨us, w, vs, hcut, hw⟩ := ih hnil
      by_cases haw : comp a w ≤ 0
      · refine ⟨[], a, xs, rfl, fun r hr => ?_⟩
        rcases List.mem_cons.1 hr with rfl | hr
        · exact h.refl r
        · exact h.trans a w r haw (hw r hr)
      · refine ⟨a :: us, w, vs, by rw [hcut, List.cons_append], fun r hr => ?_⟩
        rcases List.mem_cons.1 hr with rfl | hr
        · exact h.le_of_pos (by omega)
        · exact hw r hr

theorem Reorders.refl (h : F.Holds m l xs) : F.Reorders m m l xs := ⟨h, rfl, Keeps.refl m⟩

theorem Reorders.trans {l' l'' : MowgliList} (h : F.Reorders m m' l' xs) (h' : F.Reorders m' m'' l'' ys) :
    F.Reorders m m'' l'' ys := ⟨h'.holds, h'.data.trans h.data, Keeps.trans h.keeps h'.keeps⟩

/-! ## One node at another -/

/-- The next of the first of the cells from some place on. -/
theorem Holds.next?_head (h : F.Holds m l (us ++ vs)) : F.next? m vs.head? = some vs.tail.head? := by
  cases vs with
  | nil => rfl
  | cons b vs =>
    obtain ⟨x, hx, hnext⟩ := h.next_eq
    rw [List.head?_cons, next?, hx, Option.map_some, hnext, List.tail_cons]

variable (comp) in
/-- Nothing happens to `n` at `b`. -/
def Stays (xs : List Addr) (n b : Addr) : Prop :=
  n = b ∨ ¬(comp n b < 0 ∧ toInt (xs.idxOf b) < toInt (xs.idxOf n)) ∧
    ¬(0 < comp n b ∧ toInt (xs.idxOf n) < toInt (xs.idxOf b))

variable (comp) in
theorem Holds.sortBody_eq (h : F.Holds m l xs) (hn : n ∈ xs) (hb : b ∈ xs) (hnb : n ≠ b) :
    F.sortBody comp m l n b = F.sortMove m l (comp n b) (toInt (xs.idxOf n)) (toInt (xs.idxOf b)) n b := by
  rw [sortBody, if_neg hnb, h.nodeIndex, h.nodeIndex, if_pos hn, if_pos hb]
  rfl

theorem Holds.sortBody_stays (h : F.Holds m l xs) (hn : n ∈ xs) (hb : b ∈ xs) (hs : Stays comp xs n b) :
    F.sortBody comp m l n b = some (m, l) := by
  by_cases hnb : n = b
  · rw [sortBody, if_pos hnb]
  · obtain ⟨hbefore, hafter⟩ := hs.resolve_left hnb
    rw [h.sortBody_eq comp hn hb hnb, sortMove]
    rw [if_neg hbefore, if_neg hafter, ite_self]

/-- A walk along nodes at which nothing happens. -/
theorem Holds.sortInner_stays (h : F.Holds m l (us ++ vs ++ ws)) (hn : n ∈ us ++ vs ++ ws)
    (hs : ∀ b ∈ vs, Stays comp (us ++ vs ++ ws) n b) (fuel : ℕ) :
    F.sortInner comp n (fuel + vs.length) m l (vs ++ ws).head? (vs ++ ws).tail.head? =
      F.sortInner comp n fuel m l ws.head? ws.tail.head? := by
  induction vs generalizing us with
  | nil => rfl
  | cons b vs ih =>
    have hcut : us ++ b :: vs ++ ws = us ++ [b] ++ vs ++ ws := by simp
    have hbody := h.sortBody_stays hn (by simp) (hs b (by simp))
    rw [hcut] at h hn hs
    have hrest := ih h hn fun c hc => hs c (List.mem_cons_of_mem b hc)
    rw [List.append_assoc] at h
    rw [List.length_cons, ← Nat.add_assoc, List.cons_append, List.head?_cons, List.tail_cons, sortInner, hbody]
    simp only [Option.bind_eq_bind, Option.bind_some, h.next?_head, hrest]

/-- Where positions are ints they compare as they are. -/
theorem toInt_lt_toInt {i j : ℕ} (hi : i ≤ INT_MAX) (hj : j ≤ INT_MAX) : toInt i < toInt j ↔ i < j := by
  rw [toInt_of_le hi, toInt_of_le hj]
  omega

theorem idxOf_lt_idxOf (hnd : (ds ++ n :: hs ++ b :: ts).Nodup) :
    (ds ++ n :: hs ++ b :: ts).idxOf n < (ds ++ n :: hs ++ b :: ts).idxOf b := by
  have hb : b ∉ ds ++ n :: hs := by
    rw [List.nodup_middle, List.nodup_cons] at hnd
    exact fun hb => hnd.1 (List.mem_append_left _ hb)
  rw [List.idxOf_append_of_notMem hb, List.idxOf_cons_self, Nat.add_zero, List.idxOf_append_of_mem (by simp)]
  exact List.idxOf_lt_length_of_mem (by simp)

/-- A node is put behind one that is smaller, further on. -/
theorem Holds.sortBody_moves (h : F.Holds m l (ds ++ n :: hs ++ b :: ts))
    (hlen : (ds ++ n :: hs ++ b :: ts).length ≤ INT_MAX + 1) (hpos : 0 < comp n b) :
    ∃ m' l', F.sortBody comp m l n b = some (m', l') ∧ F.Reorders m m' l' (ds ++ hs ++ b :: n :: ts) := by
  have hidx := idxOf_lt_idxOf h.nodup
  have hlt : (ds ++ n :: hs ++ b :: ts).idxOf b < (ds ++ n :: hs ++ b :: ts).length :=
    List.idxOf_lt_length_of_mem (by simp)
  have hint := (toInt_lt_toInt (by omega) (by omega)).2 hidx
  have hnb : n ≠ b := fun hnb => by
    rw [hnb] at hidx
    omega
  have hnl : n ∈ m.live := h.mem_live (by simp)
  have hbody := h.sortBody_eq comp (by simp : n ∈ _) (by simp) hnb
  have hcut : ds ++ n :: hs ++ b :: ts = ds ++ n :: (hs ++ b :: ts) := by simp
  have hn : n ∉ ds ++ (hs ++ b :: ts) := by
    have hnd := h.nodup
    rw [hcut, List.nodup_middle, List.nodup_cons] at hnd
    exact hnd.1
  rw [hcut] at h
  obtain ⟨m₁, l₁, hdel, h₁, hk₁, hd₁⟩ := h.nodeDelete
  obtain ⟨x, hx⟩ := Store.mem_live.1 (hk₁.live.symm ▸ hnl)
  have happ : ds ++ (hs ++ b :: ts) = (ds ++ hs ++ [b]) ++ ts := by simp
  rw [happ] at h₁ hn
  obtain ⟨m₂, l₂, hadd, h₂⟩ := h₁.nodeAddAfter (by simp) (F.get x).data (hk₁.live.symm ▸ hnl) hn
  rw [List.getLast?_append, List.getLast?_singleton, Option.some_or] at hadd
  refine ⟨m₂, l₂, ?_, ?_, ?_, hk₁.trans h₂.keeps⟩
  · rw [hbody, sortMove, if_neg (by omega), if_neg (by omega), if_pos ⟨hpos, hint⟩, hdel]
    simp only [Option.bind_eq_bind, Option.bind_some, hx, hadd]
  · have hlist : ds ++ hs ++ [b] ++ n :: ts = ds ++ hs ++ b :: n :: ts := by simp
    rw [← hlist]
    exact h₂.holds
  · rw [← hd₁]
    funext c
    by_cases hc : c = n
    · rw [hc, h₂.data, NodeField.data, hx, Option.map_some]
    · exact h₂.data_other c hc

/-! ## One node along the list -/

/-- **A node sinks to after the last smaller one.** The node `n` has come past
the cells `hs`, none of which is smaller, and the cells `ts` are to come. -/
theorem Holds.sortInner_sinks (h : F.Holds m l (ds ++ n :: hs ++ ts))
    (hlen : (ds ++ n :: hs ++ ts).length ≤ INT_MAX + 1) (hhs : ∀ b ∈ hs, comp n b ≤ 0) :
    ∃ m' l' ys zs, (∀ fuel, F.sortInner comp n (fuel + ts.length) m l ts.head? ts.tail.head? = some (m', l')) ∧
      hs ++ ts = ys ++ zs ∧ F.Reorders m m' l' (ds ++ ys ++ n :: zs) ∧ (∀ z ∈ zs, comp n z ≤ 0) ∧
      (ys = [] ∨ ∃ y ∈ ys, 0 < comp n y) := by
  induction ts generalizing ds hs m l with
  | nil =>
    rw [List.append_nil] at h
    refine ⟨m, l, [], hs, fun fuel => ?_, List.append_nil hs, ?_, hhs, Or.inl rfl⟩
    · cases fuel <;> rfl
    · rw [List.append_nil]
      exact Reorders.refl h
  | cons b ts ih =>
    by_cases hle : comp n b ≤ 0
    · -- `b` is not smaller: it is one more of those that `n` stands before.
      have hidx := idxOf_lt_idxOf h.nodup
      have hlt : (ds ++ n :: hs ++ b :: ts).idxOf b < (ds ++ n :: hs ++ b :: ts).length :=
        List.idxOf_lt_length_of_mem (by simp)
      have hint := (toInt_lt_toInt (by omega) (by omega)).2 hidx
      have hstay : Stays comp (ds ++ n :: hs ++ b :: ts) n b :=
        Or.inr ⟨fun hmove => by omega, fun hmove => by omega⟩
      have hbody := h.sortBody_stays (by simp) (by simp) hstay
      have hcut : ds ++ n :: hs ++ b :: ts = ds ++ n :: (hs ++ [b]) ++ ts := by simp
      rw [hcut] at h hlen
      obtain ⟨m', l', ys, zs, hrun, hyz, hre, hzs, hys⟩ := ih h hlen (by
        intro c hc
        rcases List.mem_append.1 hc with hc | hc
        · exact hhs c hc
        · rw [List.mem_singleton.1 hc]
          exact hle)
      refine ⟨m', l', ys, zs, fun fuel => ?_, by rw [← hyz]; simp, hre, hzs, hys⟩
      rw [List.length_cons, ← Nat.add_assoc, List.head?_cons, List.tail_cons, sortInner, hbody]
      simp only [Option.bind_eq_bind, Option.bind_some, h.next?_head, hrun]
    · -- `b` is smaller: `n` goes behind it, past all it had come past.
      have hpos : 0 < comp n b := by omega
      obtain ⟨m₁, l₁, hbody, hre₁⟩ := h.sortBody_moves hlen hpos
      have hcut : ds ++ hs ++ b :: n :: ts = (ds ++ hs ++ [b]) ++ n :: [] ++ ts := by simp
      have h₁ := hre₁.holds
      have hlen₁ : (ds ++ hs ++ b :: n :: ts).length ≤ INT_MAX + 1 := by
        simp only [List.length_append, List.length_cons] at hlen ⊢
        omega
      rw [hcut] at h₁ hlen₁
      obtain ⟨m', l', ys, zs, hrun, hyz, hre, hzs, -⟩ := ih h₁ hlen₁ (by simp)
      rw [List.nil_append] at hyz
      refine ⟨m', l', hs ++ b :: ys, zs, fun fuel => ?_, by rw [hyz]; simp, ?_, hzs,
        Or.inr ⟨b, by simp, hpos⟩⟩
      · rw [List.length_cons, ← Nat.add_assoc, List.head?_cons, List.tail_cons, sortInner, hbody]
        simp only [Option.bind_eq_bind, Option.bind_some, h₁.next?_head, hrun]
      · have hlist : ds ++ hs ++ [b] ++ ys ++ n :: zs = ds ++ (hs ++ b :: ys) ++ n :: zs := by simp
        rw [← hlist]
        exact hre₁.trans hre

/-- **A whole inner loop**, for the first node `n` after those that are in
place: they are not smaller than it is, so it meets them without a move. -/
theorem Holds.sortInner_head (ho : Orders comp) (h : F.Holds m l (ps ++ n :: rs))
    (hlen : (ps ++ n :: rs).length ≤ INT_MAX + 1) (hps : ∀ p ∈ ps, comp p n ≤ 0) :
    ∃ m' l' ys zs, rs = ys ++ zs ∧
      (∀ inner ≥ (ps ++ n :: rs).length,
        (F.next? m l.head >>= fun tn2 => F.sortInner comp n inner m l l.head tn2) = some (m', l')) ∧
      F.Reorders m m' l' (ps ++ ys ++ n :: zs) ∧ (∀ z ∈ zs, comp n z ≤ 0) ∧ (ys = [] ∨ ∃ y ∈ ys, 0 < comp n y) := by
  have hcut : ps ++ n :: rs = [] ++ (ps ++ [n]) ++ rs := by simp
  have hstay : ∀ b ∈ ps ++ [n], Stays comp (ps ++ n :: rs) n b := by
    intro b hb
    rcases List.mem_append.1 hb with hb | hb
    · obtain ⟨qs, ss, rfl⟩ := List.append_of_mem hb
      have hidx := idxOf_lt_idxOf h.nodup
      have hlt : (qs ++ b :: ss ++ n :: rs).idxOf n < (qs ++ b :: ss ++ n :: rs).length :=
        List.idxOf_lt_length_of_mem (by simp)
      have hint := (toInt_lt_toInt (by omega) (by omega)).2 hidx
      have hnonneg := ho.nonneg (hps b (by simp))
      exact Or.inr ⟨fun hmove => by omega, fun hmove => by omega⟩
    · exact Or.inl (List.mem_singleton.1 hb).symm
  have hnil : ps ++ n :: rs = ps ++ n :: [] ++ rs := by simp
  have hsink : F.Holds m l (ps ++ n :: [] ++ rs) := hnil ▸ h
  obtain ⟨m', l', ys, zs, hrun, hyz, hre, hzs, hys⟩ := hsink.sortInner_sinks (hnil ▸ hlen)
    (by simp : ∀ b ∈ [], comp n b ≤ 0)
  refine ⟨m', l', ys, zs, hyz, fun inner hinner => ?_, hre, hzs, hys⟩
  obtain ⟨k, rfl⟩ : ∃ k, inner = k + rs.length + (ps ++ [n]).length := by
    refine ⟨inner - (ps ++ n :: rs).length, ?_⟩
    simp only [List.length_append, List.length_cons, List.length_nil] at hinner ⊢
    omega
  have hmem : n ∈ ps ++ n :: rs := by simp
  have hhead := h.head_eq
  rw [hcut] at h hstay hmem hhead
  have hnext : F.next? m ([] ++ (ps ++ [n]) ++ rs).head? = some ([] ++ (ps ++ [n]) ++ rs).tail.head? := by
    rw [List.nil_append] at h ⊢
    exact Holds.next?_head (show F.Holds m l ([] ++ (ps ++ [n] ++ rs)) from h)
  rw [hhead, hnext, Option.bind_eq_bind, Option.bind_some, ← hrun k]
  exact h.sortInner_stays hmem hstay _

/-! ## The outer loop -/

/-- **A step of the outer loop.** Either `n` is not greater than any node after
it and stays, or it goes behind some that are not greater than it is, one of
them smaller, and the next of those from its place on has its turn. -/
theorem Holds.sortOuter_step (ho : Orders comp) (h : F.Holds m l (ps ++ n :: rs))
    (hlen : (ps ++ n :: rs).length ≤ INT_MAX + 1) (hps : ∀ p ∈ ps, comp p n ≤ 0) :
    ∃ m' l', ((∀ r ∈ rs, comp n r ≤ 0) ∧ F.Reorders m m' l' (ps ++ n :: rs) ∧
        ∀ inner ≥ (ps ++ n :: rs).length, ∀ fuel, F.sortOuter comp inner (fuel + 1) m l (some n) rs.head? =
          F.sortOuter comp inner fuel m' l' rs.head? rs.tail.head?) ∨
      ∃ ys zs, rs = ys ++ zs ∧ (∃ y ∈ ys, 0 < comp n y) ∧ (∀ z ∈ zs, comp n z ≤ 0) ∧
        F.Reorders m m' l' (ps ++ (ys ++ n :: zs)) ∧
        ∀ inner ≥ (ps ++ n :: rs).length, ∀ fuel, F.sortOuter comp inner (fuel + 1) m l (some n) rs.head? =
          F.sortOuter comp inner fuel m' l' (ys ++ n :: zs).head? (ys ++ n :: zs).tail.head? := by
  obtain ⟨m', l', ys, zs, rfl, hrun, hre, hzs, hys⟩ := h.sortInner_head ho hlen hps
  refine ⟨m', l', ?_⟩
  -- One step, whatever comes of it.
  have hstep : ∀ inner ≥ (ps ++ n :: (ys ++ zs)).length, ∀ fuel tn', F.next? m' (ys ++ zs).head? = some tn' →
      F.sortOuter comp inner (fuel + 1) m l (some n) (ys ++ zs).head? =
        F.sortOuter comp inner fuel m' l' (ys ++ zs).head? tn' := by
    intro inner hinner fuel tn' htn
    have hinner' := hrun inner hinner
    obtain ⟨tn2, htn2, hwalk⟩ := Option.bind_eq_some_iff.1 hinner'
    rw [sortOuter]
    simp only [Option.bind_eq_bind, Option.bind_some, htn2, hwalk, htn]
  cases hys with
  | inl hnil =>
    subst hnil
    rw [List.append_nil] at hre
    have hnext : F.Holds m' l' (ps ++ [n] ++ zs) := by
      have hcut : ps ++ [n] ++ zs = ps ++ n :: zs := by simp
      rw [hcut]
      exact hre.holds
    exact Or.inl ⟨hzs, hre, fun inner hinner fuel => hstep inner hinner fuel _ hnext.next?_head⟩
  | inr hpos =>
    have hnext := hre.holds
    rw [List.append_assoc] at hre hnext
    refine Or.inr ⟨ys, zs, rfl, hpos, hzs, hre, fun inner hinner fuel => ?_⟩
    obtain ⟨y, hy, -⟩ := hpos
    have hne : ys ≠ [] := List.ne_nil_of_mem hy
    have hhead : (ys ++ zs).head? = (ys ++ n :: zs).head? := by
      rw [List.head?_append_of_ne_nil _ hne, List.head?_append_of_ne_nil _ hne]
    rw [← hhead]
    refine hstep inner hinner fuel _ ?_
    rw [hhead]
    exact hnext.next?_head

/-- Where the nodes that `n` has gone behind include the least one. -/
theorem Orders.cut_at_least (ho : Orders comp) (hcut : us ++ w :: vs = ys ++ zs) (hpos : ∃ y ∈ ys, 0 < comp n y)
    (hzs : ∀ z ∈ zs, comp n z ≤ 0) (hw : ∀ r ∈ us ++ w :: vs, comp w r ≤ 0) :
    ∃ ws, ys = us ++ w :: ws ∧ vs = ws ++ zs := by
  obtain ⟨y, hy, hny⟩ := hpos
  have hnw := ho.pos_trans hny (hw y (by rw [hcut]; exact List.mem_append_left _ hy))
  have hwz : w ∉ zs := fun hmem => by
    have hle := hzs w hmem
    omega
  obtain ⟨cs, rfl, hcs⟩ | ⟨cs, -, rfl⟩ := List.append_eq_append_iff.1 hcut
  · cases cs with
    | nil =>
      rw [List.nil_append] at hcs
      exact absurd (hcs ▸ List.mem_cons_self) hwz
    | cons c cs =>
      obtain ⟨rfl, rfl⟩ := List.cons.inj hcs
      exact ⟨cs, rfl, rfl⟩
  · exact absurd (by simp) hwz

/-- **A place is settled.** The least of the cells from a place on, `w`, comes
nearer to it with each node that goes behind others. Some node at last is not
greater than any after it, at the latest `w`. -/
theorem Holds.sortOuter_settles (ho : Orders comp) {k : ℕ} (hus : us.length = k)
    (h : F.Holds m l (ps ++ (us ++ w :: vs))) (hlen : (ps ++ (us ++ w :: vs)).length ≤ INT_MAX + 1)
    (hps : ∀ p ∈ ps, ∀ r ∈ us ++ w :: vs, comp p r ≤ 0) (hw : ∀ r ∈ us ++ w :: vs, comp w r ≤ 0) :
    ∃ j m' l' a rs, (∀ inner ≥ (ps ++ (us ++ w :: vs)).length, ∀ fuel,
        F.sortOuter comp inner (fuel + j) m l (us ++ w :: vs).head? (us ++ w :: vs).tail.head? =
          F.sortOuter comp inner fuel m' l' rs.head? rs.tail.head?) ∧
      F.Reorders m m' l' (ps ++ a :: rs) ∧ (a :: rs).Perm (us ++ w :: vs) ∧ ∀ r ∈ rs, comp a r ≤ 0 := by
  induction k generalizing us vs m l with
  | zero =>
    obtain rfl := List.length_eq_zero_iff.1 hus
    obtain ⟨m', l', ⟨hle, hre, hrun⟩ | ⟨ys, zs, rfl, ⟨y, hy, hpos⟩, -⟩⟩ :=
      h.sortOuter_step ho hlen fun p hp => hps p hp w (by simp)
    · exact ⟨1, m', l', w, vs, hrun, hre, List.Perm.refl _, hle⟩
    · have hwy := hw y (by simp [hy])
      omega
  | succ k ih =>
    obtain ⟨n, us, rfl⟩ := List.exists_cons_of_length_eq_add_one hus
    obtain ⟨m', l', ⟨hle, hre, hrun⟩ | ⟨ys, zs, hcut, hpos, hzs, hre, hrun⟩⟩ :=
      h.sortOuter_step ho hlen fun p hp => hps p hp n (by simp)
    · exact ⟨1, m', l', n, us ++ w :: vs, hrun, hre, List.Perm.refl _, hle⟩
    · have hw' : ∀ r ∈ us ++ w :: vs, comp w r ≤ 0 := fun r hr => hw r (List.mem_cons_of_mem n hr)
      obtain ⟨ws, rfl, rfl⟩ := ho.cut_at_least hcut hpos hzs hw'
      have hlist : us ++ w :: ws ++ n :: zs = us ++ w :: (ws ++ n :: zs) := by simp
      have hperm : (us ++ w :: (ws ++ n :: zs)).Perm (n :: (us ++ w :: (ws ++ zs))) := by
        rw [← hlist]
        have hmid : (us ++ w :: ws ++ n :: zs).Perm (n :: (us ++ w :: ws ++ zs)) := List.perm_middle
        simpa using hmid
      have hsame : (ps ++ (us ++ w :: (ws ++ n :: zs))).length = (ps ++ (n :: us ++ w :: (ws ++ zs))).length :=
        (hperm.append_left ps).length_eq
      rw [hlist] at hre hrun
      obtain ⟨j, m'', l'', a, rs, hrun', hre', hperm', hle⟩ := ih (by simpa using hus) hre.holds (hsame ▸ hlen)
        (fun p hp r hr => hps p hp r (hperm.mem_iff.1 hr)) fun r hr => hw r (hperm.mem_iff.1 hr)
      refine ⟨j + 1, m'', l'', a, rs, fun inner hinner fuel => ?_, hre.trans hre', hperm'.trans hperm, hle⟩
      rw [← Nat.add_assoc, ← hrun' inner (hsame ▸ hinner) fuel]
      exact hrun inner hinner (fuel + j)

/-- **The outer loop**, from a place on before which all is sorted. -/
theorem Holds.sortOuter_sorts (ho : Orders comp) {k : ℕ} (hrs : rs.length = k) (h : F.Holds m l (ps ++ rs))
    (hlen : (ps ++ rs).length ≤ INT_MAX + 1) (hsorted : ps.Pairwise fun a b => comp a b ≤ 0)
    (hps : ∀ p ∈ ps, ∀ r ∈ rs, comp p r ≤ 0) :
    ∃ j m' l' ys, (∀ inner ≥ (ps ++ rs).length, ∀ fuel,
        F.sortOuter comp inner (fuel + j) m l rs.head? rs.tail.head? = some (m', l')) ∧
      F.Reorders m m' l' ys ∧ ys.Perm (ps ++ rs) ∧ ys.Pairwise fun a b => comp a b ≤ 0 := by
  induction k generalizing ps rs m l with
  | zero =>
    obtain rfl := List.length_eq_zero_iff.1 hrs
    rw [List.append_nil] at h ⊢
    refine ⟨0, m, l, ps, fun inner _ fuel => ?_, Reorders.refl h, List.Perm.refl ps, hsorted⟩
    cases fuel <;> rfl
  | succ k ih =>
    obtain ⟨us, w, vs, rfl, hw⟩ := ho.exists_least (List.ne_nil_of_length_eq_add_one hrs)
    obtain ⟨j, m₁, l₁, a, rs, hrun, hre, hperm, hle⟩ := h.sortOuter_settles ho rfl hlen hps hw
    have hcut : ps ++ a :: rs = ps ++ [a] ++ rs := by simp
    have hall : (ps ++ [a] ++ rs).Perm (ps ++ (us ++ w :: vs)) := by
      rw [← hcut]
      exact hperm.append_left ps
    have hlen₁ := hall.length_eq
    have hsorted₁ : (ps ++ [a]).Pairwise fun a b => comp a b ≤ 0 := by
      rw [List.pairwise_append]
      refine ⟨hsorted, List.pairwise_singleton _ _, fun p hp b hb => ?_⟩
      rw [List.mem_singleton.1 hb]
      exact hps p hp a (hperm.mem_iff.1 List.mem_cons_self)
    have hps₁ : ∀ p ∈ ps ++ [a], ∀ r ∈ rs, comp p r ≤ 0 := by
      intro p hp r hr
      rcases List.mem_append.1 hp with hp | hp
      · exact hps p hp r (hperm.mem_iff.1 (List.mem_cons_of_mem a hr))
      · rw [List.mem_singleton.1 hp]
        exact hle r hr
    have hrs₁ : rs.length = k := by
      have hlen₂ := hperm.length_eq
      rw [List.length_cons] at hlen₂
      omega
    have h₁ := hre.holds
    rw [hcut] at h₁
    obtain ⟨j', m', l', ys, hrun', hre', hperm', hsort⟩ := ih hrs₁ h₁ (hlen₁ ▸ hlen) hsorted₁ hps₁
    refine ⟨j' + j, m', l', ys, fun inner hinner fuel => ?_, hre.trans hre', hperm'.trans hall, hsort⟩
    rw [← Nat.add_assoc, hrun inner hinner]
    exact hrun' inner (hlen₁ ▸ hinner) fuel

/-- **A list whose positions are ints is sorted.** -/
theorem Holds.sorts (ho : Orders comp) (h : F.Holds m l xs) (hlen : xs.length ≤ INT_MAX + 1) :
    F.Sorts comp m l xs := by
  have hnil : F.Holds m l ([] ++ xs) := h
  obtain ⟨j, m', l', ys, hrun, hre, hperm, hsort⟩ := hnil.sortOuter_sorts ho rfl hlen List.Pairwise.nil (by simp)
  refine ⟨m', l', ys, ⟨xs.length + j, fun fuel hfuel => ?_⟩, hre, hperm, hsort⟩
  obtain ⟨k, rfl⟩ : ∃ k, fuel = k + j := ⟨fuel - j, by omega⟩
  rw [listSort, h.head_eq, hnil.next?_head, Option.bind_eq_bind, Option.bind_some]
  exact hrun (k + j) (by simpa using by omega) k

/-! ## Positions past the largest int -/

/-- Two lists that a `mowgli_list_t` has are one. -/
theorem Holds.eq (h : F.Holds m l xs) (h' : F.Holds m l ys) : xs = ys :=
  List.ext_getElem? fun i => by
    rw [← Option.some_inj, ← h.nodeNth i, ← h'.nodeNth i]

/-- A node is less than all others, which are equal. -/
def lessOne (c : Addr) (a b : Addr) : ℤ := (if a = c then 0 else 1) - (if b = c then 0 else 1)

theorem lessOne_orders (c : Addr) : Orders (lessOne c) where
  range := fun a b => by
    unfold lessOne
    split_ifs <;> omega
  swap := fun a b => by
    unfold lessOne
    split_ifs <;> omega
  trans := fun a b d => by
    unfold lessOne
    split_ifs <;> omega

/-- No `int` is less than what the position after the largest one becomes. -/
theorem toInt_wraps_le (z : ℤ) : toInt (INT_MAX + 1 : ℕ) ≤ toInt z := by
  have hle : -((4294967296 : ℕ) / 2 : ℤ) ≤ Int.bmod z 4294967296 := Int.le_bmod (by norm_num)
  have heq : toInt (INT_MAX + 1 : ℕ) = -2147483648 := by decide
  rw [heq]
  unfold toInt
  omega

/-- No node is moved if the one at the position after the largest `int` is
less than all others. -/
theorem stays_lessOne {c : Addr} (hc : xs.idxOf c = INT_MAX + 1) (n b : Addr) : Stays (lessOne c) xs n b := by
  by_cases hnb : n = b
  · exact Or.inl hnb
  · have hn := toInt_wraps_le (xs.idxOf n)
    have hb := toInt_wraps_le (xs.idxOf b)
    rw [← hc] at hn hb
    refine Or.inr ⟨?_, ?_⟩
    · rintro ⟨hlt, hidx⟩
      have hnc : n = c := by
        unfold lessOne at hlt
        by_contra hnc
        split_ifs at hlt <;> omega
      rw [hnc] at hidx
      omega
    · rintro ⟨hlt, hidx⟩
      have hbc : b = c := by
        unfold lessOne at hlt
        by_contra hbc
        split_ifs at hlt <;> omega
      rw [hbc] at hidx
      omega

/-- Where nothing happens to any node, sorting leaves everything. -/
theorem Holds.sortOuter_stays (h : F.Holds m l (us ++ vs)) (hs : ∀ n b, Stays comp (us ++ vs) n b) {inner : ℕ}
    (hinner : (us ++ vs).length ≤ inner) (fuel : ℕ) :
    F.sortOuter comp inner (fuel + vs.length) m l vs.head? vs.tail.head? = some (m, l) := by
  induction vs generalizing us with
  | nil => cases fuel <;> rfl
  | cons n vs ih =>
    have hwalk : ∀ k, F.sortInner comp n (k + (us ++ n :: vs).length) m l (us ++ n :: vs).head?
        (us ++ n :: vs).tail.head? = some (m, l) := by
      intro k
      have hall : F.Holds m l ([] ++ (us ++ n :: vs) ++ []) := by
        rw [List.append_nil]
        exact h
      have hmem : n ∈ [] ++ (us ++ n :: vs) ++ [] := by simp
      have hrun := hall.sortInner_stays hmem (fun b _ => by rw [List.append_nil]; exact hs n b) k
      rw [List.append_nil] at hrun
      rw [hrun]
      cases k <;> rfl
    obtain ⟨k, rfl⟩ : ∃ k, inner = k + (us ++ n :: vs).length := ⟨inner - (us ++ n :: vs).length, by omega⟩
    have hnext : F.next? m (us ++ n :: vs).head? = some (us ++ n :: vs).tail.head? :=
      Holds.next?_head (show F.Holds m l ([] ++ (us ++ n :: vs)) from h)
    have hhead := h.head_eq
    have hcut : us ++ n :: vs = us ++ [n] ++ vs := by simp
    have hrest : F.sortOuter comp (k + (us ++ n :: vs).length) (fuel + vs.length) m l vs.head? vs.tail.head? =
        some (m, l) := ih (hcut ▸ h) (hcut ▸ hs) (by rw [← hcut]; omega)
    have hnext' : F.next? m vs.head? = some vs.tail.head? := Holds.next?_head (hcut ▸ h : F.Holds m l (us ++ [n] ++ vs))
    rw [List.length_cons, ← Nat.add_assoc, List.head?_cons, List.tail_cons, sortOuter]
    simp only [hhead, hnext, Option.bind_eq_bind, Option.bind_some, hwalk, hnext', hrest]

/-- **A list with a position past the largest int is not sorted**, by a
comparator for which the node there is less than all others. -/
theorem Holds.not_sorts (h : F.Holds m l xs) (hlen : INT_MAX + 1 < xs.length) :
    ¬ F.Sorts (lessOne xs[INT_MAX + 1]) m l xs := by
  rintro ⟨m', l', ys, ⟨k, hk⟩, hre, -, hsort⟩
  have hidx : xs.idxOf xs[INT_MAX + 1] = INT_MAX + 1 := h.nodup.idxOf_getElem _ _
  have hnil : F.Holds m l ([] ++ xs) := h
  have hrun : F.listSort (lessOne xs[INT_MAX + 1]) (k + xs.length) m l = some (m, l) := by
    rw [listSort, h.head_eq, hnil.next?_head, Option.bind_eq_bind, Option.bind_some]
    exact hnil.sortOuter_stays (stays_lessOne hidx) (by simp) k
  have hsame := (hk (k + xs.length) (by omega)).symm.trans hrun
  obtain ⟨rfl, rfl⟩ := Prod.mk.inj (Option.some.inj hsame)
  obtain rfl := hre.holds.eq h
  have hle := List.pairwise_iff_getElem.1 hsort 0 (INT_MAX + 1) (by omega) hlen (by omega)
  have hne : ys[0] ≠ ys[INT_MAX + 1] := fun heq => by
    have hzero := (h.nodup.getElem_inj_iff).1 heq
    omega
  unfold lessOne at hle
  rw [if_neg hne, if_pos rfl] at hle
  omega

/-- **`mowgli_list_sort` sorts exactly the lists whose positions are ints.** -/
theorem listSort_iff (h : F.Holds m l xs) :
    (∀ comp, Orders comp → F.Sorts comp m l xs) ↔ xs.length ≤ INT_MAX + 1 := by
  constructor
  · intro hall
    by_contra hlen
    exact h.not_sorts (by omega) (hall _ (lessOne_orders _))
  · intro hlen comp ho
    exact h.sorts ho hlen

/-- Two nodes in a list, the greater one first. -/
theorem listSort_iff_two : ∃ m l, LinkedList.bareNode.Holds m l [1, 2] ∧
    LinkedList.bareNode.Sorts (lessOne 2) m l [1, 2] := by
  obtain ⟨m, l, -, h, -⟩ := (twoNodes_holds (Or.inl rfl)).nodeAdd (some 8) (n := 2) (by decide) (by decide)
  exact ⟨m, l, h, (listSort_iff h).2 (by decide) _ (lessOne_orders 2)⟩

/-- A list of any number of nodes. -/
theorem exists_holds (k : ℕ) : ∃ m l, LinkedList.bareNode.Holds m l (List.range k) := by
  induction k with
  | zero => exact ⟨.empty, .zero, holds_zero _⟩
  | succ k ih =>
    obtain ⟨m, l, h⟩ := ih
    have hk : k ∉ List.range k := by simp
    have hset : LinkedList.bareNode.Holds (m.set k ⟨none, none, none⟩) l (List.range k) :=
      h.congr fun a ha => by
        have hne : a ≠ k := fun heq => hk (heq ▸ ha)
        rw [links, links, get_set_of_ne _ _ hne]
    obtain ⟨m', l', -, hins⟩ := hset.nodeAdd_inserts none (n := k) (Store.mem_live.2 ⟨_, get_set_self ..⟩) hk
    exact ⟨m', l', List.range_succ ▸ hins.holds⟩

/-- **A list of `INT_MAX + 2` nodes is left unsorted.** -/
theorem sort_leaves_unsorted : ∃ (m : Store MowgliNode) (l : MowgliList) (xs : List Addr) (comp : Addr → Addr → ℤ),
    xs.length = 2147483649 ∧ LinkedList.bareNode.Holds m l xs ∧ Orders comp ∧
      ¬ LinkedList.bareNode.Sorts comp m l xs := by
  obtain ⟨m, l, h⟩ := exists_holds 2147483649
  have hlen : INT_MAX + 1 < (List.range 2147483649).length := by
    rw [List.length_range]
    norm_num [INT_MAX]
  exact ⟨m, l, _, _, List.length_range, h, lessOne_orders _, h.not_sorts hlen⟩

end NodeField

end Mowgli
