import Mathlib.Data.List.Nodup
import Mowgli.Library.Store
/-!
# Cells with two pointers, and doubly linked lists

What cells with two pointers each are to someone who follows pointers:
`Links` says of every cell where its two pointers point. A doubly linked
list is read off the links in segments, whose first pointer is the way
back and whose second is the way on. A segment is taken apart and put
together like the list of its cells (`Seg.append`), and what an insertion
or a removal does to the list is proved from that.
-/

namespace Mowgli

/-- Where the two pointers of each cell point, of the cells there are. -/
abbrev Links : Type := Addr → Option (Option Addr × Option Addr)

namespace Links

variable {v v' : Links} {a b : Addr} {p q n hd tl : Option Addr} {xs l r : List Addr}

/-- The links with the first pointer of `a` set. -/
def setFst (v : Links) (a : Addr) (q : Option Addr) : Links :=
  fun b => if b = a then (v a).map fun w => (q, w.2) else v b

/-- The links with the second pointer of `a` set. -/
def setSnd (v : Links) (a : Addr) (q : Option Addr) : Links :=
  fun b => if b = a then (v a).map fun w => (w.1, q) else v b

/-- `setFst` of the cell `p` points at, if it does. -/
def setFst? (v : Links) (p q : Option Addr) : Links := p.elim v fun a => v.setFst a q

/-- `setSnd` of the cell `p` points at, if it does. -/
def setSnd? (v : Links) (p q : Option Addr) : Links := p.elim v fun a => v.setSnd a q

theorem setFst_self : v.setFst a q a = (v a).map fun w => (q, w.2) := if_pos rfl

theorem setSnd_self : v.setSnd a q a = (v a).map fun w => (w.1, q) := if_pos rfl

theorem setFst_of_ne (h : b ≠ a) : v.setFst a q b = v b := if_neg h

theorem setSnd_of_ne (h : b ≠ a) : v.setSnd a q b = v b := if_neg h

@[simp] theorem setFst?_none : v.setFst? none q = v := rfl

@[simp] theorem setSnd?_none : v.setSnd? none q = v := rfl

@[simp] theorem setFst?_some : v.setFst? (some a) q = v.setFst a q := rfl

@[simp] theorem setSnd?_some : v.setSnd? (some a) q = v.setSnd a q := rfl

theorem setFst?_of_ne (h : p ≠ some b) : v.setFst? p q b = v b := by
  cases p with
  | none => rfl
  | some a => exact setFst_of_ne fun hb => h (congrArg some hb.symm)

theorem setSnd?_of_ne (h : p ≠ some b) : v.setSnd? p q b = v b := by
  cases p with
  | none => rfl
  | some a => exact setSnd_of_ne fun hb => h (congrArg some hb.symm)

/-! ## Segments -/

/-- A segment of a doubly linked list: the cells `xs`, the first of which
is `hd` and points back to `p`, and the last of which is `tl` and points
on to `q`. Without cells `hd` and `tl` are what lies beyond. -/
def Seg (v : Links) : Option Addr → Option Addr → List Addr → Option Addr → Option Addr → Prop
  | p, hd, [], tl, q => hd = q ∧ tl = p
  | p, hd, a :: xs, tl, q => hd = some a ∧ ∃ n, v a = some (p, n) ∧ Seg v (some a) n xs tl q

/-- The doubly linked list with the cells `xs`. -/
def Dll (v : Links) (hd : Option Addr) (xs : List Addr) (tl : Option Addr) : Prop :=
  v.Seg none hd xs tl none

theorem Seg.congr (h : v.Seg p hd xs tl q) (hv : ∀ a ∈ xs, v' a = v a) : v'.Seg p hd xs tl q := by
  induction xs generalizing p hd with
  | nil => exact h
  | cons a xs ih =>
    obtain ⟨hhd, n, ha, h⟩ := h
    refine ⟨hhd, n, ?_, ih h fun b hb => hv b (List.mem_cons_of_mem _ hb)⟩
    rw [hv a (List.mem_cons_self ..), ha]

theorem seg_append : v.Seg p hd (l ++ r) tl q ↔ ∃ m n, v.Seg p hd l m n ∧ v.Seg m n r tl q := by
  induction l generalizing p hd with
  | nil =>
    constructor
    · exact fun h => ⟨p, hd, ⟨rfl, rfl⟩, h⟩
    · rintro ⟨m, n, ⟨rfl, rfl⟩, h⟩
      exact h
  | cons a l ih =>
    constructor
    · rintro ⟨hhd, n, ha, h⟩
      obtain ⟨m, n', hl, hr⟩ := ih.1 h
      exact ⟨m, n', ⟨hhd, n, ha, hl⟩, hr⟩
    · rintro ⟨m, n', ⟨hhd, n, ha, hl⟩, hr⟩
      exact ⟨hhd, n, ha, ih.2 ⟨m, n', hl, hr⟩⟩

theorem Seg.hd_eq (h : v.Seg p hd xs tl none) : hd = xs.head? := by
  cases xs with
  | nil => exact h.1
  | cons a xs => exact h.1

theorem Seg.tl_eq (h : v.Seg none hd xs tl q) : tl = xs.getLast? := by
  induction xs using List.reverseRecOn with
  | nil => exact h.2
  | append_singleton xs a _ =>
    obtain ⟨m, n, -, -, n', -, -, rfl⟩ := seg_append.1 h
    simp

theorem Seg.hd_mem (h : v.Seg p hd xs tl none) (ha : hd = some a) : a ∈ xs :=
  List.mem_of_head? (h.hd_eq.symm.trans ha)

theorem Seg.tl_mem (h : v.Seg none hd xs tl q) (ha : tl = some a) : a ∈ xs :=
  List.mem_of_getLast? (h.tl_eq.symm.trans ha)

/-- A segment whose cells have their pointers turned around is the segment
the other way. -/
theorem Seg.reverse (h : v.Seg p hd xs tl q) (hv : ∀ a ∈ xs, v' a = (v a).map Prod.swap) :
    v'.Seg q tl xs.reverse hd p := by
  induction xs generalizing p hd with
  | nil =>
    obtain ⟨rfl, rfl⟩ := h
    exact ⟨rfl, rfl⟩
  | cons a xs ih =>
    obtain ⟨rfl, n, ha, h⟩ := h
    rw [List.reverse_cons]
    refine seg_append.2 ⟨n, some a, ih h fun b hb => hv b (List.mem_cons_of_mem _ hb), rfl, p, ?_, rfl, rfl⟩
    rw [hv a (List.mem_cons_self ..), ha]
    rfl

/-- The first cell of a segment is made to point back elsewhere. -/
theorem Seg.relinkStart (h : v.Seg p hd xs tl none) (hnd : xs.Nodup) (p' : Option Addr) :
    (v.setFst? hd p').Seg p' hd xs (if hd = none then p' else tl) none := by
  cases xs with
  | nil =>
    obtain ⟨rfl, rfl⟩ := h
    exact ⟨rfl, rfl⟩
  | cons a xs =>
    obtain ⟨rfl, n, ha, h⟩ := h
    refine ⟨rfl, n, by rw [setFst?_some, setFst_self, ha]; rfl, ?_⟩
    refine h.congr fun b hb => setFst_of_ne ?_
    rintro rfl
    exact (List.nodup_cons.1 hnd).1 hb

/-- The last cell of a segment is made to point on elsewhere. -/
theorem Seg.relinkEnd (h : v.Seg none hd xs tl q) (hnd : xs.Nodup) (q' : Option Addr) :
    (v.setSnd? tl q').Seg none (if tl = none then q' else hd) xs tl q' := by
  induction xs using List.reverseRecOn with
  | nil =>
    obtain ⟨rfl, rfl⟩ := h
    exact ⟨rfl, rfl⟩
  | append_singleton xs a _ =>
    obtain ⟨m, n, hxs, rfl, n', ha, -, rfl⟩ := seg_append.1 h
    refine seg_append.2 ⟨m, some a, hxs.congr fun b hb => setSnd_of_ne ?_, rfl, q', ?_, rfl, rfl⟩
    · rintro rfl
      exact (List.nodup_append.1 hnd).2.2 b hb b (List.mem_cons_self ..) rfl
    · rw [setSnd?_some, setSnd_self, ha]
      rfl

/-! ## Lists -/

/-- **An insertion.** A cell `a` goes between `l` and `r`: the cells next to
it are made to point at it, and it at them. -/
theorem Dll.insert (h : v.Dll hd (l ++ r) tl) (hnd : (l ++ r).Nodup) :
    ∃ p n, v.Seg none hd l p n ∧ v.Seg p n r tl none ∧
      ∀ {v' : Links} {a : Addr}, v' a = some (p, n) →
        (∀ b ∈ l ++ r, v' b = ((v.setSnd? p (some a)).setFst? n (some a)) b) →
        v'.Dll (if p = none then some a else hd) (l ++ a :: r) (if n = none then some a else tl) := by
  obtain ⟨p, n, hl, hr⟩ := seg_append.1 h
  refine ⟨p, n, hl, hr, fun {v' a} ha hv => ?_⟩
  obtain ⟨hndl, hndr, hdisj⟩ := List.nodup_append.1 hnd
  refine seg_append.2 ⟨p, some a, (hl.relinkEnd hndl (some a)).congr fun b hb => ?_, rfl, n, ha,
    (hr.relinkStart hndr (some a)).congr fun b hb => ?_⟩
  · rw [hv b (List.mem_append_left _ hb)]
    exact setFst?_of_ne fun hn => hdisj b hb b (hr.hd_mem hn) rfl
  · rw [hv b (List.mem_append_right _ hb)]
    have hp : p ≠ some b := fun hp => hdisj b (hl.tl_mem hp) b hb rfl
    by_cases hn : n = some b
    · rw [hn, setFst?_some, setFst?_some, setFst_self, setFst_self, setSnd?_of_ne hp]
    · rw [setFst?_of_ne hn, setFst?_of_ne hn, setSnd?_of_ne hp]

/-- An insertion before `b`, in the order a program makes its assignments. -/
theorem Dll.insertBefore (h : v.Dll hd (l ++ b :: r) tl) (hnd : (l ++ b :: r).Nodup)
    (ha : a ∉ l ++ b :: r) (hav : (v a).isSome) :
    ∃ p n, v b = some (p, n) ∧ (∀ c, p = some c → c ∈ l) ∧ v.setSnd? p (some a) b = some (p, n) ∧
      ((((v.setSnd? p (some a)).setFst a p).setSnd a (some b)).setFst b (some a)).Dll
        (if p = none then some a else hd) (l ++ a :: b :: r) tl := by
  obtain ⟨p, n, hl, ⟨rfl, n, hb, hr⟩, hins⟩ := h.insert hnd
  have hpl : ∀ c, p = some c → c ∈ l := fun c hc => hl.tl_mem hc
  have hpb : p ≠ some b := fun hb =>
    (List.nodup_append.1 hnd).2.2 b (hpl b hb) b (List.mem_cons_self ..) rfl
  have hpa : p ≠ some a := fun hp => ha (List.mem_append_left _ (hpl a hp))
  have hba : b ≠ a := by
    rintro rfl
    exact ha (by simp)
  obtain ⟨w, hw⟩ := Option.isSome_iff_exists.1 hav
  refine ⟨p, n, hb, hpl, by rw [setSnd?_of_ne hpb, hb], hins ?_ fun c hc => ?_⟩
  · rw [setFst_of_ne hba.symm, setSnd_self, setFst_self, setSnd?_of_ne hpa, hw]
    rfl
  · have hca : c ≠ a := fun hca => ha (hca ▸ hc)
    by_cases hcb : c = b
    · rw [hcb, setFst?_some, setFst_self, setFst_self, setSnd_of_ne hba, setFst_of_ne hba]
    · rw [setFst?_some, setFst_of_ne hcb, setFst_of_ne hcb, setSnd_of_ne hca, setFst_of_ne hca]

/-- An insertion after `b`, in the order a program makes its assignments. -/
theorem Dll.insertAfter (h : v.Dll hd (l ++ b :: r) tl) (hnd : (l ++ b :: r).Nodup)
    (ha : a ∉ l ++ b :: r) (hav : (v a).isSome) :
    ∃ p n, v b = some (p, n) ∧ (∀ c, n = some c → c ∈ r) ∧ v.setFst? n (some a) b = some (p, n) ∧
      ((((v.setFst? n (some a)).setSnd a n).setFst a (some b)).setSnd b (some a)).Dll
        hd (l ++ b :: a :: r) (if n = none then some a else tl) := by
  have happ : ∀ r', l ++ b :: r' = (l ++ [b]) ++ r' := by simp
  rw [happ] at h hnd ha
  obtain ⟨p', n, hl, hr, hins⟩ := h.insert hnd
  obtain ⟨p, -, -, rfl, n', hb, rfl, rfl⟩ := seg_append.1 hl
  have hnr : ∀ c, n' = some c → c ∈ r := fun c hc => hr.hd_mem hc
  have hnb : n' ≠ some b := fun hb =>
    (List.nodup_append.1 hnd).2.2 b (by simp) b (hnr b hb) rfl
  have hna : n' ≠ some a := fun hn => ha (List.mem_append_right _ (hnr a hn))
  have hba : b ≠ a := by
    rintro rfl
    exact ha (by simp)
  obtain ⟨w, hw⟩ := Option.isSome_iff_exists.1 hav
  rw [happ]
  refine ⟨p, n', hb, hnr, by rw [setFst?_of_ne hnb, hb], hins ?_ fun c hc => ?_⟩
  · rw [setSnd_of_ne hba.symm, setFst_self, setSnd_self, setFst?_of_ne hna, hw]
    rfl
  · have hca : c ≠ a := fun hca => ha (hca ▸ hc)
    by_cases hcb : c = b
    · rw [hcb, setFst?_of_ne hnb, setSnd?_some, setSnd_self, setSnd_self, setFst_of_ne hba,
        setSnd_of_ne hba, setFst?_of_ne hnb]
    · rw [setSnd_of_ne hcb, setFst_of_ne hca, setSnd_of_ne hca]
      by_cases hn : n' = some c
      · rw [hn, setFst?_some, setFst?_some, setFst_self, setFst_self, setSnd?_some, setSnd_of_ne hcb]
      · rw [setFst?_of_ne hn, setFst?_of_ne hn, setSnd?_some, setSnd_of_ne hcb]

/-- **A removal.** The cells next to `a` are made to point at one another. -/
theorem Dll.remove (h : v.Dll hd (l ++ a :: r) tl) (hnd : (l ++ a :: r).Nodup) :
    ∃ p n, v a = some (p, n) ∧ v.Seg none hd l p (some a) ∧ v.Seg (some a) n r tl none ∧
      ∀ {v' : Links}, (∀ b ∈ l ++ r, v' b = ((v.setSnd? p n).setFst? n p) b) →
        v'.Dll (if p = none then n else hd) (l ++ r) (if n = none then p else tl) := by
  obtain ⟨p, m, hl, rfl, n, ha, hr⟩ := seg_append.1 h
  refine ⟨p, n, ha, hl, hr, fun {v'} hv => ?_⟩
  obtain ⟨hndl, hndr, hdisj⟩ := List.nodup_append.1 hnd
  have hdisj : ∀ b ∈ l, b ∉ r := fun b hb hbr => hdisj b hb b (List.mem_cons_of_mem _ hbr) rfl
  refine seg_append.2 ⟨p, n, (hl.relinkEnd hndl n).congr fun b hb => ?_,
    (hr.relinkStart (List.nodup_cons.1 hndr).2 p).congr fun b hb => ?_⟩
  · rw [hv b (List.mem_append_left _ hb)]
    exact setFst?_of_ne fun hn => hdisj b hb (hr.hd_mem hn)
  · rw [hv b (List.mem_append_right _ hb)]
    have hp : p ≠ some b := fun hp => hdisj b (hl.tl_mem hp) hb
    by_cases hn : n = some b
    · rw [hn, setFst?_some, setFst?_some, setFst_self, setFst_self, setSnd?_of_ne hp]
    · rw [setFst?_of_ne hn, setFst?_of_ne hn, setSnd?_of_ne hp]

/-- **Two lists put together.** The last cell of the one is made to point on at
the first of the other, and that back at it. -/
theorem Dll.concat (h : v.Dll hd xs (some t)) (h' : v.Dll (some b) ys tl) (hnd : xs.Nodup) (hnd' : ys.Nodup)
    (hxy : ∀ a ∈ xs, a ∉ ys) : ((v.setSnd t (some b)).setFst b (some t)).Dll hd (xs ++ ys) tl := by
  have ht : t ∈ xs := h.tl_mem rfl
  have hb : b ∈ ys := h'.hd_mem rfl
  have hleft := h.relinkEnd hnd (some b)
  have hright := h'.relinkStart hnd' (some t)
  rw [if_neg (by simp)] at hleft hright
  refine seg_append.2 ⟨some t, some b, hleft.congr fun a ha => ?_, hright.congr fun a ha => ?_⟩
  · have hab : a ≠ b := fun hab => hxy a ha (hab ▸ hb)
    rw [setFst_of_ne hab, setSnd?_some]
  · have hat : a ≠ t := fun hat => hxy t ht (hat ▸ ha)
    rw [setFst?_some]
    by_cases hab : a = b
    · rw [hab, setFst_self, setFst_self, setSnd_of_ne (hab ▸ hat)]
    · rw [setFst_of_ne hab, setFst_of_ne hab, setSnd_of_ne hat]

/-- At the first cell and nowhere else there is no way back. -/
theorem Seg.hd_eq_iff (h : v.Seg none hd l p (some a)) (hnd : a ∉ l) : hd = some a ↔ p = none := by
  cases l with
  | nil =>
    obtain ⟨rfl, rfl⟩ := h
    simp
  | cons b l =>
    have hp := h.tl_eq
    obtain ⟨rfl, -⟩ := h
    simp only [List.mem_cons, not_or] at hnd
    rw [hp]
    simp [Ne.symm hnd.1]

/-- At the last cell and nowhere else there is no way on. -/
theorem Seg.tl_eq_iff (h : v.Seg (some a) n r tl none) (hnd : a ∉ r) : tl = some a ↔ n = none := by
  induction r using List.reverseRecOn with
  | nil =>
    obtain ⟨rfl, rfl⟩ := h
    simp
  | append_singleton r b _ =>
    have hn := h.hd_eq
    obtain ⟨m, m', -, -, n', -, -, rfl⟩ := seg_append.1 h
    simp only [List.mem_append, List.mem_singleton, not_or] at hnd
    rw [hn]
    simp [Ne.symm hnd.2]

/-- **The two pointers of a list are mutual inverses.** -/
theorem Dll.snd_iff_fst (h : v.Dll hd xs tl) (hnd : xs.Nodup) (ha : a ∈ xs) (hb : b ∈ xs) :
    (∃ p, v a = some (p, some b)) ↔ ∃ q, v b = some (some a, q) := by
  constructor
  · rintro ⟨p, hab⟩
    obtain ⟨l, r, rfl⟩ := List.append_of_mem ha
    obtain ⟨p', m, -, rfl, n, ha', hr⟩ := seg_append.1 h
    rw [hab] at ha'
    obtain ⟨rfl, rfl⟩ := Prod.mk.inj (Option.some.inj ha')
    cases r with
    | nil => exact absurd hr.1 (by simp)
    | cons c r =>
      obtain ⟨hc, q, hq, -⟩ := hr
      obtain rfl := Option.some.inj hc
      exact ⟨q, hq⟩
  · rintro ⟨q, hab⟩
    obtain ⟨l, r, rfl⟩ := List.append_of_mem hb
    obtain ⟨p', m, hl, rfl, n, hb', -⟩ := seg_append.1 h
    rw [hab] at hb'
    obtain ⟨rfl, rfl⟩ := Prod.mk.inj (Option.some.inj hb')
    obtain ⟨l, c, rfl⟩ := List.eq_nil_or_concat l |>.resolve_left (by
      rintro rfl
      exact absurd hl.2 (by simp))
    rw [List.concat_eq_append] at hl
    obtain ⟨m, n', -, rfl, n'', hc, rfl, hac⟩ := seg_append.1 hl
    obtain rfl := Option.some.inj hac
    exact ⟨m, hc⟩

end Links

end Mowgli
