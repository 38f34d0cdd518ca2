import Mathlib.Data.List.Infix
import Mathlib.Data.List.TakeDrop
/-!
# Rows of labels with back references

A name is a row of labels and a mark that ends it. In a message a pointer may
stand for the rest of a name, which is then read on at another place. What is
a label and what is a pointer can be told from what is read, so there is at
most one name at a place (`NameAt.unique`), and what is written behind a name
does not change it (`NameAt.mono`).
-/

namespace Mowgli

/-- A code for labels: no label begins like another, and the first letter tells
a label, a pointer and the end mark from each other. -/
structure LabelCode (α : Type) where
  stop : α
  IsPointer : α → Prop
  /-- Where a pointer leads. -/
  place : α → α → ℕ
  IsLabel : List α → Prop
  stop_not_pointer : ¬ IsPointer stop
  label_head : ∀ l, IsLabel l → ∃ a t, l = a :: t ∧ a ≠ stop ∧ ¬ IsPointer a
  prefix_free : ∀ l l' t t', IsLabel l → IsLabel l' → l ++ t = l' ++ t' → l = l'

variable {α : Type} (C : LabelCode α)

namespace LabelCode

/-- A name without pointers. -/
def wire (ls : List (List α)) : List α := ls.flatten ++ [C.stop]

/-- At `x` there is the name with the labels `ls`, and behind it is `e`. Up to the
last pointer there are `c` letters, those behind pointers with them. -/
inductive NameAt (m : List α) : ℕ → List (List α) → ℕ → ℕ → Prop
  | root {x : ℕ} : m[x]? = some C.stop → NameAt m x [] (x + 1) 0
  | label {x e c : ℕ} {l : List α} {ls : List (List α)} : C.IsLabel l → l <+: m.drop x →
      NameAt m (x + l.length) ls e c → NameAt m x (l :: ls) e (if c = 0 then 0 else l.length + c)
  | pointer {x e c : ℕ} {a b : α} {ls : List (List α)} : m[x]? = some a → C.IsPointer a → m[x + 1]? = some b →
      NameAt m (C.place a b) ls e c → NameAt m x ls (x + 2) (2 + c)

end LabelCode

variable {C} {m m' : List α} {x x' e e' c c' : ℕ} {l l' t : List α} {ls ls' : List (List α)} {a b : α}

/-! ## Texts at a place -/

theorem getElem?_of_prefix_drop (h : a :: t <+: m.drop x) : m[x]? = some a := by
  obtain ⟨s, hs⟩ := h
  have := congrArg (·[0]?) hs
  simpa using this.symm

theorem append_prefix_drop : l ++ t <+: m.drop x ↔ l <+: m.drop x ∧ t <+: m.drop (x + l.length) := by
  constructor
  · rintro ⟨s, hs⟩
    have hdrop : m.drop (x + l.length) = t ++ s := by
      rw [← List.drop_drop, ← hs, List.append_assoc, List.drop_left]
    exact ⟨⟨t ++ s, by rw [← hs, List.append_assoc]⟩, ⟨s, hdrop.symm⟩⟩
  · rintro ⟨⟨s, hs⟩, ⟨s', hs'⟩⟩
    rw [← List.drop_drop, ← hs, List.drop_left] at hs'
    exact ⟨s', by rw [List.append_assoc, hs', hs]⟩

theorem prefix_drop_of_isPrefix (hm : m <+: m') (h : l <+: m.drop x) : l <+: m'.drop x := by
  obtain ⟨s, rfl⟩ := hm
  rcases Nat.lt_or_ge x m.length with hlt | hge
  · rw [List.drop_append_of_le_length hlt.le]
    exact h.trans (List.prefix_append _ _)
  · rw [List.drop_eq_nil_of_le hge, List.prefix_nil] at h
    rw [h]
    exact List.nil_prefix

theorem getElem?_of_isPrefix (hm : m <+: m') (h : m[x]? = some a) : m'[x]? = some a := by
  obtain ⟨s, rfl⟩ := hm
  exact List.getElem?_append_left (List.getElem?_eq_some_iff.1 h).1 ▸ h

theorem length_le_of_prefix_drop (h : l <+: m.drop x) (hne : l ≠ []) : x + l.length ≤ m.length := by
  have hlen := h.length_le
  have hpos := List.length_pos_iff.2 hne
  rw [List.length_drop] at hlen
  omega

theorem prefix_drop_take {n : ℕ} (h : l <+: m.drop x) (hn : x + l.length ≤ n) : l <+: (m.take n).drop x := by
  rw [List.drop_take]
  exact List.prefix_take_iff.2 ⟨h, by omega⟩

namespace LabelCode

/-- Two labels at one place are the same. -/
theorem label_unique (h : C.IsLabel l) (h' : C.IsLabel l') (hm : l <+: m.drop x) (hm' : l' <+: m.drop x) : l = l' := by
  obtain ⟨t, ht⟩ := hm
  obtain ⟨t', ht'⟩ := hm'
  exact C.prefix_free l l' t t' h h' (ht.trans ht'.symm)

theorem label_ne_nil (h : C.IsLabel l) : l ≠ [] := by
  obtain ⟨a, t, rfl, -, -⟩ := C.label_head l h
  exact List.cons_ne_nil a t

theorem label_pos (h : C.IsLabel l) : 0 < l.length := List.length_pos_iff.2 (label_ne_nil h)

/-- Where a label is, there is neither the end mark nor a pointer. -/
theorem label_first (h : C.IsLabel l) (hm : l <+: m.drop x) : ∃ a, m[x]? = some a ∧ a ≠ C.stop ∧ ¬ C.IsPointer a := by
  obtain ⟨a, t, rfl, hstop, hptr⟩ := C.label_head l h
  exact ⟨a, getElem?_of_prefix_drop hm, hstop, hptr⟩

namespace NameAt

/-- **There is one name at a place.** -/
theorem unique (h : C.NameAt m x ls e c) (h' : C.NameAt m x ls' e' c') : ls = ls' ∧ e = e' ∧ c = c' := by
  induction h generalizing ls' e' c' with
  | root hm =>
    cases h' with
    | root _ => exact ⟨rfl, rfl, rfl⟩
    | label hl hpre _ =>
      obtain ⟨a, ha, hstop, -⟩ := label_first hl hpre
      exact absurd (Option.some.inj (ha.symm.trans hm)) hstop
    | pointer ha hptr _ _ =>
      rw [hm] at ha
      exact absurd ((Option.some.inj ha).symm ▸ hptr) C.stop_not_pointer
  | label hl hpre _ ih =>
    obtain ⟨a, ha, hstop, hnot⟩ := label_first hl hpre
    cases h' with
    | root hm => exact absurd (Option.some.inj (ha.symm.trans hm)) hstop
    | label hl' hpre' h' =>
      obtain rfl := label_unique hl hl' hpre hpre'
      obtain ⟨rfl, rfl, rfl⟩ := ih h'
      exact ⟨rfl, rfl, rfl⟩
    | pointer hm hptr _ _ => exact absurd (Option.some.inj (ha.symm.trans hm) ▸ hptr) hnot
  | pointer ha hptr hb _ ih =>
    cases h' with
    | root hm =>
      rw [ha] at hm
      exact absurd (Option.some.inj hm ▸ hptr) C.stop_not_pointer
    | label hl hpre _ =>
      obtain ⟨a, hm, -, hnot⟩ := label_first hl hpre
      exact absurd (Option.some.inj (ha.symm.trans hm) ▸ hptr) hnot
    | pointer ha' _ hb' h' =>
      obtain rfl := Option.some.inj (ha.symm.trans ha')
      obtain rfl := Option.some.inj (hb.symm.trans hb')
      obtain ⟨rfl, -, rfl⟩ := ih h'
      exact ⟨rfl, rfl, rfl⟩

/-- **A name stays** when the message goes on. -/
theorem mono (h : C.NameAt m x ls e c) (hm : m <+: m') : C.NameAt m' x ls e c := by
  induction h with
  | root hx => exact .root (getElem?_of_isPrefix hm hx)
  | label hl hpre _ ih => exact .label hl (prefix_drop_of_isPrefix hm hpre) ih
  | pointer ha hptr hb _ ih => exact .pointer (getElem?_of_isPrefix hm ha) hptr (getElem?_of_isPrefix hm hb) ih

/-- A name is within the message. -/
theorem bounds (h : C.NameAt m x ls e c) : x < e ∧ e ≤ m.length := by
  induction h with
  | root hx =>
    have hlt := (List.getElem?_eq_some_iff.1 hx).1
    omega
  | label hl hpre _ ih =>
    have := label_pos hl
    omega
  | pointer _ _ hb _ _ =>
    have hlt := (List.getElem?_eq_some_iff.1 hb).1
    omega

theorem isLabel (h : C.NameAt m x ls e c) : ∀ l ∈ ls, C.IsLabel l := by
  induction h with
  | root _ => exact fun l hl => absurd hl List.not_mem_nil
  | label hl _ _ ih => exact List.forall_mem_cons.2 ⟨hl, ih⟩
  | pointer _ _ _ _ ih => exact ih

/-- A name without pointers is there in one piece. -/
theorem wire_prefix (h : C.NameAt m x ls e 0) : C.wire ls <+: m.drop x ∧ e = x + (C.wire ls).length := by
  generalize hc : 0 = c at h
  induction h with
  | root hx =>
    obtain ⟨hlt, hx⟩ := List.getElem?_eq_some_iff.1 hx
    refine ⟨?_, rfl⟩
    rw [List.drop_eq_getElem_cons hlt, hx]
    exact List.cons_prefix_cons.2 ⟨rfl, List.nil_prefix⟩
  | @label x e c l ls hl hpre h ih =>
    have hpos := label_pos hl
    have hzero : 0 = c := by
      split_ifs at hc <;> omega
    obtain ⟨hrest, rfl⟩ := ih hzero
    rw [wire, List.flatten_cons, List.append_assoc]
    refine ⟨append_prefix_drop.2 ⟨hpre, hrest⟩, ?_⟩
    rw [List.length_append, ← Nat.add_assoc]
    rfl
  | pointer _ _ _ _ _ => omega

/-- The labels `ls` before a name, in one piece. -/
theorem append (hls : ∀ l ∈ ls, C.IsLabel l) (hm : ls.flatten <+: m.drop x)
    (h : C.NameAt m (x + ls.flatten.length) ls' e c) :
    C.NameAt m x (ls ++ ls') e (if c = 0 then 0 else ls.flatten.length + c) := by
  induction ls generalizing x with
  | nil =>
    simp only [List.flatten_nil, List.length_nil, Nat.add_zero, Nat.zero_add, List.nil_append] at h ⊢
    split_ifs with hc
    · exact hc ▸ h
    · exact h
  | cons l ls ih =>
    obtain ⟨hl, hls⟩ := List.forall_mem_cons.1 hls
    rw [List.flatten_cons] at hm h
    obtain ⟨hpre, hrest⟩ := append_prefix_drop.1 hm
    rw [List.length_append, ← Nat.add_assoc] at h
    have hname := NameAt.label hl hpre (ih hls hrest h)
    rw [List.cons_append]
    by_cases hc : c = 0
    · simpa only [if_pos hc, if_true] using hname
    · have hne : ls.flatten.length + c ≠ 0 := by omega
      rw [if_neg hc, if_neg hne, ← Nat.add_assoc] at hname
      rw [if_neg hc, List.flatten_cons, List.length_append]
      exact hname

/-- A name that is there in one piece. -/
theorem of_wire (hls : ∀ l ∈ ls, C.IsLabel l) (hm : C.wire ls <+: m.drop x) :
    C.NameAt m x ls (x + (C.wire ls).length) 0 := by
  obtain ⟨hflat, hstop⟩ := append_prefix_drop.1 hm
  have hname := append hls hflat (.root (getElem?_of_prefix_drop hstop))
  rw [List.append_nil, if_pos rfl] at hname
  rw [wire, List.length_append, List.length_singleton, ← Nat.add_assoc]
  exact hname

end NameAt

/-- The labels can be read off a name. -/
theorem wire_injective (hls : ∀ l ∈ ls, C.IsLabel l) (hls' : ∀ l ∈ ls', C.IsLabel l) (h : C.wire ls = C.wire ls') :
    ls = ls' :=
  (NameAt.of_wire (x := 0) hls (List.prefix_refl _)).unique (NameAt.of_wire hls' (h ▸ List.prefix_refl _)) |>.1

end LabelCode

end Mowgli
