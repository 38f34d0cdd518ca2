import Mowgli.Base.C
import Mowgli.Library.Links
/-!
# Linked lists, as `container/list.c` has them

A `mowgli_node_t` is mostly a field of something else, a block of a heap
or a timer or a pollable, and a pointer to the node is as good as one to
what it is a field of. So the functions here work on a store of any cells
that have a node, given by a `NodeField`. They answer `none` where they
would dereference a null or dangling pointer.

`count` is a `size_t`. It counts things that take up memory, so it does
not wrap at the top, but nothing keeps it from being decremented at 0.
-/

namespace Mowgli

/-- `mowgli_node_t`. -/
structure MowgliNode where
  next : Option Addr
  prev : Option Addr
  data : Option Addr

/-- `mowgli_list_t`. -/
structure MowgliList where
  head : Option Addr
  tail : Option Addr
  count : ℕ

/-- A list on zero-filled memory. -/
def MowgliList.zero : MowgliList := ⟨none, none, 0⟩

/-- Cells that have a node among their fields. -/
structure NodeField (α : Type) where
  get : α → MowgliNode
  put : α → MowgliNode → α
  get_put : ∀ x n, get (put x n) = n

namespace NodeField

open Store

variable {α : Type} (F : NodeField α)

/-- `p->next = q`. -/
def setNext (m : Store α) (p : Addr) (q : Option Addr) : Option (Store α) :=
  m.modify p fun x => F.put x { F.get x with next := q }

/-- `p->prev = q`. -/
def setPrev (m : Store α) (p : Addr) (q : Option Addr) : Option (Store α) :=
  m.modify p fun x => F.put x { F.get x with prev := q }

/-- `if (p) p->next = q`. -/
def setNext? (m : Store α) (p q : Option Addr) : Option (Store α) :=
  match p with
  | none => some m
  | some p => F.setNext m p q

/-- `if (p) p->prev = q`. -/
def setPrev? (m : Store α) (p q : Option Addr) : Option (Store α) :=
  match p with
  | none => some m
  | some p => F.setPrev m p q

/-- `mowgli_node_add`. -/
def nodeAdd (m : Store α) (data : Option Addr) (n : Addr) (l : MowgliList) :
    Option (Store α × MowgliList) := do
  let m ← m.modify n fun x => F.put x ⟨none, none, data⟩
  match l.head with
  | none => some (m, ⟨some n, some n, 1⟩)
  | some _ => do
    let tn ← l.tail
    let m ← F.setPrev m n (some tn)
    let m ← F.setNext m tn (some n)
    some (m, { l with tail := some n, count := l.count + 1 })

/-- `mowgli_node_add_head`. -/
def nodeAddHead (m : Store α) (data : Option Addr) (n : Addr) (l : MowgliList) :
    Option (Store α × MowgliList) := do
  let m ← m.modify n fun x => F.put x ⟨none, none, data⟩
  match l.head with
  | none => some (m, ⟨some n, some n, 1⟩)
  | some tn => do
    let m ← F.setNext m n (some tn)
    let m ← F.setPrev m tn (some n)
    some (m, { l with head := some n, count := l.count + 1 })

/-- `mowgli_node_delete`. -/
def nodeDelete (m : Store α) (n : Addr) (l : MowgliList) : Option (Store α × MowgliList) := do
  let x ← m.get n
  let m ← F.setNext? m (F.get x).prev (F.get x).next
  let head := if (F.get x).prev = none then (F.get x).next else l.head
  let x ← m.get n
  let m ← F.setPrev? m (F.get x).next (F.get x).prev
  let tail := if (F.get x).next = none then (F.get x).prev else l.tail
  some (m, ⟨head, tail, sizeDec l.count⟩)

/-! ## The cells of a list -/

/-- The pointers of the nodes: the way back, and the way on. -/
def links (m : Store α) : Links := fun a => (m.get a).map fun x => ((F.get x).prev, (F.get x).next)

/-- The `data` of the nodes. -/
def data (m : Store α) (a : Addr) : Option (Option Addr) := (m.get a).map fun x => (F.get x).data

/-- Nothing but nodes has changed: what does not look at the node looks the
same. -/
def Keeps (m m' : Store α) : Prop :=
  ∀ {β : Type} (g : α → β), (∀ x n, g (F.put x n) = g x) → Same g m m'

/-- A list has the cells `xs`. -/
structure Holds (m : Store α) (l : MowgliList) (xs : List Addr) : Prop where
  dll : (F.links m).Dll l.head xs l.tail
  nodup : xs.Nodup
  count : l.count = xs.length

variable {F} {m m' m'' : Store α} {l : MowgliList} {xs ys zs : List Addr} {a n : Addr} {q : Option Addr}

theorem Keeps.refl (m : Store α) : F.Keeps m m := fun _ _ => Same.refl _ _

theorem Keeps.trans (h : F.Keeps m m') (h' : F.Keeps m' m'') : F.Keeps m m'' :=
  fun g hg => (h g hg).trans (h' g hg)

theorem Keeps.live (h : F.Keeps m m') : m'.live = m.live :=
  (h (fun _ => ()) fun _ _ => rfl).live

theorem holds_zero (m : Store α) : F.Holds m .zero [] := ⟨⟨rfl, rfl⟩, List.nodup_nil, rfl⟩

theorem Holds.congr (h : F.Holds m l xs) (hv : ∀ a ∈ xs, F.links m' a = F.links m a) :
    F.Holds m' l xs := ⟨h.dll.congr hv, h.nodup, h.count⟩

/-- The node of a cell is assigned to. -/
theorem modify_spec (f : MowgliNode → MowgliNode) (ha : a ∈ m.live) :
    ∃ m', m.modify a (fun x => F.put x (f (F.get x))) = some m' ∧ F.Keeps m m' ∧
      (∀ b ≠ a, m'.get b = m.get b) ∧
      ∃ x, m.get a = some x ∧ m'.get a = some (F.put x (f (F.get x))) := by
  obtain ⟨x, hx⟩ := mem_live.1 ha
  exact ⟨_, modify_of_get _ hx, fun g hg => Same.set hx (hg _ _), fun b hb => get_set_of_ne _ _ hb, x, hx,
    get_set_self ..⟩

theorem setNext_spec (ha : a ∈ m.live) (q : Option Addr) :
    ∃ m', F.setNext m a q = some m' ∧ F.links m' = (F.links m).setSnd a q ∧ F.data m' = F.data m ∧
      F.Keeps m m' := by
  obtain ⟨m', hm', hk, hb, x, hx, hx'⟩ := modify_spec (F := F) (fun n => { n with next := q }) ha
  refine ⟨m', hm', funext fun b => ?_, funext fun b => ?_, hk⟩
  · rw [links, Links.setSnd]
    split_ifs with h
    · rw [h, hx', links, hx]
      simp [F.get_put]
    · rw [hb b h]
      rfl
  · by_cases h : b = a
    · rw [data, data, h, hx', hx]
      simp [F.get_put]
    · rw [data, data, hb b h]

theorem setPrev_spec (ha : a ∈ m.live) (q : Option Addr) :
    ∃ m', F.setPrev m a q = some m' ∧ F.links m' = (F.links m).setFst a q ∧ F.data m' = F.data m ∧
      F.Keeps m m' := by
  obtain ⟨m', hm', hk, hb, x, hx, hx'⟩ := modify_spec (F := F) (fun n => { n with prev := q }) ha
  refine ⟨m', hm', funext fun b => ?_, funext fun b => ?_, hk⟩
  · rw [links, Links.setFst]
    split_ifs with h
    · rw [h, hx', links, hx]
      simp [F.get_put]
    · rw [hb b h]
      rfl
  · by_cases h : b = a
    · rw [data, data, h, hx', hx]
      simp [F.get_put]
    · rw [data, data, hb b h]

theorem setNext?_spec {p : Option Addr} (h : ∀ a, p = some a → a ∈ m.live) (q : Option Addr) :
    ∃ m', F.setNext? m p q = some m' ∧ F.links m' = (F.links m).setSnd? p q ∧ F.data m' = F.data m ∧
      F.Keeps m m' := by
  cases p with
  | none => exact ⟨m, rfl, rfl, rfl, Keeps.refl m⟩
  | some a => exact setNext_spec (h a rfl) q

theorem setPrev?_spec {p : Option Addr} (h : ∀ a, p = some a → a ∈ m.live) (q : Option Addr) :
    ∃ m', F.setPrev? m p q = some m' ∧ F.links m' = (F.links m).setFst? p q ∧ F.data m' = F.data m ∧
      F.Keeps m m' := by
  cases p with
  | none => exact ⟨m, rfl, rfl, rfl, Keeps.refl m⟩
  | some a => exact setPrev_spec (h a rfl) q

theorem exists_of_links {p : Option Addr} (h : F.links m a = some (p, q)) :
    ∃ x, m.get a = some x ∧ (F.get x).prev = p ∧ (F.get x).next = q := by
  rw [links, Option.map_eq_some_iff] at h
  obtain ⟨x, hx, hpq⟩ := h
  exact ⟨x, hx, congrArg Prod.fst hpq, congrArg Prod.snd hpq⟩

theorem Holds.mem_live (h : F.Holds m l xs) (ha : a ∈ xs) : a ∈ m.live := by
  obtain ⟨ys, zs, rfl⟩ := List.append_of_mem ha
  obtain ⟨p, n, -, -, n', hx, -⟩ := Links.seg_append.1 h.dll
  obtain ⟨x, hx, -⟩ := exists_of_links hx
  exact Store.mem_live.2 ⟨x, hx⟩

theorem Holds.head_eq (h : F.Holds m l xs) : l.head = xs.head? := Links.Seg.hd_eq h.dll

theorem Holds.tail_eq (h : F.Holds m l xs) : l.tail = xs.getLast? := Links.Seg.tl_eq h.dll

/-- The way on from a cell. -/
theorem Holds.next_eq (h : F.Holds m l (ys ++ n :: zs)) :
    ∃ x, m.get n = some x ∧ (F.get x).next = zs.head? := by
  obtain ⟨p, q, -, -, q', hx, hzs⟩ := Links.seg_append.1 h.dll
  obtain ⟨x, hx, -, hq⟩ := exists_of_links hx
  exact ⟨x, hx, hq.trans hzs.hd_eq⟩

/-- The node that comes to a list, before it is linked. -/
theorem reset_spec (data : Option Addr) (hn : n ∈ m.live) :
    ∃ m', m.modify n (fun x => F.put x ⟨none, none, data⟩) = some m' ∧ F.Keeps m m' ∧
      F.links m' n = some (none, none) ∧ F.data m' n = some data ∧
      (∀ b ≠ n, F.links m' b = F.links m b) ∧ ∀ b ≠ n, F.data m' b = F.data m b := by
  obtain ⟨m', hm', hk, hb, x, hx, hx'⟩ := modify_spec (F := F) (fun _ => ⟨none, none, data⟩) hn
  refine ⟨m', hm', hk, ?_, ?_, fun b h => ?_, fun b h => ?_⟩
  · rw [links, hx']
    simp [F.get_put]
  · rw [NodeField.data, hx']
    simp [F.get_put]
  · rw [links, links, hb b h]
  · rw [NodeField.data, NodeField.data, hb b h]

/-- **Adding a node at the end.** -/
theorem Holds.nodeAdd (h : F.Holds m l xs) (data : Option Addr) (hn : n ∈ m.live) (hxs : n ∉ xs) :
    ∃ m' l', F.nodeAdd m data n l = some (m', l') ∧ F.Holds m' l' (xs ++ [n]) ∧ F.Keeps m m' ∧
      F.data m' n = some data ∧ ∀ b ≠ n, F.data m' b = F.data m b := by
  obtain ⟨m₁, hm₁, hk₁, hn₁, hd₁, hl₁, hdo₁⟩ := reset_spec (F := F) data hn
  have h₁ : F.Holds m₁ l xs := h.congr fun a ha => hl₁ a fun hna => hxs (hna ▸ ha)
  have hnd : (xs ++ [n]).Nodup := by
    rw [List.nodup_append]
    exact ⟨h.nodup, List.nodup_singleton n, by simp; exact fun a ha hna => hxs (hna ▸ ha)⟩
  cases hhead : l.head with
  | none =>
    obtain rfl : xs = [] := by rw [← List.head?_eq_none_iff, ← h.head_eq, hhead]
    refine ⟨m₁, ⟨some n, some n, 1⟩, ?_, ⟨⟨rfl, none, hn₁, rfl, rfl⟩, hnd, rfl⟩, hk₁, hd₁, hdo₁⟩
    simp only [NodeField.nodeAdd, hm₁, hhead, Option.bind_eq_bind, Option.bind_some]
  | some a =>
    obtain ⟨tn, htail⟩ : ∃ tn, l.tail = some tn := by
      rw [h.tail_eq, ← Option.isSome_iff_exists, List.getLast?_isSome]
      rintro rfl
      exact absurd (h.head_eq.symm.trans hhead) (by simp)
    have hdll := h₁.dll
    rw [← List.append_nil xs] at hdll
    obtain ⟨p, q, hseg, ⟨rfl, rfl⟩, hins⟩ := hdll.insert (by simpa using h.nodup)
    rw [htail] at hseg hins
    have htn : tn ∈ xs := hseg.tl_mem rfl
    have hne : n ≠ tn := fun hnt => hxs (hnt ▸ htn)
    obtain ⟨m₂, hm₂, hl₂, hd₂, hk₂⟩ := setPrev_spec (F := F) (hk₁.live ▸ hn) (some tn)
    obtain ⟨m₃, hm₃, hl₃, hd₃, hk₃⟩ := setNext_spec (F := F)
      (hk₂.live ▸ h₁.mem_live htn) (some n)
    refine ⟨m₃, { l with tail := some n, count := l.count + 1 }, ?_, ⟨?_, hnd, ?_⟩,
      hk₁.trans (hk₂.trans hk₃), ?_, fun b hb => ?_⟩
    · simp only [NodeField.nodeAdd, hm₁, hhead, htail, Option.bind_eq_bind, Option.bind_some, hm₂, hm₃]
    · have hins' := @hins (F.links m₃) n ?_ fun b hb => ?_
      · simpa using hins'
      · rw [hl₃, hl₂, Links.setSnd_of_ne hne, Links.setFst_self, hn₁]
        rfl
      · have hbn : b ≠ n := fun hbn => hxs (by simpa [hbn] using hb)
        rw [hl₃, hl₂, Links.setFst?_none, Links.setSnd?_some]
        by_cases hbt : b = tn
        · rw [hbt, Links.setSnd_self, Links.setSnd_self, Links.setFst_of_ne hne.symm]
        · rw [Links.setSnd_of_ne hbt, Links.setSnd_of_ne hbt, Links.setFst_of_ne hbn]
    · rw [List.length_append, List.length_singleton, ← h.count]
    · rw [hd₃, hd₂, hd₁]
    · rw [hd₃, hd₂, hdo₁ b hb]

/-- **Adding a node at the head.** -/
theorem Holds.nodeAddHead (h : F.Holds m l xs) (data : Option Addr) (hn : n ∈ m.live) (hxs : n ∉ xs) :
    ∃ m' l', F.nodeAddHead m data n l = some (m', l') ∧ F.Holds m' l' (n :: xs) ∧ F.Keeps m m' ∧
      F.data m' n = some data ∧ ∀ b ≠ n, F.data m' b = F.data m b := by
  obtain ⟨m₁, hm₁, hk₁, hn₁, hd₁, hl₁, hdo₁⟩ := reset_spec (F := F) data hn
  have h₁ : F.Holds m₁ l xs := h.congr fun a ha => hl₁ a fun hna => hxs (hna ▸ ha)
  have hnd : (n :: xs).Nodup := List.nodup_cons.2 ⟨hxs, h.nodup⟩
  cases hhead : l.head with
  | none =>
    obtain rfl : xs = [] := by rw [← List.head?_eq_none_iff, ← h.head_eq, hhead]
    refine ⟨m₁, ⟨some n, some n, 1⟩, ?_, ⟨⟨rfl, none, hn₁, rfl, rfl⟩, hnd, rfl⟩, hk₁, hd₁, hdo₁⟩
    simp only [NodeField.nodeAddHead, hm₁, hhead, Option.bind_eq_bind, Option.bind_some]
  | some tn =>
    obtain ⟨p, q, ⟨rfl, rfl⟩, hseg, hins⟩ := (show (F.links m₁).Dll l.head ([] ++ xs) l.tail from
      h₁.dll).insert h.nodup
    rw [hhead] at hseg hins
    have htn : tn ∈ xs := hseg.hd_mem rfl
    have hne : n ≠ tn := fun hnt => hxs (hnt ▸ htn)
    obtain ⟨m₂, hm₂, hl₂, hd₂, hk₂⟩ := setNext_spec (F := F) (hk₁.live ▸ hn) (some tn)
    obtain ⟨m₃, hm₃, hl₃, hd₃, hk₃⟩ := setPrev_spec (F := F)
      (hk₂.live ▸ h₁.mem_live htn) (some n)
    refine ⟨m₃, { l with head := some n, count := l.count + 1 }, ?_, ⟨?_, hnd, ?_⟩,
      hk₁.trans (hk₂.trans hk₃), ?_, fun b hb => ?_⟩
    · simp only [NodeField.nodeAddHead, hm₁, hhead, Option.bind_eq_bind, Option.bind_some, hm₂, hm₃]
    · have hins' := @hins (F.links m₃) n ?_ fun b hb => ?_
      · simpa using hins'
      · rw [hl₃, hl₂, Links.setFst_of_ne hne, Links.setSnd_self, hn₁]
        rfl
      · have hbn : b ≠ n := fun hbn => hxs (by simpa [hbn] using hb)
        rw [hl₃, hl₂, Links.setSnd?_none, Links.setFst?_some]
        by_cases hbt : b = tn
        · rw [hbt, Links.setFst_self, Links.setFst_self, Links.setSnd_of_ne hne.symm]
        · rw [Links.setFst_of_ne hbt, Links.setFst_of_ne hbt, Links.setSnd_of_ne hbn]
    · rw [List.length_cons, ← h.count]
    · rw [hd₃, hd₂, hd₁]
    · rw [hd₃, hd₂, hdo₁ b hb]

/-- **Deleting a node.** -/
theorem Holds.nodeDelete (h : F.Holds m l (ys ++ n :: zs)) :
    ∃ m' l', F.nodeDelete m n l = some (m', l') ∧ F.Holds m' l' (ys ++ zs) ∧ F.Keeps m m' ∧
      F.data m' = F.data m := by
  obtain ⟨p, q, hn, hys, hzs, hrem⟩ := h.dll.remove h.nodup
  have hmid := h.nodup
  rw [List.nodup_middle, List.nodup_cons, List.mem_append, not_or] at hmid
  have hpn : p ≠ some n := fun hp => hmid.1.1 (hys.tl_mem hp)
  obtain ⟨x, hx, rfl, rfl⟩ := exists_of_links hn
  obtain ⟨m₁, hm₁, hl₁, hd₁, hk₁⟩ := setNext?_spec (F := F) (m := m)
    (fun b hb => h.mem_live (List.mem_append_left _ (hys.tl_mem hb))) (F.get x).next
  have hn₁ : F.links m₁ n = some ((F.get x).prev, (F.get x).next) := by
    rw [hl₁, Links.setSnd?_of_ne hpn, hn]
  obtain ⟨x₁, hx₁, hp₁, hq₁⟩ := exists_of_links hn₁
  obtain ⟨m₂, hm₂, hl₂, hd₂, hk₂⟩ := setPrev?_spec (F := F) (m := m₁)
    (fun b hb => hk₁.live ▸ h.mem_live (by simp [hzs.hd_mem hb])) (F.get x).prev
  refine ⟨m₂, ⟨if (F.get x).prev = none then (F.get x).next else l.head,
    if (F.get x).next = none then (F.get x).prev else l.tail, sizeDec l.count⟩, ?_,
    ⟨hrem fun b _ => by rw [hl₂, hl₁], hmid.2, ?_⟩, hk₁.trans hk₂, hd₂.trans hd₁⟩
  · simp only [NodeField.nodeDelete, hx, hm₁, hx₁, hp₁, hq₁, hm₂, Option.bind_eq_bind, Option.bind_some]
  · have hcount := h.count
    rw [List.length_append, List.length_cons, ← Nat.add_assoc] at hcount
    rw [hcount, sizeDec_succ, List.length_append]

theorem setNext?_keeps {p : Option Addr} (h : F.setNext? m p q = some m') : F.Keeps m m' := by
  cases p with
  | none => exact Option.some.inj h ▸ Keeps.refl m
  | some a =>
    obtain ⟨x, hx, rfl⟩ := Option.map_eq_some_iff.1 h
    exact fun g hg => Same.set hx (hg _ _)

theorem setPrev?_keeps {p : Option Addr} (h : F.setPrev? m p q = some m') : F.Keeps m m' := by
  cases p with
  | none => exact Option.some.inj h ▸ Keeps.refl m
  | some a =>
    obtain ⟨x, hx, rfl⟩ := Option.map_eq_some_iff.1 h
    exact fun g hg => Same.set hx (hg _ _)

/-- Wherever the list goes, `nodeAdd` changes nodes only. -/
theorem nodeAdd_keeps {data : Option Addr} {l' : MowgliList} (h : F.nodeAdd m data n l = some (m', l')) :
    F.Keeps m m' := by
  obtain ⟨m₁, hm₁, h⟩ := Option.bind_eq_some_iff.1 h
  obtain ⟨x, hx, rfl⟩ := Option.map_eq_some_iff.1 hm₁
  have hreset : F.Keeps m (m.set n (F.put x ⟨none, none, data⟩)) := fun g hg => Same.set hx (hg _ _)
  cases hhead : l.head with
  | none =>
    simp only [hhead, Option.some_inj, Prod.mk.injEq] at h
    rw [← h.1]
    intro β g hg
    exact hreset g hg
  | some b =>
    simp only [hhead] at h
    obtain ⟨t, -, h⟩ := Option.bind_eq_some_iff.1 h
    obtain ⟨m₂, hm₂, h⟩ := Option.bind_eq_some_iff.1 h
    obtain ⟨m₃, hm₃, h⟩ := Option.bind_eq_some_iff.1 h
    rw [Option.some_inj, Prod.mk.injEq] at h
    rw [← h.1]
    intro β g hg
    have hk₂ : Same g _ m₂ := setPrev?_keeps (p := some n) hm₂ g hg
    have hk₃ : Same g m₂ m₃ := setNext?_keeps (p := some t) hm₃ g hg
    exact ((hreset g hg).trans hk₂).trans hk₃

/-- Whatever `n` is linked to, deleting it counts the list down. -/
theorem nodeDelete_count {l' : MowgliList} (h : F.nodeDelete m n l = some (m', l')) :
    F.Keeps m m' ∧ l'.count = sizeDec l.count := by
  obtain ⟨x, -, h⟩ := Option.bind_eq_some_iff.1 h
  obtain ⟨m₁, hm₁, h⟩ := Option.bind_eq_some_iff.1 h
  obtain ⟨y, -, h⟩ := Option.bind_eq_some_iff.1 h
  obtain ⟨m₂, hm₂, h⟩ := Option.bind_eq_some_iff.1 h
  rw [Option.some_inj, Prod.mk.injEq] at h
  obtain ⟨rfl, rfl⟩ := h
  exact ⟨Keeps.trans (setNext?_keeps hm₁) (setPrev?_keeps hm₂), rfl⟩

/-! ## Lists of the cells they are fields of -/

variable (F) in
/-- A list has exactly the cells of `S`, each once, and the `data` of a node
is the cell it is in. -/
def Lists (m : Store α) (l : MowgliList) (S : Addr → Prop) : Prop :=
  ∃ xs, F.Holds m l xs ∧ (∀ a, a ∈ xs ↔ S a) ∧ ∀ a ∈ xs, F.data m a = some (some a)

variable {S T : Addr → Prop}

theorem lists_zero (m : Store α) : F.Lists m .zero fun _ => False :=
  ⟨[], holds_zero m, by simp, by simp⟩

/-- Where the nodes look the same, the list is one of the same cells. -/
theorem Lists.congr (h : F.Lists m l S) (hST : ∀ a, S a ↔ T a)
    (hv : ∀ a, S a → (m'.get a).map F.get = (m.get a).map F.get) : F.Lists m' l T := by
  obtain ⟨xs, hxs, hmem, hdata⟩ := h
  have hsame : ∀ a ∈ xs, (m'.get a).map F.get = (m.get a).map F.get := fun a ha => hv a ((hmem a).1 ha)
  refine ⟨xs, hxs.congr fun a ha => ?_, fun a => (hmem a).trans (hST a), fun a ha => ?_⟩
  · have h := congrArg (Option.map fun x : MowgliNode => (x.prev, x.next)) (hsame a ha)
    rw [Option.map_map, Option.map_map] at h
    exact h
  · have h := congrArg (Option.map MowgliNode.data) (hsame a ha)
    rw [Option.map_map, Option.map_map] at h
    exact Eq.trans h (hdata a ha)

theorem Lists.live (h : F.Lists m l S) (ha : S a) : a ∈ m.live := by
  obtain ⟨xs, hxs, hmem, -⟩ := h
  exact hxs.mem_live ((hmem a).2 ha)

/-- **Deleting a cell that is listed.** -/
theorem Lists.nodeDelete (h : F.Lists m l S) (ha : S a) :
    ∃ m' l', F.nodeDelete m a l = some (m', l') ∧ F.Lists m' l' (fun b => S b ∧ b ≠ a) ∧ F.Keeps m m' := by
  obtain ⟨xs, hxs, hmem, hdata⟩ := h
  obtain ⟨ys, zs, rfl⟩ := List.append_of_mem ((hmem a).2 ha)
  obtain ⟨m', l', hrun, hxs', hk, hd⟩ := hxs.nodeDelete
  have hmid := hxs.nodup
  rw [List.nodup_middle, List.nodup_cons] at hmid
  have hrest : ∀ b, b ∈ ys ++ zs ↔ b ∈ ys ++ a :: zs ∧ b ≠ a := by
    intro b
    rw [List.mem_append, List.mem_append, List.mem_cons]
    constructor
    · intro hb
      exact ⟨by tauto, fun hba => hmid.1 (by rwa [← hba, List.mem_append])⟩
    · tauto
  refine ⟨m', l', hrun, ⟨ys ++ zs, hxs', fun b => ?_, fun b hb => ?_⟩, hk⟩
  · rw [hrest, hmem]
  · rw [hd]
    exact hdata b ((hrest b).1 hb).1

/-- **Adding a cell that is not listed.** -/
theorem Lists.nodeAdd (h : F.Lists m l S) (ha : a ∈ m.live) (hS : ¬ S a) :
    ∃ m' l', F.nodeAdd m (some a) a l = some (m', l') ∧ F.Lists m' l' (fun b => S b ∨ b = a) ∧
      F.Keeps m m' := by
  obtain ⟨xs, hxs, hmem, hdata⟩ := h
  have haxs : a ∉ xs := fun hax => hS ((hmem a).1 hax)
  obtain ⟨m', l', hrun, hxs', hk, hda, hdo⟩ := hxs.nodeAdd (some a) ha haxs
  refine ⟨m', l', hrun, ⟨xs ++ [a], hxs', fun b => ?_, fun b hb => ?_⟩, hk⟩
  · rw [List.mem_append, List.mem_singleton, hmem]
  · rcases List.mem_append.1 hb with hb | hb
    · rw [hdo b fun hba => haxs (hba ▸ hb), hdata b hb]
    · rw [List.mem_singleton.1 hb, hda]

end NodeField

end Mowgli
