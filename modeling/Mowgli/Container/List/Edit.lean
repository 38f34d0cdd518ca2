import Mowgli.Container.List
/-!
# Insertion at a place

`mowgli_node_add_before` and `mowgli_node_add_after` of `container/list.c`.
What each of the insertions comes to is stated in the same way
(`Inserts`): the cells of the list after it, the `data` of the node, and
that no cell that is neither listed nor added has changed.
-/

namespace Mowgli

namespace NodeField

open Store

variable {α : Type} (F : NodeField α)

/-- `p->data = d`. -/
def setData (m : Store α) (p : Addr) (d : Option Addr) : Option (Store α) :=
  m.modify p fun x => F.put x { F.get x with data := d }

/-- `mowgli_node_add_before`. -/
def nodeAddBefore (m : Store α) (data : Option Addr) (n : Addr) (l : MowgliList) (before : Option Addr) :
    Option (Store α × MowgliList) :=
  match before with
  | none => F.nodeAdd m data n l
  | some b =>
    if l.head = some b then F.nodeAddHead m data n l
    else do
      let m ← F.setData m n data
      let x ← m.get b
      let m ← F.setPrev m n (F.get x).prev
      let m ← F.setNext m n (some b)
      let m ← F.setPrev m b (some n)
      let y ← m.get n
      let m ← F.setNext? m (F.get y).prev (some n)
      some (m, { l with count := l.count + 1 })

/-- `mowgli_node_add_after`. -/
def nodeAddAfter (m : Store α) (data : Option Addr) (n : Addr) (l : MowgliList) (before : Option Addr) :
    Option (Store α × MowgliList) :=
  match before with
  | none => F.nodeAdd m data n l
  | some b => do
    let x ← m.get b
    if (F.get x).next = none then F.nodeAdd m data n l
    else do
      let m ← F.setData m n data
      let m ← F.setPrev m n (some b)
      let x ← m.get b
      let m ← F.setNext m n (F.get x).next
      let m ← F.setNext m b (some n)
      let y ← m.get n
      let q ← (F.get y).next
      let m ← F.setPrev m q (some n)
      some (m, { l with count := l.count + 1 })

variable {F} {m m' m'' : Store α} {l : MowgliList} {xs ys zs : List Addr} {a b n : Addr}

theorem setData_spec (ha : a ∈ m.live) (d : Option Addr) :
    ∃ m', F.setData m a d = some m' ∧ F.links m' = F.links m ∧ F.data m' a = some d ∧
      (∀ b ≠ a, F.data m' b = F.data m b) ∧ F.Keeps m m' := by
  obtain ⟨m', hm', hk, hb, x, hx, hx'⟩ := modify_spec (F := F) (fun n => { n with data := d }) ha
  refine ⟨m', hm', funext fun b => ?_, ?_, fun b h => ?_, hk⟩
  · by_cases h : b = a
    · rw [links, links, h, hx', hx]
      simp [F.get_put]
    · rw [links, links, hb b h]
  · rw [data, hx']
    simp [F.get_put]
  · rw [data, data, hb b h]

theorem links_isSome (ha : a ∈ m.live) : (F.links m a).isSome := by
  obtain ⟨x, hx⟩ := mem_live.1 ha
  rw [links, hx]
  rfl

/-! ## What an operation leaves alone -/

theorem modify_frame {f : α → α} (h : m.modify a f = some m') (hb : b ≠ a) : F.links m' b = F.links m b := by
  obtain ⟨x, -, rfl⟩ := Option.map_eq_some_iff.1 h
  rw [links, links, get_set_of_ne _ _ hb]

theorem setNext?_frame {p q : Option Addr} (h : F.setNext? m p q = some m') (hb : p ≠ some b) :
    F.links m' b = F.links m b := by
  cases p with
  | none => rw [Option.some.inj h]
  | some a => exact modify_frame h fun hba => hb (congrArg some hba.symm)

theorem setPrev?_frame {p q : Option Addr} (h : F.setPrev? m p q = some m') (hb : p ≠ some b) :
    F.links m' b = F.links m b := by
  cases p with
  | none => rw [Option.some.inj h]
  | some a => exact modify_frame h fun hba => hb (congrArg some hba.symm)

variable {l' : MowgliList} {d : Option Addr}

variable (F) in
/-- What adding the node `n` to the list of the cells `xs` comes to, which
has the cells `ys` after that. -/
structure Inserts (m m' : Store α) (l' : MowgliList) (n : Addr) (d : Option Addr) (xs ys : List Addr) :
    Prop where
  holds : F.Holds m' l' ys
  keeps : F.Keeps m m'
  data : F.data m' n = some d
  data_other : ∀ b ≠ n, F.data m' b = F.data m b
  frame : ∀ b ∉ xs, b ≠ n → F.links m' b = F.links m b

theorem Inserts.live (h : F.Inserts m m' l' n d xs ys) : m'.live = m.live := Keeps.live h.keeps

/-! ## Insertions -/

/-- Where a list with cells on both sides of a place is cut, and what makes
it one with a cell more there. -/
theorem Holds.insertMiddle (h : F.Holds m l (ys ++ zs)) (hys : ys ≠ []) (hzs : zs ≠ []) (hn : n ∉ ys ++ zs) :
    ∃ p q p' q', p ∈ ys ∧ q ∈ zs ∧ ys.getLast? = some p ∧ zs.head? = some q ∧
      F.links m p = some (p', some q) ∧ F.links m q = some (some p, q') ∧
      ∀ m', F.links m' n = some (some p, some q) →
        (∀ c ∈ ys ++ zs, F.links m' c = (((F.links m).setSnd p (some n)).setFst q (some n)) c) →
        F.Holds m' { l with count := l.count + 1 } (ys ++ n :: zs) := by
  obtain ⟨p, q, hl, hr, hins⟩ := h.dll.insert h.nodup
  have hp := hl.tl_eq
  have hq := hr.hd_eq
  obtain ⟨ys', p, rfl⟩ := List.eq_nil_or_concat ys |>.resolve_left hys
  obtain ⟨q, zs', rfl⟩ := List.exists_cons_of_ne_nil hzs
  rw [List.concat_eq_append] at *
  rw [List.getLast?_append, List.getLast?_singleton, Option.some_or] at hp
  rw [List.head?_cons] at hq
  subst hp hq
  obtain ⟨p', n₀, -, -, n₁, hlp, hn₁, -⟩ := Links.seg_append.1 hl
  obtain ⟨-, q', hlq, -⟩ := hr
  rw [hn₁] at hlp
  refine ⟨p, q, p', q', by simp, by simp, by simp, rfl, hlp, hlq, fun m' hm hc => ⟨?_, ?_, ?_⟩⟩
  · exact hins hm fun c hcs => hc c hcs
  · rw [List.nodup_middle, List.nodup_cons]
    exact ⟨hn, h.nodup⟩
  · simp only [List.length_append, List.length_cons, h.count]
    omega

/-- Adding a node before another that is not the first. -/
theorem Holds.addBefore_middle (h : F.Holds m l (ys ++ b :: zs)) (hys : ys ≠ []) (data : Option Addr)
    (hn : n ∈ m.live) (hxs : n ∉ ys ++ b :: zs) :
    ∃ m' l', F.nodeAddBefore m data n l (some b) = some (m', l') ∧
      F.Inserts m m' l' n data (ys ++ b :: zs) (ys ++ n :: b :: zs) := by
  obtain ⟨p, b', p', q', hp, -, -, hb', hlp, hlb, hins⟩ := h.insertMiddle hys (by simp) hxs
  obtain rfl : b = b' := Option.some.inj hb'
  have hb : b ∈ ys ++ b :: zs := by simp
  have hpx : p ∈ ys ++ b :: zs := List.mem_append_left _ hp
  have hnb : n ≠ b := fun hnb => hxs (hnb ▸ hb)
  have hnp : n ≠ p := fun hnp => hxs (hnp ▸ hpx)
  have hpb : p ≠ b := fun hpb => (List.nodup_append.1 h.nodup).2.2 p hp b (by simp) hpb
  have hhead : l.head ≠ some b := by
    rw [h.head_eq, List.head?_append_of_ne_nil _ hys]
    exact fun hbh => (List.nodup_append.1 h.nodup).2.2 b (List.mem_of_head? hbh) b (by simp) rfl
  obtain ⟨m₁, hm₁, hl₁, hd₁, ho₁, hk₁⟩ := setData_spec (F := F) hn data
  obtain ⟨x, hx, hxp, -⟩ := exists_of_links (hl₁ ▸ hlb)
  obtain ⟨m₂, hm₂, hl₂, hd₂, hk₂⟩ := setPrev_spec (F := F) (hk₁.live ▸ hn) (some p)
  obtain ⟨m₃, hm₃, hl₃, hd₃, hk₃⟩ := setNext_spec (F := F) (hk₂.live ▸ hk₁.live ▸ hn) (some b)
  have hk : F.Keeps m m₃ := hk₁.trans (hk₂.trans hk₃)
  obtain ⟨m₄, hm₄, hl₄, hd₄, hk₄⟩ := setPrev_spec (F := F) (hk.live ▸ h.mem_live hb) (some n)
  have hlinks : F.links m₄ n = some (some p, some b) := by
    rw [hl₄, Links.setFst_of_ne hnb, hl₃, Links.setSnd_self, hl₂, Links.setFst_self, hl₁]
    obtain ⟨w, hw⟩ := Option.isSome_iff_exists.1 (links_isSome (F := F) hn)
    rw [hw]
    rfl
  obtain ⟨y, hy, hyp, -⟩ := exists_of_links hlinks
  obtain ⟨m₅, hm₅, hl₅, hd₅, hk₅⟩ := setNext_spec (F := F)
    (hk₄.live ▸ hk.live ▸ h.mem_live hpx) (some n)
  have hholds : F.Holds m₅ { l with count := l.count + 1 } (ys ++ n :: b :: zs) := by
    refine hins m₅ ?_ fun c hc => ?_
    · rw [hl₅, Links.setSnd_of_ne hnp, hlinks]
    · have hcn : c ≠ n := fun hcn => hxs (hcn ▸ hc)
      rw [hl₅, hl₄, hl₃, hl₂, hl₁]
      by_cases hcp : c = p
      · rw [hcp, Links.setSnd_self, Links.setFst_of_ne hpb, Links.setFst_of_ne hpb, Links.setSnd_self,
          Links.setSnd_of_ne hnp.symm, Links.setFst_of_ne hnp.symm]
      · rw [Links.setSnd_of_ne hcp]
        by_cases hcb : c = b
        · rw [hcb, Links.setFst_self, Links.setFst_self, Links.setSnd_of_ne hnb.symm,
            Links.setFst_of_ne hnb.symm, Links.setSnd_of_ne hpb.symm]
        · rw [Links.setFst_of_ne hcb, Links.setFst_of_ne hcb, Links.setSnd_of_ne hcn, Links.setFst_of_ne hcn,
            Links.setSnd_of_ne hcp]
  refine ⟨m₅, _, ?_, hholds, hk.trans (hk₄.trans hk₅), ?_, fun c hc => ?_, fun c hc hcn => ?_⟩
  · simp only [NodeField.nodeAddBefore, if_neg hhead, hm₁, hx, hxp, hm₂, hm₃, hm₄, hy, hyp, setNext?, hm₅,
      Option.bind_eq_bind, Option.bind_some]
  · rw [hd₅, hd₄, hd₃, hd₂, hd₁]
  · rw [hd₅, hd₄, hd₃, hd₂, ho₁ c hc]
  · rw [modify_frame (b := c) hm₅ fun hcp => hc (hcp ▸ hpx), modify_frame (b := c) hm₄ fun hcb => hc (hcb ▸ hb),
      modify_frame hm₃ hcn, modify_frame hm₂ hcn, hl₁]

/-- Adding a node after another that is not the last. -/
theorem Holds.addAfter_middle (h : F.Holds m l (ys ++ b :: zs)) (hzs : zs ≠ []) (data : Option Addr)
    (hn : n ∈ m.live) (hxs : n ∉ ys ++ b :: zs) :
    ∃ m' l', F.nodeAddAfter m data n l (some b) = some (m', l') ∧
      F.Inserts m m' l' n data (ys ++ b :: zs) (ys ++ b :: n :: zs) := by
  have happ : ∀ r, ys ++ b :: r = (ys ++ [b]) ++ r := by simp
  rw [happ] at h hxs
  obtain ⟨b', q, p', q', -, hq, hb', -, hlb, hlq, hins⟩ := h.insertMiddle (by simp) hzs hxs
  obtain rfl : b = b' := by simpa using hb'
  have hb : b ∈ (ys ++ [b]) ++ zs := by simp
  have hqx : q ∈ (ys ++ [b]) ++ zs := List.mem_append_right _ hq
  have hnb : n ≠ b := fun hnb => hxs (hnb ▸ hb)
  have hnq : n ≠ q := fun hnq => hxs (hnq ▸ hqx)
  have hbq : b ≠ q := fun hbq => (List.nodup_append.1 h.nodup).2.2 b (by simp) q hq hbq
  obtain ⟨x, hx, -, hxq⟩ := exists_of_links hlb
  obtain ⟨m₁, hm₁, hl₁, hd₁, ho₁, hk₁⟩ := setData_spec (F := F) hn data
  obtain ⟨m₂, hm₂, hl₂, hd₂, hk₂⟩ := setPrev_spec (F := F) (hk₁.live ▸ hn) (some b)
  have hlb₂ : F.links m₂ b = some (p', some q) := by
    rw [hl₂, Links.setFst_of_ne hnb.symm, hl₁, hlb]
  obtain ⟨x₂, hx₂, -, hxq₂⟩ := exists_of_links hlb₂
  obtain ⟨m₃, hm₃, hl₃, hd₃, hk₃⟩ := setNext_spec (F := F) (hk₂.live ▸ hk₁.live ▸ hn) (some q)
  have hk : F.Keeps m m₃ := hk₁.trans (hk₂.trans hk₃)
  obtain ⟨m₄, hm₄, hl₄, hd₄, hk₄⟩ := setNext_spec (F := F) (hk.live ▸ h.mem_live hb) (some n)
  have hlinks : F.links m₄ n = some (some b, some q) := by
    rw [hl₄, Links.setSnd_of_ne hnb, hl₃, Links.setSnd_self, hl₂, Links.setFst_self, hl₁]
    obtain ⟨w, hw⟩ := Option.isSome_iff_exists.1 (links_isSome (F := F) hn)
    rw [hw]
    rfl
  obtain ⟨y, hy, -, hyq⟩ := exists_of_links hlinks
  obtain ⟨m₅, hm₅, hl₅, hd₅, hk₅⟩ := setPrev_spec (F := F)
    (hk₄.live ▸ hk.live ▸ h.mem_live hqx) (some n)
  have hholds : F.Holds m₅ { l with count := l.count + 1 } ((ys ++ [b]) ++ n :: zs) := by
    refine hins m₅ ?_ fun c hc => ?_
    · rw [hl₅, Links.setFst_of_ne hnq, hlinks]
    · have hcn : c ≠ n := fun hcn => hxs (hcn ▸ hc)
      rw [hl₅, hl₄, hl₃, hl₂, hl₁]
      by_cases hcq : c = q
      · rw [hcq, Links.setFst_self, Links.setFst_self, Links.setSnd_of_ne hbq.symm,
          Links.setSnd_of_ne hbq.symm, Links.setSnd_of_ne hnq.symm, Links.setFst_of_ne hnq.symm]
      · rw [Links.setFst_of_ne hcq, Links.setFst_of_ne hcq]
        by_cases hcb : c = b
        · rw [hcb, Links.setSnd_self, Links.setSnd_self, Links.setSnd_of_ne hnb.symm,
            Links.setFst_of_ne hnb.symm]
        · rw [Links.setSnd_of_ne hcb, Links.setSnd_of_ne hcb, Links.setSnd_of_ne hcn, Links.setFst_of_ne hcn]
  rw [← happ] at hholds hxs
  refine ⟨m₅, _, ?_, hholds, hk.trans (hk₄.trans hk₅), ?_, fun c hc => ?_, fun c hc hcn => ?_⟩
  · simp only [NodeField.nodeAddAfter, hx, hxq, reduceCtorEq, if_false, hm₁, hm₂, hx₂, hxq₂, hm₃, hm₄, hy, hyq,
      hm₅, Option.bind_eq_bind, Option.bind_some]
  · rw [hd₅, hd₄, hd₃, hd₂, hd₁]
  · rw [hd₅, hd₄, hd₃, hd₂, ho₁ c hc]
  · rw [happ] at hc
    rw [modify_frame (b := c) hm₅ fun hcq => hc (hcq ▸ hqx), modify_frame (b := c) hm₄ fun hcb => hc (hcb ▸ hb),
      modify_frame hm₃ hcn, modify_frame hm₂ hcn, hl₁]

/-- Adding at the end changes the links of the node and of the last one. -/
theorem Holds.nodeAdd_frame (h : F.Holds m l xs) (hrun : F.nodeAdd m d n l = some (m', l')) (hb : b ∉ xs)
    (hbn : b ≠ n) : F.links m' b = F.links m b := by
  obtain ⟨m₁, hm₁, hrun⟩ := Option.bind_eq_some_iff.1 hrun
  have h₁ := modify_frame (F := F) hm₁ hbn
  cases hhead : l.head with
  | none =>
    rw [hhead] at hrun
    rw [← (Prod.mk.inj (Option.some.inj hrun)).1, h₁]
  | some c =>
    rw [hhead] at hrun
    obtain ⟨tn, htn, hrun⟩ := Option.bind_eq_some_iff.1 hrun
    obtain ⟨m₂, hm₂, hrun⟩ := Option.bind_eq_some_iff.1 hrun
    obtain ⟨m₃, hm₃, hrun⟩ := Option.bind_eq_some_iff.1 hrun
    have hbt : b ≠ tn := fun hbt => hb (hbt ▸ List.mem_of_getLast? (h.tail_eq ▸ htn))
    rw [← (Prod.mk.inj (Option.some.inj hrun)).1, modify_frame hm₃ hbt, modify_frame hm₂ hbn, h₁]

/-- Adding at the head changes the links of the node and of the first one. -/
theorem Holds.nodeAddHead_frame (h : F.Holds m l xs) (hrun : F.nodeAddHead m d n l = some (m', l'))
    (hb : b ∉ xs) (hbn : b ≠ n) : F.links m' b = F.links m b := by
  obtain ⟨m₁, hm₁, hrun⟩ := Option.bind_eq_some_iff.1 hrun
  have h₁ := modify_frame (F := F) hm₁ hbn
  cases hhead : l.head with
  | none =>
    rw [hhead] at hrun
    rw [← (Prod.mk.inj (Option.some.inj hrun)).1, h₁]
  | some c =>
    rw [hhead] at hrun
    obtain ⟨m₂, hm₂, hrun⟩ := Option.bind_eq_some_iff.1 hrun
    obtain ⟨m₃, hm₃, hrun⟩ := Option.bind_eq_some_iff.1 hrun
    have hbc : b ≠ c := fun hbc => hb (hbc ▸ List.mem_of_head? (h.head_eq ▸ hhead))
    rw [← (Prod.mk.inj (Option.some.inj hrun)).1, modify_frame hm₃ hbc, modify_frame hm₂ hbn, h₁]

theorem Holds.nodeAdd_inserts (h : F.Holds m l xs) (d : Option Addr) (hn : n ∈ m.live) (hxs : n ∉ xs) :
    ∃ m' l', F.nodeAdd m d n l = some (m', l') ∧ F.Inserts m m' l' n d xs (xs ++ [n]) := by
  obtain ⟨m', l', hrun, hholds, hk, hd, ho⟩ := h.nodeAdd d hn hxs
  exact ⟨m', l', hrun, hholds, hk, hd, ho, fun b => h.nodeAdd_frame hrun⟩

theorem Holds.nodeAddHead_inserts (h : F.Holds m l xs) (d : Option Addr) (hn : n ∈ m.live) (hxs : n ∉ xs) :
    ∃ m' l', F.nodeAddHead m d n l = some (m', l') ∧ F.Inserts m m' l' n d xs (n :: xs) := by
  obtain ⟨m', l', hrun, hholds, hk, hd, ho⟩ := h.nodeAddHead d hn hxs
  exact ⟨m', l', hrun, hholds, hk, hd, ho, fun b => h.nodeAddHead_frame hrun⟩

/-- **Adding a node before the first cell of `zs`**, or at the end. -/
theorem Holds.nodeAddBefore (h : F.Holds m l (ys ++ zs)) (d : Option Addr) (hn : n ∈ m.live)
    (hxs : n ∉ ys ++ zs) :
    ∃ m' l', F.nodeAddBefore m d n l zs.head? = some (m', l') ∧
      F.Inserts m m' l' n d (ys ++ zs) (ys ++ n :: zs) := by
  cases zs with
  | nil =>
    rw [List.append_nil] at h hxs ⊢
    exact h.nodeAdd_inserts d hn hxs
  | cons b zs =>
    by_cases hys : ys = []
    · subst hys
      have hhead : l.head = some b := h.head_eq
      rw [List.head?_cons, NodeField.nodeAddBefore, if_pos hhead]
      exact h.nodeAddHead_inserts d hn hxs
    · exact h.addBefore_middle hys d hn hxs

/-- **Adding a node after the last cell of `ys`**, or at the end. -/
theorem Holds.nodeAddAfter (h : F.Holds m l (ys ++ zs)) (hys : ys = [] → zs = []) (d : Option Addr)
    (hn : n ∈ m.live) (hxs : n ∉ ys ++ zs) :
    ∃ m' l', F.nodeAddAfter m d n l ys.getLast? = some (m', l') ∧
      F.Inserts m m' l' n d (ys ++ zs) (ys ++ n :: zs) := by
  cases ys using List.reverseRecOn with
  | nil =>
    rw [hys rfl] at h hxs ⊢
    exact h.nodeAdd_inserts d hn hxs
  | append_singleton ys b =>
    rw [List.getLast?_append, List.getLast?_singleton, Option.some_or]
    have happ : ∀ r, ys ++ [b] ++ r = ys ++ b :: r := by simp
    by_cases hzs : zs = []
    · subst hzs
      rw [List.append_nil] at h hxs ⊢
      obtain ⟨x, hx, hnext⟩ := h.next_eq
      rw [NodeField.nodeAddAfter]
      simp only [hx, hnext, List.head?_nil, Option.bind_eq_bind, Option.bind_some, if_true]
      exact h.nodeAdd_inserts d hn hxs
    · rw [happ] at h hxs ⊢
      rw [happ]
      exact h.addAfter_middle hzs d hn hxs

/-- Deleting a node changes the links of the cells that stay listed only. -/
theorem Holds.nodeDelete_frame (h : F.Holds m l (ys ++ n :: zs)) (hrun : F.nodeDelete m n l = some (m', l'))
    (hb : b ∉ ys ++ zs) : F.links m' b = F.links m b := by
  obtain ⟨p, q, hn, hys, hzs, -⟩ := h.dll.remove h.nodup
  have hpn : p ≠ some n := by
    intro hp
    have hmid := h.nodup
    rw [List.nodup_middle, List.nodup_cons, List.mem_append, not_or] at hmid
    exact hmid.1.1 (hys.tl_mem hp)
  obtain ⟨x, hx, rfl, rfl⟩ := exists_of_links hn
  have hpb : (F.get x).prev ≠ some b := fun hp => hb (List.mem_append_left _ (hys.tl_mem hp))
  have hqb : (F.get x).next ≠ some b := fun hq => hb (List.mem_append_right _ (hzs.hd_mem hq))
  obtain ⟨x', hx', hrun⟩ := Option.bind_eq_some_iff.1 hrun
  obtain rfl := Option.some.inj (hx.symm.trans hx')
  obtain ⟨m₁, hm₁, hrun⟩ := Option.bind_eq_some_iff.1 hrun
  obtain ⟨y, hy, hrun⟩ := Option.bind_eq_some_iff.1 hrun
  have hny : F.links m₁ n = some ((F.get x).prev, (F.get x).next) := by
    rw [setNext?_frame hm₁ hpn, hn]
  obtain ⟨y', hy', -, hyn⟩ := exists_of_links hny
  obtain rfl := Option.some.inj (hy.symm.trans hy')
  obtain ⟨m₂, hm₂, hrun⟩ := Option.bind_eq_some_iff.1 hrun
  rw [← (Prod.mk.inj (Option.some.inj hrun)).1, setPrev?_frame hm₂ (hyn ▸ hqb), setNext?_frame hm₁ hpb]

end NodeField

end Mowgli
