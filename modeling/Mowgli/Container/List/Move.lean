import Mowgli.Container.List.Edit
/-!
# Moving and reversing

`mowgli_node_move` and `mowgli_list_reverse` of `container/list.c`. A list
is told by its address, since a node may be moved within one list. What is
said of all lists at once is `HoldsAll`: each has its cells, and no cell is
in two of them.
-/

namespace Mowgli

namespace NodeField

open Store

variable {α : Type} (F : NodeField α)

/-- `mowgli_node_move`: what the node comes before points back past it. -/
def moveNext (m : Store α) (ls : Addr → MowgliList) (n oldlist : Addr) :
    Option (Store α × (Addr → MowgliList)) := do
  let x ← m.get n
  match (F.get x).next with
  | some q => (F.setPrev m q (F.get x).prev).map fun m => (m, ls)
  | none => some (m, Function.update ls oldlist { ls oldlist with tail := (F.get x).prev })

/-- `mowgli_node_move`: what the node comes after points on past it. -/
def movePrev (m : Store α) (ls : Addr → MowgliList) (n oldlist : Addr) :
    Option (Store α × (Addr → MowgliList)) := do
  let x ← m.get n
  match (F.get x).prev with
  | some p => (F.setNext m p (F.get x).next).map fun m => (m, ls)
  | none => some (m, Function.update ls oldlist { ls oldlist with head := (F.get x).next })

/-- `mowgli_node_move`: the first cell of the new list points back at the
node. -/
def moveHead (m : Store α) (ls : Addr → MowgliList) (n newlist : Addr) :
    Option (Store α × (Addr → MowgliList)) :=
  match (ls newlist).head with
  | some h => (F.setPrev m h (some n)).map fun m => (m, ls)
  | none =>
    some (m, if (ls newlist).tail = none then
      Function.update ls newlist { ls newlist with tail := some n } else ls)

/-- `mowgli_node_move`. -/
def nodeMove (m : Store α) (ls : Addr → MowgliList) (n oldlist newlist : Addr) :
    Option (Store α × (Addr → MowgliList)) := do
  let (m, ls) ← F.moveNext m ls n oldlist
  let (m, ls) ← F.movePrev m ls n oldlist
  let m ← F.setPrev m n none
  let m ← F.setNext m n (ls newlist).head
  let (m, ls) ← F.moveHead m ls n newlist
  let ls := Function.update ls newlist { ls newlist with head := some n }
  let ls := Function.update ls oldlist { ls oldlist with count := sizeDec (ls oldlist).count }
  let ls := Function.update ls newlist { ls newlist with count := (ls newlist).count + 1 }
  some (m, ls)

/-- `n ? n->next : NULL`. -/
def next? (m : Store α) : Option Addr → Option (Option Addr)
  | none => some none
  | some a => (m.get a).map fun x => (F.get x).next

/-- The loop of `mowgli_list_reverse`, `MOWGLI_LIST_FOREACH_SAFE(n, tn, ..)`.
It answers `none` if it has not ended after `fuel` nodes. -/
def reverseLoop : ℕ → Store α → Option Addr → Option Addr → Option (Store α)
  | _, m, none, _ => some m
  | 0, _, some _, _ => none
  | fuel + 1, m, some n, tn => do
    let x ← m.get n
    let tn2 := (F.get x).next
    let m ← F.setNext m n (F.get x).prev
    let m ← F.setPrev m n tn2
    let tn' ← F.next? m tn
    reverseLoop fuel m tn tn'

/-- `mowgli_list_reverse`. -/
def listReverse (m : Store α) (l : MowgliList) : Option (Store α × MowgliList) := do
  let tn ← F.next? m l.head
  let m ← F.reverseLoop m.live.card m l.head tn
  some (m, { l with head := l.tail, tail := l.head })

variable {F} {m m' : Store α} {ls : Addr → MowgliList} {xs ys zs : List Addr} {a b n o w : Addr}

theorem moveNext_eq {x : α} (hx : m.get n = some x) :
    F.moveNext m ls n o = (F.setPrev? m (F.get x).next (F.get x).prev).map fun m =>
      (m, if (F.get x).next = none then Function.update ls o { ls o with tail := (F.get x).prev } else ls) := by
  rw [moveNext, hx, Option.bind_eq_bind, Option.bind_some]
  cases (F.get x).next with
  | none => rfl
  | some q => rfl

theorem movePrev_eq {x : α} (hx : m.get n = some x) :
    F.movePrev m ls n o = (F.setNext? m (F.get x).prev (F.get x).next).map fun m =>
      (m, if (F.get x).prev = none then Function.update ls o { ls o with head := (F.get x).next } else ls) := by
  rw [movePrev, hx, Option.bind_eq_bind, Option.bind_some]
  cases (F.get x).prev with
  | none => rfl
  | some q => rfl

/-- The lists with the ends of one set. -/
def setEnds (ls : Addr → MowgliList) (o : Addr) (hd tl : Option Addr) : Addr → MowgliList :=
  Function.update ls o { ls o with head := hd, tail := tl }

theorem setEnds_self (hd tl : Option Addr) : setEnds ls o hd tl o = { ls o with head := hd, tail := tl } :=
  Function.update_self ..

theorem setEnds_of_ne (hd tl : Option Addr) (h : w ≠ o) : setEnds ls o hd tl w = ls w :=
  Function.update_of_ne h ..

/-- The node is taken out of its list. -/
theorem Holds.moveOut (h : F.Holds m (ls o) (ys ++ n :: zs)) :
    ∃ m₁ m₂ ls₁ hd tl, F.moveNext m ls n o = some (m₁, ls₁) ∧
      F.movePrev m₁ ls₁ n o = some (m₂, setEnds ls o hd tl) ∧ (F.links m₂).Dll hd (ys ++ zs) tl ∧
      F.Keeps m m₂ ∧ F.data m₂ = F.data m ∧ ∀ b ∉ ys ++ n :: zs, F.links m₂ b = F.links m b := by
  obtain ⟨p, q, hn, hys, hzs, hrem⟩ := h.dll.remove h.nodup
  have hmid := h.nodup
  rw [List.nodup_middle, List.nodup_cons, List.mem_append, not_or] at hmid
  have hqn : q ≠ some n := fun hq => hmid.1.2 (hzs.hd_mem hq)
  have hdisj : ∀ c, p = some c → q ≠ some c := fun c hp hq =>
    (List.nodup_append.1 h.nodup).2.2 c (hys.tl_mem hp) c (by simp [hzs.hd_mem hq]) rfl
  obtain ⟨x, hx, rfl, rfl⟩ := exists_of_links hn
  obtain ⟨m₁, hm₁, hl₁, hd₁, hk₁⟩ := setPrev?_spec (F := F) (m := m)
    (fun b hb => h.mem_live (by simp [hzs.hd_mem hb])) (F.get x).prev
  have hn₁ : F.links m₁ n = some ((F.get x).prev, (F.get x).next) := by
    rw [hl₁, Links.setFst?_of_ne hqn, hn]
  obtain ⟨y, hy, hp₁, hq₁⟩ := exists_of_links hn₁
  obtain ⟨m₂, hm₂, hl₂, hd₂, hk₂⟩ := setNext?_spec (F := F) (m := m₁)
    (fun b hb => hk₁.live ▸ h.mem_live (List.mem_append_left _ (hys.tl_mem hb))) (F.get x).next
  refine ⟨m₁, m₂, _, if (F.get x).prev = none then (F.get x).next else (ls o).head,
    if (F.get x).next = none then (F.get x).prev else (ls o).tail, by rw [moveNext_eq hx, hm₁]; rfl, ?_,
    hrem fun b _ => ?_, hk₁.trans hk₂, hd₂.trans hd₁, fun b hb => ?_⟩
  · rw [movePrev_eq hy, hp₁, hq₁, hm₂, Option.map_some]
    congr 2
    funext c
    by_cases hc : c = o
    · subst hc
      split_ifs <;> simp_all [setEnds]
    · split_ifs <;> simp_all [setEnds]
  · rw [hl₂, hl₁]
    by_cases hq : (F.get x).next = some b
    · have hp : (F.get x).prev ≠ some b := fun hp => hdisj b hp hq
      rw [Links.setSnd?_of_ne hp, hq, Links.setFst?_some, Links.setFst?_some, Links.setFst_self,
        Links.setFst_self, Links.setSnd?_of_ne hp]
    · rw [Links.setFst?_of_ne hq]
      by_cases hp : (F.get x).prev = some b
      · rw [hp, Links.setSnd?_some, Links.setSnd?_some, Links.setSnd_self, Links.setSnd_self,
          Links.setFst?_of_ne hq]
      · rw [Links.setSnd?_of_ne hp, Links.setSnd?_of_ne hp, Links.setFst?_of_ne hq]
  · rw [hl₂, hl₁, Links.setSnd?_of_ne fun hp => hb (List.mem_append_left _ (hys.tl_mem hp)),
      Links.setFst?_of_ne fun hq => hb (by simp [hzs.hd_mem hq])]

/-- The node is put at the head of a list it is not in. -/
theorem moveIn_spec (h : (F.links m).Dll (ls w).head xs (ls w).tail) (hnd : xs.Nodup) (hn : n ∈ m.live)
    (hxs : n ∉ xs) (hlive : ∀ a ∈ xs, a ∈ m.live) :
    ∃ m₁ m₂ m₃ ls₁ tl, F.setPrev m n none = some m₁ ∧ F.setNext m₁ n (ls w).head = some m₂ ∧
      F.moveHead m₂ ls n w = some (m₃, ls₁) ∧
      Function.update ls₁ w { ls₁ w with head := some n } = setEnds ls w (some n) tl ∧
      (F.links m₃).Dll (some n) (n :: xs) tl ∧ F.Keeps m m₃ ∧ F.data m₃ = F.data m ∧
      ∀ b ∉ xs, b ≠ n → F.links m₃ b = F.links m b := by
  obtain ⟨m₁, hm₁, hl₁, hd₁, hk₁⟩ := setPrev_spec (F := F) hn none
  obtain ⟨m₂, hm₂, hl₂, hd₂, hk₂⟩ := setNext_spec (F := F) (hk₁.live ▸ hn) (ls w).head
  have hn₂ : F.links m₂ n = some (none, (ls w).head) := by
    rw [hl₂, Links.setSnd_self, hl₁, Links.setFst_self]
    obtain ⟨v, hv⟩ := Option.isSome_iff_exists.1 (links_isSome (F := F) hn)
    rw [hv]
    rfl
  have ho₂ : ∀ b ≠ n, F.links m₂ b = F.links m b := fun b hb => by
    rw [hl₂, Links.setSnd_of_ne hb, hl₁, Links.setFst_of_ne hb]
  have hxn : ∀ b ∈ xs, b ≠ n := fun b hb hbn => hxs (hbn ▸ hb)
  have hk : F.Keeps m m₂ := hk₁.trans hk₂
  cases hhead : (ls w).head with
  | none =>
    rw [hhead] at hm₂ hn₂ h
    obtain rfl : xs = [] := by rw [← List.head?_eq_none_iff, ← h.hd_eq]
    have htail : (ls w).tail = none := h.2
    refine ⟨m₁, m₂, m₂, Function.update ls w { ls w with tail := some n }, some n, hm₁, hm₂, ?_, ?_,
      ⟨rfl, none, hn₂, rfl, rfl⟩, hk, hd₂.trans hd₁, fun b _ hbn => ho₂ b hbn⟩
    · simp only [moveHead, hhead, htail, if_true]
    · rw [setEnds, Function.update_self, Function.update_idem]
  | some c =>
    rw [hhead] at hm₂ hn₂ h
    have hc : c ∈ xs := Links.Seg.hd_mem h rfl
    obtain ⟨m₃, hm₃, hl₃, hd₃, hk₃⟩ := setPrev_spec (F := F) (hk.live ▸ hlive c hc) (some n)
    refine ⟨m₁, m₂, m₃, ls, (ls w).tail, hm₁, hm₂, ?_, rfl, ?_, hk.trans hk₃, hd₃.trans (hd₂.trans hd₁),
      fun b hb hbn => ?_⟩
    · simp only [moveHead, hhead, hm₃, Option.map_some]
    · have hlinks : ∀ b ∈ xs, F.links m₃ b = ((F.links m).setFst? (some c) (some n)) b := by
        intro b hb
        rw [hl₃, Links.setFst?_some]
        by_cases hbc : b = c
        · rw [hbc, Links.setFst_self, Links.setFst_self, ho₂ c (hxn c hc)]
        · rw [Links.setFst_of_ne hbc, Links.setFst_of_ne hbc, ho₂ b (hxn b hb)]
      have hrel := (h.relinkStart hnd (some n)).congr hlinks
      refine ⟨rfl, some c, ?_, ?_⟩
      · rw [hl₃, Links.setFst_of_ne (hxn c hc).symm, hn₂]
      · simpa using hrel
    · have hbc : b ≠ c := fun hbc => hb (hbc ▸ hc)
      rw [hl₃, Links.setFst_of_ne hbc, ho₂ b hbn]

variable {S : Addr → List Addr}

variable (F) in
/-- Each list has its cells, and no cell is in two lists. -/
structure HoldsAll (m : Store α) (ls : Addr → MowgliList) (S : Addr → List Addr) : Prop where
  holds : ∀ c, F.Holds m (ls c) (S c)
  disjoint : ∀ {c c' a}, a ∈ S c → a ∈ S c' → c = c'

/-- One list has changed, and nothing of the others. -/
theorem HoldsAll.update {l : MowgliList} (h : F.HoldsAll m ls S) (hl : F.Holds m' l xs)
    (hxs : ∀ a ∈ xs, ∀ c, a ∈ S c → c = o)
    (hv : ∀ c ≠ o, ∀ a ∈ S c, F.links m' a = F.links m a) :
    F.HoldsAll m' (Function.update ls o l) (Function.update S o xs) := by
  refine ⟨fun c => ?_, fun {c c' a} hc hc' => ?_⟩
  · by_cases hco : c = o
    · subst hco
      rw [Function.update_self, Function.update_self]
      exact hl
    · rw [Function.update_of_ne hco, Function.update_of_ne hco]
      exact (h.holds c).congr (hv c hco)
  · by_cases hco : c = o <;> by_cases hco' : c' = o
    · rw [hco, hco']
    · subst hco
      rw [Function.update_self] at hc
      rw [Function.update_of_ne hco'] at hc'
      exact absurd (hxs a hc c' hc') hco'
    · subst hco'
      rw [Function.update_self] at hc'
      rw [Function.update_of_ne hco] at hc
      exact absurd (hxs a hc' c hc) hco
    · rw [Function.update_of_ne hco] at hc
      rw [Function.update_of_ne hco'] at hc'
      exact h.disjoint hc hc'

/-- The counts are brought up to date after the ends, in one list or two. -/
theorem setEnds_counts (ls : Addr → MowgliList) (o w : Addr) (hd tl hd' tl' : Option Addr) :
    (let l₁ := setEnds (setEnds ls o hd tl) w hd' tl'
     let l₂ := Function.update l₁ o { l₁ o with count := sizeDec (l₁ o).count }
     Function.update l₂ w { l₂ w with count := (l₂ w).count + 1 }) =
    (let k := Function.update ls o ⟨hd, tl, sizeDec (ls o).count⟩
     Function.update k w ⟨hd', tl', (k w).count + 1⟩) := by
  funext c
  simp only [setEnds, Function.update_apply]
  by_cases hwo : w = o
  · by_cases hco : c = o
    · simp [hwo, hco]
    · simp [hwo, hco]
  · by_cases hcw : c = w
    · simp [hcw, hwo]
    · by_cases hco : c = o
      · simp [hco, Ne.symm hwo]
      · simp [hcw, hco]

/-- **Moving a node** to the head of a list, maybe the one it is in. -/
theorem HoldsAll.nodeMove (h : F.HoldsAll m ls S) (hSo : S o = ys ++ n :: zs) (w : Addr) :
    ∃ m' ls', F.nodeMove m ls n o w = some (m', ls') ∧
      F.HoldsAll m' ls' (let S₁ := Function.update S o (ys ++ zs); Function.update S₁ w (n :: S₁ w)) ∧
      F.Keeps m m' ∧ F.data m' = F.data m := by
  have hn : n ∈ S o := by rw [hSo]; simp
  have ho := h.holds o
  rw [hSo] at ho
  have hmid := ho.nodup
  rw [List.nodup_middle, List.nodup_cons] at hmid
  obtain ⟨m₁, m₂, ls₁, hd, tl, hrun₁, hrun₂, hdll, hk₂, hd₂, hv₂⟩ := ho.moveOut
  -- The lists in between: the old one without the node.
  have hout : F.Holds m₂ ⟨hd, tl, sizeDec (ls o).count⟩ (ys ++ zs) := by
    have hcount := ho.count
    rw [List.length_append, List.length_cons, ← Nat.add_assoc] at hcount
    exact ⟨hdll, hmid.2, by rw [hcount, sizeDec_succ, List.length_append]⟩
  have h₁ := h.update (o := o) hout (fun a ha c hc => h.disjoint hc (by
      rw [hSo, List.mem_append, List.mem_cons]
      rcases List.mem_append.1 ha with ha | ha <;> tauto))
    fun c hc a ha => hv₂ a fun hao => hc (h.disjoint ha (hSo ▸ hao))
  generalize hls₁ : Function.update ls o ⟨hd, tl, sizeDec (ls o).count⟩ = ls₁' at h₁
  generalize hS₁ : Function.update S o (ys ++ zs) = S₁ at h₁
  have hnS₁ : ∀ c, n ∉ S₁ c := by
    intro c hc
    by_cases hco : c = o
    · rw [hco, ← hS₁, Function.update_self] at hc
      exact hmid.1 hc
    · rw [← hS₁, Function.update_of_ne hco] at hc
      exact hco (h.disjoint hc hn)
  have hends₁ : (setEnds ls o hd tl w).head = (ls₁' w).head ∧ (setEnds ls o hd tl w).tail = (ls₁' w).tail := by
    by_cases hwo : w = o
    · rw [hwo, setEnds_self, ← hls₁, Function.update_self]
      exact ⟨rfl, rfl⟩
    · rw [setEnds_of_ne _ _ hwo, ← hls₁, Function.update_of_ne hwo]
      exact ⟨rfl, rfl⟩
  have hw : (F.links m₂).Dll (setEnds ls o hd tl w).head (S₁ w) (setEnds ls o hd tl w).tail := by
    rw [hends₁.1, hends₁.2]
    exact (h₁.holds w).dll
  obtain ⟨m₃, m₄, m₅, ls₂, tl', hrun₃, hrun₄, hrun₅, hends, hdll', hk₅, hd₅, hv₅⟩ :=
    moveIn_spec hw (h₁.holds w).nodup (hk₂.live ▸ ho.mem_live (by simp)) (hnS₁ w)
      fun a ha => (h₁.holds w).mem_live ha
  have hin : F.Holds m₅ ⟨some n, tl', (ls₁' w).count + 1⟩ (n :: S₁ w) :=
    ⟨hdll', List.nodup_cons.2 ⟨hnS₁ w, (h₁.holds w).nodup⟩, by rw [(h₁.holds w).count, List.length_cons]⟩
  have h₂ := h₁.update (o := w) hin (fun a ha c hc => by
      rcases List.mem_cons.1 ha with rfl | ha
      · exact absurd hc (hnS₁ c)
      · exact h₁.disjoint hc ha)
    fun c hc a ha => hv₅ a (fun haw => hc (h₁.disjoint ha haw)) fun han => hnS₁ c (han ▸ ha)
  refine ⟨m₅, Function.update ls₁' w ⟨some n, tl', (ls₁' w).count + 1⟩, ?_, h₂, hk₂.trans hk₅, hd₅.trans hd₂⟩
  simp only [NodeField.nodeMove, hrun₁, hrun₂, hrun₃, hrun₄, hrun₅, hends, Option.bind_eq_bind, Option.bind_some]
  rw [← hls₁]
  exact congrArg (fun k => some (m₅, k)) (setEnds_counts ls o w hd tl (some n) tl')

/-! ## Reversing -/

theorem Holds.length_le {l : MowgliList} (h : F.Holds m l xs) : xs.length ≤ m.live.card := by
  rw [← List.toFinset_card_of_nodup h.nodup]
  exact Finset.card_le_card fun a ha => h.mem_live (List.mem_toFinset.1 ha)

/-- The way on from a cell that is listed, or from none. -/
theorem next?_spec {p hd tl q : Option Addr} (h : (F.links m).Seg p hd xs tl q) (hq : q = none) :
    ∃ tn, F.next? m hd = some tn := by
  cases xs with
  | nil =>
    obtain ⟨rfl, -⟩ := h
    exact ⟨none, by rw [hq]; rfl⟩
  | cons a xs =>
    obtain ⟨rfl, n, ha, -⟩ := h
    obtain ⟨x, hx, -, hn⟩ := exists_of_links ha
    exact ⟨n, by rw [next?, hx, Option.map_some, hn]⟩

/-- The loop turns the pointers of the cells that are left around. -/
theorem reverseLoop_spec {p hd tl tn : Option Addr} (fuel : ℕ) (h : (F.links m).Seg p hd xs tl none)
    (hnd : xs.Nodup) (htn : F.next? m hd = some tn) (hfuel : xs.length ≤ fuel) :
    ∃ m', F.reverseLoop fuel m hd tn = some m' ∧ F.Keeps m m' ∧ F.data m' = F.data m ∧
      (∀ a ∈ xs, F.links m' a = (F.links m a).map Prod.swap) ∧ ∀ a ∉ xs, F.links m' a = F.links m a := by
  induction xs generalizing m p hd tn fuel with
  | nil =>
    obtain ⟨rfl, -⟩ := h
    exact ⟨m, by cases fuel <;> rfl, Keeps.refl m, rfl, by simp, fun a _ => rfl⟩
  | cons a xs ih =>
    obtain ⟨rfl, n, ha, h⟩ := h
    obtain ⟨fuel, rfl⟩ : ∃ k, fuel = k + 1 := ⟨fuel - 1, by rw [List.length_cons] at hfuel; omega⟩
    obtain ⟨hax, hnd⟩ := List.nodup_cons.1 hnd
    obtain ⟨x, hx, hp, hn⟩ := exists_of_links ha
    obtain rfl : n = tn := by
      rw [next?, hx, Option.map_some, hn] at htn
      exact Option.some.inj htn
    have hlive : a ∈ m.live := mem_live.2 ⟨x, hx⟩
    obtain ⟨m₁, hm₁, hl₁, hd₁, hk₁⟩ := setNext_spec (F := F) hlive p
    obtain ⟨m₂, hm₂, hl₂, hd₂, hk₂⟩ := setPrev_spec (F := F) (hk₁.live ▸ hlive) n
    have ho : ∀ b ≠ a, F.links m₂ b = F.links m b := fun b hb => by
      rw [hl₂, Links.setFst_of_ne hb, hl₁, Links.setSnd_of_ne hb]
    have ha₂ : F.links m₂ a = some (n, p) := by
      rw [hl₂, Links.setFst_self, hl₁, Links.setSnd_self, ha]
      rfl
    have hrest : ∀ b ∈ xs, F.links m₂ b = F.links m b := fun b hb => ho b fun hba => hax (hba ▸ hb)
    have h₂ := h.congr hrest
    obtain ⟨tn', htn'⟩ := next?_spec h₂ rfl
    obtain ⟨m₃, hm₃, hk₃, hd₃, hin, hout⟩ := ih fuel h₂ hnd htn' (by
      rw [List.length_cons] at hfuel
      omega)
    refine ⟨m₃, ?_, hk₁.trans (hk₂.trans hk₃), hd₃.trans (hd₂.trans hd₁), fun b hb => ?_, fun b hb => ?_⟩
    · simp only [reverseLoop, hx, hn, hp, hm₁, hm₂, htn', Option.bind_eq_bind, Option.bind_some, hm₃]
    · rcases List.mem_cons.1 hb with rfl | hb
      · rw [hout b hax, ha₂, ha]
        rfl
      · rw [hin b hb, ho b fun hba => hax (hba ▸ hb)]
    · rw [List.mem_cons, not_or] at hb
      rw [hout b hb.2, ho b hb.1]

/-- **Reversing a list.** -/
theorem Holds.listReverse {l : MowgliList} (h : F.Holds m l xs) :
    ∃ m' l', F.listReverse m l = some (m', l') ∧ F.Holds m' l' xs.reverse ∧ F.Keeps m m' ∧
      F.data m' = F.data m ∧ ∀ a ∉ xs, F.links m' a = F.links m a := by
  obtain ⟨tn, htn⟩ := next?_spec h.dll rfl
  obtain ⟨m', hm', hk, hd, hin, hout⟩ := reverseLoop_spec m.live.card h.dll h.nodup htn h.length_le
  refine ⟨m', { l with head := l.tail, tail := l.head }, ?_,
    ⟨h.dll.reverse hin, List.nodup_reverse.2 h.nodup, ?_⟩, hk, hd, hout⟩
  · simp only [NodeField.listReverse, htn, hm', Option.bind_eq_bind, Option.bind_some]
  · rw [List.length_reverse, ← h.count]

end NodeField

end Mowgli
