import Mowgli.Container.List.Edit
/-!
# Queues, as `container/queue.c` has them

A queue is a chain of `mowgli_iterator_t`s, and the handle of a queue is a
pointer to any of them. The functions answer `none` where they would
dereference a null or dangling pointer or where there is no memory. The
cells come from a heap, zero-filled.
-/

namespace Mowgli

/-- `mowgli_iterator_t`. -/
structure MowgliIterator where
  prev : Option Addr
  next : Option Addr
  data : Option Addr

/-- An iterator is a node. -/
def MowgliIterator.nodeField : NodeField MowgliIterator :=
  ⟨fun x => ⟨x.next, x.prev, x.data⟩, fun _ n => ⟨n.prev, n.next, n.data⟩, fun _ _ => rfl⟩

/-- The cells in use, and the log. -/
structure QueueHeap where
  mem : Store MowgliIterator
  log : List LogLine

namespace Queue

open Store NodeField

/-- The iterators as nodes. -/
abbrev F : NodeField MowgliIterator := MowgliIterator.nodeField

/-- `mowgli_heap_alloc(mowgli_queue_heap)`. -/
def create (A : Allocator MowgliIterator) (m : Store MowgliIterator) : Option (Addr × Store MowgliIterator) := do
  let out ← A.pick m
  some (out, m.set out ⟨none, none, none⟩)

/-- `mowgli_queue_shift`. -/
def shift (A : Allocator MowgliIterator) (s : QueueHeap) (head data : Option Addr) :
    Option (Option Addr × QueueHeap) := do
  let (out, m) ← create A s.mem
  match head with
  | none => some (none, ⟨m, s.log ++ [.returnIfFail "head != NULL"]⟩)
  | some h => do
    let m ← F.setNext m out (some h)
    let m ← F.setData m out data
    let x ← m.get h
    let m ← F.setPrev m out x.prev
    let y ← m.get out
    let m ← F.setNext? m y.prev (some out)
    let m ← F.setPrev m h (some out)
    some (some out, { s with mem := m })

/-- `mowgli_queue_push`. -/
def push (A : Allocator MowgliIterator) (s : QueueHeap) (head data : Option Addr) :
    Option (Option Addr × QueueHeap) := do
  let (out, m) ← create A s.mem
  match head with
  | none => some (none, ⟨m, s.log ++ [.returnIfFail "head != NULL"]⟩)
  | some h => do
    let m ← F.setPrev m out (some h)
    let m ← F.setData m out data
    let m ← F.setNext m h (some out)
    some (some out, { s with mem := m })

/-- `mowgli_queue_remove`. -/
def remove (s : QueueHeap) (head : Option Addr) : Option (Option Addr × QueueHeap) :=
  match head with
  | none => some (none, { s with log := s.log ++ [.returnIfFail "head != NULL"] })
  | some h => do
    let x ← s.mem.get h
    let m ← F.setNext? s.mem x.prev x.next
    let x ← m.get h
    let m ← F.setPrev? m x.next x.prev
    let x ← m.get h
    let out := if x.prev ≠ none then x.prev else x.next
    some (out, { s with mem := m.free h })

/-- `for (tn = n; tn != NULL && tn->prev != NULL; tn = tn->prev)`. -/
def headLoop (m : Store MowgliIterator) : ℕ → Addr → Option Addr
  | 0, _ => none
  | fuel + 1, tn => do
    let x ← m.get tn
    match x.prev with
    | none => some tn
    | some p => headLoop m fuel p

/-- `for (tn = n; tn != NULL && tn->next != NULL; tn = tn->next)`. -/
def tailLoop (m : Store MowgliIterator) : ℕ → Addr → Option Addr
  | 0, _ => none
  | fuel + 1, tn => do
    let x ← m.get tn
    match x.next with
    | none => some tn
    | some q => tailLoop m fuel q

/-- `mowgli_queue_head`. -/
def head (s : QueueHeap) (n : Option Addr) : Option (Option Addr × QueueHeap) :=
  match n with
  | none => some (none, { s with log := s.log ++ [.returnIfFail "n != NULL"] })
  | some a => (headLoop s.mem s.mem.live.card a).map fun h => (some h, s)

/-- `mowgli_queue_tail`. -/
def tail (s : QueueHeap) (n : Option Addr) : Option (Option Addr × QueueHeap) :=
  match n with
  | none => some (none, { s with log := s.log ++ [.returnIfFail "n != NULL"] })
  | some a => (tailLoop s.mem s.mem.live.card a).map fun t => (some t, s)

/-- `mowgli_queue_pop_head`: what it returns, and `*n` after it. -/
def popHead (s : QueueHeap) (n : Option Addr) : Option (Option Addr × Option Addr × QueueHeap) :=
  match n with
  | none => some (none, none, { s with log := s.log ++ [.returnIfFail "*n != NULL"] })
  | some tn => do
    let x ← s.mem.get tn
    let (_, s) ← remove s (some tn)
    some (x.data, x.next, s)

/-- `mowgli_queue_pop_tail`: what it returns, and `*n` after it. -/
def popTail (s : QueueHeap) (n : Option Addr) : Option (Option Addr × Option Addr × QueueHeap) :=
  match n with
  | none => some (none, none, { s with log := s.log ++ [.returnIfFail "*n != NULL"] })
  | some tn => do
    let x ← s.mem.get tn
    let (_, s) ← remove s (some tn)
    some (x.data, x.prev, s)

/-! ## Chains -/

variable {m m' : Store MowgliIterator} {xs ys zs : List Addr} {a h n : Addr} {d : Option Addr}
variable {A : Allocator MowgliIterator} {s : QueueHeap} {ds : List (Option Addr)}

/-- The chain of the cells `xs`, with the data `ds`. -/
structure Chain (m : Store MowgliIterator) (xs : List Addr) (ds : List (Option Addr)) : Prop where
  dll : (F.links m).Dll xs.head? xs xs.getLast?
  nodup : xs.Nodup
  data : xs.map (F.data m) = ds.map some

theorem chain_nil (m : Store MowgliIterator) : Chain m [] [] := ⟨⟨rfl, rfl⟩, List.nodup_nil, rfl⟩

theorem Chain.length (h : Chain m xs ds) : xs.length = ds.length := by
  have := congrArg List.length h.data
  rwa [List.length_map, List.length_map] at this

theorem Chain.links (h : Chain m (ys ++ a :: zs) ds) : F.links m a = some (ys.getLast?, zs.head?) := by
  obtain ⟨p, q, hys, rfl, n, ha, hzs⟩ := Links.seg_append.1 h.dll
  rw [← hys.tl_eq, ← hzs.hd_eq]
  exact ha

theorem Chain.get (h : Chain m (ys ++ a :: zs) ds) :
    ∃ x, m.get a = some x ∧ x.prev = ys.getLast? ∧ x.next = zs.head? := by
  obtain ⟨x, hx, hp, hn⟩ := exists_of_links h.links
  exact ⟨x, hx, hp, hn⟩

theorem Chain.mem_live (h : Chain m xs ds) (ha : a ∈ xs) : a ∈ m.live := by
  obtain ⟨ys, zs, rfl⟩ := List.append_of_mem ha
  obtain ⟨x, hx, -⟩ := h.get
  exact Store.mem_live.2 ⟨x, hx⟩

theorem Chain.length_le (h : Chain m xs ds) : xs.length ≤ m.live.card := by
  rw [← List.toFinset_card_of_nodup h.nodup]
  exact Finset.card_le_card fun a ha => h.mem_live (List.mem_toFinset.1 ha)

theorem headLoop_spec (fuel : ℕ) (h : Chain m (ys ++ a :: zs) ds) (hfuel : ys.length < fuel) :
    headLoop m fuel a = (ys ++ a :: zs).head? := by
  induction ys using List.reverseRecOn generalizing a zs fuel with
  | nil =>
    obtain ⟨fuel, rfl⟩ : ∃ k, fuel = k + 1 := ⟨fuel - 1, by omega⟩
    obtain ⟨x, hx, hp, -⟩ := h.get
    rw [headLoop, hx, Option.bind_eq_bind, Option.bind_some, hp]
    rfl
  | append_singleton ys b ih =>
    rw [List.length_append, List.length_singleton] at hfuel
    obtain ⟨fuel, rfl⟩ : ∃ k, fuel = k + 1 := ⟨fuel - 1, by omega⟩
    obtain ⟨x, hx, hp, -⟩ := h.get
    rw [List.getLast?_append, List.getLast?_singleton, Option.some_or] at hp
    rw [List.append_assoc, List.singleton_append] at h ⊢
    rw [headLoop, hx, Option.bind_eq_bind, Option.bind_some, hp]
    exact ih fuel h (by omega)

theorem tailLoop_spec (fuel : ℕ) (h : Chain m (ys ++ a :: zs) ds) (hfuel : zs.length < fuel) :
    tailLoop m fuel a = (ys ++ a :: zs).getLast? := by
  induction zs generalizing a ys fuel with
  | nil =>
    obtain ⟨fuel, rfl⟩ : ∃ k, fuel = k + 1 := ⟨fuel - 1, by omega⟩
    obtain ⟨x, hx, -, hn⟩ := h.get
    rw [tailLoop, hx, Option.bind_eq_bind, Option.bind_some, hn, List.getLast?_append,
      List.getLast?_singleton, Option.some_or]
    rfl
  | cons b zs ih =>
    rw [List.length_cons] at hfuel
    obtain ⟨fuel, rfl⟩ : ∃ k, fuel = k + 1 := ⟨fuel - 1, by omega⟩
    obtain ⟨x, hx, -, hn⟩ := h.get
    have happ : ys ++ a :: b :: zs = (ys ++ [a]) ++ b :: zs := by simp
    rw [happ] at h ⊢
    rw [tailLoop, hx, Option.bind_eq_bind, Option.bind_some, hn, List.head?_cons]
    exact ih fuel h (by omega)

/-- **The ends** are found from any cell. -/
theorem Chain.ends (h : Chain s.mem xs ds) (ha : a ∈ xs) :
    head s (some a) = some (xs.head?, s) ∧ tail s (some a) = some (xs.getLast?, s) := by
  have hlen := h.length_le
  obtain ⟨ys, zs, rfl⟩ := List.append_of_mem ha
  rw [List.length_append, List.length_cons] at hlen
  constructor
  · rw [head, headLoop_spec _ h (by omega)]
    cases hx : (ys ++ a :: zs).head? with
    | none => rw [List.head?_eq_none_iff] at hx; simp at hx
    | some b => rfl
  · rw [tail, tailLoop_spec _ h (by omega)]
    cases hx : (ys ++ a :: zs).getLast? with
    | none => rw [List.getLast?_eq_none_iff] at hx; simp at hx
    | some b => rfl

theorem Chain.congr (h : Chain m xs ds) (hl : ∀ a ∈ xs, F.links m' a = F.links m a)
    (hd : ∀ a ∈ xs, F.data m' a = F.data m a) : Chain m' xs ds :=
  ⟨h.dll.congr hl, h.nodup, by rw [← h.data, List.map_congr_left hd]⟩

theorem chain_of_dll {hd tl : Option Addr} (h : (F.links m).Dll hd xs tl) (hnd : xs.Nodup)
    (hdata : xs.map (F.data m) = ds.map some) : Chain m xs ds :=
  ⟨by rw [← Links.Seg.hd_eq h, ← Links.Seg.tl_eq h]; exact h, hnd, hdata⟩

/-- A new cell is in no chain, and points nowhere. -/
theorem Chain.create {out : Addr} (h : Chain m xs ds) (hpick : A.pick m = some out) :
    create A m = some (out, m.set out ⟨none, none, none⟩) ∧ out ∉ xs ∧
      Chain (m.set out ⟨none, none, none⟩) xs ds ∧
      F.links (m.set out ⟨none, none, none⟩) out = some (none, none) ∧
      out ∈ (m.set out ⟨none, none, none⟩).live := by
  have hnone := A.fresh hpick
  have hout : out ∉ xs := fun ho => by
    obtain ⟨x, hx⟩ := Store.mem_live.1 (h.mem_live ho)
    rw [hnone] at hx
    cases hx
  have hget : ∀ a ∈ xs, (m.set out (⟨none, none, none⟩ : MowgliIterator)).get a = m.get a := fun a ha =>
    get_set_of_ne _ _ fun hao => hout (hao ▸ ha)
  refine ⟨by rw [Queue.create, hpick]; rfl, hout, h.congr (fun a ha => ?_) (fun a ha => ?_), ?_, ?_⟩
  · rw [NodeField.links, NodeField.links, hget a ha]
  · rw [NodeField.data, NodeField.data, hget a ha]
  · rw [NodeField.links, get_set_self]
    rfl
  · exact mem_live_set.2 (Or.inl rfl)

/-- **Pushing** after the last cell. -/
theorem Chain.push {t out : Addr} (h : Chain s.mem (ys ++ [t]) ds) (hpick : A.pick s.mem = some out)
    (d : Option Addr) :
    ∃ m', push A s (some t) d = some (some out, { s with mem := m' }) ∧
      Chain m' (ys ++ [t] ++ [out]) (ds ++ [d]) := by
  obtain ⟨hrun, hout, h₀, hlout, hlive⟩ := h.create hpick
  have ht : t ∈ ys ++ [t] := by simp
  have hot : out ≠ t := fun hot => hout (hot ▸ ht)
  obtain ⟨m₁, hm₁, hl₁, hd₁, hk₁⟩ := setPrev_spec (F := F) hlive (some t)
  obtain ⟨m₂, hm₂, hl₂, hd₂, hdo₂, hk₂⟩ := setData_spec (F := F) (hk₁.live ▸ hlive) d
  obtain ⟨m₃, hm₃, hl₃, hd₃, hk₃⟩ := setNext_spec (F := F) (hk₂.live ▸ hk₁.live ▸ h₀.mem_live ht) (some out)
  have hdll := h₀.dll
  rw [List.getLast?_append, List.getLast?_singleton, Option.some_or, ← List.append_nil (ys ++ [t])] at hdll
  obtain ⟨p, q, hys, ⟨hp, hq⟩, hins⟩ := hdll.insert (by simpa using h.nodup)
  subst hp hq
  have hne : ∀ b ∈ ys ++ [t], b ≠ out := fun b hb hbo => hout (hbo ▸ hb)
  refine ⟨m₃, ?_, chain_of_dll (@hins (F.links m₃) out ?_ fun b hb => ?_) ?_ ?_⟩
  · simp only [Queue.push, hrun, hm₁, hm₂, hm₃, Option.bind_eq_bind, Option.bind_some]
  · rw [hl₃, Links.setSnd_of_ne hot, hl₂, hl₁, Links.setFst_self, hlout]
    rfl
  · have hbo : b ≠ out := hne b (by simpa using hb)
    rw [hl₃, hl₂, hl₁, Links.setFst?_none, Links.setSnd?_some]
    by_cases hbt : b = t
    · rw [hbt, Links.setSnd_self, Links.setSnd_self, Links.setFst_of_ne hot.symm]
    · rw [Links.setSnd_of_ne hbt, Links.setSnd_of_ne hbt, Links.setFst_of_ne hbo]
  · rw [List.nodup_append]
    exact ⟨h.nodup, List.nodup_singleton out, by simpa using fun b hb => hne b (by simpa using hb)⟩
  · rw [show (ds ++ [d]).map some = ds.map some ++ [some d] by simp, List.map_append, ← h₀.data,
      List.map_singleton, hd₃, hd₂]
    congr 1
    exact List.map_congr_left fun b hb => by rw [hdo₂ b (hne b hb), hd₁]

/-- What the data of a chain is with that of a new cell among it. -/
theorem map_data_insert (hdata : (ys ++ zs).map (F.data m) = ds.map some) {out : Addr}
    (hout : F.data m' out = some d) (hold : ∀ b ∈ ys ++ zs, F.data m' b = F.data m b) :
    (ys ++ out :: zs).map (F.data m') = (ds.take ys.length ++ d :: ds.drop ys.length).map some := by
  rw [List.map_append] at hdata
  have htake := congrArg (List.take ys.length) hdata
  have hdrop := congrArg (List.drop ys.length) hdata
  rw [List.take_left' (by simp), ← List.map_take] at htake
  rw [List.drop_left' (by simp), ← List.map_drop] at hdrop
  rw [List.map_append, List.map_cons, List.map_append, List.map_cons, hout, ← htake, ← hdrop,
    List.map_congr_left fun b hb => hold b (List.mem_append_left _ hb),
    List.map_congr_left fun b hb => hold b (List.mem_append_right _ hb)]

/-- **Shifting** before a cell. -/
theorem Chain.shift {h₀ out : Addr} (h : Chain s.mem (ys ++ h₀ :: zs) ds) (hpick : A.pick s.mem = some out)
    (d : Option Addr) :
    ∃ m', shift A s (some h₀) d = some (some out, { s with mem := m' }) ∧
      Chain m' (ys ++ out :: h₀ :: zs) (ds.take ys.length ++ d :: ds.drop ys.length) := by
  obtain ⟨hrun, hout, hc, hlout, hlive⟩ := h.create hpick
  have hh : h₀ ∈ ys ++ h₀ :: zs := by simp
  have hoh : out ≠ h₀ := fun hoh => hout (hoh ▸ hh)
  have hne : ∀ b ∈ ys ++ h₀ :: zs, b ≠ out := fun b hb hbo => hout (hbo ▸ hb)
  obtain ⟨p, q, hys, hzs, hins⟩ := hc.dll.insert h.nodup
  obtain ⟨rfl, n, hlh, -⟩ := hzs
  have hpo : p ≠ some out := fun hp => hne out (List.mem_append_left _ (hys.tl_mem hp)) rfl
  obtain ⟨m₁, hm₁, hl₁, hd₁, hk₁⟩ := setNext_spec (F := F) hlive (some h₀)
  obtain ⟨m₂, hm₂, hl₂, hd₂, hdo₂, hk₂⟩ := setData_spec (F := F) (hk₁.live ▸ hlive) d
  have hlh₂ : F.links m₂ h₀ = some (p, n) := by rw [hl₂, hl₁, Links.setSnd_of_ne hoh.symm, hlh]
  obtain ⟨x, hx, hxp, -⟩ := exists_of_links hlh₂
  obtain ⟨m₃, hm₃, hl₃, hd₃, hk₃⟩ := setPrev_spec (F := F) (hk₂.live ▸ hk₁.live ▸ hlive) p
  have hlo : F.links m₃ out = some (p, some h₀) := by
    rw [hl₃, Links.setFst_self, hl₂, hl₁, Links.setSnd_self, hlout]
    rfl
  obtain ⟨y, hy, hyp, -⟩ := exists_of_links hlo
  obtain ⟨m₄, hm₄, hl₄, hd₄, hk₄⟩ := setNext?_spec (F := F) (m := m₃) (p := p)
    (fun b hb => hk₃.live ▸ hk₂.live ▸ hk₁.live ▸ hc.mem_live (List.mem_append_left _ (hys.tl_mem hb))) (some out)
  obtain ⟨m₅, hm₅, hl₅, hd₅, hk₅⟩ := setPrev_spec (F := F)
    (hk₄.live ▸ hk₃.live ▸ hk₂.live ▸ hk₁.live ▸ hc.mem_live hh) (some out)
  refine ⟨m₅, ?_, chain_of_dll (@hins (F.links m₅) out ?_ fun b hb => ?_) ?_ ?_⟩
  · replace hxp : x.prev = p := hxp
    replace hyp : y.prev = p := hyp
    simp only [Queue.shift, hrun, hm₁, hm₂, hx, hxp, hm₃, hy, hyp, hm₄, hm₅, Option.bind_eq_bind, Option.bind_some]
  · rw [hl₅, Links.setFst_of_ne hoh, hl₄, Links.setSnd?_of_ne hpo, hlo]
  · have hbo : b ≠ out := hne b hb
    have hbase : F.links m₃ b = F.links (s.mem.set out ⟨none, none, none⟩) b := by
      rw [hl₃, Links.setFst_of_ne hbo, hl₂, hl₁, Links.setSnd_of_ne hbo]
    rw [hl₅, hl₄, Links.setFst?_some]
    by_cases hbh : b = h₀
    · have hph : p ≠ some h₀ := fun hp => by
        have hmid := h.nodup
        rw [List.nodup_middle, List.nodup_cons, List.mem_append, not_or] at hmid
        exact hmid.1.1 (hys.tl_mem hp)
      rw [hbh, Links.setFst_self, Links.setFst_self, Links.setSnd?_of_ne hph, Links.setSnd?_of_ne hph, ← hbh, hbase]
    · rw [Links.setFst_of_ne hbh, Links.setFst_of_ne hbh]
      by_cases hpb : p = some b
      · rw [hpb, Links.setSnd?_some, Links.setSnd?_some, Links.setSnd_self, Links.setSnd_self, hbase]
      · rw [Links.setSnd?_of_ne hpb, Links.setSnd?_of_ne hpb, hbase]
  · rw [List.nodup_middle]
    exact List.nodup_cons.2 ⟨hout, h.nodup⟩
  · refine map_data_insert hc.data (by rw [hd₅, hd₄, hd₃, hd₂]) fun b hb => ?_
    rw [hd₅, hd₄, hd₃, hdo₂ b (hne b hb), hd₁]

/-- **Removing** a cell. -/
theorem Chain.remove (h : Chain s.mem (ys ++ a :: zs) ds) :
    ∃ m' n, remove s (some a) = some (n, { s with mem := m' }) ∧
      Chain m' (ys ++ zs) (ds.take ys.length ++ ds.drop (ys.length + 1)) := by
  obtain ⟨p, q, ha, hys, hzs, hrem⟩ := h.dll.remove h.nodup
  have hmid := h.nodup
  rw [List.nodup_middle, List.nodup_cons, List.mem_append, not_or] at hmid
  have hpa : p ≠ some a := fun hp => hmid.1.1 (hys.tl_mem hp)
  have hqa : q ≠ some a := fun hq => hmid.1.2 (hzs.hd_mem hq)
  obtain ⟨x, hx, rfl, rfl⟩ := exists_of_links ha
  obtain ⟨m₁, hm₁, hl₁, hd₁, hk₁⟩ := setNext?_spec (F := F) (m := s.mem)
    (fun b hb => h.mem_live (List.mem_append_left _ (hys.tl_mem hb))) (F.get x).next
  have ha₁ : F.links m₁ a = some ((F.get x).prev, (F.get x).next) := by
    rw [hl₁, Links.setSnd?_of_ne hpa, ha]
  obtain ⟨y, hy, hyp, hyq⟩ := exists_of_links ha₁
  obtain ⟨m₂, hm₂, hl₂, hd₂, hk₂⟩ := setPrev?_spec (F := F) (m := m₁)
    (fun b hb => hk₁.live ▸ h.mem_live (by simp [hzs.hd_mem hb])) (F.get x).prev
  have ha₂ : F.links m₂ a = some ((F.get x).prev, (F.get x).next) := by
    rw [hl₂, Links.setFst?_of_ne hqa, ha₁]
  obtain ⟨z, hz, -, -⟩ := exists_of_links ha₂
  have hfree : ∀ b ∈ ys ++ zs, (m₂.free a).get b = m₂.get b := fun b hb =>
    get_free_of_ne _ fun hba => by
      rw [hba, List.mem_append] at hb
      tauto
  refine ⟨m₂.free a, if z.prev ≠ none then z.prev else z.next, ?_, chain_of_dll (hrem fun b hb => ?_) hmid.2 ?_⟩
  · replace hyp : y.prev = x.prev := hyp
    replace hyq : y.next = x.next := hyq
    replace hm₁ : F.setNext? s.mem x.prev x.next = some m₁ := hm₁
    replace hm₂ : F.setPrev? m₁ x.next x.prev = some m₂ := hm₂
    simp only [Queue.remove, hx, hm₁, hy, hyp, hyq, hm₂, hz, Option.bind_eq_bind, Option.bind_some]
  · rw [NodeField.links, hfree b hb, ← hl₁, ← hl₂]
    rfl
  · have hdata := h.data
    have hlen := h.length
    rw [List.map_append, List.map_cons] at hdata
    have hsplit : (ys ++ zs).map (F.data (m₂.free a)) = ys.map (F.data s.mem) ++ zs.map (F.data s.mem) := by
      rw [← List.map_append]
      exact List.map_congr_left fun b hb => by rw [NodeField.data, hfree b hb, ← hd₁, ← hd₂]; rfl
    have htake := congrArg (List.take ys.length) hdata
    have hdrop := congrArg (List.drop (ys.length + 1)) hdata
    rw [List.take_left' (by simp), ← List.map_take] at htake
    rw [show ys.map (F.data s.mem) ++ F.data s.mem a :: zs.map (F.data s.mem) =
      (ys.map (F.data s.mem) ++ [F.data s.mem a]) ++ zs.map (F.data s.mem) by simp,
      List.drop_left' (by simp), ← List.map_drop] at hdrop
    rw [hsplit, htake, hdrop, List.map_append]

end Queue

end Mowgli
