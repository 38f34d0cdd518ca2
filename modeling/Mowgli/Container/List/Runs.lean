import Mowgli.Container.List.Nth
import Mowgli.Library.Run
/-!
# Lists are sequences

A run makes calls on any number of lists over one memory, and keeps next to
them the sequences they should be: of each list its nodes in order, each
with its `data`. The callers give a node to a list only when it is in none,
and name only nodes that are in the list they name. The theorem is that the
lists stay well formed and are those sequences.
-/

namespace Mowgli

namespace LinkedList

open Store

/-- A node, and the data it is there for. -/
abbrev Entry : Type := Addr × Option Addr

/-- What the lists should be, by their addresses. -/
abbrev Seqs : Type := Addr → List Entry

/-- The nodes of a sequence. -/
def nodes (es : List Entry) : List Addr := es.map Prod.fst

/-- The sequence with `e` before the node `b`, or at the end. -/
def putBefore (b : Addr) (e : Entry) : List Entry → List Entry
  | [] => [e]
  | y :: es => if y.1 = b then e :: y :: es else y :: putBefore b e es

/-- The sequence with `e` after the node `b`, or at the end. -/
def putAfter (b : Addr) (e : Entry) : List Entry → List Entry
  | [] => [e]
  | y :: es => if y.1 = b then y :: e :: es else y :: putAfter b e es

/-- The lists of a program. -/
structure ListState (α : Type) where
  mem : Store α
  lists : Addr → MowgliList

/-- A call on a list. -/
inductive ListOp
  | add (data : Option Addr) (n l : Addr)
  | addHead (data : Option Addr) (n l : Addr)
  | addBefore (data : Option Addr) (n l : Addr) (before : Option Addr)
  | addAfter (data : Option Addr) (n l : Addr) (before : Option Addr)
  | insert (data : Option Addr) (n l : Addr) (pos : ℕ)
  | delete (n l : Addr)
  | move (n oldlist newlist : Addr)
  | reverse (l : Addr)

variable {α : Type}

/-- One list and the memory are written back. -/
def ListState.put (s : ListState α) (l : Addr) (r : Store α × MowgliList) : ListState α :=
  ⟨r.1, Function.update s.lists l r.2⟩

namespace ListOp

/-- What a call does. -/
def exec (F : NodeField α) (s : ListState α) : ListOp → Option (ListState α)
  | add data n l => (F.nodeAdd s.mem data n (s.lists l)).map (s.put l)
  | addHead data n l => (F.nodeAddHead s.mem data n (s.lists l)).map (s.put l)
  | addBefore data n l before => (F.nodeAddBefore s.mem data n (s.lists l) before).map (s.put l)
  | addAfter data n l before => (F.nodeAddAfter s.mem data n (s.lists l) before).map (s.put l)
  | insert data n l pos => (F.nodeInsert s.mem data n (s.lists l) pos).map (s.put l)
  | delete n l => (F.nodeDelete s.mem n (s.lists l)).map (s.put l)
  | move n oldlist newlist => (F.nodeMove s.mem s.lists n oldlist newlist).map fun r => ⟨r.1, r.2⟩
  | reverse l => (F.listReverse s.mem (s.lists l)).map (s.put l)

/-- What it should do to the sequences. -/
def apply (S : Seqs) : ListOp → Seqs
  | add data n l => Function.update S l (S l ++ [(n, data)])
  | addHead data n l => Function.update S l ((n, data) :: S l)
  | addBefore data n l none => Function.update S l (S l ++ [(n, data)])
  | addBefore data n l (some b) => Function.update S l (putBefore b (n, data) (S l))
  | addAfter data n l none => Function.update S l (S l ++ [(n, data)])
  | addAfter data n l (some b) => Function.update S l (putAfter b (n, data) (S l))
  | insert data n l pos => Function.update S l ((S l).take pos ++ (n, data) :: (S l).drop pos)
  | delete n l => Function.update S l ((S l).filter fun e => e.1 ≠ n)
  | move n oldlist newlist =>
    let S₁ := Function.update S oldlist ((S oldlist).filter fun e => e.1 ≠ n)
    Function.update S₁ newlist (((S oldlist).filter fun e => e.1 = n) ++ S₁ newlist)
  | reverse l => Function.update S l (S l).reverse

/-- A cell that is there and in no list. -/
def Unlisted (s : ListState α × Seqs) (n : Addr) : Prop := n ∈ s.1.mem.live ∧ ∀ c, n ∉ nodes (s.2 c)

/-- Nodes are used only while they belong to the right list. -/
def Ok (s : ListState α × Seqs) : ListOp → Prop
  | add _ n _ => Unlisted s n
  | addHead _ n _ => Unlisted s n
  | addBefore _ n l before => Unlisted s n ∧ ∀ b, before = some b → b ∈ nodes (s.2 l)
  | addAfter _ n l before => Unlisted s n ∧ ∀ b, before = some b → b ∈ nodes (s.2 l)
  | insert _ n _ _ => Unlisted s n
  | delete n l => n ∈ nodes (s.2 l)
  | move n oldlist _ => n ∈ nodes (s.2 oldlist)
  | reverse _ => True

/-- A call, with the sequences next to the lists. -/
def run (F : NodeField α) (s : ListState α × Seqs) (op : ListOp) : Option (Unit × ListState α × Seqs) :=
  (op.exec F s.1).map fun s' => ((), s', op.apply s.2)

end ListOp

/-- The runs of lists from the state `s₀`. -/
abbrev ListRuns (F : NodeField α) (s₀ : ListState α × Seqs) :
    List (ListOp × Unit) → ListState α × Seqs → Prop :=
  Run (ListOp.run F) ListOp.Ok s₀

/-- **The lists are the sequences.** -/
structure Models (F : NodeField α) (s : ListState α) (S : Seqs) : Prop where
  holds : F.HoldsAll s.mem s.lists fun c => nodes (S c)
  data : ∀ c, ∀ e ∈ S c, F.data s.mem e.1 = some e.2

variable {F : NodeField α} {s s' : ListState α} {S S' : Seqs} {es es₁ es₂ : List Entry} {n b l : Addr}
variable {d : Option Addr}

@[simp] theorem nodes_nil : nodes [] = [] := rfl

@[simp] theorem nodes_cons (e : Entry) (es : List Entry) : nodes (e :: es) = e.1 :: nodes es := rfl

@[simp] theorem nodes_append (es₁ es₂ : List Entry) : nodes (es₁ ++ es₂) = nodes es₁ ++ nodes es₂ :=
  List.map_append

@[simp] theorem nodes_reverse (es : List Entry) : nodes es.reverse = (nodes es).reverse := List.map_reverse

theorem nodes_update (S : Seqs) (l : Addr) (es : List Entry) :
    (fun c => nodes (Function.update S l es c)) = Function.update (fun c => nodes (S c)) l (nodes es) := by
  funext c
  simp only [Function.update_apply]
  split_ifs <;> rfl

/-- Where a node is in a sequence. -/
theorem exists_split (hb : b ∈ nodes es) :
    ∃ es₁ d es₂, es = es₁ ++ (b, d) :: es₂ ∧ b ∉ nodes es₁ := by
  induction es with
  | nil => exact absurd hb (by simp)
  | cons y es ih =>
    by_cases hy : y.1 = b
    · subst hy
      exact ⟨[], y.2, es, rfl, by simp⟩
    · obtain ⟨es₁, d, es₂, rfl, hes₁⟩ := ih (by
        rcases List.mem_cons.1 hb with hb | hb
        · exact absurd hb.symm hy
        · exact hb)
      refine ⟨y :: es₁, d, es₂, rfl, ?_⟩
      rw [nodes_cons, List.mem_cons, not_or]
      exact ⟨Ne.symm hy, hes₁⟩

theorem putBefore_append (e : Entry) (hb : b ∉ nodes es₁) :
    putBefore b e (es₁ ++ (b, d) :: es₂) = es₁ ++ e :: (b, d) :: es₂ := by
  induction es₁ with
  | nil => simp [putBefore]
  | cons y es ih =>
    rw [nodes_cons, List.mem_cons, not_or] at hb
    rw [List.cons_append, putBefore, if_neg (Ne.symm hb.1), ih hb.2, List.cons_append]

theorem putAfter_append (e : Entry) (hb : b ∉ nodes es₁) :
    putAfter b e (es₁ ++ (b, d) :: es₂) = es₁ ++ (b, d) :: e :: es₂ := by
  induction es₁ with
  | nil => simp [putAfter]
  | cons y es ih =>
    rw [nodes_cons, List.mem_cons, not_or] at hb
    rw [List.cons_append, putAfter, if_neg (Ne.symm hb.1), ih hb.2, List.cons_append]

theorem filter_ne_of_not_mem (hn : n ∉ nodes es) : (es.filter fun e => e.1 ≠ n) = es := by
  rw [List.filter_eq_self]
  intro e he
  simp only [ne_eq, decide_not, Bool.not_eq_eq_eq_not, Bool.not_true, decide_eq_false_iff_not]
  rintro rfl
  exact hn (List.mem_map_of_mem he)

theorem filter_eq_of_not_mem (hn : n ∉ nodes es) : (es.filter fun e => e.1 = n) = [] := by
  rw [List.filter_eq_nil_iff]
  intro e he
  simp only [decide_eq_true_eq]
  rintro rfl
  exact hn (List.mem_map_of_mem he)

/-- A node has been added to one list. -/
theorem Models.inserts {m' : Store α} {l' : MowgliList} (h : Models F s S) (hn : ListOp.Unlisted (s, S) n)
    (hS : S l = es₁ ++ es₂)
    (hins : F.Inserts s.mem m' l' n d (nodes (S l)) (nodes es₁ ++ n :: nodes es₂)) :
    Models F (s.put l (m', l')) (Function.update S l (es₁ ++ (n, d) :: es₂)) := by
  have hne : ∀ {c a}, a ∈ nodes (S c) → a ≠ n := fun ha han => hn.2 _ (han ▸ ha)
  refine ⟨?_, fun c e he => ?_⟩
  · rw [nodes_update]
    have hholds : F.Holds m' l' (nodes (es₁ ++ (n, d) :: es₂)) := by
      rw [nodes_append, nodes_cons]
      exact hins.holds
    refine h.holds.update hholds (fun a ha c hc => ?_) fun c hc a ha => ?_
    · refine h.holds.disjoint hc ?_
      rw [hS, nodes_append]
      rw [nodes_append, nodes_cons, List.mem_append, List.mem_cons] at ha
      have := hne hc
      rw [List.mem_append]
      tauto
    · exact hins.frame a (fun hal => hc (h.holds.disjoint ha hal)) (hne ha)
  · have hold : ∀ c, ∀ e ∈ S c, F.data m' e.1 = some e.2 := fun c e he => by
      rw [hins.data_other _ (hne (List.mem_map_of_mem he)), h.data c e he]
    by_cases hc : c = l
    · rw [hc, Function.update_self, List.mem_append, List.mem_cons] at he
      rcases he with he | rfl | he
      · exact hold l e (by rw [hS]; exact List.mem_append_left _ he)
      · exact hins.data
      · exact hold l e (by rw [hS]; exact List.mem_append_right _ he)
    · rw [Function.update_of_ne hc] at he
      exact hold c e he

/-- One list has the entries it had, in another order or fewer of them. -/
theorem Models.shrinks {m' : Store α} {l' : MowgliList} (h : Models F s S)
    (hl : F.Holds m' l' (nodes es)) (hsub : ∀ e ∈ es, e ∈ S l) (hdata : F.data m' = F.data s.mem)
    (hv : ∀ a ∉ nodes (S l), F.links m' a = F.links s.mem a) :
    Models F (s.put l (m', l')) (Function.update S l es) := by
  refine ⟨?_, fun c e he => ?_⟩
  · rw [nodes_update]
    refine h.holds.update hl (fun a ha c hc => h.holds.disjoint hc ?_) fun c hc a ha => ?_
    · obtain ⟨e, he, rfl⟩ := List.mem_map.1 ha
      exact List.mem_map_of_mem (hsub e he)
    · exact hv a fun hal => hc (h.holds.disjoint ha hal)
  · show F.data m' e.1 = _
    rw [hdata]
    by_cases hc : c = l
    · rw [hc, Function.update_self] at he
      exact h.data l e (hsub e he)
    · rw [Function.update_of_ne hc] at he
      exact h.data c e he

/-- Adding a node at the end of a list. -/
theorem Models.add (h : Models F s S) (hn : ListOp.Unlisted (s, S) n) (d : Option Addr) (l : Addr) :
    ∃ r, F.nodeAdd s.mem d n (s.lists l) = some r ∧ r.1.live = s.mem.live ∧
      Models F (s.put l r) (Function.update S l (S l ++ [(n, d)])) := by
  obtain ⟨m', l', hrun, hins⟩ := (h.holds.holds l).nodeAdd_inserts d hn.1 (hn.2 l)
  exact ⟨(m', l'), hrun, hins.live, h.inserts hn (by simp) hins⟩

/-- **One call** is answered, and does to the sequences what it should. -/
theorem Models.step (h : Models F s S) {op : ListOp} (hok : op.Ok (s, S)) :
    ∃ s', op.exec F s = some s' ∧ Models F s' (op.apply S) ∧ s'.mem.live = s.mem.live := by
  have hl : ∀ l, F.Holds s.mem (s.lists l) (nodes (S l)) := h.holds.holds
  cases op with
  | add d n l =>
    obtain ⟨r, hrun, hlive, hr⟩ := h.add hok d l
    exact ⟨s.put l r, by rw [ListOp.exec, hrun]; rfl, hr, hlive⟩
  | addHead d n l =>
    obtain ⟨m', l', hrun, hins⟩ := (hl l).nodeAddHead_inserts d hok.1 (hok.2 l)
    exact ⟨_, by rw [ListOp.exec, hrun]; rfl, h.inserts hok (List.nil_append _).symm hins, hins.live⟩
  | addBefore d n l before =>
    obtain ⟨hn, hbefore⟩ : ListOp.Unlisted (s, S) n ∧ ∀ b, before = some b → b ∈ nodes (S l) := hok
    cases before with
    | none =>
      obtain ⟨r, hrun, hlive, hr⟩ := h.add hn d l
      exact ⟨s.put l r, by rw [ListOp.exec, NodeField.nodeAddBefore, hrun]; rfl, hr, hlive⟩
    | some b =>
      obtain ⟨es₁, db, es₂, hS, hb⟩ := exists_split (hbefore b rfl)
      have hlist := hl l
      rw [hS, nodes_append] at hlist
      obtain ⟨m', l', hrun, hins⟩ := hlist.nodeAddBefore d hn.1 (by simpa [hS] using hn.2 l)
      refine ⟨_, by rw [ListOp.exec]; erw [hrun]; rfl, ?_, hins.live⟩
      rw [ListOp.apply, hS, putBefore_append _ hb]
      exact h.inserts hn hS (by rw [hS, nodes_append]; exact hins)
  | addAfter d n l before =>
    obtain ⟨hn, hbefore⟩ : ListOp.Unlisted (s, S) n ∧ ∀ b, before = some b → b ∈ nodes (S l) := hok
    cases before with
    | none =>
      obtain ⟨r, hrun, hlive, hr⟩ := h.add hn d l
      exact ⟨s.put l r, by rw [ListOp.exec, NodeField.nodeAddAfter, hrun]; rfl, hr, hlive⟩
    | some b =>
      obtain ⟨es₁, db, es₂, hS, hb⟩ := exists_split (hbefore b rfl)
      have hS' : S l = (es₁ ++ [(b, db)]) ++ es₂ := by rw [hS, List.append_assoc]; rfl
      have hlist := hl l
      rw [hS', nodes_append] at hlist
      obtain ⟨m', l', hrun, hins⟩ := hlist.nodeAddAfter (by simp) d hn.1 (by simpa [hS] using hn.2 l)
      rw [nodes_append, nodes_cons, nodes_nil, List.getLast?_append, List.getLast?_singleton,
        Option.some_or] at hrun
      refine ⟨_, by rw [ListOp.exec, hrun]; rfl, ?_, hins.live⟩
      rw [ListOp.apply, hS, putAfter_append _ hb]
      have hmodels := h.inserts hn hS' (by rw [hS', nodes_append]; exact hins)
      rw [List.append_assoc] at hmodels
      exact hmodels
  | insert d n l pos =>
    obtain ⟨m', l', hrun, hins⟩ := (hl l).nodeInsert d hok.1 (hok.2 l) pos
    refine ⟨_, by rw [ListOp.exec, hrun]; rfl, h.inserts hok (List.take_append_drop pos (S l)).symm ?_,
      hins.live⟩
    rw [nodes, nodes, nodes, List.map_take, List.map_drop]
    exact hins
  | delete n l =>
    obtain ⟨es₁, dn, es₂, hS, hn⟩ := exists_split (show n ∈ nodes (S l) from hok)
    have hlist := hl l
    rw [hS, nodes_append, nodes_cons] at hlist
    have hmid := hlist.nodup
    rw [List.nodup_middle, List.nodup_cons, List.mem_append, not_or] at hmid
    obtain ⟨m', l', hrun, hlist', hk, hdata⟩ := hlist.nodeDelete
    refine ⟨_, by rw [ListOp.exec, hrun]; rfl, ?_, hk.live⟩
    have hfilter : ((S l).filter fun e => e.1 ≠ n) = es₁ ++ es₂ := by
      rw [hS, List.filter_append, List.filter_cons_of_neg (by simp), filter_ne_of_not_mem hmid.1.1,
        filter_ne_of_not_mem hmid.1.2]
    rw [ListOp.apply, hfilter]
    refine h.shrinks (by rw [nodes_append]; exact hlist') (fun e he => ?_) hdata fun a ha => ?_
    · rw [hS]
      rcases List.mem_append.1 he with he | he
      · exact List.mem_append_left _ he
      · exact List.mem_append_right _ (List.mem_cons_of_mem _ he)
    · refine hlist.nodeDelete_frame hrun fun hmem => ha ?_
      simp only [hS, nodes_append, nodes_cons, List.mem_append, List.mem_cons] at hmem ⊢
      tauto
  | move n o w =>
    obtain ⟨es₁, dn, es₂, hS, hn⟩ := exists_split (show n ∈ nodes (S o) from hok)
    have hSo : nodes (S o) = nodes es₁ ++ n :: nodes es₂ := by rw [hS, nodes_append, nodes_cons]
    obtain ⟨m', ls', hrun, hall, hk, hdata⟩ := h.holds.nodeMove hSo w
    have hmid := (hl o).nodup
    rw [hSo, List.nodup_middle, List.nodup_cons, List.mem_append, not_or] at hmid
    have hout : ((S o).filter fun e => e.1 ≠ n) = es₁ ++ es₂ := by
      rw [hS, List.filter_append, List.filter_cons_of_neg (by simp), filter_ne_of_not_mem hmid.1.1,
        filter_ne_of_not_mem hmid.1.2]
    have hin : ((S o).filter fun e => e.1 = n) = [(n, dn)] := by
      rw [hS, List.filter_append, List.filter_cons_of_pos (by simp), filter_eq_of_not_mem hmid.1.1,
        filter_eq_of_not_mem hmid.1.2]
      rfl
    refine ⟨⟨m', ls'⟩, by rw [ListOp.exec, hrun]; rfl, ⟨?_, fun c e he => ?_⟩, hk.live⟩
    · have hw := congrFun (nodes_update S o (es₁ ++ es₂)) w
      rw [ListOp.apply, hout, hin, nodes_update, nodes_append, hw, nodes_update, nodes_append]
      exact hall
    · have hin₁ : ∀ c, ∀ e ∈ Function.update S o (es₁ ++ es₂) c, e ∈ S c := by
        intro c e he
        by_cases hc : c = o
        · rw [hc, Function.update_self, List.mem_append] at he
          rw [hc, hS, List.mem_append, List.mem_cons]
          tauto
        · rwa [Function.update_of_ne hc] at he
      have hold : ∀ c, ∀ e ∈ S c, F.data m' e.1 = some e.2 := fun c e he => hdata ▸ h.data c e he
      rw [ListOp.apply, hout, hin] at he
      by_cases hc : c = w
      · rw [hc, Function.update_self] at he
        rcases List.mem_append.1 he with he | he
        · rw [List.mem_singleton.1 he]
          exact hold o _ (by rw [hS]; simp)
        · exact hold w e (hin₁ w e he)
      · rw [Function.update_of_ne hc] at he
        exact hold c e (hin₁ c e he)
  | reverse l =>
    obtain ⟨m', l', hrun, hlist', hk, hdata, hv⟩ := (hl l).listReverse
    refine ⟨_, by rw [ListOp.exec, hrun]; rfl, ?_, hk.live⟩
    exact h.shrinks (by rw [nodes_reverse]; exact hlist') (fun e he => List.mem_reverse.1 he) hdata hv

/-- **A well-formed list** of the cells `xs`: they are all different, the
ends are the first and the last, `count` is how many there are, and each
points at the one after it and back at the one before. -/
structure WellFormed (F : NodeField α) (m : Store α) (l : MowgliList) (xs : List Addr) : Prop where
  nodup : xs.Nodup
  head : l.head = xs.head?
  tail : l.tail = xs.getLast?
  count : l.count = xs.length
  links : ∀ ys a zs, xs = ys ++ a :: zs → ∃ x, m.get a = some x ∧ (F.get x).prev = ys.getLast? ∧
    (F.get x).next = zs.head?

theorem wellFormed_of_holds {m : Store α} {l : MowgliList} {xs : List Addr} (h : F.Holds m l xs) :
    WellFormed F m l xs := by
  refine ⟨h.nodup, h.head_eq, h.tail_eq, h.count, ?_⟩
  rintro ys a zs rfl
  obtain ⟨p, q, hys, rfl, n, ha, hzs⟩ := Links.seg_append.1 h.dll
  rw [← hys.tl_eq, ← hzs.hd_eq]
  exact NodeField.exists_of_links ha

theorem ListRuns.models {s₀ : ListState α} {S₀ : Seqs} (h₀ : Models F s₀ S₀) {tr : List (ListOp × Unit)}
    (h : ListRuns F (s₀, S₀) tr (s, S)) : Models F s S :=
  Run.invariant (I := fun s => Models F s.1 s.2) h₀ (fun {s op out s'} hs hok hrun => by
    obtain ⟨s₁, hexec, hs₁, -⟩ := hs.step hok
    rw [ListOp.run, hexec] at hrun
    obtain ⟨-, rfl⟩ := Prod.mk.inj (Option.some.inj hrun)
    exact hs₁) h

/-- **Lists are finite sequences**: in every run each list stays well
formed and is the sequence it should be, with the data of its nodes; the
position of a node and the node at a position are those in the sequence;
and the next call is answered. -/
theorem runs_sequences {s₀ : ListState α} {S₀ : Seqs} (h₀ : Models F s₀ S₀) {tr : List (ListOp × Unit)}
    (h : ListRuns F (s₀, S₀) tr (s, S)) :
    (∀ l, WellFormed F s.mem (s.lists l) (nodes (S l))) ∧
    (∀ l, ∀ e ∈ S l, F.data s.mem e.1 = some e.2) ∧
    (∀ l l' n, n ∈ nodes (S l) → n ∈ nodes (S l') → l = l') ∧
    (∀ l pos, F.nodeNth s.mem (s.lists l) pos = some (nodes (S l))[pos]?) ∧
    (∀ l pos n, F.nodeNth s.mem (s.lists l) pos = some (some n) ↔
      F.nodeIndex s.mem n (s.lists l) = some (pos : ℤ)) ∧
    (∀ l n, n ∉ nodes (S l) → F.nodeIndex s.mem n (s.lists l) = some (-1)) ∧
    ∀ op : ListOp, op.Ok (s, S) → ∃ s', op.run F (s, S) = some ((), s', op.apply S) := by
  have hm := h.models h₀
  have hl : ∀ l, F.Holds s.mem (s.lists l) (nodes (S l)) := hm.holds.holds
  refine ⟨fun l => wellFormed_of_holds (hl l), hm.data, fun l l' n hn hn' => hm.holds.disjoint hn hn',
    fun l pos => (hl l).nodeNth pos, fun l pos n => (hl l).nth_iff_index pos n, fun l n hn => ?_,
    fun op hok => ?_⟩
  · rw [(hl l).nodeIndex, if_neg hn]
  · obtain ⟨s', hexec, -⟩ := hm.step hok
    exact ⟨s', by rw [ListOp.run, hexec]; rfl⟩

/-- Nodes that are all there is to their cells. -/
def bareNode : NodeField MowgliNode := ⟨id, fun _ n => n, fun _ _ => rfl⟩

/-- Two nodes that are in no list. -/
def freshNodes : ListState MowgliNode :=
  ⟨(Store.empty.set 1 ⟨none, none, none⟩).set 2 ⟨none, none, none⟩, fun _ => .zero⟩

theorem freshNodes_models : Models bareNode freshNodes fun _ => [] :=
  ⟨⟨fun _ => NodeField.holds_zero _, by simp⟩, by simp⟩

/-- Both are added to one list, and then the first of them is moved to another. -/
theorem runs_sequences_moved : ∃ s : ListState MowgliNode, WellFormed bareNode s.mem (s.lists 5) [2] ∧
    WellFormed bareNode s.mem (s.lists 6) [1] ∧ bareNode.nodeNth s.mem (s.lists 6) 0 = some (some 1) ∧
    bareNode.nodeIndex s.mem 1 (s.lists 5) = some (-1) := by
  have h₁ : ListRuns bareNode (freshNodes, fun _ => []) ([] ++ [(.add (some 7) 1 5, ())]) _ :=
    Run.nil.snoc ⟨by simp [freshNodes, mem_live_set], by simp⟩ rfl
  have h₂ := h₁.snoc (a := .add (some 8) 2 5) (b := ()) (by exact ⟨by decide, fun l => by
    by_cases hl : l = 5 <;> simp [ListOp.apply, hl]⟩) rfl
  have h₃ := h₂.snoc (a := .move 1 5 6) (b := ()) (by exact List.mem_cons_self) rfl
  have hr := runs_sequences freshNodes_models h₃
  exact ⟨_, hr.1 5, hr.1 6, hr.2.2.2.1 6 0, hr.2.2.2.2.2.1 5 1 (by decide)⟩

end LinkedList

end Mowgli
