import Mathlib.Data.List.Induction
import Mathlib.Data.List.TakeWhile
/-!
# Cutting a stream into lines

A reader of lines gets a stream in pieces. It ends a line at a delimiter and
drops the delimiters that follow at once, but only those of the same piece:
at the start of a piece a delimiter ends a line again, which is then empty.
So what it delivers depends on where the stream was cut, and
`emit_eq_iff` says how: two cuttings of one stream give the same lines
exactly if in every run of delimiters they have equally many cuts.
-/

namespace Mowgli

/-- What a reader of lines knows: the line so far, and whether the last
thing it read was a delimiter. -/
structure LineState (α : Type) where
  cur : List α
  ended : Bool

namespace LineState

variable {α : Type} (d : α → Bool)

/-- Reading one thing. -/
def next (st : LineState α) (c : α) : LineState α := if d c then ⟨[], true⟩ else ⟨st.cur ++ [c], false⟩

/-- Reading some. -/
def after (st : LineState α) (s : List α) : LineState α := s.foldl (next d) st

/-- The line that is delivered where `c` is read, which is the first of its
piece if `cut`. -/
def deliver (st : LineState α) (c : α) (cut : Bool) : List (List α) :=
  if d c && !(st.ended && !cut) then [st.cur] else []

/-- The lines of a stream in which the first thing of each piece is marked. -/
def emit (st : LineState α) : List (α × Bool) → List (List α)
  | [] => []
  | (c, cut) :: s => st.deliver d c cut ++ (st.next d c).emit s

/-- A piece, but for its first thing. -/
def plain (s : List α) : List (α × Bool) := s.map fun c => (c, false)

/-- A piece. -/
def piece : List α → List (α × Bool)
  | [] => []
  | c :: s => (c, true) :: plain s

/-- A stream in pieces. -/
def pieces (ss : List (List α)) : List (α × Bool) := ss.flatMap piece

/-- The cuts between two delimiters. -/
def between (ended : Bool) : List (α × Bool) → ℕ
  | [] => 0
  | (c, cut) :: s => (if ended && d c && cut then 1 else 0) + between (d c) s

/-- Two cuttings of a stream have equally many cuts in each run of
delimiters: up to each place where there is no delimiter, or the end, equally
many of their cuts are between two delimiters. -/
def SameCuts (s₁ s₂ : List (α × Bool)) : Prop :=
  ∀ p, (∀ c, (s₁.map Prod.fst)[p]? = some c → d c = false) →
    between d false (s₁.take p) = between d false (s₂.take p)

/-- After a delimiter there is no line yet. -/
def WF (st : LineState α) : Prop := st.ended = true → st.cur = []

variable {d} {st : LineState α} {c : α} {s t ds : List α} {ms ms₁ ms₂ : List (α × Bool)}

@[simp] theorem map_fst_plain : (plain s).map Prod.fst = s := by
  simp [plain, Function.comp_def]

@[simp] theorem map_fst_piece : (piece s).map Prod.fst = s := by cases s <;> simp [piece]

theorem map_fst_pieces (ss : List (List α)) : (pieces ss).map Prod.fst = ss.flatten := by
  induction ss with
  | nil => rfl
  | cons s ss ih =>
    have hcons : pieces (s :: ss) = piece s ++ pieces ss := rfl
    rw [hcons, List.map_append, map_fst_piece, ih, List.flatten_cons]

theorem WF.next (st : LineState α) (c : α) : (st.next d c).WF := by
  unfold LineState.next WF
  split_ifs <;> simp

@[simp] theorem after_append : st.after d (s ++ t) = (st.after d s).after d t := List.foldl_append

theorem emit_append (h : ms₁.map Prod.fst = s) :
    st.emit d (ms₁ ++ ms₂) = st.emit d ms₁ ++ (st.after d s).emit d ms₂ := by
  induction ms₁ generalizing st s with
  | nil =>
    subst h
    rfl
  | cons m ms₁ ih =>
    subst h
    rw [List.cons_append, emit, emit, ih rfl, List.append_assoc]
    rfl

/-! ## One piece -/

/-- Whether a delimiter went before does not matter to a piece. -/
theorem emit_piece : st.emit d (piece s) = emit d ⟨st.cur, false⟩ (plain s) := by
  cases s with
  | nil => rfl
  | cons c s =>
    have hnext : LineState.next d ⟨st.cur, false⟩ c = st.next d c := rfl
    have hplain : plain (c :: s) = (c, false) :: plain s := rfl
    rw [piece, hplain, emit, emit, hnext, deliver, deliver]
    cases st.ended <;> rfl

theorem after_cur (st : LineState α) (s : List α) : (st.after d s).cur = (after d ⟨st.cur, false⟩ s).cur := by
  cases s with
  | nil => rfl
  | cons c s => rfl

/-- Delimiters after a delimiter are dropped. -/
theorem emit_delims (h : ∀ c ∈ ds, d c = true) : emit d ⟨[], true⟩ (plain ds ++ ms) = emit d ⟨[], true⟩ ms := by
  induction ds with
  | nil => rfl
  | cons c ds ih =>
    have hc : d c = true := h c List.mem_cons_self
    have hplain : plain (c :: ds) = (c, false) :: plain ds := rfl
    rw [hplain, List.cons_append, emit, deliver, next, hc, if_pos rfl]
    exact ih fun c' hc' => h c' (List.mem_cons_of_mem _ hc')

theorem after_delims (h : ∀ c ∈ ds, d c = true) : after d ⟨[], true⟩ ds = ⟨[], true⟩ := by
  induction ds with
  | nil => rfl
  | cons c ds ih =>
    have hc : d c = true := h c List.mem_cons_self
    have hnext : next d ⟨[], true⟩ c = ⟨[], true⟩ := by rw [next, hc, if_pos rfl]
    show after d (next d ⟨[], true⟩ c) ds = _
    rw [hnext]
    exact ih fun c' hc' => h c' (List.mem_cons_of_mem _ hc')

theorem emit_of_head (h : ∀ c, s.head? = some c → d c = false) :
    emit d ⟨[], true⟩ (plain s) = emit d ⟨[], false⟩ (plain s) := by
  cases s with
  | nil => rfl
  | cons c s =>
    have hplain : plain (c :: s) = (c, false) :: plain s := rfl
    have hc : d c = false := h c rfl
    rw [hplain, emit, emit, deliver, deliver, hc]
    rfl

/-- What is no delimiter only makes the line longer. -/
theorem after_line {cur : List α} (h : ∀ c ∈ s, d c = false) : after d ⟨cur, false⟩ s = ⟨cur ++ s, false⟩ := by
  induction s generalizing cur with
  | nil => rw [List.append_nil]; rfl
  | cons c s ih =>
    have hnext : next d ⟨cur, false⟩ c = ⟨cur ++ [c], false⟩ := by
      rw [next, h c List.mem_cons_self]
      rfl
    show after d (next d ⟨cur, false⟩ c) s = _
    rw [hnext, ih fun c' hc' => h c' (List.mem_cons_of_mem _ hc'), List.append_assoc]
    rfl

theorem emit_line {cur : List α} (ms : List (α × Bool)) (h : ∀ c ∈ s, d c = false) :
    emit d ⟨cur, false⟩ (plain s ++ ms) = emit d ⟨cur ++ s, false⟩ ms := by
  have hemit : ∀ cur : List α, emit d ⟨cur, false⟩ (plain s) = [] := by
    induction s with
    | nil => exact fun _ => rfl
    | cons c s ih =>
      intro cur
      have hc : d c = false := h c List.mem_cons_self
      have hplain : plain (c :: s) = (c, false) :: plain s := rfl
      rw [hplain, emit, deliver, next, hc]
      exact ih (fun c' hc' => h c' (List.mem_cons_of_mem _ hc')) _
  rw [emit_append map_fst_plain, hemit, List.nil_append, after_line h]

theorem no_delim_of_emit {cur : List α} (h : emit d ⟨cur, false⟩ (plain s) = []) : ∀ c ∈ s, d c = false := by
  induction s generalizing cur with
  | nil => simp
  | cons c s ih =>
    have hplain : plain (c :: s) = (c, false) :: plain s := rfl
    rw [hplain, emit, deliver, next] at h
    cases hc : d c with
    | true => simp [hc] at h
    | false =>
      rw [hc] at h
      intro c' hc'
      rcases List.mem_cons.1 hc' with rfl | hc'
      · exact hc
      · exact ih h c' hc'

/-- The line so far is what was read last, and has no delimiter. -/
theorem after_cur_suffix : (after d ⟨[], false⟩ s).cur <:+ s ∧ ∀ c ∈ (after d ⟨[], false⟩ s).cur, d c = false := by
  induction s using List.reverseRecOn with
  | nil => exact ⟨List.suffix_rfl, by simp [after]⟩
  | append_singleton s c ih =>
    have hlast : after d ⟨[], false⟩ (s ++ [c]) = next d (after d ⟨[], false⟩ s) c := by rw [after_append]; rfl
    rw [hlast, next]
    cases hc : d c with
    | true => exact ⟨List.nil_suffix, by simp⟩
    | false =>
      obtain ⟨⟨pre, hpre⟩, hmem⟩ := ih
      refine ⟨⟨pre, ?_⟩, ?_⟩
      · show pre ++ ((after d ⟨[], false⟩ s).cur ++ [c]) = s ++ [c]
        rw [← List.append_assoc, hpre]
      · intro x hx
        rcases List.mem_append.1 hx with hx | hx
        · exact hmem x hx
        · rw [List.mem_singleton.1 hx, hc]

/-! ## Which lines hold what -/

variable {d' : α → Bool}

/-- Of the delimiters only those that are read matter. -/
theorem emit_congr (h : ∀ c ∈ s, d c = d' c) : st.emit d (plain s) = st.emit d' (plain s) := by
  induction s generalizing st with
  | nil => rfl
  | cons c s ih =>
    have hplain : plain (c :: s) = (c, false) :: plain s := rfl
    rw [hplain, emit, emit, deliver, deliver, next, next, h c List.mem_cons_self,
      ih fun c' hc' => h c' (List.mem_cons_of_mem _ hc')]

theorem after_congr (h : ∀ c ∈ s, d c = d' c) : st.after d s = st.after d' s := by
  induction s generalizing st with
  | nil => rfl
  | cons c s ih =>
    have hnext : st.next d c = st.next d' c := by rw [next, next, h c List.mem_cons_self]
    show (st.next d c).after d s = (st.next d' c).after d' s
    rw [hnext, ih fun c' hc' => h c' (List.mem_cons_of_mem _ hc')]

/-- With more delimiters the same is left over, if none of them is in it. -/
theorem after_of_more (hle : ∀ c, d c = true → d' c = true) (h : ∀ c ∈ (after d ⟨[], false⟩ s).cur, d' c = false) :
    (after d' ⟨[], false⟩ s).cur = (after d ⟨[], false⟩ s).cur := by
  induction s using List.reverseRecOn with
  | nil => rfl
  | append_singleton s c ih =>
    have hlast : ∀ d : α → Bool, after d ⟨[], false⟩ (s ++ [c]) = next d (after d ⟨[], false⟩ s) c :=
      fun d => after_append
    rw [hlast, next] at h
    rw [hlast, hlast, next, next]
    cases hc : d c with
    | true => rw [hle c hc, if_pos rfl, if_pos rfl]
    | false =>
      rw [hc] at h
      have hc' : d' c = false := h c (List.mem_append_right _ (List.mem_singleton_self c))
      rw [hc', ih fun x hx => h x (List.mem_append_left _ hx)]

/-- What is no delimiter is in a line, or left over. -/
theorem mem_emit_or_cur (hwf : st.WF) (hc : c ∈ st.cur ∨ c ∈ s) (hd : d c = false) :
    (∃ line ∈ st.emit d (plain s), c ∈ line) ∨ c ∈ (st.after d s).cur := by
  induction s generalizing st with
  | nil => exact .inr (hc.resolve_right List.not_mem_nil)
  | cons x s ih =>
    have hplain : plain (x :: s) = (x, false) :: plain s := rfl
    rw [hplain, emit]
    have hnext : c ∈ (st.next d x).cur ∨ c ∈ s → (∃ line ∈ (st.next d x).emit d (plain s), c ∈ line) ∨
        c ∈ ((st.next d x).after d s).cur := ih (WF.next st x)
    have hlater : c ∈ (st.next d x).cur ∨ c ∈ s → (∃ line ∈ st.deliver d x false ++ (st.next d x).emit d (plain s), c ∈ line) ∨
        c ∈ ((st.next d x).after d s).cur := by
      intro h
      rcases hnext h with ⟨line, hline, hmem⟩ | h
      · exact .inl ⟨line, List.mem_append_right _ hline, hmem⟩
      · exact .inr h
    rcases hc with hcur | hmem
    · cases hx : d x with
      | true =>
        have hended : st.ended = false := by
          by_contra hne
          rw [hwf (Bool.not_eq_false _ ▸ hne)] at hcur
          cases hcur
        refine .inl ⟨st.cur, List.mem_append_left _ ?_, hcur⟩
        rw [deliver, hx, hended]
        exact List.mem_singleton_self _
      | false =>
        refine hlater (.inl ?_)
        rw [next, hx]
        exact List.mem_append_left _ hcur
    · rcases List.mem_cons.1 hmem with rfl | hmem
      · refine hlater (.inl ?_)
        rw [next, hd]
        exact List.mem_append_right _ (List.mem_singleton_self c)
      · exact hlater (.inr hmem)

/-- The lines have no delimiter. -/
theorem emit_no_delim (h : ∀ c ∈ st.cur, d c = false) : ∀ line ∈ st.emit d (plain s), ∀ c ∈ line, d c = false := by
  induction s generalizing st with
  | nil => exact nofun
  | cons x s ih =>
    have hplain : plain (x :: s) = (x, false) :: plain s := rfl
    rw [hplain, emit]
    intro line hline
    rcases List.mem_append.1 hline with hline | hline
    · rw [deliver] at hline
      split_ifs at hline with hx
      · rw [List.mem_singleton.1 hline]
        exact h
      · cases hline
    · refine ih (fun c hc => ?_) line hline
      rw [next] at hc
      split_ifs at hc with hx
      · cases hc
      · rcases List.mem_append.1 hc with hc | hc
        · exact h c hc
        · rw [List.mem_singleton.1 hc]
          exact Bool.eq_false_iff.2 hx

/-! ## Two cuttings -/

/-- The line that was begun is not empty, whatever follows. -/
theorem takeWhile_emit {cur : List α} (h : cur ≠ []) : (emit d ⟨cur, false⟩ ms).takeWhile List.isEmpty = [] := by
  induction ms generalizing cur with
  | nil => rfl
  | cons m ms ih =>
    obtain ⟨c, cut⟩ := m
    rw [emit, deliver, next]
    cases hc : d c with
    | true => simpa using h
    | false => exact ih (by simp)

/-- The empty lines at the front are as many as were put there. -/
theorem replicate_inj {a b : ℕ} {xs ys : List (List α)} (hx : xs.takeWhile List.isEmpty = [])
    (hy : ys.takeWhile List.isEmpty = []) (h : List.replicate a [] ++ xs = List.replicate b [] ++ ys) : a = b := by
  have key : ∀ (n : ℕ) (zs : List (List α)), zs.takeWhile List.isEmpty = [] →
      ((List.replicate n [] ++ zs).takeWhile List.isEmpty).length = n := by
    intro n zs hz
    rw [List.takeWhile_append_of_pos (by simp +contextual), hz, List.append_nil, List.length_replicate]
  rw [← key a xs hx, h, key b ys hy]

/-- What two cuttings emit after `a` and `b` empty lines. The number of empty
lines may differ only in a run of delimiters. -/
theorem emit_eq_iff_aux (st : LineState α) (a b : ℕ) (hwf : st.WF) (hab : st.ended = false → a = b)
    (h : ms₁.map Prod.fst = ms₂.map Prod.fst) :
    List.replicate a [] ++ st.emit d ms₁ = List.replicate b [] ++ st.emit d ms₂ ↔
      ∀ p, (∀ c, (ms₁.map Prod.fst)[p]? = some c → d c = false) →
        a + between d st.ended (ms₁.take p) = b + between d st.ended (ms₂.take p) := by
  induction ms₁ generalizing st ms₂ a b with
  | nil =>
    obtain rfl : ms₂ = [] := by simpa using h.symm
    simp only [emit, List.append_nil, List.replicate_inj, List.take_nil, between]
    simp
  | cons m₁ ms₁ ih =>
    obtain ⟨c, k₁⟩ := m₁
    cases ms₂ with
    | nil => simp at h
    | cons m₂ ms₂ =>
      obtain ⟨c', k₂⟩ := m₂
      obtain ⟨rfl, hrest⟩ : c = c' ∧ ms₁.map Prod.fst = ms₂.map Prod.fst := by simpa using h
      -- a place in the stream is its start, or a place in the rest of it
      have hplace : ∀ P : ℕ → Prop, (∀ p, (∀ x, (c :: ms₁.map Prod.fst)[p]? = some x → d x = false) → P p) ↔
          (d c = false → P 0) ∧ ∀ p, (∀ x, (ms₁.map Prod.fst)[p]? = some x → d x = false) → P (p + 1) := by
        intro P
        constructor
        · intro hP
          exact ⟨fun hc => hP 0 (by simpa using hc), fun p hp => hP (p + 1) (by simpa using hp)⟩
        · rintro ⟨h₀, hsucc⟩ p hp
          cases p with
          | zero => exact h₀ (by simpa using hp)
          | succ p => exact hsucc p (by simpa using hp)
      rw [List.map_cons, hplace]
      simp only [List.take_zero, List.take_succ_cons, between, emit]
      cases hc : d c with
      | true =>
        have hnext : st.next d c = ⟨[], true⟩ := by rw [next, hc, if_pos rfl]
        rw [hnext]
        cases he : st.ended with
        | true =>
          have hdeliver : ∀ (n : ℕ) (k : Bool), List.replicate n [] ++ (st.deliver d c k ++ ([] : List (List α))) =
              List.replicate (n + if k then 1 else 0) [] := by
            intro n k
            cases k
            · simp [deliver, hc, he]
            · simp [deliver, hc, he, hwf he, List.replicate_succ']
          have hside : ∀ (n : ℕ) (k : Bool) (X : List (List α)),
              List.replicate n [] ++ (st.deliver d c k ++ X) = List.replicate (n + if k then 1 else 0) [] ++ X := by
            intro n k X
            rw [← hdeliver n k, List.append_nil, List.append_assoc]
          rw [hside, hside, ih ⟨[], true⟩ _ _ (fun _ => rfl) (by simp) hrest]
          simp only [Bool.and_true, Bool.true_and, Nat.add_assoc]
          exact ⟨fun H => ⟨nofun, H⟩, fun H => H.2⟩
        | false =>
          obtain rfl := hab he
          have hdeliver : ∀ k : Bool, st.deliver d c k = [st.cur] := by
            intro k
            simp [deliver, hc, he]
          have hih := ih ⟨[], true⟩ 0 0 (fun _ => rfl) (by simp) hrest
          simp only [List.replicate_zero, List.nil_append, Nat.zero_add] at hih
          rw [hdeliver, hdeliver, List.append_cancel_left_eq, List.append_cancel_left_eq, hih]
          simp only [Bool.false_and, Bool.false_eq_true, if_false, Nat.zero_add, Nat.add_left_cancel_iff]
          exact ⟨fun H => ⟨nofun, H⟩, fun H => H.2⟩
      | false =>
        have hnext : st.next d c = ⟨st.cur ++ [c], false⟩ := by
          rw [next, hc]
          rfl
        have hdeliver : ∀ k : Bool, st.deliver d c k = [] := by
          intro k
          simp [deliver, hc]
        have hfirst : ∀ ms : List (α × Bool), (emit d ⟨st.cur ++ [c], false⟩ ms).takeWhile List.isEmpty = [] :=
          fun ms => takeWhile_emit (by simp)
        rw [hnext, hdeliver, hdeliver, List.nil_append, List.nil_append]
        simp only [Bool.and_false, Bool.false_and, Bool.false_eq_true, if_false, Nat.zero_add, Nat.add_zero, forall_const]
        constructor
        · intro heq
          obtain rfl := replicate_inj (hfirst ms₁) (hfirst ms₂) heq
          exact ⟨rfl, (ih ⟨st.cur ++ [c], false⟩ a a (by simp [WF]) (fun _ => rfl) hrest).1 heq⟩
        · rintro ⟨rfl, hplaces⟩
          exact (ih ⟨st.cur ++ [c], false⟩ a a (by simp [WF]) (fun _ => rfl) hrest).2 hplaces

/-- **Two cuttings** of a stream give the same lines exactly if in every run
of delimiters they have equally many cuts. -/
theorem emit_eq_iff (h : ms₁.map Prod.fst = ms₂.map Prod.fst) :
    emit d ⟨[], false⟩ ms₁ = emit d ⟨[], false⟩ ms₂ ↔ SameCuts d ms₁ ms₂ := by
  have haux := emit_eq_iff_aux (d := d) ⟨[], false⟩ 0 0 (fun _ => rfl) (fun _ => rfl) h
  simp only [List.replicate_zero, List.nil_append, Nat.zero_add] at haux
  exact haux

/-! ## Lines that are not empty -/

variable {e cur : List α}

/-- The lines among some that are not empty. -/
def filled (lines : List (List α)) : List (List α) := lines.filter fun line => !line.isEmpty

/-- The lines of a stream that are not empty. -/
def fullLines (d : α → Bool) : List α → List α → List (List α)
  | _, [] => []
  | cur, c :: s => if d c then filled [cur] ++ fullLines d [] s else fullLines d (cur ++ [c]) s

theorem filled_append (xs ys : List (List α)) : filled (xs ++ ys) = filled xs ++ filled ys := List.filter_append ..

theorem filled_nil : filled [([] : List α)] = [] := rfl

theorem filled_singleton (h : cur ≠ []) : filled [cur] = [cur] := by
  rw [filled, List.filter_cons_of_pos (by simpa using h), List.filter_nil]

/-- **Where the stream was cut** matters to empty lines only. -/
theorem filled_emit (h : st.WF) (ms : List (α × Bool)) : filled (st.emit d ms) = fullLines d st.cur (ms.map Prod.fst) := by
  induction ms generalizing st with
  | nil => rfl
  | cons m ms ih =>
    obtain ⟨c, cut⟩ := m
    rw [emit, filled_append, ih (WF.next st c), List.map_cons, fullLines, deliver, next]
    cases hc : d c with
    | false => simp [filled]
    | true =>
      cases hended : st.ended with
      | false => simp
      | true => cases cut <;> simp [h hended, filled]

theorem fullLines_line (h : ∀ c ∈ s, d c = false) : fullLines d cur (s ++ t) = fullLines d (cur ++ s) t := by
  induction s generalizing cur with
  | nil => rw [List.nil_append, List.append_nil]
  | cons c s ih =>
    rw [List.cons_append, fullLines, h c List.mem_cons_self, if_neg nofun,
      ih fun c' hc' => h c' (List.mem_cons_of_mem _ hc'), List.append_assoc, List.singleton_append]

theorem fullLines_delims (h : ∀ c ∈ e, d c = true) : fullLines d [] (e ++ t) = fullLines d [] t := by
  induction e with
  | nil => rfl
  | cons c e ih =>
    rw [List.cons_append, fullLines, h c List.mem_cons_self, if_pos rfl, filled_nil, List.nil_append]
    exact ih fun c' hc' => h c' (List.mem_cons_of_mem _ hc')

/-- A line with its end. -/
theorem fullLines_end (hne : cur ≠ []) (he : e ≠ []) (h : ∀ c ∈ e, d c = true) :
    fullLines d cur (e ++ t) = cur :: fullLines d [] t := by
  obtain ⟨c, e, rfl⟩ := List.exists_cons_of_ne_nil he
  rw [List.cons_append, fullLines, h c List.mem_cons_self, if_pos rfl, filled_singleton hne, List.singleton_append,
    fullLines_delims fun c' hc' => h c' (List.mem_cons_of_mem _ hc')]

theorem fullLines_append (b : Bool) : fullLines d cur (s ++ t) =
    fullLines d cur s ++ fullLines d (after d ⟨cur, b⟩ s).cur t := by
  induction s generalizing cur b with
  | nil => rfl
  | cons c s ih =>
    have hcons : after d ⟨cur, b⟩ (c :: s) = after d (next d ⟨cur, b⟩ c) s := rfl
    rw [List.cons_append, fullLines, fullLines, hcons, next]
    split_ifs
    · rw [ih true, List.append_assoc]
    · exact ih false

/-- Lines that are not empty, each with the end `e`. -/
def joined (e : List α) (lines : List (List α)) : List α := lines.flatMap (· ++ e)

/-- A line can be sent: it is not empty, and has no delimiter. -/
def IsLine (d : α → Bool) (l : List α) : Prop := l ≠ [] ∧ ∀ c ∈ l, d c = false

instance [DecidableEq α] : DecidablePred (IsLine d) := fun _ => inferInstanceAs (Decidable (_ ∧ _))

theorem fullLines_joined (he : e ≠ []) (h : ∀ c ∈ e, d c = true) {lines : List (List α)} (hl : ∀ l ∈ lines, IsLine d l) :
    fullLines d [] (joined e lines) = lines := by
  induction lines with
  | nil => rfl
  | cons l lines ih =>
    obtain ⟨hne, hline⟩ := hl l List.mem_cons_self
    have hcons : joined e (l :: lines) = l ++ (e ++ joined e lines) := List.append_assoc ..
    rw [hcons, fullLines_line hline, List.nil_append, fullLines_end hne he h,
      ih fun l' hl' => hl l' (List.mem_cons_of_mem _ hl')]

/-- Delimiters end a line. -/
theorem after_ends (he : e ≠ []) (h : ∀ c ∈ e, d c = true) : after d ⟨cur, false⟩ e = ⟨[], true⟩ := by
  obtain ⟨c, e, rfl⟩ := List.exists_cons_of_ne_nil he
  have hnext : after d ⟨cur, false⟩ (c :: e) = after d ⟨[], true⟩ e := by
    show after d (next d _ c) e = _
    rw [next, if_pos (h c List.mem_cons_self)]
  rw [hnext, after_delims fun c' hc' => h c' (List.mem_cons_of_mem _ hc')]

/-- **The line so far** is the front of one of the lines. -/
theorem after_joined (he : e ≠ []) (h : ∀ c ∈ e, d c = true) {lines : List (List α)} (hl : ∀ l ∈ lines, IsLine d l)
    (ht : t <+: joined e lines) (b : Bool) : (after d ⟨[], b⟩ t).cur = [] ∨ ∃ l ∈ lines, (after d ⟨[], b⟩ t).cur <+: l := by
  rw [after_cur]
  induction lines generalizing t with
  | nil =>
    rw [List.prefix_nil.1 ht]
    exact .inl rfl
  | cons l lines ih =>
    obtain ⟨-, hline⟩ := hl l List.mem_cons_self
    have hcons : joined e (l :: lines) = l ++ (e ++ joined e lines) := List.append_assoc ..
    rw [hcons] at ht
    rcases List.prefix_or_prefix_of_prefix ht (List.prefix_append ..) with hle | ⟨t', rfl⟩
    · rw [after_line fun c hc => hline c (hle.subset hc), List.nil_append]
      exact .inr ⟨l, List.mem_cons_self, hle⟩
    rw [List.prefix_append_right_inj] at ht
    rw [after_append, after_line hline, List.nil_append]
    rcases List.prefix_or_prefix_of_prefix ht (List.prefix_append ..) with hle | ⟨t'', rfl⟩
    · by_cases ht' : t' = []
      · rw [ht']
        exact .inr ⟨l, List.mem_cons_self, List.prefix_rfl⟩
      · rw [after_ends ht' fun c hc => h c (hle.subset hc)]
        exact .inl rfl
    · rw [List.prefix_append_right_inj] at ht
      rw [after_append, after_ends he h, after_cur]
      exact (ih (fun l' hl' => hl l' (List.mem_cons_of_mem _ hl')) ht).imp_right fun ⟨l', hl', hle⟩ =>
        ⟨l', List.mem_cons_of_mem _ hl', hle⟩
end LineState

end Mowgli
