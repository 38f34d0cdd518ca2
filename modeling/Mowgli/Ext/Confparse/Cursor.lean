import Mowgli.Ext.Confparse.Text
/-!
# The cursor and the text

The cursor is at a place of the text, behind what was read. Skipping
whitespace and reading a name or a value stay in the block, write only over
what was read, and come to the place the text says; but for a word that the
end of the text cuts off, after which the parser reads on past the block.
-/

namespace Mowgli

namespace Confparse

open Cursor

/-- The cursor at a place, behind `d`. -/
def Place.cursor (p : Place) (d : List UInt8) (log : List LogLine) : Cursor :=
  ⟨d ++ (p.rest ++ [0]), d.length, p.curline, log⟩

variable {p : Place} {d t : List UInt8} {log : List LogLine} {x y : UInt8} {l : ℤ} {n fuel : ℕ}

theorem getElem?_behind (d t : List UInt8) : (d ++ t)[d.length]? = t.head? := by
  rw [List.getElem?_append_right le_rfl, Nat.sub_self, List.head?_eq_getElem?]

theorem getElem?_behind_succ (d : List UInt8) (x : UInt8) (t : List UInt8) :
    (d ++ x :: t)[d.length + 1]? = t.head? := by
  rw [List.getElem?_append_right (by omega), Nat.add_sub_cancel_left, List.getElem?_cons_succ, List.head?_eq_getElem?]

@[simp] theorem cursor_get_nil : (Place.cursor ⟨[], l⟩ d log).mem[(Place.cursor ⟨[], l⟩ d log).pos]? = some 0 :=
  getElem?_behind d [0]

@[simp] theorem cursor_get_cons :
    (Place.cursor ⟨x :: t, l⟩ d log).mem[(Place.cursor ⟨x :: t, l⟩ d log).pos]? = some x :=
  getElem?_behind d (x :: t ++ [0])

@[simp] theorem cursor_get_succ :
    (Place.cursor ⟨x :: t, l⟩ d log).mem[(Place.cursor ⟨x :: t, l⟩ d log).pos + 1]? = some (t.headD 0) := by
  refine (getElem?_behind_succ d x (t ++ [0])).trans ?_
  cases t <;> rfl

theorem cursor_get (p : Place) (d : List UInt8) (log : List LogLine) :
    (p.cursor d log).mem[(p.cursor d log).pos]? = some (p.rest.headD 0) := by
  obtain ⟨_ | ⟨x, t⟩, l⟩ := p
  · exact cursor_get_nil
  · exact cursor_get_cons

@[simp] theorem cursor_next : (Place.cursor ⟨x :: t, l⟩ d log).next = Place.cursor ⟨t, l⟩ (d ++ [x]) log := by
  simp [Place.cursor, Cursor.next]

@[simp] theorem cursor_newline :
    (Place.cursor ⟨t, l⟩ d log).newline = Place.cursor ⟨t, toInt (l + 1)⟩ d log := rfl

theorem cursor_length : (Place.cursor ⟨t, l⟩ d log).mem.length = d.length + t.length + 1 := by
  simp [Place.cursor, Nat.add_assoc]

/-! ## Whitespace -/

/-- What is left to do of `skip_ws` at the end of a comment. -/
def endComment (fuel : ℕ) (c : Cursor) : Option Cursor := do
  let x ← c.mem[c.pos]?
  let c := if x = 0 then c.error "File ends inside comment starting at line %d" else c.next
  let z ← c.mem[c.pos]?
  if z = 0 then some c else skipLoop fuel c.next

/-- What is left to do of `skip_ws`. -/
def skipOn : Skipping → ℕ → ℕ → Cursor → Option Cursor
  | .blank, _, fuel, c => skipLoop fuel c
  | .line, n, fuel, c => (lineLoop n c).bind fun c => skipLoop fuel c
  | .opening, n, fuel, c => (commentLoop n c.next).bind fun c => endComment fuel c
  | .comment, n, fuel, c => (commentLoop n c).bind fun c => endComment fuel c
  | .closing, _, fuel, c => skipLoop fuel c.next

theorem comment_eq (c : Cursor) (fuel : ℕ) :
    (c.comment.bind fun c => c.mem[c.pos]?.bind fun z => if z = 0 then some c else skipLoop fuel c.next) =
      skipOn .opening c.mem.length fuel c.next := by
  simp only [Cursor.comment, skipOn, endComment, Option.bind_eq_bind, Option.bind_assoc, Option.bind_some]

/-- `skip_ws` skips what the text has there. -/
def Skips (m : Skipping) (fuel : ℕ) (t : List UInt8) (l : ℤ) : Prop :=
  ∀ n d log, t.length < n → ∃ e log', t = e ++ (Place.skipFrom m t l).rest ∧
    skipOn m n fuel (Place.cursor ⟨t, l⟩ d log) = some ((Place.skipFrom m t l).cursor (d ++ e) log')

/-- One character is skipped. -/
theorem Skips.cons {m m' : Skipping} {l' : ℤ} {fuel' : ℕ} (h : Skips m' fuel' t l')
    (hplace : Place.skipFrom m (x :: t) l = Place.skipFrom m' t l')
    (hstep : ∀ n d log, t.length + 1 < n → ∃ n', t.length < n' ∧
      skipOn m n fuel (Place.cursor ⟨x :: t, l⟩ d log) = skipOn m' n' fuel' (Place.cursor ⟨t, l'⟩ (d ++ [x]) log)) :
    Skips m fuel (x :: t) l := by
  intro n d log hn
  obtain ⟨n', hn', heq⟩ := hstep n d log hn
  obtain ⟨e, log', ht, hrun⟩ := h n' (d ++ [x]) log hn'
  refine ⟨x :: e, log', ?_, ?_⟩
  · rw [hplace, List.cons_append, ← ht]
  · rw [heq, hrun, hplace, List.append_assoc, List.singleton_append]

/-- A line comment begins. -/
theorem lineLoop_enter (hx : x ≠ 0 ∧ x ≠ ch '\n' ∧ x ≠ ch '\r') (d : List UInt8) (log : List LogLine) :
    ∃ n', t.length < n' ∧ lineLoop (Place.cursor ⟨x :: t, l⟩ d log).mem.length (Place.cursor ⟨x :: t, l⟩ d log) =
      lineLoop n' (Place.cursor ⟨t, l⟩ (d ++ [x]) log) := by
  refine ⟨d.length + t.length + 1, by omega, ?_⟩
  rw [cursor_length, List.length_cons, show d.length + (t.length + 1) + 1 = d.length + t.length + 1 + 1 by omega,
    lineLoop, cursor_get_cons]
  simp [hx]

theorem skipLoop_nil : skipLoop (fuel + 1) (Place.cursor ⟨[], l⟩ d log) = some (Place.cursor ⟨[], l⟩ d log) := by
  rw [skipLoop, cursor_get_nil]
  simp +decide

/-- A comment begins. -/
theorem skipLoop_comment (ht : t.head? = some (ch '*')) :
    skipLoop (fuel + 1) (Place.cursor ⟨ch '/' :: t, l⟩ d log) =
      skipOn .opening (Place.cursor ⟨ch '/' :: t, l⟩ d log).mem.length fuel
        (Place.cursor ⟨t, l⟩ (d ++ [ch '/']) log) := by
  have hy : t.headD 0 = ch '*' := by rw [List.headD_eq_head?_getD, ht, Option.getD_some]
  rw [skipLoop, cursor_get_cons, cursor_get_succ, hy, ← cursor_next, ← comment_eq]
  simp +decide

/-- A line comment begins. -/
theorem skipLoop_line (hx : x = ch '/' ∧ t.head? = some (ch '/') ∨ x = ch '#') :
    skipLoop (fuel + 1) (Place.cursor ⟨x :: t, l⟩ d log) =
      skipOn .line (Place.cursor ⟨x :: t, l⟩ d log).mem.length fuel (Place.cursor ⟨x :: t, l⟩ d log) := by
  rcases hx with ⟨rfl, ht⟩ | rfl
  · have hy : t.headD 0 = ch '/' := by rw [List.headD_eq_head?_getD, ht, Option.getD_some]
    rw [skipLoop, cursor_get_cons, cursor_get_succ, hy]
    simp +decide [skipOn]
  · rw [skipLoop, cursor_get_cons]
    simp +decide [skipOn]

/-- Nothing is left to skip. -/
theorem skipLoop_stop (hx : ¬ (x = ch ' ' ∨ x = ch '\t' ∨ x = ch '\r' ∨ x = ch '=')) (hn : x ≠ ch '\n')
    (hs : ¬ (x = ch '/' ∧ t.head? = some (ch '*'))) (hl : ¬ (x = ch '/' ∧ t.head? = some (ch '/')))
    (hh : x ≠ ch '#') :
    skipLoop (fuel + 1) (Place.cursor ⟨x :: t, l⟩ d log) = some (Place.cursor ⟨x :: t, l⟩ d log) := by
  rw [skipLoop, cursor_get_cons]
  simp only [Option.bind_eq_bind, Option.bind_some, if_neg hx, if_neg hn, if_neg hh]
  by_cases hx : x = ch '/'
  · have hy : t.headD 0 ≠ ch '*' ∧ t.headD 0 ≠ ch '/' := by
      cases t with
      | nil => decide
      | cons y t =>
        constructor
        · exact fun hy => hs ⟨hx, congrArg some hy⟩
        · exact fun hy => hl ⟨hx, congrArg some hy⟩
    rw [if_pos hx, cursor_get_succ, Option.bind_some, if_neg hy.1, if_neg hy.2]
  · rw [if_neg hx]

theorem commentLoop_nil : commentLoop (n + 1) (Place.cursor ⟨[], l⟩ d log) = some (Place.cursor ⟨[], l⟩ d log) := by
  rw [commentLoop, cursor_get_nil]
  simp +decide

/-- A comment ends. -/
theorem commentLoop_end (ht : t.head? = some (ch '/')) :
    (commentLoop (n + 1) (Place.cursor ⟨ch '*' :: t, l⟩ d log)).bind (fun c => endComment fuel c) =
      skipOn .closing n fuel (Place.cursor ⟨t, l⟩ (d ++ [ch '*']) log) := by
  obtain ⟨t, rfl⟩ : ∃ u, t = ch '/' :: u := by
    cases t with
    | nil => cases ht
    | cons y t => exact ⟨t, by rw [Option.some.inj ht]⟩
  rw [commentLoop, cursor_get_cons]
  simp +decide [endComment, skipOn]

theorem commentLoop_cons (hx : x ≠ 0) (hs : ¬ (x = ch '*' ∧ t.head? = some (ch '/'))) :
    commentLoop (n + 1) (Place.cursor ⟨x :: t, l⟩ d log) =
      commentLoop n (Place.cursor ⟨t, if x = ch '\n' then toInt (l + 1) else l⟩ (d ++ [x]) log) := by
  rw [commentLoop, cursor_get_cons]
  simp only [Option.bind_eq_bind, Option.bind_some]
  have hy : t.headD 0 = ch '/' → t.head? = some (ch '/') := by
    cases t with
    | nil => exact fun h => absurd h (by decide)
    | cons y t => exact fun h => congrArg some h
  by_cases hstar : x = ch '*'
  · rw [if_pos hstar, cursor_get_succ, Option.bind_some, if_neg fun h => h.elim hx fun h => hs ⟨hstar, hy h⟩]
    split_ifs <;> simp
  · rw [if_neg hstar]
    rw [if_neg (by simp +decide [hx])]
    split_ifs <;> simp

theorem skips (m : Skipping) (ht : 0 ∉ t) (hfuel : t.length < fuel) (hm : m = .opening ∨ m = .closing → t ≠ []) :
    Skips m fuel t l := by
  induction t generalizing m l fuel with
  | nil =>
    intro n d log hn
    obtain ⟨fuel, rfl⟩ : ∃ k, fuel = k + 1 := ⟨fuel - 1, by omega⟩
    obtain ⟨n, rfl⟩ : ∃ k, n = k + 1 := ⟨n - 1, by omega⟩
    refine ⟨[], ?_⟩
    rw [List.append_nil]
    cases m with
    | blank => exact ⟨log, rfl, skipLoop_nil⟩
    | line =>
      refine ⟨log, rfl, ?_⟩
      rw [skipOn, lineLoop, cursor_get_nil]
      exact (congrArg (Option.bind · _) rfl).trans skipLoop_nil
    | opening => exact absurd rfl (hm (Or.inl rfl))
    | comment =>
      refine ⟨log ++ [.message "File ends inside comment starting at line %d"], rfl, ?_⟩
      rw [skipOn, commentLoop_nil, Option.bind_some, endComment, cursor_get_nil]
      simp only [Option.bind_eq_bind, Option.bind_some, if_pos]
      exact (congrArg (Option.bind · _) (getElem?_behind d [0])).trans rfl
    | closing => exact absurd rfl (hm (Or.inr rfl))
  | cons x t ih =>
    obtain ⟨fuel, rfl⟩ : ∃ k, fuel = k + 1 := ⟨fuel - 1, by simp at hfuel; omega⟩
    rw [List.mem_cons, not_or] at ht
    rw [List.length_cons] at hfuel
    have hfuel : t.length < fuel := by omega
    have hfuel' : t.length < fuel + 1 := by omega
    cases m with
    | blank =>
      by_cases hx : x = ch ' ' ∨ x = ch '\t' ∨ x = ch '\r' ∨ x = ch '='
      · refine (ih .blank ht.2 hfuel (by simp)).cons (by rw [Place.skipFrom, if_pos hx])
          fun n d log hn => ⟨n, by omega, ?_⟩
        rw [skipOn, skipLoop, cursor_get_cons]
        simp [hx, skipOn]
      by_cases hn : x = ch '\n'
      · subst hn
        refine (ih .blank ht.2 hfuel (by simp)).cons (by rw [Place.skipFrom, if_neg hx, if_pos rfl])
          fun n d log hn => ⟨n, by omega, ?_⟩
        rw [skipOn, skipLoop, cursor_get_cons]
        simp +decide [skipOn]
      by_cases hs : x = ch '/' ∧ t.head? = some (ch '*')
      · have ht0 : t ≠ [] := fun h => by rw [h] at hs; cases hs.2
        refine (ih .opening ht.2 hfuel fun _ => ht0).cons (by rw [Place.skipFrom, if_neg hx, if_neg hn, if_pos hs])
          fun n d log hn => ⟨_, ?_, (hs.1 ▸ skipLoop_comment hs.2)⟩
        rw [cursor_length, List.length_cons]
        omega
      by_cases hl : x = ch '/' ∧ t.head? = some (ch '/') ∨ x = ch '#'
      · have hx0 : x ≠ 0 ∧ x ≠ ch '\n' ∧ x ≠ ch '\r' :=
          ⟨fun h => ht.1 h.symm, hn, fun h => hx (Or.inr (Or.inr (Or.inl h)))⟩
        refine (ih .line ht.2 (l := l) hfuel (by simp)).cons ?_ fun n d log hn => ?_
        · rw [Place.skipFrom, if_neg hx, if_neg hn, if_neg hs]
          rcases hl with hl | hl
          · rw [if_pos hl]
          · rw [if_pos hl, ite_self]
        · obtain ⟨n', hn', heq⟩ := lineLoop_enter (t := t) (l := l) hx0 d log
          refine ⟨n', hn', ?_⟩
          rw [skipOn, skipLoop_line hl, skipOn, heq, skipOn]
      · rw [not_or] at hl
        intro n d log hn'
        refine ⟨[], log, ?_, ?_⟩
        · rw [Place.skipFrom, if_neg hx, if_neg hn, if_neg hs, if_neg hl.1, if_neg hl.2, List.nil_append]
        · rw [skipOn, skipLoop_stop hx hn hs hl.1 hl.2, Place.skipFrom, if_neg hx, if_neg hn, if_neg hs, if_neg hl.1,
            if_neg hl.2, List.append_nil]
    | line =>
      by_cases hn : x = ch '\n'
      · subst hn
        refine (ih .blank ht.2 hfuel (by simp)).cons (by rw [Place.skipFrom, if_pos rfl])
          fun n d log hn => ⟨n, by omega, ?_⟩
        obtain ⟨n, rfl⟩ : ∃ k, n = k + 1 := ⟨n - 1, by omega⟩
        rw [skipOn, skipOn, lineLoop, cursor_get_cons]
        simp +decide [skipLoop]
      by_cases hr : x = ch '\r'
      · subst hr
        refine (ih .blank ht.2 hfuel (by simp)).cons (by rw [Place.skipFrom, if_neg hn, if_pos rfl])
          fun n d log hn => ⟨n, by omega, ?_⟩
        obtain ⟨n, rfl⟩ : ∃ k, n = k + 1 := ⟨n - 1, by omega⟩
        rw [skipOn, skipOn, lineLoop, cursor_get_cons]
        simp +decide [skipLoop]
      · refine (ih .line ht.2 hfuel' (by simp)).cons (by rw [Place.skipFrom, if_neg hn, if_neg hr])
          fun n d log hn' => ?_
        obtain ⟨n, rfl⟩ : ∃ k, n = k + 1 := ⟨n - 1, by omega⟩
        refine ⟨n, by omega, ?_⟩
        rw [skipOn, lineLoop, cursor_get_cons]
        simp [skipOn, hn, hr, Ne.symm ht.1]
    | opening =>
      refine (ih .comment ht.2 hfuel' (by simp)).cons (by rw [Place.skipFrom])
        fun n d log hn => ⟨n, by omega, ?_⟩
      rw [skipOn, cursor_next, skipOn]
    | comment =>
      by_cases hs : x = ch '*' ∧ t.head? = some (ch '/')
      · have ht0 : t ≠ [] := fun h => by rw [h] at hs; cases hs.2
        refine (ih .closing ht.2 hfuel' fun _ => ht0).cons (by rw [Place.skipFrom, if_pos hs])
          fun n d log hn => ?_
        obtain ⟨n, rfl⟩ : ∃ k, n = k + 1 := ⟨n - 1, by omega⟩
        exact ⟨n, by omega, hs.1 ▸ commentLoop_end hs.2⟩
      · refine (ih .comment ht.2 (l := if x = ch '\n' then toInt (l + 1) else l) hfuel' (by simp)).cons ?_
          fun n d log hn => ?_
        · rw [Place.skipFrom, if_neg hs]
          split_ifs <;> rfl
        · obtain ⟨n, rfl⟩ : ∃ k, n = k + 1 := ⟨n - 1, by omega⟩
          refine ⟨n, by omega, ?_⟩
          rw [skipOn, commentLoop_cons (Ne.symm ht.1) hs, skipOn]
    | closing =>
      refine (ih .blank ht.2 hfuel' (by simp)).cons (by rw [Place.skipFrom])
        fun n d log hn => ⟨n, by omega, ?_⟩
      rw [skipOn, skipOn, cursor_next]

/-- **Whitespace** is skipped up to where the text says. -/
theorem skipWs_cursor (h : 0 ∉ p.rest) (d : List UInt8) (log : List LogLine) :
    ∃ e log', p.rest = e ++ p.skip.rest ∧ (p.cursor d log).skipWs = some (p.skip.cursor (d ++ e) log') := by
  have hlen : p.rest.length < (p.cursor d log).mem.length := by
    obtain ⟨t, l⟩ := p
    rw [cursor_length]
    change t.length < _
    omega
  exact skips .blank h hlen (by simp) _ d log hlen

/-! ## Quoted strings -/

theorem getElem?_gap (d g t : List UInt8) : (d ++ (g ++ t))[d.length + g.length]? = t.head? := by
  rw [← List.append_assoc, ← List.length_append]
  exact getElem?_behind _ _

theorem write_gap {c : List UInt8} (hc : c ≠ []) (d g t : List UInt8) (y : UInt8) :
    write (d ++ (g ++ (c ++ t))) d.length y = some ((d ++ [y]) ++ ((g ++ c).tail ++ t)) := by
  obtain ⟨a, u, hu⟩ : ∃ a u, g ++ c = a :: u := by
    rcases hgc : g ++ c with _ | ⟨a, u⟩
    · exact absurd (List.append_eq_nil_iff.1 hgc).2 hc
    · exact ⟨a, u, rfl⟩
  rw [← List.append_assoc g, hu, write, if_pos (by simp), List.set_append_right _ _ le_rfl]
  simp

theorem getElem?_gap_succ (d g : List UInt8) (x : UInt8) (t : List UInt8) :
    (d ++ (g ++ x :: t))[d.length + g.length + 1]? = t.head? := by
  rw [← List.append_assoc, ← List.length_append]
  exact getElem?_behind_succ _ _ _

/-- One character is decoded, `y` from `c`. -/
theorem quotedLoop_step {c : List UInt8} {e : Bool} (hx : ¬ (x = 0 ∨ x = ch '\r' ∨ x = ch '\n' ∨ x = ch '"'))
    (d g : List UInt8) (hc : e = false ∧ c = [x] ∧ y = x ∨ e = true ∧ c = [x, y])
    (he : escapes (d ++ (g ++ (c ++ t))) (d.length + g.length) x = some e) :
    quotedLoop (fuel + 1) (d ++ (g ++ (c ++ t))) (d.length + g.length) d.length =
      quotedLoop fuel ((d ++ [y]) ++ ((g ++ c).tail ++ t)) ((d ++ [y]).length + (g ++ c).tail.length)
        (d ++ [y]).length := by
  have hlen : ∀ k, k + 1 = (g ++ c).length → d.length + k + 1 = (d ++ [y]).length + (g ++ c).tail.length := by
    intro k hk
    rw [List.length_tail, List.length_append, List.length_singleton]
    omega
  rcases hc with ⟨rfl, rfl, rfl⟩ | ⟨rfl, rfl⟩
  · have hwrite := write_gap (c := [y]) (by simp) d g t y
    rw [quotedLoop, getElem?_gap, ← hlen g.length (by simp)]
    simp only [List.cons_append, List.nil_append, List.head?_cons, Option.bind_eq_bind, Option.bind_some,
      if_neg hx] at he hwrite ⊢
    rw [he, Option.bind_some, if_neg (by simp), getElem?_gap, List.head?_cons, Option.bind_some, hwrite]
    rw [Option.bind_some, List.length_append, List.length_singleton]
  · have hwrite := write_gap (c := [x, y]) (by simp) d g t y
    rw [quotedLoop, getElem?_gap, ← hlen (g.length + 1) (by simp)]
    simp only [List.cons_append, List.nil_append, List.head?_cons, Option.bind_eq_bind, Option.bind_some,
      if_neg hx] at he hwrite ⊢
    rw [he, Option.bind_some, if_pos rfl, getElem?_gap_succ, List.head?_cons, Option.bind_some, hwrite]
    rw [Option.bind_some, List.length_append, List.length_singleton]
    rfl

theorem quotedLoop_nil (d g : List UInt8) :
    quotedLoop (fuel + 1) (d ++ (g ++ [0])) (d.length + g.length) d.length =
      some (d ++ (g ++ [0]), d.length + g.length, d.length) := by
  rw [quotedLoop, getElem?_gap]
  simp

/-- A string is decoded over itself: behind what is decoded, and the stale
text `g`, stands what is left. -/
theorem quotedLoop_eq (ht : 0 ∉ t) (hfuel : t.length < fuel) (d g : List UInt8) :
    ∃ g', quotedLoop fuel (d ++ (g ++ (t ++ [0]))) (d.length + g.length) d.length =
      some ((d ++ (Place.decode t).1) ++ (g' ++ ((Place.decode t).2 ++ [0])),
        (d ++ (Place.decode t).1).length + g'.length, (d ++ (Place.decode t).1).length) := by
  have hstop : ∀ {x : UInt8}, 0 ≠ x → ¬ (x = ch '\r' ∨ x = ch '\n' ∨ x = ch '"') →
      ¬ (x = 0 ∨ x = ch '\r' ∨ x = ch '\n' ∨ x = ch '"') := fun h0 hx h => h.elim (fun h => h0 h.symm) hx
  fun_induction Place.decode t generalizing fuel d g with
  | case1 =>
    obtain ⟨fuel, rfl⟩ : ∃ k, fuel = k + 1 := ⟨fuel - 1, by omega⟩
    refine ⟨g, (quotedLoop_nil d g).trans ?_⟩
    simp
  | case2 x t hx =>
    obtain ⟨fuel, rfl⟩ : ∃ k, fuel = k + 1 := ⟨fuel - 1, by omega⟩
    refine ⟨g, ?_⟩
    rw [quotedLoop, getElem?_gap]
    simp [hx]
  | case3 x hx =>
    obtain ⟨fuel, rfl⟩ : ∃ k, fuel = k + 2 := ⟨fuel - 2, by simp at hfuel; omega⟩
    have hx := hstop (by simpa using ht) hx
    refine ⟨(g ++ [x]).tail, (quotedLoop_step (c := [x]) hx d g (Or.inl ⟨rfl, rfl, rfl⟩) ?_).trans
      ((quotedLoop_nil _ _).trans ?_)⟩
    · rw [escapes]
      split_ifs
      · refine (congrArg (Option.map _) (getElem?_gap_succ d g x [0])).trans ?_
        simp +decide
      · rfl
    · simp
  | case4 x hx y u hesc ih =>
    obtain ⟨fuel, rfl⟩ : ∃ k, fuel = k + 1 := ⟨fuel - 1, by simp at hfuel; omega⟩
    simp only [List.mem_cons, not_or] at ht
    have hx := hstop ht.1 hx
    have hlen : u.length < fuel := by simp at hfuel; omega
    obtain ⟨g', hg'⟩ := ih ht.2.2 hlen (d ++ [y]) (g ++ [x, y]).tail
    refine ⟨g', (quotedLoop_step (c := [x, y]) hx d g (Or.inr ⟨rfl, rfl⟩) ?_).trans (hg'.trans (by simp))⟩
    rw [escapes, if_pos hesc.1]
    refine (congrArg (Option.map _) (getElem?_gap_succ d g x (y :: (u ++ [0])))).trans ?_
    simp [hesc.2]
  | case5 x hx y u hesc ih =>
    obtain ⟨fuel, rfl⟩ : ∃ k, fuel = k + 1 := ⟨fuel - 1, by simp at hfuel; omega⟩
    rw [List.mem_cons, not_or] at ht
    have hx := hstop ht.1 hx
    have hlen : (y :: u).length < fuel := by simp at hfuel ⊢; omega
    obtain ⟨g', hg'⟩ := ih ht.2 hlen (d ++ [x]) (g ++ [x]).tail
    refine ⟨g', (quotedLoop_step (c := [x]) hx d g (Or.inl ⟨rfl, rfl, rfl⟩) ?_).trans (hg'.trans (by simp))⟩
    rw [escapes]
    split_ifs with hb
    · refine (congrArg (Option.map _) (getElem?_gap_succ d g x (y :: (u ++ [0])))).trans ?_
      simp only [List.head?_cons, Option.map_some, Option.some.injEq, decide_eq_false_iff_not]
      exact fun h => hesc ⟨hb, h⟩
    · rfl

/-! ## Names and values -/

/-- At the position `a` of what was read there is a string. -/
def Settled (d : List UInt8) (a : ℕ) (s : CString) : Prop :=
  ∃ d₁ w d₂, d = d₁ ++ (w ++ 0 :: d₂) ∧ a = d₁.length ∧ s = stringOf w

theorem Settled.append {a : ℕ} {s : CString} (h : Settled d a s) (e : List UInt8) : Settled (d ++ e) a s := by
  obtain ⟨d₁, w, d₂, rfl, ha, hs⟩ := h
  exact ⟨d₁, w, d₂ ++ e, by simp, ha, hs⟩

theorem Settled.stringAt {a : ℕ} {s : CString} (h : Settled d a s) (e : List UInt8) : stringAt (d ++ e) a = s := by
  obtain ⟨d₁, w, d₂, rfl, rfl, rfl⟩ := h
  refine CString.ext ?_
  simp only [Confparse.stringAt, stringOf, List.append_assoc, List.drop_left]
  induction w with
  | nil => simp
  | cons x w ih =>
    rw [List.cons_append, List.takeWhile_cons, List.takeWhile_cons]
    split_ifs with hx
    · rw [ih]
    · rfl

/-- What `get_value` answers of a string of the text. -/
structure Gets (d : List UInt8) (v : Option ℕ) (cur : Cursor) (val : Option CString) (p : Place) : Prop where
  line : cur.curline = p.curline
  null : v = none ↔ val = none
  place : ¬ p.errored → ∃ e log, cur = p.cursor (d ++ e) log ∧
    ∀ a s, v = some a → val = some s → Settled (d ++ e) a s

theorem errored_error (p : Place) : p.error.errored := by
  simp [Place.errored, Place.error]

/-- There is no string. -/
theorem Gets.error {cur : Cursor} (h : cur.curline = p.curline) (format : String) :
    Gets d none (cur.error format) none p.error :=
  ⟨by rw [Cursor.error, Place.error, h], by simp, fun hp => absurd (errored_error p) hp⟩

theorem getQuoted_cursor (ht : 0 ∉ t) (d : List UInt8) (log : List LogLine) :
    ∃ v cur, (Place.cursor ⟨ch '"' :: t, l⟩ d log).getQuoted = some (v, (Place.quoted ⟨ch '"' :: t, l⟩).2.1, cur) ∧
      Gets d v cur (Place.quoted ⟨ch '"' :: t, l⟩).1 (Place.quoted ⟨ch '"' :: t, l⟩).2.2 := by
  have hfuel : t.length < (Place.cursor ⟨ch '"' :: t, l⟩ d log).mem.length := by
    rw [cursor_length, List.length_cons]
    omega
  obtain ⟨g, hg⟩ := quotedLoop_eq ht hfuel (d ++ [ch '"']) []
  have hmem : (Place.cursor ⟨ch '"' :: t, l⟩ d log).mem = (d ++ [ch '"']) ++ ([] ++ (t ++ [0])) := by
    simp [Place.cursor]
  have hpos : (Place.cursor ⟨ch '"' :: t, l⟩ d log).pos + 1 = (d ++ [ch '"']).length := by
    simp [Place.cursor]
  simp only [List.length_nil, Nat.add_zero, ← hmem, ← hpos] at hg
  have hstops := Place.decode_stops t
  obtain ⟨e, he⟩ := Place.decode_suffix t
  rw [Cursor.getQuoted, hg]
  simp only [Option.bind_eq_bind, Option.bind_some, getElem?_gap]
  rw [Place.quoted, List.tail_cons]
  rcases hdec : Place.decode t with ⟨s, _ | ⟨x, u⟩⟩
  · simp only [List.nil_append, List.head?_cons, Option.bind_some, if_pos]
    exact ⟨none, _, rfl, Gets.error rfl _⟩
  · rw [hdec] at hstops he
    have hx := hstops x u rfl
    have hu : 0 ∉ u := by
      rw [he] at ht
      simp only [List.mem_append, List.mem_cons, not_or] at ht
      exact ht.2.2
    have hx0 : x ≠ 0 := by rcases hx with rfl | rfl | rfl <;> decide
    simp only [List.cons_append, List.head?_cons, Option.bind_some, if_neg hx0]
    by_cases hq : x = ch '"'
    · have hnl : ¬ (ch '"' = ch '\r' ∨ ch '"' = ch '\n') := by decide
      subst hq
      have hwrite := write_gap (c := [ch '"']) (by simp) (d ++ [ch '"'] ++ s) g (u ++ [0]) 0
      simp only [List.cons_append, List.nil_append] at hwrite
      rw [if_neg hnl, if_pos rfl, hwrite]
      obtain ⟨e, log', hrest, hskip⟩ := skipWs_cursor (p := ⟨u, l⟩) hu
        (d ++ [ch '"'] ++ s ++ [0] ++ (g ++ [ch '"']).tail) log
      have hcur : (⟨d ++ [ch '"'] ++ s ++ [0] ++ ((g ++ [ch '"']).tail ++ (u ++ [0])),
          (d ++ [ch '"'] ++ s).length + g.length + 1, l, log⟩ : Cursor) =
          Place.cursor ⟨u, l⟩ (d ++ [ch '"'] ++ s ++ [0] ++ (g ++ [ch '"']).tail) log := by
        rw [Place.cursor, Cursor.mk.injEq]
        refine ⟨by simp, ?_, rfl, rfl⟩
        simp only [List.length_append, List.length_tail, List.length_singleton]
        omega
      refine ⟨_, _, (congrArg (fun c => (skipWs c).bind _) hcur).trans (congrArg (Option.bind · _) hskip), ?_⟩
      refine ⟨rfl, by simp, fun _ => ?_⟩
      refine ⟨[ch '"'] ++ s ++ [0] ++ (g ++ [ch '"']).tail ++ e, log', by simp, ?_⟩
      intro a s' ha hs
      refine ⟨d ++ [ch '"'], s, (g ++ [ch '"']).tail ++ e, by simp, ?_, (Option.some.inj hs).symm⟩
      rw [← Option.some.inj ha, hpos]
    · have hnl : x = ch '\r' ∨ x = ch '\n' := by tauto
      rw [if_pos hnl, if_neg hq]
      exact ⟨none, _, rfl, Gets.error rfl _⟩

theorem wordLoop_eq (hfuel : t.length < fuel) (d : List UInt8) :
    wordLoop (d ++ (t ++ [0])) fuel d.length = some (d.length + (t.takeWhile Place.inWord).length) := by
  induction t generalizing d fuel with
  | nil =>
    obtain ⟨fuel, rfl⟩ : ∃ k, fuel = k + 1 := ⟨fuel - 1, by omega⟩
    rw [wordLoop, getElem?_behind]
    simp +decide
  | cons x t ih =>
    obtain ⟨fuel, rfl⟩ : ∃ k, fuel = k + 1 := ⟨fuel - 1, by omega⟩
    rw [List.length_cons] at hfuel
    have hrec := ih (show t.length < fuel by omega) (d ++ [x])
    rw [List.append_assoc, List.singleton_append, List.length_append, List.length_singleton] at hrec
    rw [wordLoop, getElem?_behind]
    by_cases hx : endsWord x
    · simp [hx, Place.inWord]
    · simp [hx, Place.inWord, hrec]
      omega

/-- What `get_value` answers at an unquoted string. One that the end of the
text cuts off leaves the cursor behind the block. -/
theorem getWord_cursor (h : 0 ∉ p.rest) (d : List UInt8) (log : List LogLine) :
    (∀ val k p', p.unquoted = some (val, k, p') →
      ∃ v cur, (p.cursor d log).getWord = some (v, k, cur) ∧ Gets d v cur val p') ∧
    (p.unquoted = none → ∃ a cur, (p.cursor d log).getWord = some (some a, 0, cur) ∧ cur.curline = p.curline ∧
      cur.mem[cur.pos]? = none) := by
  obtain ⟨t, l⟩ := p
  have hfuel : t.length < (Place.cursor ⟨t, l⟩ d log).mem.length := by
    rw [cursor_length]
    omega
  have hword := wordLoop_eq hfuel d
  rw [Cursor.getWord, show (Place.cursor ⟨t, l⟩ d log).pos = d.length from rfl,
    show wordLoop (Place.cursor ⟨t, l⟩ d log).mem _ d.length = _ from hword]
  simp only [Option.bind_eq_bind, Option.bind_some]
  have hsplit : t.takeWhile Place.inWord ++ t.dropWhile Place.inWord = t := List.takeWhile_append_dropWhile
  rw [Place.unquoted]
  generalize t.takeWhile Place.inWord = w at hsplit ⊢
  generalize t.dropWhile Place.inWord = u at hsplit ⊢
  have hu : 0 ∉ u := by
    rw [← hsplit] at h
    exact fun hu => h (List.mem_append_right _ hu)
  by_cases hw : w = []
  · subst hw
    refine ⟨?_, by simp⟩
    intro val k p' hp
    rw [if_pos rfl] at hp
    obtain ⟨rfl, rfl, rfl⟩ : none = val ∧ 0 = k ∧ (⟨t, l⟩ : Place) = p' := by simpa using hp
    refine ⟨none, _, if_pos rfl, rfl, by simp, fun _ => ⟨[], log, by simp, by simp⟩⟩
  have hne : ¬ d.length + w.length = d.length := by
    have hpos := List.length_pos_iff.2 hw
    omega
  obtain ⟨e, log', hrest, hskip⟩ := skipWs_cursor (p := ⟨u, l⟩) hu (d ++ w) log
  have hcur : (⟨d ++ (t ++ [0]), d.length + w.length, l, log⟩ : Cursor) = Place.cursor ⟨u, l⟩ (d ++ w) log := by
    rw [Place.cursor, Cursor.mk.injEq, ← hsplit]
    simp
  have hskip' : skipWs { Place.cursor ⟨t, l⟩ d log with pos := d.length + w.length } = _ :=
    (congrArg skipWs hcur).trans hskip
  simp only [if_neg hne, if_neg hw, Cursor.endWord, hskip', Option.bind_eq_bind, Option.bind_some]
  have hmem : ((⟨u, l⟩ : Place).skip.cursor (d ++ w ++ e) log').mem = d ++ w ++ (u ++ [0]) := by
    rw [Place.cursor, List.append_assoc _ e, ← List.append_assoc e, ← hrest]
  have hpos : ((⟨u, l⟩ : Place).skip.cursor (d ++ w ++ e) log').pos = d.length + w.length + e.length := by
    simp [Place.cursor, Nat.add_assoc]
  rw [hmem, ← List.length_append, getElem?_behind]
  have hset : ∀ x v, write (d ++ w ++ x :: v) (d ++ w).length 0 = some (d ++ w ++ 0 :: v) := by
    intro x v
    rw [write, if_pos (by simp), List.set_append_right _ _ le_rfl]
    simp
  rcases u with _ | ⟨x, u⟩
  · -- the word is cut off: what ends it is the end of the text
    obtain ⟨rfl, -⟩ := List.append_eq_nil_iff.1 hrest.symm
    refine ⟨by simp, fun _ => ⟨d.length, ⟨d ++ w ++ [0], d.length + w.length + 1, l, log'⟩, ?_, rfl, ?_⟩⟩
    · simp only [List.nil_append, List.head?_cons, Option.bind_some, hset, hpos, List.length_nil, Nat.add_zero]
      rw [List.length_append, if_pos rfl]
      rfl
    · refine List.getElem?_eq_none ?_
      simp only [List.length_append, List.length_singleton]
      omega
  · simp only [List.cons_append, List.head?_cons, Option.bind_some, hset]
    refine ⟨?_, ?_⟩
    · intro val k p' hp
      have hsettled : ∀ v a s, some d.length = some a → some (stringOf w) = some s →
          Settled (d ++ (w ++ 0 :: v)) a s := fun v a s ha hs =>
        ⟨d, w, v, rfl, (Option.some.inj ha).symm, (Option.some.inj hs).symm⟩
      rcases e with _ | ⟨y, e⟩
      · rw [List.nil_append] at hrest
        rw [if_pos hrest.symm] at hp
        obtain ⟨rfl, rfl, rfl⟩ : some (stringOf w) = val ∧ x = k ∧ (⟨u, _⟩ : Place) = p' := by simpa using hp
        refine ⟨some d.length, Place.cursor ⟨u, _⟩ (d ++ (w ++ [0])) log', ?_, rfl, by simp,
          fun _ => ⟨w ++ [0], log', rfl, hsettled []⟩⟩
        rw [if_pos (by rw [hpos]; simp), hpos]
        simp [Place.cursor, Cursor.next, Nat.add_assoc]
      · have hne' : (⟨x :: u, l⟩ : Place).skip.rest ≠ x :: u := by
          intro heq
          have hlen := congrArg List.length hrest
          rw [heq] at hlen
          simp only [List.length_append, List.length_cons] at hlen
          omega
        rw [if_neg hne'] at hp
        obtain ⟨rfl, rfl, rfl⟩ : some (stringOf w) = val ∧ 0 = k ∧ (⟨x :: u, l⟩ : Place).skip = p' := by simpa using hp
        rw [List.cons_append, List.cons.injEq] at hrest
        refine ⟨some d.length, Place.cursor _ (d ++ (w ++ 0 :: e)) log', ?_, rfl, by simp,
          fun _ => ⟨w ++ 0 :: e, log', rfl, hsettled e⟩⟩
        rw [if_neg (by rw [hpos]; simp), hpos]
        simp only [Place.cursor, List.append_assoc, List.cons_append, List.length_append, List.length_cons, Nat.add_assoc]
        rw [← List.append_assoc e, ← hrest.2]
    · split_ifs <;> simp

/-- **A name or a value** is read as the text has it. -/
theorem getValue_cursor (h : 0 ∉ p.rest) (d : List UInt8) (log : List LogLine) :
    (∀ val k p', p.value = some (val, k, p') →
      ∃ v cur, (p.cursor d log).getValue = some (v, k, cur) ∧ Gets d v cur val p') ∧
    (p.value = none → ∃ a cur, (p.cursor d log).getValue = some (some a, 0, cur) ∧ cur.curline = p.curline ∧
      cur.mem[cur.pos]? = none) := by
  have hword := getWord_cursor h d log
  rw [Cursor.getValue, Place.value]
  rcases p with ⟨_ | ⟨x, t⟩, l⟩
  · rw [cursor_get_nil]
    simpa +decide using hword
  · rw [cursor_get_cons]
    by_cases hx : x = ch '"'
    · subst hx
      have ht : 0 ∉ t := fun ht => h (List.mem_cons_of_mem _ ht)
      obtain ⟨v, cur, hrun, hgets⟩ := getQuoted_cursor (l := l) ht d log
      simp only [List.head?_cons, if_pos, Option.bind_eq_bind, Option.bind_some, hrun]
      refine ⟨?_, by simp⟩
      rintro val k p' hp
      rw [Option.some.inj hp] at hgets ⊢
      exact ⟨v, cur, rfl, hgets⟩
    · simpa [hx] using hword

theorem delimiter_cursor (d : List UInt8) (log : List LogLine) (k : UInt8) :
    ∃ e, p.rest = e ++ (p.delimiter k).2.rest ∧
      (p.cursor d log).delimiter k = some ((p.delimiter k).1, (p.delimiter k).2.cursor (d ++ e) log) := by
  rw [Cursor.delimiter, Place.delimiter]
  by_cases hk : k = 0
  · rw [if_pos hk, if_pos hk]
    rcases p with ⟨_ | ⟨x, t⟩, l⟩
    · refine ⟨[], rfl, ?_⟩
      rw [cursor_get_nil]
      simp +decide
    · rw [cursor_get_cons]
      by_cases hx : x = ch '{' ∨ x = ch ';'
      · refine ⟨[x], by simp [hx], ?_⟩
        simp [hx]
      · refine ⟨[], by simp [hx], ?_⟩
        simp [hx]
  · rw [if_neg hk, if_neg hk]
    exact ⟨[], rfl, by simp⟩

/-- After a word that the end of the text cuts off the parser reads on past it. -/
theorem delimiter_behind {cur : Cursor} (h : cur.mem[cur.pos]? = none) : cur.delimiter 0 = none := by
  rw [Cursor.delimiter, if_pos rfl, h]
  rfl

end Confparse

end Mowgli
