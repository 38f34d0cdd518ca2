import Mowgli.Base.Ctype
import Mowgli.Container.List.Nth
import Mowgli.Core.MowgliString.Buffer
/-!
# Formatting from an argument stack

`mowgli_formatter_format_from_argstack` of `base/formatter.c`, with the bytes
that are in the buffer before. A literal character is put where the index is,
and no NUL behind it; a directive is printed with `snprintf` in what is left of
the buffer, and the index goes on by all that would have been printed. What
reads or writes past the buffer answers `none`, as do a number that is no `int`
and a text that is longer than one.

So the buffer has the expansion of the format string exactly if there is room
for each literal character before the last byte, no directive begins past the
end, and after a literal character what was in the buffer before has a NUL.
-/

namespace Mowgli

namespace Formatter

open Bytes

/-! ## The formatter -/

/-- `mowgli_argstack_element_t`. -/
inductive ArgstackElement
  | numeric (n : ℤ)
  | pointer (p : Option Addr)
  | string (s : CString)
  | boolean (b : Bool)

/-- The nodes of an argument stack. -/
def nodeField : NodeField MowgliNode := ⟨id, fun _ n => n, fun _ n => Eq.refl n⟩

/-- `mowgli_argstack_t`: a list in memory, with the elements it holds. A node
takes up 24 bytes. -/
structure Argstack where
  stack : MowgliList
  nodes : Store MowgliNode
  elements : Store ArgstackElement
  cells : List Addr
  args : List ArgstackElement
  holds : nodeField.Holds nodes stack cells
  data : List.Forall₂ (fun n e => ∃ a, nodeField.data nodes n = some (some a) ∧ elements.get a = some e) cells args
  size : 24 * args.length < 18446744073709551616

/-- `mowgli_node_nth_data(&stack->stack, pos)`. -/
def Argstack.nthData (s : Argstack) (pos : ℕ) : Option (Option ArgstackElement) := do
  let e ← nodeField.nodeNthData s.nodes s.stack pos
  match e with
  | none => some none
  | some e => (s.elements.get e).map some

/-- `atoi`. -/
def atoi (s : List UInt8) : Option ℤ :=
  let n := strtol s 10
  if -2147483648 ≤ n ∧ n ≤ 2147483647 then some n else none

/-- `arg - 1`, as a `size_t`. -/
def position (arg : ℤ) : Option ℕ :=
  if -2147483648 ≤ arg - 1 then some ((arg - 1) % 18446744073709551616).toNat else none

theorem ch_ne_zero {c : Char} (h : c.isDigit) : ch c ≠ 0 := by
  intro h0
  have hval : c.val.toNat % 2 ^ 8 = 0 := congrArg UInt8.toNat h0
  simp only [Char.isDigit, Bool.and_eq_true, decide_eq_true_eq, ge_iff_le, UInt32.le_iff_toNat_le] at h
  have hlow : 48 ≤ c.val.toNat := h.1
  have hhigh : c.val.toNat ≤ 57 := h.2
  omega

/-- The text of "%d". -/
def decimal (n : ℤ) : CString where
  bytes := (if n < 0 then [ch '-'] else []) ++ (Nat.toDigits 10 n.natAbs).map ch
  nul_free h := by
    rcases List.mem_append.1 h with h | h
    · split_ifs at h with hn
      · exact absurd (List.mem_singleton.1 h) (by decide)
      · exact absurd h List.not_mem_nil
    · obtain ⟨c, hc, h0⟩ := List.mem_map.1 h
      exact ch_ne_zero (Nat.isDigit_of_mem_toDigits (by decide) (by decide) hc) h0

/-- `"TRUE"`. -/
def trueText : CString := ⟨[ch 'T', ch 'R', ch 'U', ch 'E'], by decide⟩

/-- `"FALSE"`. -/
def falseText : CString := ⟨[ch 'F', ch 'A', ch 'L', ch 'S', ch 'E'], by decide⟩

/-- `"(unknown)"`. -/
def unknownText : CString :=
  ⟨[ch '(', ch 'u', ch 'n', ch 'k', ch 'n', ch 'o', ch 'w', ch 'n', ch ')'], by decide⟩

section

variable (pointerText : Option Addr → CString)

/-- What is printed for an element; `pointerText` is the text of "%p". -/
def ArgstackElement.text : ArgstackElement → CString
  | .numeric n => decimal n
  | .pointer p => pointerText p
  | .string s => s
  | .boolean b => if b then trueText else falseText

/-- `snprintf(buf + i, size, ...)`, of the text `s`: the buffer, and what is
returned. -/
def snprintf (buf : List UInt8) (i size : ℕ) (s : CString) : Option (List UInt8 × ℕ) :=
  if INT_MAX < s.length then none
  else if size = 0 then some (buf, s.length)
  else (store buf i (s.bytes.take (size - 1) ++ [0])).map fun buf => (buf, s.length)

/-- The variables of `mowgli_formatter_format_from_argstack`; `i` is an index. -/
structure State where
  buf : List UInt8
  i : ℕ
  pos : ℕ
  fiter : List UInt8

/-- A directive, `fiter` being behind the `'%'`. -/
def directive (bufstr : ℕ) (stack : Argstack) (s : State) (fiter : List UInt8) : Option State := do
  let arg ← atoi fiter
  let pos ← position arg
  let e ← stack.nthData pos
  let text := e.elim unknownText (ArgstackElement.text pointerText)
  let (buf, arg) ← snprintf s.buf s.i (sizeSub bufstr s.i) text
  some { s with buf := buf, i := s.i + arg, fiter := fiter.dropWhile isDigit }

/-- `*i = *fiter`, and on. -/
def literal (s : State) (x : UInt8) (fiter : List UInt8) : Option State := do
  let buf ← store s.buf s.i [x]
  some { s with buf := buf, i := s.i + 1, fiter := fiter }

/-- `switch (*fiter)`, where `*fiter` is `x`. -/
def step (bufstr : ℕ) (stack : Argstack) (s : State) (x : UInt8) (fiter : List UInt8) : Option State :=
  if x = ch '%' then directive pointerText bufstr stack s fiter else literal s x fiter

/-- The loop of `mowgli_formatter_format_from_argstack`. -/
def loop (bufstr : ℕ) (stack : Argstack) : ℕ → State → Option (List UInt8)
  | 0, _ => none
  | fuel + 1, s =>
    match s.fiter with
    | [] => some s.buf
    | x :: fiter =>
      if bufstr < s.pos then some s.buf
      else do
        let pos ← strlen s.buf
        let s ← step pointerText bufstr stack { s with pos := pos } x fiter
        loop bufstr stack fuel s

/-- `mowgli_formatter_format_from_argstack`, where `buf` has `bufstr` bytes. -/
def formatFromArgstack (fuel : ℕ) (buf : List UInt8) (fmtstr : CString) (stack : Argstack) : Option (List UInt8) := do
  let start ← store buf 0 [0]
  loop pointerText buf.length stack fuel ⟨start, 0, 0, fmtstr.bytes⟩

/-! ## What a format string says -/

/-- A part of a format string: a character, or `%k`. -/
inductive Piece
  | literal (x : UInt8)
  | arg (k : ℤ)

/-- A part ends with a NUL behind it. -/
def Piece.ends : Piece → Bool
  | .literal _ => false
  | .arg _ => true

/-- The part at `x`, with `t` behind it. The number of a directive is the one that
`strtol` reads there. -/
def piece (x : UInt8) (t : List UInt8) : Piece := if x = ch '%' then .arg (strtol t 10) else .literal x

/-- The parts of a format string. The digits of a number are no characters. -/
def pieces : Bool → List UInt8 → List Piece
  | _, [] => []
  | number, x :: t => if number ∧ isDigit x then pieces true t else piece x t :: pieces (piece x t).ends t

/-- The text of the `k`-th argument. -/
def argument (args : List ArgstackElement) (k : ℤ) : CString :=
  if 1 ≤ k then (args[(k - 1).toNat]?).elim unknownText (ArgstackElement.text pointerText) else unknownText

/-- What a part expands to. -/
def Piece.text (args : List ArgstackElement) : Piece → List UInt8
  | .literal x => [x]
  | .arg k => (argument pointerText args k).bytes

/-- The full expansion. -/
def expand (args : List ArgstackElement) (ps : List Piece) : List UInt8 := ps.flatMap (Piece.text pointerText args)

/-- There is room at the index `i`: for a character before the last byte; for a
directive in the buffer or right behind it, with a number and a length that are
`int`s. -/
def Piece.Room (args : List ArgstackElement) (bufstr i : ℕ) : Piece → Prop
  | .literal _ => i + 1 < bufstr
  | .arg k => (-2147483647 ≤ k ∧ k ≤ 2147483647) ∧ (argument pointerText args k).length ≤ INT_MAX ∧ i ≤ bufstr

/-- From the index `i` on the parts fit the buffer, where there is a NUL at `i`
or not. -/
def Fits (args : List ArgstackElement) (prior : List UInt8) : ℕ → Bool → List Piece → Prop
  | i, ended, [] => ended ∨ prior[i]? = some 0
  | i, ended, p :: ps => (ended ∨ 0 ∈ prior.drop i) ∧ p.Room pointerText args prior.length i ∧
      Fits args prior (i + (p.text pointerText args).length) p.ends ps

/-- A buffer of `n` bytes has a text, truncated to `n - 1`, and a NUL behind. -/
def Terminated (n : ℕ) (text buf : List UInt8) : Prop :=
  buf.length = n ∧ ∃ tail, buf = text.take (n - 1) ++ 0 :: tail

/-! ## Arguments -/

variable {pointerText}
variable {stack : Argstack} {args : List ArgstackElement} {t prior text buf E : List UInt8} {x : UInt8} {i n fuel : ℕ}
variable {ended : Bool} {s : State}

theorem Argstack.nthData_eq (stack : Argstack) (pos : ℕ) : stack.nthData pos = some stack.args[pos]? := by
  rw [Argstack.nthData, stack.holds.nodeNthData]
  by_cases hpos : pos < stack.args.length
  · have hlen : pos < stack.cells.length := stack.data.length_eq ▸ hpos
    obtain ⟨a, hdata, helement⟩ := stack.data.get hlen hpos
    rw [List.get_eq_getElem] at hdata helement
    rw [List.getElem?_eq_getElem hlen, Option.elim_some, hdata, List.getElem?_eq_getElem hpos]
    simp only [Option.bind_eq_bind, Option.bind_some, helement, Option.map_some]
  · have hlen : stack.cells.length ≤ pos := stack.data.length_eq ▸ Nat.le_of_not_lt hpos
    rw [List.getElem?_eq_none hlen, List.getElem?_eq_none (Nat.le_of_not_lt hpos)]
    rfl

/-- The argument that a number names. -/
theorem argument_eq (stack : Argstack) {k : ℤ} {pos : ℕ} (hmax : k ≤ 2147483647) (h : position k = some pos) :
    (stack.args[pos]?).elim unknownText (ArgstackElement.text pointerText) = argument pointerText stack.args k := by
  rw [position] at h
  split_ifs at h with hk
  obtain rfl := Option.some.inj h
  have hsize := stack.size
  rw [argument]
  split_ifs with hpos
  · rw [Int.emod_eq_of_lt (by omega) (by omega)]
  · rw [List.getElem?_eq_none (by omega)]
    rfl

theorem directive_eq (bufstr : ℕ) (stack : Argstack) (s : State) (t : List UInt8)
    (hk : -2147483647 ≤ strtol t 10 ∧ strtol t 10 ≤ 2147483647) :
    directive pointerText bufstr stack s t =
      (snprintf s.buf s.i (sizeSub bufstr s.i) (argument pointerText stack.args (strtol t 10))).map fun x =>
        { s with buf := x.1, i := s.i + x.2, fiter := t.dropWhile isDigit } := by
  have hatoi : atoi t = some (strtol t 10) := if_pos ⟨by omega, hk.2⟩
  have hpos : position (strtol t 10) = some ((strtol t 10 - 1) % 18446744073709551616).toNat := if_pos (by omega)
  rw [directive, hatoi, Option.bind_eq_bind, Option.bind_some, hpos, Option.bind_eq_bind, Option.bind_some,
    stack.nthData_eq, Option.bind_eq_bind, Option.bind_some]
  simp only [argument_eq stack hk.2 hpos, Option.bind_eq_bind]
  cases snprintf s.buf s.i (sizeSub bufstr s.i) (argument pointerText stack.args (strtol t 10)) <;> rfl

theorem directive_eq_none (bufstr : ℕ) (stack : Argstack) (s : State) (t : List UInt8)
    (hk : ¬ (-2147483647 ≤ strtol t 10 ∧ strtol t 10 ≤ 2147483647)) : directive pointerText bufstr stack s t = none := by
  rw [directive, atoi]
  simp only
  split_ifs with hint
  · rw [Option.bind_eq_bind, Option.bind_some, position, if_neg (by omega)]
    rfl
  · rfl

/-! ## The parts of a format string -/

theorem pieces_true (t : List UInt8) : pieces true t = pieces false (t.dropWhile isDigit) := by
  induction t with
  | nil => rfl
  | cons x t ih =>
    by_cases hx : isDigit x
    · rw [pieces, if_pos ⟨rfl, hx⟩, List.dropWhile_cons_of_pos hx, ih]
    · rw [List.dropWhile_cons_of_neg hx, pieces, pieces, if_neg fun h => hx h.2, if_neg fun h => hx h.2]

theorem expand_cons (args : List ArgstackElement) (p : Piece) (ps : List Piece) :
    expand pointerText args (p :: ps) = p.text pointerText args ++ expand pointerText args ps := List.flatMap_cons

/-! ## The buffer -/

/-- The formatter has expanded its format string to `E`, with a NUL behind it or
not. Behind that the buffer is as it was, and text that is too long for it ends
with a NUL in the last byte. -/
structure At (prior E : List UInt8) (ended : Bool) (s : State) : Prop where
  nul_free : 0 ∉ E
  index : s.i = E.length
  pos : s.pos ≤ prior.length
  bound : E.length ≤ prior.length + INT_MAX
  inside : E.length < prior.length →
    s.buf = E ++ if ended then 0 :: prior.drop (E.length + 1) else prior.drop E.length
  outside : prior.length ≤ E.length → ended = true ∧ s.buf = E.take (prior.length - 1) ++ [0]

theorem strlen_eq_some (h : strlen t = some n) : n < t.length ∧ 0 ∈ t := by
  induction t generalizing n with
  | nil => cases h
  | cons c t ih =>
    rw [strlen] at h
    split_ifs at h with hc
    · rw [← Option.some.inj h]
      exact ⟨Nat.succ_pos _, hc ▸ List.mem_cons_self ..⟩
    · obtain ⟨k, hk, rfl⟩ := Option.map_eq_some_iff.1 h
      obtain ⟨hlt, hmem⟩ := ih hk
      exact ⟨Nat.succ_lt_succ hlt, List.mem_cons_of_mem _ hmem⟩

theorem strlen_isSome (h : 0 ∈ t) : ∃ n, strlen t = some n := by
  induction t with
  | nil => cases h
  | cons c t ih =>
    rw [strlen]
    split_ifs with hc
    · exact ⟨0, rfl⟩
    · obtain ⟨n, hn⟩ := ih ((List.mem_cons.1 h).resolve_left (Ne.symm hc))
      exact ⟨n + 1, by rw [hn]; rfl⟩

theorem At.nul_iff (h : At prior E ended s) : 0 ∈ s.buf ↔ ended ∨ 0 ∈ prior.drop E.length := by
  rcases lt_or_ge E.length prior.length with hlt | hge
  · rw [h.inside hlt]
    cases ended with
    | false => simp [h.nul_free]
    | true => simp
  · obtain ⟨rfl, hbuf⟩ := h.outside hge
    simp [hbuf]

theorem At.length (h : At prior E ended s) (hp : prior ≠ []) : s.buf.length = prior.length := by
  have hpos := List.length_pos_iff.2 hp
  rcases lt_or_ge E.length prior.length with hlt | hge
  · rw [h.inside hlt]
    cases ended with
    | false =>
      simp only [Bool.false_eq_true, if_false, List.length_append, List.length_drop]
      omega
    | true =>
      simp only [if_true, List.length_append, List.length_cons, List.length_drop]
      omega
  · rw [(h.outside hge).2, List.length_append, List.length_take, List.length_singleton]
    omega

/-- What is in the buffer up to the index, and some way behind it. -/
theorem At.split (h : At prior E ended s) (hlt : E.length < prior.length) (n : ℕ) :
    s.buf.take E.length = E ∧ s.buf.drop (E.length + (n + 1)) = prior.drop (E.length + (n + 1)) := by
  rw [h.inside hlt, List.take_left' rfl, List.drop_append, List.drop_eq_nil_of_le (by omega), Nat.add_sub_cancel_left,
    List.nil_append]
  cases ended with
  | false => rw [if_neg Bool.false_ne_true, List.drop_drop]; exact ⟨rfl, rfl⟩
  | true => rw [if_pos rfl, List.drop_succ_cons, List.drop_drop]; exact ⟨rfl, congrArg (List.drop · prior) (by omega)⟩

/-- A literal character that leaves room for a NUL is put where the index is. -/
theorem At.literal (h : At prior E ended s) (hp : prior ≠ []) (hx : x ≠ 0) (hroom : E.length + 1 < prior.length)
    (t : List UInt8) : ∃ s', literal s x t = some s' ∧ At prior (E ++ [x]) false s' ∧ s'.fiter = t := by
  have hlen := h.length hp
  obtain ⟨htake, hdrop⟩ := h.split (by omega) 0
  have hstore : store s.buf s.i [x] = some (E ++ [x] ++ prior.drop (E.length + 1)) := by
    rw [store, h.index, if_pos (by rw [hlen, List.length_singleton]; omega), List.length_singleton, htake, hdrop]
  refine ⟨{ s with buf := E ++ [x] ++ prior.drop (E.length + 1), i := s.i + 1, fiter := t },
    by rw [Formatter.literal, hstore]; rfl, ⟨?_, ?_, h.pos, ?_, ?_, ?_⟩, rfl⟩
  · simp [h.nul_free, Ne.symm hx]
  · simp [h.index]
  · rw [List.length_append, List.length_singleton]
    omega
  · intro _
    simp
  · intro hge
    rw [List.length_append, List.length_singleton] at hge
    omega

/-- A directive is printed in what is left of the buffer. -/
theorem At.directive (h : At prior E ended s) (hp : prior ≠ []) {k : CString} (hk : k.length ≤ INT_MAX)
    (hroom : E.length ≤ prior.length) :
    ∃ buf, snprintf s.buf s.i (sizeSub prior.length s.i) k = some (buf, k.length) ∧
      ∀ t, At prior (E ++ k.bytes) true { s with buf := buf, i := s.i + k.length, fiter := t } := by
  have hlen := h.length hp
  have hpos := List.length_pos_iff.2 hp
  have hsize : sizeSub prior.length s.i = prior.length - E.length := by rw [sizeSub, h.index, if_neg (by omega)]
  have hnul : 0 ∉ E ++ k.bytes := fun hm => (List.mem_append.1 hm).elim h.nul_free k.nul_free
  have hsum : (E ++ k.bytes).length = E.length + k.length := List.length_append
  have hindex : s.i + k.length = (E ++ k.bytes).length := by rw [hsum, h.index]
  rw [snprintf, if_neg (by omega), hsize]
  rcases Nat.eq_or_lt_of_le hroom with heq | hlt
  -- there is nothing left, and `size` is 0
  · rw [if_pos (by omega)]
    refine ⟨_, rfl, fun t => ⟨hnul, hindex, h.pos, by omega, fun hin => by omega, fun _ => ⟨rfl, ?_⟩⟩⟩
    rw [(h.outside heq.ge).2, List.take_append_of_le_length (by omega)]
  obtain ⟨htake, -⟩ := h.split hlt 0
  rw [if_neg (by omega)]
  rcases lt_or_ge (E.length + k.length) prior.length with hfits | hlong
  -- all of the text is printed
  · have hdata : k.bytes.take (prior.length - E.length - 1) = k.bytes :=
      List.take_of_length_le (show k.length ≤ _ by omega)
    have hcount : (k.bytes ++ [0]).length = k.length + 1 := by rw [List.length_append]; rfl
    obtain ⟨-, hdrop⟩ := h.split hlt k.length
    have hstore : store s.buf s.i (k.bytes ++ [0]) =
        some (E ++ (k.bytes ++ [0]) ++ prior.drop (E.length + (k.length + 1))) := by
      rw [store, h.index, hcount, if_pos (by omega), htake, hdrop]
    rw [hdata, hstore]
    refine ⟨_, rfl, fun t => ⟨hnul, hindex, h.pos, by omega, fun _ => ?_, fun hge => by omega⟩⟩
    rw [if_pos rfl, hsum]
    simp [Nat.add_assoc]
  -- the text is cut off
  · have hdata : (k.bytes.take (prior.length - E.length - 1) ++ [0]).length = prior.length - E.length := by
      have hk : k.bytes.length = k.length := rfl
      rw [List.length_append, List.length_take, List.length_singleton, hk]
      omega
    have hstore : store s.buf s.i (k.bytes.take (prior.length - E.length - 1) ++ [0]) =
        some (E ++ (k.bytes.take (prior.length - E.length - 1) ++ [0])) := by
      rw [store, h.index, hdata, if_pos (by omega), htake, List.drop_eq_nil_of_le (by omega), List.append_nil]
    rw [hstore]
    refine ⟨_, rfl, fun t => ⟨hnul, hindex, h.pos, by omega, fun hin => by omega, fun _ => ⟨rfl, ?_⟩⟩⟩
    have hE : E.take (prior.length - 1) = E := List.take_of_length_le (by omega)
    rw [List.take_append, hE, List.append_assoc, Nat.sub_right_comm]

/-- At the end of the format string. -/
theorem At.terminated_iff (h : At prior E ended s) (hp : prior ≠ []) :
    Terminated prior.length E s.buf ↔ ended ∨ prior[E.length]? = some 0 := by
  rw [Terminated, h.length hp]
  rcases lt_or_ge E.length prior.length with hlt | hge
  · have htake : E.take (prior.length - 1) = E := List.take_of_length_le (by omega)
    rw [h.inside hlt, htake]
    cases ended with
    | true => simp
    | false =>
      simp only [Bool.false_eq_true, if_false, List.append_cancel_left_eq, true_and, false_or]
      rw [List.drop_eq_getElem_cons hlt, List.getElem?_eq_getElem hlt, Option.some.injEq]
      exact ⟨fun ⟨tail, h⟩ => (List.cons.inj h).1, fun h => ⟨_, congrArg (· :: _) h⟩⟩
  · obtain ⟨rfl, hbuf⟩ := h.outside hge
    exact iff_of_true ⟨rfl, [], hbuf⟩ (Or.inl rfl)

theorem loop_cons {bufstr : ℕ} (hfiter : s.fiter = x :: t) (hpos : s.pos ≤ bufstr) (fuel : ℕ) :
    loop pointerText bufstr stack (fuel + 1) s = (strlen s.buf).bind fun pos =>
      (step pointerText bufstr stack { s with pos := pos } x t).bind (loop pointerText bufstr stack fuel) := by
  rw [loop, hfiter]
  simp only [if_neg (Nat.not_lt.2 hpos)]
  rfl

theorem strlen_eq_none (h : 0 ∉ t) : strlen t = none := by
  rw [← Option.not_isSome_iff_eq_none, Option.isSome_iff_exists]
  rintro ⟨n, hn⟩
  exact h (strlen_eq_some hn).2

/-- A buffer without a NUL is left so, or read past its end. -/
theorem loop_no_nul {bufstr : ℕ} (h : 0 ∉ s.buf) (hrun : loop pointerText bufstr stack fuel s = some buf) : 0 ∉ buf := by
  cases fuel with
  | zero => cases hrun
  | succ fuel =>
    rw [loop] at hrun
    split at hrun
    · cases hrun
      exact h
    · rw [strlen_eq_none h] at hrun
      split_ifs at hrun
      · cases hrun
        exact h
      · cases hrun

theorem Terminated.nul_mem (h : Terminated n text buf) : 0 ∈ buf := by
  obtain ⟨-, tail, rfl⟩ := h
  exact List.mem_append_right _ (List.mem_cons_self ..)

theorem At.setPos (h : At prior E ended s) (hn : n ≤ prior.length) : At prior E ended { s with pos := n } :=
  ⟨h.nul_free, h.index, hn, h.bound, h.inside, h.outside⟩

/-- A part for which there is room is expanded. -/
theorem At.step (h : At prior E ended s) (hp : prior ≠ []) (hx : x ≠ 0)
    (hroom : (piece x t).Room pointerText stack.args prior.length E.length) :
    ∃ s', step pointerText prior.length stack s x t = some s' ∧
      At prior (E ++ (piece x t).text pointerText stack.args) (piece x t).ends s' ∧ s'.fiter <:+ t ∧
      pieces (piece x t).ends t = pieces false s'.fiter := by
  rw [piece] at hroom ⊢
  rw [Formatter.step]
  by_cases hd : x = ch '%'
  · rw [if_pos hd] at hroom ⊢
    rw [if_pos hd]
    obtain ⟨hk, hlen, hle⟩ := hroom
    obtain ⟨buf, hprint, hat⟩ := h.directive hp hlen hle
    rw [directive_eq _ _ _ _ hk, hprint, Option.map_some]
    exact ⟨_, rfl, hat _, List.dropWhile_suffix _, pieces_true t⟩
  · rw [if_neg hd] at hroom ⊢
    rw [if_neg hd]
    obtain ⟨s', hrun, hat, rfl⟩ := h.literal hp hx hroom t
    exact ⟨s', hrun, hat, List.suffix_rfl, rfl⟩

/-- A part for which there is no room goes past the end of the buffer, or leaves
no NUL. -/
theorem At.step_full (h : At prior E ended s) (hp : prior ≠ []) (hx : x ≠ 0)
    (hroom : ¬ (piece x t).Room pointerText stack.args prior.length E.length) {s' : State}
    (hrun : Formatter.step pointerText prior.length stack s x t = some s') : 0 ∉ s'.buf := by
  have hlen := h.length hp
  rw [piece] at hroom
  rw [Formatter.step] at hrun
  split_ifs at hroom hrun with hd
  -- the number or the length is no `int`, or `size` has wrapped and the NUL goes past the end
  · exfalso
    rw [Piece.Room] at hroom
    by_cases hk : -2147483647 ≤ strtol t 10 ∧ strtol t 10 ≤ 2147483647
    · rw [directive_eq _ _ _ _ hk, snprintf] at hrun
      by_cases hlong : INT_MAX < (argument pointerText stack.args (strtol t 10)).length
      · rw [if_pos hlong] at hrun
        cases hrun
      have hpast : ¬ E.length ≤ prior.length := fun hle => hroom ⟨hk, Nat.le_of_not_lt hlong, hle⟩
      have hbound := h.bound
      have hint : INT_MAX = 2147483647 := rfl
      have hsize : sizeSub prior.length s.i ≠ 0 := by
        rw [sizeSub, h.index, if_pos (by omega)]
        omega
      rw [if_neg hlong, if_neg hsize, store, if_neg] at hrun
      · cases hrun
      · rw [h.index, List.length_append, List.length_singleton]
        omega
    · rw [directive_eq_none _ _ _ _ hk] at hrun
      cases hrun
  -- the character is in the last byte
  · have hroom : ¬ E.length + 1 < prior.length := hroom
    rw [Formatter.literal] at hrun
    obtain ⟨buf, hstore, hs'⟩ := Option.bind_eq_some_iff.1 hrun
    cases hs'
    obtain ⟨hle, rfl⟩ := store_eq_some hstore
    rw [h.index, hlen, List.length_singleton] at hle
    obtain ⟨htake, hdrop⟩ := h.split (by omega) 0
    rw [h.index, List.length_singleton, htake, hdrop, List.drop_eq_nil_of_le (by omega)]
    simp [h.nul_free, Ne.symm hx]

/-- **The loop** leaves the expansion exactly if what is left of the format
string fits. -/
theorem loop_iff (h : At prior E ended s) (hp : prior ≠ []) (hnul : 0 ∉ s.fiter) (hfuel : s.fiter.length < fuel) :
    (∃ buf, loop pointerText prior.length stack fuel s = some buf ∧
      Terminated prior.length (E ++ expand pointerText stack.args (pieces false s.fiter)) buf) ↔
      Fits pointerText stack.args prior E.length ended (pieces false s.fiter) := by
  induction fuel generalizing E ended s with
  | zero => exact absurd hfuel (Nat.not_lt_zero _)
  | succ fuel ih =>
    rcases hfiter : s.fiter with _ | ⟨x, t⟩
    · rw [loop, hfiter, pieces, expand, List.flatMap_nil, List.append_nil, Fits, ← h.terminated_iff hp]
      simp
    rw [hfiter, List.length_cons] at hfuel
    rw [hfiter, List.mem_cons, not_or] at hnul
    have hpieces : pieces false (x :: t) = piece x t :: pieces (piece x t).ends t := by
      rw [pieces, if_neg fun h => Bool.false_ne_true h.1]
    rw [loop_cons hfiter h.pos, hpieces, expand_cons, Fits]
    by_cases hend : ended ∨ 0 ∈ prior.drop E.length
    swap
    -- `strlen` reads past the buffer
    · rw [strlen_eq_none fun hm => hend (h.nul_iff.1 hm)]
      exact iff_of_false (fun ⟨_, h, _⟩ => nomatch h) fun hfits => hend hfits.1
    obtain ⟨n, hn⟩ := strlen_isSome (h.nul_iff.2 hend)
    have hat := h.setPos (n := n) ((strlen_eq_some hn).1.le.trans (h.length hp).le)
    rw [hn, Option.bind_some]
    by_cases hroom : (piece x t).Room pointerText stack.args prior.length E.length
    swap
    -- no NUL is put into the buffer any more
    · refine iff_of_false ?_ fun hfits => hroom hfits.2.1
      rintro ⟨buf, hrun, hterm⟩
      obtain ⟨s', hstep, hloop⟩ := Option.bind_eq_some_iff.1 hrun
      exact loop_no_nul (hat.step_full hp (Ne.symm hnul.1) hroom hstep) hloop hterm.nul_mem
    obtain ⟨s', hstep, hat', hsuffix, hrest⟩ := hat.step hp (Ne.symm hnul.1) hroom
    have hloop := ih hat' (fun hm => hnul.2 (hsuffix.subset hm)) (by have := hsuffix.length_le; omega)
    rw [hstep, Option.bind_some, hrest, ← List.append_assoc, hloop, List.length_append]
    exact (and_iff_right hend).trans (and_iff_right hroom) |>.symm

theorem at_start (hp : prior ≠ []) (fiter : List UInt8) :
    ∃ start, store prior 0 [0] = some start ∧ At prior [] true ⟨start, 0, 0, fiter⟩ := by
  have hpos := List.length_pos_iff.2 hp
  have hle : 0 + [(0 : UInt8)].length ≤ prior.length := hpos
  exact ⟨_, if_pos hle, List.not_mem_nil, rfl, Nat.zero_le _, Nat.zero_le _, fun _ => rfl,
    fun hge => absurd hpos (Nat.not_lt.2 hge)⟩

/-- **Formatting** comes to an end inside the buffer, with the full expansion,
truncated to it, exactly if the format string fits it. -/
theorem formatFromArgstack_iff (pointerText : Option Addr → CString) (stack : Argstack) (fmtstr : CString)
    {prior : List UInt8} (hp : prior ≠ []) {fuel : ℕ} (hfuel : fmtstr.length < fuel) :
    (∃ buf, formatFromArgstack pointerText fuel prior fmtstr stack = some buf ∧
      Terminated prior.length (expand pointerText stack.args (pieces false fmtstr.bytes)) buf) ↔
      Fits pointerText stack.args prior 0 true (pieces false fmtstr.bytes) := by
  obtain ⟨start, hstart, hat⟩ := at_start hp fmtstr.bytes
  rw [formatFromArgstack, hstart]
  exact loop_iff hat hp fmtstr.nul_free hfuel

/-- An argument stack with one element. -/
def Argstack.single (e : ArgstackElement) : Argstack where
  stack := ⟨some 0, some 0, 1⟩
  nodes := .set .empty 0 ⟨none, none, some 0⟩
  elements := .set .empty 0 e
  cells := [0]
  args := [e]
  holds := ⟨⟨rfl, none, rfl, rfl, rfl⟩, List.nodup_singleton _, rfl⟩
  data := .cons ⟨0, rfl, Store.get_set_self _ _ _⟩ .nil
  size := (by decide : 24 * 1 < 18446744073709551616)

/-- The format string `a%1`. -/
def argFormat : CString := ⟨[ch 'a', ch '%', ch '1'], by decide⟩

theorem formatFromArgstack_iff_arg : ∃ buf,
    formatFromArgstack (fun _ => falseText) 4 (List.replicate 4 0) argFormat (.single (.boolean true)) = some buf ∧
      Terminated 4 (expand (fun _ => falseText) [.boolean true] (pieces false argFormat.bytes)) buf :=
  (formatFromArgstack_iff (fun _ => falseText) (.single (.boolean true)) argFormat (by decide) (by decide)).2
    ⟨Or.inl rfl, (by decide : 0 + 1 < 4), Or.inr (by decide), ⟨by decide, by decide, by decide⟩, Or.inl rfl⟩

/-- The format string `a`. -/
def charFormat : CString := ⟨[ch 'a'], CString.nul_free_a⟩

/-- A literal character at the end of the format string has no NUL behind it. -/
theorem literal_unterminated :
    formatFromArgstack (fun _ => falseText) 2 [ch 'x', ch 'x', ch 'x'] charFormat (.single (.boolean true)) =
      some [ch 'a', ch 'x', ch 'x'] ∧
    ¬ Terminated 3 (expand (fun _ => falseText) [.boolean true] (pieces false charFormat.bytes)) [ch 'a', ch 'x', ch 'x'] :=
  ⟨rfl, fun h => absurd h.nul_mem (by decide)⟩

end

end Formatter

end Mowgli
