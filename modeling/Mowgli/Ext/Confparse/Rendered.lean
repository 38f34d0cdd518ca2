import Mathlib.Logic.Relation
import Mowgli.Ext.Confparse.Bounds
/-!
# Texts that entries are written as

A forest of entries is written as a text in many ways: whitespace and
comments may stand between any two tokens. The loop of the parser reads each
of them back. It is followed token by token: a gap is skipped, a quoted
string is decoded, and what a section has in it is read between two turns.
-/

namespace Mowgli

namespace Confparse

open BinTree Relation

/-- Entries with their names and values. The children of an entry are its left
subtree, its next siblings the right one. -/
abbrev ConfigForest : Type := BinTree (CString × Option CString)

/-- How many lines end in a text. -/
def newlines (t : List UInt8) : ℕ := t.count (ch '\n')

/-- What may stand between two tokens. A line comment goes on to the first
character that `ends` one. -/
inductive Gap (ends : UInt8 → Prop) : List UInt8 → Prop
  | nil : Gap ends []
  | blank {x : UInt8} {g : List UInt8} :
    x ∈ [ch ' ', ch '\t', ch '\r', ch '\n', ch '='] → Gap ends g → Gap ends (x :: g)
  | block {b g : List UInt8} :
    ¬ [ch '*', ch '/'] <:+: b → Gap ends g → Gap ends (ch '/' :: ch '*' :: (b ++ ch '*' :: ch '/' :: g))
  | line {o b g : List UInt8} {e : UInt8} :
    o ∈ [[ch '#'], [ch '/', ch '/']] → (∀ x ∈ b, ¬ ends x) → ends e → Gap ends g → Gap ends (o ++ (b ++ e :: g))

/-- A line comment ends with the line, however that ends. -/
def EndsLine (x : UInt8) : Prop := x = ch '\n' ∨ x = ch '\r'

instance (x : UInt8) : Decidable (EndsLine x) := inferInstanceAs (Decidable (_ ∨ _))

/-- Quotation marks and backslashes are escaped. -/
def escape (s : List UInt8) : List UInt8 := s.flatMap fun x => if x = ch '"' ∨ x = ch '\\' then [ch '\\', x] else [x]

/-- A quoted string. -/
def quote (s : CString) : List UInt8 := ch '"' :: (escape s.bytes ++ [ch '"'])

/-- The string is on one line. -/
def OneLine (s : CString) : Prop := ∀ x ∈ s.bytes, ¬ EndsLine x

instance (s : CString) : Decidable (OneLine s) := List.decidableBAll (fun x => ¬ EndsLine x) s.bytes

/-- A name, or a name and a value. -/
inductive Heads (ends : UInt8 → Prop) : CString × Option CString → List UInt8 → Prop
  | name {n : CString} : OneLine n → Heads ends (n, none) (quote n)
  | value {n v : CString} {g : List UInt8} :
    OneLine n → OneLine v → Gap ends g → Heads ends (n, some v) (quote n ++ (g ++ quote v))

/-- **The texts of a forest.** -/
inductive Renders (ends : UInt8 → Prop) : ConfigForest → List UInt8 → Prop
  | nil {g : List UInt8} : Gap ends g → Renders ends .nil g
  | entry {x : CString × Option CString} {r : ConfigForest} {g h g' t : List UInt8} :
    Gap ends g → Heads ends x h → Gap ends g' → Renders ends r t →
      Renders ends (.node .nil x r) (g ++ (h ++ (g' ++ ch ';' :: t)))
  | block {x : CString × Option CString} {l r : ConfigForest} {g h g' s g'' t : List UInt8} :
    Gap ends g → Heads ends x h → Gap ends g' → Renders ends l s → Gap ends g'' → Renders ends r t →
      Renders ends (.node l x r) (g ++ (h ++ (g' ++ ch '{' :: (s ++ ch '}' :: (g'' ++ ch ';' :: t)))))

/-- No entry of the outermost level is a directive. -/
def NoInclude : ConfigForest → Prop
  | .nil => True
  | .node l x r => (l = .nil → x.2 ≠ none → CString.strcasecmp x.1 includeName ≠ 0) ∧ NoInclude r

variable {g h b o t u : List UInt8} {x e c : UInt8} {l : ℤ} {s n v : CString}

/-! ## A gap is skipped -/

@[simp] theorem newlines_nil : newlines [] = 0 := rfl

@[simp] theorem newlines_append (t u : List UInt8) : newlines (t ++ u) = newlines t + newlines u := List.count_append

@[simp] theorem newlines_cons (x : UInt8) (t : List UInt8) :
    newlines (x :: t) = newlines t + if x = ch '\n' then 1 else 0 := by
  simp [newlines, List.count_cons]

theorem toInt_succ (h₀ : 0 < l) (h : l + 1 ≤ 2147483647) : toInt (l + 1) = l + 1 := toInt_of_range (by omega) h

/-- A block comment is skipped up to the first `*/`. -/
theorem skipFrom_comment (hb : ¬ [ch '*', ch '/'] <:+: b) (h₀ : 0 < l) (h : l + newlines b ≤ 2147483647) :
    Place.skipFrom .comment (b ++ ch '*' :: ch '/' :: t) l = Place.skipFrom .blank t (l + newlines b) := by
  induction b generalizing l with
  | nil => simp [Place.skipFrom]
  | cons x b ih =>
    have hb' : ¬ [ch '*', ch '/'] <:+: b := fun hi => hb (hi.trans (List.suffix_cons x b).isInfix)
    have hend : ¬ (x = ch '*' ∧ (b ++ ch '*' :: ch '/' :: t).head? = some (ch '/')) := by
      rintro ⟨rfl, hhead⟩
      rcases b with _ | ⟨y, b⟩
      · simp +decide at hhead
      · obtain rfl : y = ch '/' := by simpa using hhead
        exact hb ⟨[], b, rfl⟩
    rw [List.cons_append, Place.skipFrom, if_neg hend]
    rw [newlines_cons] at h ⊢
    split_ifs at h ⊢ with hx
    · push_cast at h
      rw [toInt_succ h₀ (by omega), ih hb' (by omega) (by omega)]
      congr 1
      push_cast
      omega
    · rw [ih hb' h₀ (by simpa using h)]
      simp

/-- A line comment is skipped with the end of its line. -/
theorem skipFrom_line (hb : ∀ x ∈ b, ¬ EndsLine x) (he : EndsLine e) (h₀ : 0 < l)
    (h : l + newlines (b ++ [e]) ≤ 2147483647) :
    Place.skipFrom .line (b ++ e :: t) l = Place.skipFrom .blank t (l + newlines (b ++ [e])) := by
  induction b with
  | nil =>
    rcases he with rfl | rfl
    · rw [List.nil_append, Place.skipFrom, if_pos rfl, toInt_succ h₀ (by simpa using h)]
      simp
    · rw [List.nil_append, Place.skipFrom, if_neg (by decide), if_pos rfl]
      simp +decide
  | cons x b ih =>
    have hx := hb x (List.mem_cons_self ..)
    rw [EndsLine, not_or] at hx
    have hcount : newlines (x :: b ++ [e]) = newlines (b ++ [e]) := by simp [hx.1]
    rw [hcount] at h ⊢
    rw [List.cons_append, Place.skipFrom, if_neg hx.1, if_neg hx.2, ih (fun y hy => hb y (List.mem_cons_of_mem _ hy)) h]

/-- **A gap is skipped**, and its lines are counted. -/
theorem skipFrom_gap (hg : Gap EndsLine g) (h₀ : 0 < l) (h : l + newlines g ≤ 2147483647) :
    Place.skipFrom .blank (g ++ t) l = Place.skipFrom .blank t (l + newlines g) := by
  induction hg generalizing l with
  | nil => simp
  | @blank x g hx _ ih =>
    rw [newlines_cons] at h ⊢
    by_cases hn : x = ch '\n'
    · subst hn
      rw [if_pos rfl] at h ⊢
      push_cast at h
      rw [List.cons_append, Place.skipFrom, if_neg (by decide), if_pos rfl, toInt_succ h₀ (by omega),
        ih (by omega) (by omega)]
      congr 1
      push_cast
      omega
    · rw [if_neg hn, Nat.add_zero] at h ⊢
      have hx' : x = ch ' ' ∨ x = ch '\t' ∨ x = ch '\r' ∨ x = ch '=' := by
        simp only [List.mem_cons, List.not_mem_nil, or_false] at hx
        tauto
      rw [List.cons_append, Place.skipFrom, if_pos hx', ih h₀ h]
  | @block b g hb _ ih =>
    have hcount : newlines (ch '/' :: ch '*' :: (b ++ ch '*' :: ch '/' :: g)) = newlines b + newlines g := by
      simp +decide
    rw [hcount] at h ⊢
    push_cast at h
    simp only [List.cons_append, List.append_assoc]
    rw [Place.skipFrom, if_neg (by decide), if_neg (by decide), if_pos ⟨rfl, rfl⟩, Place.skipFrom,
      skipFrom_comment hb h₀ (by omega), ih (by omega) (by omega)]
    congr 1
    push_cast
    omega
  | @line o b g e ho hb he _ ih =>
    have hcount : newlines (o ++ (b ++ e :: g)) = newlines (b ++ [e]) + newlines g := by
      simp only [List.mem_cons, List.not_mem_nil, or_false] at ho
      rcases ho with rfl | rfl <;> simp +decide <;> omega
    have hstart : Place.skipFrom .blank (o ++ (b ++ e :: g) ++ t) l = Place.skipFrom .line (b ++ e :: (g ++ t)) l := by
      simp only [List.mem_cons, List.not_mem_nil, or_false] at ho
      rcases ho with rfl | rfl <;> simp +decide [Place.skipFrom]
    rw [hcount] at h ⊢
    push_cast at h
    rw [hstart, skipFrom_line hb he h₀ (by omega), ih (by omega) (by omega)]
    congr 1
    push_cast
    omega

/-- What a gap is followed by. -/
def Stops (u : List UInt8) : Prop := ∀ x ∈ u.head?, x ∈ [ch '"', ch ';', ch '{', ch '}']

theorem stops_cons (hx : x ∈ [ch '"', ch ';', ch '{', ch '}']) (u : List UInt8) : Stops (x :: u) := by
  intro y hy
  rw [List.head?_cons, Option.mem_some_iff] at hy
  exact hy ▸ hx

theorem skipFrom_stop (hu : Stops u) : Place.skipFrom .blank u l = ⟨u, l⟩ := by
  rcases u with _ | ⟨x, u⟩
  · rfl
  · have hx := hu x rfl
    simp only [List.mem_cons, List.not_mem_nil, or_false] at hx
    rcases hx with rfl | rfl | rfl | rfl <;> simp +decide [Place.skipFrom]

theorem skip_gap (hg : Gap EndsLine g) (hu : Stops u) (h₀ : 0 < l) (h : l + newlines g ≤ 2147483647) :
    Place.skip ⟨g ++ u, l⟩ = ⟨u, l + newlines g⟩ := by
  rw [Place.skip, skipFrom_gap hg h₀ h, skipFrom_stop hu]

/-! ## Strings are decoded -/

theorem escape_cons (x : UInt8) (s : List UInt8) :
    escape (x :: s) = (if x = ch '"' ∨ x = ch '\\' then [ch '\\', x] else [x]) ++ escape s := List.flatMap_cons

theorem decode_stop (u : List UInt8) : Place.decode (ch '"' :: u) = ([], ch '"' :: u) := by
  cases u <;> simp [Place.decode]

theorem decode_escaped (hx : x = ch '"' ∨ x = ch '\\') (u : List UInt8) :
    Place.decode (ch '\\' :: x :: u) = (x :: (Place.decode u).1, (Place.decode u).2) := by
  rw [Place.decode, if_neg (by decide), if_pos ⟨rfl, hx⟩]

theorem decode_plain (hx : ¬ EndsLine x) (hesc : ¬ (x = ch '"' ∨ x = ch '\\')) (hu : u ≠ []) :
    Place.decode (x :: u) = (x :: (Place.decode u).1, (Place.decode u).2) := by
  rw [EndsLine, not_or] at hx
  rw [not_or] at hesc
  obtain ⟨y, u, rfl⟩ := List.exists_cons_of_ne_nil hu
  have hstop : ¬ (x = ch '\r' ∨ x = ch '\n' ∨ x = ch '"') := fun h => h.elim hx.2 fun h => h.elim hx.1 hesc.1
  rw [Place.decode, if_neg hstop, if_neg fun h => hesc.2 h.1]

/-- What was escaped is decoded up to the quotation mark that closes. -/
theorem decode_escape {s : List UInt8} (hs : ∀ x ∈ s, ¬ EndsLine x) :
    Place.decode (escape s ++ ch '"' :: u) = (s, ch '"' :: u) := by
  induction s with
  | nil => exact decode_stop u
  | cons x s ih =>
    have ih := ih fun y hy => hs y (List.mem_cons_of_mem _ hy)
    rw [escape_cons, List.append_assoc]
    split_ifs with hesc
    · rw [List.cons_append, List.singleton_append, decode_escaped hesc, ih]
    · rw [List.singleton_append, decode_plain (hs x (List.mem_cons_self ..)) hesc (by simp), ih]

theorem newlines_quote (hn : OneLine n) : newlines (quote n) = 0 := by
  rw [newlines, List.count_eq_zero, quote, List.mem_cons, List.mem_append, List.mem_singleton]
  rintro (h | h | h)
  · exact absurd h (by decide)
  · obtain ⟨x, hx, h⟩ := List.mem_flatMap.1 h
    have hline := hn x hx
    split_ifs at h
    · rcases List.mem_cons.1 h with h | h
      · exact absurd h (by decide)
      · exact hline (Or.inl (List.mem_singleton.1 h).symm)
    · exact hline (Or.inl (List.mem_singleton.1 h).symm)
  · exact absurd h (by decide)

/-- **A quoted string is read back.** -/
theorem value_quote (hn : OneLine n) (hg : Gap EndsLine g) (hu : Stops u) (h₀ : 0 < l)
    (h : l + newlines g ≤ 2147483647) :
    Place.value ⟨quote n ++ (g ++ u), l⟩ = some (some n, 0, ⟨u, l + newlines g⟩) := by
  have htext : quote n ++ (g ++ u) = ch '"' :: (escape n.bytes ++ ch '"' :: (g ++ u)) := by
    rw [quote, List.cons_append, List.append_assoc, List.singleton_append]
  have hstring : stringOf n.bytes = n := CString.ext (stringOf_bytes n.nul_free)
  rw [htext, Place.value]
  simp only [List.head?_cons, if_true, Place.quoted, List.tail_cons, decode_escape hn, hstring, skip_gap hg hu h₀ h]

/-! ## An entry is read -/

/-- The entry that was read is the one that was written. -/
def Written (x : CString × Option CString) (e : Node) : Prop := e.varname = x.1 ∧ e.vardata = x.2

variable {x : CString × Option CString} {r r' : Reader}

theorem not_errored (h₀ : 0 < l) : ¬ (⟨u, l⟩ : Place).errored := not_le.2 h₀

theorem afterName_zero (r : Reader) (w : CString) : r.afterName w 0 = r.readData w := by
  simp +decide [Reader.afterName]

theorem afterName_reads (hc : c = ch ';' ∨ c = ch '{') (r : Reader) (w : CString) :
    r.afterName w c = some (.on (if c = ch '{' then r.openSection else r)) := by
  rcases hc with rfl | rfl <;> simp +decide [Reader.afterName]

theorem afterData_reads (hc : c = ch ';' ∨ c = ch '{') {w : CString}
    (hinc : c = ch ';' → sections r.entries = [] → CString.strcasecmp w includeName ≠ 0) :
    r.afterData w v c = .on (if c = ch '{' then r.openSection else r) := by
  rcases hc with rfl | rfl
  · rw [Reader.afterData, if_neg (by decide), if_pos rfl, Reader.directive,
      if_neg fun h => hinc rfl h.1 h.2, if_neg (by decide)]
  · rw [Reader.afterData, if_pos rfl, if_pos rfl]

theorem delimiter_reads (hc : c = ch ';' ∨ c = ch '{') : Place.delimiter ⟨c :: t, l⟩ 0 = (c, ⟨t, l⟩) := by
  have hc' : c = ch '{' ∨ c = ch ';' := hc.symm
  simp [Place.delimiter, hc']

/-- **An entry is read** up to what ends it. -/
theorem readEntry_heads (entries : List (Frame Node)) (t : List UInt8) (hx : Heads EndsLine x h)
    (hg : Gap EndsLine g) (hc : c = ch ';' ∨ c = ch '{') (h₀ : 0 < l) (hl : l + newlines (h ++ g) ≤ 2147483647)
    (hinc : c = ch ';' → sections entries = [] → x.2 ≠ none → CString.strcasecmp x.1 includeName ≠ 0) :
    ∃ e, Written x e ∧ Reader.readEntry ⟨⟨h ++ (g ++ c :: t), l⟩, entries⟩ = some (.on
      (if c = ch '{' then ⟨⟨t, l + newlines (h ++ g)⟩, .child e :: entries⟩
        else ⟨⟨t, l + newlines (h ++ g)⟩, .sibling .nil e :: entries⟩)) := by
  have hstop : Stops (c :: t) := stops_cons (by simp; tauto) t
  cases hx with
  | @name n hn =>
    rw [newlines_append, newlines_quote hn, Nat.zero_add] at hl ⊢
    have hval := value_quote hn hg hstop h₀ hl
    have herr := not_errored (u := c :: t) (show 0 < l + newlines g by omega)
    refine ⟨⟨l + newlines g, n, none, 0⟩, ⟨rfl, rfl⟩, ?_⟩
    rw [Reader.readEntry]
    simp only [hval, Option.bind_eq_bind, Option.bind_some, if_neg herr, Reader.newEntry, delimiter_reads hc,
      afterName_reads hc, Reader.openSection, opened]
  | @value n v g' hn hv hg' =>
    rw [newlines_append, newlines_append, newlines_append, newlines_quote hn, newlines_quote hv, Nat.zero_add,
      Nat.add_zero] at hl ⊢
    push_cast at hl ⊢
    have hval := value_quote hn hg' (u := quote v ++ (g ++ c :: t)) (stops_cons (by decide) _) h₀ (by omega)
    have hval' := value_quote hv hg hstop (l := l + newlines g') (by omega) (by omega)
    have herr := not_errored (u := quote v ++ (g ++ c :: t)) (show 0 < l + newlines g' by omega)
    have herr' := not_errored (u := c :: t) (show 0 < l + newlines g' + newlines g by omega)
    have hdel : Place.delimiter ⟨quote v ++ (g ++ c :: t), l + newlines g'⟩ 0 =
        (0, ⟨quote v ++ (g ++ c :: t), l + newlines g'⟩) := by
      simp +decide [Place.delimiter, quote]
    refine ⟨⟨l + newlines g', n, some v, 0⟩, ⟨rfl, rfl⟩, ?_⟩
    rw [Reader.readEntry, List.append_assoc, List.append_assoc]
    simp only [hval, Option.bind_eq_bind, Option.bind_some, if_neg herr, Reader.newEntry, hdel, afterName_zero]
    rw [Reader.readData]
    simp only [hval', Option.bind_eq_bind, Option.bind_some, if_neg herr', delimiter_reads hc, onTop]
    rw [afterData_reads hc fun h h' => hinc h h' (by simp)]
    split_ifs <;> simp [Reader.openSection, opened, add_assoc]

theorem heads_cons (hx : Heads EndsLine x h) : ∃ t, h = ch '"' :: t := by
  cases hx with
  | name => exact ⟨_, rfl⟩
  | value => exact ⟨_, rfl⟩

/-- A turn of the loop after which it goes on. -/
def Step (r r' : Reader) : Prop := r.turn = some (.on r')

theorem Step.rest_ne_nil (h : Step r r') : r.place.rest ≠ [] := by
  have hlt := (turn_within h rfl).2
  exact fun hnil => by
    rw [hnil] at hlt
    exact absurd hlt (Nat.not_lt_zero _)

/-- The turn that reads a name, and a value if there is one. -/
theorem turn_heads {g' : List UInt8} (entries : List (Frame Node)) (t : List UInt8) (hg : Gap EndsLine g)
    (hx : Heads EndsLine x h) (hg' : Gap EndsLine g') (hc : c = ch ';' ∨ c = ch '{') (h₀ : 0 < l)
    (hl : l + newlines (g ++ (h ++ g')) ≤ 2147483647)
    (hinc : c = ch ';' → sections entries = [] → x.2 ≠ none → CString.strcasecmp x.1 includeName ≠ 0) :
    ∃ e, Written x e ∧ Step ⟨⟨g ++ (h ++ (g' ++ c :: t)), l⟩, entries⟩
      (if c = ch '{' then ⟨⟨t, l + newlines (g ++ (h ++ g'))⟩, .child e :: entries⟩
        else ⟨⟨t, l + newlines (g ++ (h ++ g'))⟩, .sibling .nil e :: entries⟩) := by
  rw [newlines_append] at hl ⊢
  push_cast at hl ⊢
  obtain ⟨e, he, hread⟩ := readEntry_heads entries t (l := l + newlines g) hx hg' hc
    (by omega) (by omega) hinc
  refine ⟨e, he, ?_⟩
  obtain ⟨u, rfl⟩ := heads_cons hx
  have hskip : Place.skip ⟨g ++ (ch '"' :: u ++ (g' ++ c :: t)), l⟩ = ⟨ch '"' :: u ++ (g' ++ c :: t), l + newlines g⟩ :=
    skip_gap hg (stops_cons (by decide) _) h₀ (by omega)
  rw [Step, Reader.turn]
  simp only [hskip]
  rw [if_neg (by rw [not_or]; exact ⟨by simp, not_errored (by omega)⟩), if_neg (by simp +decide), hread, add_assoc]

/-- The turn that reads a closing brace. -/
theorem turn_close {g' : List UInt8} {e : Node} (entries : List (Frame Node)) (s' : BinTree Node) (t : List UInt8)
    (he : Written x e) (hg : Gap EndsLine g) (hg' : Gap EndsLine g') (h₀ : 0 < l)
    (hl : l + newlines (g ++ g') ≤ 2147483647) :
    ∃ e', Written x e' ∧ Step ⟨⟨g ++ ch '}' :: (g' ++ ch ';' :: t), l⟩, extend (.child e :: entries) s'⟩
      ⟨⟨t, l + newlines (g ++ g')⟩, .sibling s' e' :: entries⟩ := by
  rw [newlines_append] at hl ⊢
  push_cast at hl ⊢
  have hskip : Place.skip ⟨g ++ ch '}' :: (g' ++ ch ';' :: t), l⟩ = ⟨ch '}' :: (g' ++ ch ';' :: t), l + newlines g⟩ :=
    skip_gap hg (stops_cons (by decide) _) h₀ (by omega)
  have hskip' : Place.skip ⟨g' ++ ch ';' :: t, l + newlines g⟩ = ⟨ch ';' :: t, l + newlines g + newlines g'⟩ :=
    skip_gap hg' (stops_cons (by decide) _) (by omega) (by omega)
  have hshut : shut (extend (.child e :: entries) s') .nil = some (.sibling s' e :: entries) := shut_extend _ _
  refine ⟨{ e with sectlinenum := l + newlines g }, he, ?_⟩
  rw [Step, Reader.turn]
  simp only [hskip]
  rw [if_neg (by rw [not_or]; exact ⟨by simp, not_errored (by omega)⟩), if_pos List.head?_cons,
    Reader.closeSection]
  simp only [hshut, List.tail_cons, hskip', onTop]
  rw [if_neg (not_errored (by omega)), if_pos List.head?_cons, add_assoc]

/-- **The entries of a text are read**, whatever stands before them. -/
theorem Renders.steps {f : ConfigForest} (hf : Renders EndsLine f t) (entries : List (Frame Node)) (hu : Stops u)
    (h₀ : 0 < l) (hl : l + newlines t ≤ 2147483647) (hinc : sections entries = [] → NoInclude f) :
    ∃ g f' l', Gap EndsLine g ∧ Rel Written f f' ∧ 0 < l' ∧ l' + newlines g = l + newlines t ∧
      ReflTransGen Step ⟨⟨t ++ u, l⟩, entries⟩ ⟨⟨g ++ u, l'⟩, extend entries f'⟩ := by
  induction hf generalizing u l entries with
  | @nil g hg => exact ⟨g, .nil, l, hg, trivial, h₀, rfl, .refl⟩
  | @entry x r g h g' t hg hx hg' _ ih =>
    have hcount : newlines (g ++ (h ++ (g' ++ ch ';' :: t))) = newlines (g ++ (h ++ g')) + newlines t := by
      simp +decide [Nat.add_assoc]
    rw [hcount] at hl ⊢
    push_cast at hl ⊢
    obtain ⟨e, he, hstep⟩ := turn_heads entries (t ++ u) hg hx hg' (Or.inl rfl) h₀ (by omega)
      fun _ htop => (hinc htop).1 rfl
    rw [if_neg (by decide)] at hstep
    obtain ⟨g₁, r', l', hg₁, hr', h₀', hl', hsteps⟩ := ih (.sibling .nil e :: entries)
      (l := l + newlines (g ++ (h ++ g'))) hu (by omega) (by omega) fun htop => (hinc htop).2
    refine ⟨g₁, .node .nil e r', l', hg₁, ⟨trivial, he, hr'⟩, h₀', by omega, .head ?_ hsteps⟩
    simpa using hstep
  | @block x lf r g h g' s g'' t hg hx hg' _ hg'' _ ihl ihr =>
    have hcount : newlines (g ++ (h ++ (g' ++ ch '{' :: (s ++ ch '}' :: (g'' ++ ch ';' :: t))))) =
        newlines (g ++ (h ++ g')) + newlines s + newlines g'' + newlines t := by
      simp +decide [Nat.add_assoc]
    rw [hcount] at hl ⊢
    push_cast at hl ⊢
    obtain ⟨e, he, hstep⟩ := turn_heads entries (s ++ ch '}' :: (g'' ++ ch ';' :: (t ++ u))) hg hx hg'
      (Or.inr rfl) h₀ (by omega) fun hc => absurd hc (by decide)
    rw [if_pos rfl] at hstep
    obtain ⟨g₁, s', l₁, hg₁, hs', h₀₁, hl₁, hsteps₁⟩ := ihl (.child e :: entries)
      (u := ch '}' :: (g'' ++ ch ';' :: (t ++ u))) (l := l + newlines (g ++ (h ++ g'))) (stops_cons (by decide) _)
      (by omega) (by omega) fun htop => by cases htop
    obtain ⟨e', he', hclose⟩ := turn_close entries s' (t ++ u) he hg₁ hg'' h₀₁
      (by rw [newlines_append]; push_cast; omega)
    rw [newlines_append] at hclose
    push_cast at hclose
    obtain ⟨g₂, r', l', hg₂, hr', h₀', hl', hsteps⟩ := ihr (.sibling s' e' :: entries)
      (l := l₁ + (newlines g₁ + newlines g'')) hu (by omega) (by omega) fun htop => (hinc htop).2
    refine ⟨g₂, .node s' e' r', l', hg₂, ⟨hs', he', hr'⟩, h₀', by omega, .head ?_ (hsteps₁.trans (.head hclose hsteps))⟩
    simpa using hstep

end Confparse

end Mowgli
