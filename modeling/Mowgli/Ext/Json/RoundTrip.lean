import Mowgli.Base.Formatter.Decimal
import Mowgli.Ext.Json.Acceptance
import Mowgli.Ext.Json.Members
import Mowgli.Ext.Json.Serializer
/-!
# What is written is read back

The lexemes of what is written of a value are those of its terminals with
spaces between them, whatever the indentation; the terminals derive the value,
and the text is nested as deep as the value is. So a container is read back
exactly if it can be written.
-/

namespace Mowgli

namespace Json

open Parse

/-! ## The lexemes that are written -/

/-- `serialize_pretty_indent`. -/
def indentLexemes (pretty : ℤ) : List Lexeme := (List.replicate pretty.toNat (List.replicate 4 (.space (ch ' ')))).flatten

/-- `serialize_pretty_break`. -/
def breakLexemes (pretty : ℤ) : List Lexeme := if pretty < 1 then [] else [.space (ch '\n')]

/-- The level after `pretty`, be it an `int` or not. -/
def levelAfter (pretty : ℤ) : ℤ := if 0 < pretty then pretty + 1 else 0

/-- The comma behind an element, if there are others behind it. -/
def commaLexemes {α : Type} (l : List α) : List Lexeme := if l ≠ [] then [.easy (ch ',')] else []

def stringLexeme (p : List UInt8) : Lexeme := .string (p.flatMap serializeChar)

/-- The lexemes behind a key. -/
def colonLexemes (pretty : ℤ) : List Lexeme :=
  .easy (ch ':') :: if pretty ≠ 0 then [.space (ch ' ')] else []

mutual

/-- The lexemes of a value. -/
def Value.lexemes : Value → ℤ → List Lexeme
  | .bool true, _ => [.identifier (chars "true")]
  | .bool false, _ => [.identifier (chars "false")]
  | .int z, _ => [.number (Formatter.decimal z).bytes]
  | .string bytes, _ => [stringLexeme bytes]
  | .array l, pretty => [.easy (ch '[')] ++ (breakLexemes pretty ++ (elementLexemes l pretty ++
      (indentLexemes (pretty - 1) ++ [.easy (ch ']')])))
  | .object m, pretty => [.easy (ch '\x7b')] ++ (breakLexemes pretty ++ (memberLexemes m pretty ++
      (indentLexemes (pretty - 1) ++ [.easy (ch '\x7d')])))
  | _, _ => [.identifier (chars "null")]

def elementLexemes : List Value → ℤ → List Lexeme
  | [], _ => []
  | v :: l, pretty => indentLexemes pretty ++ (v.lexemes (levelAfter pretty) ++ (commaLexemes l ++
      (breakLexemes pretty ++ elementLexemes l pretty)))

def memberLexemes : List (CString × Value) → ℤ → List Lexeme
  | [], _ => []
  | (key, v) :: m, pretty => indentLexemes pretty ++ ([stringLexeme key.bytes] ++ (colonLexemes pretty ++
      (v.lexemes (levelAfter pretty) ++ (commaLexemes m ++ (breakLexemes pretty ++ memberLexemes m pretty)))))

end

/-- The comma as a terminal. -/
def commaTerminals {α : Type} (l : List α) : List Terminal := if l ≠ [] then [.valueSep] else []

mutual

/-- The terminals of a value. -/
def Value.terminals : Value → List Terminal
  | .bool b => [.bool b]
  | .int z => [.int z]
  | .string bytes => [.string bytes]
  | .array l => .beginArray :: (elementTerminals l ++ [.endArray])
  | .object m => .beginObject :: (memberTerminals m ++ [.endObject])
  | _ => [.null]

def elementTerminals : List Value → List Terminal
  | [] => []
  | v :: l => v.terminals ++ (commaTerminals l ++ elementTerminals l)

def memberTerminals : List (CString × Value) → List Terminal
  | [] => []
  | (key, v) :: m => .string key.bytes :: .nameSep :: (v.terminals ++ (commaTerminals m ++ memberTerminals m))

end

/-! ## Reading them -/

section

variable {s s' : List UInt8} {k k' : ℕ} {l l' : List Lexeme} {ts ts' : List Terminal} {c : UInt8} {p : List UInt8}
  {pretty : ℤ} {v : Value}

/-- A text goes so far down, and comes up again. -/
def Balanced (k : ℕ) (s : List UInt8) : Prop :=
  ∀ n r, nestingFrom .plain n (s ++ r) ≤ max (n + k) (nestingFrom .plain n r)

theorem Balanced.nesting_le (h : Balanced k s) : nesting s ≤ k := by
  have hle := h 0 []
  rw [List.append_nil, show nestingFrom .plain 0 [] = 0 from rfl] at hle
  exact hle.trans (by omega)

theorem Balanced.append (h : Balanced k s) (h' : Balanced k s') : Balanced k (s ++ s') := by
  intro n r
  have hs := h n (s' ++ r)
  have hs' := h' n r
  rw [List.append_assoc]
  omega

theorem balanced_nil : Balanced k [] := fun _ _ => le_max_right _ _

/-- A character that opens and closes nothing. -/
def Inert (c : UInt8) : Prop := c ∉ chars "\"\x7b\x7d[]"

instance : DecidablePred Inert := fun c => inferInstanceAs (Decidable (c ∉ chars "\"\x7b\x7d[]"))

theorem balanced_of_inert (h : ∀ c ∈ s, Inert c) : Balanced k s := by
  induction s with
  | nil => exact balanced_nil
  | cons c s ih =>
    rw [List.forall_mem_cons] at h
    have hne : ∀ d ∈ chars "\"\x7b\x7d[]", c ≠ d := fun d hd hcd => h.1 (hcd ▸ hd)
    have hone : Balanced k [c] := by
      intro n r
      rw [List.singleton_append, nestingFrom, Mode.next, if_neg (hne _ (by decide)), Mode.depth,
        if_neg (by simp [hne _ (show ch '\x7b' ∈ chars "\"\x7b\x7d[]" by decide),
          hne _ (show ch '[' ∈ chars "\"\x7b\x7d[]" by decide)]),
        if_neg (by simp [hne _ (show ch '\x7d' ∈ chars "\"\x7b\x7d[]" by decide),
          hne _ (show ch ']' ∈ chars "\"\x7b\x7d[]" by decide)])]
      omega
    exact hone.append (ih h.2)

/-- A container. -/
theorem Balanced.enclosed {o e : UInt8} (ho : o = ch '\x7b' ∨ o = ch '[') (he : e = ch '\x7d' ∨ e = ch ']')
    (h : Balanced k s) : Balanced (k + 1) ([o] ++ (s ++ [e])) := by
  intro n r
  have hin := h (n + 1) ([e] ++ r)
  have hopen : nestingFrom .plain n ([o] ++ (s ++ ([e] ++ r))) = max n (nestingFrom .plain (n + 1) (s ++ ([e] ++ r))) := by
    rcases ho with rfl | rfl <;> rfl
  have hclose : nestingFrom .plain (n + 1) ([e] ++ r) = max (n + 1) (nestingFrom .plain n r) := by
    rcases he with rfl | rfl <;> rfl
  rw [List.append_assoc, List.append_assoc, hopen]
  omega

/-- In a string nothing is opened or closed. -/
theorem nestingFrom_string {m m' : Mode} (hm : m ≠ .plain) (h : inString m p = some m') (n : ℕ) (r : List UInt8) :
    nestingFrom m n (p ++ r) = nestingFrom m' n r := by
  induction p generalizing m with
  | nil =>
    cases h
    rfl
  | cons c p ih =>
    rw [inString] at h
    split_ifs at h with hquote
    have hdepth : m.depth c n = n := by
      cases m with
      | plain => exact absurd rfl hm
      | _ => rfl
    have hnext : m.next c ≠ .plain := by
      cases m with
      | plain => exact absurd rfl hm
      | string =>
        rw [Mode.next, if_neg fun hc => hquote ⟨rfl, hc⟩]
        split_ifs <;> decide
      | escape | unicode =>
        rw [Mode.next]
        split_ifs <;> simp
    rw [List.cons_append, nestingFrom, hdepth, ih hnext h]
    exact max_eq_right (le_nestingFrom _ _ _)

theorem balanced_string (h : inString .string p = some .string) : Balanced k (Lexeme.string p).text := by
  intro n r
  have hopen : nestingFrom .plain n ((Lexeme.string p).text ++ r) =
      max n (nestingFrom .string n (p ++ ([ch '"'] ++ r))) := by
    rw [Lexeme.text, List.cons_append, List.append_assoc]
    rfl
  have hclose : nestingFrom .string n ([ch '"'] ++ r) = max n (nestingFrom .plain n r) := rfl
  rw [hopen, nestingFrom_string (by decide) h, hclose]
  omega

/-- Some lexemes are read as some terminals, and go so far down. -/
structure Reads (l : List Lexeme) (ts : List Terminal) (k : ℕ) : Prop where
  scanned : ∀ x ∈ l, x.Scanned
  terminals : terminals l = ts
  balanced : Balanced k (textOf l)
  nul_free : 0 ∉ textOf l

theorem Reads.append (h : Reads l ts k) (h' : Reads l' ts' k) : Reads (l ++ l') (ts ++ ts') k where
  scanned x hx := (List.mem_append.1 hx).elim (h.scanned x) (h'.scanned x)
  terminals := by rw [terminals_append, h.terminals, h'.terminals]
  balanced := by
    rw [textOf, List.flatMap_append]
    exact h.balanced.append h'.balanced
  nul_free := by
    rw [textOf, List.flatMap_append, List.mem_append]
    exact fun h0 => h0.elim h.nul_free h'.nul_free

theorem reads_nil : Reads [] [] k := ⟨fun _ hx => absurd hx List.not_mem_nil, rfl, balanced_nil, List.not_mem_nil⟩

/-- One lexeme that opens and closes nothing. -/
theorem reads_chars {x : Lexeme} (hx : x.Scanned) (hc : ∀ c ∈ x.text, c ≠ 0 ∧ Inert c) : Reads [x] (terminals [x]) k where
  scanned y hy := List.mem_singleton.1 hy ▸ hx
  terminals := rfl
  balanced := by
    rw [textOf, List.flatMap_singleton]
    exact balanced_of_inert fun c h => (hc c h).2
  nul_free := by
    rw [textOf, List.flatMap_singleton]
    exact fun h0 => (hc 0 h0).1 rfl

theorem reads_space (hc : c = ch ' ' ∨ c = ch '\n') : Reads [.space c] [] k := by
  rcases hc with rfl | rfl
  · exact reads_chars (x := .space (ch ' ')) rfl (forall_mem_bytes (by decide))
  · exact reads_chars (x := .space (ch '\n')) rfl (forall_mem_bytes (by decide))

theorem reads_indent (pretty : ℤ) : Reads (indentLexemes pretty) [] k := by
  have hone : Reads [.space (ch ' ')] [] k := reads_space (.inl rfl)
  have htab : Reads (List.replicate 4 (.space (ch ' '))) [] k := hone.append (hone.append (hone.append hone))
  unfold indentLexemes
  induction pretty.toNat with
  | zero => exact reads_nil
  | succ n ih =>
    rw [List.replicate_succ, List.flatten_cons]
    exact htab.append ih

theorem reads_break (pretty : ℤ) : Reads (breakLexemes pretty) [] k := by
  unfold breakLexemes
  split_ifs
  · exact reads_nil
  · exact reads_space (.inr rfl)

theorem reads_comma {α : Type} (l : List α) : Reads (commaLexemes l) (commaTerminals l) k := by
  unfold commaLexemes commaTerminals
  split_ifs
  · exact reads_chars (x := .easy (ch ',')) rfl (forall_mem_bytes (by decide))
  · exact reads_nil

theorem reads_colon (pretty : ℤ) : Reads (colonLexemes pretty) [.nameSep] k := by
  have hcolon : Reads [.easy (ch ':')] [.nameSep] k := reads_chars (x := .easy (ch ':')) rfl (forall_mem_bytes (by decide))
  unfold colonLexemes
  split_ifs
  · exact hcolon.append (reads_space (.inl rfl))
  · exact hcolon

theorem letter_inert : ∀ c : UInt8, isAlpha c = true → c ≠ 0 ∧ Inert c := forall_uint8 (by decide +kernel)

theorem reads_identifier {w : List UInt8} (hw : w ∈ [chars "null", chars "true", chars "false"]) :
    Reads [.identifier w] [Lexeme.identifierTerminal w] k := by
  have hall : w ≠ [] ∧ ∀ c ∈ w, isAlpha c = true := by
    simp only [List.mem_cons, List.not_mem_nil, or_false] at hw
    rcases hw with rfl | rfl | rfl <;> exact ⟨by decide, forall_mem_bytes (by decide)⟩
  exact reads_chars (x := .identifier w) hall fun c hc => letter_inert c (hall.2 c hc)

/-- **A string is read back.** -/
theorem reads_string (h0 : 0 ∉ p) : Reads [stringLexeme p] [.string p] k where
  scanned x hx := List.mem_singleton.1 hx ▸ inString_serialize p
  terminals := by
    have hfilter : p.filter (· ≠ 0) = p := List.filter_eq_self.2 fun c hc => by
      simpa using fun hc0 : c = 0 => h0 (hc0 ▸ hc)
    have hbytes : (lexStringScan .create (p.flatMap serializeChar)).bytes = p := by
      rw [lexStringScan_serialize, hfilter]
      exact MowgliString.appendAll_bytes (by exact h0)
    show [Terminal.string (lexStringScan .create (p.flatMap serializeChar)).bytes] = _
    rw [hbytes]
  balanced := by
    rw [textOf, List.flatMap_singleton]
    exact balanced_string (inString_serialize p)
  nul_free := by
    have hquote : (0 : UInt8) ≠ ch '"' := by decide
    rw [textOf, List.flatMap_singleton]
    simp only [stringLexeme, Lexeme.text, List.mem_cons, List.mem_append, List.not_mem_nil, or_false, hquote, false_or]
    exact nul_not_mem_serialize h0

/-- The characters of an integer. -/
theorem digit_inert : ∀ c : UInt8, c = ch '-' ∨ isDigit c = true →
    (c ≠ 0 ∧ Inert c) ∧ beginsNumber c = true ∧ inNumber c = true ∧ c ≠ ch '.' ∧ c ≠ ch 'e' :=
  forall_uint8 (by decide +kernel)

/-- **An integer is read back.** -/
theorem reads_int {z : ℤ} (hlow : -2147483648 ≤ z) (hhigh : z ≤ 2147483647) :
    Reads [.number (Formatter.decimal z).bytes] [.int z] k := by
  have hall : ∀ c ∈ (Formatter.decimal z).bytes, c = ch '-' ∨ isDigit c = true := by
    intro c hc
    rcases List.mem_append.1 hc with hc | hc
    · split_ifs at hc
      · exact .inl (List.mem_singleton.1 hc)
      · exact absurd hc List.not_mem_nil
    · obtain ⟨d, hd, rfl⟩ := List.mem_map.1 hc
      exact .inr (Formatter.isDigit_ch (Nat.isDigit_of_mem_toDigits (by decide) (by decide) hd))
  have hne : (Formatter.decimal z).bytes ≠ [] := by
    intro hnil
    exact Nat.toDigits_ne_nil (List.map_eq_nil_iff.1 (List.append_eq_nil_iff.1 hnil).2)
  have hscan : (Lexeme.number (Formatter.decimal z).bytes).Scanned := by
    refine ⟨?_, fun c hc => (digit_inert c (hall c hc)).2.2.1⟩
    obtain ⟨c, w, hw⟩ := List.exists_cons_of_ne_nil hne
    rw [hw]
    exact (digit_inert c (hall c (hw ▸ List.mem_cons_self))).2.1
  have hint : Lexeme.numberTerminal (Formatter.decimal z).bytes = .int z := by
    rw [Lexeme.numberTerminal, if_neg, Formatter.strtol_decimal, toInt_of_range hlow hhigh]
    · rw [toLong]
      omega
    · rintro (hdot | he)
      · exact (digit_inert _ (hall _ hdot)).2.2.2.1 rfl
      · exact (digit_inert _ (hall _ he)).2.2.2.2 rfl
  have hreads := reads_chars (k := k) hscan fun c hc => (digit_inert c (hall c hc)).1
  rwa [show terminals [Lexeme.number (Formatter.decimal z).bytes] = [.int z] from congrArg (fun t => [t]) hint] at hreads

/-- A container with what is in it. -/
theorem Reads.enclosed {o e : UInt8} {t t' : Terminal} (ho : o = ch '\x7b' ∨ o = ch '[') (he : e = ch '\x7d' ∨ e = ch ']')
    (ht : easyTerminal o = some t) (ht' : easyTerminal e = some t') (h : Reads l ts k) :
    Reads ([.easy o] ++ (l ++ [.easy e])) (t :: (ts ++ [t'])) (k + 1) where
  scanned x hx := by
    simp only [List.mem_append, List.mem_singleton] at hx
    rcases hx with rfl | hx | rfl
    · exact Option.isSome_of_eq_some ht
    · exact h.scanned x hx
    · exact Option.isSome_of_eq_some ht'
  terminals := by
    have hopen : Json.terminals [.easy o] = [t] := by simp [Json.terminals, Lexeme.terminal, ht]
    have hclose : Json.terminals [.easy e] = [t'] := by simp [Json.terminals, Lexeme.terminal, ht']
    rw [terminals_append, terminals_append, hopen, hclose, h.terminals]
    rfl
  balanced := by
    have htext : textOf ([.easy o] ++ (l ++ [.easy e])) = [o] ++ (textOf l ++ [e]) := by
      simp [textOf, Lexeme.text]
    rw [htext]
    exact h.balanced.enclosed ho he
  nul_free := by
    have hopen : (0 : UInt8) ≠ o := by rcases ho with rfl | rfl <;> decide
    have hclose : (0 : UInt8) ≠ e := by rcases he with rfl | rfl <;> decide
    have hin := h.nul_free
    simp only [textOf, List.mem_flatMap, not_exists, not_and] at hin
    simp only [textOf, List.mem_flatMap, List.mem_append, List.mem_singleton, not_exists, not_and]
    rintro x (rfl | hx | rfl)
    · simpa [Lexeme.text] using hopen
    · exact hin x hx
    · simpa [Lexeme.text] using hclose

end

/-! ## Values -/

section

variable {k : ℕ} {pretty : ℤ} {v : Value} {l : List Value} {m : List (CString × Value)}

theorem one_le_elementsHeight (l : List Value) : 1 ≤ elementsHeight 1 l := by
  cases l with
  | nil => exact le_rfl
  | cons v l => exact le_max_of_le_left (Nat.le_add_left 1 _)

theorem one_le_membersHeight (m : List (CString × Value)) : 1 ≤ membersHeight 1 m := by
  cases m with
  | nil => exact le_rfl
  | cons e m => exact le_max_of_le_left (Nat.le_add_left 1 _)

theorem reads_elements (hl : ∀ v ∈ l, ∀ {pretty : ℤ} {k : ℕ}, v.depth ≤ k → Reads (v.lexemes pretty) v.terminals k)
    (hk : elementsHeight 1 l ≤ k + 1) : Reads (elementLexemes l pretty) (elementTerminals l) k := by
  induction l with
  | nil => exact reads_nil
  | cons v l ih =>
    rw [List.forall_mem_cons] at hl
    rw [elementsHeight, max_le_iff] at hk
    have hv : Reads (v.lexemes (levelAfter pretty)) v.terminals k := hl.1 (Nat.le_of_succ_le_succ hk.1)
    exact (reads_indent pretty).append (hv.append ((reads_comma l).append ((reads_break pretty).append (ih hl.2 hk.2))))

theorem reads_members (hm : ∀ e ∈ m, ∀ {pretty : ℤ} {k : ℕ}, e.2.depth ≤ k → Reads (e.2.lexemes pretty) e.2.terminals k)
    (hk : membersHeight 1 m ≤ k + 1) : Reads (memberLexemes m pretty) (memberTerminals m) k := by
  induction m with
  | nil => exact reads_nil
  | cons e m ih =>
    obtain ⟨key, v⟩ := e
    rw [List.forall_mem_cons] at hm
    rw [membersHeight, max_le_iff] at hk
    have hv : Reads (v.lexemes (levelAfter pretty)) v.terminals k := hm.1 (Nat.le_of_succ_le_succ hk.1)
    have hrest := (reads_comma m).append ((reads_break pretty).append (ih hm.2 hk.2))
    exact (reads_indent pretty).append ((reads_string key.nul_free).append ((reads_colon pretty).append (hv.append hrest)))

/-- **The lexemes of a value are read as its terminals**, whatever the
indentation. -/
theorem Tree.reads (ht : Tree v) {pretty : ℤ} {k : ℕ} (hk : v.depth ≤ k) : Reads (v.lexemes pretty) v.terminals k := by
  induction ht generalizing pretty k with
  | null => exact reads_identifier List.mem_cons_self
  | bool b => cases b <;> exact reads_identifier (by decide)
  | int hlow hhigh => exact reads_int hlow hhigh
  | string h0 => exact reads_string h0
  | @array l _ ih =>
    obtain ⟨k, rfl⟩ := Nat.exists_eq_add_of_le' ((one_le_elementsHeight l).trans hk)
    have hl : Reads (elementLexemes l pretty) (elementTerminals l) k := reads_elements (fun v hv => ih v hv) hk
    have hall := ((reads_break pretty).append (hl.append (reads_indent (pretty - 1)))).enclosed (.inr rfl) (.inr rfl) rfl rfl
    simpa only [Value.lexemes, Value.terminals, List.append_assoc, List.nil_append, List.append_nil] using hall
  | @object m _ _ ih =>
    obtain ⟨k, rfl⟩ := Nat.exists_eq_add_of_le' ((one_le_membersHeight m).trans hk)
    have hm : Reads (memberLexemes m pretty) (memberTerminals m) k := reads_members (fun e he => ih e he) hk
    have hall := ((reads_break pretty).append (hm.append (reads_indent (pretty - 1)))).enclosed (.inl rfl) (.inl rfl) rfl rfl
    simpa only [Value.lexemes, Value.terminals, List.append_assoc, List.nil_append, List.append_nil] using hall

theorem derives_elements (hl : ∀ v ∈ l, Derives .value v.terminals (.value v)) (hne : l ≠ []) :
    Derives .arrElems (elementTerminals l ++ [.endArray]) (.elements l) := by
  induction l with
  | nil => exact absurd rfl hne
  | cons v l ih =>
    rw [List.forall_mem_cons] at hl
    have htail : Derives .arrTail (commaTerminals l ++ elementTerminals l ++ [.endArray]) (.elements l) := by
      by_cases hnil : l = []
      · subst hnil
        exact .rule20
      · rw [commaTerminals, if_pos hnil]
        exact .rule19 (ih hl.2 hnil)
    have happ : elementTerminals (v :: l) ++ [.endArray] =
        v.terminals ++ (commaTerminals l ++ elementTerminals l ++ [.endArray]) := by
      rw [elementTerminals, List.append_assoc]
    rw [happ]
    exact .rule18 hl.1 htail

theorem derives_members (hm : ∀ e ∈ m, Derives .value e.2.terminals (.value e.2)) (hne : m ≠ []) :
    Derives .objElems (memberTerminals m ++ [.endObject]) (.members (m.map fun e => (e.1.bytes, e.2))) := by
  induction m with
  | nil => exact absurd rfl hne
  | cons e m ih =>
    obtain ⟨key, v⟩ := e
    rw [List.forall_mem_cons] at hm
    have htail : Derives .objTail (commaTerminals m ++ memberTerminals m ++ [.endObject])
        (.members (m.map fun e => (e.1.bytes, e.2))) := by
      by_cases hnil : m = []
      · subst hnil
        exact .rule13
      · rw [commaTerminals, if_pos hnil]
        exact .rule12 (ih hm.2 hnil)
    have happ : memberTerminals ((key, v) :: m) ++ [.endObject] =
        (.string key.bytes :: .nameSep :: v.terminals) ++ (commaTerminals m ++ memberTerminals m ++ [.endObject]) := by
      rw [memberTerminals, List.cons_append, List.cons_append, List.append_assoc]
      rfl
    rw [happ]
    exact .rule11 (.rule14 hm.1) htail

theorem cString_bytes (key : CString) : cString key.bytes = key := by
  refine CString.ext (List.takeWhile_eq_self_iff.2 fun c hc => ?_)
  rw [decide_eq_true_iff]
  exact fun h0 => key.nul_free (h0 ▸ hc)

/-- The members in the order of their keys are the map that they make. -/
theorem objectOf_sorted (hm : m.Pairwise fun x y => x.1.bytes < y.1.bytes) :
    ObjectOf (m.map fun e => (e.1.bytes, e.2)) m where
  sorted := hm
  mem_iff key v := by
    constructor
    · intro hmem
      obtain ⟨m₁, m₂, rfl⟩ := List.append_of_mem hmem
      refine ⟨m₁.map fun e => (e.1.bytes, e.2), key.bytes, m₂.map fun e => (e.1.bytes, e.2), List.map_append, cString_bytes key, ?_⟩
      intro e he heq
      obtain ⟨x, hx, rfl⟩ := List.mem_map.1 he
      rw [cString_bytes] at heq
      have hlt := (List.pairwise_cons.1 (List.pairwise_append.1 hm).2.1).1 x hx
      rw [heq] at hlt
      exact List.lt_irrefl _ hlt
    · rintro ⟨l₁, name, l₂, heq, rfl, -⟩
      obtain ⟨x, hx, hxe⟩ := List.mem_map.1 (heq ▸ List.mem_append_right l₁ (List.mem_cons_self (a := (name, v)) (l := l₂)))
      obtain ⟨rfl, rfl⟩ := Prod.mk.inj hxe
      rwa [cString_bytes]

/-- **The terminals derive the value.** -/
theorem Tree.derives (ht : Tree v) : Derives .value v.terminals (.value v) := by
  induction ht with
  | null => exact .rule7 rfl rfl
  | bool b => exact .rule7 rfl rfl
  | int => exact .rule6 rfl rfl
  | string => exact .rule5
  | @array l _ ih =>
    refine .rule4 (.rule15 ?_)
    by_cases hnil : l = []
    · subst hnil
      exact .rule16
    · exact .rule17 (derives_elements ih hnil)
  | @object m hsorted _ ih =>
    refine .rule3 (.rule8 (m := m.map fun e => (e.1.bytes, e.2)) ?_ (objectOf_sorted hsorted))
    by_cases hnil : m = []
    · subst hnil
      exact .rule9
    · exact .rule10 (derives_members ih hnil)

end

/-! ## What is written -/

section

variable {σ : Type} {out : JsonOutput σ} {bytes : σ → List UInt8} {strtod : List UInt8 → Double} {priv priv' priv₁ : σ}
  {pretty next : ℤ} {v : Value} {l : List Value} {key : CString} {m : List (CString × Value)} {c : UInt8} {p : List UInt8}
  {x x' : List Lexeme}

/-- An output that keeps what is written to it, if there is no NUL. -/
structure JsonOutput.Keeps (out : JsonOutput σ) (bytes : σ → List UInt8) : Prop where
  append : ∀ {priv : σ} {w : List UInt8}, 0 ∉ bytes priv ++ w → bytes (out.append priv w) = bytes priv ++ w
  appendChar : ∀ {priv : σ} {c : UInt8}, 0 ∉ bytes priv ++ [c] → bytes (out.appendChar priv c) = bytes priv ++ [c]

theorem toStringOutput_keeps : toStringOutput.Keeps MowgliString.bytes where
  append := fun h0 => MowgliString.append_bytes (fun h => h0 (List.mem_append_left _ h)) _
  appendChar := fun h0 => MowgliString.appendChar_bytes (fun h => h0 (List.mem_append_left _ h)) _

/-- Some lexemes have been written, and no NUL. -/
structure Written (bytes : σ → List UInt8) (priv priv' : σ) (x : List Lexeme) : Prop where
  nul_free : 0 ∉ bytes priv'
  bytes_eq : bytes priv' = bytes priv ++ textOf x

theorem Written.trans (h : Written bytes priv priv₁ x) (h' : Written bytes priv₁ priv' x') :
    Written bytes priv priv' (x ++ x') where
  nul_free := h'.nul_free
  bytes_eq := by rw [h'.bytes_eq, h.bytes_eq, List.append_assoc, textOf, textOf, textOf, List.flatMap_append]

theorem written_refl (h0 : 0 ∉ bytes priv) : Written bytes priv priv [] := ⟨h0, (List.append_nil _).symm⟩

theorem JsonOutput.Keeps.write (hk : out.Keeps bytes) (h0 : 0 ∉ bytes priv) {w : List UInt8} (hw : 0 ∉ w)
    (hx : textOf x = w) : Written bytes priv (out.append priv w) x := by
  have hall : 0 ∉ bytes priv ++ w := fun h => (List.mem_append.1 h).elim h0 hw
  have heq := hk.append hall
  exact ⟨heq ▸ hall, hx ▸ heq⟩

theorem JsonOutput.Keeps.writeChar (hk : out.Keeps bytes) (h0 : 0 ∉ bytes priv) (hc : c ≠ 0)
    (hx : textOf x = [c]) : Written bytes priv (out.appendChar priv c) x := by
  have hall : 0 ∉ bytes priv ++ [c] := fun h =>
    (List.mem_append.1 h).elim h0 fun h => hc (List.mem_singleton.1 h).symm
  have heq := hk.appendChar hall
  exact ⟨heq ▸ hall, hx ▸ heq⟩

theorem JsonOutput.Keeps.writeChars (hk : out.Keeps bytes) (h0 : 0 ∉ bytes priv) (hp : 0 ∉ p) :
    bytes (p.foldl out.appendChar priv) = bytes priv ++ p := by
  induction p generalizing priv with
  | nil => exact (List.append_nil _).symm
  | cons c p ih =>
    rw [List.mem_cons, not_or] at hp
    have hc := hk.writeChar (x := [.easy c]) h0 (Ne.symm hp.1) rfl
    rw [List.foldl_cons, ih hc.nul_free hp.2, hc.bytes_eq, List.append_assoc]
    rfl

theorem JsonOutput.Keeps.indent (hk : out.Keeps bytes) (h0 : 0 ∉ bytes priv) (pretty : ℤ) :
    Written bytes priv (serializePrettyIndent out priv pretty) (indentLexemes pretty) := by
  unfold serializePrettyIndent indentLexemes
  induction pretty.toNat generalizing priv with
  | zero => exact written_refl h0
  | succ n ih =>
    have htab := hk.write (w := tabString) (x := List.replicate 4 (.space (ch ' '))) h0 (by decide) rfl
    rw [List.replicate_succ, List.flatten_cons, Function.iterate_succ_apply]
    exact htab.trans (ih htab.nul_free)

theorem JsonOutput.Keeps.break (hk : out.Keeps bytes) (h0 : 0 ∉ bytes priv) (pretty : ℤ) :
    Written bytes priv (serializePrettyBreak out priv pretty) (breakLexemes pretty) := by
  unfold serializePrettyBreak breakLexemes
  split_ifs
  · exact written_refl h0
  · exact hk.writeChar h0 (by decide) rfl

theorem JsonOutput.Keeps.comma {α : Type} (hk : out.Keeps bytes) (h0 : 0 ∉ bytes priv) (l : List α) :
    Written bytes priv (if l ≠ [] then out.appendChar priv (ch ',') else priv) (commaLexemes l) := by
  unfold commaLexemes
  split_ifs
  · exact hk.writeChar h0 (by decide) rfl
  · exact written_refl h0

theorem JsonOutput.Keeps.colon (hk : out.Keeps bytes) (h0 : 0 ∉ bytes priv) (pretty : ℤ) :
    Written bytes priv (afterKey out priv pretty) (colonLexemes pretty) := by
  have hcolon := hk.writeChar (c := ch ':') (x := [.easy (ch ':')]) h0 (by decide) rfl
  unfold afterKey colonLexemes
  split_ifs
  · exact hcolon.trans (hk.writeChar (x := [.space (ch ' ')]) hcolon.nul_free (by decide) rfl)
  · exact hcolon

theorem JsonOutput.Keeps.data (hk : out.Keeps bytes) (h0 : 0 ∉ bytes priv) (hp : 0 ∉ p) (hlen : p.length < 2 ^ 32) :
    ∃ priv', serializeData out p priv = some priv' ∧ Written bytes priv priv' [stringLexeme p] := by
  have hnul := (reads_string (k := 0) hp).nul_free
  have htext : textOf [stringLexeme p] = literal p := by
    rw [textOf, List.flatMap_singleton]
    rfl
  rw [htext] at hnul
  have hbytes := hk.writeChars h0 hnul
  refine ⟨_, serializeData_eq hlen priv, ⟨?_, by rw [hbytes, htext]⟩⟩
  rw [hbytes]
  exact fun h => (List.mem_append.1 h).elim h0 hnul

theorem eq_levelAfter (h : serializePrettyIncrement pretty = some next) : next = levelAfter pretty := by
  unfold serializePrettyIncrement at h
  unfold levelAfter
  split_ifs at h ⊢
  · exact (intResult_eq_some.1 h).2.symm
  · exact (Option.some.inj h).symm

/-- The lexemes of a value are written, if it can be. -/
def WritesSized (out : JsonOutput σ) (bytes : σ → List UInt8) (strtod : List UInt8 → Double) (v : Value) : Prop :=
  ∀ (pretty : ℤ) (priv : σ), 0 ∉ bytes priv → Level pretty → Sized v → Fits pretty v.levels →
    ∃ priv', serialize out strtod v priv pretty = some priv' ∧ Written bytes priv priv' (v.lexemes pretty)

/-- A value one level down. -/
theorem WritesSized.deeper (hv : WritesSized out bytes strtod v) (h0 : 0 ∉ bytes priv) (hp : Level pretty)
    (hsized : Sized v) (hfits : Fits pretty (v.levels + 1)) : ∃ next priv', serializePrettyIncrement pretty = some next ∧
      serialize out strtod v priv next = some priv' ∧ Written bytes priv priv' (v.lexemes (levelAfter pretty)) := by
  obtain ⟨next, hnext, hlevel, hfits'⟩ := hp.fits_succ.1 hfits
  obtain ⟨priv', hrun, hw⟩ := hv next priv h0 hlevel hsized hfits'
  exact ⟨next, priv', hnext, hrun, eq_levelAfter hnext ▸ hw⟩

theorem writes_elements (hk : out.Keeps bytes) (hl : ∀ v ∈ l, WritesSized out bytes strtod v) (h0 : 0 ∉ bytes priv)
    (hp : Level pretty) (hsized : ∀ v ∈ l, Sized v) (hfits : Fits pretty (elementsHeight 0 l)) :
    ∃ priv', serializeElements out strtod l priv pretty = some priv' ∧
      Written bytes priv priv' (elementLexemes l pretty) := by
  induction l generalizing priv with
  | nil => exact ⟨priv, rfl, written_refl h0⟩
  | cons v l ih =>
    rw [List.forall_mem_cons] at hl hsized
    rw [elementsHeight, fits_max] at hfits
    have hindent := hk.indent h0 pretty
    obtain ⟨next, priv₁, hnext, hv, hwv⟩ := hl.1.deeper hindent.nul_free hp hsized.1 hfits.1
    have hcomma := hk.comma hwv.nul_free l
    have hbreak := hk.break hcomma.nul_free pretty
    obtain ⟨priv', hrest, hwl⟩ := ih hl.2 hbreak.nul_free hsized.2 hfits.2
    exact ⟨priv', serializeElements_cons.2 ⟨next, priv₁, hnext, hv, hrest⟩,
      hindent.trans (hwv.trans (hcomma.trans (hbreak.trans hwl)))⟩

theorem writes_members (hk : out.Keeps bytes) (hm : ∀ e ∈ m, WritesSized out bytes strtod e.2) (h0 : 0 ∉ bytes priv)
    (hp : Level pretty) (hlen : m.length ≤ INT_MAX) (hkeys : ∀ e ∈ m, e.1.length < 2 ^ 32) (hsized : ∀ e ∈ m, Sized e.2)
    (hfits : Fits pretty (membersHeight 0 m)) :
    ∃ priv', serializeMembers out strtod m m.length priv pretty = some priv' ∧
      Written bytes priv priv' (memberLexemes m pretty) := by
  induction m generalizing priv with
  | nil => exact ⟨priv, rfl, written_refl h0⟩
  | cons e m ih =>
    obtain ⟨key, v⟩ := e
    rw [List.forall_mem_cons] at hm hkeys hsized
    rw [membersHeight, fits_max] at hfits
    rw [List.length_cons] at hlen
    have hmax : INT_MAX = 2147483647 := rfl
    have hleft : (((key, v) :: m).length : ℤ) - 1 = m.length := by
      rw [List.length_cons]
      omega
    have hindent := hk.indent h0 pretty
    obtain ⟨priv₁, hkey, hwkey⟩ := hk.data hindent.nul_free key.nul_free hkeys.1
    have hcolon := hk.colon hwkey.nul_free pretty
    obtain ⟨next, priv₂, hnext, hv, hwv⟩ := hm.1.deeper hcolon.nul_free hp hsized.1 hfits.1
    have hcomma := hk.comma hwv.nul_free m
    have hbreak := hk.break hcomma.nul_free pretty
    obtain ⟨priv', hrest, hwm⟩ := ih hm.2 hbreak.nul_free (by omega) hkeys.2 hsized.2 hfits.2
    refine ⟨priv', serializeMembers_cons.2 ⟨next, priv₁, priv₂, by omega, by omega, hkey, hnext, hv, ?_⟩,
      hindent.trans (hwkey.trans (hcolon.trans (hwv.trans (hcomma.trans (hbreak.trans hwm)))))⟩
    have hnil : ((m.length : ℤ) ≠ 0) = (m ≠ []) := by simp
    simpa only [hleft, hnil] using hrest

/-- **The lexemes of a value are written**, if it can be. -/
theorem Tree.writes (hk : out.Keeps bytes) (ht : Tree v) : WritesSized out bytes strtod v := by
  induction ht with
  | null => exact fun _ _ h0 _ _ _ => ⟨_, rfl, hk.write h0 (by decide) rfl⟩
  | bool b => cases b <;> exact fun _ _ h0 _ _ _ => ⟨_, rfl, hk.write h0 (by decide) rfl⟩
  | @int z => exact fun _ _ h0 _ _ _ => ⟨_, rfl, hk.write h0 (Formatter.decimal z).nul_free (List.flatMap_singleton _ _)⟩
  | string hp =>
    intro pretty priv h0 _ hsized _
    cases hsized with
    | string hlen => exact hk.data h0 hp hlen
  | @array l _ ih =>
    intro pretty priv h0 hp hsized hfits
    cases hsized with
    | array hsized =>
      have hopen := hk.writeChar (c := ch '[') (x := [.easy (ch '[')]) h0 (by decide) rfl
      have hbreak := hk.break hopen.nul_free pretty
      obtain ⟨priv₁, hl, hwl⟩ := writes_elements hk ih hbreak.nul_free hp hsized hfits
      have hindent := hk.indent hwl.nul_free (pretty - 1)
      have hclose := hk.writeChar (c := ch ']') (x := [.easy (ch ']')]) hindent.nul_free (by decide) rfl
      obtain ⟨hlow, hhigh⟩ := hp
      exact ⟨_, serialize_array.2 ⟨priv₁, hl, by omega, by omega, rfl⟩,
        hopen.trans (hbreak.trans (hwl.trans (hindent.trans hclose)))⟩
  | @object m _ _ ih =>
    intro pretty priv h0 hp hsized hfits
    cases hsized with
    | object hlen hkeys hsized =>
      have hopen := hk.writeChar (c := ch '\x7b') (x := [.easy (ch '\x7b')]) h0 (by decide) rfl
      have hbreak := hk.break hopen.nul_free pretty
      obtain ⟨priv₁, hm, hwm⟩ := writes_members hk ih hbreak.nul_free hp hlen hkeys hsized hfits
      have hindent := hk.indent hwm.nul_free (pretty - 1)
      have hclose := hk.writeChar (c := ch '\x7d') (x := [.easy (ch '\x7d')]) hindent.nul_free (by decide) rfl
      obtain ⟨hlow, hhigh⟩ := hp
      rw [← toInt_of_le hlen] at hm
      exact ⟨_, serialize_object.2 ⟨priv₁, hm, by omega, by omega, rfl⟩,
        hopen.trans (hbreak.trans (hwm.trans (hindent.trans hclose)))⟩

end

/-! ## The round trip -/

/-- An array or an object. -/
def Value.IsContainer (v : Value) : Prop := (∃ l, v = .array l) ∨ ∃ m, v = .object m

theorem Derives.document {ts : List Terminal} {v : Value} (hd : Derives .value ts (.value v)) (hv : v.IsContainer) :
    Derives .jsonDocument ts (.value v) := by
  have hval : ∀ {t : Terminal}, t.val ≠ some v := by
    intro t ht
    rcases hv with ⟨l, rfl⟩ | ⟨m, rfl⟩ <;> cases t <;> cases ht
  cases hd with
  | rule3 h => exact .rule1 h
  | rule4 h => exact .rule2 h
  | @rule5 bytes => exact absurd rfl (hval (t := .string bytes))
  | rule6 _ ht | rule7 _ ht => exact absurd ht hval

/-- A value is written to a string, and what was written is read back as it. -/
def RoundTrips (strtod : List UInt8 → Double) (str : MowgliString) (p : Parser) (v : Value) (pretty : ℤ) : Prop :=
  ∃ str' p', serializeToString strtod v str pretty = some str' ∧
    p.parseString valueOps (cString str'.bytes) = .ok (some v, p')

/-- **What is written of a container is read back as the same**, exactly if its
strings and its objects are of a size that the loops can count, and its
indentation is an `int`. Its names are such that a tree can hold them. -/
theorem roundTrips_iff (strtod : List UInt8 → Double) {str : MowgliString} (hstr : str.bytes = []) (p : Parser) {v : Value}
    (ht : Tree v) (hv : v.IsContainer) (hd : v.depth ≤ 100) (hnames : ∀ name ∈ memberNames v.terminals, name.length < 2 ^ 30)
    {pretty : ℤ} (hp : Level pretty) :
    TreesHold (· ∈ memberNames v.terminals) ∧ (RoundTrips strtod str p v pretty ↔ Sized v ∧ Fits pretty v.levels) := by
  refine ⟨treesHold_of_short hnames, ?_⟩
  constructor
  · rintro ⟨str', p', hrun, -⟩
    exact ht.sized hp hrun
  · rintro ⟨hsized, hfits⟩
    have hempty : 0 ∉ str.bytes := hstr ▸ List.not_mem_nil
    have hwrites : WritesSized toStringOutput MowgliString.bytes strtod v := ht.writes toStringOutput_keeps
    obtain ⟨str', hrun, hw⟩ := hwrites pretty str hempty hp hsized hfits
    have hreads : Reads (v.lexemes pretty) v.terminals 100 := ht.reads hd
    have hbytes : (cString str'.bytes).bytes = textOf (v.lexemes pretty) := by
      have hnul : (cString str'.bytes).bytes = str'.bytes := congrArg CString.bytes (cString_bytes ⟨_, hw.nul_free⟩)
      rw [hnul, hw.bytes_eq, hstr, List.nil_append]
    have hdoc := ht.derives.document hv
    rw [← hreads.terminals] at hdoc
    obtain ⟨p', hparse⟩ := parseString_value p (hbytes ▸ hreads.balanced.nesting_le) hbytes hreads.scanned hdoc
    exact ⟨str', p', hrun, hparse⟩

/-- An object in an array, over several lines. -/
theorem roundTrips_iff_object : RoundTrips (fun _ => ⟨false, 0, 0, by decide, by decide⟩) .create (staticParser ())
    (.array [.object [(⟨[97], CString.nul_free_a⟩, .int 1)], .null]) 1 := by
  have htree : Tree (.array [.object [(⟨[97], CString.nul_free_a⟩, .int 1)], .null]) := by
    refine .array (List.forall_mem_cons.2 ⟨.object (List.pairwise_singleton _ _) ?_, List.forall_mem_singleton.2 .null⟩)
    exact List.forall_mem_singleton.2 (.int (by decide) (by decide))
  have hsized : Sized (.array [.object [(⟨[97], CString.nul_free_a⟩, .int 1)], .null]) := by
    refine .array (List.forall_mem_cons.2 ⟨.object (by decide) ?_ ?_, List.forall_mem_singleton.2 .null⟩)
    · exact List.forall_mem_singleton.2 (by decide)
    · exact List.forall_mem_singleton.2 (.int 1)
  exact (roundTrips_iff _ rfl _ htree (.inl ⟨_, rfl⟩) (by decide) (by decide) ⟨by decide, by decide⟩).2.2
    ⟨hsized, .inr (by decide)⟩

/-- An array of a string of so many bytes. -/
def repeated (n : ℕ) : Value := .array [.string (List.replicate n 97)]

theorem repeated_tree (n : ℕ) : Tree (repeated n) := by
  refine .array (List.forall_mem_singleton.2 (.string fun h0 => ?_))
  exact absurd (List.eq_of_mem_replicate h0) (by decide)

theorem repeated_depth (n : ℕ) : (repeated n).depth = 1 := rfl

theorem length_lt_of_repeated {n : ℕ} (h : Sized (repeated n)) : n < 2 ^ 32 := by
  cases h with
  | array hsized =>
    cases hsized _ List.mem_cons_self with
    | string hlen => rwa [List.length_replicate] at hlen

/-- **A string of 2^32 bytes** is written without an end. -/
theorem repeated_endless : (Tree (repeated 4294967296) ∧ (repeated 4294967296).IsContainer ∧
    (repeated 4294967296).depth ≤ 100) ∧ ∀ strtod p, ¬ RoundTrips strtod .create p (repeated 4294967296) 0 := by
  refine ⟨⟨repeated_tree _, .inl ⟨_, rfl⟩, (repeated_depth _).trans_le (by decide)⟩, ?_⟩
  rintro strtod p ⟨str', p', hrun, -⟩
  obtain ⟨hsized, -⟩ := (repeated_tree _).sized ⟨le_rfl, by decide⟩ hrun
  exact absurd (length_lt_of_repeated hsized) (by decide)

end Json

end Mowgli
