import Mowgli.Base.Bytes
import Mowgli.Ext.Json.ReadBack
/-!
# Strings that are written

`serialize_string_data` escapes a string of a given length, byte by byte, and
the lexer takes the escapes back. The two agree on all bytes but the NUL:
`strchr` finds it at the end of `serialize_escape`, so a backslash is written
before it, and the lexer drops a character it does not know behind a backslash.
-/

namespace Mowgli

namespace Json

open Parse

/-! ## The functions -/

/-- `serialize_hex_digits`. -/
def serializeHexDigits : List UInt8 := chars "0123456789abcdef"

/-- `serialize_escape`. -/
def serializeEscape : CString := ⟨chars "\"\\\x08\x0c\n\r\t", by decide⟩

/-- What is written behind the backslash. -/
def escapeLetter (c : UInt8) : UInt8 :=
  if c = ch '"' then ch '"'
  else if c = ch '\\' then ch '\\'
  else if c = 0x8 then ch 'b'
  else if c = 0xc then ch 'f'
  else if c = 0xa then ch 'n'
  else if c = 0xd then ch 'r'
  else if c = 0x9 then ch 't'
  -- the default: only a NUL comes here
  else c

/-- `serialize_hex_digits[n & 0xf]`. -/
def hexDigit (n : UInt8) : UInt8 := serializeHexDigits.getD (n &&& 0xf).toNat 0

/-- What the body of the loop of `serialize_string_data` writes. -/
def serializeChar (c : UInt8) : List UInt8 :=
  if serializeEscape.strchr c then [ch '\\', escapeLetter c]
  else if c < 0x20 ∨ 0x7f < c then [ch '\\', ch 'u', ch '0', ch '0', hexDigit (c >>> 4), hexDigit c]
  else [c]

/-- The loop of `serialize_string_data`, for so many rounds. `i` is an
`unsigned`, the length is a `size_t`. -/
def serializeLoop (p : List UInt8) : ℕ → UInt32 → List UInt8 → Option (List UInt8)
  | 0, i, out => if i.toNat < p.length then none else some out
  | fuel + 1, i, out =>
    if i.toNat < p.length then do
      let c ← p[i.toNat]?
      serializeLoop p fuel (i + 1) (out ++ serializeChar c)
    else some out

/-- `serialize_string_data`: what was written, and what it writes. -/
def serializeStringData (fuel : ℕ) (p out : List UInt8) : Option (List UInt8) := do
  let out ← serializeLoop p fuel 0 (out ++ [ch '"'])
  some (out ++ [ch '"'])

/-! ## The loop -/

variable {p w out text : List UInt8} {fuel : ℕ} {i : UInt32} {c : UInt8} {str : MowgliString} {r : List UInt8}

theorem serializeLoop_eq (hlen : p.length < 2 ^ 32) : serializeLoop p fuel i out =
    if p.length - i.toNat ≤ fuel then some (out ++ (p.drop i.toNat).flatMap serializeChar) else none := by
  have hend : ¬ i.toNat < p.length → some out = some (out ++ (p.drop i.toNat).flatMap serializeChar) := by
    intro hi
    rw [List.drop_eq_nil_of_le (by omega), List.flatMap_nil, List.append_nil]
  induction fuel generalizing i out with
  | zero =>
    by_cases hi : i.toNat < p.length
    · rw [serializeLoop, if_pos hi, if_neg (by omega)]
    · rw [serializeLoop, if_neg hi, if_pos (by omega), hend hi]
  | succ fuel ih =>
    by_cases hi : i.toNat < p.length
    · have hnext : (i + 1).toNat = i.toNat + 1 := by
        rw [UInt32.toNat_add, show (1 : UInt32).toNat = 1 from rfl]
        exact Nat.mod_eq_of_lt (by omega)
      have hend' : ¬ (i + 1).toNat < p.length → some (out ++ serializeChar p[i.toNat]) =
          some (out ++ serializeChar p[i.toNat] ++ (p.drop (i + 1).toNat).flatMap serializeChar) := by
        intro hi
        rw [List.drop_eq_nil_of_le (by omega), List.flatMap_nil, List.append_nil]
      rw [serializeLoop, if_pos hi, List.getElem?_eq_getElem hi, Option.bind_eq_bind, Option.bind_some, ih hend', hnext,
        List.drop_eq_getElem_cons hi, List.flatMap_cons, List.append_assoc]
      exact if_congr (by omega) rfl rfl
    · rw [serializeLoop, if_neg hi, if_pos (by omega), hend hi]

/-- An `unsigned` is always below such a length. -/
theorem serializeLoop_endless (hlen : 2 ^ 32 ≤ p.length) : serializeLoop p fuel i out = none := by
  have hi : ∀ i : UInt32, i.toNat < p.length := fun i => lt_of_lt_of_le i.toNat_lt hlen
  induction fuel generalizing i out with
  | zero => exact if_pos (hi i)
  | succ fuel ih =>
    rw [serializeLoop, if_pos (hi i), List.getElem?_eq_getElem (hi i), Option.bind_eq_bind, Option.bind_some]
    exact ih

/-- The literal of a string. -/
def literal (p : List UInt8) : List UInt8 := ch '"' :: (p.flatMap serializeChar ++ [ch '"'])

/-- **The literal is written**, if the length fits an `unsigned`; otherwise the
loop never ends. -/
theorem serializeStringData_eq_some : (∃ fuel, serializeStringData fuel p [] = some text) ↔
    p.length < 2 ^ 32 ∧ text = literal p := by
  constructor
  · rintro ⟨fuel, h⟩
    obtain ⟨out, hloop, h⟩ := Option.bind_eq_some_iff.1 h
    have hlen : p.length < 2 ^ 32 := by
      by_contra hlen
      rw [serializeLoop_endless (by omega)] at hloop
      cases hloop
    rw [serializeLoop_eq hlen] at hloop
    split_ifs at hloop
    obtain rfl := Option.some.inj hloop
    exact ⟨hlen, (Option.some.inj h).symm⟩
  · rintro ⟨hlen, rfl⟩
    refine ⟨p.length, ?_⟩
    rw [serializeStringData, serializeLoop_eq hlen, if_pos (Nat.sub_le _ _)]
    rfl

/-! ## The escapes -/

/-- What is written for a byte that is no NUL. -/
theorem serializeChar_cases : ∀ c : UInt8, c ≠ 0 →
    serializeChar c = [c] ∧ c ≠ ch '\\' ∧ c ≠ ch '"' ∨
    serializeChar c = [ch '\\', escapeLetter c] ∧ escapeLetter c ≠ ch 'u' ∧ escapeLetter c ≠ 0 ∧
      escaped (escapeLetter c) = some c ∨
    serializeChar c = [ch '\\', ch 'u', ch '0', ch '0', hexDigit (c >>> 4), hexDigit c] ∧
      hexDigit (c >>> 4) ≠ 0 ∧ hexDigit c ≠ 0 ∧ ubufByte [ch '0', ch '0', hexDigit (c >>> 4), hexDigit c] = c :=
  forall_uint8 (by decide +kernel)

/-- A NUL is written behind a backslash. -/
theorem serializeChar_nul : serializeChar 0 = [ch '\\', 0] := by
  decide

theorem inString_serializeChar (c : UInt8) (w : List UInt8) :
    inString .string (serializeChar c ++ w) = inString .string w := by
  by_cases h0 : c = 0
  · subst h0
    rw [serializeChar_nul]
    rfl
  rcases serializeChar_cases c h0 with ⟨h, hb, hq⟩ | ⟨h, hu, -⟩ | ⟨h, -⟩
  · rw [h, List.singleton_append, inString, if_neg (by simp [hq]), Mode.next, if_neg hb, if_neg hq]
  · rw [h, List.cons_append, List.singleton_append, inString, if_neg (by decide), inString, if_neg (by simp [Mode.next])]
    simp only [Mode.next, if_true, if_neg hu]
  · rw [h]
    rfl

theorem nul_not_mem_serializeChar (h0 : c ≠ 0) : 0 ∉ serializeChar c := by
  rcases serializeChar_cases c h0 with ⟨h, -⟩ | ⟨h, -, hl, -⟩ | ⟨h, h₁, h₂, -⟩
  · rw [h, List.mem_singleton]
    exact fun hc => h0 hc.symm
  · rw [h]
    simp [hl.symm, show (0 : UInt8) ≠ ch '\\' by decide]
  · rw [h]
    simp [h₁.symm, h₂.symm, show (0 : UInt8) ≠ ch '\\' by decide, show (0 : UInt8) ≠ ch 'u' by decide,
      show (0 : UInt8) ≠ ch '0' by decide]

theorem lexStringScan_char (hc : c ≠ ch '\\') : lexStringScan str (c :: w) = lexStringScan (str.appendChar c) w := by
  cases w with
  | nil =>
    unfold lexStringScan
    exact if_neg hc
  | cons d w =>
    rw [lexStringScan.eq_def]
    exact if_neg hc

theorem lexStringScan_escape {d : UInt8} (hd : d ≠ ch 'u') :
    lexStringScan str (ch '\\' :: d :: w) = lexStringScan (((escaped d).map str.appendChar).getD str) w := by
  rw [lexStringScan.eq_def]
  simp only [if_true, if_neg hd]
  cases escaped d <;> rfl

theorem lexStringScan_unicode {u₁ u₂ u₃ u₄ : UInt8} : lexStringScan str (ch '\\' :: ch 'u' :: u₁ :: u₂ :: u₃ :: u₄ :: w) =
    lexStringScan (str.appendChar (ubufByte [u₁, u₂, u₃, u₄])) w := by
  rw [lexStringScan.eq_def]
  simp only [if_true]

/-- **What is written for a byte is taken for it**, but for the NUL, which is
dropped. -/
theorem lexStringScan_serializeChar (str : MowgliString) (c : UInt8) (w : List UInt8) :
    lexStringScan str (serializeChar c ++ w) = lexStringScan (if c = 0 then str else str.appendChar c) w := by
  by_cases h0 : c = 0
  · subst h0
    rw [serializeChar_nul, if_pos rfl]
    exact lexStringScan_escape (by decide)
  rw [if_neg h0]
  rcases serializeChar_cases c h0 with ⟨h, hb, -⟩ | ⟨h, hu, -, he⟩ | ⟨h, -, -, hbyte⟩
  · rw [h]
    exact lexStringScan_char hb
  · rw [h]
    refine (lexStringScan_escape hu).trans ?_
    rw [he]
    rfl
  · rw [h]
    refine lexStringScan_unicode.trans ?_
    rw [hbyte]
    rfl

theorem inString_serialize (p : List UInt8) : inString .string (p.flatMap serializeChar) = some .string := by
  induction p with
  | nil => rfl
  | cons c p ih => rw [List.flatMap_cons, inString_serializeChar, ih]

theorem nul_not_mem_serialize (h0 : 0 ∉ p) : 0 ∉ p.flatMap serializeChar := by
  intro hmem
  obtain ⟨c, hc, hmem⟩ := List.mem_flatMap.1 hmem
  exact nul_not_mem_serializeChar (fun h => h0 (h ▸ hc)) hmem

/-- The string that the lexer makes of what was written. -/
theorem lexStringScan_serialize (str : MowgliString) (p : List UInt8) :
    lexStringScan str (p.flatMap serializeChar) = str.appendAll (p.filter (· ≠ 0)) := by
  induction p generalizing str with
  | nil => rfl
  | cons c p ih =>
    rw [List.flatMap_cons, lexStringScan_serializeChar, ih]
    by_cases h0 : c = 0
    · rw [if_pos h0, List.filter_cons_of_neg (by simpa using h0)]
    · rw [if_neg h0, List.filter_cons_of_pos (by simpa using h0)]
      rfl

/-! ## Reading it back -/

/-- What a parser that is between two tokens reads the literal as. -/
theorem Parse.AtToken.parses_literal {parse : Parser} (h : AtToken parse) (p r : List UInt8) : Parses parse (literal p ++ r)
    (.string (lexStringScan .create (parse.buf.appendAll (p.flatMap serializeChar)).bytes).bytes) r := by
  have hstring := parses_string (r := r) h.error h.lex (inString_serialize p)
  rwa [literal, List.cons_append, List.append_assoc]

/-- **A string without a NUL is read back.** -/
theorem readAs_literal (h0 : 0 ∉ p) (r : List UInt8) : ReadAs (literal p) (.string p) r := by
  intro parse h
  have hparses := h.parses_literal p r
  have hbuf : 0 ∉ parse.buf.bytes ++ p.flatMap serializeChar := by
    rw [h.buf_nil]
    exact nul_not_mem_serialize h0
  have hfilter : p.filter (· ≠ 0) = p := List.filter_eq_self.2 fun c hc => by
    simpa using fun hc0 : c = 0 => h0 (hc0 ▸ hc)
  rw [MowgliString.appendAll_bytes hbuf, h.buf_nil, List.nil_append, lexStringScan_serialize, hfilter,
    MowgliString.appendAll_bytes (by exact h0)] at hparses
  exact hparses

/-- **A string with a NUL is read as a shorter one** by a parser whose buffer has
the room. -/
theorem not_readAs_literal (h0 : 0 ∈ p) : ¬ ReadAs (literal p) (.string p) [] := by
  intro hread
  -- a buffer that has to grow would copy the literal up to its first NUL
  obtain ⟨parse, hp, hroom⟩ := exists_takesValues (p.flatMap serializeChar).length
  have hparses := hp.parses_literal p []
  have hbuf : parse.buf.pos + (p.flatMap serializeChar).length < parse.buf.size := by
    rw [MowgliString.pos, hp.buf_nil]
    simpa using hroom
  rw [MowgliString.appendAll_of_room hbuf, hp.buf_nil, List.nil_append, lexStringScan_serialize] at hparses
  obtain ⟨parse', hrun⟩ := hp.parseData_ok rfl hparses
  have heq := hp.unique rfl rfl hparses (hread parse hp.toAtToken) hrun
  -- all bytes are there but the NULs
  have hlen := congrArg List.length (Terminal.string.inj heq)
  rw [show ∀ s : MowgliString, s.bytes.length = s.pos from fun _ => rfl, MowgliString.pos_appendAll] at hlen
  have hshort : (p.filter (· ≠ 0)).length < p.length :=
    List.length_filter_lt_length_iff_exists.2 ⟨0, h0, by decide⟩
  exact absurd (hlen.trans rfl) (by simpa [MowgliString.pos, MowgliString.create] using hshort.ne)

/-- **A string that is written is read back** as it was, by every parser that is
between two tokens, exactly if it has no NUL and its length fits an `unsigned`. -/
theorem serializeStringData_lossless_iff (p : List UInt8) :
    (∃ fuel text, serializeStringData fuel p [] = some text ∧ ∀ r, ReadAs text (.string p) r) ↔
      0 ∉ p ∧ p.length < 2 ^ 32 := by
  constructor
  · rintro ⟨fuel, text, hrun, hread⟩
    obtain ⟨hlen, rfl⟩ := serializeStringData_eq_some.1 ⟨fuel, hrun⟩
    exact ⟨fun h0 => not_readAs_literal h0 (hread []), hlen⟩
  · rintro ⟨h0, hlen⟩
    obtain ⟨fuel, hrun⟩ := serializeStringData_eq_some.2 ⟨hlen, rfl⟩
    exact ⟨fuel, literal p, hrun, fun r => readAs_literal h0 r⟩

/-- **A NUL is lost**: a string of one is written as a backslash and a NUL, and
is read as the empty string. -/
theorem nul_is_lost : serializeStringData 1 [0] [] = some [ch '"', ch '\\', 0, ch '"'] ∧
    (∃ parse, (create () false).parseData valueOps (chars "[" ++ literal [0] ++ chars "]") = .ok parse ∧
      parse.out = [.array [.string []]]) ∧
    ¬ ∃ fuel text, serializeStringData fuel [0] [] = some text ∧ ∀ r, ReadAs text (.string [0]) r := by
  refine ⟨rfl, ⟨_, rfl, rfl⟩, ?_⟩
  rintro ⟨fuel, text, hrun, hread⟩
  obtain ⟨-, rfl⟩ := serializeStringData_eq_some.1 ⟨fuel, hrun⟩
  exact not_readAs_literal (List.mem_singleton_self 0) (hread [])

end Json

end Mowgli
