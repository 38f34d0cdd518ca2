import Mowgli.Base.C
/-!
# Characters, and numbers read from text

`ctype.h` and `strtol` in the "C" locale, on bytes. A `long` has 64 bits.
-/

namespace Mowgli

/-- A character constant. -/
def ch (c : Char) : UInt8 := c.toUInt8

/-- `isdigit`. -/
def isDigit (c : UInt8) : Bool := ch '0' ≤ c && c ≤ ch '9'

/-- `isalpha`. -/
def isAlpha (c : UInt8) : Bool := (ch 'A' ≤ c && c ≤ ch 'Z') || (ch 'a' ≤ c && c ≤ ch 'z')

/-- `isspace`. -/
def isSpace (c : UInt8) : Bool := c == ch ' ' || (9 ≤ c && c ≤ 13)

/-- `toupper`. -/
def toUpper (c : UInt8) : UInt8 := if ch 'a' ≤ c && c ≤ ch 'z' then c - 32 else c

/-- `tolower`. -/
def toLower (c : UInt8) : UInt8 := if ch 'A' ≤ c && c ≤ ch 'Z' then c + 32 else c

/-- The value of a digit in the bases up to 36. -/
def digitValue (c : UInt8) : Option ℕ :=
  if isDigit c then some (c.toNat - 48)
  else if isAlpha c then some ((toUpper c).toNat - 55)
  else none

/-- The number at the front of a text in base `base`, read on from `n`. -/
def readDigits (base : ℕ) (n : ℕ) : List UInt8 → ℕ
  | [] => n
  | c :: s =>
    match digitValue c with
    | some d => if d < base then readDigits base (n * base + d) s else n
    | none => n

/-- Whether a text starts with a digit in base `base`. -/
def startsDigit (base : ℕ) : List UInt8 → Bool
  | [] => false
  | c :: _ => (digitValue c).any fun d => d < base

/-- The base that is meant, and the text without the prefix that says so. -/
def basePrefix (base : ℕ) (s : List UInt8) : ℕ × List UInt8 :=
  match s with
  | z :: x :: s' =>
    if z = ch '0' && toUpper x = ch 'X' && (base = 0 || base = 16) && startsDigit 16 s' then (16, s')
    else if base = 0 then (if z = ch '0' then 8 else 10, s) else (base, s)
  | [z] => if base = 0 then (if z = ch '0' then 8 else 10, s) else (base, s)
  | [] => (if base = 0 then 10 else base, s)

/-- A `long`: what is out of range is brought to its end. -/
def toLong (z : ℤ) : ℤ := max (-9223372036854775808) (min z 9223372036854775807)

/-- The sign at the front of a text, and the rest. -/
def readSign : List UInt8 → Bool × List UInt8
  | [] => (false, [])
  | c :: s => if c = ch '-' then (true, s) else if c = ch '+' then (false, s) else (false, c :: s)

/-- `strtol(s, NULL, base)`. -/
def strtol (s : List UInt8) (base : ℕ) : ℤ :=
  let (neg, s) := readSign (s.dropWhile isSpace)
  let (base, s) := basePrefix base s
  let n : ℤ := readDigits base 0 s
  toLong (if neg then -n else n)

/-- A statement about all bytes is checked byte by byte. -/
theorem forall_uint8 {P : UInt8 → Prop} (h : ∀ n : Fin 256, P (UInt8.ofFin n)) (c : UInt8) : P c := h c.toFin

/-- And so is one about the bytes of a text. -/
theorem forall_mem_bytes {s : List UInt8} {P : UInt8 → Prop} [DecidablePred P] (h : s.all fun c => decide (P c)) :
    ∀ c ∈ s, P c :=
  fun c hc => of_decide_eq_true (List.all_eq_true.1 h c hc)

theorem toLower_ne_zero {c : UInt8} : c ≠ 0 → toLower c ≠ 0 :=
  forall_uint8 (P := fun c => c ≠ 0 → toLower c ≠ 0) (by decide +kernel) c

theorem toUpper_ne_zero {c : UInt8} : c ≠ 0 → toUpper c ≠ 0 :=
  forall_uint8 (P := fun c => c ≠ 0 → toUpper c ≠ 0) (by decide +kernel) c

theorem toUpper_toUpper (c : UInt8) : toUpper (toUpper c) = toUpper c :=
  forall_uint8 (P := fun c => toUpper (toUpper c) = toUpper c) (by decide +kernel) c

namespace CString

/-- The string in upper case. -/
def upper (k : CString) : CString where
  bytes := k.bytes.map toUpper
  nul_free h := by
    obtain ⟨c, hc, h0⟩ := List.mem_map.1 h
    exact toUpper_ne_zero (fun hc0 => k.nul_free (hc0 ▸ hc)) h0

theorem length_upper (k : CString) : k.upper.length = k.length := List.length_map ..

theorem upper_upper (k : CString) : k.upper.upper = k.upper := by
  have htwice : toUpper ∘ toUpper = toUpper := funext toUpper_toUpper
  refine CString.ext ?_
  change (k.bytes.map toUpper).map toUpper = k.bytes.map toUpper
  rw [List.map_map, htwice]

/-- The string in lower case. -/
def lower (k : CString) : CString where
  bytes := k.bytes.map toLower
  nul_free h := by
    obtain ⟨c, hc, h0⟩ := List.mem_map.1 h
    exact toLower_ne_zero (fun hc0 => k.nul_free (hc0 ▸ hc)) h0

/-- `strcasecmp`. -/
def strcasecmp (k k' : CString) : ℤ := strcmp k.lower k'.lower

/-- Strings compare as equal if they are the same but for the case. -/
theorem strcasecmp_eq_zero {k k' : CString} : strcasecmp k k' = 0 ↔ k.lower = k'.lower := strcmp_eq_zero

end CString

end Mowgli
