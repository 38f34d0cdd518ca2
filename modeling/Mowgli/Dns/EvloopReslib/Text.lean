import Mathlib.Tactic.FinCases
import Mowgli.Dns.EvloopReslib.Unpack
/-!
# Names as text

`mowgli_dns_ns_name_ntop` prints the labels of a name with dots between them, and
escapes what is not printable or has a meaning of its own, so that
`mowgli_dns_ns_name_pton` reads back what was printed. A bit string is printed as
well, but not read: there `mowgli_dns_ns_name_pton` is not defined.
-/

namespace Mowgli

namespace DnsName

variable {cp dst cur t rest out text : List UInt8} {eom dstsiz fuel l blen : ℕ} {c count : UInt8} {q : Bool}
  {label : List UInt8} {ls : List (List UInt8)}

/-! ## What a name is printed as -/

/-- A character of a label. -/
def charText (c : UInt8) : List UInt8 :=
  if isSpecial c then [ch '\\', c]
  else if !isPrintable c then [ch '\\', digit (c.toNat / 100), digit (c.toNat % 100 / 10), digit (c.toNat % 10)]
  else [c]

/-- The text of a label. -/
def labelText : List UInt8 → List UInt8
  | [] => []
  | n :: t =>
    if n &&& NS_CMPRSFLAGS = 0 then t.flatMap charText
    else
      match t with
      | [] => []
      | count :: bits => bitstringText (bitLength count) bits

/-- Labels, each with a dot in front of it. -/
def dotted (ls : List (List UInt8)) : List UInt8 := ls.flatMap fun label => ch '.' :: labelText label

/-- The text of a name. -/
def nameText : List (List UInt8) → List UInt8
  | [] => [ch '.']
  | label :: ls => labelText label ++ dotted ls

/-- A label of text. -/
structure IsText (label : List UInt8) : Prop where
  isLabel : IsLabel label
  text : ∀ n t, label = n :: t → n &&& NS_CMPRSFLAGS = 0

theorem IsText.exists_cons (h : IsText label) : ∃ t, label = t.length.toUInt8 :: t ∧ t ≠ [] ∧ t.length < 64 := by
  obtain ⟨n, t, rfl, hn, -, hlen⟩ := h.isLabel.exists_cons
  have hflags := h.text n t rfl
  rw [labellen_text hflags] at hlen
  have hlen : n.toNat = t.length := Option.some.inj (Option.some.inj hlen)
  refine ⟨t, ?_, ?_, ?_⟩
  · rw [← hlen]
    simp
  · rintro rfl
    exact hn (UInt8.toNat_inj.1 hlen)
  · rw [← hlen]
    exact UInt8.lt_iff_toNat_lt.1 (flags_eq_zero_iff.1 hflags)

theorem IsText.mk' (ht : t ≠ []) (hlen : t.length < 64) : IsText (t.length.toUInt8 :: t) := by
  refine ⟨.text ht hlen, fun n t' h => ?_⟩
  obtain ⟨rfl, -⟩ := List.cons.inj h
  refine flags_eq_zero_iff.2 (UInt8.lt_iff_toNat_lt.2 ?_)
  rw [UInt8.toNat_ofNat', Nat.mod_eq_of_lt (by omega)]
  exact hlen

theorem labelText_cons (n : UInt8) (t : List UInt8) : labelText (n :: t) =
    if n &&& NS_CMPRSFLAGS = 0 then t.flatMap charText
    else (t.head?.map fun count => bitstringText (bitLength count) t.tail).getD [] := by
  cases t <;> rfl

theorem labelText_text (hlen : t.length < 64) : labelText (t.length.toUInt8 :: t) = t.flatMap charText := by
  have hflags : t.length.toUInt8 &&& NS_CMPRSFLAGS = 0 := flags_eq_zero_iff.2 (by
    rw [UInt8.lt_iff_toNat_lt, UInt8.toNat_ofNat', Nat.mod_eq_of_lt (by omega)]
    exact hlen)
  rw [labelText_cons, if_pos hflags]

theorem dotted_cons : dotted (label :: ls) = ch '.' :: (labelText label ++ dotted ls) := rfl

theorem charText_ne_nil (c : UInt8) : charText c ≠ [] := by
  unfold charText
  split_ifs <;> exact List.cons_ne_nil _ _

theorem length_le_flatMap_charText (t : List UInt8) : t.length ≤ (t.flatMap charText).length := by
  induction t with
  | nil => exact le_rfl
  | cons c t ih =>
    have := List.length_pos_iff.2 (charText_ne_nil c)
    rw [List.flatMap_cons, List.length_append, List.length_cons]
    omega

/-! ## Printing -/

/-- **A label of text is printed** if there is room for it. -/
theorem ntopLabel_outcome (eom : ℕ) (t rest dst : List UInt8) :
    nsNameNtopLabel eom t.length (t ++ rest) dst = done (rest, dst ++ t.flatMap charText) ∨
    (nsNameNtopLabel eom t.length (t ++ rest) dst = fail .emsgsize ∧ eom ≤ (dst ++ t.flatMap charText).length) := by
  induction t generalizing dst with
  | nil =>
    refine .inl ?_
    rw [List.flatMap_nil, List.append_nil]
    rfl
  | cons c t ih =>
    rw [List.flatMap_cons, ← List.append_assoc, List.length_cons, List.cons_append, nsNameNtopLabel]
    have hlong : ∀ s : List UInt8, eom ≤ s.length → eom ≤ (s ++ t.flatMap charText).length := fun s hs => by
      rw [List.length_append]
      omega
    -- the room that is asked for is less than what is printed
    have hgo : ∀ k, k < (charText c).length →
        (if eom ≤ dst.length + k then fail .emsgsize
          else nsNameNtopLabel eom t.length (t ++ rest) (dst ++ charText c)) =
            done (rest, dst ++ charText c ++ t.flatMap charText) ∨
        ((if eom ≤ dst.length + k then fail .emsgsize
          else nsNameNtopLabel eom t.length (t ++ rest) (dst ++ charText c)) = fail .emsgsize ∧
            eom ≤ (dst ++ charText c ++ t.flatMap charText).length) := by
      intro k hk
      by_cases hroom : eom ≤ dst.length + k
      · rw [if_pos hroom]
        refine .inr ⟨rfl, hlong _ ?_⟩
        rw [List.length_append]
        omega
      · rw [if_neg hroom]
        exact ih (dst ++ charText c)
    by_cases h₁ : isSpecial c
    · have hc : charText c = [ch '\\', c] := if_pos h₁
      rw [if_pos h₁]
      exact hc ▸ hgo 1 (hc ▸ Nat.one_lt_two)
    · rw [if_neg h₁]
      by_cases h₂ : !isPrintable c
      · have hc : charText c =
            [ch '\\', digit (c.toNat / 100), digit (c.toNat % 100 / 10), digit (c.toNat % 10)] := by
          rw [charText, if_neg h₁, if_pos h₂]
        rw [if_pos h₂, ← hc]
        exact hgo 3 (hc ▸ Nat.lt_succ_self 3)
      · have hc : charText c = [c] := by rw [charText, if_neg h₁, if_neg h₂]
        rw [if_neg h₂]
        exact hc ▸ hgo 0 (hc ▸ Nat.one_pos)

theorem length_printHex2 (c : UInt8) : (printHex2 c.toNat).length = 2 :=
  forall_uint8 (P := fun c => (printHex2 c.toNat).length = 2) (by decide +kernel) c

/-- The last bits take the digits that they should, or one more. -/
theorem length_lastBits (b : Fin 8) (hb : b.val ≠ 0) (c : UInt8) :
    (b.val + 3) / 4 ≤ (lastBits b c).length ∧ (lastBits b c).length ≤ (b.val + 3) / 4 + if 4 < b.val then 1 else 0 := by
  have hall : ∀ b : Fin 8, b.val ≠ 0 → ∀ n : Fin 256, (b.val + 3) / 4 ≤ (lastBits b (UInt8.ofFin n)).length ∧
      (lastBits b (UInt8.ofFin n)).length ≤ (b.val + 3) / 4 + if 4 < b.val then 1 else 0 := by decide +kernel
  exact hall b hb c.toFin

theorem length_toDigits_le (h : blen ≤ 256) :
    (Nat.toDigits 10 blen).length = if 99 < blen then 3 else if 9 < blen then 2 else 1 := by
  have hall : ∀ n : Fin 257, (Nat.toDigits 10 n).length = if 99 < n.val then 3 else if 9 < n.val then 2 else 1 := by
    decide +kernel
  exact hall ⟨blen, by omega⟩

theorem length_flatMap_printHex2 (bits : List UInt8) :
    (bits.flatMap fun c => printHex2 c.toNat).length = 2 * bits.length := by
  induction bits with
  | nil => rfl
  | cons c bits ih =>
    rw [List.flatMap_cons, List.length_append, length_printHex2, ih, List.length_cons]
    omega

/-- The room that is asked for is enough, and at most one byte more than is
needed with the terminator. -/
theorem length_bitstringText {bits : List UInt8} (hblen : blen ≤ 256) (hbits : bits.length = (blen + 7) / 8) :
    bitstringRoom blen ≤ (bitstringText blen bits).length + 1 ∧ (bitstringText blen bits).length ≤ bitstringRoom blen := by
  have htake : (bits.take (blen / 8)).length = blen / 8 := by
    rw [List.length_take]
    omega
  have hdigits := length_toDigits_le hblen
  have hlast : (blen % 8 + 3) / 4 ≤
      (if blen % 8 = 0 then [] else (bits.drop (blen / 8)).flatMap (lastBits (blen % 8))).length ∧
      (if blen % 8 = 0 then [] else (bits.drop (blen / 8)).flatMap (lastBits (blen % 8))).length ≤
        (blen % 8 + 3) / 4 + 1 := by
    split_ifs with h0
    · rw [h0]
      decide
    · obtain ⟨c, hc⟩ : ∃ c, bits.drop (blen / 8) = [c] := by
        refine List.length_eq_one_iff.1 ?_
        rw [List.length_drop]
        omega
      have := length_lastBits ⟨blen % 8, Nat.mod_lt _ (by decide)⟩ h0 c
      rw [hc, List.flatMap_cons, List.flatMap_nil, List.append_nil]
      dsimp only at this
      split_ifs at this <;> omega
  unfold bitstringText bitstringRoom
  simp only [List.length_append, List.length_cons, List.length_nil, List.length_map, length_flatMap_printHex2, htake,
    hdigits]
  split_ifs at hlast ⊢ <;> omega

theorem bitLength_le (count : UInt8) : bitLength count ≤ 256 := by
  unfold bitLength
  split_ifs
  · exact le_rfl
  · exact count.toNat_lt.le

/-- **A bit string is printed**, within the buffer, if there is the room that is
asked for. -/
theorem decodeBitstring_eq {bits : List UInt8} {dn : ℕ} (hbits : bits.length = (bitLength count + 7) / 8) :
    decodeBitstring dn eom (count :: (bits ++ rest)) =
      if eom ≤ dn + bitstringRoom (bitLength count) then some none
      else some (some (bitstringText (bitLength count) bits, rest)) := by
  have hload : Bytes.load (bits ++ rest) 0 ((bitLength count + 7) / 8) = some bits := by
    rw [← hbits, Bytes.load_of_le (by simp), List.drop_zero, List.take_left]
  have hlen := (length_bitstringText (bitLength_le count) hbits).2
  rw [decodeBitstring]
  simp only [hload]
  split_ifs with h₁ h₂
  · rfl
  · omega
  · rw [← hbits, List.drop_left]

/-- What `mowgli_dns_ns_name_ntop` has printed before a label, with the dot. -/
def dot (dst : List UInt8) : List UInt8 := if dst = [] then [] else dst ++ [ch '.']

/-- A turn of the loop, over a label. -/
theorem ntopLoop_label (eom fuel : ℕ) (hl : IsLabel label) (rest dst : List UInt8) :
    nsNameNtopLoop eom (fuel + 1) (label ++ rest) dst = nsNameNtopLoop eom fuel rest (dot dst ++ labelText label) ∨
    (nsNameNtopLoop eom (fuel + 1) (label ++ rest) dst = fail .emsgsize ∧
      eom ≤ (dot dst ++ labelText label).length + 1 ∧ (IsText label → eom ≤ (dot dst ++ labelText label).length)) := by
  obtain ⟨n, t, rfl, hn, hflags, hlen⟩ := hl.exists_cons
  have hptr : ¬ n &&& NS_CMPRSFLAGS = NS_CMPRSFLAGS := fun h => by
    rw [labellen_pointer h] at hlen
    cases hlen
  have hlen' : labellen (n :: (t ++ rest)) = some (some t.length) := labellen_append (t := n :: t) (s := rest) hlen
  rw [List.cons_append, nsNameNtopLoop, if_neg hn, if_neg hptr]
  simp only [hlen']
  by_cases hdot : dst ≠ [] ∧ eom ≤ dst.length
  · rw [if_pos hdot, dot, if_neg hdot.1]
    have hle : eom ≤ (dst ++ [ch '.'] ++ labelText (n :: t)).length := by
      simp only [List.length_append]
      omega
    exact .inr ⟨rfl, by omega, fun _ => hle⟩
  rw [if_neg hdot]
  have hdst : (if dst = [] then [] else dst ++ [ch '.']) = dot dst := rfl
  rw [hdst]
  by_cases htext : n &&& NS_CMPRSFLAGS = 0
  · have helt : ¬ n &&& NS_CMPRSFLAGS = NS_TYPE_ELT := htext ▸ elt_ne_zero.symm
    have hlabel : labelText (n :: t) = t.flatMap charText := by rw [labelText_cons, if_pos htext]
    have hlong := length_le_flatMap_charText t
    rw [if_neg helt, hlabel]
    by_cases hroom : eom ≤ (dot dst).length + t.length
    · rw [if_pos hroom]
      have hle : eom ≤ (dot dst ++ t.flatMap charText).length := by
        rw [List.length_append]
        omega
      exact .inr ⟨rfl, by omega, fun _ => hle⟩
    · rw [if_neg hroom]
      rcases ntopLabel_outcome eom t rest (dot dst) with h | ⟨h, hle⟩
      · rw [h]
        exact .inl rfl
      · rw [h]
        exact .inr ⟨rfl, by omega, fun _ => hle⟩
  · obtain rfl := hflags.resolve_left htext
    have hnot : ¬ IsText (LABELTYPE_BITSTRING :: t) := fun h => htext (h.text _ _ rfl)
    have helt : LABELTYPE_BITSTRING &&& NS_CMPRSFLAGS = NS_TYPE_ELT := rfl
    rw [if_pos helt, if_neg (not_not.2 rfl)]
    cases t with
    | nil => cases hlen
    | cons count bits =>
      rw [labellen_bitstring] at hlen
      have hbits : bits.length = (bitLength count + 7) / 8 := by
        have := Option.some.inj (Option.some.inj hlen)
        rw [List.length_cons] at this
        omega
      have hlabel : labelText (LABELTYPE_BITSTRING :: count :: bits) = bitstringText (bitLength count) bits := by
        rw [labelText_cons, if_neg htext]
        rfl
      have hroom := (length_bitstringText (bitLength_le count) hbits).1
      have hbytes : bits.length + 1 + 1 ≤ bitstringRoom (bitLength count) := by
        unfold bitstringRoom
        rw [hbits]
        split_ifs <;> omega
      rw [hlabel, List.cons_append, decodeBitstring_eq hbits]
      by_cases h : eom ≤ (dot dst).length + bitstringRoom (bitLength count)
      · refine .inr ⟨?_, ?_, fun htext => absurd htext hnot⟩
        · rw [if_pos h]
          split_ifs <;> rfl
        · rw [List.length_append]
          omega
      · rw [if_neg h, if_neg (by rw [List.length_cons]; omega)]
        exact .inl rfl

theorem labelText_ne_nil (hl : IsLabel label) : labelText label ≠ [] := by
  obtain ⟨n, t, rfl, hn, hflags, hlen⟩ := hl.exists_cons
  rw [labelText_cons]
  split_ifs with htext
  · rw [labellen_text htext] at hlen
    have hpos : 0 < t.length := by
      rw [← Option.some.inj (Option.some.inj hlen)]
      exact Nat.pos_of_ne_zero fun h => hn (UInt8.toNat_inj.1 h)
    have := length_le_flatMap_charText t
    exact List.length_pos_iff.1 (by omega)
  · obtain rfl := hflags.resolve_left htext
    cases t with
    | nil => cases hlen
    | cons count bits => exact List.cons_ne_nil _ _

/-- What is in the buffer after the labels `ls`. -/
def joined (dst : List UInt8) : List (List UInt8) → List UInt8
  | [] => dst
  | label :: ls => dot dst ++ labelText label ++ dotted ls

theorem joined_step (hl : IsLabel label) : joined (dot dst ++ labelText label) ls = joined dst (label :: ls) := by
  cases ls with
  | nil => rw [joined, joined, dotted, List.flatMap_nil, List.append_nil]
  | cons label' ls =>
    have hne : dot dst ++ labelText label ≠ [] := fun h => labelText_ne_nil hl (List.append_eq_nil_iff.1 h).2
    rw [joined, joined, dot, if_neg hne, dotted_cons]
    simp only [List.append_assoc, List.cons_append, List.nil_append]

theorem ntopLoop_outcome (eom fuel : ℕ) (hls : ∀ l ∈ ls, IsLabel l) (hfuel : (wire ls).length ≤ fuel) (dst : List UInt8) :
    nsNameNtopLoop eom fuel (wire ls) dst = done (joined dst ls) ∨
    (nsNameNtopLoop eom fuel (wire ls) dst = fail .emsgsize ∧ eom ≤ (joined dst ls).length + 1 ∧
      ((∀ l ∈ ls, IsText l) → eom ≤ (joined dst ls).length)) := by
  induction ls generalizing dst fuel with
  | nil =>
    obtain ⟨fuel, rfl⟩ : ∃ f, fuel = f + 1 := ⟨fuel - 1, by rw [wire_nil, List.length_singleton] at hfuel; omega⟩
    exact .inl rfl
  | cons label ls ih =>
    obtain ⟨hl, hls⟩ := List.forall_mem_cons.1 hls
    have hpos := LabelCode.label_pos (C := labelCode) hl
    rw [wire_cons, List.length_append] at hfuel
    obtain ⟨fuel, rfl⟩ : ∃ f, fuel = f + 1 := ⟨fuel - 1, by omega⟩
    rw [wire_cons, ← joined_step hl]
    rcases ntopLoop_label eom fuel hl (wire ls) dst with h | ⟨h, hle, htext⟩
    · rw [h]
      rcases ih fuel hls (by omega) (dot dst ++ labelText label) with hgo | ⟨hgo, hgo'⟩
      · exact .inl hgo
      · exact .inr ⟨hgo, hgo'.1, fun ht => hgo'.2 (List.forall_mem_cons.1 ht).2⟩
    · have hlong : (dot dst ++ labelText label).length ≤ (joined (dot dst ++ labelText label) ls).length := by
        rw [joined_step hl]
        exact (List.prefix_append _ _).length_le
      exact .inr ⟨h, by omega, fun ht => (htext (List.forall_mem_cons.1 ht).1).trans hlong⟩

/-- **A name is printed**, with its terminator within the buffer, or it fails. With
a byte to spare it does not fail, and for labels of text it does not if there is
room at all. -/
theorem nsNameNtop_outcome (hls : ∀ l ∈ ls, IsLabel l) (dstsiz : ℕ) :
    (nsNameNtop (wire ls) dstsiz = done (nameText ls ++ [0]) ∧ (nameText ls).length < dstsiz) ∨
    (nsNameNtop (wire ls) dstsiz = fail .emsgsize ∧ dstsiz ≤ (nameText ls).length + 1 ∧
      ((∀ l ∈ ls, IsText l) → dstsiz ≤ (nameText ls).length)) := by
  unfold nsNameNtop
  cases ls with
  | nil =>
    have hloop : nsNameNtopLoop dstsiz (wire []).length (wire []) [] = done [] := rfl
    simp only [hloop, done, nameText]
    by_cases h0 : dstsiz = 0
    · rw [if_pos ⟨trivial, h0⟩]
      exact .inr ⟨rfl, by omega, fun _ => by omega⟩
    · rw [if_neg fun h => h0 h.2]
      by_cases h1 : dstsiz ≤ 1
      · rw [if_pos (by simpa using h1)]
        exact .inr ⟨rfl, by simp; omega, fun _ => by simpa using h1⟩
      · rw [if_neg (by simpa using h1)]
        exact .inl ⟨rfl, by simp; omega⟩
  | cons label ls =>
    have hl := (List.forall_mem_cons.1 hls).1
    have hjoined : joined [] (label :: ls) = nameText (label :: ls) := rfl
    have hne : nameText (label :: ls) ≠ [] := fun h => labelText_ne_nil hl (List.append_eq_nil_iff.1 h).1
    rcases ntopLoop_outcome dstsiz _ hls le_rfl [] with h | ⟨h, hle⟩
    · rw [hjoined] at h
      simp only [h, done, hne, false_and, if_false]
      by_cases hroom : dstsiz ≤ (nameText (label :: ls)).length
      · rw [if_pos hroom]
        exact .inr ⟨rfl, by omega, fun _ => hroom⟩
      · rw [if_neg hroom]
        exact .inl ⟨rfl, not_le.1 hroom⟩
    · rw [hjoined] at hle
      rw [h]
      exact .inr ⟨rfl, hle⟩

/-- Labels of text are printed exactly if there is room for the text and its
terminator. -/
theorem nsNameNtop_text (hls : ∀ l ∈ ls, IsText l) (dstsiz : ℕ) : nsNameNtop (wire ls) dstsiz =
    if (nameText ls).length < dstsiz then done (nameText ls ++ [0]) else fail .emsgsize := by
  rcases nsNameNtop_outcome (fun l hl => (hls l hl).isLabel) dstsiz with ⟨h, hlt⟩ | ⟨h, -, hle⟩
  · rw [h, if_pos hlt]
  · rw [h, if_neg (not_lt.2 (hle hls))]

/-! ## Reading -/

/-- What is special or not printable in a label needs a backslash. -/
theorem charText_cases (c : UInt8) :
    (charText c = [ch '\\', c] ∧ c ≠ ch '[' ∧ isDigit c = false) ∨
    (∃ c₁ c₂ c₃, charText c = [ch '\\', c₁, c₂, c₃] ∧ c₁ ≠ ch '[' ∧ isDigit c₁ = true ∧ isDigit c₂ = true ∧
      isDigit c₃ = true ∧ decimal c₁ c₂ c₃ = c.toNat) ∨
    (charText c = [c] ∧ c ≠ ch '\\' ∧ c ≠ ch '.') := by
  by_cases h₁ : isSpecial c
  · refine .inl ⟨if_pos h₁, ?_⟩
    exact forall_uint8 (P := fun c => isSpecial c = true → c ≠ ch '[' ∧ isDigit c = false) (by decide +kernel) c h₁
  · by_cases h₂ : !isPrintable c
    · refine .inr (.inl ⟨digit (c.toNat / 100), digit (c.toNat % 100 / 10), digit (c.toNat % 10), ?_, ?_⟩)
      · rw [charText, if_neg h₁, if_pos h₂]
      · exact forall_uint8 (P := fun c => digit (c.toNat / 100) ≠ ch '[' ∧ isDigit (digit (c.toNat / 100)) = true ∧
          isDigit (digit (c.toNat % 100 / 10)) = true ∧ isDigit (digit (c.toNat % 10)) = true ∧
          decimal (digit (c.toNat / 100)) (digit (c.toNat % 100 / 10)) (digit (c.toNat % 10)) = c.toNat)
          (by decide +kernel) c
    · refine .inr (.inr ⟨by rw [charText, if_neg h₁, if_neg h₂], ?_, ?_⟩)
      · rintro rfl
        exact h₁ (by decide)
      · rintro rfl
        exact h₁ (by decide)

/-- Behind a backslash, a character that is neither a bracket nor a digit stands for
itself. -/
theorem ptonLoop_escaped (hne : c ≠ ch '[') (hdigit : isDigit c = false) (rest dst cur : List UInt8) :
    nsNamePtonLoop dstsiz (c :: rest) true dst cur =
      if dstsiz ≤ dst.length + 1 + cur.length then fail .emsgsize
      else nsNamePtonLoop dstsiz rest false dst (cur ++ [c]) := by
  by_cases hroom : dstsiz ≤ dst.length + 1 + cur.length
  · rcases rest with _ | ⟨c₂, _ | ⟨c₃, rest⟩⟩ <;> simp [nsNamePtonLoop, putByte, hne, hdigit, hroom, fail]
  · rcases rest with _ | ⟨c₂, _ | ⟨c₃, rest⟩⟩ <;> simp [nsNamePtonLoop, putByte, hne, hdigit, hroom, done]

/-- **A character that was printed is read back.** -/
theorem ptonLoop_char (c : UInt8) (rest dst cur : List UInt8) :
    nsNamePtonLoop dstsiz (charText c ++ rest) false dst cur =
      if dstsiz ≤ dst.length + 1 + cur.length then fail .emsgsize
      else nsNamePtonLoop dstsiz rest false dst (cur ++ [c]) := by
  have hput : ∀ c, putByte dstsiz dst cur c =
      if dstsiz ≤ dst.length + 1 + cur.length then fail .emsgsize else done (cur ++ [c]) := fun _ => rfl
  rcases charText_cases c with ⟨h, hne, hdigit⟩ | ⟨c₁, c₂, c₃, h, hne, h₁, h₂, h₃, hdec⟩ | ⟨h, hback, hdot⟩
  · rw [h, List.cons_append, List.singleton_append, nsNamePtonLoop, if_pos rfl, ptonLoop_escaped hne hdigit]
  · have hlt := c.toNat_lt
    have hle : decimal c₁ c₂ c₃ ≤ 255 := by omega
    have hback : (decimal c₁ c₂ c₃).toUInt8 = c := by
      rw [hdec]
      simp
    rw [h]
    simp only [List.cons_append, List.nil_append, nsNamePtonLoop, if_true, if_neg hne, h₁, h₂, h₃, Bool.and_self,
      decide_eq_true hle, hput, hback]
    split_ifs <;> rfl
  · rw [h]
    simp only [List.cons_append, List.nil_append, nsNamePtonLoop, if_neg hback, if_neg hdot, hput]
    split_ifs <;> rfl

theorem ptonLoop_chars (ht : t ≠ []) (rest dst cur : List UInt8) :
    nsNamePtonLoop dstsiz (t.flatMap charText ++ rest) false dst cur =
      if dst.length + 1 + (cur ++ t).length ≤ dstsiz then nsNamePtonLoop dstsiz rest false dst (cur ++ t)
      else fail .emsgsize := by
  induction t generalizing cur with
  | nil => exact absurd rfl ht
  | cons c t ih =>
    rw [List.flatMap_cons, List.append_assoc, ptonLoop_char]
    by_cases h0 : t = []
    · subst h0
      simp only [List.flatMap_nil, List.nil_append, List.length_append, List.length_singleton]
      split_ifs <;> first | rfl | omega
    · rw [ih h0, List.append_assoc, List.singleton_append]
      simp only [List.length_append, List.length_cons]
      split_ifs <;> first | rfl | omega

theorem closeLabel_of_lt (hlt : cur.length < 64) (hroom : dst.length < dstsiz) :
    closeLabel dstsiz dst cur = done (dst ++ cur.length.toUInt8 :: cur) := by
  have hbits : cur.length &&& 0xc0 = 0 := by
    have hall : ∀ n : Fin 64, n.val &&& 0xc0 = 0 := by decide
    exact hall ⟨_, hlt⟩
  rw [closeLabel, if_neg (not_not.2 hbits), if_neg (not_le.2 hroom)]

theorem head_charText_ne_dot (c : UInt8) : (charText c).head? ≠ some (ch '.') := by
  rcases charText_cases c with ⟨h, -⟩ | ⟨_, _, _, h, -⟩ | ⟨h, -, hdot⟩
  · rw [h]
    exact fun h => absurd (Option.some.inj h) (by decide)
  · rw [h]
    exact fun h => absurd (Option.some.inj h) (by decide)
  · rw [h]
    exact fun h => hdot (Option.some.inj h)

/-- A text of labels does not begin with a dot. -/
theorem head_flatMap_charText_ne_dot (ht : t ≠ []) (rest : List UInt8) :
    (t.flatMap charText ++ rest).head? ≠ some (ch '.') := by
  obtain ⟨c, t, rfl⟩ := List.exists_cons_of_ne_nil ht
  obtain ⟨x, u, hx⟩ := List.exists_cons_of_ne_nil (charText_ne_nil c)
  have := head_charText_ne_dot c
  rw [List.flatMap_cons, hx]
  rw [hx] at this
  exact this

/-- **A name that was printed is read back**, if there is room for its labels. A dot
at its end says that it is fully qualified. -/
theorem ptonLoop_name (hls : ∀ l ∈ ls, IsText l) (hne : ls ≠ []) (hmax : dstsiz ≤ NS_MAXCDNAME) (dst : List UInt8)
    (q : Bool) : nsNamePtonLoop dstsiz (nameText ls ++ if q then [ch '.'] else []) false dst [] =
      if dst.length + (wire ls).length ≤ dstsiz then done (q, dst ++ wire ls) else fail .emsgsize := by
  induction ls generalizing dst with
  | nil => exact absurd rfl hne
  | cons label ls ih =>
    have hrest := fun l hl => hls l (List.mem_cons_of_mem _ hl)
    obtain ⟨t, rfl, ht, hlt⟩ := (hls label (List.mem_cons_self ..)).exists_cons
    have hpos := List.length_pos_iff.2 ht
    have hback : ¬ ch '.' = ch '\\' := by decide
    rw [nameText, labelText_text hlt, List.append_assoc, ptonLoop_chars ht, List.nil_append]
    have hlen : (wire ((t.length.toUInt8 :: t) :: ls)).length = t.length + 1 + (wire ls).length := by
      rw [wire_cons, List.length_append, List.length_cons]
    have hwire : 0 < (wire ls).length := by
      rw [length_wire]
      omega
    by_cases hroom : dst.length + 1 + t.length ≤ dstsiz
    · rw [if_pos hroom]
      have hclose := closeLabel_of_lt hlt (show dst.length < dstsiz by omega)
      have hdst : (dst ++ t.length.toUInt8 :: t).length = dst.length + (t.length + 1) := by
        rw [List.length_append, List.length_cons]
      cases ls with
      | nil =>
        have hw : (wire ([] : List (List UInt8))).length = 1 := rfl
        have htext : dotted ([] : List (List UInt8)) = [] := rfl
        have hname : closeName dstsiz (dst ++ t.length.toUInt8 :: t) t.length =
            if dst.length + (t.length + 1 + 1) ≤ dstsiz then done (dst ++ t.length.toUInt8 :: t ++ [0])
            else fail .emsgsize := by
          rw [closeName]
          by_cases hfits : dst.length + (t.length + 1 + 1) ≤ dstsiz
          · have hmax' : ¬ NS_MAXCDNAME < (dst ++ t.length.toUInt8 :: t ++ [0]).length := by
              rw [List.length_append, hdst, List.length_singleton]
              omega
            simp only [if_pos hfits, if_neg (by omega : ¬ (t.length ≠ 0 ∧ dstsiz ≤ (dst ++ t.length.toUInt8 :: t).length)),
              if_neg hpos.ne', if_neg hmax']
          · rw [if_neg hfits, if_pos (by omega)]
        rw [htext, List.nil_append, hlen, hw, wire_cons, wire_nil, ← List.append_assoc]
        cases q with
        | false =>
          simp only [Bool.false_eq_true, if_false, nsNamePtonLoop, hclose, done, hname]
          split_ifs <;> rfl
        | true =>
          simp only [if_true, nsNamePtonLoop, if_neg hback, hclose, done, hname]
          split_ifs <;> rfl
      | cons label' ls =>
        obtain ⟨t', rfl, ht', hlt'⟩ := (hrest label' (List.mem_cons_self ..)).exists_cons
        generalize htail : (if q then [ch '.'] else []) = tail at ih ⊢
        have hhead : (nameText ((t'.length.toUInt8 :: t') :: ls) ++ tail).head? ≠ some (ch '.') := by
          rw [nameText, labelText_text hlt', List.append_assoc]
          exact head_flatMap_charText_ne_dot ht' _
        have hnil : nameText ((t'.length.toUInt8 :: t') :: ls) ++ tail ≠ [] := by
          rw [nameText, List.append_assoc]
          exact fun h => labelText_ne_nil (hrest _ (List.mem_cons_self ..)).isLabel (List.append_eq_nil_iff.1 h).1
        have hdotted : dotted ((t'.length.toUInt8 :: t') :: ls) ++ tail =
            ch '.' :: (nameText ((t'.length.toUInt8 :: t') :: ls) ++ tail) := rfl
        rw [hdotted]
        simp only [nsNamePtonLoop, if_neg hback, if_true, hclose, done, if_neg hnil, hhead, ht, or_self, if_false]
        rw [ih hrest (List.cons_ne_nil _ _), hdst, @wire_cons (t.length.toUInt8 :: t), List.length_append,
          List.length_cons, List.append_assoc]
        simp only [Nat.add_assoc]
        rfl
    · rw [if_neg hroom, if_neg (by omega)]

end DnsName

end Mowgli
