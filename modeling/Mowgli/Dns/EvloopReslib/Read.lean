import Mowgli.Dns.EvloopReslib.Text
/-!
# Names that are read from text

What `mowgli_dns_ns_name_pton` accepts is a row of labels of text, each of 1 to 63
bytes, and not more than 255 bytes with the root. Text that was printed and text
that is read are two ways to write a name, and to print what was read and read
it again gives the same labels.
-/

namespace Mowgli

namespace DnsName

variable {src dst cur t out : List UInt8} {dstsiz : ℕ} {c : UInt8} {q esc : Bool} {label : List UInt8}
  {ls : List (List UInt8)}

/-- A name of labels of text, that has at most 255 bytes. -/
structure IsName (ls : List (List UInt8)) : Prop where
  text : ∀ l ∈ ls, IsText l
  size : (wire ls).length ≤ NS_MAXCDNAME

theorem IsName.isLabel (h : IsName ls) : ∀ l ∈ ls, IsLabel l := fun l hl => (h.text l hl).isLabel

theorem wire_append (ls : List (List UInt8)) (label : List UInt8) :
    wire (ls ++ [label]) = ls.flatten ++ label ++ [0] := by
  rw [wire, LabelCode.wire, List.flatten_append, List.flatten_singleton]
  rfl

theorem flatten_append_label (ls : List (List UInt8)) (label : List UInt8) :
    (ls ++ [label]).flatten = ls.flatten ++ label := by
  rw [List.flatten_append, List.flatten_singleton]

theorem forall_mem_append_label (hls : ∀ l ∈ ls, IsText l) (h0 : cur ≠ []) (hlt : cur.length < 64) :
    ∀ l ∈ ls ++ [cur.length.toUInt8 :: cur], IsText l := by
  intro l hl
  rcases List.mem_append.1 hl with hl | hl
  · exact hls l hl
  · exact List.mem_singleton.1 hl ▸ .mk' h0 hlt

/-- Of a label that is in less than 256 bytes, the upper bits of its length say
whether it is too long. -/
theorem closeLabel_eq_done (hcur : cur.length < 256) (h : closeLabel dstsiz dst cur = done out) :
    cur.length < 64 ∧ dst.length < dstsiz ∧ out = dst ++ cur.length.toUInt8 :: cur := by
  unfold closeLabel at h
  by_cases hbits : cur.length &&& 0xc0 ≠ 0
  · rw [if_pos hbits] at h
    cases h
  rw [if_neg hbits] at h
  by_cases hroom : dstsiz ≤ dst.length
  · rw [if_pos hroom] at h
    cases h
  rw [if_neg hroom] at h
  have hsmall : ∀ n : Fin 256, n.val &&& 0xc0 = 0 → n.val < 64 := by decide +kernel
  exact ⟨hsmall ⟨cur.length, hcur⟩ (not_not.1 hbits), not_le.1 hroom, (Except.ok.inj (Option.some.inj h)).symm⟩

theorem closeName_eq_done {n : ℕ} (h : closeName dstsiz dst n = done out) :
    out = (if n = 0 then dst else dst ++ [0]) ∧ out.length ≤ NS_MAXCDNAME := by
  unfold closeName at h
  by_cases hroom : n ≠ 0 ∧ dstsiz ≤ dst.length
  · rw [if_pos hroom] at h
    cases h
  rw [if_neg hroom] at h
  generalize (if n = 0 then dst else dst ++ [0]) = res at h ⊢
  by_cases hsize : NS_MAXCDNAME < res.length
  · simp only [if_pos hsize] at h
    cases h
  · simp only [if_neg hsize] at h
    obtain rfl := Except.ok.inj (Option.some.inj h)
    exact ⟨rfl, not_lt.1 hsize⟩

theorem putByte_eq_done (h : putByte dstsiz dst cur c = done out) :
    dst.length + 1 + cur.length < dstsiz ∧ out = cur ++ [c] := by
  unfold putByte at h
  by_cases hroom : dstsiz ≤ dst.length + 1 + cur.length
  · rw [if_pos hroom] at h
    cases h
  · rw [if_neg hroom] at h
    exact ⟨not_le.1 hroom, (Except.ok.inj (Option.some.inj h)).symm⟩

theorem ptonLoop_bracket (h : c = ch '[') :
    nsNamePtonLoop dstsiz (c :: src) true dst cur = encodeBitsring src := by
  rcases src with _ | ⟨c₂, _ | ⟨c₃, src⟩⟩ <;> simp only [nsNamePtonLoop, if_pos h]

/-- A bit string is not accepted. -/
theorem encodeBitsring_ne_done {α : Type} (src : List UInt8) (a : α) : encodeBitsring src ≠ done a := by
  unfold encodeBitsring
  by_cases hend : ch ']' ∉ src
  · rw [if_pos hend]
    nofun
  rw [if_neg hend]
  rcases src with _ | ⟨x, _ | ⟨c, src⟩⟩
  · nofun
  · nofun
  · by_cases hx : x ≠ ch 'x' ∨ isXdigit c = false
    · simp only [if_pos hx]
      nofun
    · simp only [if_neg hx]
      nofun

/-- The text ended, with a dot or without. -/
theorem closed_eq_done {b : Bool} (h : (match closeLabel dstsiz dst cur with
      | some (.ok mid) =>
        match closeName dstsiz mid cur.length with
        | some (.ok dst) => done (b, dst)
        | some (.error e) => fail e
        | none => none
      | some (.error e) => fail e
      | none => none) = done (q, out)) :
    ∃ mid, closeLabel dstsiz dst cur = done mid ∧ closeName dstsiz mid cur.length = done out := by
  rcases hlabel : closeLabel dstsiz dst cur with _ | e | mid
  · rw [hlabel] at h
    cases h
  · rw [hlabel] at h
    cases h
  · rw [hlabel] at h
    dsimp only at h
    rcases hname : closeName dstsiz mid cur.length with _ | e | dst'
    · rw [hname] at h
      cases h
    · rw [hname] at h
      cases h
    · rw [hname] at h
      obtain ⟨-, rfl⟩ := Prod.mk.inj (Except.ok.inj (Option.some.inj h))
      exact ⟨mid, rfl, hname⟩

/-- There was a byte of a label. -/
theorem put_eq_done {src' : List UInt8} (h : (match putByte dstsiz dst cur c with
      | some (.ok cur) => nsNamePtonLoop dstsiz src' false dst cur
      | some (.error e) => fail e
      | none => none) = done (q, out)) :
    ∃ c cur', putByte dstsiz dst cur c = done cur' ∧ nsNamePtonLoop dstsiz src' false dst cur' = done (q, out) := by
  rcases hcur : putByte dstsiz dst cur c with _ | e | cur'
  · rw [hcur] at h
    cases h
  · rw [hcur] at h
    cases h
  · rw [hcur] at h
    exact ⟨c, cur', hcur, h⟩

/-- What a turn of the loop did where the text is accepted: it ended, or there was a
backslash, a byte of a label or a dot. -/
theorem ptonLoop_cases (h : nsNamePtonLoop dstsiz src esc dst cur = done (q, out)) :
    (∃ mid, closeLabel dstsiz dst cur = done mid ∧ closeName dstsiz mid cur.length = done out) ∨
    ∃ src', src'.length < src.length ∧
      (nsNamePtonLoop dstsiz src' true dst cur = done (q, out) ∨
        (∃ c cur', putByte dstsiz dst cur c = done cur' ∧ nsNamePtonLoop dstsiz src' false dst cur' = done (q, out)) ∨
        (cur ≠ [] ∧ ∃ mid, closeLabel dstsiz dst cur = done mid ∧
          nsNamePtonLoop dstsiz src' false mid [] = done (q, out))) := by
  cases src with
  | nil =>
    rw [nsNamePtonLoop] at h
    exact .inl (closed_eq_done h)
  | cons c src =>
    cases esc with
    | true =>
      refine .inr ?_
      by_cases hbit : c = ch '['
      · rw [ptonLoop_bracket hbit] at h
        exact absurd h (encodeBitsring_ne_done src (q, out))
      by_cases hdigit : isDigit c = true
      · rcases src with _ | ⟨c₂, _ | ⟨c₃, src⟩⟩
        · simp only [nsNamePtonLoop, if_neg hbit, if_pos hdigit] at h
          cases h
        · simp only [nsNamePtonLoop, if_neg hbit, if_pos hdigit] at h
          cases h
        · rw [nsNamePtonLoop, if_neg hbit, if_pos hdigit] at h
          by_cases hdec : isDigit c₂ && isDigit c₃ && decimal c c₂ c₃ ≤ 255
          · rw [if_pos hdec] at h
            exact ⟨src, by simp only [List.length_cons]; omega, .inr (.inl (put_eq_done h))⟩
          · rw [if_neg hdec] at h
            cases h
      · rw [ptonLoop_escaped hbit (by simpa using hdigit)] at h
        by_cases hroom : dstsiz ≤ dst.length + 1 + cur.length
        · rw [if_pos hroom] at h
          cases h
        · rw [if_neg hroom] at h
          exact ⟨src, Nat.lt_succ_self _, .inr (.inl ⟨c, _, if_neg hroom, h⟩)⟩
    | false =>
      rw [nsNamePtonLoop] at h
      by_cases hback : c = ch '\\'
      · rw [if_pos hback] at h
        exact .inr ⟨src, Nat.lt_succ_self _, .inl h⟩
      rw [if_neg hback] at h
      by_cases hdot : c = ch '.'
      · rw [if_pos hdot] at h
        by_cases hlast : src = []
        · simp only [if_pos hlast] at h
          exact .inl (closed_eq_done h)
        · simp only [if_neg hlast] at h
          rcases hlabel : closeLabel dstsiz dst cur with _ | e | mid
          · rw [hlabel] at h
            cases h
          · rw [hlabel] at h
            cases h
          · rw [hlabel] at h
            dsimp only at h
            by_cases hempty : cur = [] ∨ src.head? = some (ch '.')
            · rw [if_pos hempty] at h
              cases h
            · rw [if_neg hempty] at h
              exact .inr ⟨src, Nat.lt_succ_self _, .inr (.inr ⟨fun h0 => hempty (.inl h0), mid, rfl, h⟩)⟩
      · rw [if_neg hdot] at h
        exact .inr ⟨src, Nat.lt_succ_self _, .inr (.inl (put_eq_done h))⟩

/-- The end of the text, behind the label `cur` or behind a dot. -/
theorem end_sound (hls : ∀ l ∈ ls, IsText l) (hcur : cur.length < 256) {mid : List UInt8}
    (hlabel : closeLabel dstsiz ls.flatten cur = done mid) (hname : closeName dstsiz mid cur.length = done out) :
    ∃ ls, IsName ls ∧ out = wire ls := by
  obtain ⟨hlt, -, rfl⟩ := closeLabel_eq_done hcur hlabel
  obtain ⟨rfl, hsize⟩ := closeName_eq_done hname
  by_cases h0 : cur = []
  · subst h0
    exact ⟨ls, ⟨hls, hsize⟩, rfl⟩
  · have hlen : cur.length ≠ 0 := fun h => h0 (List.length_eq_zero_iff.1 h)
    rw [if_neg hlen] at hsize ⊢
    exact ⟨_, ⟨forall_mem_append_label hls h0 hlt, wire_append .. ▸ hsize⟩, (wire_append ..).symm⟩

/-- **What the loop accepts is a name**, behind the labels that were read. -/
theorem ptonLoop_sound (hmax : dstsiz ≤ 256) (hls : ∀ l ∈ ls, IsText l)
    (hcur : cur = [] ∨ ls.flatten.length + 1 + cur.length ≤ dstsiz)
    (h : nsNamePtonLoop dstsiz src esc ls.flatten cur = done (q, out)) : ∃ ls, IsName ls ∧ out = wire ls := by
  have hshort : cur.length < 256 := by
    rcases hcur with rfl | hcur
    · exact Nat.zero_lt_succ _
    · omega
  induction hn : src.length using Nat.strong_induction_on generalizing src esc ls cur with
  | _ n ih =>
    rcases ptonLoop_cases h with ⟨mid, hlabel, hname⟩ | ⟨src', hlen, h | ⟨c, cur', hput, h⟩ | ⟨hne, mid, hlabel, h⟩⟩
    · exact end_sound hls hshort hlabel hname
    · exact ih _ (hn ▸ hlen) hls hcur h hshort rfl
    · obtain ⟨hroom, rfl⟩ := putByte_eq_done hput
      have hsize : ls.flatten.length + 1 + (cur ++ [c]).length ≤ dstsiz := by
        rw [List.length_append, List.length_singleton]
        omega
      exact ih _ (hn ▸ hlen) hls (.inr hsize) h (by omega) rfl
    · obtain ⟨hlt, -, rfl⟩ := closeLabel_eq_done hshort hlabel
      rw [← flatten_append_label] at h
      exact ih _ (hn ▸ hlen) (forall_mem_append_label hls hne hlt) (.inl rfl) h (Nat.zero_lt_succ _) rfl

/-- **What `mowgli_dns_ns_name_pton` accepts is a name.** -/
theorem nsNamePton_sound {k : CString} (hmax : dstsiz ≤ 256) (h : nsNamePton k dstsiz = done (q, out)) :
    ∃ ls, IsName ls ∧ out = wire ls :=
  ptonLoop_sound hmax (fun _ h => absurd h List.not_mem_nil : ∀ l ∈ [], IsText l) (.inl rfl) h

/-! ## The text of a name in a message -/

/-- What `mowgli_dns_dn_expand` makes of the labels `ls`: nothing for the root. -/
def expanded (ls : List (List UInt8)) : CString := .ofBuffer (if ls = [] then [] else nameText ls)

theorem charText_nul_free (c : UInt8) : 0 ∉ charText c :=
  forall_uint8 (P := fun c => 0 ∉ charText c) (by decide +kernel) c

theorem dotted_nul_free (hls : ∀ l ∈ ls, IsText l) : 0 ∉ dotted ls := by
  intro h0
  obtain ⟨label, hmem, h0⟩ := List.mem_flatMap.1 h0
  obtain ⟨t, rfl, -, hlt⟩ := (hls label hmem).exists_cons
  rw [labelText_text hlt] at h0
  rcases List.mem_cons.1 h0 with h0 | h0
  · exact absurd h0 (by decide)
  · obtain ⟨c, -, h0⟩ := List.mem_flatMap.1 h0
    exact charText_nul_free c h0

/-- The text of a name is in front of its terminator. -/
theorem nameText_nul_free (hls : ∀ l ∈ ls, IsText l) : 0 ∉ nameText ls := by
  cases ls with
  | nil => decide
  | cons label ls =>
    have h0 := dotted_nul_free hls
    rw [dotted_cons] at h0
    exact fun h => h0 (List.mem_cons_of_mem _ h)

theorem ofBuffer_of_nul_free {buffer : List UInt8} (h : 0 ∉ buffer) : (CString.ofBuffer buffer).bytes = buffer := by
  refine List.takeWhile_eq_self_iff.2 fun c hc => ?_
  exact decide_eq_true fun h0 : c = 0 => h (h0 ▸ hc)

theorem ofBuffer_terminated (buffer : List UInt8) : CString.ofBuffer (buffer ++ [0]) = .ofBuffer buffer := by
  refine CString.ext ?_
  dsimp only [CString.ofBuffer]
  induction buffer with
  | nil => rfl
  | cons c buffer ih => rw [List.cons_append, List.takeWhile_cons, List.takeWhile_cons, ih]

theorem expanded_bytes (hls : ∀ l ∈ ls, IsText l) (hne : ls ≠ []) : (expanded ls).bytes = nameText ls := by
  rw [expanded, if_neg hne]
  exact ofBuffer_of_nul_free (nameText_nul_free hls)

/-- **What was printed is read back** as the same labels. -/
theorem nsNamePton_expanded (h : IsName ls) : nsNamePton (expanded ls) NS_MAXCDNAME = done (false, wire ls) := by
  by_cases hne : ls = []
  · subst hne
    rfl
  · have hloop := ptonLoop_name h.text hne le_rfl [] false
    rw [if_neg Bool.false_ne_true, List.append_nil, List.length_nil, Nat.zero_add, if_pos h.size] at hloop
    rw [nsNamePton, expanded_bytes h.text hne]
    exact hloop

/-- The text ends with a dot that has no backslash in front of it; if `esc`, there is one in
front of the text. -/
def finalDot : Bool → List UInt8 → Bool
  | _, [] => false
  | true, c :: src =>
    if isDigit c then
      match src with
      | _ :: _ :: src => finalDot false src
      | _ => false
    else finalDot false src
  | false, c :: src => if c = ch '\\' then finalDot true src else if c = ch '.' ∧ src = [] then true else finalDot false src

theorem finalDot_escaped (hdigit : isDigit c = false) (src : List UInt8) : finalDot true (c :: src) = finalDot false src := by
  rcases src with _ | ⟨c₂, _ | ⟨c₃, src⟩⟩ <;> simp [finalDot, hdigit]

/-- A text is read as fully qualified if it ends with a dot. -/
theorem ptonLoop_flag (h : nsNamePtonLoop dstsiz src esc dst cur = done (q, out)) : q = finalDot esc src := by
  fun_induction nsNamePtonLoop dstsiz src esc dst cur with
  | case6 src dst cur => exact absurd h (encodeBitsring_ne_done src (q, out))
  | case12 c src dst cur hbit hdigit cur' hput ih =>
    rw [finalDot_escaped (by simpa using hdigit)]
    exact ih h
  | _ => simp_all [finalDot, done, fail]

/-- The case of the letters does not matter for that. -/
theorem finalDot_lower (esc : Bool) (src : List UInt8) : finalDot esc (src.map toLower) = finalDot esc src := by
  have hplain := forall_uint8 (P := fun c => isDigit (toLower c) = isDigit c ∧ (toLower c = ch '\\' ↔ c = ch '\\') ∧
    (toLower c = ch '.' ↔ c = ch '.')) (by decide +kernel)
  fun_induction finalDot esc src with
  | case1 => rfl
  | case3 c src hdigit hshort =>
    rcases src with _ | ⟨c₂, _ | ⟨c₃, src⟩⟩
    · simp [finalDot]
    · simp [finalDot, (hplain c).1.trans hdigit]
    · exact absurd rfl (hshort c₂ c₃ src)
  | case4 c src hdigit ih => rw [List.map_cons, finalDot_escaped (by simpa [(hplain c).1] using hdigit), ih]
  | _ => simp_all [finalDot]

/-- **A text that is written as it is printed**, up to the case, is not read as fully
qualified. -/
theorem nsNamePton_not_qualified {k : CString} (hls : IsName ls) (hlower : (expanded ls).lower = k.lower)
    (h : nsNamePton k NS_MAXCDNAME = done (q, out)) : q = false := by
  have hbytes : (expanded ls).bytes.map toLower = k.bytes.map toLower := congrArg CString.bytes hlower
  rw [ptonLoop_flag h, ← finalDot_lower, ← hbytes, finalDot_lower, ← ptonLoop_flag (nsNamePton_expanded hls)]

/-- The text of a name with a dot at its end. -/
def fullyQualified (ls : List (List UInt8)) : CString := .ofBuffer (nameText ls ++ [ch '.'])

theorem fullyQualified_bytes (hls : ∀ l ∈ ls, IsText l) : (fullyQualified ls).bytes = nameText ls ++ [ch '.'] := by
  refine ofBuffer_of_nul_free fun h0 => ?_
  rcases List.mem_append.1 h0 with h0 | h0
  · exact nameText_nul_free hls h0
  · exact absurd (List.mem_singleton.1 h0) (by decide)

/-- With a dot at its end, a name has the same labels. -/
theorem nsNamePton_fullyQualified (h : IsName ls) (hne : ls ≠ []) :
    nsNamePton (fullyQualified ls) NS_MAXCDNAME = done (true, wire ls) := by
  have hloop := ptonLoop_name h.text hne le_rfl [] true
  rw [if_pos rfl, List.length_nil, Nat.zero_add, if_pos h.size] at hloop
  rw [nsNamePton, fullyQualified_bytes h.text]
  exact hloop

/-- Two names are not printed alike. -/
theorem expanded_injective {ls' : List (List UInt8)} (h : IsName ls) (h' : IsName ls')
    (heq : expanded ls = expanded ls') : ls = ls' := by
  have hwire := nsNamePton_expanded h
  rw [heq, nsNamePton_expanded h'] at hwire
  exact LabelCode.wire_injective h.isLabel h'.isLabel (Prod.mk.inj (Except.ok.inj (Option.some.inj hwire))).2.symm

/-- A text is printed as it was read, in the one way to write it: **to read the text
and to read what is printed for it comes to the same labels**. -/
theorem nsNamePton_printed {k : CString} (h : nsNamePton k NS_MAXCDNAME = done (q, out)) :
    ∃ ls, IsName ls ∧ out = wire ls ∧ nsNamePton (expanded ls) NS_MAXCDNAME = done (false, out) := by
  obtain ⟨ls, hls, rfl⟩ := nsNamePton_sound (by decide) h
  exact ⟨ls, hls, rfl, nsNamePton_expanded hls⟩

/-- "a\046b." has one label, which is printed with a dot behind a backslash. -/
theorem nsNamePton_printed_dot : ∃ ls, IsName ls ∧ [3, 97, 46, 98, 0] = wire ls ∧
    nsNamePton (expanded ls) NS_MAXCDNAME = done (false, [3, 97, 46, 98, 0]) :=
  nsNamePton_printed (k := ⟨[97, 92, 48, 52, 54, 98, 46], by decide⟩) (q := true) (by decide)

theorem nameText_head (hl : ∀ l ∈ ls, IsLabel l) (hne : ls ≠ []) : (nameText ls ++ [0]).head? ≠ some (ch '.') := by
  obtain ⟨label, ls, rfl⟩ := List.exists_cons_of_ne_nil hne
  have hl := (List.forall_mem_cons.1 hl).1
  obtain ⟨n, t, rfl, -, hflags, hlen⟩ := hl.exists_cons
  have hne := labelText_ne_nil hl
  rw [nameText, List.append_assoc]
  rw [labelText_cons] at hne ⊢
  by_cases htext : n &&& NS_CMPRSFLAGS = 0
  · rw [if_pos htext] at hne ⊢
    refine head_flatMap_charText_ne_dot (fun h => hne ?_) _
    rw [h]
    rfl
  · obtain rfl := hflags.resolve_left htext
    rw [if_neg htext] at hne ⊢
    cases t with
    | nil => cases hlen
    | cons count bits => exact fun h => absurd (Option.some.inj h) (by decide)

section

variable {msg msg' : List UInt8} {eom x k : ℕ} {name : CString}

/-- What `mowgli_dns_dn_expand` makes of a name that is in the message. -/
theorem dnExpand_of_reads (heom : eom ≤ msg.length) (h : Reads msg eom x NS_MAXCDNAME k ls) (dstsiz : ℕ) :
    (dnExpand msg eom x dstsiz = done (k, expanded ls) ∧ (nameText ls).length < dstsiz) ∨
    (dnExpand msg eom x dstsiz = fail .emsgsize ∧ dstsiz ≤ (nameText ls).length + 1 ∧
      ((∀ l ∈ ls, IsText l) → dstsiz ≤ (nameText ls).length)) := by
  obtain ⟨c, hname, -⟩ := id h
  have hls := hname.isLabel
  have hpos : 0 < k := by
    have := hname.bounds
    omega
  rw [dnExpand, nsNameUncompress, nsNameUnpack_of_reads heom h]
  rcases nsNameNtop_outcome hls dstsiz with ⟨hntop, hlt⟩ | ⟨hntop, hle⟩
  · refine .inl ⟨?_, hlt⟩
    simp only [done, hntop]
    by_cases hne : ls = []
    · subst hne
      have hroot : (nameText [] ++ [0]).head? = some (ch '.') := rfl
      rw [if_pos ⟨hpos, hroot⟩]
      rfl
    · have hhead := nameText_head hls hne
      rw [if_neg fun h => hhead h.2, expanded, if_neg hne, ofBuffer_terminated]
  · simp only [done, hntop]
    exact .inr ⟨rfl, hle⟩

/-- **A name of text is expanded** exactly if its text fits. -/
theorem dnExpand_of_text (heom : eom ≤ msg.length) (h : Reads msg eom x NS_MAXCDNAME k ls) (hls : ∀ l ∈ ls, IsText l)
    (dstsiz : ℕ) : dnExpand msg eom x dstsiz =
      if (nameText ls).length < dstsiz then done (k, expanded ls) else fail .emsgsize := by
  rcases dnExpand_of_reads heom h dstsiz with ⟨heq, hlt⟩ | ⟨heq, -, hle⟩
  · rw [heq, if_pos hlt]
  · rw [heq, if_neg (not_lt.2 (hle hls))]

/-- **What is expanded is in the message.** -/
theorem dnExpand_eq_done (heom : eom ≤ msg.length) (h : dnExpand msg eom x dstsiz = done (k, name)) :
    ∃ ls, Reads msg eom x NS_MAXCDNAME k ls ∧ name = expanded ls ∧ (nameText ls).length < dstsiz := by
  rcases nsNameUnpack_outcome x heom (by decide : 0 < NS_MAXCDNAME) with
    ⟨k', ls, hreads, -⟩ | ⟨-, hfail | ⟨-, hnone⟩⟩
  · rcases dnExpand_of_reads heom hreads dstsiz with ⟨heq, hlt⟩ | ⟨heq, -⟩
    · rw [heq] at h
      obtain ⟨rfl, rfl⟩ := Prod.mk.inj (Except.ok.inj (Option.some.inj h))
      exact ⟨ls, hreads, rfl, hlt⟩
    · rw [heq] at h
      cases h
  · rw [dnExpand, nsNameUncompress, hfail] at h
    cases h
  · rw [dnExpand, nsNameUncompress, hnone] at h
    cases h

/-- **What is expanded is read back**: `mowgli_dns_dn_skipname` gets past as many bytes,
and if no label is a bit string, `mowgli_dns_ns_name_pton` makes the labels again
from the text. -/
theorem dnExpand_read_back (heom : eom ≤ msg.length) (h : dnExpand msg eom x dstsiz = done (k, name)) :
    dnSkipname msg eom x = done k ∧ ∃ ls, Reads msg eom x NS_MAXCDNAME k ls ∧
      ((∀ l ∈ ls, IsText l) → nsNamePton name NS_MAXCDNAME = done (false, wire ls)) := by
  obtain ⟨ls, hreads, rfl, -⟩ := dnExpand_eq_done heom h
  obtain ⟨c, -, -, hsize⟩ := id hreads
  exact ⟨dnSkipname_of_reads hreads, ls, hreads, fun hls => nsNamePton_expanded ⟨hls, hsize⟩⟩

/-- The name "b.a", with a pointer. -/
theorem dnExpand_read_back_pointer : dnSkipname [1, 97, 0, 1, 98, 0xc0, 0] 7 3 = done 4 ∧
    ∃ ls, Reads [1, 97, 0, 1, 98, 0xc0, 0] 7 3 NS_MAXCDNAME 4 ls ∧
      ((∀ l ∈ ls, IsText l) → nsNamePton ⟨[98, 46, 97], by decide⟩ NS_MAXCDNAME = done (false, wire ls)) :=
  dnExpand_read_back (by decide) (by decide +kernel : dnExpand _ 7 3 4 = _)

/-- With a byte behind the message, the function is defined. -/
theorem dnExpand_ne_none (heom : eom < msg.length) : dnExpand msg eom x dstsiz ≠ none := by
  rcases nsNameUnpack_total x heom (by decide : 0 < NS_MAXCDNAME) with ⟨k, ls, hreads, -⟩ | ⟨-, hfail⟩
  · rcases dnExpand_of_reads heom.le hreads dstsiz with ⟨heq, -⟩ | ⟨heq, -⟩
    · rw [heq]
      nofun
    · rw [heq]
      nofun
  · rw [dnExpand, nsNameUncompress, hfail]
    nofun

theorem dnExpand_congr (x dstsiz : ℕ) (h : msg.take eom = msg'.take eom) (heom : eom < msg.length) (heom' : eom < msg'.length) :
    dnExpand msg eom x dstsiz = dnExpand msg' eom x dstsiz := by
  rw [dnExpand, dnExpand, nsNameUncompress, nsNameUncompress,
    nsNameUnpack_congr h heom heom' (by decide : 0 < NS_MAXCDNAME)]

end

end DnsName

end Mowgli
