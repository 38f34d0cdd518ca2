import Mowgli.Dns.EvloopReslib.Model
import Mowgli.Library.Labels
/-!
# Names that are read from a message

`mowgli_dns_ns_name_unpack` reads a name exactly if there is one in the
message, its labels fit, and it is not more than what the message could have:
so a pointer that leads back into its own name is rejected. What it answers
depends on nothing behind the message, although it looks at one byte there.
`mowgli_dns_ns_name_skip` gets past the same names.
-/

namespace Mowgli

namespace DnsName

variable {msg msg' dst t s out : List UInt8} {eom src dstsiz srcp checked fuel k e c l : ℕ} {len : Option ℕ}
  {n b : UInt8} {label label' : List UInt8} {ls : List (List UInt8)}

/-! ## Labels -/

/-- The types of labels, by the upper two bits. -/
theorem flags_cases (n : UInt8) : n &&& NS_CMPRSFLAGS = 0 ∨ n &&& NS_CMPRSFLAGS = NS_TYPE_ELT ∨
    n &&& NS_CMPRSFLAGS = NS_CMPRSFLAGS ∨ n &&& NS_CMPRSFLAGS = 0x80 :=
  forall_uint8 (P := fun n => n &&& NS_CMPRSFLAGS = 0 ∨ n &&& NS_CMPRSFLAGS = NS_TYPE_ELT ∨
    n &&& NS_CMPRSFLAGS = NS_CMPRSFLAGS ∨ n &&& NS_CMPRSFLAGS = 0x80) (by decide +kernel) n

theorem flags_eq_zero_iff : n &&& NS_CMPRSFLAGS = 0 ↔ n < 64 :=
  forall_uint8 (P := fun n => n &&& NS_CMPRSFLAGS = 0 ↔ n < 64) (by decide +kernel) n

theorem type_of_flags (h : n &&& NS_CMPRSFLAGS = 0 ∨ n = LABELTYPE_BITSTRING) :
    n &&& NS_CMPRSFLAGS = 0 ∨ n &&& NS_CMPRSFLAGS = NS_TYPE_ELT := by
  rcases h with h | rfl
  · exact .inl h
  · exact .inr rfl

theorem elt_ne_zero : NS_TYPE_ELT ≠ 0 := by decide

theorem elt_ne_cmprsflags : NS_TYPE_ELT ≠ NS_CMPRSFLAGS := by decide

theorem cmprsflags_ne_zero : NS_CMPRSFLAGS ≠ 0 := by decide

/-- A label in a message: its type byte, and as many bytes as `labellen` says. It is
a text of up to 63 bytes or a bit string. -/
structure IsLabel (label : List UInt8) : Prop where
  type : ∃ n t, label = n :: t ∧ n ≠ 0 ∧ (n &&& NS_CMPRSFLAGS = 0 ∨ n = LABELTYPE_BITSTRING)
  len : labellen label = some (some (label.length - 1))

theorem labellen_cons (n : UInt8) (t : List UInt8) : labellen (n :: t) =
    if n &&& NS_CMPRSFLAGS = NS_CMPRSFLAGS then some none
    else if n &&& NS_CMPRSFLAGS = NS_TYPE_ELT then
      if n = LABELTYPE_BITSTRING then
        t.head?.map fun bitlen => some ((bitLength bitlen + 7) / 8 + 1)
      else some none
    else some (some n.toNat) := by
  cases t <;> rfl

theorem labellen_text (h : n &&& NS_CMPRSFLAGS = 0) : labellen (n :: t) = some (some n.toNat) := by
  rw [labellen_cons, h, if_neg cmprsflags_ne_zero.symm, if_neg elt_ne_zero.symm]

theorem labellen_pointer (h : n &&& NS_CMPRSFLAGS = NS_CMPRSFLAGS) : labellen (n :: t) = some none := by
  rw [labellen_cons, if_pos h]

theorem labellen_elt (h : n &&& NS_CMPRSFLAGS = NS_TYPE_ELT) (hn : n ≠ LABELTYPE_BITSTRING) :
    labellen (n :: t) = some none := by
  rw [labellen_cons, h, if_neg elt_ne_cmprsflags, if_pos rfl, if_neg hn]

theorem labellen_bitstring (t : List UInt8) : labellen (LABELTYPE_BITSTRING :: b :: t) =
    some (some ((bitLength b + 7) / 8 + 1)) := rfl

/-- What is behind a label makes no difference. -/
theorem labellen_append (h : labellen t = some (some l)) : labellen (t ++ s) = some (some l) := by
  cases t with
  | nil => cases h
  | cons n t =>
    rw [List.cons_append, labellen_cons]
    rw [labellen_cons] at h
    split_ifs at h ⊢
    · exact h
    · cases t with
      | nil => cases h
      | cons b t => exact h
    · exact h
    · exact h

/-- Nor does what is behind the bytes that it has. -/
theorem labellen_of_append (h : labellen (n :: (t ++ s)) = some (some t.length)) :
    labellen (n :: t) = some (some t.length) := by
  cases t with
  | nil =>
    rw [List.nil_append, labellen_cons] at h
    rw [labellen_cons]
    split_ifs at h ⊢
    · exact h
    · cases s with
      | nil => cases h
      | cons b s => exact absurd (Option.some.inj (Option.some.inj h)) (Nat.succ_ne_zero _)
    · exact h
    · exact h
  | cons b t => exact h

namespace IsLabel

theorem exists_cons (h : IsLabel label) : ∃ n t, label = n :: t ∧ n ≠ 0 ∧
    (n &&& NS_CMPRSFLAGS = 0 ∨ n = LABELTYPE_BITSTRING) ∧ labellen (n :: t) = some (some t.length) := by
  obtain ⟨n, t, rfl, hn, hflags⟩ := h.type
  exact ⟨n, t, rfl, hn, hflags, h.len⟩

/-- A label of text: its length, and the text. -/
theorem text (ht : t ≠ []) (hlen : t.length < 64) : IsLabel (t.length.toUInt8 :: t) := by
  have hto : t.length.toUInt8.toNat = t.length := by
    rw [UInt8.toNat_ofNat']
    exact Nat.mod_eq_of_lt (by omega)
  have hflags : t.length.toUInt8 &&& NS_CMPRSFLAGS = 0 := flags_eq_zero_iff.2 (by
    rw [UInt8.lt_iff_toNat_lt, hto]
    exact hlen)
  refine ⟨⟨_, t, rfl, fun h0 => ht ?_, .inl hflags⟩, ?_⟩
  · rw [h0] at hto
    exact List.length_eq_zero_iff.1 hto.symm
  · rw [labellen_text hflags, hto]
    rfl

end IsLabel

/-- The labels and pointers of domain names. -/
def labelCode : LabelCode UInt8 where
  stop := 0
  IsPointer n := n &&& NS_CMPRSFLAGS = NS_CMPRSFLAGS
  place := pointer
  IsLabel := IsLabel
  stop_not_pointer := by decide
  label_head label h := by
    obtain ⟨n, t, rfl, hn, hflags, -⟩ := h.exists_cons
    refine ⟨n, t, rfl, hn, fun hptr => ?_⟩
    rcases hflags with h0 | rfl
    · rw [h0] at hptr
      exact cmprsflags_ne_zero hptr.symm
    · exact elt_ne_cmprsflags hptr
  prefix_free label label' t t' h h' heq := by
    have hlen := labellen_append (s := t) h.len
    rw [heq, labellen_append h'.len] at hlen
    obtain ⟨n, u, rfl, -⟩ := h.exists_cons
    obtain ⟨n', u', rfl, -⟩ := h'.exists_cons
    have hu : u'.length = u.length := by simpa using hlen
    exact (List.append_inj heq (by simp [hu])).1

/-- The labels `ls`, one behind the other, and the root. -/
abbrev wire (ls : List (List UInt8)) : List UInt8 := labelCode.wire ls

/-- At `x` in a message is the name with the labels `ls`. -/
abbrev NameAt (msg : List UInt8) (x : ℕ) (ls : List (List UInt8)) (e c : ℕ) : Prop := labelCode.NameAt msg x ls e c

theorem wire_nil : wire [] = [0] := rfl

theorem wire_cons : wire (label :: ls) = label ++ wire ls := by
  rw [wire, wire, LabelCode.wire, LabelCode.wire, List.flatten_cons, List.append_assoc]

theorem length_wire : (wire ls).length = ls.flatten.length + 1 := by
  rw [wire, LabelCode.wire, List.length_append]
  rfl

/-! ## A turn of `mowgli_dns_ns_name_unpack` -/

theorem unpackLoop_root (h : msg[srcp]? = some 0) (hroom : dst.length < dstsiz) :
    nsNameUnpackLoop msg eom src dstsiz (fuel + 1) srcp dst checked len =
      done (len.getD (srcp + 1 - src), dst ++ [0]) := by
  simp only [nsNameUnpackLoop, h, if_true, if_pos hroom]

theorem unpackLoop_label (hl : IsLabel label) (h : label <+: msg.drop srcp) :
    nsNameUnpackLoop msg eom src dstsiz (fuel + 1) srcp dst checked len =
      if dstsiz ≤ dst.length + label.length ∨ eom ≤ srcp + label.length then fail .emsgsize
      else
        nsNameUnpackLoop msg eom src dstsiz fuel (srcp + label.length) (dst ++ label) (checked + label.length) len := by
  obtain ⟨n, t, rfl, hn, hflags, hlen⟩ := hl.exists_cons
  have htype := type_of_flags hflags
  have hlen' : labellen (msg.drop srcp) = some (some t.length) := by
    obtain ⟨s, hs⟩ := h
    rw [← hs]
    exact labellen_append hlen
  have hload : Bytes.load msg (srcp + 1) t.length = some t := by
    have ht : t <+: msg.drop (srcp + 1) := (append_prefix_drop (l := [n]).1 h).2
    have hle := length_le_of_prefix_drop h (List.cons_ne_nil _ _)
    rw [List.length_cons] at hle
    rw [Bytes.load_of_le (by omega), ← List.prefix_iff_eq_take.1 ht]
  simp only [nsNameUnpackLoop, getElem?_of_prefix_drop h, if_neg hn, if_pos htype, hlen', hload, List.length_cons]
  rw [← Nat.add_assoc dst.length, Nat.add_right_comm srcp 1, ← Nat.add_assoc srcp]

theorem unpackLoop_pointer (ha : msg[srcp]? = some n) (hptr : n &&& NS_CMPRSFLAGS = NS_CMPRSFLAGS)
    (hb : msg[srcp + 1]? = some b) :
    nsNameUnpackLoop msg eom src dstsiz (fuel + 1) srcp dst checked len =
      if eom ≤ srcp + 1 ∨ eom ≤ pointer n b ∨ eom ≤ checked + 2 then fail .emsgsize
      else
        nsNameUnpackLoop msg eom src dstsiz fuel (pointer n b) dst (checked + 2) (some (len.getD (srcp + 2 - src))) := by
  have hn : n ≠ 0 := by
    rintro rfl
    exact cmprsflags_ne_zero hptr.symm
  have htype : ¬ (n &&& NS_CMPRSFLAGS = 0 ∨ n &&& NS_CMPRSFLAGS = NS_TYPE_ELT) := by
    rw [hptr]
    decide
  simp only [nsNameUnpackLoop, ha, if_neg hn, if_neg htype, if_pos hptr, hb]
  by_cases h₁ : eom ≤ srcp + 1
  · rw [if_pos h₁, if_pos (.inl h₁)]
  · by_cases h₂ : eom ≤ pointer n b
    · rw [if_neg h₁, if_pos h₂, if_pos (.inr (.inl h₂))]
    · rw [if_neg h₁, if_neg h₂]
      simp only [h₁, h₂, false_or]

/-- What a turn of the loop can do: it ends at the root, it goes on behind a label or
where a pointer leads, it fails, or it looks behind the block for the length of
a bit string. -/
theorem unpackLoop_cases (fuel src checked : ℕ) (len : Option ℕ) (hsrcp : srcp < eom) (heom : eom ≤ msg.length) (hdst : dst.length < dstsiz) :
    (msg[srcp]? = some 0 ∧ nsNameUnpackLoop msg eom src dstsiz (fuel + 1) srcp dst checked len =
      done (len.getD (srcp + 1 - src), dst ++ [0])) ∨
    (∃ label, IsLabel label ∧ label <+: msg.drop srcp ∧ dst.length + label.length < dstsiz ∧
      srcp + label.length < eom ∧ nsNameUnpackLoop msg eom src dstsiz (fuel + 1) srcp dst checked len =
        nsNameUnpackLoop msg eom src dstsiz fuel (srcp + label.length) (dst ++ label) (checked + label.length) len) ∨
    (∃ n b, msg[srcp]? = some n ∧ n &&& NS_CMPRSFLAGS = NS_CMPRSFLAGS ∧ msg[srcp + 1]? = some b ∧ srcp + 1 < eom ∧
      pointer n b < eom ∧ checked + 2 < eom ∧ nsNameUnpackLoop msg eom src dstsiz (fuel + 1) srcp dst checked len =
        nsNameUnpackLoop msg eom src dstsiz fuel (pointer n b) dst (checked + 2) (some (len.getD (srcp + 2 - src)))) ∨
    nsNameUnpackLoop msg eom src dstsiz (fuel + 1) srcp dst checked len = fail .emsgsize ∨
    (srcp + 1 = msg.length ∧ nsNameUnpackLoop msg eom src dstsiz (fuel + 1) srcp dst checked len = none) := by
  have hlt : srcp < msg.length := by omega
  have hn := List.getElem?_eq_getElem hlt
  have hdrop := List.drop_eq_getElem_cons hlt
  generalize msg[srcp] = n at hn hdrop
  by_cases h0 : n = 0
  · subst h0
    exact .inl ⟨hn, unpackLoop_root hn hdst⟩
  -- where `labellen` says how long the label is, it fits or it does not
  have hlabel : ∀ l, (n &&& NS_CMPRSFLAGS = 0 ∨ n = LABELTYPE_BITSTRING) → labellen (msg.drop srcp) = some (some l) →
      (∃ label, IsLabel label ∧ label <+: msg.drop srcp ∧ dst.length + label.length < dstsiz ∧
        srcp + label.length < eom ∧ nsNameUnpackLoop msg eom src dstsiz (fuel + 1) srcp dst checked len =
          nsNameUnpackLoop msg eom src dstsiz fuel (srcp + label.length) (dst ++ label) (checked + label.length) len) ∨
      nsNameUnpackLoop msg eom src dstsiz (fuel + 1) srcp dst checked len = fail .emsgsize := by
    intro l hflags hlen
    by_cases hroom : dstsiz ≤ dst.length + l + 1 ∨ eom ≤ srcp + 1 + l
    · have htype := type_of_flags hflags
      refine .inr ?_
      simp only [nsNameUnpackLoop, hn, if_neg h0, if_pos htype, hlen, if_pos hroom]
    · have htake : ((msg.drop (srcp + 1)).take l).length = l := by
        rw [List.length_take, List.length_drop]
        omega
      have hpre : n :: (msg.drop (srcp + 1)).take l <+: msg.drop srcp := by
        rw [hdrop]
        exact (List.cons_prefix_cons).2 ⟨rfl, List.take_prefix _ _⟩
      have hl : IsLabel (n :: (msg.drop (srcp + 1)).take l) := by
        refine ⟨⟨n, _, rfl, h0, hflags⟩, ?_⟩
        refine labellen_of_append (s := (msg.drop (srcp + 1)).drop l) ?_
        rw [List.take_append_drop, ← hdrop, hlen, htake]
      have hsize : (n :: (msg.drop (srcp + 1)).take l).length = l + 1 := by rw [List.length_cons, htake]
      refine .inl ⟨_, hl, hpre, by omega, by omega, ?_⟩
      rw [unpackLoop_label hl hpre, if_neg (by omega)]
  rcases flags_cases n with hflags | hflags | hflags | hflags
  · rcases hlabel n.toNat (.inl hflags) (hdrop ▸ labellen_text hflags) with h | h
    · exact .inr (.inl h)
    · exact .inr (.inr (.inr (.inl h)))
  · by_cases hbit : n = LABELTYPE_BITSTRING
    · cases hrest : msg.drop (srcp + 1) with
      | nil =>
        have hend : srcp + 1 = msg.length := by
          have := List.drop_eq_nil_iff.1 hrest
          omega
        refine .inr (.inr (.inr (.inr ⟨hend, ?_⟩)))
        have hlen : labellen (msg.drop srcp) = none := by
          rw [hdrop, hrest, hbit]
          rfl
        simp only [nsNameUnpackLoop, hn, if_neg h0, hflags, or_true, if_true, hlen]
      | cons b t =>
        have hlen : labellen (msg.drop srcp) = some (some ((bitLength b + 7) / 8 + 1)) := by
          rw [hdrop, hrest, hbit]
          exact labellen_bitstring t
        rcases hlabel _ (.inr hbit) hlen with h | h
        · exact .inr (.inl h)
        · exact .inr (.inr (.inr (.inl h)))
    · refine .inr (.inr (.inr (.inl ?_)))
      have hlen : labellen (msg.drop srcp) = some none := hdrop ▸ labellen_elt hflags hbit
      simp only [nsNameUnpackLoop, hn, if_neg h0, hflags, or_true, if_true, hlen]
  · by_cases hroom : eom ≤ srcp + 1
    · refine .inr (.inr (.inr (.inl ?_)))
      have htype : ¬ (n &&& NS_CMPRSFLAGS = 0 ∨ n &&& NS_CMPRSFLAGS = NS_TYPE_ELT) := by
        rw [hflags]
        decide
      simp only [nsNameUnpackLoop, hn, if_neg h0, if_neg htype, if_pos hflags, if_pos hroom]
    · have hb := List.getElem?_eq_getElem (l := msg) (i := srcp + 1) (by omega)
      by_cases hgo : eom ≤ pointer n msg[srcp + 1] ∨ eom ≤ checked + 2
      · refine .inr (.inr (.inr (.inl ?_)))
        rw [unpackLoop_pointer hn hflags hb, if_pos (.inr hgo)]
      · refine .inr (.inr (.inl ⟨n, _, hn, hflags, hb, by omega, by omega, by omega, ?_⟩))
        rw [unpackLoop_pointer hn hflags hb, if_neg (by omega)]
  · refine .inr (.inr (.inr (.inl ?_)))
    have htype : ¬ (n &&& NS_CMPRSFLAGS = 0 ∨ n &&& NS_CMPRSFLAGS = NS_TYPE_ELT) := by
      rw [hflags]
      decide
    have hptr : ¬ n &&& NS_CMPRSFLAGS = NS_CMPRSFLAGS := by
      rw [hflags]
      decide
    simp only [nsNameUnpackLoop, hn, if_neg h0, if_neg htype, if_neg hptr]

/-! ## The names that are read -/

/-- **A name that is in the message is read**, if `dst` has room for it and the
message is larger than what is read up to the last pointer. -/
theorem unpackLoop_name (heom : eom ≤ msg.length) (h : NameAt (msg.take eom) srcp ls e c)
    (hroom : dst.length + (wire ls).length ≤ dstsiz) (hcheck : c = 0 ∨ checked + c < eom)
    (hfuel : dstsiz - dst.length + (eom - checked) < fuel) :
    nsNameUnpackLoop msg eom src dstsiz fuel srcp dst checked len = done (len.getD (e - src), dst ++ wire ls) := by
  have htake : (msg.take eom).length = eom := by
    rw [List.length_take]
    omega
  induction h generalizing dst checked fuel len with
  | root hx =>
    obtain ⟨fuel, rfl⟩ : ∃ f, fuel = f + 1 := ⟨fuel - 1, by omega⟩
    rw [length_wire] at hroom
    exact unpackLoop_root (getElem?_of_isPrefix (List.take_prefix _ _) hx) (by omega)
  | @label x e c label ls hl hpre h ih =>
    obtain ⟨fuel, rfl⟩ : ∃ f, fuel = f + 1 := ⟨fuel - 1, by omega⟩
    have hbounds := h.bounds
    have hpos := LabelCode.label_pos hl
    rw [length_wire, List.flatten_cons, List.length_append] at hroom
    rw [unpackLoop_label hl (prefix_drop_of_isPrefix (List.take_prefix _ _) hpre), if_neg (by omega), wire_cons,
      ← List.append_assoc]
    refine ih ?_ ?_ ?_
    · rw [length_wire, List.length_append]
      omega
    · split_ifs at hcheck with hc
      · exact .inl hc
      · exact .inr (by omega)
    · rw [List.length_append]
      omega
  | @pointer x e c a b ls ha hptr hb h ih =>
    obtain ⟨fuel, rfl⟩ : ∃ f, fuel = f + 1 := ⟨fuel - 1, by omega⟩
    have hbounds := h.bounds
    have hlt := (List.getElem?_eq_some_iff.1 hb).1
    have hplace : labelCode.place a b = pointer a b := rfl
    rw [unpackLoop_pointer (getElem?_of_isPrefix (List.take_prefix _ _) ha) hptr
      (getElem?_of_isPrefix (List.take_prefix _ _) hb), if_neg (by omega)]
    exact ih hroom (.inr (by omega)) (by omega)

/-- **Nothing else is**: what the loop comes to, and that it ends. -/
theorem unpackLoop_outcome (src : ℕ) (fuel srcp checked : ℕ) (dst : List UInt8) (len : Option ℕ) (heom : eom ≤ msg.length) (hsrcp : srcp < eom) (hdst : dst.length < dstsiz)
    (hfuel : dstsiz - dst.length + (eom - checked) < fuel) :
    (∃ ls e c, NameAt (msg.take eom) srcp ls e c ∧ dst.length + (wire ls).length ≤ dstsiz ∧
      (c = 0 ∨ checked + c < eom) ∧
      nsNameUnpackLoop msg eom src dstsiz fuel srcp dst checked len = done (len.getD (e - src), dst ++ wire ls)) ∨
    nsNameUnpackLoop msg eom src dstsiz fuel srcp dst checked len = fail .emsgsize ∨
    (eom = msg.length ∧ nsNameUnpackLoop msg eom src dstsiz fuel srcp dst checked len = none) := by
  induction fuel generalizing srcp dst checked len with
  | zero => omega
  | succ fuel ih =>
    rcases unpackLoop_cases fuel src checked len hsrcp heom hdst with
      ⟨h0, heq⟩ | ⟨label, hl, hpre, hroom, hlt, heq⟩ | ⟨n, b, ha, hptr, hb, hlt, hplace, hcheck, heq⟩ | heq | ⟨hend, heq⟩
    · refine .inl ⟨[], srcp + 1, 0, .root ?_, ?_, .inl rfl, heq⟩
      · rw [List.getElem?_take_of_lt hsrcp]
        exact h0
      · rw [wire_nil, List.length_singleton]
        exact hdst
    · have hpos := LabelCode.label_pos (C := labelCode) hl
      rw [heq]
      have hlen : (dst ++ label).length = dst.length + label.length := List.length_append
      rcases ih (srcp + label.length) (checked + label.length) (dst ++ label) len hlt (by omega) (by omega) with ⟨ls, e, c, hname, hsize, hcheck, hloop⟩ | hrest
      · refine .inl ⟨label :: ls, e, _, .label hl (prefix_drop_take hpre hlt.le) hname, ?_, ?_, ?_⟩
        · rw [wire_cons, List.length_append]
          omega
        · split_ifs with hc
          · exact .inl rfl
          · exact .inr (by omega)
        · rw [hloop, wire_cons, List.append_assoc]
      · exact .inr hrest
    · rw [heq]
      rcases ih (pointer n b) (checked + 2) dst (some (len.getD (srcp + 2 - src))) hplace hdst (by omega) with ⟨ls, e, c, hname, hsize, hcheck', hloop⟩ | hrest
      · refine .inl ⟨ls, srcp + 2, 2 + c, .pointer ?_ hptr ?_ hname, hsize, .inr (by omega), ?_⟩
        · rw [List.getElem?_take_of_lt hsrcp]
          exact ha
        · rw [List.getElem?_take_of_lt hlt]
          exact hb
        · rw [hloop]
          rfl
      · exact .inr hrest
    · exact .inr (.inl heq)
    · exact .inr (.inr ⟨by omega, heq⟩)

/-- The name that `mowgli_dns_ns_name_unpack` reads at `src`: there is one in the
message, with `k` bytes there, `dst` has room for it, and the message is larger
than what is read up to the last pointer. -/
def Reads (msg : List UInt8) (eom src dstsiz : ℕ) (k : ℕ) (ls : List (List UInt8)) : Prop :=
  ∃ c, NameAt (msg.take eom) src ls (src + k) c ∧ c < eom ∧ (wire ls).length ≤ dstsiz

theorem Reads.unique {k' : ℕ} {ls' : List (List UInt8)} (h : Reads msg eom src dstsiz k ls)
    (h' : Reads msg eom src dstsiz k' ls') : k = k' ∧ ls = ls' := by
  obtain ⟨c, hname, -⟩ := h
  obtain ⟨c', hname', -⟩ := h'
  obtain ⟨rfl, hk, -⟩ := hname.unique hname'
  exact ⟨by omega, rfl⟩

theorem nsNameUnpack_of_reads (heom : eom ≤ msg.length) (h : Reads msg eom src dstsiz k ls) :
    nsNameUnpack msg eom src dstsiz = done (k, wire ls) := by
  obtain ⟨c, hname, hc, hroom⟩ := h
  have hbounds := hname.bounds
  rw [List.length_take] at hbounds
  rw [nsNameUnpack, if_neg (by omega), unpackLoop_name heom hname (by simpa using hroom) (.inr (by omega)) (by simp)]
  rw [Option.getD_none, Nat.add_sub_cancel_left, List.nil_append]

/-- **What `mowgli_dns_ns_name_unpack` comes to**: it ends; it reads the name that
there is, or it fails, unless the last byte of the block is the type of a bit
string. -/
theorem nsNameUnpack_outcome (src : ℕ) (heom : eom ≤ msg.length) (hdst : 0 < dstsiz) :
    (∃ k ls, Reads msg eom src dstsiz k ls ∧ nsNameUnpack msg eom src dstsiz = done (k, wire ls)) ∨
    ((∀ k ls, ¬ Reads msg eom src dstsiz k ls) ∧
      (nsNameUnpack msg eom src dstsiz = fail .emsgsize ∨
        eom = msg.length ∧ nsNameUnpack msg eom src dstsiz = none)) := by
  by_cases hex : ∃ k ls, Reads msg eom src dstsiz k ls
  · obtain ⟨k, ls, h⟩ := hex
    exact .inl ⟨k, ls, h, nsNameUnpack_of_reads heom h⟩
  · refine .inr ⟨fun k ls h => hex ⟨k, ls, h⟩, ?_⟩
    by_cases hsrc : eom ≤ src
    · rw [nsNameUnpack, if_pos hsrc]
      exact .inl rfl
    · rw [nsNameUnpack, if_neg hsrc]
      rcases unpackLoop_outcome src (dstsiz + eom + 1) src 0 [] none heom
        (not_le.1 hsrc) hdst (by simp) with ⟨ls, e, c, hname, hsize, hcheck, -⟩ | h
      · have hbounds := hname.bounds
        refine absurd ⟨e - src, ls, c, ?_, by omega, by simpa using hsize⟩ hex
        rwa [Nat.add_sub_cancel' hbounds.1.le]
      · exact h

/-- With a byte behind the message, the function is defined. -/
theorem nsNameUnpack_total (src : ℕ) (heom : eom < msg.length) (hdst : 0 < dstsiz) :
    (∃ k ls, Reads msg eom src dstsiz k ls ∧ nsNameUnpack msg eom src dstsiz = done (k, wire ls)) ∨
    ((∀ k ls, ¬ Reads msg eom src dstsiz k ls) ∧ nsNameUnpack msg eom src dstsiz = fail .emsgsize) := by
  rcases nsNameUnpack_outcome src heom.le hdst with h | ⟨hno, h | ⟨hend, -⟩⟩
  · exact .inl h
  · exact .inr ⟨hno, h⟩
  · exact absurd hend heom.ne

/-- **What is read is what is there**: a number and a text are the answer exactly if
a name with so many bytes is in the message, and the text is its labels. -/
theorem nsNameUnpack_iff (heom : eom ≤ msg.length) (hdst : 0 < dstsiz) :
    nsNameUnpack msg eom src dstsiz = done (k, out) ↔ ∃ ls, Reads msg eom src dstsiz k ls ∧ out = wire ls := by
  constructor
  · intro h
    rcases nsNameUnpack_outcome src heom hdst with ⟨k', ls, hreads, heq⟩ | ⟨-, heq | ⟨-, heq⟩⟩
    · rw [heq] at h
      obtain ⟨rfl, rfl⟩ := Prod.mk.inj (Except.ok.inj (Option.some.inj h))
      exact ⟨ls, hreads, rfl⟩
    · rw [heq] at h
      cases h
    · rw [heq] at h
      cases h
  · rintro ⟨ls, h, rfl⟩
    exact nsNameUnpack_of_reads heom h

/-- The name "b.a": its end is that of the name "a" before it. -/
theorem nsNameUnpack_iff_pointer : nsNameUnpack [1, 97, 0, 1, 98, 0xc0, 0] 7 3 255 = done (4, [1, 98, 1, 97, 0]) ↔
    ∃ ls, Reads [1, 97, 0, 1, 98, 0xc0, 0] 7 3 255 4 ls ∧ [1, 98, 1, 97, 0] = wire ls :=
  nsNameUnpack_iff (by decide) (by decide)

/-- The answer depends on nothing behind the message. -/
theorem nsNameUnpack_congr (h : msg.take eom = msg'.take eom) (heom : eom < msg.length) (heom' : eom < msg'.length)
    (hdst : 0 < dstsiz) : nsNameUnpack msg eom src dstsiz = nsNameUnpack msg' eom src dstsiz := by
  have hreads : ∀ k ls, Reads msg eom src dstsiz k ls ↔ Reads msg' eom src dstsiz k ls := fun k ls => by
    rw [Reads, Reads, h]
  rcases nsNameUnpack_total src heom hdst with ⟨k, ls, hr, heq⟩ | ⟨hno, heq⟩
  · rw [heq, nsNameUnpack_of_reads heom'.le ((hreads k ls).1 hr)]
  · rcases nsNameUnpack_total src heom' hdst with ⟨k, ls, hr, -⟩ | ⟨-, heq'⟩
    · exact absurd ((hreads k ls).2 hr) (hno k ls)
    · rw [heq, heq']

/-! ## Names that are skipped -/

theorem skipLoop_behind (h : eom ≤ srcp) : nsNameSkipLoop msg eom (fuel + 1) srcp = done srcp := by
  rw [nsNameSkipLoop, if_pos h]

theorem skipLoop_label (hl : IsLabel label) (h : label <+: msg.drop srcp) (hlt : srcp < eom) :
    nsNameSkipLoop msg eom (fuel + 1) srcp = nsNameSkipLoop msg eom fuel (srcp + label.length) := by
  obtain ⟨n, t, rfl, hn, hflags, hlen⟩ := hl.exists_cons
  have hlen' : labellen (msg.drop srcp) = some (some t.length) := by
    obtain ⟨s, hs⟩ := h
    rw [← hs]
    exact labellen_append hlen
  simp only [nsNameSkipLoop, if_neg (not_le.2 hlt), getElem?_of_prefix_drop h, if_neg hn, List.length_cons]
  rcases hflags with hflags | rfl
  · rw [labellen_text hflags] at hlen
    have ht : t.length = n.toNat := (Option.some.inj (Option.some.inj hlen)).symm
    rw [if_pos hflags, ht, Nat.add_assoc, Nat.add_comm 1]
  · have h0 : ¬ LABELTYPE_BITSTRING &&& NS_CMPRSFLAGS = 0 := by decide
    have h1 : LABELTYPE_BITSTRING &&& NS_CMPRSFLAGS = NS_TYPE_ELT := rfl
    rw [if_neg h0, if_pos h1, hlen', Nat.add_comm t.length 1, ← Nat.add_assoc]

/-- **A name that is in the message is skipped**, with the pointer that ends it. -/
theorem skipLoop_name (h : NameAt (msg.take eom) srcp ls e c) (hfuel : eom - srcp < fuel) :
    nsNameSkipLoop msg eom fuel srcp = done e := by
  induction h generalizing fuel with
  | @root x hx =>
    have hlt := (List.getElem?_eq_some_iff.1 hx).1
    rw [List.length_take] at hlt
    obtain ⟨fuel, rfl⟩ : ∃ f, fuel = f + 1 := ⟨fuel - 1, by omega⟩
    have h0 : msg[x]? = some 0 := getElem?_of_isPrefix (List.take_prefix _ _) hx
    simp only [nsNameSkipLoop, if_neg (by omega : ¬ eom ≤ x), h0, if_true]
  | @label x e c label ls hl hpre h ih =>
    have hbounds := h.bounds
    rw [List.length_take] at hbounds
    have hpos := LabelCode.label_pos hl
    obtain ⟨fuel, rfl⟩ : ∃ f, fuel = f + 1 := ⟨fuel - 1, by omega⟩
    rw [skipLoop_label hl (prefix_drop_of_isPrefix (List.take_prefix _ _) hpre) (by omega)]
    exact ih (by omega)
  | @pointer x e c a b ls ha hptr hb h ih =>
    have hlt := (List.getElem?_eq_some_iff.1 hb).1
    rw [List.length_take] at hlt
    obtain ⟨fuel, rfl⟩ : ∃ f, fuel = f + 1 := ⟨fuel - 1, by omega⟩
    have ha' : msg[x]? = some a := getElem?_of_isPrefix (List.take_prefix _ _) ha
    have hptr : a &&& NS_CMPRSFLAGS = NS_CMPRSFLAGS := hptr
    have hn : a ≠ 0 := by
      rintro rfl
      exact cmprsflags_ne_zero hptr.symm
    simp only [nsNameSkipLoop, if_neg (by omega : ¬ eom ≤ x), ha', if_neg hn, hptr, if_neg cmprsflags_ne_zero,
      if_neg elt_ne_cmprsflags.symm, if_true]

/-- **What is read is skipped**: the two functions agree on how many bytes a name
has. -/
theorem dnSkipname_of_reads (h : Reads msg eom src dstsiz k ls) : dnSkipname msg eom src = done k := by
  obtain ⟨c, hname, -⟩ := h
  have hbounds := hname.bounds
  rw [List.length_take] at hbounds
  rw [dnSkipname, nsNameSkip, skipLoop_name hname (by omega)]
  simp only [done, if_neg (by omega : ¬ eom < src + k), Nat.add_sub_cancel_left]

/-- The end of `mowgli_dns_ns_name_skip`, after the loop. -/
theorem nsNameSkip_eq : nsNameSkip msg eom src = (nsNameSkipLoop msg eom (eom + 1) src).map fun r =>
    r.bind fun cp => if eom < cp then .error .emsgsize else .ok cp := by
  unfold nsNameSkip
  rcases nsNameSkipLoop msg eom (eom + 1) src with _ | e | cp
  · rfl
  · rfl
  · simp only [Option.map_some, Except.bind]
    split_ifs <;> rfl

/-- Of two blocks that have the message in front, the loop comes to the same place,
or behind the message in both. -/
theorem skipLoop_congr (fuel srcp : ℕ) (h : msg.take eom = msg'.take eom) (heom : eom < msg.length) (heom' : eom < msg'.length)
    (hfuel : eom - srcp < fuel) : ∃ r r', nsNameSkipLoop msg eom fuel srcp = some r ∧
      nsNameSkipLoop msg' eom fuel srcp = some r' ∧
      (r = r' ∨ ∃ cp cp', r = .ok cp ∧ r' = .ok cp' ∧ eom < cp ∧ eom < cp') := by
  induction fuel generalizing srcp with
  | zero => omega
  | succ fuel ih =>
    by_cases hsrcp : eom ≤ srcp
    · exact ⟨_, _, skipLoop_behind hsrcp, skipLoop_behind hsrcp, .inl rfl⟩
    have hbyte : ∀ i < eom, msg'[i]? = msg[i]? := fun i hi => by
      rw [← List.getElem?_take_of_lt hi, ← h, List.getElem?_take_of_lt hi]
    have hdrop := List.drop_eq_getElem_cons (by omega : srcp < msg.length)
    have hn := List.getElem?_eq_getElem (by omega : srcp < msg.length)
    have hdrop' : msg'.drop srcp = msg[srcp] :: msg'.drop (srcp + 1) := by
      have hlt : srcp < msg'.length := by omega
      have heq := hbyte srcp (by omega)
      rw [hn, List.getElem?_eq_getElem hlt] at heq
      rw [List.drop_eq_getElem_cons hlt, Option.some.inj heq]
    have hn' := hbyte srcp (by omega)
    rw [hn] at hn'
    generalize msg[srcp] = n at hn hn' hdrop hdrop'
    simp only [nsNameSkipLoop, if_neg hsrcp, hn, hn', hdrop, hdrop']
    by_cases h0 : n = 0
    · simp only [if_pos h0]
      exact ⟨_, _, rfl, rfl, .inl rfl⟩
    rcases flags_cases n with hflags | hflags | hflags | hflags
    · simp only [if_neg h0, hflags, if_true]
      exact ih _ (by omega)
    · simp only [if_neg h0, hflags, if_neg elt_ne_zero, if_true]
      by_cases hbit : n = LABELTYPE_BITSTRING
      · subst hbit
        rw [List.drop_eq_getElem_cons (by omega : srcp + 1 < msg.length),
          List.drop_eq_getElem_cons (by omega : srcp + 1 < msg'.length), labellen_bitstring, labellen_bitstring]
        rcases Nat.lt_or_ge (srcp + 1) eom with hlt | hge
        · have heq := hbyte (srcp + 1) hlt
          rw [List.getElem?_eq_getElem (by omega), List.getElem?_eq_getElem (by omega)] at heq
          rw [Option.some.inj heq]
          exact ih _ (by omega)
        · -- the length is behind the message, and so is what the label leads to
          obtain ⟨fuel, rfl⟩ : ∃ f, fuel = f + 1 := ⟨fuel - 1, by omega⟩
          exact ⟨_, _, skipLoop_behind (by omega), skipLoop_behind (by omega), .inr ⟨_, _, rfl, rfl, by omega, by omega⟩⟩
      · rw [labellen_elt hflags hbit, labellen_elt hflags hbit]
        exact ⟨_, _, rfl, rfl, .inl rfl⟩
    · simp only [if_neg h0, hflags, if_neg cmprsflags_ne_zero, if_neg elt_ne_cmprsflags.symm, if_true]
      exact ⟨_, _, rfl, rfl, .inl rfl⟩
    · have h₁ : (0x80 : UInt8) ≠ 0 := by decide
      have h₂ : (0x80 : UInt8) ≠ NS_TYPE_ELT := by decide
      have h₃ : (0x80 : UInt8) ≠ NS_CMPRSFLAGS := by decide
      simp only [if_neg h0, hflags, if_neg h₁, if_neg h₂, if_neg h₃]
      exact ⟨_, _, rfl, rfl, .inl rfl⟩

/-- With a byte behind the message, `mowgli_dns_dn_skipname` is defined, and its answer
depends on nothing behind the message. -/
theorem dnSkipname_congr (src : ℕ) (h : msg.take eom = msg'.take eom) (heom : eom < msg.length) (heom' : eom < msg'.length) :
    dnSkipname msg eom src ≠ none ∧ dnSkipname msg eom src = dnSkipname msg' eom src := by
  obtain ⟨r, r', hr, hr', heq⟩ := skipLoop_congr (eom + 1) src h heom heom' (by omega)
  have hskip : nsNameSkip msg eom src = nsNameSkip msg' eom src ∧ nsNameSkip msg eom src ≠ none := by
    rw [nsNameSkip_eq, nsNameSkip_eq, hr, hr']
    refine ⟨?_, nofun⟩
    rcases heq with rfl | ⟨cp, cp', rfl, rfl, hlt, hlt'⟩
    · rfl
    · simp only [Option.map_some, Except.bind, if_pos hlt, if_pos hlt']
  unfold dnSkipname
  rw [← hskip.1]
  refine ⟨fun hnone => hskip.2 ?_, rfl⟩
  rcases hcase : nsNameSkip msg eom src with _ | e | cp
  · rfl
  · rw [hcase] at hnone
    cases hnone
  · rw [hcase] at hnone
    cases hnone

end DnsName

end Mowgli
