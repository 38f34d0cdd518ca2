import Mowgli.Ext.GetoptLong.Calls
/-!
# The search of the table

The search ends at the first entry without a name and at the first with the
name that is looked for, where one of them stands (`Ends`). Of entries of
which one at most starts with that name, the search finds this one if no
entry before it is without a name, and no entry if one is.
-/

namespace Mowgli

namespace Getopt

variable {a name : CString} {os : List GetoptOption} {o : GetoptOption} {i k : ℕ}
variable {found : Option (ℕ × GetoptOption)} {ambiguous : Bool}

/-- The name in a word: what stands before the first '='. -/
def argvName (currentArgv : CString) : CString := currentArgv.take (argvLen currentArgv)

theorem length_argvName (a : CString) : (argvName a).length = argvLen a := by
  rw [argvName, CString.length, CString.take, List.length_take]
  exact min_eq_left List.findIdx_le_length

/-- An entry matches if the name in the word is an abbreviation of its own. -/
theorem strncmp_argvName : CString.strncmp a name (argvLen a) = 0 ↔ (argvName a).bytes <+: name.bytes := by
  rw [CString.strncmp, CString.strcmp_eq_zero]
  constructor
  · intro h
    rw [argvName, h]
    exact List.take_prefix ..
  · intro h
    refine CString.ext ((List.prefix_iff_eq_take.1 h).trans ?_)
    rw [show (argvName a).bytes.length = argvLen a from length_argvName a]
    rfl

/-- A match is exact if it is the same name, of a length that is in the range
of `unsigned`. -/
theorem exact_iff (h : (argvName a).bytes <+: name.bytes) :
    name.length = argvLen a % 4294967296 ↔ name = argvName a ∧ name.length < 4294967296 := by
  constructor
  · intro hlen
    have hle : (argvName a).bytes.length ≤ name.bytes.length := h.length_le
    have heq : (argvName a).bytes.length = argvLen a := length_argvName a
    have hname : name.bytes.length = argvLen a % 4294967296 := hlen
    have hmod := Nat.mod_le (argvLen a) 4294967296
    refine ⟨CString.ext (h.eq_of_length (by omega)).symm, ?_⟩
    rw [hlen]
    exact Nat.mod_lt _ (by norm_num)
  · rintro ⟨rfl, hlt⟩
    rw [length_argvName] at hlt ⊢
    exact (Nat.mod_eq_of_lt hlt).symm

/-- No entry of the table matches. -/
def Quiet (a : CString) (os : List GetoptOption) : Prop :=
  ∀ o ∈ os, ∀ name, o.name = some name → ¬ (argvName a).bytes <+: name.bytes

/-- The search has an entry to end at, when the table is reached at `i`. -/
def Ends (a : CString) (i : ℕ) (os : List GetoptOption) : Prop :=
  ∃ j o, os[j]? = some o ∧ i + j ≤ INT_MAX ∧
    (o.name = none ∨ o.name = some (argvName a) ∧ (argvName a).length < 4294967296)

theorem not_ends_nil : ¬ Ends a i [] := by
  rintro ⟨j, o, hj, -⟩
  simp at hj

theorem ends_cons : Ends a i (o :: os) ↔
    i ≤ INT_MAX ∧ (o.name = none ∨ o.name = some (argvName a) ∧ (argvName a).length < 4294967296) ∨
      Ends a (i + 1) os := by
  constructor
  · rintro ⟨_ | j, o', hj, hle, hend⟩
    · obtain rfl : o = o' := by simpa using hj
      exact Or.inl ⟨hle, hend⟩
    · exact Or.inr ⟨j, o', by simpa using hj, by omega, hend⟩
  · rintro (⟨hle, hend⟩ | ⟨j, o', hj, hle, hend⟩)
    · exact ⟨0, o, rfl, hle, hend⟩
    · exact ⟨j + 1, o', by simpa using hj, by omega, hend⟩

theorem Ends.le (h : Ends a i os) : i ≤ INT_MAX := by
  obtain ⟨j, -, -, hle, -⟩ := h
  omega

/-- Past `INT_MAX` nothing is read. -/
theorem search_of_lt (h : INT_MAX < i) : search a i os found ambiguous = none := by
  cases os with
  | nil => rfl
  | cons o os =>
    rw [search.eq_def]
    exact if_pos h

/-- An entry that does not match is passed. -/
theorem search_pass (hname : o.name = some name) (h : ¬ (argvName a).bytes <+: name.bytes) :
    search a i (o :: os) found ambiguous = search a (i + 1) os found ambiguous := by
  by_cases hi : INT_MAX < i
  · rw [search_of_lt hi, search_of_lt (by omega)]
  · rw [search.eq_def]
    simp only [if_neg hi, hname]
    rw [if_pos (mt strncmp_argvName.1 h)]

theorem search_unnamed (hi : i ≤ INT_MAX) (hname : o.name = none) :
    search a i (o :: os) found ambiguous = some (found, ambiguous) := by
  rw [search.eq_def]
  simp only [if_neg (not_lt.2 hi), hname]

/-- **Where the search ends.** -/
theorem search_isSome : ∀ {i : ℕ} {os : List GetoptOption} {found : Option (ℕ × GetoptOption)} {ambiguous : Bool},
    (search a i os found ambiguous).isSome ↔ Ends a i os
  | _, [], _, _ => by simp [search, not_ends_nil]
  | i, o :: os, found, ambiguous => by
    rw [ends_cons]
    by_cases hi : INT_MAX < i
    · rw [search_of_lt hi]
      have : ¬ Ends a (i + 1) os := fun h => by
        have := h.le
        omega
      simp [this, hi]
    rw [not_lt] at hi
    rcases hname : o.name with _ | name
    · simp [search_unnamed hi hname, hi]
    by_cases hpre : (argvName a).bytes <+: name.bytes
    · rw [search.eq_def]
      simp only [if_neg (not_lt.2 hi), hname]
      rw [if_neg (not_not.2 (strncmp_argvName.2 hpre))]
      by_cases hexact : name.length = argvLen a % 4294967296
      · obtain ⟨rfl, hlt⟩ := (exact_iff hpre).1 hexact
        simp [if_pos hexact, hi, hlt]
      · have hno : ¬ (name = argvName a ∧ (argvName a).length < 4294967296) := fun h =>
          hexact ((exact_iff hpre).2 ⟨h.1, h.1 ▸ h.2⟩)
        rw [if_neg hexact, or_iff_right (by simp [hno])]
        split
        · exact search_isSome
        · exact search_isSome
    · have hno : name ≠ argvName a := fun h => hpre (h ▸ List.prefix_refl _)
      rw [search_pass hname hpre, search_isSome]
      simp [hno]

/-- Entries that do not match leave what was found. -/
theorem search_quiet : ∀ {i : ℕ} {os : List GetoptOption}, Quiet a os →
    search a i os found ambiguous = none ∨ search a i os found ambiguous = some (found, ambiguous)
  | _, [], _ => Or.inl rfl
  | i, o :: os, h => by
    by_cases hi : INT_MAX < i
    · exact Or.inl (search_of_lt hi)
    rcases hname : o.name with _ | name
    · exact Or.inr (search_unnamed (not_lt.1 hi) hname)
    · rw [search_pass hname (h o List.mem_cons_self name hname)]
      exact search_quiet fun o ho => h o (List.mem_cons_of_mem _ ho)

/-- The search goes over entries that have names and do not match. -/
theorem search_append : ∀ {i : ℕ} {os : List GetoptOption} (rest : List GetoptOption), Quiet a os →
    (∀ o ∈ os, o.name ≠ none) →
    search a i (os ++ rest) found ambiguous = search a (i + os.length) rest found ambiguous
  | _, [], _, _, _ => rfl
  | i, o :: os, rest, h, hnamed => by
    obtain ⟨name, hname⟩ := Option.ne_none_iff_exists'.1 (hnamed o List.mem_cons_self)
    rw [List.cons_append, search_pass hname (h o List.mem_cons_self name hname),
      search_append rest (fun o ho => h o (List.mem_cons_of_mem _ ho)) fun o ho => hnamed o (List.mem_cons_of_mem _ ho),
      List.length_cons, Nat.add_right_comm, Nat.add_assoc]

/-- The search does not come past an entry without a name. -/
theorem search_gap : ∀ {i : ℕ} {os : List GetoptOption} (rest : List GetoptOption), Quiet a os →
    (∃ o ∈ os, o.name = none) →
    search a i (os ++ rest) found ambiguous = none ∨
      search a i (os ++ rest) found ambiguous = some (found, ambiguous)
  | _, [], _, _, h => by simp at h
  | i, o :: os, rest, h, hgap => by
    by_cases hi : INT_MAX < i
    · exact Or.inl (search_of_lt hi)
    rcases hname : o.name with _ | name
    · exact Or.inr (search_unnamed (not_lt.1 hi) hname)
    · have hgap' : ∃ o ∈ os, o.name = none := by
        obtain ⟨o', ho', hnone⟩ := hgap
        rcases List.mem_cons.1 ho' with rfl | hmem
        · rw [hname] at hnone
          exact absurd hnone (by simp)
        · exact ⟨o', hmem, hnone⟩
      rw [List.cons_append, search_pass hname (h o List.mem_cons_self name hname)]
      exact search_gap rest (fun o ho => h o (List.mem_cons_of_mem _ ho)) hgap'

/-- An entry that is found is an entry of the table, with a name. -/
theorem search_getElem? : ∀ {i : ℕ} {os : List GetoptOption} {found : Option (ℕ × GetoptOption)} {ambiguous b : Bool},
    search a i os found ambiguous = some (some (k, o), b) →
    found = some (k, o) ∨ ∃ j, k = i + j ∧ os[j]? = some o ∧ k ≤ INT_MAX ∧ o.name ≠ none
  | _, [], _, _, _, h => by simp [search] at h
  | i, x :: os, found, ambiguous, b, h => by
    have hlater : (∃ j, k = i + 1 + j ∧ os[j]? = some o ∧ k ≤ INT_MAX ∧ o.name ≠ none) →
        ∃ j, k = i + j ∧ (x :: os)[j]? = some o ∧ k ≤ INT_MAX ∧ o.name ≠ none := fun ⟨j, hk, hj, hle⟩ =>
      ⟨j + 1, by omega, by simpa using hj, hle⟩
    by_cases hi : INT_MAX < i
    · rw [search_of_lt hi] at h
      cases h
    rcases hname : x.name with _ | name
    · rw [search_unnamed (not_lt.1 hi) hname] at h
      exact Or.inl (by simpa using (Prod.mk.inj (Option.some.inj h)).1)
    by_cases hpre : (argvName a).bytes <+: name.bytes
    · rw [search.eq_def] at h
      simp only [if_neg hi, hname] at h
      rw [if_neg (not_not.2 (strncmp_argvName.2 hpre))] at h
      split_ifs at h with hexact
      · have heq : some (i, x) = some (k, o) := (Prod.mk.inj (Option.some.inj h)).1
        obtain ⟨rfl, rfl⟩ := Prod.mk.inj (Option.some.inj heq)
        exact Or.inr ⟨0, rfl, rfl, not_lt.1 hi, by simp [hname]⟩
      · split at h
        · rcases search_getElem? h with heq | hmem
          · obtain ⟨rfl, rfl⟩ := Prod.mk.inj (Option.some.inj heq)
            exact Or.inr ⟨0, rfl, rfl, not_lt.1 hi, by simp [hname]⟩
          · exact Or.inr (hlater hmem)
        · exact (search_getElem? h).imp_right hlater
    · rw [search_pass hname hpre] at h
      exact (search_getElem? h).imp_right hlater

/-- No entry matches but entry `i`. -/
def OnlyAt (a : CString) (os : List GetoptOption) (i : ℕ) : Prop :=
  ∀ j x nm, os[j]? = some x → x.name = some nm → (argvName a).bytes <+: nm.bytes → j = i

theorem quiet_take (huniq : OnlyAt a os i) : Quiet a (os.take i) := by
  intro x hx nm hnm hp
  obtain ⟨j, hj, hget⟩ := List.mem_take_iff_getElem.1 hx
  have := huniq j x nm (by rw [← hget, List.getElem?_eq_getElem]) hnm hp
  omega

theorem quiet_drop (huniq : OnlyAt a os i) : Quiet a (os.drop (i + 1)) := by
  intro x hx nm hnm hp
  obtain ⟨j, hj⟩ := List.mem_iff_getElem?.1 hx
  rw [List.getElem?_drop] at hj
  have := huniq _ x nm hj hnm hp
  omega

/-- The entry is found if the search comes to it. -/
theorem search_found (hi : os[i]? = some o) (hname : o.name = some name)
    (hpre : (argvName a).bytes <+: name.bytes) (huniq : OnlyAt a os i)
    (hbefore : ∀ j x, j < i → os[j]? = some x → x.name ≠ none) :
    search a 0 os none false = none ∨ search a 0 os none false = some (some (i, o), false) := by
  have hlt := (List.getElem?_eq_some_iff.1 hi).1
  have hsplit : os = os.take i ++ (o :: os.drop (i + 1)) := by
    conv_lhs => rw [← List.take_append_drop i os]
    rw [List.drop_eq_getElem_cons hlt, (List.getElem?_eq_some_iff.1 hi).2]
  have hnamed : ∀ x ∈ os.take i, x.name ≠ none := by
    intro x hx
    obtain ⟨j, hj, hget⟩ := List.mem_take_iff_getElem.1 hx
    exact hbefore j x (by omega) (by rw [← hget, List.getElem?_eq_getElem])
  have htake : 0 + (os.take i).length = i := by
    rw [List.length_take]
    omega
  have hat : search a 0 os none false = search a i (o :: os.drop (i + 1)) none false := by
    conv_lhs => rw [hsplit]
    rw [search_append _ (quiet_take huniq) hnamed, htake]
  rw [hat]
  by_cases hmax : INT_MAX < i
  · exact Or.inl (search_of_lt hmax)
  rw [search.eq_def]
  simp only [if_neg hmax, hname]
  rw [if_neg (not_not.2 (strncmp_argvName.2 hpre))]
  split_ifs
  · exact Or.inr rfl
  · exact search_quiet (quiet_drop huniq)

/-- The entry is not found behind an entry without a name. -/
theorem search_hidden (huniq : OnlyAt a os i) (hgap : ∃ j x, j < i ∧ os[j]? = some x ∧ x.name = none) :
    search a 0 os none false = none ∨ search a 0 os none false = some (none, false) := by
  have hmem : ∃ x ∈ os.take i, x.name = none := by
    obtain ⟨j, x, hlt, hj, hnone⟩ := hgap
    exact ⟨x, List.mem_iff_getElem?.2 ⟨j, by rwa [List.getElem?_take_of_lt hlt]⟩, hnone⟩
  rw [← List.take_append_drop i os]
  exact search_gap _ (quiet_take huniq) hmem

end Getopt

end Mowgli
