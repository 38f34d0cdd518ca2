import Mathlib.Logic.Relation
import Mowgli.Ext.ProgramOpts.Model
/-!
# What is made of a table, and the loop over the arguments

The string of short options fits if it has at most 255 characters. The loop
comes to an end, and not out of bounds, if every call does whose state it
comes to.
-/

namespace Mowgli

namespace ProgramOpts

open Getopt

variable {env : Env} {opts : List ProgramOpt} {shortops : CString} {gOpts : List GetoptOption}
variable {argv : List CString} {s s' : State} {i : ℕ}

/-! ## The short options -/

/-- What an entry adds to the string of short options. -/
def smallBytes (o : ProgramOpt) : List UInt8 :=
  if o.smallopt = 0 then [] else o.smallopt :: if o.hasParam then [ch ':'] else []

theorem zero_notMem_smallBytes (o : ProgramOpt) : 0 ∉ smallBytes o := by
  rw [smallBytes]
  split_ifs with h₀ hparam
  · simp
  · simpa [Ne.symm h₀] using (by decide : (0 : UInt8) ≠ ch ':')
  · simpa using Ne.symm h₀

/-- The short options. -/
def optstr (opts : List ProgramOpt) : CString where
  bytes := opts.flatMap smallBytes
  nul_free h := by
    obtain ⟨o, -, ho⟩ := List.mem_flatMap.1 h
    exact zero_notMem_smallBytes o ho

theorem put_bind {β : Type} (buf : List UInt8) (c : UInt8) (f : List UInt8 → Option β) :
    (put buf c).bind f = if buf.length < 256 then f (buf ++ [c]) else none := by
  rw [put]
  split_ifs
  · rfl
  · rfl

theorem writeOptstr_eq : ∀ (opts : List ProgramOpt) (buf : List UInt8),
    writeOptstr opts buf =
      if buf.length + (opts.flatMap smallBytes).length < 256 then some (buf ++ opts.flatMap smallBytes ++ [0]) else none
  | [], buf => by simp [writeOptstr, put]
  | o :: opts, buf => by
    have ih := writeOptstr_eq opts
    rw [List.flatMap_cons]
    by_cases h₀ : o.smallopt = 0
    · rw [writeOptstr, if_pos h₀, ih, smallBytes, if_pos h₀, List.nil_append]
    rw [writeOptstr, if_neg h₀, put_bind]
    by_cases hparam : o.hasParam = true
    · have hbytes : smallBytes o = [o.smallopt, ch ':'] := by simp [smallBytes, h₀, hparam]
      rw [if_pos hparam, put_bind, ih, hbytes]
      by_cases hfits : buf.length + ([o.smallopt, ch ':'] ++ opts.flatMap smallBytes).length < 256
      · simp only [List.length_append, List.length_cons, List.length_nil] at hfits ⊢
        rw [if_pos (by omega), if_pos (by omega), if_pos (by omega), if_pos (by omega)]
        simp
      · simp only [List.length_append, List.length_cons, List.length_nil] at hfits ⊢
        rw [if_neg hfits]
        split_ifs with h₁ h₂ h₃
        · omega
        · rfl
        · rfl
        · rfl
    · have hbytes : smallBytes o = [o.smallopt] := by simp [smallBytes, h₀, hparam]
      rw [if_neg hparam, ih, hbytes]
      by_cases hfits : buf.length + ([o.smallopt] ++ opts.flatMap smallBytes).length < 256
      · simp only [List.length_append, List.length_cons, List.length_nil] at hfits ⊢
        rw [if_pos (by omega), if_pos (by omega), if_pos (by omega)]
        simp
      · simp only [List.length_append, List.length_cons, List.length_nil] at hfits ⊢
        rw [if_neg hfits]
        split_ifs with h₁ h₂
        · omega
        · rfl
        · rfl

/-- **The string of short options fits** if it has at most 255 characters. -/
theorem computeOptstr_eq (opts : List ProgramOpt) :
    computeOptstr opts = if (optstr opts).length ≤ 255 then some (optstr opts) else none := by
  have hlen : ([] : List UInt8).length + (opts.flatMap smallBytes).length < 256 ↔ (optstr opts).length ≤ 255 := by
    rw [List.length_nil, Nat.zero_add]
    exact Nat.lt_succ_iff
  have hbuf : CString.ofBuffer ([] ++ opts.flatMap smallBytes ++ [0]) = optstr opts := by
    refine CString.ext ?_
    have hpos : ∀ x ∈ (optstr opts).bytes, decide (x ≠ 0) = true := fun x hx =>
      decide_eq_true fun h0 => (optstr opts).nul_free (h0 ▸ hx)
    rw [CString.ofBuffer, List.nil_append]
    show ((optstr opts).bytes ++ [0]).takeWhile _ = _
    rw [List.takeWhile_append_of_pos hpos]
    simp
  rw [computeOptstr, writeOptstr_eq]
  by_cases h : (optstr opts).length ≤ 255
  · rw [if_pos h, if_pos (hlen.2 h), Option.map_some, hbuf]
  · rw [if_neg h, if_neg (mt hlen.1 h), Option.map_none]

/-! ## The long options -/

theorem convert_getElem? (opts : List ProgramOpt) (i : ℕ) :
    (convert opts)[i]? = opts[i]?.map fun o => convertEntry o i := by
  rw [convert, List.getElem?_map, List.getElem?_zipIdx, Option.map_map]
  simp only [Nat.zero_add]
  rfl

theorem convertEntry_name (o : ProgramOpt) (i : ℕ) : (convertEntry o i).name = o.longopt := by
  rw [convertEntry]
  split
  · exact Eq.symm ‹_›
  · exact Eq.symm ‹_›

theorem convertEntry_val (o : ProgramOpt) (i : ℕ) : (convertEntry o i).val = 0 := by
  rw [convertEntry]
  split
  · rfl
  · rfl

/-- An entry with a long name leads back to its index. -/
theorem convertEntry_named {o : ProgramOpt} (h : o.longopt ≠ none) (i : ℕ) :
    (convertEntry o i).iflag = toInt i ∧
      (convertEntry o i).hasArg = if o.hasParam then required_argument else no_argument := by
  obtain ⟨longopt, hlong⟩ := Option.ne_none_iff_exists'.1 h
  simp only [convertEntry, hlong, and_self]

/-- The index of an entry that is found leads back to it. -/
theorem resolve_eq {o : ProgramOpt} (ho : opts[i]? = some o) (hname : o.longopt ≠ none) (hle : i ≤ INT_MAX) :
    resolve opts (convert opts) (some i) = some (o, i) := by
  have hiflag : (convertEntry o i).iflag = i := (convertEntry_named hname i).1.trans (toInt_of_le hle)
  have hpos : 0 ≤ (convertEntry o i).iflag := by
    rw [hiflag]
    exact Int.natCast_nonneg i
  rw [resolve, Option.bind_some, convert_getElem?, ho, Option.map_some, Option.bind_some, if_pos hpos, hiflag,
    Int.toNat_natCast, ho]
  rfl

/-! ## The loop -/

/-- A call of `mowgli_getopt_long` that does not answer `-1`. -/
def Calls (env : Env) (shortops : CString) (gOpts : List GetoptOption) (s s' : State) : Prop :=
  ∃ c idx, getoptLong env shortops gOpts s = some (c, idx, s') ∧ c ≠ -1

/-- The states the calls on an argument vector come to. -/
def Reached (env : Env) (shortops : CString) (gOpts : List GetoptOption) (argv : List CString) (s : State) : Prop :=
  Relation.ReflTransGen (Calls env shortops gOpts) (State.init argv) s

theorem Reached.scans (h : Reached env shortops gOpts argv s) : Scans argv s := by
  induction h with
  | refl => exact scans_init argv
  | tail _ hcall ih =>
    obtain ⟨c, idx, hcall, hc⟩ := hcall
    exact getoptLong_scans hcall hc ih

theorem loop_eq (s : State) : loop env opts shortops gOpts s =
    match turn env opts shortops gOpts s with
    | none => none
    | some (none, _) => some []
    | some (some e, s') => (loop env opts shortops gOpts s').map fun turns => (s, e) :: turns := by
  rw [loop]
  split
  all_goals
    rename_i h
    rw [h]

theorem loop_of_none (h : turn env opts shortops gOpts s = none) : loop env opts shortops gOpts s = none := by
  rw [loop_eq, h]

theorem loop_of_end (h : turn env opts shortops gOpts s = some (none, s')) :
    loop env opts shortops gOpts s = some [] := by
  rw [loop_eq, h]

theorem loop_of_event {e : Event} (h : turn env opts shortops gOpts s = some (some e, s')) :
    loop env opts shortops gOpts s = (loop env opts shortops gOpts s').map fun turns => (s, e) :: turns := by
  rw [loop_eq, h]

/-- A call that goes on makes a turn. -/
theorem turn_of_call (hcall : Calls env shortops gOpts s s') (h : turn env opts shortops gOpts s ≠ none) :
    ∃ e, turn env opts shortops gOpts s = some (some e, s') := by
  obtain ⟨c, idx, hcall, hc⟩ := hcall
  rw [turn, hcall, Option.bind_some] at h ⊢
  dsimp only at h ⊢
  rw [if_neg hc] at h ⊢
  split_ifs at h ⊢ with hlong
  · obtain ⟨r, hr⟩ := Option.ne_none_iff_exists'.1 h
    obtain ⟨opt, hopt, -⟩ := Option.map_eq_some_iff.1 hr
    exact ⟨_, by rw [hopt, Option.map_some]⟩
  · exact ⟨_, rfl⟩

/-- **Every state is taken a turn in.** -/
theorem mem_loop {turns : List (State × Event)} (hr : Relation.ReflTransGen (Calls env shortops gOpts) s s')
    (h : loop env opts shortops gOpts s = some turns) :
    turn env opts shortops gOpts s' ≠ none ∧
      ∀ e s'', turn env opts shortops gOpts s' = some (some e, s'') → (s', e) ∈ turns := by
  induction hr using Relation.ReflTransGen.head_induction_on generalizing turns with
  | refl =>
    refine ⟨fun hnone => ?_, fun e s'' hturn => ?_⟩
    · rw [loop_of_none hnone] at h
      cases h
    · rw [loop_of_event hturn] at h
      obtain ⟨rest, -, rfl⟩ := Option.map_eq_some_iff.1 h
      exact List.mem_cons_self
  | head hcall _ ih =>
    have hne : turn env opts shortops gOpts _ ≠ none := fun hnone => by
      rw [loop_of_none hnone] at h
      cases h
    obtain ⟨e, hturn⟩ := turn_of_call hcall hne
    rw [loop_of_event hturn] at h
    obtain ⟨rest, hrest, rfl⟩ := Option.map_eq_some_iff.1 h
    obtain ⟨hsome, hmem⟩ := ih hrest
    exact ⟨hsome, fun e s'' he => List.mem_cons_of_mem _ (hmem e s'' he)⟩

/-- **The loop comes to an end** if no turn goes out of bounds. -/
theorem loop_total (h : ∀ s', Relation.ReflTransGen (Calls env shortops gOpts) s s' →
      turn env opts shortops gOpts s' ≠ none) :
    ∃ turns, loop env opts shortops gOpts s = some turns ∧ ∀ s' e, (s', e) ∈ turns →
      Relation.ReflTransGen (Calls env shortops gOpts) s s' ∧
        ∃ s'', turn env opts shortops gOpts s' = some (some e, s'') := by
  induction s using loop.induct env opts shortops gOpts with
  | case1 s hturn => exact absurd hturn (h s .refl)
  | case2 s s' hturn => exact ⟨[], loop_of_end hturn, fun s' e h => absurd h List.not_mem_nil⟩
  | case3 s e s' hturn ih =>
    have hcall : Calls env shortops gOpts s s' := turn_some hturn
    obtain ⟨rest, hrest, hmem⟩ := ih fun s'' hr => h s'' (.head hcall hr)
    refine ⟨(s, e) :: rest, by rw [loop_of_event hturn, hrest, Option.map_some], fun s'' e' hin => ?_⟩
    rcases List.mem_cons.1 hin with heq | hin
    · obtain ⟨rfl, rfl⟩ := Prod.mk.inj heq
      exact ⟨.refl, s', hturn⟩
    · obtain ⟨hr, hex⟩ := hmem s'' e' hin
      exact ⟨.head hcall hr, hex⟩

/-- What is done in a turn is done in a state the calls come to. -/
theorem of_mem_loop {turns : List (State × Event)} {e : Event} (h : loop env opts shortops gOpts s = some turns)
    (hin : (s', e) ∈ turns) :
    Relation.ReflTransGen (Calls env shortops gOpts) s s' ∧
      ∃ s'', turn env opts shortops gOpts s' = some (some e, s'') := by
  obtain ⟨turns', hloop, hmem⟩ := loop_total fun s' hr => (mem_loop hr h).1
  obtain rfl := Option.some.inj (h.symm.trans hloop)
  exact hmem s' e hin

end ProgramOpts

end Mowgli
