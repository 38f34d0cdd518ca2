import Mathlib.Data.List.Basic
import Mowgli.Linebuf.Read
/-!
# What processing makes of NULs, and of what lies behind the content

`strchr` finds the terminator of the delimiter string, so a NUL is a
delimiter in both loops of `mowgli_linebuf_process`, and the flag for lines
with a NUL is never set. Only the outer loop is bounded by `buflen`: where the
content ends in a delimiter, the inner one goes on into whatever is behind it.
-/

namespace Mowgli

/-- The line that `readline_cb` is called with. -/
def LinebufCall.line : LinebufCall → Option (List UInt8)
  | readline line _ => some line
  | _ => none

namespace Linebuf

open LineState (plain)

/-- The line buffer with something else behind the content of the read
buffer. -/
def behind (lb : Linebuf) (post : List UInt8) : Linebuf :=
  { lb with readbuf := { lb.readbuf with buffer := lb.readbuf.content ++ post } }

/-- **Processing is delimited**: whatever is behind the content of the read
buffer, also if the block ends there, it delivers the lines that the bytes of
the delimiter string end, and keeps what is left over. -/
def Delimited (lb : Linebuf) : Prop :=
  ∀ post, ∃ calls lb', (lb.behind post).process = some (calls, lb') ∧
    calls.filterMap LinebufCall.line = (if lb.flags.shuttingDown then [] else lb.found [] lb.readbuf.content) ∧
      lb'.readbuf.content = lb.leftover [] lb.readbuf.content

variable {lb lb' : Linebuf} {s s' : Scan} {pre₀ pre cur w post line : List UInt8} {c : UInt8} {calls : List LinebufCall}

theorem strchr_zero (delim : CString) : delim.strchr 0 = true := by simp [CString.strchr]

/-- What ends no line has no NUL. -/
theorem zero_not_mem {delim : CString} (h : ∀ c ∈ w, delim.strchr c = false) : 0 ∉ w := by
  intro h0
  have hzero := h 0 h0
  rw [strchr_zero] at hzero
  cases hzero

theorem content_behind (h : lb.readbuf.buflen ≤ lb.readbuf.buffer.length) :
    (lb.behind post).readbuf.content = lb.readbuf.content :=
  List.take_left' (LinebufBuf.length_content h)

theorem lines_deliver (down : Bool) (lines : List (List UInt8)) :
    (deliver down lines).filterMap LinebufCall.line = if down then [] else lines := by
  cases down with
  | true => rfl
  | false =>
    show (lines.map deliverLine).filterMap LinebufCall.line = lines
    rw [List.filterMap_map]
    exact List.filterMap_some

theorem Processed.lines (h : lb.Processed lb' calls) :
    calls.filterMap LinebufCall.line = if lb.flags.shuttingDown then [] else lb.split [] lb.readbuf.content := by
  rw [h.calls, List.filterMap_append, lines_deliver]
  split_ifs <;> exact List.append_nil _

theorem process_behind (h : lb.readbuf.buflen ≤ lb.readbuf.buffer.length) (post : List UInt8) :
    (lb.Halts lb.readbuf.content post →
      ∃ calls lb', (lb.behind post).process = some (calls, lb') ∧
        calls.filterMap LinebufCall.line = (if lb.flags.shuttingDown then [] else lb.split [] lb.readbuf.content) ∧
          lb'.readbuf.content = lb.splitRest [] lb.readbuf.content) ∧
      (¬ lb.Halts lb.readbuf.content post → (lb.behind post).process = none) := by
  have hlength := LinebufBuf.length_content h
  have hended := (lb.behind post).process_ended (by
    show lb.readbuf.buflen ≤ (lb.readbuf.content ++ post).length
    rw [List.length_append, hlength]
    exact Nat.le_add_right ..)
  have hdrop : (lb.behind post).readbuf.buffer.drop (lb.behind post).readbuf.buflen = post := List.drop_left' hlength
  rw [hdrop, content_behind h] at hended
  refine ⟨fun hhalts => ?_, hended.2⟩
  obtain ⟨calls, lb', hprocess, hdone⟩ := hended.1 hhalts
  have hlines := hdone.lines
  have hrest := hdone.content
  rw [content_behind h] at hlines hrest
  exact ⟨calls, lb', hprocess, hlines, hrest⟩

/-- Where no NUL matters, the lines are those of the delimiters. -/
theorem split_eq_found (h : 0 ∉ lb.readbuf.content) : lb.split [] lb.readbuf.content = lb.found [] lb.readbuf.content :=
  LineState.emit_congr (strchr_eq_isDelim h)

theorem splitRest_eq_leftover (h : 0 ∉ lb.leftover [] w) : lb.splitRest [] w = lb.leftover [] w := by
  refine LineState.after_of_more (fun _ => strchr_of_isDelim) fun c hc => ?_
  have hd : lb.isDelim c = false := LineState.after_cur_suffix.2 c hc
  rw [strchr_of_ne fun h0 => h (h0 ▸ hc), hd]

theorem isDelim_zero (lb : Linebuf) : lb.isDelim 0 = false := by
  rw [isDelim, List.contains_eq_mem, decide_eq_false_iff_not]
  exact lb.delim.nul_free

/-- A NUL at the end is left over. -/
theorem zero_mem_leftover (h : w.getLast? = some 0) : 0 ∈ lb.leftover [] w := by
  obtain ⟨w₀, rfl⟩ := List.getLast?_eq_some_iff.1 h
  rw [leftover, LineState.after_append]
  show 0 ∈ (LineState.next lb.isDelim (LineState.after lb.isDelim ⟨[], false⟩ w₀) 0).cur
  rw [LineState.next, lb.isDelim_zero]
  exact List.mem_append_right _ (List.mem_singleton_self 0)

/-- **Processing is delimited** exactly if the content does not end in a
delimiter, and has no NUL, or, when shutting down, none that is left over. -/
theorem delimited_iff (h : lb.readbuf.buflen ≤ lb.readbuf.buffer.length) :
    lb.Delimited ↔ (∀ c, lb.readbuf.content.getLast? = some c → lb.isDelim c = false) ∧
      0 ∉ (if lb.flags.shuttingDown then lb.leftover [] lb.readbuf.content else lb.readbuf.content) := by
  constructor
  · intro hall
    obtain ⟨calls, lb', hprocess, hlines, hrest⟩ := hall []
    obtain ⟨hsome, hnone⟩ := process_behind h []
    have hhalts : lb.Halts lb.readbuf.content [] := by
      by_contra hne
      rw [hnone hne] at hprocess
      cases hprocess
    obtain ⟨calls', lb'', hprocess', hlines', hrest'⟩ := hsome hhalts
    rw [hprocess] at hprocess'
    obtain ⟨rfl, rfl⟩ := Prod.mk.inj (Option.some.inj hprocess')
    rw [hlines'] at hlines
    rw [hrest'] at hrest
    have hleft : 0 ∉ lb.leftover [] lb.readbuf.content := by
      rw [← hrest]
      exact zero_not_mem LineState.after_cur_suffix.2
    refine ⟨fun c hc => ?_, ?_⟩
    · by_contra hd
      obtain ⟨x, hx, -⟩ := hhalts ⟨c, hc, strchr_of_isDelim (Bool.not_eq_false _ ▸ hd)⟩
      cases hx
    · split_ifs at hlines ⊢ with hdown
      · exact hleft
      · intro h0
        have hwf : LineState.WF (⟨[], false⟩ : LineState UInt8) := fun _ => rfl
        have hnone : ∀ c ∈ (⟨[], false⟩ : LineState UInt8).cur, lb.delim.strchr c = false := nofun
        rcases LineState.mem_emit_or_cur hwf (.inr h0) lb.isDelim_zero with ⟨line, hline, hmem⟩ | hmem
        · rw [← found, ← hlines] at hline
          exact zero_not_mem (LineState.emit_no_delim hnone line hline) hmem
        · exact hleft hmem
  · rintro ⟨hlast, hnul⟩ post
    have hleft : 0 ∉ lb.leftover [] lb.readbuf.content := by
      split_ifs at hnul with hdown
      · exact hnul
      · exact fun h0 => hnul (LineState.after_cur_suffix.1.subset h0)
    have hhalts : lb.Halts lb.readbuf.content post := by
      rintro ⟨c, hc, hd⟩
      rw [strchr_of_ne, hlast c hc] at hd
      · cases hd
      · rintro rfl
        exact hleft (zero_mem_leftover hc)
    obtain ⟨calls, lb', hprocess, hlines, hrest⟩ := (process_behind h post).1 hhalts
    refine ⟨calls, lb', hprocess, hlines.trans ?_, hrest.trans (splitRest_eq_leftover hleft)⟩
    split_ifs at hnul ⊢ with hdown
    · rfl
    · exact split_eq_found hnul

/-- A line buffer with some bytes in its read buffer. -/
def holding (buffer : List UInt8) (buflen : ℕ) : Linebuf :=
  { create 16 16 with readbuf := ⟨buffer, buflen, 16⟩ }

/-- With "a\nb" in the buffer processing is delimited. -/
theorem delimited_iff_two_lines :
    (holding [97, 10, 98] 3).readbuf.buflen ≤ (holding [97, 10, 98] 3).readbuf.buffer.length ∧
      (holding [97, 10, 98] 3).Delimited :=
  ⟨by decide, (delimited_iff (by decide)).2 ⟨fun c hc => by cases hc; decide, by decide⟩⟩

/-- With "a\n" in it, and nothing behind, the block is left. -/
theorem newline_leaves_block : (holding [97, 10] 2).readbuf.buflen ≤ (holding [97, 10] 2).readbuf.buffer.length ∧
    (holding [97, 10] 2).delim.bytes ≠ [] ∧ ¬ (holding [97, 10] 2).Delimited := by
  refine ⟨by decide, by decide, fun h => ?_⟩
  obtain ⟨calls, lb', hprocess, -⟩ := h []
  have hnone : ((holding [97, 10] 2).behind []).process = none := rfl
  rw [hnone] at hprocess
  cases hprocess

-- Bytes of an earlier read decide how many lines there are: here "b" is
-- overread, being behind the content when the delimiters are skipped.
example : ((holding [97, 10, 98, 10, 99] 2).process).map (fun r => (r.1, r.2.readbuf.content)) =
    some ([deliverLine [97]], []) := rfl

/-! ## The flag for lines with a NUL -/

/-- The loop at its start. -/
def start (lb : Linebuf) : Scan :=
  ⟨lb.readbuf.buffer, { lb.flags with lineHasNullchar := false }, 0, 0, 0, []⟩

/-- After some rounds of the loop, the next one ends a line at the byte `c`. -/
structure EndsLine (lb : Linebuf) (s : Scan) (c : UInt8) (line : List UInt8) : Prop where
  reached : ∃ rounds, scan lb rounds lb.start = some s
  more : s.len < lb.readbuf.buflen
  byte : s.buffer[s.len]? = some c
  found : lb.delim.strchr c = true
  line : (lb.terminate s.buffer s.len).bind (Bytes.load · s.lineStart (s.len - s.lineStart)) = some line

/-- **NULs are flagged**: where a line ends, whether it has a NUL is what the
flag says, and it does not end at one. -/
def NulsFlagged (lb : Linebuf) : Prop :=
  ∀ s c line, lb.EndsLine s c line → (s.flags.lineHasNullchar = true ↔ 0 ∈ line) ∧ c ≠ 0

/-- The loop is between two rounds, with the line `cur` so far, `w` still to
go, and `pre₀` before: the line has nothing that would end it, and does not
begin with it if there was a line before. -/
structure Scan.Between (lb : Linebuf) (s : Scan) (pre₀ pre cur w post : List UInt8) : Prop where
  inside : s.In lb pre cur w post
  content : lb.readbuf.content = pre₀ ++ (cur ++ w)
  length : pre₀.length = pre.length
  line : ∀ c ∈ cur, lb.delim.strchr c = false
  begins : cur = [] → pre₀ ≠ [] → ∀ c, w.head? = some c → lb.delim.strchr c = false

/-- Where skipping stops there is a byte that is not found. -/
theorem skip_eq_some {delim : CString} {n : ℕ} (h : skip delim w = some n) :
    ∃ c, w[n]? = some c ∧ delim.strchr c = false := by
  induction w generalizing n with
  | nil => cases h
  | cons c w ih =>
    rw [skip] at h
    split_ifs at h with hc
    · obtain ⟨m, hm, rfl⟩ := Option.map_eq_some_iff.1 h
      exact ih hm
    · obtain rfl := Option.some.inj h
      exact ⟨c, rfl, Bool.eq_false_iff.2 hc⟩

/-- Before the end of the content there is a byte to go, and if a line ends
there, it is the one so far. -/
theorem Scan.Between.next_byte (h : s.Between lb pre₀ pre cur w post) (hlt : s.len < lb.readbuf.buflen) :
    ∃ c w', w = c :: w' ∧ s.buffer[s.len]? = some c ∧ (lb.delim.strchr c = true →
      (lb.terminate s.buffer s.len).bind (Bytes.load · s.lineStart (s.len - s.lineStart)) = some cur) := by
  have hin := h.inside
  obtain ⟨c, w', rfl⟩ : ∃ c w', w = c :: w' := by
    refine List.exists_cons_of_ne_nil ?_
    rintro rfl
    have hlen := hin.buflen
    rw [List.length_nil] at hlen
    omega
  refine ⟨c, w', rfl, hin.get, fun hd => ?_⟩
  obtain ⟨x, -, hterminate⟩ := hin.terminate hd
  have hn : s.len - s.lineStart = cur.length := by
    rw [hin.len, hin.lineStart]
    omega
  rw [hterminate, Option.bind_some, hn, hin.lineStart, Bytes.load_of_le (by simp), List.drop_left, List.take_left]

theorem Scan.Between.step (h : s.Between lb pre₀ pre cur w post) (hlt : s.len < lb.readbuf.buflen)
    (hstep : s.step lb = some s') (hlt' : s'.len < lb.readbuf.buflen) :
    ∃ pre₀' pre' cur' w', s'.Between lb pre₀' pre' cur' w' post := by
  obtain ⟨c, w, rfl, -, -⟩ := h.next_byte hlt
  cases hd : lb.delim.strchr c with
  | false =>
    obtain ⟨heq, hin⟩ := h.inside.step_text hd
    rw [heq] at hstep
    obtain rfl := Option.some.inj hstep
    refine ⟨pre₀, pre, cur ++ [c], w, hin, ?_, h.length, fun x hx => ?_, fun hnil => ?_⟩
    · rw [h.content, List.append_assoc]
      rfl
    · rcases List.mem_append.1 hx with hx | hx
      · exact h.line x hx
      · rw [List.mem_singleton.1 hx, hd]
    · exact absurd hnil (by simp)
  | true =>
    obtain ⟨x, heq⟩ := h.inside.step_end hd
    rw [heq] at hstep
    obtain ⟨n, hn, rfl⟩ := Option.map_eq_some_iff.1 hstep
    -- skipping stopped inside the content, at the first byte of the next line
    have hlen := h.inside.buflen
    rw [List.length_cons] at hlen
    have hlt'' : n < w.length := by
      dsimp only at hlt'
      omega
    obtain ⟨y, hy, hstop⟩ := skip_eq_some hn
    rw [List.getElem?_append_left hlt''] at hy
    have hw : w = w.take n ++ w.drop n := (List.take_append_drop n w).symm
    have htake : (w.take n).length = n := by
      rw [List.length_take]
      omega
    have hin := h.inside
    rw [hw] at hin
    have hnext := hin.next x (s.calls ++ deliver s.flags.shuttingDown [cur])
    rw [htake, ← hw] at hnext
    refine ⟨pre₀ ++ (cur ++ (c :: w.take n)), _, [], w.drop n, hnext, ?_, ?_, nofun, fun _ _ z hz => ?_⟩
    · rw [h.content]
      simp
    · simp only [List.length_append, List.length_cons, h.length]
    · rw [List.head?_drop, hy] at hz
      rw [← Option.some.inj hz, hstop]

theorem scan_between {rounds : ℕ} (h : s.Between lb pre₀ pre cur w post) (hscan : scan lb rounds s = some s')
    (hlt : s'.len < lb.readbuf.buflen) : ∃ pre₀' pre' cur' w', s'.Between lb pre₀' pre' cur' w' post := by
  induction rounds generalizing s pre₀ pre cur w with
  | zero =>
    obtain rfl := Option.some.inj hscan
    exact ⟨_, _, _, _, h⟩
  | succ rounds ih =>
    rw [scan] at hscan
    split_ifs at hscan with hmore
    · obtain ⟨s₁, hstep, hrest⟩ := Option.bind_eq_some_iff.1 hscan
      by_cases hover : lb.readbuf.buflen ≤ s₁.len
      · rw [scan_over hover] at hrest
        obtain rfl := Option.some.inj hrest
        omega
      · obtain ⟨_, _, _, _, hbetween⟩ := h.step hmore hstep (not_le.1 hover)
        exact ih hbetween hrest
    · obtain rfl := Option.some.inj hscan
      exact absurd hlt hmore

theorem start_between (h : lb.readbuf.buflen ≤ lb.readbuf.buffer.length) :
    lb.start.Between lb [] [] [] lb.readbuf.content (lb.readbuf.buffer.drop lb.readbuf.buflen) where
  inside := ⟨(List.take_append_drop ..).symm, rfl, rfl, by rw [LinebufBuf.length_content h]; exact (Nat.zero_add _).symm, rfl⟩
  content := rfl
  length := rfl
  line := nofun
  begins := fun _ hne => absurd rfl hne

/-- The line buffer with less in its read buffer. -/
def upTo (lb : Linebuf) (n : ℕ) : Linebuf := { lb with readbuf := { lb.readbuf with buflen := n } }

/-- With less in the buffer the loop has the same rounds, as far as it goes. -/
theorem scan_upTo {n rounds : ℕ} (hle : n ≤ lb.readbuf.buflen) (h : scan (lb.upTo n) rounds s = some s') :
    ∃ rounds', scan lb rounds' s = some s' := by
  induction rounds generalizing s with
  | zero => exact ⟨0, h⟩
  | succ rounds ih =>
    rw [scan] at h
    split_ifs at h with hmore
    · obtain ⟨s₁, hs₁, hrest⟩ := Option.bind_eq_some_iff.1 h
      obtain ⟨rounds', hscan⟩ := ih hrest
      refine ⟨rounds' + 1, ?_⟩
      have hs₁' : s.step lb = some s₁ := hs₁
      rw [scan, if_pos (lt_of_lt_of_le hmore hle), hs₁']
      exact hscan
    · exact ⟨0, h⟩

/-- The loop comes to every byte that is not skipped. -/
theorem comes_to (h : lb.readbuf.buflen ≤ lb.readbuf.buffer.length) (hcontent : lb.readbuf.content = pre ++ c :: w)
    (hpre : ∀ x, pre.getLast? = some x → lb.delim.strchr x = false) :
    ∃ s, (∃ rounds, scan lb rounds lb.start = some s) ∧ s.len = pre.length := by
  rcases List.eq_nil_or_concat' pre with rfl | ⟨pre', x, rfl⟩
  · exact ⟨lb.start, ⟨0, rfl⟩, rfl⟩
  · have hlength : lb.readbuf.content.length = lb.readbuf.buflen := by
      rw [LinebufBuf.content, List.length_take, min_eq_left h]
    have hle : (pre' ++ [x]).length ≤ lb.readbuf.buflen := by
      rw [← hlength, hcontent, @List.length_append _ (pre' ++ [x])]
      exact Nat.le_add_right ..
    have hbuffer : lb.readbuf.buffer = (pre' ++ [x]) ++ lb.readbuf.buffer.drop (pre' ++ [x]).length := by
      have htake : lb.readbuf.buffer.take (pre' ++ [x]).length = pre' ++ [x] := by
        have := congrArg (List.take (pre' ++ [x]).length) hcontent
        rw [LinebufBuf.content, List.take_take, min_eq_left hle, List.take_left] at this
        exact this
      conv_lhs => rw [← List.take_append_drop (pre' ++ [x]).length lb.readbuf.buffer, htake]
    -- the line buffer with only that much in it
    have hin : Scan.In (lb.upTo (pre' ++ [x]).length) lb.start [] [] (pre' ++ [x]) (lb.readbuf.buffer.drop (pre' ++ [x]).length) :=
      ⟨hbuffer, rfl, rfl, (Nat.zero_add _).symm, rfl⟩
    have hx : lb.delim.strchr x = false := hpre x (by simp)
    obtain ⟨s, hscan, hended⟩ := (scan_ended hin le_rfl).1 (by
      rintro ⟨y, hy, hd⟩
      rw [List.getLast?_concat] at hy
      obtain rfl := Option.some.inj hy
      have hd' : lb.delim.strchr x = true := hd
      rw [hx] at hd'
      cases hd')
    refine ⟨s, scan_upTo hle hscan, hended.ends fun hnil => ?_⟩
    have hnext : (lb.upTo (pre' ++ [x]).length).splitRest [] (pre' ++ [x]) =
        (LineState.next lb.delim.strchr (LineState.after lb.delim.strchr ⟨[], false⟩ pre') x).cur := by
      rw [splitRest, LineState.after_append]
      rfl
    rw [hnext, LineState.next, hx] at hnil
    exact absurd hnil (by simp)

/-- **NULs are flagged** exactly if there is none but right behind a
delimiter, or another NUL: the others all end lines. -/
theorem nulsFlagged_iff (h : lb.readbuf.buflen ≤ lb.readbuf.buffer.length) :
    lb.NulsFlagged ↔ ∀ pre w, lb.readbuf.content = pre ++ 0 :: w →
      ∃ c, pre.getLast? = some c ∧ lb.delim.strchr c = true := by
  constructor
  · intro hflagged pre w hcontent
    by_contra hnone
    have hpre : ∀ x, pre.getLast? = some x → lb.delim.strchr x = false :=
      fun x hx => Bool.eq_false_iff.2 fun hd => hnone ⟨x, hx, hd⟩
    obtain ⟨s, hreached, hlen⟩ := comes_to h hcontent hpre
    have hlength := LinebufBuf.length_content h
    have hmore : s.len < lb.readbuf.buflen := by
      rw [← hlength, hcontent, hlen, List.length_append, List.length_cons]
      omega
    obtain ⟨rounds, hscan⟩ := hreached
    obtain ⟨pre₀, pre', cur, w', hbetween⟩ := scan_between (start_between h) hscan hmore
    obtain ⟨c, w', rfl, hbyte, hline⟩ := hbetween.next_byte hmore
    have hc : c = 0 := by
      have heq := hbetween.content.symm.trans hcontent
      rw [← List.append_assoc] at heq
      have hlen' : (pre₀ ++ cur).length = pre.length := by
        rw [← hlen, hbetween.inside.len, List.length_append, hbetween.length]
      exact (List.cons.inj (List.append_inj heq hlen').2).1
    subst hc
    -- `strchr` finds it, so it ends the line
    exact (hflagged s 0 cur ⟨⟨rounds, hscan⟩, hmore, hbyte, strchr_zero _, hline (strchr_zero _)⟩).2 rfl
  · intro hnul s c line hends
    obtain ⟨rounds, hscan⟩ := hends.reached
    obtain ⟨pre₀, pre, cur, w, hbetween⟩ := scan_between (start_between h) hscan hends.more
    obtain ⟨c', w, rfl, hbyte, hcur⟩ := hbetween.next_byte hends.more
    obtain rfl := Option.some.inj (hbyte.symm.trans hends.byte)
    obtain rfl := Option.some.inj ((hcur hends.found).symm.trans hends.line)
    refine ⟨?_, ?_⟩
    · rw [hbetween.inside.nullchar]
      exact ⟨nofun, fun h0 => absurd h0 (zero_not_mem hbetween.line)⟩
    · rintro rfl
      have hcontent := hbetween.content
      rw [← List.append_assoc] at hcontent
      obtain ⟨y, hy, hd⟩ := hnul _ _ hcontent
      rcases List.eq_nil_or_concat' cur with rfl | ⟨cur', z, rfl⟩
      -- the line does not begin with a NUL, unless it is the first one
      · rw [List.append_nil] at hy
        have hne : pre₀ ≠ [] := by
          rintro rfl
          cases hy
        have := hbetween.begins rfl hne 0 rfl
        rw [strchr_zero] at this
        cases this
      · rw [← List.append_assoc, List.getLast?_concat] at hy
        obtain rfl := Option.some.inj hy
        rw [hbetween.line z (List.mem_append_right _ (List.mem_singleton_self z))] at hd
        cases hd

/-- In "a\n\0b" the NUL is skipped with the "\n". -/
theorem nulsFlagged_iff_skipped :
    (holding [97, 10, 0, 98] 4).readbuf.buflen ≤ (holding [97, 10, 0, 98] 4).readbuf.buffer.length ∧
      (holding [97, 10, 0, 98] 4).NulsFlagged := by
  refine ⟨by decide, (nulsFlagged_iff (by decide)).2 fun pre w hcontent => ?_⟩
  have hpre : pre = [97, 10] := by
    have hlist : [97, 10, 0, 98] = pre ++ 0 :: w := hcontent
    simp only [List.cons_eq_append_iff, List.cons.injEq, List.nil_eq_append_iff] at hlist
    grind
  subst hpre
  exact ⟨10, rfl, by decide⟩

/-- In "a\0b\nc" it ends the line "a". -/
theorem nul_ends_line : (holding [97, 0, 98, 10, 99] 5).readbuf.buflen ≤ (holding [97, 0, 98, 10, 99] 5).readbuf.buffer.length ∧
    ¬ (holding [97, 0, 98, 10, 99] 5).NulsFlagged := by
  refine ⟨by decide, fun h => ?_⟩
  have hends : (holding [97, 0, 98, 10, 99] 5).EndsLine
      ⟨[97, 0, 98, 10, 99], ⟨false, false, false, false⟩, 0, 1, 0, []⟩ 0 [97] :=
    ⟨⟨1, rfl⟩, by decide, rfl, by decide, rfl⟩
  exact (h _ _ _ hends).2 rfl

end Linebuf

end Mowgli
