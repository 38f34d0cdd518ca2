import Mowgli.Library.Lines
import Mowgli.Linebuf.Model
/-!
# Reading lines

`mowgli_linebuf_read_data` has the VIO read behind what is in the read
buffer, and `mowgli_linebuf_process` delivers the lines that are complete and
moves the rest to the front of the buffer. In it `cptr` is always
`buffer + len`, so that one of them is enough.

After a line the delimiters are skipped with `strchr`, which also finds the
terminator of the delimiter string: the loop does not stop at a NUL, nor at
the end of what is in the buffer, but at the first byte of the block that is
neither NUL nor a delimiter, and if there is none it reads past the block.
-/

namespace Mowgli

/-- What `mowgli_vio_read` answers: the bytes that it put into the buffer
(none if it fails), whether `vio->error.type` is `MOWGLI_VIO_ERR_NONE` then,
and the flags that it sets. -/
structure VioRead where
  data : List UInt8
  errorNone : Bool
  needread : Bool
  needwrite : Bool

namespace Linebuf

/-- `while (strchr(linebuf->delim, *cptr)) cptr++`: how far it goes in what
is left of the block. -/
def skip (delim : CString) : List UInt8 → Option ℕ
  | [] => none
  | c :: rest => if delim.strchr c then (skip delim rest).map (· + 1) else some 0

/-- The variables of the loop of `mowgli_linebuf_process`, the block and the
flags, and the calls made. -/
structure Scan where
  buffer : List UInt8
  flags : LinebufFlags
  lineStart : ℕ
  len : ℕ
  linecount : ℕ
  calls : List LinebufCall

/-- `if (linebuf->return_normal_strings) *cptr = '\0'`. -/
def terminate (lb : Linebuf) (buffer : List UInt8) (len : ℕ) : Option (List UInt8) :=
  if lb.returnNormalStrings then Bytes.store buffer len [0] else some buffer

/-- A round of the loop. -/
def Scan.step (lb : Linebuf) (s : Scan) : Option Scan := do
  let c ← s.buffer[s.len]?
  if ¬ lb.delim.strchr c then
    let flags := if c = 0 then { s.flags with lineHasNullchar := true } else s.flags
    some { s with flags := flags, len := s.len + 1 }
  else
    let buffer ← lb.terminate s.buffer s.len
    let line ← Bytes.load buffer s.lineStart (s.len - s.lineStart)
    let calls := if s.flags.shuttingDown then s.calls
      else s.calls ++ [.readline line s.flags.lineHasNullchar]
    let n ← skip lb.delim (buffer.drop s.len)
    some ⟨buffer, { s.flags with lineHasNullchar := false }, s.len + n, s.len + n, s.linecount + 1, calls⟩

/-- `while (len < buffer->buflen)`. Every round makes `len` larger, so
`buflen` rounds are enough. -/
def scan (lb : Linebuf) : ℕ → Scan → Option Scan
  | 0, s => some s
  | fuel + 1, s => if s.len < lb.readbuf.buflen then (s.step lb).bind (scan lb fuel) else some s

/-- `mowgli_linebuf_process`. -/
def process (lb : Linebuf) : Option (List LinebufCall × Linebuf) := do
  let s ← scan lb lb.readbuf.buflen
    ⟨lb.readbuf.buffer, { lb.flags with lineHasNullchar := false }, 0, 0, 0, []⟩
  let buf := { lb.readbuf with buffer := s.buffer }
  if s.linecount = 0 ∧ buf.buflen = buf.maxbuflen then
    let lb := { lb with readbuf := buf, flags := { s.flags with errReadbufFull := true } }
    some (s.calls ++ [lb.error], lb)
  else if s.lineStart ≠ s.len then do
    let rest ← Bytes.load s.buffer s.lineStart (s.len - s.lineStart)
    let buffer ← Bytes.store s.buffer 0 rest
    some (s.calls, { lb with
      flags := s.flags, readbuf := { buf with buffer := buffer, buflen := s.len - s.lineStart } })
  else some (s.calls, { lb with flags := s.flags, readbuf := { buf with buflen := 0 } })

/-- `mowgli_linebuf_read_data`. The VIO is asked for one byte more than there
is room for. -/
def readData (lb : Linebuf) (r : VioRead) : Option (List LinebufCall × Linebuf) :=
  if sizeSub lb.readbuf.maxbuflen lb.readbuf.buflen = 0 then
    let lb := { lb with flags := { lb.flags with errReadbufFull := true } }
    some ([lb.error], lb)
  else if r.data = [] then
    if r.errorNone then some ([], lb)
    else some (lb.doShutdown, { lb with selectRead := false })
  else do
    let buffer ← Bytes.store lb.readbuf.buffer lb.readbuf.buflen r.data
    process { lb with
      readbuf := { lb.readbuf with buffer := buffer, buflen := lb.readbuf.buflen + r.data.length }
      selectRead := lb.selectRead || r.needread
      selectWrite := lb.selectWrite || r.needwrite }

/-- Reading after reading. -/
def reads (lb : Linebuf) : List VioRead → Option (List LinebufCall × Linebuf)
  | [] => some ([], lb)
  | r :: rs => do
    let (calls, lb) ← lb.readData r
    let (calls', lb) ← reads lb rs
    some (calls ++ calls', lb)

/-! ## What the loop finds -/

/-- Whether a byte is a delimiter. -/
def isDelim (lb : Linebuf) (c : UInt8) : Bool := lb.delim.bytes.contains c

/-- The call for a line without a NUL. -/
def deliverLine (line : List UInt8) : LinebufCall := .readline line false

/-- Skipping delimiters stops: what was read does not end in one, or there is
something else behind it in the block. -/
def Stops (lb : Linebuf) (w post : List UInt8) : Prop :=
  (∃ c, w.getLast? = some c ∧ lb.isDelim c = true) → ∃ c ∈ post, lb.delim.strchr c = false

/-- What the loop finds in any bytes: NUL ends a line as well, being found by
`strchr`. -/
abbrev split (lb : Linebuf) (cur w : List UInt8) : List (List UInt8) :=
  LineState.emit lb.delim.strchr ⟨cur, false⟩ (LineState.plain w)

abbrev splitRest (lb : Linebuf) (cur w : List UInt8) : List UInt8 :=
  (LineState.after lb.delim.strchr ⟨cur, false⟩ w).cur

/-- The calls for some lines: none in a line buffer that is shutting down. -/
def deliver (shuttingDown : Bool) (lines : List (List UInt8)) : List LinebufCall :=
  if shuttingDown then [] else lines.map deliverLine

/-- `Stops`, of any bytes. -/
def Halts (lb : Linebuf) (w post : List UInt8) : Prop :=
  (∃ c, w.getLast? = some c ∧ lb.delim.strchr c = true) → ∃ c ∈ post, lb.delim.strchr c = false

/-- The loop is in the middle of the line `cur` with `w` still to go. -/
structure Scan.In (lb : Linebuf) (s : Scan) (pre cur w post : List UInt8) : Prop where
  buffer : s.buffer = pre ++ (cur ++ (w ++ post))
  lineStart : s.lineStart = pre.length
  len : s.len = pre.length + cur.length
  buflen : lb.readbuf.buflen = s.len + w.length
  nullchar : s.flags.lineHasNullchar = false

/-- The loop has delivered the lines, unless it is shutting down, with `rest` left
over. That ends where the content of the buffer does. -/
structure Scan.Ended (lb : Linebuf) (s s' : Scan) (lines : List (List UInt8)) (rest : List UInt8) : Prop where
  calls : s'.calls = s.calls ++ deliver s.flags.shuttingDown lines
  linecount : s'.linecount = s.linecount + lines.length
  flags : s'.flags = s.flags
  length : s'.buffer.length = s.buffer.length
  len : s'.len = s'.lineStart + rest.length
  load : Bytes.load s'.buffer s'.lineStart rest.length = some rest
  ends : rest ≠ [] → s'.len = lb.readbuf.buflen

variable {lb lb' : Linebuf} {s s' : Scan} {pre cur ds w post : List UInt8} {c : UInt8} {fuel : ℕ}

theorem strchr_of_ne (h : c ≠ 0) : lb.delim.strchr c = lb.isDelim c := by
  simp [CString.strchr, isDelim, h]

theorem strchr_of_isDelim (h : lb.isDelim c = true) : lb.delim.strchr c = true := by
  rw [CString.strchr]
  rw [isDelim] at h
  rw [h, Bool.true_or]

/-- Skipping goes as far as the bytes that are found. -/
theorem skip_append (post : List UInt8) (h : ∀ c ∈ w, lb.delim.strchr c = true) :
    skip lb.delim (w ++ post) = (skip lb.delim post).map (w.length + ·) := by
  induction w with
  | nil => simp
  | cons c w ih =>
    rw [List.cons_append, skip, if_pos (h c List.mem_cons_self), ih fun c' hc' => h c' (List.mem_cons_of_mem _ hc'),
      Option.map_map]
    congr 1
    funext n
    simp only [Function.comp, List.length_cons]
    omega

theorem skip_of_stop (h : ∃ c ∈ post, lb.delim.strchr c = false) : ∃ n, skip lb.delim post = some n ∧ n ≤ post.length := by
  induction post with
  | nil => simp at h
  | cons c post ih =>
    rw [skip]
    split_ifs with hc
    · obtain ⟨c', hc', hstop⟩ := h
      rcases List.mem_cons.1 hc' with rfl | hc'
      · rw [hc] at hstop
        cases hstop
      · obtain ⟨n, hn, hle⟩ := ih ⟨c', hc', hstop⟩
        exact ⟨n + 1, by rw [hn]; rfl, by simpa using hle⟩
    · exact ⟨0, rfl, Nat.zero_le _⟩

/-- A byte that is not found is of no account for what is behind it. -/
theorem halts_cons (hd : lb.delim.strchr c = false) : lb.Halts (c :: w) post ↔ lb.Halts w post := by
  cases w with
  | nil => simp [Halts, hd]
  | cons c' w => simp only [Halts, List.getLast?_cons_cons]

/-- Where all bytes are skipped, it is what is behind them that matters. -/
theorem halts_delims (hd : lb.delim.strchr c = true) (hds : ∀ x ∈ ds, lb.delim.strchr x = true) :
    lb.Halts (c :: ds) post ↔ ∃ x ∈ post, lb.delim.strchr x = false := by
  have hlast : ∃ x, (c :: ds).getLast? = some x ∧ lb.delim.strchr x = true := by
    rw [List.getLast?_eq_some_getLast (by simp)]
    refine ⟨_, rfl, ?_⟩
    rcases List.mem_cons.1 (List.getLast_mem (l := c :: ds) (by simp)) with heq | hmem
    · rw [heq, hd]
    · exact hds _ hmem
  exact ⟨fun h => h hlast, fun h _ => h⟩

theorem halts_append (hne : w ≠ []) : lb.Halts (pre ++ w) post ↔ lb.Halts w post := by
  have hlast : (pre ++ w).getLast? = w.getLast? := by
    rw [List.getLast?_append, Option.or_of_isSome (by simpa using hne)]
  simp only [Halts, hlast]

theorem skip_of_not_stop (h : ¬ ∃ c ∈ post, lb.delim.strchr c = false) : skip lb.delim post = none := by
  have hall : ∀ c ∈ post, lb.delim.strchr c = true := by
    intro c hc
    by_contra hne
    exact h ⟨c, hc, Bool.eq_false_iff.2 hne⟩
  have happend := skip_append [] hall
  rw [List.append_nil] at happend
  rw [happend]
  rfl

theorem Scan.In.get (h : s.In lb pre cur (c :: w) post) : s.buffer[s.len]? = some c := by
  rw [h.buffer, h.len, ← List.append_assoc, List.getElem?_append_right (by simp)]
  simp

/-- A round at a byte that is not found. -/
theorem Scan.In.step_text (h : s.In lb pre cur (c :: w) post) (hd : lb.delim.strchr c = false) :
    s.step lb = some { s with len := s.len + 1 } ∧ Scan.In lb { s with len := s.len + 1 } pre (cur ++ [c]) w post := by
  have hc : c ≠ 0 := by
    rintro rfl
    simp [CString.strchr] at hd
  constructor
  · unfold Scan.step
    rw [h.get, Option.bind_eq_bind, Option.bind_some, hd, if_pos (by simp), if_neg hc]
  · refine ⟨?_, h.lineStart, ?_, ?_, h.nullchar⟩
    · rw [h.buffer]
      simp
    · rw [h.len, List.length_append]
      rfl
    · rw [h.buflen, List.length_cons]
      show s.len + (w.length + 1) = s.len + 1 + w.length
      omega

/-- Where a line ends there is a byte that is found, or the NUL put in its
place. -/
theorem Scan.In.terminate (h : s.In lb pre cur (c :: w) post) (hd : lb.delim.strchr c = true) :
    ∃ x, lb.delim.strchr x = true ∧
      lb.terminate s.buffer s.len = some (pre ++ (cur ++ (x :: (w ++ post)))) := by
  by_cases hnormal : lb.returnNormalStrings
  · refine ⟨0, by simp [CString.strchr], ?_⟩
    have hlen : s.len = (pre ++ cur).length := by rw [h.len, List.length_append]
    have hbuf : s.buffer = (pre ++ cur) ++ ([c] ++ (w ++ post)) := by
      rw [h.buffer, List.append_assoc]
      rfl
    have hdrop : ((pre ++ cur) ++ ([c] ++ (w ++ post))).drop ((pre ++ cur).length + 1) = w ++ post := by
      rw [← List.append_assoc]
      exact List.drop_left' (by simp [add_assoc])
    have hroom : (pre ++ cur).length + ([0] : List UInt8).length ≤ ((pre ++ cur) ++ ([c] ++ (w ++ post))).length := by
      simp only [List.length_append, List.length_singleton]
      omega
    rw [Linebuf.terminate, if_pos hnormal, Bytes.store, hbuf, hlen, if_pos hroom, List.take_left]
    show some (pre ++ cur ++ [0] ++ List.drop ((pre ++ cur).length + 1) _) = _
    rw [hdrop, List.append_assoc, List.append_assoc]
    rfl
  · refine ⟨c, hd, ?_⟩
    rw [Linebuf.terminate, if_neg hnormal, h.buffer]
    rfl

/-- A round at a byte that is found. -/
theorem Scan.In.step_end (h : s.In lb pre cur (c :: w) post) (hd : lb.delim.strchr c = true) :
    ∃ x, s.step lb = (skip lb.delim (w ++ post)).map fun n =>
      ⟨pre ++ (cur ++ (x :: (w ++ post))), s.flags, s.len + (n + 1), s.len + (n + 1), s.linecount + 1,
        s.calls ++ deliver s.flags.shuttingDown [cur]⟩ := by
  have hflags : { s.flags with lineHasNullchar := false } = s.flags := by
    rw [← h.nullchar]
  obtain ⟨x, hx, hbuffer⟩ := h.terminate hd
  refine ⟨x, ?_⟩
  have hline : Bytes.load (pre ++ (cur ++ (x :: (w ++ post)))) s.lineStart (s.len - s.lineStart) = some cur := by
    have hn : s.len - s.lineStart = cur.length := by rw [h.len, h.lineStart]; omega
    rw [hn, h.lineStart, Bytes.load_of_le (by simp), List.drop_left, List.take_left]
  have hdrop : (pre ++ (cur ++ (x :: (w ++ post)))).drop s.len = x :: (w ++ post) := by
    rw [h.len, ← List.append_assoc, ← List.length_append, List.drop_left]
  have hcalls : (if s.flags.shuttingDown then s.calls else s.calls ++ [.readline cur s.flags.lineHasNullchar]) =
      s.calls ++ deliver s.flags.shuttingDown [cur] := by
    rw [deliver, h.nullchar]
    cases s.flags.shuttingDown
    · rfl
    · exact (List.append_nil _).symm
  unfold Scan.step
  rw [h.get, Option.bind_eq_bind, Option.bind_some, hd, if_neg (by simp), hbuffer,
    Option.bind_eq_bind, Option.bind_some, hline, Option.bind_eq_bind, Option.bind_some, hdrop, skip, if_pos hx]
  dsimp only
  rw [hcalls, hflags]
  cases skip lb.delim (w ++ post) <;> rfl

open LineState (plain)

/-- The lines that the loop is to find in `w`, and what is left over. -/
abbrev found (lb : Linebuf) (cur w : List UInt8) : List (List UInt8) :=
  LineState.emit lb.isDelim ⟨cur, false⟩ (plain w)

abbrev leftover (lb : Linebuf) (cur w : List UInt8) : List UInt8 :=
  (LineState.after lb.isDelim ⟨cur, false⟩ w).cur

theorem scan_over (h : lb.readbuf.buflen ≤ s.len) : scan lb fuel s = some s := by
  cases fuel with
  | zero => rfl
  | succ fuel => exact if_neg (not_lt.2 h)

/-- Where there is nothing to go the loop is over. -/
theorem Scan.In.finished (h : s.In lb pre cur [] post) : scan lb fuel s = some s ∧ s.Ended lb s [] cur := by
  constructor
  · exact scan_over h.buflen.le
  · refine ⟨?_, rfl, rfl, rfl, by rw [h.lineStart, h.len], ?_, fun _ => h.buflen.symm⟩
    · cases hdown : s.flags.shuttingDown <;> simp [deliver]
    · rw [h.lineStart, h.buffer, Bytes.load_of_le (by simp), List.drop_left, List.nil_append, List.take_left]

theorem deliver_append (down : Bool) (lines lines' : List (List UInt8)) :
    deliver down (lines ++ lines') = deliver down lines ++ deliver down lines' := by
  cases down with
  | false => exact List.map_append
  | true => rfl

/-- What is done before a loop that is over. -/
theorem Scan.Ended.after {s₁ : Scan} {lines' : List (List UInt8)} {rest : List UInt8}
    (h : s₁.Ended lb s' lines' rest) (lines : List (List UInt8))
    (hcalls : s₁.calls = s.calls ++ deliver s.flags.shuttingDown lines)
    (hcount : s₁.linecount = s.linecount + lines.length) (hflags : s₁.flags = s.flags)
    (hlength : s₁.buffer.length = s.buffer.length) : s.Ended lb s' (lines ++ lines') rest where
  calls := by rw [h.calls, hcalls, hflags, deliver_append, List.append_assoc]
  linecount := by rw [h.linecount, hcount, List.length_append, add_assoc]
  flags := h.flags.trans hflags
  length := h.length.trans hlength
  len := h.len
  load := h.load
  ends := h.ends

/-- Ending a line keeps the length of the block. -/
theorem Scan.In.length_in (h : s.In lb pre cur (c :: w) post) (x : UInt8) :
    (pre ++ (cur ++ (x :: (w ++ post)))).length = s.buffer.length := by
  rw [h.buffer]
  simp

/-- After a line and what was skipped behind it the loop is at the start of
the next line. -/
theorem Scan.In.next (h : s.In lb pre cur (c :: (ds ++ w)) post) (x : UInt8) (calls : List LinebufCall) :
    Scan.In lb ⟨pre ++ (cur ++ (x :: (ds ++ w ++ post))), s.flags, s.len + (ds.length + 1), s.len + (ds.length + 1),
      s.linecount + 1, calls⟩ (pre ++ (cur ++ (x :: ds))) [] w post := by
  have hbuflen := h.buflen
  simp only [List.length_cons, List.length_append] at hbuflen
  refine ⟨by simp, ?_, ?_, ?_, h.nullchar⟩
  · show s.len + (ds.length + 1) = (pre ++ (cur ++ (x :: ds))).length
    simp only [h.len, List.length_append, List.length_cons]
    omega
  · show s.len + (ds.length + 1) = (pre ++ (cur ++ (x :: ds))).length + 0
    simp only [h.len, List.length_append, List.length_cons]
    omega
  · show lb.readbuf.buflen = s.len + (ds.length + 1) + w.length
    omega

/-- **The loop** finds the lines of what it has to go, if skipping stops;
otherwise it reads past the block. -/
theorem scan_ended (h : s.In lb pre cur w post) (hfuel : w.length ≤ fuel) :
    (lb.Halts w post → ∃ s', scan lb fuel s = some s' ∧ s.Ended lb s' (lb.split cur w) (lb.splitRest cur w)) ∧
      (¬ lb.Halts w post → scan lb fuel s = none) := by
  induction fuel generalizing s pre cur w with
  | zero =>
    obtain rfl : w = [] := List.length_eq_zero_iff.1 (Nat.le_zero.1 hfuel)
    exact ⟨fun _ => ⟨s, h.finished⟩, fun hstop => absurd (fun ⟨c, hc, _⟩ => by cases hc) hstop⟩
  | succ fuel ih =>
    cases w with
    | nil => exact ⟨fun _ => ⟨s, h.finished⟩, fun hstop => absurd (fun ⟨c, hc, _⟩ => by cases hc) hstop⟩
    | cons c w =>
      have hlt : s.len < lb.readbuf.buflen := by
        have := h.buflen
        rw [List.length_cons] at this
        omega
      rw [scan, if_pos hlt]
      have hle : w.length ≤ fuel := by simpa using hfuel
      cases hd : lb.delim.strchr c with
      | false =>
        obtain ⟨hstep, hnext⟩ := h.step_text hd
        have hfound : lb.split cur (c :: w) = lb.split (cur ++ [c]) w :=
          LineState.emit_line (s := [c]) (plain w) (by simpa using hd)
        have hleft : lb.splitRest cur (c :: w) = lb.splitRest (cur ++ [c]) w := by
          show (LineState.after lb.delim.strchr (LineState.next lb.delim.strchr ⟨cur, false⟩ c) w).cur = _
          rw [LineState.next, hd]
          rfl
        rw [hstep, Option.bind_some, hfound, hleft, halts_cons hd]
        obtain ⟨hsome, hnone⟩ := ih hnext hle
        refine ⟨fun hstop => ?_, hnone⟩
        obtain ⟨s', hs', hdone⟩ := hsome hstop
        refine ⟨s', hs', hdone.after [] ?_ rfl rfl rfl⟩
        cases s.flags.shuttingDown <;> exact (List.append_nil _).symm
      | true =>
        obtain ⟨x, hstep⟩ := h.step_end hd
        have hfound : lb.split cur (c :: w) = cur :: LineState.emit lb.delim.strchr ⟨[], true⟩ (plain w) := by
          show LineState.deliver lb.delim.strchr ⟨cur, false⟩ c false ++
            LineState.emit lb.delim.strchr (LineState.next lb.delim.strchr ⟨cur, false⟩ c) (plain w) = _
          rw [LineState.deliver, LineState.next, hd]
          rfl
        have hleft : lb.splitRest cur (c :: w) = (LineState.after lb.delim.strchr ⟨[], true⟩ w).cur := by
          show (LineState.after lb.delim.strchr (LineState.next lb.delim.strchr ⟨cur, false⟩ c) w).cur = _
          rw [LineState.next, hd]
          rfl
        -- what is skipped, and then the next line, if there is one
        obtain ⟨ds, w', rfl, hds, hhead⟩ : ∃ ds w', w = ds ++ w' ∧ (∀ c ∈ ds, lb.delim.strchr c = true) ∧
            ∀ c, w'.head? = some c → lb.delim.strchr c = false := by
          refine ⟨w.takeWhile lb.delim.strchr, w.dropWhile lb.delim.strchr, (List.takeWhile_append_dropWhile).symm,
            fun c hc => List.mem_takeWhile_imp hc, fun c hc => ?_⟩
          have := List.head?_dropWhile_not lb.delim.strchr w
          rw [hc] at this
          simpa using this
        have hskip : skip lb.delim (ds ++ w' ++ post) = (skip lb.delim (w' ++ post)).map (ds.length + ·) := by
          rw [List.append_assoc]
          exact skip_append _ hds
        have hplain : plain (ds ++ w') = plain ds ++ plain w' := List.map_append
        rw [hstep, hfound, hleft, hskip, hplain, LineState.emit_delims hds, LineState.after_append,
          LineState.after_delims hds]
        cases w' with
        | nil =>
          -- skipping goes into what is behind the content
          rw [show lb.Halts (c :: (ds ++ [])) post ↔ _ from (List.append_nil ds).symm ▸ halts_delims hd hds, List.nil_append]
          constructor
          · intro hstop
            obtain ⟨n, hn, hle'⟩ := skip_of_stop hstop
            have hlength := h.length_in x
            have hover : lb.readbuf.buflen ≤ s.len + (ds.length + n + 1) := by
              have := h.buflen
              simp only [List.length_cons, List.append_nil] at this
              omega
            rw [hn]
            refine ⟨_, scan_over hover, rfl, rfl, rfl, hlength, rfl, ?_, fun hne => absurd rfl hne⟩
            rw [LineState.after, List.foldl_nil, List.length_nil, Bytes.load_of_le]
            · rfl
            · rw [hlength, h.buffer, h.len]
              simp only [List.length_append, List.length_cons, List.length_nil]
              omega
          · intro hstop
            rw [skip_of_not_stop hstop]
            rfl
        | cons y w' =>
          have hstops : lb.Halts (c :: (ds ++ y :: w')) post ↔ lb.Halts (y :: w') post := by
            rw [← List.cons_append, halts_append (by simp)]
          have hskip₀ : skip lb.delim (y :: w' ++ post) = some 0 := by
            rw [List.cons_append, skip, hhead y rfl]
            rfl
          obtain ⟨hsome, hnone⟩ := ih (h.next x (s.calls ++ deliver s.flags.shuttingDown [cur]))
            (by rw [List.length_append] at hle; omega)
          rw [hstops, hskip₀, LineState.emit_of_head hhead, LineState.after_cur]
          refine ⟨fun hstop => ?_, hnone⟩
          obtain ⟨s', hs', hdone⟩ := hsome hstop
          exact ⟨s', hs', hdone.after [cur] rfl rfl rfl (h.length_in x)⟩

theorem strchr_eq_isDelim (h : 0 ∉ w) : ∀ c ∈ w, lb.delim.strchr c = lb.isDelim c :=
  fun _ hc => strchr_of_ne fun h0 => h (h0 ▸ hc)

theorem halts_iff_stops (h : 0 ∉ w) : lb.Halts w post ↔ lb.Stops w post := by
  have hlast : ∀ c, w.getLast? = some c → lb.delim.strchr c = lb.isDelim c :=
    fun c hc => strchr_eq_isDelim h c (List.mem_of_getLast? hc)
  constructor
  · rintro hhalts ⟨c, hc, hd⟩
    exact hhalts ⟨c, hc, (hlast c hc).trans hd⟩
  · rintro hstops ⟨c, hc, hd⟩
    exact hstops ⟨c, hc, (hlast c hc).symm.trans hd⟩

/-! ## Reading and processing -/

/-- Between reads the buffer holds the line so far, with room behind it. -/
structure Reading (lb : Linebuf) (rest : List UInt8) : Prop where
  block : lb.readbuf.buffer.length = lb.readbuf.maxbuflen
  content : lb.readbuf.content = rest
  buflen : lb.readbuf.buflen = rest.length
  room : rest.length < lb.readbuf.maxbuflen
  running : lb.flags.shuttingDown = false

/-- What reading leaves as it is. -/
structure Same (lb lb' : Linebuf) : Prop where
  delim : lb'.delim = lb.delim
  maxbuflen : lb'.readbuf.maxbuflen = lb.readbuf.maxbuflen

theorem Same.isDelim (h : lb.Same lb') : lb'.isDelim = lb.isDelim := by
  funext c
  rw [Linebuf.isDelim, Linebuf.isDelim, h.delim]

/-- What processing leaves, with the calls it made: there is an error where
the buffer is full without a line. -/
structure Processed (lb lb' : Linebuf) (calls : List LinebufCall) : Prop where
  calls : calls = deliver lb.flags.shuttingDown (lb.split [] lb.readbuf.content) ++
    if lb.split [] lb.readbuf.content = [] ∧ lb.readbuf.buflen = lb.readbuf.maxbuflen then
      [.error (some .readBufferFull)] else []
  content : lb'.readbuf.content = lb.splitRest [] lb.readbuf.content
  buflen : lb'.readbuf.buflen = (lb.splitRest [] lb.readbuf.content).length
  block : lb'.readbuf.buffer.length = lb.readbuf.buffer.length
  running : lb'.flags.shuttingDown = lb.flags.shuttingDown
  same : lb.Same lb'

/-- Where the loop has found no line, the content is where it was. -/
theorem Scan.Ended.take_buffer (h : s.Ended lb s' [] lb.readbuf.content) (hbuffer : s.buffer = lb.readbuf.buffer)
    (hblock : lb.readbuf.buflen ≤ lb.readbuf.buffer.length) : s'.buffer.take lb.readbuf.buflen = lb.readbuf.content := by
  have hlength := LinebufBuf.length_content hblock
  rcases Nat.eq_zero_or_pos lb.readbuf.buflen with h0 | hpos
  · rw [LinebufBuf.content, h0, List.take_zero, List.take_zero]
  · have hends := h.ends (List.length_pos_iff.1 (hlength ▸ hpos))
    have hstart : s'.lineStart = 0 := by
      have hlen := h.len
      omega
    have hload := h.load
    rw [Bytes.load_of_le (by rw [h.length, hbuffer, hstart, hlength, Nat.zero_add]; exact hblock), hstart, hlength] at hload
    exact Option.some.inj hload

/-- **Processing** any bytes: NUL ends a line like a delimiter, and the block
is left exactly if skipping does not stop. -/
theorem process_ended (lb : Linebuf) (hblock : lb.readbuf.buflen ≤ lb.readbuf.buffer.length) :
    (lb.Halts lb.readbuf.content (lb.readbuf.buffer.drop lb.readbuf.buflen) →
      ∃ calls lb', lb.process = some (calls, lb') ∧ lb.Processed lb' calls) ∧
      (¬ lb.Halts lb.readbuf.content (lb.readbuf.buffer.drop lb.readbuf.buflen) → lb.process = none) := by
  have hlength := LinebufBuf.length_content hblock
  have hin : Scan.In lb ⟨lb.readbuf.buffer, { lb.flags with lineHasNullchar := false }, 0, 0, 0, []⟩ [] []
      lb.readbuf.content (lb.readbuf.buffer.drop lb.readbuf.buflen) :=
    ⟨(List.take_append_drop ..).symm, rfl, rfl, by rw [hlength]; exact (Nat.zero_add _).symm, rfl⟩
  obtain ⟨hsome, hnone⟩ := scan_ended hin hlength.le
  constructor
  · intro hstop
    obtain ⟨s', hs', hdone⟩ := hsome hstop
    have hcalls := hdone.calls
    rw [List.nil_append] at hcalls
    have hflags : s'.flags.shuttingDown = lb.flags.shuttingDown := by rw [hdone.flags]
    have hcount : s'.linecount = 0 ↔ lb.split [] lb.readbuf.content = [] := by
      rw [← List.length_eq_zero_iff, ← Nat.zero_add (List.length _)]
      exact Eq.congr_left hdone.linecount
    have hsub : s'.len - s'.lineStart = (lb.splitRest [] lb.readbuf.content).length := by
      rw [hdone.len]
      exact Nat.add_sub_cancel_left ..
    unfold process
    rw [hs', Option.bind_eq_bind, Option.bind_some]
    dsimp only
    by_cases hfull : s'.linecount = 0 ∧ lb.readbuf.buflen = lb.readbuf.maxbuflen
    · -- there is no line, `mowgli_linebuf_error` is called, and the buffer is as it was
      have hsplit := hcount.1 hfull.1
      have hrest : lb.splitRest [] lb.readbuf.content = lb.readbuf.content := by
        rw [splitRest, LineState.after_line (LineState.no_delim_of_emit hsplit), List.nil_append]
      have hsame : s'.buffer.take lb.readbuf.buflen = lb.readbuf.content := by
        rw [hsplit, hrest] at hdone
        exact hdone.take_buffer rfl hblock
      rw [if_pos hfull]
      refine ⟨_, _, rfl, ?_, hsame.trans hrest.symm, ?_, hdone.length, hflags, rfl, rfl⟩
      · rw [hcalls, if_pos ⟨hsplit, hfull.2⟩]
        rfl
      · rw [hrest, hlength]
    · have hfull' : ¬ (lb.split [] lb.readbuf.content = [] ∧ lb.readbuf.buflen = lb.readbuf.maxbuflen) :=
        fun h => hfull ⟨hcount.2 h.1, h.2⟩
      rw [if_neg hfull]
      by_cases hrest : lb.splitRest [] lb.readbuf.content = []
      -- `line_start` is `cptr`
      · have hstart : ¬ s'.lineStart ≠ s'.len := by
          rw [hdone.len, hrest]
          exact not_not.2 rfl
        rw [if_neg hstart]
        refine ⟨_, _, rfl, ?_, by rw [hrest]; exact List.take_zero, by rw [hrest]; rfl, hdone.length, hflags, rfl, rfl⟩
        rw [hcalls, if_neg hfull', List.append_nil]
      -- what is left over is moved to the front
      · have hpos := List.length_pos_iff.2 hrest
        have hstart : s'.lineStart ≠ s'.len := by
          have := hdone.len
          omega
        have hends := hdone.ends hrest
        have hlen := hdone.len
        have hlength' := hdone.length
        obtain ⟨buffer, hstore⟩ := Bytes.exists_store s'.buffer 0
          (lb.splitRest [] lb.readbuf.content) (by dsimp only at hlength'; omega)
        rw [if_pos hstart, hsub, hdone.load, Option.bind_eq_bind, Option.bind_some, hstore]
        dsimp only [Option.bind_some]
        refine ⟨_, _, rfl, ?_, ?_, rfl, (Bytes.length_of_store hstore).trans hlength', hflags, rfl, rfl⟩
        · rw [hcalls, if_neg hfull', List.append_nil]
        · have htake := Bytes.take_of_store hstore
          rw [Nat.zero_add, List.take_zero, List.nil_append] at htake
          exact htake
  · intro hstop
    unfold process
    rw [hnone hstop]
    rfl

/-- **Processing** delivers the lines and keeps what is left over, if
skipping stops. -/
theorem process_spec (lb : Linebuf) (hblock : lb.readbuf.buffer.length = lb.readbuf.maxbuflen)
    (hfits : lb.readbuf.buflen ≤ lb.readbuf.maxbuflen) (hnul : 0 ∉ lb.readbuf.content)
    (hrunning : lb.flags.shuttingDown = false)
    (hroom : (lb.leftover [] lb.readbuf.content).length < lb.readbuf.maxbuflen) :
    (lb.Stops lb.readbuf.content (lb.readbuf.buffer.drop lb.readbuf.buflen) →
      ∃ lb', lb.process = some ((lb.found [] lb.readbuf.content).map deliverLine, lb') ∧
        lb'.Reading (lb.leftover [] lb.readbuf.content) ∧ lb.Same lb') ∧
      (¬ lb.Stops lb.readbuf.content (lb.readbuf.buffer.drop lb.readbuf.buflen) → lb.process = none) := by
  have hsplit : lb.split [] lb.readbuf.content = lb.found [] lb.readbuf.content :=
    LineState.emit_congr (strchr_eq_isDelim hnul)
  have hrest : lb.splitRest [] lb.readbuf.content = lb.leftover [] lb.readbuf.content :=
    congrArg LineState.cur (LineState.after_congr (strchr_eq_isDelim hnul))
  obtain ⟨hsome, hnone⟩ := lb.process_ended (hblock ▸ hfits)
  rw [halts_iff_stops hnul] at hsome hnone
  refine ⟨fun hstop => ?_, hnone⟩
  obtain ⟨calls, lb', hprocess, hdone⟩ := hsome hstop
  have hcalls := hdone.calls
  have hfull : ¬ (lb.found [] lb.readbuf.content = [] ∧ lb.readbuf.buflen = lb.readbuf.maxbuflen) := by
    rintro ⟨hlines, hfull⟩
    rw [leftover, LineState.after_line (LineState.no_delim_of_emit hlines), List.nil_append,
      LinebufBuf.WF.length_content ⟨hblock, hfits⟩, hfull] at hroom
    omega
  rw [hsplit, hrunning, if_neg hfull, List.append_nil, deliver, if_neg (by decide)] at hcalls
  refine ⟨lb', hcalls ▸ hprocess, ⟨?_, ?_, ?_, ?_, ?_⟩, hdone.same⟩
  · rw [hdone.block, hdone.same.maxbuflen, hblock]
  · rw [hdone.content, hrest]
  · rw [hdone.buflen, hrest]
  · rw [hdone.same.maxbuflen]
    exact hroom
  · rw [hdone.running, hrunning]

/-- A read stays in the block: the bytes are no more than there is room for,
and if they end in a delimiter, then behind them in the block is a byte that
is neither NUL nor a delimiter. -/
def InBounds (lb : Linebuf) (r : VioRead) : Prop :=
  lb.readbuf.buflen + r.data.length ≤ lb.readbuf.maxbuflen ∧
    lb.Stops r.data (lb.readbuf.buffer.drop (lb.readbuf.buflen + r.data.length))

variable {r : VioRead} {rest : List UInt8}

/-- The VIO has put some bytes behind what was in the read buffer. -/
structure Filled (lb lb' : Linebuf) (data : List UInt8) : Prop where
  content : lb'.readbuf.content = lb.readbuf.content ++ data
  buflen : lb'.readbuf.buflen = lb.readbuf.buflen + data.length
  behind : lb'.readbuf.buffer.drop lb'.readbuf.buflen = lb.readbuf.buffer.drop (lb.readbuf.buflen + data.length)
  block : lb'.readbuf.buffer.length = lb.readbuf.buffer.length
  flags : lb'.flags = lb.flags
  same : lb.Same lb'

/-- What is read is processed, if there is room for it in the block. -/
theorem readData_filled (hroom : sizeSub lb.readbuf.maxbuflen lb.readbuf.buflen ≠ 0) (hne : r.data ≠ []) :
    (lb.readbuf.buflen + r.data.length ≤ lb.readbuf.buffer.length →
      ∃ lb', lb.readData r = lb'.process ∧ lb.Filled lb' r.data) ∧
      (¬ lb.readbuf.buflen + r.data.length ≤ lb.readbuf.buffer.length → lb.readData r = none) := by
  unfold readData
  rw [if_neg hroom, if_neg hne]
  constructor
  · intro hle
    obtain ⟨buffer, hstore⟩ := Bytes.exists_store lb.readbuf.buffer lb.readbuf.buflen r.data hle
    rw [hstore]
    exact ⟨_, rfl, Bytes.take_of_store hstore, rfl, Bytes.drop_of_store hstore, Bytes.length_of_store hstore, rfl, rfl, rfl⟩
  · intro hle
    rw [Bytes.store, if_neg hle]
    rfl

/-- **A read** delivers the lines it completes, if it stays in the block;
otherwise what it does is undefined. -/
theorem readData_spec (h : lb.Reading rest) (hne : r.data ≠ []) (hnul : 0 ∉ rest ++ r.data)
    (hroom : (lb.leftover [] (rest ++ r.data)).length < lb.readbuf.maxbuflen) :
    (lb.InBounds r → ∃ lb', lb.readData r = some ((lb.found [] (rest ++ r.data)).map deliverLine, lb') ∧
      lb'.Reading (lb.leftover [] (rest ++ r.data)) ∧ lb.Same lb') ∧
      (¬ lb.InBounds r → lb.readData r = none) := by
  have hfree : sizeSub lb.readbuf.maxbuflen lb.readbuf.buflen ≠ 0 := by
    have := h.buflen
    have := h.room
    rw [sizeSub, if_neg (by omega)]
    omega
  obtain ⟨hsome, hnone⟩ := readData_filled hfree hne
  rw [h.block] at hsome hnone
  by_cases hle : lb.readbuf.buflen + r.data.length ≤ lb.readbuf.maxbuflen
  swap
  · exact ⟨fun hin => absurd hin.1 hle, fun _ => hnone hle⟩
  obtain ⟨lb₁, hread, hfilled⟩ := hsome hle
  have hcontent : lb₁.readbuf.content = rest ++ r.data := h.content ▸ hfilled.content
  have hdelim := hfilled.same.isDelim
  have hprocess := lb₁.process_spec (by rw [hfilled.block, h.block, hfilled.same.maxbuflen])
    (by rw [hfilled.buflen, hfilled.same.maxbuflen]; exact hle) (by rw [hcontent]; exact hnul)
    (by rw [hfilled.flags]; exact h.running) (by rw [hcontent, hfilled.same.maxbuflen, leftover, hdelim]; exact hroom)
  rw [hcontent, hfilled.behind, found, leftover, hdelim] at hprocess
  have hstops : lb₁.Stops (rest ++ r.data) (lb.readbuf.buffer.drop (lb.readbuf.buflen + r.data.length)) ↔
      lb.InBounds r := by
    rw [InBounds, and_iff_right hle, Stops, Stops, List.getLast?_append, Option.or_of_isSome (by simpa using hne), hdelim,
      hfilled.same.delim]
  rw [hread]
  refine ⟨fun hin => ?_, fun hin => hprocess.2 fun hstop => hin (hstops.1 hstop)⟩
  obtain ⟨lb', hlb', hreading, hsame⟩ := hprocess.1 (hstops.2 hin)
  exact ⟨lb', hlb', hreading, hsame.delim.trans hfilled.same.delim, hsame.maxbuflen.trans hfilled.same.maxbuflen⟩

/-! ## Two ways to cut a stream -/

/-- Every read stays in the block. -/
def AllInBounds (lb : Linebuf) : List VioRead → Prop
  | [] => True
  | r :: rs => lb.InBounds r ∧ ∀ calls lb', lb.readData r = some (calls, lb') → AllInBounds lb' rs

/-- The stream that some reads read. -/
def stream (rs : List VioRead) : List UInt8 := (rs.map VioRead.data).flatten

/-- Every line of a stream, the last one included, leaves room in the read
buffer for its end. -/
def Fits (lb : Linebuf) (text : List UInt8) : Prop :=
  ∀ line, line <:+: text → (∀ c ∈ line, lb.isDelim c = false) → line.length < lb.readbuf.maxbuflen

/-- Where the reads start in their stream. -/
def cuts (rs : List VioRead) : List (UInt8 × Bool) := LineState.pieces (rs.map VioRead.data)

theorem map_fst_cuts (rs : List VioRead) : (cuts rs).map Prod.fst = stream rs := LineState.map_fst_pieces _

/-- The line so far after a stream. -/
abbrev afterStream (lb : Linebuf) (text : List UInt8) : LineState UInt8 := LineState.after lb.isDelim ⟨[], false⟩ text

/-- **Reads** deliver the lines that the reader of lines emits for their
pieces, if they stay in the block, and are undefined otherwise. -/
theorem reads_spec (rs : List VioRead) (lb : Linebuf) (text : List UInt8) (h : lb.Reading (lb.afterStream text).cur)
    (hne : ∀ r ∈ rs, r.data ≠ []) (hnul : 0 ∉ text ++ stream rs) (hfits : lb.Fits (text ++ stream rs)) :
    (lb.AllInBounds rs →
      (lb.reads rs).map Prod.fst = some (((lb.afterStream text).emit lb.isDelim (cuts rs)).map deliverLine)) ∧
      (¬ lb.AllInBounds rs → lb.reads rs = none) := by
  induction rs generalizing lb text with
  | nil => exact ⟨fun _ => rfl, fun hin => absurd trivial hin⟩
  | cons r rs ih =>
    have hstream : stream (r :: rs) = r.data ++ stream rs := rfl
    rw [hstream, ← List.append_assoc] at hnul hfits
    obtain ⟨hsuffix, hline⟩ := LineState.after_cur_suffix (d := lb.isDelim) (s := text)
    have hleft : lb.leftover [] ((lb.afterStream text).cur ++ r.data) = (lb.afterStream (text ++ r.data)).cur := by
      rw [leftover, LineState.after_append, LineState.after_line hline, List.nil_append, afterStream,
        LineState.after_append, LineState.after_cur (LineState.after lb.isDelim ⟨[], false⟩ text)]
    have hfound : lb.found [] ((lb.afterStream text).cur ++ r.data) =
        (lb.afterStream text).emit lb.isDelim (LineState.piece r.data) := by
      have hplain : plain ((lb.afterStream text).cur ++ r.data) = plain (lb.afterStream text).cur ++ plain r.data :=
        List.map_append
      rw [found, hplain, LineState.emit_line _ hline, List.nil_append, LineState.emit_piece]
    have hnul₁ : 0 ∉ (lb.afterStream text).cur ++ r.data := by
      intro h0
      rcases List.mem_append.1 h0 with h0 | h0
      · exact hnul (List.mem_append_left _ (List.mem_append_left _ (hsuffix.subset h0)))
      · exact hnul (List.mem_append_left _ (List.mem_append_right _ h0))
    have hroom : (lb.leftover [] ((lb.afterStream text).cur ++ r.data)).length < lb.readbuf.maxbuflen := by
      obtain ⟨hsuffix', hline'⟩ := LineState.after_cur_suffix (d := lb.isDelim) (s := text ++ r.data)
      rw [hleft]
      exact hfits _ (hsuffix'.isInfix.trans (List.infix_append' [] _ _)) hline'
    obtain ⟨hsome, hnone⟩ := readData_spec h (hne r List.mem_cons_self) hnul₁ hroom
    have hemit : (lb.afterStream text).emit lb.isDelim (cuts (r :: rs)) =
        (lb.afterStream text).emit lb.isDelim (LineState.piece r.data) ++
          (lb.afterStream (text ++ r.data)).emit lb.isDelim (cuts rs) := by
      have hcuts : cuts (r :: rs) = LineState.piece r.data ++ cuts rs := rfl
      rw [hcuts, LineState.emit_append LineState.map_fst_piece, afterStream, afterStream, LineState.after_append]
    by_cases hin : lb.InBounds r
    · obtain ⟨lb', hread, hreading, hsame⟩ := hsome hin
      have hall : lb.AllInBounds (r :: rs) ↔ lb'.AllInBounds rs := by
        rw [AllInBounds, and_iff_right hin, hread]
        constructor
        · exact fun H => H _ _ rfl
        · intro H calls lb'' heq
          obtain ⟨-, rfl⟩ := Prod.mk.inj (Option.some.inj heq)
          exact H
      have hih := ih lb' (text ++ r.data)
        (by rw [afterStream, hsame.isDelim, ← hleft]; exact hreading)
        (fun r' hr' => hne r' (List.mem_cons_of_mem _ hr')) hnul
        (by rw [Fits, hsame.isDelim, hsame.maxbuflen]; exact hfits)
      rw [afterStream, hsame.isDelim] at hih
      rw [hall, reads, hread, Option.bind_eq_bind, Option.bind_some, hemit, List.map_append, hfound]
      dsimp only
      refine ⟨fun hin' => ?_, fun hin' => ?_⟩
      · obtain ⟨⟨calls, lb''⟩, hrest, hcalls⟩ := Option.map_eq_some_iff.1 (hih.1 hin')
        rw [hrest, Option.bind_some, Option.map_some]
        dsimp only at hcalls ⊢
        rw [hcalls]
      · rw [hih.2 hin']
        rfl
    · refine ⟨fun hall => absurd hall.1 hin, fun _ => ?_⟩
      rw [reads, hnone hin]
      rfl

theorem deliverLine_injective : Function.Injective deliverLine := fun _ _ h => (LinebufCall.readline.inj h).1

/-- **Two ways to cut a stream** into reads deliver the same lines exactly if
all their reads stay in the block, and they have equally many cuts in every
run of delimiters. -/
theorem reads_agree_iff {rs₁ rs₂ : List VioRead} (hfresh : lb.readbuf.Fresh) (hrunning : lb.flags.shuttingDown = false)
    (hne₁ : ∀ r ∈ rs₁, r.data ≠ []) (hne₂ : ∀ r ∈ rs₂, r.data ≠ []) (hstream : stream rs₁ = stream rs₂)
    (hnul : 0 ∉ stream rs₁) (hfits : lb.Fits (stream rs₁)) :
    (∃ calls, (lb.reads rs₁).map Prod.fst = some calls ∧ (lb.reads rs₂).map Prod.fst = some calls) ↔
      lb.AllInBounds rs₁ ∧ lb.AllInBounds rs₂ ∧ LineState.SameCuts lb.isDelim (cuts rs₁) (cuts rs₂) := by
  have hstart : lb.Reading (lb.afterStream []).cur :=
    ⟨hfresh.block, hfresh.content, hfresh.buflen, hfits [] (List.nil_infix) nofun, hrunning⟩
  have hspec₁ := reads_spec rs₁ lb [] hstart hne₁ hnul hfits
  have hspec₂ := reads_spec rs₂ lb [] hstart hne₂ (hstream ▸ hnul) (hstream ▸ hfits)
  have hcuts := LineState.emit_eq_iff (d := lb.isDelim)
    (show (cuts rs₁).map Prod.fst = (cuts rs₂).map Prod.fst by rw [map_fst_cuts, map_fst_cuts, hstream])
  rw [← hcuts]
  constructor
  · rintro ⟨calls, h₁, h₂⟩
    have hin₁ : lb.AllInBounds rs₁ := by
      by_contra hin
      rw [hspec₁.2 hin] at h₁
      cases h₁
    have hin₂ : lb.AllInBounds rs₂ := by
      by_contra hin
      rw [hspec₂.2 hin] at h₂
      cases h₂
    refine ⟨hin₁, hin₂, ?_⟩
    rw [hspec₁.1 hin₁, ← h₂, hspec₂.1 hin₂] at h₁
    exact (List.map_inj_right fun _ _ h => deliverLine_injective h).1 (Option.some.inj h₁)
  · rintro ⟨hin₁, hin₂, hsame⟩
    refine ⟨_, hspec₁.1 hin₁, ?_⟩
    rw [hspec₂.1 hin₂]
    exact congrArg (fun lines => some (lines.map deliverLine)) hsame.symm

/-- A read that succeeds, and needs nothing more. -/
def readOf (data : List UInt8) : VioRead := ⟨data, true, false, false⟩

/-- The stream "a\nbc" in two reads and in one. -/
theorem reads_agree_iff_one :
    (create 16 16).AllInBounds [readOf [97, 10, 98], readOf [99]] ∧ (create 16 16).AllInBounds [readOf [97, 10, 98, 99]] ∧
      LineState.SameCuts (create 16 16).isDelim (cuts [readOf [97, 10, 98], readOf [99]]) (cuts [readOf [97, 10, 98, 99]]) := by
  have hfits : (create 16 16).Fits (stream [readOf [97, 10, 98], readOf [99]]) := by
    intro line hline _
    exact hline.length_le.trans_lt (by decide)
  have hstream : stream [readOf [97, 10, 98], readOf [99]] = stream [readOf [97, 10, 98, 99]] := rfl
  have hagree := reads_agree_iff (LinebufBuf.fresh_alloc 16) rfl (by decide) (by decide) hstream (by decide) hfits
  exact hagree.1 ⟨[deliverLine [97]], by decide, by decide⟩

/-- The stream "x\nabcdef\r\ng", cut once before the "\r" and once also
between the "\r" and the "\n": the second time there is an empty line. -/
theorem cut_in_crlf :
    ((create 16 16).reads [readOf [120, 10, 97, 98, 99, 100, 101, 102], readOf [13, 10, 103]]).map Prod.fst =
        some [deliverLine [120], deliverLine [97, 98, 99, 100, 101, 102]] ∧
      ((create 16 16).reads [readOf [120, 10, 97, 98, 99, 100, 101, 102], readOf [13], readOf [10, 103]]).map Prod.fst =
        some [deliverLine [120], deliverLine [97, 98, 99, 100, 101, 102], deliverLine []] := by
  constructor <;> decide

-- Read into a block that holds nothing else, the stream "a\n" is enough to
-- make skipping read past it.
example : (create 16 16).reads [readOf [97, 10]] = none := rfl

end Linebuf

end Mowgli
