import Mowgli.Library.Run
import Mowgli.Linebuf.Read
/-!
# The room in the read buffer

`mowgli_linebuf_read_data` asks the VIO for one byte more than there is room
for, and `mowgli_linebuf_setbuflen` copies as many bytes as the old block has
into the new one.
-/

namespace Mowgli

/-- `mowgli_linebuf_setbuflen` where there is a block already. `tmpbuf` has to
have an element; `mowgli_alloc` gives zeros. -/
def LinebufBuf.setbuflen (b : LinebufBuf) (buflen : ℕ) : Option LinebufBuf :=
  if b.maxbuflen = 0 then none
  else if 0 < b.buflen then do
    let tmpbuf ← Bytes.load b.buffer 0 b.maxbuflen
    let buffer ← Bytes.store (List.replicate buflen 0) 0 tmpbuf
    some { b with buffer := buffer, maxbuflen := buflen }
  else some { b with buffer := List.replicate buflen 0, maxbuflen := buflen }

namespace Linebuf

/-- How much `mowgli_linebuf_read_data` asks the VIO for, unless the buffer is
full. -/
def requested (lb : Linebuf) : Option ℕ :=
  if sizeSub lb.readbuf.maxbuflen lb.readbuf.buflen = 0 then none
  else some (sizeSub lb.readbuf.maxbuflen lb.readbuf.buflen + 1)

/-- What is done to a read buffer. -/
inductive ReadOp
  | readData (r : VioRead)
  | process
  | setbuflen (buflen : ℕ)

namespace ReadOp

def run (lb : Linebuf) : ReadOp → Option (List LinebufCall × Linebuf)
  | readData r => lb.readData r
  | process => lb.process
  | setbuflen buflen => (lb.readbuf.setbuflen buflen).map fun readbuf => ([], { lb with readbuf := readbuf })

/-- The VIO returns no more than it is asked for, and lengths are positive. -/
def Possible (lb : Linebuf) : ReadOp → Prop
  | readData r => ∀ n, lb.requested = some n → r.data.length ≤ n
  | process => True
  | setbuflen buflen => 1 ≤ buflen

/-- **The buffer keeps**: no copy leaves a block, and what is in the buffer
is not more than it can hold. -/
def Keeps (lb : Linebuf) (op : ReadOp) : Prop :=
  ∃ calls lb', run lb op = some (calls, lb') ∧ lb'.readbuf.buflen ≤ lb'.readbuf.maxbuflen

/-- **The VIO is asked** for no more than there is room for. -/
def AsksForRoom (lb : Linebuf) : ReadOp → Prop
  | readData _ => ∀ n, lb.requested = some n → n ≤ lb.readbuf.maxbuflen - lb.readbuf.buflen
  | _ => True

/-- What is read fits into the room, and skipping delimiters stops in the
block; the new length is not smaller, or there is nothing in the buffer. -/
def Within (lb : Linebuf) : ReadOp → Prop
  | readData r => lb.readbuf.buflen = lb.readbuf.maxbuflen ∨ lb.readbuf.buflen + r.data.length ≤ lb.readbuf.maxbuflen ∧
      lb.Halts r.data (lb.readbuf.buffer.drop (lb.readbuf.buflen + r.data.length))
  | process => lb.Halts lb.readbuf.content (lb.readbuf.buffer.drop lb.readbuf.buflen)
  | setbuflen buflen => lb.readbuf.buflen = 0 ∨ lb.readbuf.maxbuflen ≤ buflen

/-- A read comes only where the buffer is full. -/
def Full (lb : Linebuf) : ReadOp → Prop
  | readData _ => lb.readbuf.buflen = lb.readbuf.maxbuflen
  | _ => True

end ReadOp

/-- The runs in which every step stays within the block. -/
abbrev ReadRuns (lb : Linebuf) : List (ReadOp × List LinebufCall) → Linebuf → Prop :=
  Run ReadOp.run (fun lb op => ReadOp.Possible lb op ∧ ReadOp.Within lb op) lb

/-- The read buffer is well-formed, and has a block. -/
structure Roomy (lb : Linebuf) : Prop where
  wf : lb.readbuf.WF
  pos : 0 < lb.readbuf.maxbuflen

variable {lb lb' lb₀ : Linebuf} {r : VioRead} {op : ReadOp} {calls : List LinebufCall} {n : ℕ}

theorem length_splitRest_le (lb : Linebuf) (w : List UInt8) : (lb.splitRest [] w).length ≤ w.length :=
  LineState.after_cur_suffix.1.length_le

theorem Processed.roomy (h : lb.Processed lb' calls) (hlb : lb.Roomy) : lb'.Roomy := by
  have hle := lb.length_splitRest_le lb.readbuf.content
  rw [hlb.wf.length_content] at hle
  refine ⟨⟨?_, ?_⟩, ?_⟩
  · rw [h.block, h.same.maxbuflen, hlb.wf.block]
  · rw [h.buflen, h.same.maxbuflen]
    exact hle.trans hlb.wf.fits
  · rw [h.same.maxbuflen]
    exact hlb.pos

/-- What processing does to a buffer that has room. -/
theorem Roomy.process (h : lb.Roomy) :
    (lb.Halts lb.readbuf.content (lb.readbuf.buffer.drop lb.readbuf.buflen) →
      ∃ calls lb', lb.process = some (calls, lb') ∧ lb'.Roomy) ∧
      (¬ lb.Halts lb.readbuf.content (lb.readbuf.buffer.drop lb.readbuf.buflen) → lb.process = none) := by
  obtain ⟨hsome, hnone⟩ := lb.process_ended (h.wf.block ▸ h.wf.fits)
  refine ⟨fun hhalts => ?_, hnone⟩
  obtain ⟨calls, lb', hprocess, hdone⟩ := hsome hhalts
  exact ⟨calls, lb', hprocess, hdone.roomy h⟩

theorem Roomy.full_iff (h : lb.Roomy) :
    sizeSub lb.readbuf.maxbuflen lb.readbuf.buflen = 0 ↔ lb.readbuf.buflen = lb.readbuf.maxbuflen := by
  have := h.wf.fits
  rw [sizeSub, if_neg (by omega)]
  omega

/-- What a read that is not refused does. -/
theorem Roomy.readData (h : lb.Roomy) (hroom : lb.readbuf.buflen ≠ lb.readbuf.maxbuflen) (r : VioRead) :
    (lb.readbuf.buflen + r.data.length ≤ lb.readbuf.maxbuflen ∧
        lb.Halts r.data (lb.readbuf.buffer.drop (lb.readbuf.buflen + r.data.length)) →
      ∃ calls lb', lb.readData r = some (calls, lb') ∧ lb'.Roomy) ∧
      (¬ (lb.readbuf.buflen + r.data.length ≤ lb.readbuf.maxbuflen ∧
        lb.Halts r.data (lb.readbuf.buffer.drop (lb.readbuf.buflen + r.data.length))) → lb.readData r = none) := by
  have hfree := mt h.full_iff.1 hroom
  by_cases hnil : r.data = []
  · have hwithin : lb.readbuf.buflen + r.data.length ≤ lb.readbuf.maxbuflen ∧
        lb.Halts r.data (lb.readbuf.buffer.drop (lb.readbuf.buflen + r.data.length)) := by
      rw [hnil]
      refine ⟨h.wf.fits, ?_⟩
      rintro ⟨c, hc, -⟩
      cases hc
    refine ⟨fun _ => ?_, fun hne => absurd hwithin hne⟩
    unfold Linebuf.readData
    rw [if_neg hfree, if_pos hnil]
    -- nothing is read, and the buffer stays as it is
    split_ifs
    · exact ⟨_, _, rfl, h⟩
    · exact ⟨_, _, rfl, h.wf, h.pos⟩
  · obtain ⟨hsome, hnone⟩ := readData_filled hfree hnil
    rw [h.wf.block] at hsome hnone
    by_cases hle : lb.readbuf.buflen + r.data.length ≤ lb.readbuf.maxbuflen
    swap
    · exact ⟨fun hwithin => absurd hwithin.1 hle, fun _ => hnone hle⟩
    obtain ⟨lb₁, hread, hfilled⟩ := hsome hle
    have hroomy : lb₁.Roomy := by
      refine ⟨⟨?_, ?_⟩, hfilled.same.maxbuflen ▸ h.pos⟩
      · rw [hfilled.block, h.wf.block, hfilled.same.maxbuflen]
      · rw [hfilled.buflen, hfilled.same.maxbuflen]
        exact hle
    have hprocess := hroomy.process
    rw [hfilled.content, hfilled.behind, halts_append hnil, Halts, hfilled.same.delim] at hprocess
    rw [hread, and_iff_right hle]
    exact hprocess

/-- What a new length does. -/
theorem Roomy.setbuflen (h : lb.Roomy) (hn : 1 ≤ n) :
    (lb.readbuf.buflen = 0 ∨ lb.readbuf.maxbuflen ≤ n →
      ∃ b, lb.readbuf.setbuflen n = some b ∧ b.WF ∧ 0 < b.maxbuflen) ∧
      (¬ (lb.readbuf.buflen = 0 ∨ lb.readbuf.maxbuflen ≤ n) → lb.readbuf.setbuflen n = none) := by
  have hpos := h.pos
  have hblock := h.wf.block
  have hfits := h.wf.fits
  have hload : Bytes.load lb.readbuf.buffer 0 lb.readbuf.maxbuflen = some lb.readbuf.buffer := by
    rw [Bytes.load_of_le (by omega), List.drop_zero, ← hblock, List.take_length]
  unfold LinebufBuf.setbuflen
  rw [if_neg (by omega), hload, Option.bind_eq_bind, Option.bind_some]
  by_cases hsome : 0 < lb.readbuf.buflen
  · rw [if_pos hsome]
    by_cases hle : lb.readbuf.maxbuflen ≤ n
    · obtain ⟨buffer, hstore⟩ := Bytes.exists_store (List.replicate n 0) 0 lb.readbuf.buffer (by simpa [hblock] using hle)
      refine ⟨fun _ => ?_, fun hne => absurd (.inr hle) hne⟩
      rw [hstore, Option.bind_some]
      refine ⟨_, rfl, ⟨(Bytes.length_of_store hstore).trans List.length_replicate, ?_⟩, hn⟩
      exact hfits.trans hle
    · refine ⟨fun hor => ?_, fun _ => ?_⟩
      · rcases hor with h0 | hle'
        · omega
        · exact absurd hle' hle
      · rw [Bytes.store, if_neg (by simpa [hblock] using hle)]
        rfl
  · rw [if_neg hsome]
    refine ⟨fun _ => ⟨_, rfl, ⟨List.length_replicate, ?_⟩, hn⟩, fun hne => absurd (.inl (by omega)) hne⟩
    show lb.readbuf.buflen ≤ n
    omega

/-- **A step** that stays within the block keeps the buffer, and another one
is undefined. -/
theorem Roomy.run (h : lb.Roomy) (hop : op.Possible lb) :
    (op.Within lb → ∃ calls lb', op.run lb = some (calls, lb') ∧ lb'.Roomy) ∧ (¬ op.Within lb → op.run lb = none) := by
  cases op with
  | readData r =>
    by_cases hfull : lb.readbuf.buflen = lb.readbuf.maxbuflen
    · refine ⟨fun _ => ?_, fun hne => absurd (.inl hfull) hne⟩
      show ∃ calls lb', lb.readData r = some (calls, lb') ∧ lb'.Roomy
      unfold Linebuf.readData
      rw [if_pos (h.full_iff.2 hfull)]
      exact ⟨_, _, rfl, h.wf, h.pos⟩
    · obtain ⟨hsome, hnone⟩ := h.readData hfull r
      exact ⟨fun hw => hsome (hw.resolve_left hfull), fun hne => hnone fun hw => hne (.inr hw)⟩
  | process => exact h.process
  | setbuflen n =>
    obtain ⟨hsome, hnone⟩ := h.setbuflen hop
    have hrun : ReadOp.run lb (.setbuflen n) =
        (lb.readbuf.setbuflen n).map fun readbuf => ([], { lb with readbuf := readbuf }) := rfl
    refine ⟨fun hw => ?_, fun hne => ?_⟩
    · obtain ⟨b, hb, hwf, hpos⟩ := hsome hw
      rw [hrun, hb]
      exact ⟨_, _, rfl, hwf, hpos⟩
    · rw [hrun, hnone hne]
      rfl

theorem Roomy.asksForRoom_iff (h : lb.Roomy) : op.AsksForRoom lb ↔ op.Full lb := by
  cases op with
  | readData r =>
    show (∀ n, lb.requested = some n → n ≤ lb.readbuf.maxbuflen - lb.readbuf.buflen) ↔
      lb.readbuf.buflen = lb.readbuf.maxbuflen
    have hfits := h.wf.fits
    rw [requested, ← h.full_iff]
    split_ifs with hfull
    · exact ⟨fun _ => hfull, fun _ => nofun⟩
    · refine ⟨fun hall => ?_, fun h0 => absurd h0 hfull⟩
      have hle := hall _ rfl
      rw [sizeSub, if_neg (by omega)] at hle
      omega
  | process => exact Iff.rfl
  | setbuflen n => exact Iff.rfl

/-- **In a run** whose steps stay within the block the buffer is never
overfull, and a next step keeps it exactly if it stays within the block too.
The VIO is asked for no more than there is room for exactly if it is not asked
at all, the buffer being full. -/
theorem readRuns_keep {trace : List (ReadOp × List LinebufCall)} (h₀ : lb₀.Roomy) (h : ReadRuns lb₀ trace lb) :
    lb.readbuf.buflen ≤ lb.readbuf.maxbuflen ∧
      ∀ op : ReadOp, op.Possible lb → (op.Keeps lb ↔ op.Within lb) ∧
        (op.Keeps lb ∧ op.AsksForRoom lb ↔ op.Within lb ∧ op.Full lb) := by
  have hroomy : lb.Roomy := by
    refine Run.invariant h₀ (fun {lb op calls lb'} hlb hok hrun => ?_) h
    obtain ⟨calls', lb'', hrun', hlb'⟩ := (hlb.run hok.1).1 hok.2
    rw [hrun] at hrun'
    obtain ⟨-, rfl⟩ := Prod.mk.inj (Option.some.inj hrun')
    exact hlb'
  refine ⟨hroomy.wf.fits, fun op hop => ?_⟩
  have hkeeps : op.Keeps lb ↔ op.Within lb := by
    constructor
    · rintro ⟨calls, lb', hrun, -⟩
      by_contra hne
      rw [(hroomy.run hop).2 hne] at hrun
      cases hrun
    · intro hw
      obtain ⟨calls, lb', hrun, hlb'⟩ := (hroomy.run hop).1 hw
      exact ⟨calls, lb', hrun, hlb'.wf.fits⟩
  exact ⟨hkeeps, and_congr hkeeps hroomy.asksForRoom_iff⟩

/-- Reading "a\nb" and making the buffer larger. -/
theorem readRuns_keep_larger : (create 4 4).Roomy ∧ ∃ trace lb, ReadRuns (create 4 4) trace lb ∧ trace.length = 2 ∧
    ReadOp.Possible lb (.setbuflen 2) ∧ ¬ ReadOp.Keeps lb (.setbuflen 2) := by
  have hroomy : (create 4 4).Roomy := ⟨(LinebufBuf.fresh_alloc 4).wf, by decide⟩
  have hread : ReadRuns (create 4 4) [(.readData (readOf [97, 10, 98]), [deliverLine [97]])]
      { create 4 4 with readbuf := ⟨[98, 0, 98, 0], 1, 4⟩ } := by
    refine .snoc .nil ⟨fun n hn => ?_, .inr ⟨by decide, ?_⟩⟩ rfl
    · rw [← Option.some.inj hn]
      decide
    · rintro ⟨c, hc, hd⟩
      obtain rfl := Option.some.inj hc
      exact absurd hd (by decide)
  have hrun : ReadRuns (create 4 4) [(.readData (readOf [97, 10, 98]), [deliverLine [97]]), (.setbuflen 8, [])]
      { create 4 4 with readbuf := ⟨[98, 0, 98, 0, 0, 0, 0, 0], 1, 8⟩ } :=
    .snoc hread ⟨Nat.le_of_ble_eq_true rfl, .inr (by decide)⟩ rfl
  have hpossible : ReadOp.Possible { create 4 4 with readbuf := ⟨[98, 0, 98, 0, 0, 0, 0, 0], 1, 8⟩ } (.setbuflen 2) :=
    Nat.le_of_ble_eq_true rfl
  refine ⟨hroomy, _, _, hrun, rfl, hpossible, fun hkeeps => ?_⟩
  rcases (((readRuns_keep hroomy hrun).2 _ hpossible).1.1 hkeeps) with h0 | hle
  · cases h0
  · exact absurd hle (by decide)

/-- The first read of a new line buffer is asked for one byte too many, and if
there are as many, the block is left. -/
theorem first_read_overflows : (create 4 4).requested = some 5 ∧ ¬ ReadOp.AsksForRoom (create 4 4) (.readData (readOf [])) ∧
    ReadOp.Possible (create 4 4) (.readData (readOf [97, 98, 99, 100, 101])) ∧
      (create 4 4).readData (readOf [97, 98, 99, 100, 101]) = none := by
  refine ⟨rfl, fun h => absurd (h 5 rfl) (by decide), fun n hn => ?_, rfl⟩
  rw [← Option.some.inj hn]
  decide

end Linebuf

end Mowgli
