import Mowgli.Ext.GetoptLong.Search
/-!
# Program options, as `ext/program_opts.c` has them

The index of an entry stands for its consumer and the data it is called
with. A function here answers `none` where the code would read or write
outside the table, the array made from it or the string of short options.
The consumers leave the variables of `getopt_long.c` as they are.
-/

namespace Mowgli

namespace ProgramOpts

open Getopt

/-- `mowgli_program_opts_t`. -/
structure ProgramOpt where
  longopt : Option CString
  smallopt : UInt8
  hasParam : Bool

/-- What is done with an option. -/
inductive Event
  /-- `opts[i].consumer(arg, opts[i].userdata)`. -/
  | consumer (i : ℕ) (arg : Option CString)
  /-- "no optarg for option %s". -/
  | noOptarg (longopt : Option CString)
  /-- `return_if_fail(opt != NULL)`. -/
  | returnIfFail
  deriving DecidableEq

/-- The entry of the array that is made of entry `i`. -/
def convertEntry (o : ProgramOpt) (i : ℕ) : GetoptOption :=
  match o.longopt with
  | none => {}
  | some longopt =>
    { name := some longopt, iflag := toInt i, hasArg := if o.hasParam then required_argument else no_argument }

/-- `mowgli_program_opts_convert`. -/
def convert (opts : List ProgramOpt) : List GetoptOption := opts.zipIdx.map fun (o, i) => convertEntry o i

/-- `*p++ = c`, in `buf`. -/
def put (buf : List UInt8) (c : UInt8) : Option (List UInt8) :=
  if buf.length < 256 then some (buf ++ [c]) else none

/-- The loop of `mowgli_program_opts_compute_optstr`. -/
def writeOptstr : List ProgramOpt → List UInt8 → Option (List UInt8)
  | [], buf => put buf 0
  | o :: opts, buf =>
    if o.smallopt = 0 then writeOptstr opts buf
    else
      (put buf o.smallopt).bind fun buf =>
        if o.hasParam then (put buf (ch ':')).bind (writeOptstr opts) else writeOptstr opts buf

/-- `mowgli_program_opts_compute_optstr`. -/
def computeOptstr (opts : List ProgramOpt) : Option CString := (writeOptstr opts []).map CString.ofBuffer

/-- `mowgli_program_opts_dispatch`. -/
def dispatch (opt : Option (ProgramOpt × ℕ)) (optArg : Option CString) : Event :=
  match opt with
  | none => .returnIfFail
  | some (o, i) => if o.hasParam ∧ optArg = none then .noOptarg o.longopt else .consumer i optArg

/-- The first entry with the short option `c`. -/
def findSmall (opts : List ProgramOpt) (c : ℤ) : Option (ProgramOpt × ℕ) :=
  opts.zipIdx.find? fun (o, _) => charInt o.smallopt == c

/-- `opts[g_opts[opt_index].iflag]`. -/
def resolve (opts : List ProgramOpt) (gOpts : List GetoptOption) (optIndex : Option ℕ) : Option (ProgramOpt × ℕ) :=
  optIndex.bind fun idx => gOpts[idx]?.bind fun g =>
    if 0 ≤ g.iflag then opts[g.iflag.toNat]?.map fun o => (o, g.iflag.toNat) else none

section Parse

variable (env : Env) (opts : List ProgramOpt) (shortops : CString) (gOpts : List GetoptOption)

/-- One turn of the loop: what is done with an option, or that there is no
more. -/
def turn (s : State) : Option (Option Event × State) :=
  (getoptLong env shortops gOpts s).bind fun (c, optIndex, s) =>
    if c = -1 then some (none, s)
    else if c = 0 then (resolve opts gOpts optIndex).map fun opt => (some (dispatch (some opt) s.optarg), s)
    else some (some (dispatch (findSmall opts c) s.optarg), s)

variable {env opts shortops gOpts} in
/-- A turn is made by one call. -/
theorem turn_some {s s' : State} {e : Event} (h : turn env opts shortops gOpts s = some (some e, s')) :
    ∃ c idx, getoptLong env shortops gOpts s = some (c, idx, s') ∧ c ≠ -1 := by
  obtain ⟨⟨c, idx, s₁⟩, hcall, hrun⟩ := Option.bind_eq_some_iff.1 h
  dsimp only at hrun
  split_ifs at hrun with hend hlong
  · cases hrun
  · obtain ⟨opt, -, hres⟩ := Option.map_eq_some_iff.1 hrun
    obtain ⟨-, rfl⟩ := Prod.mk.inj hres
    exact ⟨c, idx, hcall, hend⟩
  · obtain ⟨-, rfl⟩ := Prod.mk.inj (Option.some.inj hrun)
    exact ⟨c, idx, hcall, hend⟩

/-- The loop: what is done in each turn, with the state it is made in. -/
def loop (s : State) : Option (List (State × Event)) :=
  match _h : turn env opts shortops gOpts s with
  | none => none
  | some (none, _) => some []
  | some (some e, s') => (loop s').map fun turns => (s, e) :: turns
termination_by (s.left, s.unread, s.place.length)
decreasing_by
  obtain ⟨c, idx, hcall, hc⟩ := turn_some _h
  rcases getoptLong_less hcall hc with hleft | ⟨hleft, hunread | ⟨hunread, hplace⟩⟩
  · exact Prod.Lex.left _ _ hleft
  · rw [hleft]
    exact Prod.Lex.right _ (Prod.Lex.left _ _ hunread)
  · rw [hleft, hunread]
    exact Prod.Lex.right _ (Prod.Lex.right _ hplace)

/-- `mowgli_program_opts_parse`. -/
def parse (argv : List CString) : Option (List (State × Event)) :=
  if opts = [] then some []
  else (computeOptstr opts).bind fun shortops => loop env opts shortops (convert opts) (State.init argv)

end Parse

end ProgramOpts

end Mowgli
