import Mowgli.Base.Ctype
/-!
# Long options, as `ext/getopt_long.c` has them

The variables that last from call to call are a state, with the argument
vector, which a call permutes; `nargv[nargc]` is NULL. An index that is `-1`
for none is an `Option`. The search of the table answers `none` where it
reads past the end of the table or counts past `INT_MAX`. Every `flag` is
NULL, nothing sets `mowgli_optreset`, and the other counters do not wrap.
-/

namespace Mowgli

/-- The conversion of a `char`, which has a sign, to an `int`. -/
def charInt (c : UInt8) : ℤ := Int.bmod c.toNat 256

namespace CString

/-- The string from index `n` on. -/
def drop (k : CString) (n : ℕ) : CString :=
  ⟨k.bytes.drop n, fun h => k.nul_free (List.mem_of_mem_drop h)⟩

/-- `strncmp`. -/
def strncmp (k k' : CString) (n : ℕ) : ℤ := strcmp (k.take n) (k'.take n)

end CString

namespace Getopt

/-- The values of `has_arg`. -/
def no_argument : ℕ := 0

@[inherit_doc no_argument] def required_argument : ℕ := 1

@[inherit_doc no_argument] def optional_argument : ℕ := 2

/-- `mowgli_getopt_option_t`, as it is in memory that was cleared. -/
structure GetoptOption where
  name : Option CString := none
  hasArg : ℕ := no_argument
  val : ℤ := 0
  iflag : ℤ := 0

/-- `EMSG`. -/
def EMSG : CString := ⟨[], CString.nul_free_nil⟩

/-- A line on `stderr`, by the format it is printed with. -/
inductive Warning
  | recargchar (c : ℤ)
  | recargstring (s : CString)
  | ambig (len : ℤ) (s : CString)
  | noarg (len : ℤ) (s : CString)
  | illoptchar (c : ℤ)
  | illoptstring (s : CString)
  deriving DecidableEq

/-- What is outside: whether `POSIXLY_CORRECT` is set, and `mowgli_opterr`. -/
structure Env where
  posixlyCorrect : Bool
  opterr : Bool

/-- The variables, with `nargv` and what is on `stderr`. -/
structure State where
  nargv : List CString
  optind : ℕ
  /-- The text at the pointer. -/
  place : CString
  nonoptStart : Option ℕ
  nonoptEnd : Option ℕ
  optarg : Option CString
  optopt : ℤ
  stderr : List Warning

/-- The variables as they are at first. -/
def State.init (nargv : List CString) : State where
  nargv := nargv
  optind := 1
  place := EMSG
  nonoptStart := none
  nonoptEnd := none
  optarg := none
  optopt := (ch '?').toNat
  stderr := []

section Options

variable (env : Env) (options : CString)

/-- `IGNORE_FIRST`. -/
def ignoreFirst : Bool := options.charAt 0 == ch '-' || options.charAt 0 == ch '+'

/-- `PRINT_ERROR`. -/
def printError : Bool :=
  env.opterr && (options.charAt 0 != ch ':' || (ignoreFirst options && options.charAt 1 != ch ':'))

/-- `PERMUTE`. -/
def permute : Bool := !env.posixlyCorrect && !ignoreFirst options

/-- `IN_ORDER`. -/
def inOrder : Bool := !env.posixlyCorrect && options.charAt 0 == ch '-'

/-- `BADCH`. -/
def BADCH : ℤ := (ch '?').toNat

/-- `BADARG`. -/
def BADARG : ℤ :=
  if (ignoreFirst options && options.charAt 1 == ch ':') || options.charAt 0 == ch ':' then (ch ':').toNat
  else (ch '?').toNat

/-- `INORDER`. -/
def INORDER : ℤ := 1

/-- An error: a line on `stderr` if there are to be any, and `mowgli_optopt`. -/
def State.fail (s : State) (w : Warning) (optopt : ℤ) : State :=
  { s with optopt := optopt, stderr := if printError env options then s.stderr ++ [w] else s.stderr }

end Options

/-- `gcd`. (C has no remainder by zero; no block that is permuted is empty.) -/
def gcd (a b : ℕ) : ℕ :=
  if b = 0 then a
  else if a % b = 0 then b
  else gcd b (a % b)
termination_by b
decreasing_by exact Nat.mod_lt _ (Nat.pos_of_ne_zero ‹_›)

/-- The inner loop of `permute_args`, with its count down. -/
def permuteCycle (panonoptEnd nnonopts nopts cstart : ℕ) : ℕ → ℕ → List CString → List CString
  | 0, _, nargv => nargv
  | j + 1, pos, nargv =>
    let pos := if panonoptEnd ≤ pos then pos - nnonopts else pos + nopts
    let swap := nargv.getD pos EMSG
    permuteCycle panonoptEnd nnonopts nopts cstart j pos
      ((nargv.set pos (nargv.getD cstart EMSG)).set cstart swap)

/-- `permute_args`. -/
def permuteArgs (panonoptStart panonoptEnd optEnd : ℕ) (nargv : List CString) : List CString :=
  let nnonopts := panonoptEnd - panonoptStart
  let nopts := optEnd - panonoptEnd
  let ncycle := gcd nnonopts nopts
  let cyclelen := (optEnd - panonoptStart) / ncycle
  (List.range ncycle).foldl (fun nargv i =>
    let cstart := panonoptEnd + i
    permuteCycle panonoptEnd nnonopts nopts cstart cyclelen cstart nargv) nargv

namespace State

/-- The permutation at the end of the options. -/
def permuted (s : State) : State :=
  match s.nonoptStart, s.nonoptEnd with
  | some b, some e =>
    { s with nargv := permuteArgs b e s.optind s.nargv, optind := s.optind - (e - b),
             nonoptStart := none, nonoptEnd := none }
  | _, _ => { s with nonoptStart := none, nonoptEnd := none }

/-- The end of the argument vector. -/
def finish (s : State) : State :=
  let s := { s with place := EMSG }
  match s.nonoptStart, s.nonoptEnd with
  | some b, none => { s with optind := b, nonoptStart := none }
  | _, _ => s.permuted

/-- A word that is no option is passed over. -/
def passOver (s : State) : State :=
  let s := { s with place := EMSG }
  match s.nonoptStart, s.nonoptEnd with
  | none, _ => { s with nonoptStart := some s.optind, optind := s.optind + 1 }
  | some b, some e =>
    { s with nargv := permuteArgs b e s.optind s.nargv, nonoptStart := some (s.optind - (e - b)),
             nonoptEnd := none, optind := s.optind + 1 }
  | some _, none => { s with optind := s.optind + 1 }

/-- An option is found. -/
def markOption (s : State) : State :=
  if s.nonoptStart.isSome && s.nonoptEnd.isNone then { s with nonoptEnd := some s.optind } else s

/-- `if (!*place) ++mowgli_optind;` -/
def nextWord (s : State) : State :=
  if s.place = EMSG then { s with optind := s.optind + 1 } else s

end State

/-- `getopt_internal` from the option letter on. -/
def letter (env : Env) (options : CString) (s : State) : ℤ × State :=
  let c := s.place.charAt 0
  let optchar := charInt c
  let s := { s with place := s.place.drop 1 }
  match (options.bytes.drop (if ignoreFirst options then 1 else 0)).dropWhile (· != c) with
  | [] => (BADCH, s.nextWord.fail env options (.illoptchar optchar) optchar)
  | _ :: oli =>
    if c = ch ':' then
      (BADCH, s.nextWord.fail env options (.illoptchar optchar) optchar)
    else if c = ch 'W' ∧ oli.getD 0 0 = ch ';' then
      if s.place ≠ EMSG then (-2, s)
      else if s.nargv.length ≤ s.optind + 1 then
        (BADARG options, ({ s with optind := s.optind + 1 }).fail env options (.recargchar optchar) optchar)
      else (-2, { s with optind := s.optind + 1, place := s.nargv.getD (s.optind + 1) EMSG })
    else if oli.getD 0 0 ≠ ch ':' then (optchar, s.nextWord)
    else if s.place ≠ EMSG then
      (optchar, { s with optarg := some s.place, place := EMSG, optind := s.optind + 1 })
    else if oli.getD 1 0 ≠ ch ':' then
      if s.nargv.length ≤ s.optind + 1 then
        (BADARG options, ({ s with optind := s.optind + 1 }).fail env options (.recargchar optchar) optchar)
      else (optchar, { s with optarg := s.nargv[s.optind + 1]?, optind := s.optind + 1 + 1 })
    else (optchar, { s with optarg := none, optind := s.optind + 1 })

/-- `getopt_internal` from `start` on, with `n` words left. -/
def start (env : Env) (options : CString) : ℕ → State → ℤ × State
  | 0, s => (-1, s.finish)
  | n + 1, s =>
    let word := s.nargv.getD s.optind EMSG
    if word.charAt 0 ≠ ch '-' ∨ word.charAt 1 = 0 then
      if inOrder env options then
        (INORDER, { s with place := EMSG, optarg := some word, optind := s.optind + 1 })
      else if permute env options then start env options n s.passOver
      else (-1, { s with place := EMSG })
    else if word.charAt 1 = ch '-' then (-2, { s.markOption with place := word.drop 2 })
    else letter env options { s.markOption with place := word.drop 1 }

/-- `getopt_internal`. -/
def getoptInternal (env : Env) (options : CString) (s : State) : ℤ × State :=
  let s := { s with optarg := none }
  let s := if s.optind = 0 then { s with optind := 1 } else s
  if s.place = EMSG then start env options (s.nargv.length - s.optind) s else letter env options s

/-- `current_argv_len`: where the first '=' is, or the end. -/
def argvLen (currentArgv : CString) : ℕ := currentArgv.bytes.findIdx (· == ch '=')

/-- `has_equal`: what follows the first '='. -/
def hasEqual (currentArgv : CString) : Option CString :=
  if argvLen currentArgv < currentArgv.length then some (currentArgv.drop (argvLen currentArgv + 1)) else none

/-- `IDENTICAL_INTERPRETATION`. -/
def identicalInterpretation (x y : GetoptOption) : Bool := x.hasArg == y.hasArg && x.val == y.val

/-- The search of `long_options` from index `i` on: `match`, with its entry,
and `ambiguous`. -/
def search (currentArgv : CString) : ℕ → List GetoptOption → Option (ℕ × GetoptOption) → Bool →
    Option (Option (ℕ × GetoptOption) × Bool)
  | _, [], _, _ => none
  | i, o :: os, found, ambiguous =>
    if INT_MAX < i then none
    else
      match o.name with
      | none => some (found, ambiguous)
      | some name =>
        if CString.strncmp currentArgv name (argvLen currentArgv) ≠ 0 then
          search currentArgv (i + 1) os found ambiguous
        else if name.length = argvLen currentArgv % 4294967296 then some (some (i, o), false)
        else
          match found with
          | none => search currentArgv (i + 1) os (some (i, o)) ambiguous
          | some (_, o') => search currentArgv (i + 1) os found (ambiguous || !identicalInterpretation o o')

/-- The argument of a long option is taken, from the word or from the next
one. -/
def takeArgument (currentArgv : CString) (o : GetoptOption) (s : State) : State :=
  if o.hasArg = required_argument ∨ o.hasArg = optional_argument then
    match hasEqual currentArgv with
    | some v => { s with optarg := some v }
    | none =>
      if o.hasArg = required_argument then { s with optarg := s.nargv[s.optind]?, optind := s.optind + 1 } else s
  else s

/-- A long option was matched: what is returned, `*idx` if it is set, and the
state. -/
def matched (env : Env) (options currentArgv : CString) (i : ℕ) (o : GetoptOption) (s : State) :
    ℤ × Option ℕ × State :=
  if o.hasArg = no_argument ∧ (hasEqual currentArgv).isSome then
    (BADARG options, none, s.fail env options (.noarg (toInt (argvLen currentArgv)) currentArgv) o.val)
  else
    let s := takeArgument currentArgv o s
    if o.hasArg = required_argument ∧ s.optarg = none then
      (BADARG options, none,
        ({ s with optind := s.optind - 1 }).fail env options (.recargstring currentArgv) o.val)
    else (o.val, some i, s)

/-- What comes of the search. -/
def outcome (env : Env) (options currentArgv : CString) (s : State) :
    Option (ℕ × GetoptOption) × Bool → ℤ × Option ℕ × State
  | (_, true) => (BADCH, none, s.fail env options (.ambig (toInt (argvLen currentArgv)) currentArgv) 0)
  | (some (i, o), false) => matched env options currentArgv i o s
  | (none, false) => (BADCH, none, s.fail env options (.illoptstring currentArgv) 0)

/-- `mowgli_getopt_long`: what is returned, `*idx` if it is set, and the
state. -/
def getoptLong (env : Env) (options : CString) (longOptions : List GetoptOption) (s : State) :
    Option (ℤ × Option ℕ × State) :=
  match getoptInternal env options s with
  | (retval, s) =>
    if retval ≠ -2 then some (retval, none, s)
    else
      let currentArgv := s.place
      let s := { s with optind := s.optind + 1, place := EMSG }
      if currentArgv = EMSG then some (-1, none, s.permuted)
      else (search currentArgv 0 longOptions none false).map (outcome env options currentArgv s)

end Getopt

end Mowgli
