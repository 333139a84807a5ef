import Cage.Util.CStr

/-!
`getopt_long` as `src/cli/args.c` uses it: the options end at the first argument that is
none, a missing argument is told apart from an unknown option, and of a long name as much
is enough as makes it the only one.
-/

namespace Cage.Cli

open Util

/-- `struct option` with a letter for its `val`. -/
structure LongOpt where
  name : CStr
  hasArg : Bool
  val : UInt8
  deriving DecidableEq, Repr

/-- A character of the source. -/
def chr (c : Char) : UInt8 := c.toUInt8

def dash : UInt8 := chr '-'

/-- A call takes the options of a program: the letters of the short ones, and the long ones. -/
structure Options where
  optstring : CStr
  longOpts : List LongOpt

namespace Options

variable (o : Options)

/-- Whether the letter takes an argument, if it is an option. A colon is none. -/
def short (c : UInt8) : Option Bool :=
  if c = chr ':' then none
  else (strchr o.optstring c).map fun rest => rest.tail.head? = some (chr ':')

/-- The option of that name, or the only one whose name begins with it. -/
def long (word : CStr) : Option LongOpt :=
  match o.longOpts.find? (·.name = word) with
  | some l => some l
  | none =>
      match o.longOpts.filter (word.isPrefixOf ·.name) with
      | [l] => some l
      | _ => none

end Options

/-- What a call returns, with `optarg`. -/
inductive Found where
  | done
  | opt (c : UInt8) (optarg : Option CStr)
  /-- `:` -/
  | missing
  /-- `?` -/
  | unknown
  deriving DecidableEq, Repr

/-- Where the calls have come to: `optind`, and what is left of a group of short options. -/
structure Getopt where
  optind : Nat
  group : CStr
  deriving DecidableEq, Repr

/-- The next letter of the group at `optind`. -/
def getoptShort (o : Options) (argv : List CStr) (optind : Nat) (c : UInt8) (group : CStr) : Found × Getopt :=
  match o.short c with
  | none => (.unknown, if group = [] then ⟨optind + 1, []⟩ else ⟨optind, group⟩)
  | some false => (.opt c none, if group = [] then ⟨optind + 1, []⟩ else ⟨optind, group⟩)
  | some true =>
      if group ≠ [] then (.opt c (some group), ⟨optind + 1, []⟩)
      else
        match argv.drop (optind + 1) with
        | [] => (.missing, ⟨optind + 2, []⟩)
        | arg :: _ => (.opt c (some arg), ⟨optind + 2, []⟩)

/-- A long option, of which `text` is what stands behind the dashes. -/
def getoptWord (o : Options) (argv : List CStr) (optind : Nat) (text : CStr) : Found × Getopt :=
  match o.long (text.takeWhile (· ≠ equals)) with
  | none => (.unknown, ⟨optind + 1, []⟩)
  | some l =>
      match strchr text equals with
      | some value =>
          if l.hasArg then (.opt l.val (some value.tail), ⟨optind + 1, []⟩)
          else (.unknown, ⟨optind + 1, []⟩)
      | none =>
          if l.hasArg then
            match argv.drop (optind + 1) with
            | [] => (.missing, ⟨optind + 1, []⟩)
            | arg :: _ => (.opt l.val (some arg), ⟨optind + 2, []⟩)
          else (.opt l.val none, ⟨optind + 1, []⟩)

def getoptLong (o : Options) (argv : List CStr) (g : Getopt) : Found × Getopt :=
  match g.group with
  | c :: group => getoptShort o argv g.optind c group
  | [] =>
      match argv.drop g.optind with
      | [] => (.done, g)
      | arg :: _ =>
          match arg with
          | [] => (.done, g)
          | first :: text =>
              if first ≠ dash then (.done, g)
              else
                match text with
                | [] => (.done, g)
                | c :: word =>
                    if c ≠ dash then getoptShort o argv g.optind c word
                    else if word = [] then (.done, ⟨g.optind + 1, []⟩)
                    else getoptWord o argv g.optind word

end Cage.Cli
