import Acton.ToMathlib.OrderedMap

/-!
# Command line arguments

`base/src/argparse.act`: a parser has options, flags, positional arguments and sub-commands, which
are parsers again. A level reads its own options and finds the sub-command; the tokens that it does
not know are handed to the sub-command, and what that leaves is matched with the positional
arguments of the level.

Objects are values here. The methods of a parser return the changed parser, and an exception is the
error of an `Except`.
-/

namespace Acton.Argparse

/-- What the module uses of the builtin types: `int(..)`, which may raise `ValueError`, `upper` and
`isalnum`. -/
structure Builtins where
  int : String → Option ℤ
  upper : String → String
  isalnum : Char → Bool

inductive Err where
  | argumentError (msg : String)
  | printUsage (usage : String)
  | valueError (msg : String)
  | indexError (msg : String)
  | keyError (key : String)
  deriving DecidableEq, Repr

/-- `PrintUsage` is a subclass of `ArgumentError`. -/
def Err.isArgumentError : Err → Bool
  | .argumentError _ => true
  | .printUsage _ => true
  | _ => false

inductive OptType where
  | bool
  | int
  | str
  | strlist
  deriving DecidableEq, Repr

inductive Value where
  | bool (b : Bool)
  | int (n : ℤ)
  | str (s : String)
  | strlist (l : List String)
  deriving DecidableEq, Repr

/-- The texts `"?"`, `"+"`, `"*"` and any other text. -/
inductive Nargs where
  | one
  | plus
  | star
  | other (text : String)
  deriving DecidableEq, Repr

def Nargs.isMany : Nargs → Bool
  | .plus => true
  | .star => true
  | _ => false

structure OptSpec where
  type : OptType
  default : Option Value
  help : String
  short : Option String
  deriving DecidableEq, Repr

structure ArgSpec where
  name : String
  help : String
  required : Bool
  nargs : Nargs
  deriving DecidableEq, Repr

structure Parser (F : Type) where
  cmd : String
  opts : List (String × OptSpec)
  shortOpts : List (Char × String)
  args : List ArgSpec
  /-- Name, help text, parser and function of the sub-commands. -/
  cmds : List (String × String × Parser F × F)
  prog : String

abbrev Options := List (String × OptType × Value)

structure Args (F : Type) where
  cmdParser : Option (Parser F) := none
  options : Options := []
  cmd : Option F := none

/-- The item of a dict. -/
def get {K V : Type} [BEq K] (m : List (K × V)) (k : K) : Option V := OrderedMap.lookup (· == ·) m k

/-- The dict with another item. -/
def put {K V : Type} [BEq K] (m : List (K × V)) (k : K) (v : V) : List (K × V) :=
  OrderedMap.insert (· == ·) m k v

variable {F : Type}

def Args.getBool (args : Args F) (name : String) : Except Err Bool :=
  match get args.options name with
  | none => .error (.argumentError s!"Option '{name}' not found")
  | some (.bool, .bool b) => .ok b
  | some (.bool, .int n) => .error (.valueError s!"Option value {n} is not a bool")
  | some (.bool, .str s) => .error (.valueError s!"Option value {s} is not a bool")
  | some (.bool, .strlist l) => .error (.valueError s!"Option value {l} is not a bool")
  | some _ => .error (.valueError s!"Option {name} is not a bool")

namespace Parser

/-! ## Construction -/

def new (cmd : String) : Parser F := ⟨cmd, [], [], [], [], ""⟩

/-- The checks of a short option, and its entry. -/
def addShort (b : Builtins) (self : Parser F) (name : String) :
    Option String → Except Err (Parser F)
  | none => .ok self
  | some short =>
    match short.toList with
    | [c] =>
      if !b.isalnum c then .error (.argumentError "Short option must be alphanumeric")
      else if (get self.shortOpts c).isSome then
        .error (.argumentError s!"Short option '{short}' already exists")
      else .ok { self with shortOpts := put self.shortOpts c name }
    | _ => .error (.argumentError "Short option must be exactly one character")

def addBool (b : Builtins) (self : Parser F) (name help : String) (short : Option String) :
    Except Err (Parser F) := do
  let self ← self.addShort b name short
  .ok { self with opts := put self.opts name ⟨.bool, some (.bool false), help, short⟩ }

/-- The type is one of the three that take a value; other texts are errors in the source. -/
def addOption (b : Builtins) (self : Parser F) (name : String) (type : OptType)
    (default : Option Value) (help : String) (short : Option String) : Except Err (Parser F) :=
  if (get self.opts name).isSome then .error (.argumentError s!"Option '{name}' already exists")
  else if type = .bool then .error (.argumentError "Invalid option type 'bool'")
  else do
    let self ← self.addShort b name short
    .ok { self with opts := put self.opts name ⟨type, default, help, short⟩ }

def addArg (self : Parser F) (name help : String) (required : Bool) (nargs : Nargs) :
    Except Err (Parser F) :=
  if nargs.isMany && self.args.any fun arg => arg.nargs.isMany then
    .error (.argumentError "Only one positional argument with multiple values allowed")
  else .ok { self with args := self.args ++ [⟨name, help, required, nargs⟩] }

/-- The parser of the sub-command is built by its user, beginning with `new name`. -/
def addCmd (self : Parser F) (name help : String) (fn : F) (parser : Parser F) : Parser F :=
  { self with cmds := put self.cmds name (help, parser, fn) }

/-! ## Usage -/

/-- The format `<14`. -/
def ljust14 (s : String) : String := s.pushn ' ' (14 - s.length)

/-- The keys of a dict in the order of `sorted`. -/
def sortedKeys {V : Type} (m : List (String × V)) : List String :=
  (m.map Prod.fst).mergeSort fun a b => decide (a ≤ b)

def usageOpt (b : Builtins) (self : Parser F) (name : String) : String :=
  match get self.opts name with
  | none => ""
  | some opt =>
    let upper := b.upper name
    match opt.type, opt.short with
    | .bool, some short => s!" [-{short}]"
    | .bool, none => s!" [--{name}]"
    | _, some short => s!" [-{short} {upper}]"
    | _, none => s!" [--{name} {upper}]"

def usageArg (b : Builtins) (arg : ArgSpec) : String :=
  let upper := b.upper arg.name
  match arg.nargs with
  | .one => if arg.required then s!" {upper}" else s!" [{upper}]"
  | .plus => s!" {upper} [{upper} ...]"
  | _ => ""

def helpOpt (b : Builtins) (self : Parser F) (name : String) : String :=
  match get self.opts name with
  | none => ""
  | some opt =>
    let long := s!"--{name}"
    let text := match opt.short with
      | some short => s!"-{short}, {long}"
      | none => long
    let text := if opt.type = .bool then text else text ++ " " ++ b.upper name
    "  " ++ ljust14 text ++ " " ++ opt.help ++ "\n"

def getUsage (b : Builtins) (self : Parser F) : String :=
  let shortOpts := String.join ((sortedKeys self.opts).map (self.usageOpt b)) ++
    String.join (self.args.map (usageArg b)) ++ if self.cmds.isEmpty then "" else " COMMAND"
  let commands := (sortedKeys self.cmds).map fun name =>
    "  " ++ ljust14 name ++ " " ++ ((get self.cmds name).map Prod.fst).getD "" ++ "\n"
  let arguments := self.args.map fun arg =>
    "  " ++ ljust14 (b.upper arg.name) ++ " " ++ arg.help ++ "\n"
  let options := (sortedKeys self.opts).map (self.helpOpt b)
  "Usage: " ++ self.prog ++ shortOpts ++ "\n" ++
    (if self.cmds.isEmpty then "" else "\nCommands:\n" ++ String.join commands) ++
    (if self.args.isEmpty then "" else "\nPositional arguments:\n" ++ String.join arguments) ++
    if self.opts.isEmpty then "" else "\nOptions:\n" ++ String.join options

end Parser

/-! ## Options of a level -/

/-- The list that a value is appended to. -/
def currentList (options : Options) (key : String) : List String :=
  match get options key with
  | some (_, .strlist l) => l
  | _ => []

def appendValue (options : Options) (key val : String) : Options :=
  put options key (.strlist, .strlist (currentList options key ++ [val]))

/-- A value for an option that takes one. `label` is how the error calls the option. -/
def storeValue (b : Builtins) (label akey : String) (type : OptType) (val : String)
    (options : Options) : Except Err Options :=
  match type with
  | .int =>
    match b.int val with
    | some n => .ok (put options akey (.int, .int n))
    | none => .error (.argumentError s!"Option {label} requires an integer value")
  | .str => .ok (put options akey (.str, .str val))
  | .strlist => .ok (appendValue options akey val)
  -- flags are treated before
  | .bool => .ok options

def setFlag (options : Options) (akey : String) : Options := put options akey (.bool, .bool true)

/-- State of the loop over the tokens: `rest` has the tokens for others. -/
structure ReadState (F : Type) where
  res : Args F
  rest : List String
  cmdParser : Option (Parser F)

namespace ReadState

def setOptions (st : ReadState F) (options : Options) : ReadState F :=
  { st with res := { st.res with options := options } }

def pass (st : ReadState F) (arg : String) : ReadState F :=
  { st with rest := st.rest ++ [arg] }

end ReadState
namespace Parser
variable (b : Builtins) (self : Parser F)

/-- A token `--body`. The result tells whether the next token was taken as a value. -/
def readLong (arg : String) (body : List Char) (next : Option String) (st : ReadState F) :
    Except Err (ReadState F × Bool) :=
  let akey := String.ofList (body.takeWhile (· ≠ '='))
  match get self.opts akey with
  | none => .ok (st.pass arg, false)
  | some aspec =>
    if aspec.type = .bool then .ok (st.setOptions (setFlag st.res.options akey), false)
    else
      match body.dropWhile (· ≠ '=') with
      | _ :: val => do
        -- the value stands behind the `=`
        let options ← storeValue b akey akey aspec.type (String.ofList val) st.res.options
        .ok (st.setOptions options, false)
      | [] =>
        match next with
        | none => .error (.argumentError s!"Missing value to option {arg}")
        | some val => do
          let options ← storeValue b akey akey aspec.type val st.res.options
          .ok (st.setOptions options, true)

/-- The characters of a group of short options; the unknown ones are collected. -/
def readGroup (next : Option String) :
    List Char → Options → List Char → Except Err (Options × List Char × Bool)
  | [], options, unknown => .ok (options, unknown, false)
  | c :: cs, options, unknown =>
    match get self.shortOpts c with
    | none => readGroup next cs options (unknown ++ [c])
    | some akey =>
      match get self.opts akey with
      | none => .error (.keyError akey)
      | some aspec =>
        if aspec.type = .bool then readGroup next cs (setFlag options akey) unknown
        else if cs ≠ [] then
          .error (.argumentError
            s!"Non-boolean option -{c} cannot be grouped (must be last or use separate argument)")
        else
          match next with
          | none => .error (.argumentError s!"Missing value to option -{c}")
          | some val => do
            let options ← storeValue b s!"-{c}" akey aspec.type val options
            .ok (options, unknown, true)

/-- The first of several characters, if it is an option with a value: the others are the value. -/
def inlineOption (chars : List Char) : Except Err (Option (Char × String × OptType × List Char)) :=
  match chars with
  | first :: c :: cs =>
    match get self.shortOpts first with
    | none => .ok none
    | some akey =>
      match get self.opts akey with
      | none => .error (.keyError akey)
      | some spec =>
        if spec.type = .bool then .ok none else .ok (some (first, akey, spec.type, c :: cs))
  | _ => .ok none

/-- A token `-chars`. -/
def readShort (chars : List Char) (next : Option String) (st : ReadState F) :
    Except Err (ReadState F × Bool) := do
  match ← self.inlineOption chars with
  | some (first, akey, type, val) =>
    let options ← storeValue b s!"-{first}" akey type (String.ofList val) st.res.options
    .ok (st.setOptions options, false)
  | none =>
    let (options, unknown, skip) ← self.readGroup b next chars st.res.options []
    let st := st.setOptions options
    .ok (if unknown = [] then st else st.pass (String.ofList ('-' :: unknown)), skip)

/-- A token that is not an option: the first command counts. -/
def readWord (arg : String) (st : ReadState F) : ReadState F :=
  match get self.cmds arg, st.cmdParser with
  | some (_, parser, fn), none =>
    { st with
      res := { st.res with cmd := some fn, cmdParser := some parser }
      cmdParser := some parser }
  | _, _ => st.pass arg

def readArg (arg : String) (next : Option String) (st : ReadState F) :
    Except Err (ReadState F × Bool) :=
  match arg.toList with
  | '-' :: '-' :: body => self.readLong b arg body next st
  | '-' :: c :: cs => self.readShort b (c :: cs) next st
  | _ => .ok (self.readWord arg st, false)

/-- The loop over the tokens. With `skip`, the first token is the value of the option before it. At
a token `--` the loop ends; the tokens behind it are the second result. -/
def readArgs : List String → Bool → ReadState F → Except Err (ReadState F × Option (List String))
  | [], _, st => .ok (st, none)
  | _ :: argv, true, st => readArgs argv false st
  | arg :: argv, false, st =>
    if arg = "--" then .ok (st, some argv)
    else
      match self.readArg b arg argv.head? st with
      | .error e => .error e
      | .ok (st, skip) => readArgs argv skip st

/-- The tokens for others after the loop: those behind `--` take the place of the ones before. -/
def restOf (st : ReadState F) (behind : Option (List String)) : List String := behind.getD st.rest

def insertDefault (options : Options) (opt : String × OptSpec) : Options :=
  match opt.2.default with
  | some defval => put options opt.1 (opt.2.type, defval)
  | none => options

/-- An optional argument with any number of values has none at first. -/
def insertEmpty (options : Options) (arg : ArgSpec) : Options :=
  if !arg.required && arg.nargs = .plus then put options arg.name (.strlist, .strlist [])
  else options

def insertDefaults (options : Options) : Options :=
  self.args.foldl insertEmpty (self.opts.foldl insertDefault options)

/-- The loop that matches tokens with the positional arguments: the arguments that are not done, the
options, and the tokens that are left. -/
def matchArgs : List String → List ArgSpec → Options → List String →
    List ArgSpec × Options × List String
  | [], args, options, rest => (args, options, rest)
  | arg :: posargs, [], options, rest => matchArgs posargs [] options (rest ++ [arg])
  | arg :: posargs, posarg :: args, options, rest =>
    match posarg.nargs with
    | .one => matchArgs posargs args (put options posarg.name (.str, .str arg)) rest
    | .plus =>
      let options := appendValue options posarg.name arg
      -- the last value, if the other tokens are just enough for the other arguments
      if posargs.length = args.length then matchArgs posargs args options rest
      else matchArgs posargs (posarg :: args) options rest
    | _ => matchArgs posargs (posarg :: args) options rest

end Parser
end Acton.Argparse
