import Acton.Argparse.Tokens

/-!
# Parsing a command line

`_parse_and_consume`, which goes down through the sub-commands, and `parse`.
-/

namespace Acton.Argparse
variable {F : Type}
namespace Parser

/-- State of the loop over the tokens at its start. -/
def start (self : Parser F) (res : Args F) : ReadState F :=
  ⟨{ res with options := self.insertDefaults res.options }, [], none⟩

/-- The end of a level: the positional arguments. `found` tells whether the level has a sub-command.
Without one, the parser that `res.cmd_parser` refers to, if any, is this one, which has changed. -/
def finish (self : Parser F) (prog : String) (res : Args F) (posargs : List String) (found : Bool) :
    Parser F × Args F × List String :=
  let (args, options, rest) := matchArgs posargs self.args res.options []
  let self := { self with prog := prog, args := args }
  let cmdParser := if found then res.cmdParser else res.cmdParser.map fun _ => self
  (self, { res with options := options, cmdParser := cmdParser }, rest)

/-- The result has the changed parser, and the tokens that are left. -/
def parseAndConsume (b : Builtins) (self : Parser F) (argv : List String)
    (resArgs : Option (Args F)) (prog : String) : Except Err (Parser F × Args F × List String) :=
  match hread : self.readArgs b argv false (self.start (resArgs.getD {})) with
  | .error e => .error e
  | .ok (st, behind) =>
    match hsub : st.cmdParser with
    | none => .ok (self.finish prog st.res (restOf st behind) false)
    | some sub =>
      have : (restOf st behind).length < argv.length := length_restOf_lt hread hsub
      match sub.parseAndConsume b (restOf st behind) (some st.res) (prog ++ " " ++ sub.cmd) with
      | .error e => .error e
      | .ok (_, res, posargs) => .ok (self.finish prog res posargs true)
termination_by argv.length

section Equations
variable {b : Builtins} {self : Parser F} {argv : List String} {resArgs : Option (Args F)}
  {prog : String} {st : ReadState F} {behind : Option (List String)}
section
variable (hread : self.readArgs b argv false (self.start (resArgs.getD {})) = .ok (st, behind))
include hread

lemma parseAndConsume_eq_finish (hsub : st.cmdParser = none) :
    self.parseAndConsume b argv resArgs prog =
      .ok (self.finish prog st.res (restOf st behind) false) := by
  rw [parseAndConsume]
  split
  · simp_all
  · rename_i hread'
    obtain ⟨rfl, rfl⟩ := Prod.mk.inj (Except.ok.inj (hread'.symm.trans hread))
    split
    · rfl
    · simp_all

lemma parseAndConsume_eq_bind {sub : Parser F} (hsub : st.cmdParser = some sub) :
    self.parseAndConsume b argv resArgs prog =
      sub.parseAndConsume b (restOf st behind) (some st.res) (prog ++ " " ++ sub.cmd) >>=
        fun r => .ok (self.finish prog r.2.1 r.2.2 true) := by
  rw [parseAndConsume]
  split
  · simp_all
  · rename_i hread'
    obtain ⟨rfl, rfl⟩ := Prod.mk.inj (Except.ok.inj (hread'.symm.trans hread))
    split
    · simp_all
    · rename_i hsub'
      obtain rfl := Option.mem_unique hsub' hsub
      dsimp only
      split
      · rename_i hrec
        rw [hrec]
        rfl
      · rename_i hrec
        rw [hrec]
        rfl

end
end Equations

/-- The loop over the positional arguments that are left at the end. -/
def checkRequired (options : Options) : List ArgSpec → Except Err Unit
  | [] => .ok ()
  | arg :: args =>
    if arg.required && (get options arg.name).isNone then
      .error (.argumentError s!"Missing positional argument: {arg.name}")
    else checkRequired options args

/-- The parser with the option `help`, and whether it was added. -/
def injectHelp (b : Builtins) (self : Parser F) : Except Err (Parser F × Bool) :=
  if (get self.opts "help").isNone then do
    let self ← self.addBool b "help" "show this help message" none
    .ok (self, true)
  else .ok (self, false)

/-- The request for help, which is looked at only if the option was added. -/
def checkHelp (b : Builtins) (self : Parser F) (args : Args F) : Except Err Unit := do
  if ← args.getBool "help" then
    match args.cmdParser with
    | some cmdParser => .error (.printUsage (cmdParser.getUsage b))
    | none => .error (.printUsage (self.getUsage b))
  else .ok ()

/-- What is checked at the end. -/
def checkResult (b : Builtins) (self : Parser F) (injected : Bool) (args : Args F) :
    Except Err (Args F) := do
  if injected then self.checkHelp b args
  checkRequired args.options self.args
  .ok args

def parse (b : Builtins) (self : Parser F) (argv : List String) : Except Err (Args F) := do
  let (self, injected) ← self.injectHelp b
  match argv with
  | [] => .error (.indexError "getitem: index outside list")
  | prog :: argv =>
    -- the tokens that are left are not looked at
    let (self, args, _) ← self.parseAndConsume b argv none prog
    self.checkResult b injected args

end Parser
end Acton.Argparse
