import SearchFilter.Reference

/-!
# The command line

The arguments of the command, what they ask for, and what it prints.

Arguments are read in two steps.  `items` tells options from operands, one item for each thing said;
then the items are gathered, and refused when one is not known to the command, or is said twice.
Options may stand before and behind the operand, short flags may be joined behind one dash, and
everything behind a double dash is an operand.  In front of the command's name, asking for the
version settles the matter at once: what follows is not looked at.
-/

namespace SearchFilter.CommandLine

/-! ### Items -/

/-- The options that take no value. -/
inductive Flag where
  | verbose
  | version
  | pretty
  | tokens
  | tree
  deriving DecidableEq, Repr

/-- The flag with the given short name. -/
def Flag.ofLetter? : Char → Option Flag
  | 'v' => some .verbose
  | 'V' => some .version
  | 'p' => some .pretty
  | _ => none

/-- The flag with the given long name. -/
def Flag.ofName? : String → Option Flag
  | "verbose" => some .verbose
  | "version" => some .version
  | "pretty" => some .pretty
  | "tokens" => some .tokens
  | "tree" => some .tree
  | _ => none

/-- One thing that is said on the command line. -/
inductive Item where
  | flag (f : Flag)
  | field (name : String)
  | operand (text : String)
  | endOfOptions
  | unknown
  deriving DecidableEq, Repr

/-- An argument is an option when it begins with a dash and goes on. -/
def isOption (arg : String) : Bool :=
  match arg.toList with
  | '-' :: _ :: _ => true
  | _ => false

/-- What an option says by itself: its name and its value, if it has one, or the flags that are
joined in it. -/
def optionItems (arg : String) : List Item :=
  match arg.toList with
  | '-' :: '-' :: long =>
    let name := String.ofList (long.takeWhile (· ≠ '='))
    match long.dropWhile (· ≠ '=') with
    | [] => [(Flag.ofName? name).elim .unknown .flag]
    | _ :: value => [if name = "fallback-field" then .field (String.ofList value) else .unknown]
  | _ :: letters => letters.map fun c => (Flag.ofLetter? c).elim .unknown .flag
  | [] => []

/-- What arguments say, in order. -/
def items : List String → List Item
  | [] => []
  | "--" :: args => .endOfOptions :: args.map .operand
  | "--fallback-field" :: value :: args =>
    if isOption value then [.unknown] else .field value :: items args
  | arg :: args => (if isOption arg then optionItems arg else [.operand arg]) ++ items args

/-! ### Invocations -/

/-- The subcommands. -/
inductive Command where
  | compile
  | reference
  deriving DecidableEq, Repr

/-- The subcommand with the given name. -/
def Command.ofName? : String → Option Command
  | "compile" => some .compile
  | "syntax" => some .reference
  | _ => none

/-- The items that a subcommand knows. -/
def Command.knows : Command → Item → Bool
  | _, .operand _ | _, .endOfOptions | _, .flag .verbose => true
  | .compile, .flag .pretty | .compile, .flag .tokens | .compile, .flag .tree
  | .compile, .field _ => true
  | _, _ => false

/-- What the items behind a subcommand say together. -/
structure Arguments where
  flags : List Flag := []
  field? : Option String := none
  operand? : Option String := none
  deriving DecidableEq, Repr

/-- Takes one more item.  Nothing can be said twice. -/
def Arguments.add? (a : Arguments) : Item → Option Arguments
  | .flag f => if f ∈ a.flags then none else some { a with flags := f :: a.flags }
  | .field name => if a.field?.isSome then none else some { a with field? := some name }
  | .operand text => if a.operand?.isSome then none else some { a with operand? := some text }
  | .endOfOptions => some a
  | .unknown => none

/-- The arguments of a subcommand, unless it refuses one of them. -/
def Arguments.ofItems? (command : Command) (items : List Item) : Option Arguments :=
  if items.all command.knows then items.foldlM Arguments.add? {} else none

/-- What the command is asked to do. -/
inductive Invocation where
  | version
  | compile (request : Report.Request)
  | reference (topic? : Option String)

/-- The request that arguments make, unless they ask for two views. -/
def Arguments.request? (a : Arguments) : Option Report.Request :=
  let view? : Option Report.View :=
    match decide (.tokens ∈ a.flags), decide (.tree ∈ a.flags) with
    | true, true => none
    | true, false => some .tokens
    | false, true => some .tree
    | false, false => some .filter
  view?.map fun view =>
    { query? := a.operand?
      options := a.field?.elim {} fun name => { fallbackField := name }
      view
      layout := if .pretty ∈ a.flags then .indented else .compact }

/-- What a subcommand is asked to do by its arguments. -/
def Command.invocation? (command : Command) (args : List String) : Option Invocation := do
  let a ← Arguments.ofItems? command (items args)
  match command with
  | .compile => return .compile (← a.request?)
  | .reference => return .reference a.operand?

/-- Whether the items in front of the subcommand ask for the version, unless one before that is
refused. -/
def asksVersion? (seenVerbose : Bool) : List Item → Option Bool
  | [] => some false
  | .flag .version :: _ => some true
  | .flag .verbose :: rest => if seenVerbose then none else asksVersion? true rest
  | _ => none

/-- What the arguments ask for, unless they are refused. -/
def Invocation.ofArgs? (args : List String) : Option Invocation := do
  if ← asksVersion? false (items (args.takeWhile isOption)) then
    return .version
  match args.dropWhile isOption with
  | [] => none
  | name :: rest => (← Command.ofName? name).invocation? rest

/-! ### Running -/

/-- How the command ends: its status, and what it writes. -/
structure Outcome where
  status : Nat
  out : String := ""
  err : String := ""
  deriving DecidableEq, Repr

/-- The outcome of an answer or of a failure. -/
def Outcome.ofAnswer : Except Failure String → Outcome
  | .ok text => { status := 0, out := text }
  | .error failure => { status := 1, err := failure.message ++ "\n" }

/-- The outcome of arguments that are refused. -/
def Outcome.usage : Outcome where
  status := 2
  err :=
    "usage: trove [-v] [-V] compile [QUERY] [--fallback-field FIELD] [--tokens | --tree] [-p]\n" ++
    "       trove [-v] syntax [TOPIC]\n"

/-- The input is wanted: a query is to be compiled, and the arguments have none. -/
def Invocation.wantsInput : Invocation → Bool
  | .compile request => request.query?.isNone
  | _ => false

/-- The text that the input holds. -/
def decodeInput (input : ByteArray) : Except Failure String :=
  match String.fromUTF8? input with
  | some text => .ok text
  | none => .error .notUtf8

/-- The text that an invocation prints. -/
def Invocation.answer (input : ByteArray) : Invocation → Except Failure String
  | .version => .ok "trove 0.1.0\n"
  | .reference none => .ok Reference.overview
  | .reference (some name) => (Reference.lookUp name).map Reference.Topic.text
  | .compile request => do
    let query ← match request.query? with
      | some query => pure query
      | none => decodeInput input
    return (← { request with query? := some query }.answer) ++ "\n"

/-- What the command does with its arguments and its input. -/
def run (args : List String) (input : ByteArray) : Outcome :=
  match Invocation.ofArgs? args with
  | some invocation => .ofAnswer (invocation.answer input)
  | none => .usage

end SearchFilter.CommandLine
