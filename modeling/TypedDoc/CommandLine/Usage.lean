import TypedDoc.Decode

/-!
# Usage

The arguments of the program: a command and its options. An option that takes a value has it after
an equals sign, right after its letter, or as the next argument, which then does not start with a
hyphen. No option is given twice. Arguments are taken from left to right, so that a request for help
counts only if nothing before it is wrong.
-/

namespace TypedDoc.CommandLine

/-- The options of decoding. -/
structure DecodeOptions where
  input : Option String := none
  output : Option String := none
  flat : Bool := false
  compact : Bool := false
  maxDepth : Option Nat := none
deriving DecidableEq

/-- What the program is asked to do. -/
inductive Command where
  | decode (options : DecodeOptions)
  | inspect (input : Option String)
  /-- Prints a text about the program. -/
  | print (text : String)
deriving DecidableEq

/-- The commands that take options. -/
inductive Verb where
  | decode
  | inspect
deriving DecidableEq

def versionText : String := "son 0.1.0\n"

def helpText : String :=
  "Decode XML-encoded SON documents\n\nUsage: son <COMMAND>\n\nCommands:\n" ++
  "  decode   Decode an XML document to JSON\n" ++
  "  inspect  Print the ordered debug representation of a document\n" ++
  "  help     Print this message or the help of the given subcommand(s)\n\nOptions:\n" ++
  "  -h, --help     Print help\n" ++
  "  -V, --version  Print version\n"

/-- The help on a command. -/
def Verb.helpText : Verb → String
  | decode =>
    "Decode an XML document to JSON\n\nUsage: son decode [OPTIONS]\n\nOptions:\n" ++
    "  -i, --input <INPUT>          Input file (reads from stdin if omitted)\n" ++
    "  -o, --output <OUTPUT>        Output file (writes to stdout if omitted)\n" ++
    "      --flat                   Flatten to plain maps and lists before rendering\n" ++
    "      --compact                Emit compact JSON instead of pretty-printed\n" ++
    "      --max-depth <MAX_DEPTH>  Maximum element nesting depth [default: 100]\n" ++
    "  -h, --help                   Print help\n"
  | inspect =>
    "Print the ordered debug representation of a document\n\n" ++
    "Usage: son inspect [OPTIONS]\n\nOptions:\n" ++
    "  -i, --input <INPUT>  Input file (reads from stdin if omitted)\n" ++
    "  -h, --help           Print help\n"

/-- The help on asking for help. -/
def helpOnHelp : String :=
  "Print this message or the help of the given subcommand(s)\n\n" ++
  "Usage: son help [COMMAND]...\n\nArguments:\n" ++
  "  [COMMAND]...  Print help for the subcommand(s)\n"

/-- An option of some command. -/
inductive Setting where
  | input
  | output
  | maxDepth
  | flat
  | compact
  | help
deriving DecidableEq

namespace Setting

/-- Whether a command has an option. -/
def belongsTo (s : Setting) : Verb → Bool
  | .decode => true
  | .inspect => s == input || s == help

/-- The option with a long name. -/
def ofName? : String → Option Setting
  | "input" => some input
  | "output" => some output
  | "max-depth" => some maxDepth
  | "flat" => some flat
  | "compact" => some compact
  | "help" => some help
  | _ => none

/-- The option with a letter. -/
def ofLetter? : Char → Option Setting
  | 'i' => some input
  | 'o' => some output
  | 'h' => some help
  | _ => none

/-- Whether an option takes a value. -/
def takesValue : Setting → Bool
  | input | output | maxDepth => true
  | flat | compact | help => false

/-- Gives an option its value; `none` if it has one already or the value is no number where a number
belongs. -/
def assign (s : Setting) (value : String) (o : DecodeOptions) : Option DecodeOptions :=
  match s with
  | input => if o.input.isSome then none else some { o with input := some value }
  | output => if o.output.isSome then none else some { o with output := some value }
  | maxDepth =>
    if o.maxDepth.isSome then none
    else (Numeral.Integer.readIndex? value.toList).map fun n => { o with maxDepth := some n }
  | flat | compact | help => none

/-- Sets an option without a value, once. -/
def turnOn (s : Setting) (o : DecodeOptions) : Option DecodeOptions :=
  match s with
  | flat => if o.flat then none else some { o with flat := true }
  | compact => if o.compact then none else some { o with compact := true }
  | _ => none

end Setting

/-- What one argument says. -/
inductive Argument where
  | plain
  /-- Two hyphens alone: nothing that follows is an option. -/
  | ending
  | setting (s : Setting) (value : Option String)
  | unknown

namespace Argument

/-- An option by its long name, perhaps with a value after an equals sign. -/
def ofLong (cs : List Char) : Argument :=
  match Setting.ofName? (String.ofList (cs.takeWhile (· != '='))) with
  | none => unknown
  | some s =>
    match cs.dropWhile (· != '=') with
    | [] => setting s none
    | _ :: value => setting s (some (String.ofList value))

/-- An option by its letter. What follows the letter is the value of an option that takes one. -/
def ofShort (letter : Char) (cs : List Char) : Argument :=
  match Setting.ofLetter? letter with
  | none => unknown
  | some s =>
    if !s.takesValue then setting s none
    else
      match cs with
      | [] => setting s none
      | '=' :: value => setting s (some (String.ofList value))
      | value => setting s (some (String.ofList value))

def ofString (a : String) : Argument :=
  match a.toList with
  | ['-', '-'] => ending
  | '-' :: '-' :: cs => ofLong cs
  | '-' :: letter :: cs => ofShort letter cs
  | _ => plain

end Argument

/-- The command that a verb and its options make. -/
def Verb.command (v : Verb) (o : DecodeOptions) : Command :=
  match v with
  | decode => .decode o
  | inspect => .inspect o.input

/-- Reads the options of a command; one of them may still wait for its value. -/
def Verb.read (v : Verb) (o : DecodeOptions) (waiting : Option Setting) :
    List String → Option Command
  | [] => if waiting.isSome then none else some (v.command o)
  | a :: rest =>
    match waiting, Argument.ofString a with
    | some s, .plain => do v.read (← s.assign a o) none rest
    | some _, _ => none
    | none, .plain => none
    | none, .unknown => none
    | none, .ending => if rest.isEmpty then some (v.command o) else none
    | none, .setting s value =>
      if !s.belongsTo v then none
      else
        match s.takesValue, value with
        | true, some value => do v.read (← s.assign value o) none rest
        | true, none => v.read o (some s) rest
        | false, some _ => none
        | false, none =>
          if s = .help then some (.print v.helpText) else do v.read (← s.turnOn o) none rest

/-- The help that is asked for by the names of commands. -/
def helpOn : List String → Option Command
  | [] => some (.print helpText)
  | ["decode"] => some (.print Verb.decode.helpText)
  | ["inspect"] => some (.print Verb.inspect.helpText)
  | ["help"] => some (.print helpOnHelp)
  | _ => none

/-- The command that the arguments ask for. -/
def read (args : List String) : Option Command :=
  match args with
  | "decode" :: rest => Verb.decode.read {} none rest
  | "inspect" :: rest => Verb.inspect.read {} none rest
  | "help" :: rest => helpOn rest
  | "--help" :: _ => some (.print helpText)
  | "--version" :: _ => some (.print versionText)
  | a :: _ =>
    if a.startsWith "-h" then some (.print helpText)
    else if a.startsWith "-V" then some (.print versionText)
    else none
  | [] => none

end TypedDoc.CommandLine
