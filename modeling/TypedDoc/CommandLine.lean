import TypedDoc.CommandLine.Usage
import TypedDoc.FileSystem
import TypedDoc.Json.Export
import TypedDoc.Reading
import TypedDoc.Value.Text

/-!
# The command line

What the program answers once its arguments are known and its input has been read. Reading and
writing themselves belong to the caller, who says how they went.
-/

namespace TypedDoc.CommandLine

/-- What the program leaves behind: its exit code, what it prints, and a file to be written. -/
structure Response where
  exit : UInt32
  stdout : String := ""
  stderr : String := ""
  /-- The path and the content of a file. -/
  file : Option (String × String) := none

namespace Response

/-- A failure, with what was being done and why it failed. -/
def failure (context cause : String) : Response :=
  { exit := 1, stderr := "Error: " ++ context ++ "\n\nCaused by:\n    " ++ cause ++ "\n" }

/-- Arguments that make no command. -/
def usage : Response := { exit := 2, stderr := helpText }

/-- A file that could not be written. -/
def unwritten (path : String) (fault : FileFault) : Response :=
  failure ("Failed to write file: " ++ path) fault.message

end Response

namespace Command

/-- Where a command's input comes from, if it has one: a file, or else standard input. -/
def source? : Command → Option (Option String)
  | decode options => some options.input
  | inspect input => some input
  | print _ => none

/-- The limits of a command. -/
def limits : Command → Limits
  | decode options => { maxDepth := options.maxDepth.getD ({} : Limits).maxDepth }
  | _ => {}

/-- The text of a document as a command shows it. -/
def render (c : Command) (d : Document) : String :=
  match c with
  | decode options =>
    let json := if options.flat then (Plain.map d.flatten).toJson else d.toJson
    (if options.compact then json.compact else json.pretty) ++ "\n"
  | _ => d.text ++ "\n"

/-- Where the output of a command goes, if not to standard output. -/
def target? : Command → Option String
  | decode options => options.output
  | _ => none

/-- The answer to input that was read. -/
def answer (c : Command) (text : String) : Response :=
  match c with
  | print text => { exit := 0, stdout := text }
  | c =>
    match Document.read c.limits text with
    | .error e => .failure "Failed to decode XML document" e.message
    | .ok d =>
      match c.target? with
      | some path => { exit := 0, file := some (path, c.render d) }
      | none => { exit := 0, stdout := c.render d }

/-- The answer to input that could not be read. -/
def unread (c : Command) (fault : FileFault) : Response :=
  match c.source? with
  | some (some path) => .failure ("Failed to read file: " ++ path) fault.message
  | _ => .failure "Failed to read from stdin" fault.message

end Command

end TypedDoc.CommandLine
