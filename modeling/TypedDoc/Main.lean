import TypedDoc.CommandLine

/-!
# The program

Reads the arguments, a file or standard input, and writes a file or standard output.
-/

namespace TypedDoc

/-- The number of a system fault, which some operations report negated. -/
def FileFault.number? : IO.Error → Option Nat
  | .noFileOrDirectory _ n _ | .permissionDenied _ n _ | .inappropriateType _ n _
  | .invalidArgument _ n _ | .resourceExhausted _ n _ => some (min n.toNat (0 - n).toNat)
  | _ => none

/-- The fault that the system reports. -/
def FileFault.ofSystem (e : IO.Error) : FileFault :=
  ((FileFault.number? e).bind ofNumber?).getD (.other (toString e))

namespace CommandLine

/-- The bytes of a command's input. -/
def readBytes (source : Option (Option String)) : IO ByteArray :=
  match source with
  | none => return .empty
  | some none => do (← IO.getStdin).readBinToEnd
  | some (some path) => IO.FS.readBinFile path

/-- Prints a response, once its file has been written. -/
def deliver (response : Response) : IO UInt32 := do
  (← IO.getStdout).putStr response.stdout
  (← IO.getStderr).putStr response.stderr
  return response.exit

/-- Carries out a command. -/
def execute (command : Command) : IO UInt32 := do
  let response ←
    try
      match String.fromUTF8? (← readBytes command.source?) with
      | some text => pure (command.answer text)
      | none => pure (command.unread .notText)
    catch e => pure (command.unread (.ofSystem e))
  match response.file with
  | none => deliver response
  | some (path, text) =>
    try
      IO.FS.withFile path .write fun handle => do
        handle.putStr text
        handle.flush
      deliver response
    catch e => deliver (.unwritten path (.ofSystem e))

end CommandLine

end TypedDoc

open TypedDoc.CommandLine in
def main (args : List String) : IO UInt32 :=
  match read args with
  | none => deliver .usage
  | some command => execute command
