import TypedDoc.CommandLine

/-!
# Sessions

A run of the program in a directory that holds nothing but some files, below a root that holds
what every root does.

What a run leaves to be written can be read at the same path afterwards, with whatever standard
input (`readText_save`). This is a result of its own, and says that one run can take what another
one wrote.
-/

namespace TypedDoc.CommandLine

/-- The directory of a session. -/
def home : Place := ["session", "tmp"]

/-- What a root holds: the devices, and directories of which nothing is known. -/
def usualNodes : List (Place × Node) :=
  [(["null", "dev"], .device .null), (["full", "dev"], .device .full),
   (["stdin", "dev"], .device .input), (["stdout", "dev"], .device .output),
   (["stderr", "dev"], .device .errors)] ++
  ["bin", "etc", "home", "lib", "opt", "proc", "root", "sys", "usr", "var"].map
    fun name => ([name], .directory)

/-- The file system in which a session with some files begins. -/
def fresh (files : List (String × String)) : FileSystem :=
  files.foldl (fun s file => s.put ((file.1.splitOn "/").reverse ++ home) (.file file.2))
    { nodes := (home, .directory) :: usualNodes, home }

/-- The text that a path leads to. -/
def readText (s : FileSystem) (stdin path : String) : Except FileFault String := do
  match ← s.find path with
  | .file text => return text
  | .directory => throw .directory
  | .device .input => return stdin
  | .device _ => return ""

/-- Writes what a response leaves to be written. -/
def save (s : FileSystem) (response : Response) : Response × FileSystem :=
  match response.file with
  | none => (response, s)
  | some (path, text) =>
    match s.target path with
    | .error fault => (.unwritten path fault, s)
    | .ok place =>
      match s.node? place with
      | some (.device .null) | some (.device .input) => (response, s)
      | some (.device .full) => (.unwritten path .full, s)
      | some (.device .output) => ({ response with stdout := text }, s)
      | some (.device .errors) => ({ response with stderr := text }, s)
      | _ => (response, s.put place (.file text))

/-- Runs the program with some arguments and standard input. -/
def run (args : List String) (stdin : String) (s : FileSystem) : Response × FileSystem :=
  match CommandLine.read args with
  | none => (.usage, s)
  | some c =>
    let input := match c.source? with
      | some (some path) => readText s stdin path
      | _ => .ok stdin
    match input with
    | .ok text => save s (c.answer text)
    | .error fault => (c.unread fault, s)

/-- What a response leaves for a path is read there once it is saved, unless the path leads to a
device. -/
theorem readText_save {s : FileSystem} {response : Response} {path text : String} {place : Place}
    (stdin : String) (hf : response.file = some (path, text)) (ht : s.target path = .ok place)
    (hd : ∀ device, s.node? place ≠ some (.device device)) :
    readText (save s response).2 stdin path = .ok text := by
  have hs : (save s response).2 = s.put place (.file text) := by
    simp only [save, hf, ht]
    split
    · next h => exact absurd h (hd _)
    · next h => exact absurd h (hd _)
    · next h => exact absurd h (hd _)
    · next h => exact absurd h (hd _)
    · next h => exact absurd h (hd _)
    · rfl
  rw [hs, readText, FileSystem.find_put _ ht]
  rfl

end TypedDoc.CommandLine
