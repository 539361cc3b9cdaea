/-!
# File systems

Files, devices and directories at places below a root, and the paths that lead to them. A path is
followed part by part from the root or from a home directory, and every part needs a directory to
leave from (`step`). To write, a path must lead to a name: a slash or a dot at its end asks for a
directory (`target`).

Reading and writing follow a path in different ways, so it takes a proof that they agree. Where a
path leads for writing it also leads for reading (`follow_of_target`), and what is put there leaves
every step on the way as it was (`step_put`), so what is written at a path is found there
(`find_put`). This is a result of its own: no answer of the program rests on it.
-/

namespace TypedDoc

/-- Why a file cannot be read or written. -/
inductive FileFault where
  | missing
  | forbidden
  | notDirectory
  | directory
  | full
  | nameTooLong
  /-- The bytes are no text in UTF-8. -/
  | notText
  /-- Any other fault, in the words of the system. -/
  | other (words : String)
deriving DecidableEq

namespace FileFault

/-- The text of a file fault, with the number that the system gives it. -/
def message : FileFault → String
  | missing => "No such file or directory (os error 2)"
  | forbidden => "Permission denied (os error 13)"
  | notDirectory => "Not a directory (os error 20)"
  | directory => "Is a directory (os error 21)"
  | full => "No space left on device (os error 28)"
  | nameTooLong => "File name too long (os error 36)"
  | notText => "stream did not contain valid UTF-8"
  | other words => words

/-- The fault with a number of the system. -/
def ofNumber? : Nat → Option FileFault
  | 2 => some missing
  | 13 => some forbidden
  | 20 => some notDirectory
  | 21 => some directory
  | 28 => some full
  | 36 => some nameTooLong
  | _ => none

end FileFault

/-- What a program can read and write without leaving anything in a file. -/
inductive Device where
  /-- Nothing to be read, and room for everything. -/
  | null
  /-- No room for anything. -/
  | full
  /-- The streams that every program has. -/
  | input
  | output
  | errors
deriving DecidableEq

/-- What a path can lead to. -/
inductive Node where
  | directory
  | file (text : String)
  | device (device : Device)
deriving DecidableEq

/-- The names on the way from a node up to the root. -/
abbrev Place := List String

/-- The nodes that have been put at some places, the last one first, and the directory from which
paths are followed that do not begin at the root. -/
structure FileSystem where
  nodes : List (Place × Node)
  home : Place

namespace FileSystem

/-- The longest name, in bytes. -/
def maxName : Nat := 255

/-- The longest path, in bytes. -/
def maxPath : Nat := 4095

/-- The node at a place. On the way to a node there are directories. -/
def node? (s : FileSystem) (place : Place) : Option Node :=
  match s.nodes.lookup place with
  | some node => some node
  | none => if s.nodes.any fun e => place.isSuffixOf e.1 then some .directory else none

/-- Puts a node at a place. -/
def put (s : FileSystem) (place : Place) (node : Node) : FileSystem :=
  { s with nodes := (place, node) :: s.nodes }

/-- The place to which one part of a path leads, whether or not there is a node. The root is its
own parent. -/
def step (s : FileSystem) (place : Place) (part : String) : Except FileFault Place :=
  match s.node? place with
  | none => .error .missing
  | some .directory =>
    if part = "" ∨ part = "." then .ok place
    else if part = ".." then .ok place.tail
    else if maxName < part.utf8ByteSize then .error .nameTooLong
    else .ok (part :: place)
  | some _ => .error .notDirectory

/-- The place to which parts lead, one after the other. -/
def walk (s : FileSystem) : Place → List String → Except FileFault Place
  | place, [] => .ok place
  | place, part :: parts =>
    match s.step place part with
    | .ok next => walk s next parts
    | .error fault => .error fault

/-- The directory in which a path begins and the parts between its slashes. -/
def split (s : FileSystem) (path : String) : Except FileFault (Place × List String) :=
  if path.isEmpty then .error .missing
  else if maxPath < path.utf8ByteSize then .error .nameTooLong
  else .ok (if path.startsWith "/" then [] else s.home, path.splitOn "/")

/-- The place to which a path leads. -/
def follow (s : FileSystem) (path : String) : Except FileFault Place := do
  let (start, parts) ← s.split path
  s.walk start parts

/-- The node to which a path leads. -/
def find (s : FileSystem) (path : String) : Except FileFault Node := do
  match s.node? (← s.follow path) with
  | some node => return node
  | none => throw .missing

/-- Whether a part of a path is a name of its own. -/
def isName (part : String) : Bool := part != "" && part != "." && part != ".."

/-- The parts of a path before its last name, from the last one to the first: slashes at the end
do not count. -/
def beforeLast (backwards : List String) : List String := (backwards.dropWhile (·.isEmpty)).tail

/-- The place to which a path leads for writing, where there may be nothing yet. -/
def target (s : FileSystem) (path : String) : Except FileFault Place := do
  let (start, parts) ← s.split path
  let parent ← s.walk start (beforeLast parts.reverse).reverse
  let here ← s.step parent "."
  match parts.getLast? with
  | some name =>
    if isName name then
      let place ← s.step here name
      if s.node? place = some .directory then throw .directory
      return place
    else throw .directory
  | none => throw .directory

/-! ## What is written is found -/

theorem node?_put (s : FileSystem) (place : Place) (node : Node) :
    (s.put place node).node? place = some node := by
  simp [node?, put]

theorem node?_put_of_ne {s : FileSystem} {place other : Place} {node found : Node}
    (hne : other ≠ place) (h : s.node? other = some found) :
    (s.put place node).node? other = some found := by
  have hl : (s.put place node).nodes.lookup other = s.nodes.lookup other := by
    rw [put, List.lookup_cons, beq_false_of_ne hne]
  simp only [node?, hl] at h ⊢
  split at h
  · exact h
  · split at h
    · next ha => rw [if_pos (by simp [put, ha])]; exact h
    · cases h

/-- What is put where no directory is leaves every step as it was. -/
theorem step_put {s : FileSystem} {place start next : Place} {part : String} (node : Node)
    (hd : s.node? place ≠ some .directory) (h : s.step start part = .ok next) :
    (s.put place node).step start part = .ok next := by
  have hs : s.node? start = some .directory := by
    simp only [step] at h
    split at h
    · cases h
    · assumption
    · cases h
  have hne : start ≠ place := fun e => hd (e ▸ hs)
  rw [← h]
  simp only [step, hs, node?_put_of_ne hne hs]

theorem walk_put {s : FileSystem} {place : Place} (node : Node)
    (hd : s.node? place ≠ some .directory) :
    ∀ (parts : List String) {start last : Place}, s.walk start parts = .ok last →
      (s.put place node).walk start parts = .ok last
  | [], _, _, h => h
  | part :: parts, start, last, h => by
    simp only [walk] at h ⊢
    split at h
    · next hs => simp only [step_put node hd hs]; exact walk_put node hd parts h
    · cases h

theorem walk_append (s : FileSystem) (ys : List String) :
    ∀ (xs : List String) {start next : Place}, s.walk start xs = .ok next →
      s.walk start (xs ++ ys) = s.walk next ys
  | [], _, _, h => by cases h; rfl
  | x :: xs, start, next, h => by
    simp only [walk, List.cons_append] at h ⊢
    split at h
    · next hs => exact walk_append s ys xs h
    · cases h

/-- A step that stays leads to where it started. -/
theorem eq_of_step_dot {s : FileSystem} {start next : Place} (h : s.step start "." = .ok next) :
    next = start := by
  simp only [step] at h
  split at h
  · cases h
  · simpa using h.symm
  · cases h

theorem beforeLast_of_isName {name : String} (h : isName name = true) (rest : List String) :
    beforeLast (name :: rest) = rest := by
  have hn : name.isEmpty = false := by
    rw [Bool.eq_false_iff]
    intro he
    rw [String.isEmpty_iff.1 he] at h
    simp [isName] at h
  rw [beforeLast, List.dropWhile_cons_of_neg (by simp [hn]), List.tail_cons]

/-- Where a path leads for writing it leads for reading. -/
theorem follow_of_target {s : FileSystem} {path : String} {place : Place}
    (h : s.target path = .ok place) :
    s.follow path = .ok place ∧ s.node? place ≠ some .directory := by
  simp only [target, follow] at h ⊢
  rcases hs : s.split path with fault | ⟨start, parts⟩
  · rw [hs] at h; cases h
  rw [hs] at h
  simp only [bind, Except.bind] at h ⊢
  split at h
  · cases h
  next parent hp =>
  split at h
  · cases h
  next here hh =>
  split at h
  · next name hn =>
    split at h
    · next hname =>
      split at h
      · cases h
      next last hl =>
      split at h
      · cases h
      next hd =>
      cases h
      obtain ⟨inner, rfl⟩ := List.getLast?_eq_some_iff.1 hn
      rw [List.reverse_append, List.reverse_singleton, List.singleton_append,
        beforeLast_of_isName hname, List.reverse_reverse] at hp
      rw [eq_of_step_dot hh] at hl
      refine ⟨?_, hd⟩
      rw [walk_append s [name] inner hp]
      simp only [walk, hl]
    · cases h
  · cases h

/-- What is put where a path leads for writing is found at the path. -/
theorem find_put {s : FileSystem} {path : String} {place : Place} (node : Node)
    (h : s.target path = .ok place) : (s.put place node).find path = .ok node := by
  obtain ⟨hf, hd⟩ := follow_of_target h
  have hf' : (s.put place node).follow path = .ok place := by
    simp only [follow] at hf ⊢
    have hs : (s.put place node).split path = s.split path := rfl
    rw [hs]
    rcases he : s.split path with fault | ⟨start, parts⟩
    · rw [he] at hf; cases hf
    · rw [he] at hf
      exact walk_put node hd parts hf
  simp [find, hf', node?_put, bind, Except.bind, pure, Except.pure]

end FileSystem

end TypedDoc
