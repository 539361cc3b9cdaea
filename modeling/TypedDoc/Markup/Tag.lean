import TypedDoc.Markup.Name

/-!
# Tags

What stands between the brackets of a start tag: the name of the element and its attributes, each
after a blank, with their values still as they were written.
-/

namespace TypedDoc.Markup

/-- An attribute as it was written. -/
structure RawAttribute where
  name : QName
  value : List Char

/-- A start tag. -/
structure Tag where
  name : QName
  attributes : List RawAttribute
  /-- Whether the element ends with its tag. -/
  isEmpty : Bool

namespace RawAttribute

/-- A value in quotes of either kind, without less-than signs, and what follows it. -/
def readValue (cs : List Char) : Except Fault (List Char × List Char) :=
  match cs with
  | [] => .error .invalidAttribute
  | q :: cs =>
    let inside (c : Char) : Bool := c != q && c != '<'
    match cs.dropWhile inside with
    | [] => .error .invalidAttribute
    | c :: rest =>
      if (q == '"' || q == '\'') && c == q then .ok (cs.takeWhile inside, rest)
      else .error .invalidAttribute

/-- A name, an equals sign and a value, and what follows them. -/
def read (cs : List Char) : Except Fault (RawAttribute × List Char) :=
  match QName.read cs with
  | .error fault => .error fault
  | .ok (name, cs) =>
    match cs.dropWhile isSpace with
    | '=' :: cs => (readValue (cs.dropWhile isSpace)).map fun v => (⟨name, v.1⟩, v.2)
    | _ => .error .invalidAttribute

theorem length_dropWhile_le (p : Char → Bool) (cs : List Char) :
    (cs.dropWhile p).length ≤ cs.length := (List.dropWhile_sublist p).length_le

theorem length_readValue {cs value rest : List Char} (h : readValue cs = .ok (value, rest)) :
    rest.length < cs.length := by
  unfold readValue at h
  split at h
  · simp at h
  · next q cs =>
    dsimp only at h
    split at h
    · simp at h
    · next c rest' hd =>
      split at h
      · simp only [Except.ok.injEq, Prod.mk.injEq] at h
        have := length_dropWhile_le (fun c => c != q && c != '<') cs
        rw [hd, List.length_cons] at this
        rw [← h.2, List.length_cons]
        omega
      · simp at h

theorem length_read {cs rest : List Char} {a : RawAttribute} (h : read cs = .ok (a, rest)) :
    rest.length < cs.length := by
  unfold read at h
  split at h
  · simp at h
  · next name cs' hn =>
    have h1 : cs'.length ≤ cs.length := by
      unfold QName.read at hn
      split at hn
      · simp only [Except.ok.injEq, Prod.mk.injEq] at hn
        rw [← hn.2]
        exact length_dropWhile_le _ _
      · simp at hn
    split at h
    · next cs'' hd =>
      have h2 := length_dropWhile_le isSpace cs'
      rw [hd, List.length_cons] at h2
      have h3 := length_dropWhile_le isSpace cs''
      cases hv : readValue (cs''.dropWhile isSpace) with
      | error f => simp [hv, Except.map] at h
      | ok v =>
        have h4 : v.2.length < (cs''.dropWhile isSpace).length := length_readValue hv
        simp only [hv, Except.map, Except.ok.injEq, Prod.mk.injEq] at h
        rw [← h.2]
        omega
    · simp at h

/-- The attributes in a text, each after a blank, after some others in reverse. -/
def readAll (done : List RawAttribute) (cs : List Char) : Except Fault (List RawAttribute) :=
  if (cs.dropWhile isSpace).isEmpty then .ok done.reverse
  else if !cs.head?.any isSpace then .error .invalidTag
  else
    match _h : read (cs.dropWhile isSpace) with
    | .error fault => .error fault
    | .ok (a, rest) => readAll (a :: done) rest
termination_by cs.length
decreasing_by exact Nat.lt_of_lt_of_le (length_read _h) (length_dropWhile_le _ _)

end RawAttribute

/-- A start tag from what stands between its brackets. -/
def Tag.read (body : List Char) : Except Fault Tag := do
  let isEmpty := body.getLast? == some '/'
  let (name, rest) ← QName.read (if isEmpty then body.dropLast else body)
  return ⟨name, ← RawAttribute.readAll [] rest, isEmpty⟩

end TypedDoc.Markup
