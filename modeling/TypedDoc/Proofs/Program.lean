import Mathlib.Data.List.Basic
import Mathlib.Logic.Function.Basic
import TypedDoc.Document

/-!
# Programs on documents

A program keeps documents by number and calls their operations one after another, on whichever
document it likes. What it sees are the answers. How the documents are kept is a parameter
(`Representation`), so that two ways of keeping them can be run side by side: if they agree on
what is made and on each call, they agree on every program (`runFrom_rel`).
-/

namespace TypedDoc

/-- What can be called on a document. A reference into the document is used at once, to replace
the value behind it by another one that may depend on it. -/
inductive Operation where
  | set (key : String) (value : Value)
  | setDefault (key : String) (default : Value) (write : Value → Value)
  | modify (key : String) (write : Value → Value)
  | delete (key : String)
  | pop (key : String)
  | popD (key : String) (default : Value)
  | popWith (key : String) (defaults : List Value)
  | popItem
  | clear
  | extend (ps : List (String × Value))
  | update (source : Source)
  | updateWith (source : Option Source) (overrides : List (String × Value))
  /-- A step of the iterator that takes the pairs out. -/
  | next
  | size
  | isEmpty
  | contains (key : String)
  | get? (key : String)
  | getD (key : String) (default : Value)
  | get (key : String)
  | keys
  | values
  | items

/-- What an operation gives back. -/
inductive Answer where
  | done (r : Except Error Unit)
  | found (v : Option Value)
  | value (r : Except Error Value)
  | first (p : Option (String × Value))
  | pair (r : Except Error (String × Value))
  | size (n : Nat)
  | truth (b : Bool)
  | keys (ks : List String)
  | values (vs : List Value)
  | items (ps : List (String × Value))

def Operation.run (d : Document) : Operation → Answer × Document
  | set key value => (d.put key value).map .found id
  | setDefault key default write =>
    (.value (.ok (d.setDefault key default).1),
      ((d.setDefault key default).2.modify key fun v => (v, write v)).2)
  | modify key write => (d.modify key fun v => (v, write v)).map .found id
  | delete key => (d.delete key).map .done id
  | pop key => (d.pop key).map .value id
  | popD key default => (d.popD key default).map (.value ∘ .ok) id
  | popWith key defaults => (d.popWith key defaults).map .value id
  | popItem => d.popItem.map .pair id
  | clear => (.done (.ok ()), d.clear)
  | extend ps => (.done (.ok ()), d.extend ps)
  | update source => (Document.update d source).map .done id
  | updateWith source overrides => (Document.updateWith d source overrides).map .done id
  | next => d.takeFirst.map .first id
  | size => (.size d.size, d)
  | isEmpty => (.truth d.isEmpty, d)
  | contains key => (.truth (d.contains key), d)
  | get? key => (.found (d.get? key), d)
  | getD key default => (.value (.ok (d.getD key default)), d)
  | get key => (.value (d.get key), d)
  | keys => (.keys d.keys, d)
  | values => (.values d.values, d)
  | items => (.items d.items, d)

/-- Where a document can come from. -/
inductive Maker where
  | empty
  | ofPairs (ps : List (String × Value))
  | ofMapping (m : Mapping)

def Maker.run : Maker → Except Error Document
  | empty => .ok .empty
  | ofPairs ps => .ok (.ofPairs ps)
  | ofMapping m => Document.ofMapping m

/-- What a program does next with its documents. -/
inductive Action where
  | make (i : Nat) (maker : Maker)
  | copy (i j : Nat)
  | call (i : Nat) (op : Operation)

/-- A way to keep documents. -/
structure Representation where
  Doc : Type
  empty : Doc
  make : Maker → Except Error Doc
  call : Doc → Operation → Answer × Doc

namespace Representation

/-- Documents as they are. -/
def documents : Representation := ⟨Document, .empty, Maker.run, Operation.run⟩

variable (R : Representation)

def step (s : Nat → R.Doc) : Action → Answer × (Nat → R.Doc)
  | .make i maker =>
    match R.make maker with
    | .ok d => (.done (.ok ()), Function.update s i d)
    | .error e => (.done (.error e), s)
  | .copy i j => (.done (.ok ()), Function.update s i (s j))
  | .call i op => ((R.call (s i) op).1, Function.update s i (R.call (s i) op).2)

/-- The answers of a program and its documents at the end. -/
def runFrom (s : Nat → R.Doc) : List Action → List Answer × (Nat → R.Doc)
  | [] => ([], s)
  | a :: as => ((R.step s a).1 :: (runFrom (R.step s a).2 as).1, (runFrom (R.step s a).2 as).2)

/-- A run that starts with nothing but empty documents. -/
def run (as : List Action) : List Answer × (Nat → R.Doc) := R.runFrom (fun _ => R.empty) as

variable {R} {T : Representation}

/-- Two representations with the same answers: what they make is related, or fails alike, and a
call keeps related documents related. -/
structure Simulates (S : R.Doc → T.Doc → Prop) : Prop where
  empty : S R.empty T.empty
  make : ∀ maker, (∃ e, R.make maker = .error e ∧ T.make maker = .error e)
    ∨ ∃ d e, R.make maker = .ok d ∧ T.make maker = .ok e ∧ S d e
  call : ∀ d e op, S d e → (R.call d op).1 = (T.call e op).1 ∧ S (R.call d op).2 (T.call e op).2

theorem update_rel {S : R.Doc → T.Doc → Prop} {s : Nat → R.Doc} {t : Nat → T.Doc}
    (hs : ∀ i, S (s i) (t i)) {d : R.Doc} {e : T.Doc} (hd : S d e) (i k : Nat) :
    S (Function.update s i d k) (Function.update t i e k) := by
  by_cases hk : k = i
  · subst hk
    rw [Function.update_self, Function.update_self]
    exact hd
  · rw [Function.update_of_ne hk, Function.update_of_ne hk]
    exact hs k

theorem step_rel {S : R.Doc → T.Doc → Prop} (hS : Simulates S) {s : Nat → R.Doc}
    {t : Nat → T.Doc} (hs : ∀ i, S (s i) (t i)) (a : Action) :
    (R.step s a).1 = (T.step t a).1 ∧ ∀ i, S ((R.step s a).2 i) ((T.step t a).2 i) := by
  cases a with
  | make i maker =>
    rcases hS.make maker with ⟨e, hR, hT⟩ | ⟨d, e, hR, hT, hd⟩ <;> simp only [step, hR, hT]
    · exact ⟨trivial, hs⟩
    · exact ⟨trivial, update_rel hs hd i⟩
  | copy i j => exact ⟨rfl, update_rel hs (hs j) i⟩
  | call i op =>
    obtain ⟨ha, hd⟩ := hS.call _ _ op (hs i)
    exact ⟨ha, update_rel hs hd i⟩

theorem runFrom_rel {S : R.Doc → T.Doc → Prop} (hS : Simulates S) :
    ∀ (as : List Action) (s : Nat → R.Doc) (t : Nat → T.Doc), (∀ i, S (s i) (t i)) →
      (R.runFrom s as).1 = (T.runFrom t as).1
        ∧ ∀ i, S ((R.runFrom s as).2 i) ((T.runFrom t as).2 i)
  | [], _, _, hs => ⟨rfl, hs⟩
  | a :: as, _, _, hs => by
    obtain ⟨ha, hs'⟩ := step_rel hS hs a
    obtain ⟨has, hd⟩ := runFrom_rel hS as _ _ hs'
    exact ⟨by simp only [runFrom, ha, has], hd⟩

theorem run_rel {S : R.Doc → T.Doc → Prop} (hS : Simulates S) (as : List Action) :
    (R.run as).1 = (T.run as).1 ∧ ∀ i, S ((R.run as).2 i) ((T.run as).2 i) :=
  runFrom_rel hS as _ _ fun _ => hS.empty

/-- What holds of every document that is made, and is kept by every call, holds of every document
of a program. -/
theorem run_induct {P : R.Doc → Prop} (hempty : P R.empty)
    (hmake : ∀ maker d, R.make maker = .ok d → P d)
    (hcall : ∀ d op, P d → P (R.call d op).2) (as : List Action) (i : Nat) :
    P ((R.run as).2 i) := by
  have hS : Simulates (R := R) (T := R) fun d e => d = e ∧ P d := by
    refine ⟨⟨rfl, hempty⟩, fun maker => ?_, ?_⟩
    · rcases hm : R.make maker with e | d
      · exact .inl ⟨e, rfl, rfl⟩
      · exact .inr ⟨d, d, rfl, rfl, rfl, hmake maker d hm⟩
    · rintro d _ op ⟨rfl, hd⟩
      exact ⟨rfl, rfl, hcall d op hd⟩
  exact ((run_rel hS as).2 i).2

end Representation

end TypedDoc
