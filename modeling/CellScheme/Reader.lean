import CellScheme.Token

/-!
Reading expressions from tokens. The reader takes one token at a time and keeps the lists and
quotes that are still open, so that it stops at the first token that no continuation could mend,
and input is incomplete exactly if something is open when the tokens run out.
-/

namespace CellScheme

/-- An expression that has begun and not ended: a list with the elements read so far, last first,
or a quote before its expression. -/
inductive Opened where
  | list (done : List Datum)
  | quote
deriving Repr, Inhabited

/-- What has been read: the open expressions, innermost first, and the finished top-level ones,
last first. -/
structure Reading where
  opened : List Opened
  done : List Datum
deriving Repr, Inhabited

inductive ReadFailure where
  | failed (cause : ParseFailure)
  | incomplete
deriving Repr

namespace Reading

def start : Reading := ⟨[], []⟩

/-- Hand a finished expression to what it stands in. A quote is finished by it. -/
def deliver (d : Datum) (done : List Datum) : List Opened → Reading
  | [] => ⟨[], d :: done⟩
  | .quote :: rest => deliver (.quote d) done rest
  | .list xs :: rest => ⟨.list (d :: xs) :: rest, done⟩

def atomDatum (cls : AtomClass) (cs : List Char) (offset : Nat) : Except ParseFailure Datum :=
  match cls with
  | .decimal =>
    match Text.int64? (Text.intOfLiteral cs) with
    | some v => .ok (.int v)
    | none => .error (.literalOutOfRange (String.ofList cs) offset)
  | .bool => .ok (.bool (cs = "true".toList))
  | .symbol => .ok (.symbol (Name.ofString (String.ofList cs)))

def feed (r : Reading) : Token → Except ParseFailure Reading
  | .opening _ => .ok ⟨.list [] :: r.opened, r.done⟩
  | .quote _ => .ok ⟨.quote :: r.opened, r.done⟩
  | .atom cls cs offset => (atomDatum cls cs offset).map fun d => deliver d r.done r.opened
  | .closing offset =>
    match r.opened with
    | .list xs :: rest => .ok (deliver (.list xs.reverse) r.done rest)
    | _ => .error (.strayClose offset)

def feedAll (r : Reading) : List Token → Except ParseFailure Reading
  | [] => .ok r
  | t :: ts =>
    match r.feed t with
    | .error e => .error e
    | .ok r => r.feedAll ts

theorem feedAll_append (r : Reading) (ts us : List Token) :
    r.feedAll (ts ++ us) =
      match r.feedAll ts with
      | .error e => .error e
      | .ok r => r.feedAll us := by
  induction ts generalizing r with
  | nil => rfl
  | cons t ts ih =>
      simp only [List.cons_append, feedAll]
      cases r.feed t with
      | error e => rfl
      | ok r => exact ih r

def finish (r : Reading) : Except ReadFailure (List Datum) :=
  match r.opened with
  | [] => .ok r.done.reverse
  | _ :: _ => .error .incomplete

end Reading

namespace Datum

def readAll (text : String) : Except ReadFailure (List Datum) :=
  match Token.tokens text with
  | .error e => .error (.failed e)
  | .ok ts =>
    match Reading.start.feedAll ts with
    | .error e => .error (.failed e)
    | .ok r => r.finish

/-- Whether the text only lacks a continuation: nothing in it is wrong, and a list or a quote is
open at its end. -/
def isIncomplete (text : String) : Bool :=
  match readAll text with
  | .error .incomplete => true
  | _ => false

/-- Read every top-level expression; blank text gives none. -/
def parseAll (text : String) : Except Failure (List Datum) :=
  match readAll text with
  | .ok ds => .ok ds
  | .error .incomplete => .error (.parse (.unexpectedEnd text))
  | .error (.failed e) => .error (.parse e)

def parse (text : String) : Except Failure Datum :=
  match parseAll text with
  | .error e => .error e
  | .ok [d] => .ok d
  | .ok ds => .error (.parse (.notOneExpression ds.length text))

end Datum

end CellScheme
