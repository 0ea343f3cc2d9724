import CellScheme.Datum.Basic
import CellScheme.Pack.Reader
import CellScheme.Pack.Writer

/-!
The definitions of an image: an array of pairs of a name and an expression. An expression is an
array of a tag and what belongs to its kind.
-/

namespace CellScheme

inductive ImageError where
  | pack (cause : Pack.Error)
  | definitionFields (found : Nat)
  | nodeFields (found : Nat)
  | unknownTag (tag : Int64)
  | lambdaFields (found : Nat)
  | overbound (bound params : Nat)
deriving DecidableEq, Repr

def ImageError.message : ImageError → String
  | pack cause => cause.message
  | definitionFields found => "definition has " ++ Text.natText found ++ " fields, want 2"
  | nodeFields found => "node has " ++ Text.natText found ++ " fields, want at least 2"
  | unknownTag tag => "unknown node tag " ++ Text.intText tag.toInt
  | lambdaFields found => "lambda node has " ++ Text.natText found ++ " fields, want 4"
  | overbound bound params =>
    "lambda binds " ++ Text.natText bound ++ " arguments but has " ++ Text.natText params ++
      " parameters"

def Kind.tag : Kind → Int64
  | int => 0
  | bool => 1
  | symbol => 2
  | quote => 3
  | list => 4
  | lambda => 5
  | builtin => 6

namespace Datum

/-- The header and the tag of a node with this many fields. -/
def packHead (fields : Nat) (k : Kind) : Bytes :=
  Pack.arrayHeader fields ++ Pack.int k.tag.toInt

mutual
def pack : Datum → Bytes
  | .int v => packHead 2 .int ++ Pack.int v.toInt
  | .bool b => packHead 2 .bool ++ Pack.bool b
  | .symbol name => packHead 2 .symbol ++ Pack.string name.bytes
  | .builtin name => packHead 2 .builtin ++ Pack.string name.bytes
  | .quote d => packHead 2 .quote ++ d.pack
  | .list xs => packHead 2 .list ++ Pack.arrayHeader xs.length ++ packSeq xs
  | .lambda bound params body =>
    packHead 4 .lambda ++ Pack.arrayHeader bound.length ++ packSeq bound ++
      Pack.arrayHeader params.length ++ (params.flatMap fun p => Pack.string p.bytes) ++ body.pack
termination_by structural d => d

def packSeq : List Datum → Bytes
  | [] => []
  | x :: xs => x.pack ++ packSeq xs
termination_by structural xs => xs
end

/-- An absent expression is written as nil, which no reader of expressions accepts. -/
def packOption : Option Datum → Bytes
  | none => Pack.nil
  | some d => d.pack

/-- Expressions are read from bytes; the result is paired with the bytes left. -/
abbrev Unpacked (α : Type) := Except ImageError (α × Bytes)

def lift {α : Type} (r : Pack.Result α) : Unpacked α :=
  r.mapError .pack

def unpackNames : Nat → Bytes → Unpacked (List Name)
  | 0, bs => .ok ([], bs)
  | n + 1, bs =>
    match lift (Pack.readString bs) with
    | .error e => .error e
    | .ok (s, bs) => (unpackNames n bs).map fun (ss, rest) => (⟨s⟩ :: ss, rest)

mutual
/-- Read one expression. The fuel bounds the nested calls; each takes a byte at least. -/
def unpackFuel : Nat → Bytes → Unpacked Datum
  | 0, _ => .error (.pack .short)
  | fuel + 1, bs =>
    match lift (Pack.readArrayHeader bs) with
    | .error e => .error e
    | .ok (fields, bs) =>
      if fields < 2 then .error (.nodeFields fields)
      else
        match lift (Pack.readInt bs) with
        | .error e => .error e
        | .ok (tag, bs) =>
          match Kind.all.find? fun k => k.tag == tag with
          | none => .error (.unknownTag tag)
          | some .int => (lift (Pack.readInt bs)).map fun (v, rest) => (.int v, rest)
          | some .bool => (lift (Pack.readBool bs)).map fun (b, rest) => (.bool b, rest)
          | some .symbol => (lift (Pack.readString bs)).map fun (s, rest) => (.symbol ⟨s⟩, rest)
          | some .builtin => (lift (Pack.readString bs)).map fun (s, rest) => (.builtin ⟨s⟩, rest)
          | some .quote => (unpackFuel fuel bs).map fun (d, rest) => (.quote d, rest)
          | some .list => (unpackArray fuel bs).map fun (ds, rest) => (.list ds, rest)
          | some .lambda =>
            if fields = 4 then unpackLambda fuel bs else .error (.lambdaFields fields)

def unpackArray : Nat → Bytes → Unpacked (List Datum)
  | 0, _ => .error (.pack .short)
  | fuel + 1, bs =>
    match lift (Pack.readArrayHeader bs) with
    | .error e => .error e
    | .ok (n, bs) => unpackSeq fuel n bs

def unpackSeq : Nat → Nat → Bytes → Unpacked (List Datum)
  | _, 0, bs => .ok ([], bs)
  | 0, _ + 1, _ => .error (.pack .short)
  | fuel + 1, n + 1, bs =>
    match unpackFuel fuel bs with
    | .error e => .error e
    | .ok (d, bs) => (unpackSeq fuel n bs).map fun (ds, rest) => (d :: ds, rest)

def unpackLambda : Nat → Bytes → Unpacked Datum
  | 0, _ => .error (.pack .short)
  | fuel + 1, bs =>
    match unpackArray fuel bs with
    | .error e => .error e
    | .ok (bound, bs) =>
      match lift (Pack.readArrayHeader bs) with
      | .error e => .error e
      | .ok (n, bs) =>
        match unpackNames n bs with
        | .error e => .error e
        | .ok (params, bs) =>
          match unpackFuel fuel bs with
          | .error e => .error e
          | .ok (body, bs) =>
            if params.length < bound.length then
              .error (.overbound bound.length params.length)
            else .ok (.lambda bound params body, bs)
end

def unpack (bs : Bytes) : Unpacked Datum :=
  unpackFuel (2 * bs.length + 2) bs

end Datum

/-- Definitions in order; one whose value is absent can be written but not read. -/
def packDefinitions (defs : List (Name × Option Datum)) : Bytes :=
  Pack.arrayHeader defs.length ++ defs.flatMap fun (name, d) =>
    Pack.arrayHeader 2 ++ Pack.string name.bytes ++ Datum.packOption d

def unpackPairs : Nat → Bytes → Datum.Unpacked (List (Name × Datum))
  | 0, bs => .ok ([], bs)
  | n + 1, bs =>
    match Datum.lift (Pack.readArrayHeader bs) with
    | .error e => .error e
    | .ok (fields, bs) =>
      if fields ≠ 2 then .error (.definitionFields fields)
      else
        match Datum.lift (Pack.readString bs) with
        | .error e => .error e
        | .ok (name, bs) =>
          match Datum.unpack bs with
          | .error e => .error e
          | .ok (d, bs) => (unpackPairs n bs).map fun (ds, rest) => ((⟨name⟩, d) :: ds, rest)

def unpackDefinitions (bs : Bytes) : Datum.Unpacked (List (Name × Datum)) :=
  match Datum.lift (Pack.readArrayHeader bs) with
  | .error e => .error e
  | .ok (n, bs) => unpackPairs n bs

end CellScheme
