import CellScheme.Datum.Printer
import CellScheme.Json.Value
import CellScheme.Text.Quoted

/-!
Why reading or evaluating an expression fails. A failure is a cause with the expressions that it
is about; its wording stands in one place.
-/

namespace CellScheme

/-- Failures of the readers of source text and of JSON values. -/
inductive ParseFailure where
  | badAtom (atom : String) (offset : Int)
  | strayClose (offset : Nat)
  | literalOutOfRange (literal : String) (offset : Nat)
  | unexpectedEnd (text : String)
  | notOneExpression (found : Nat) (text : String)
  | jsonIntegerOutOfRange (value : Nat)
  | jsonNotInteger (value : Number.Binary64)
  | jsonShape (shape : Json.Shape) (depth : Nat)
  | jsonKeyCount (found : Nat)
  | jsonNameShape (tag : Name) (shape : Json.Shape)
  | jsonUnknownTag (tag : Name)
  | jsonLambdaShape (shape : Json.Shape)
  | jsonParamShape (shape : Json.Shape)
  | jsonOverbound (bound params : Nat)
deriving Repr

/-- Malformed special forms. -/
inductive SyntaxFailure where
  | defineShape (form : List Datum)
  | defineName (given : Datum)
  | lambdaShape (form : List Datum)
  | lambdaParams (given : Datum)
  | lambdaParam (given : Datum)
  | lambdaRepeated (name : Name)
  | condShape (form : List Datum)
  | condClause (clause : Datum)
  | condNoElse (form : List Datum)
  | condEarlyElse (form : List Datum)
deriving Repr

/-- Arguments that a builtin does not accept. -/
inductive TypeFailure where
  | argumentCount (name : Name) (expected found : Int) (form : List Datum)
  | wrongKind (name : Name) (given : Datum) (expected : Kind)
  | notQuotedList (name : Name) (given : Datum)
  | emptyList (name : Name) (given : Datum)
deriving Repr

inductive RuntimeFailure where
  | undefined (name : Name)
  | missingProcedure
  | notProcedure (head : Datum) (form : List Datum)
  | noOperands (form : String)
  | tooManyArguments (missing : Int) (given : Nat)
  | tooDeep (limit : Int)
  | unknownBuiltin (name : Name)
  | divisionByZero (form : List Datum)
deriving Repr

inductive InternalFailure where
  | absentNode
  | argumentIndex (name : Name) (index : Int) (form : List Datum)
  | unknownOperator (op : String)
  | unknownQuery (query : String)
deriving Repr

inductive Failure where
  | parse (cause : ParseFailure)
  | badSyntax (cause : SyntaxFailure)
  | type (cause : TypeFailure)
  | runtime (cause : RuntimeFailure)
  | internal (cause : InternalFailure)
deriving Repr

open Text (natText intText quoted)

def ParseFailure.details : ParseFailure → String
  | badAtom atom offset => "unrecognized atom " ++ quoted atom ++ " at offset " ++ intText offset
  | strayClose offset => "unexpected ')' at offset " ++ natText offset
  | literalOutOfRange literal offset =>
    "integer literal " ++ literal ++ " out of range at offset " ++ natText offset
  | unexpectedEnd text => "unexpected end of input in " ++ quoted text
  | notOneExpression found text =>
    "expected one expression, found " ++ natText found ++ " in " ++ quoted text
  | jsonIntegerOutOfRange value => "json integer " ++ natText value ++ " out of range"
  | jsonNotInteger value => "json number " ++ value.text ++ " is not an integer"
  | jsonShape shape depth =>
    "cannot convert json value of type " ++ shape.name ++ " at depth " ++ natText depth
  | jsonKeyCount found => "json object must have exactly one key, got " ++ natText found
  | jsonNameShape tag shape => "json " ++ tag.text ++ " must be a string, got " ++ shape.name
  | jsonUnknownTag tag => "unknown json tag '" ++ tag.text ++ "'"
  | jsonLambdaShape shape => "json lambda must be an object, got " ++ shape.name
  | jsonParamShape shape => "json lambda parameter must be a string, got " ++ shape.name
  | jsonOverbound bound params =>
    "json lambda binds " ++ natText bound ++ " arguments but has " ++ natText params ++
      " parameters"

def SyntaxFailure.details : SyntaxFailure → String
  | defineShape form => "define takes a symbol and an expression: " ++ Datum.printForm form
  | defineName given => "define: " ++ given.print ++ " is not a symbol"
  | lambdaShape form => "lambda takes a parameter list and a body: " ++ Datum.printForm form
  | lambdaParams given => "lambda parameters must be a list, got " ++ given.print
  | lambdaParam given => "lambda parameter " ++ given.print ++ " is not a symbol"
  | lambdaRepeated name => "lambda parameter " ++ name.text ++ " appears twice"
  | condShape form =>
    "cond needs at least one clause and an else clause: " ++ Datum.printForm form
  | condClause clause => "cond clause " ++ clause.print ++ " is not a (test result) pair"
  | condNoElse form => "cond must end with an else clause: " ++ Datum.printForm form
  | condEarlyElse form => "cond else clause must come last: " ++ Datum.printForm form

def TypeFailure.details : TypeFailure → String
  | argumentCount name expected found form =>
    name.text ++ " expects " ++ intText expected ++ " argument(s), got " ++ intText found ++
      " in " ++ Datum.printForm form
  | wrongKind name given expected =>
    name.text ++ ": " ++ given.print ++ " should have type " ++ expected.name ++ ", not " ++
      given.kind.name
  | notQuotedList name given => name.text ++ ": " ++ given.print ++ " is not a quoted list"
  | emptyList name given => name.text ++ ": " ++ given.print ++ " is empty"

def RuntimeFailure.details : RuntimeFailure → String
  | undefined name => "undefined " ++ name.text
  | missingProcedure => "missing procedure expression"
  | notProcedure head form => "not a procedure: " ++ head.print ++ " in " ++ Datum.printForm form
  | noOperands form => form ++ ": empty operand list"
  | tooManyArguments missing given =>
    "argument size mismatch: procedure takes " ++ intText missing ++ " more argument(s), got " ++
      natText given
  | tooDeep limit => "recursion depth exceeded (max " ++ intText limit ++ ")"
  | unknownBuiltin name => "unknown builtin " ++ name.text
  | divisionByZero form => "division by zero in " ++ Datum.printForm form

def InternalFailure.details : InternalFailure → String
  | absentNode => "evaluate called on a nil node"
  | argumentIndex name index form =>
    name.text ++ ": argument " ++ intText index ++ " out of range in " ++ Datum.printForm form
  | unknownOperator op => "unknown integer operator " ++ op
  | unknownQuery query => "unknown type query " ++ query

namespace Failure

/-- The words that a failure's message starts with. -/
def category : Failure → String
  | parse _ => "parse error"
  | badSyntax _ => "bad syntax"
  | type _ => "type error"
  | runtime _ => "runtime error"
  | internal _ => "internal error"

def details : Failure → String
  | parse c => c.details
  | badSyntax c => c.details
  | type c => c.details
  | runtime c => c.details
  | internal c => c.details

def message (f : Failure) : String :=
  f.category ++ ": " ++ f.details

end Failure

end CellScheme
