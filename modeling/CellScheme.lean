import CellScheme.Text.Blank
import CellScheme.Text.Decimal
import CellScheme.Text.Line
import CellScheme.Text.Printable
import CellScheme.Text.Quoted
import CellScheme.Text.Utf8
import CellScheme.Bytes.Word
import CellScheme.Bytes.Blake2b
import CellScheme.Number.Binary64
import CellScheme.Name
import CellScheme.Named
import CellScheme.Datum.Basic
import CellScheme.Datum.Printer
import CellScheme.Datum.Json
import CellScheme.Json.Value
import CellScheme.Json.Writer
import CellScheme.Json.Numeral
import CellScheme.Json.Reader
import CellScheme.Failure
import CellScheme.Token
import CellScheme.Reader
import CellScheme.Cell.Shelf
import CellScheme.Cell.Handle
import CellScheme.Store.Basic
import CellScheme.Store.View
import CellScheme.Store.Equality
import CellScheme.Store.Workbench
import CellScheme.Scope
import CellScheme.Builtin
import CellScheme.Machine.Basic
import CellScheme.Check
import CellScheme.Primitive
import CellScheme.Machine.Act
import CellScheme.Machine.SpecialForm
import CellScheme.Machine.Native
import CellScheme.Machine.Apply
import CellScheme.Machine.Eval
import CellScheme.Machine.Run
import CellScheme.Completion
import CellScheme.Pack.Writer
import CellScheme.Pack.Reader
import CellScheme.Image.Envelope
import CellScheme.Image.Definitions
import CellScheme.Image.File
import CellScheme.Directory
import CellScheme.Session
import CellScheme.Tree.Eval
import CellScheme.Settings.Number
import CellScheme.Settings.Basic
import CellScheme.Console
import CellScheme.Command
import CellScheme.Main
import CellScheme.Proofs.Storage.Holding
import CellScheme.Proofs.Storage.Ledger
import CellScheme.Proofs.Storage.Tree
import CellScheme.Proofs.Storage.Growth
import CellScheme.Proofs.Storage.Edit
import CellScheme.Proofs.Storage.Solid
import CellScheme.Proofs.Evaluation.World
import CellScheme.Proofs.Evaluation.Call
import CellScheme.Proofs.Evaluation.Calling
import CellScheme.Proofs.Evaluation.Elements
import CellScheme.Proofs.Evaluation.Leftover
import CellScheme.Proofs.Evaluation.Evaluate
import CellScheme.Proofs.Evaluation.Paired
import CellScheme.Proofs.Evaluation.Passing
import CellScheme.Proofs.Evaluation.Blind
import CellScheme.Proofs.Evaluation.Limit
import CellScheme.Proofs.Host.Counting
import CellScheme.Proofs.Host.Evaluation
import CellScheme.Proofs.Host.NonInterference
import CellScheme.Proofs.Reading.Grammar
import CellScheme.Proofs.Reading.Accepts
import CellScheme.Proofs.Reading.RoundTrip
import CellScheme.Proofs.Lawful.Basic
import CellScheme.Proofs.Lawful.Forms
import CellScheme.Proofs.Lawful.Evaluate
import CellScheme.Proofs.Lawful.Runs
import CellScheme.Proofs.Lawful.Spent
import CellScheme.Proofs.Host.Start
import CellScheme.Proofs.Host.Depth
import CellScheme.Proofs.Image.Pack
import CellScheme.Proofs.Image.Front
import CellScheme.Proofs.Image.Layout
import CellScheme.Proofs.Image.Consumption
import CellScheme.Proofs.Image.Progress
import CellScheme.Proofs.Image.Definitions
import CellScheme.Proofs.Image.File
import CellScheme.Proofs.Image.RoundTrip
import CellScheme.Proofs.Image.Truncation
import CellScheme.Proofs.Reading.Continuation
import CellScheme.Proofs.Text.Utf8
import CellScheme.Proofs.Json.Text
import CellScheme.Proofs.Json.RoundTrip
import CellScheme.Proofs.Json.Decoding
import CellScheme.Proofs.Lawful.Guarded
import CellScheme.Proofs.Host.Carries
import CellScheme.Proofs.Host.Safety
import CellScheme.Proofs.Text.Line
import CellScheme.Proofs.Console.Script
import CellScheme.Proofs.Reading.Composition
import CellScheme.Proofs.Reading.Lines
import CellScheme.Proofs.Reading.Tiling
import CellScheme.Proofs.Reading.Integers
import CellScheme.Proofs.Image.Fields
import CellScheme.Proofs.Console.Loop
import CellScheme.Proofs.Host.NormalForm
import CellScheme.Proofs.Host.Operations
import CellScheme.Proofs.Console.Saving
import CellScheme.Proofs.Host.Images
import CellScheme.Proofs.Host.Acyclic
import CellScheme.Proofs.Evaluation.Observation
import CellScheme.Proofs.Evaluation.Hooks
import CellScheme.Proofs.Host.Sparing
import CellScheme.Proofs.Host.Currying
import CellScheme.Proofs.Lawful.Hidden
import CellScheme.Proofs.Lawful.Nested
import CellScheme.Proofs.Evaluation.Standing
import CellScheme.Proofs.Host.Quotation
import CellScheme.Proofs.Host.Scoping
import CellScheme.Proofs.Host.Loading
import CellScheme.Proofs.Host.Procedures
import CellScheme.Proofs.Storage.Equality
import CellScheme.Proofs.Storage.Sequences
import CellScheme.Proofs.Host.Guards
import CellScheme.Proofs.Host.Hooks
import CellScheme.Proofs.Host.Parameters
import CellScheme.Proofs.Host.Calls
import CellScheme.Proofs.Host.Lists
import CellScheme.Proofs.Host.Arithmetic
