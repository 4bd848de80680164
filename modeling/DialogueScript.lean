import DialogueScript.CommandLine
import DialogueScript.Draws
import DialogueScript.Embedding
import DialogueScript.Execution
import DialogueScript.Fault
import DialogueScript.Fragment
import DialogueScript.HostFunction
import DialogueScript.Introducer
import DialogueScript.Main
import DialogueScript.NameTable
import DialogueScript.Number.Binary
import DialogueScript.Number.Decimal
import DialogueScript.Number.Shortest
import DialogueScript.Operator
import DialogueScript.Plan
import DialogueScript.Plan.Build
import DialogueScript.Plan.Schedule
import DialogueScript.Position
import DialogueScript.Proofs.BuiltinRuns
import DialogueScript.Proofs.Evaluation
import DialogueScript.Proofs.Expression
import DialogueScript.Proofs.ExpressionFaults
import DialogueScript.Proofs.FailedCalls
import DialogueScript.Proofs.FaultPositions
import DialogueScript.Proofs.Forest
import DialogueScript.Proofs.Groups
import DialogueScript.Proofs.Growth
import DialogueScript.Proofs.Layout
import DialogueScript.Proofs.Lexemes
import DialogueScript.Proofs.Lines
import DialogueScript.Proofs.Noninterference
import DialogueScript.Proofs.Number.Fields
import DialogueScript.Proofs.Number.Numerals
import DialogueScript.Proofs.Number.ReadBack
import DialogueScript.Proofs.Number.Rounding
import DialogueScript.Proofs.Owners
import DialogueScript.Proofs.Padding
import DialogueScript.Proofs.Parentheses
import DialogueScript.Proofs.Positional.Access
import DialogueScript.Proofs.Positional.Planner
import DialogueScript.Proofs.Positional.Scanner
import DialogueScript.Proofs.Positional.Scripts
import DialogueScript.Proofs.Positional.Statements
import DialogueScript.Proofs.Printing
import DialogueScript.Proofs.Raising
import DialogueScript.Proofs.Reading
import DialogueScript.Proofs.Recasting
import DialogueScript.Proofs.RecursiveValue
import DialogueScript.Proofs.Recognition
import DialogueScript.Proofs.Refusals
import DialogueScript.Proofs.Registries
import DialogueScript.Proofs.Reports
import DialogueScript.Proofs.RoundTrip
import DialogueScript.Proofs.Scanning
import DialogueScript.Proofs.Sequencing
import DialogueScript.Proofs.Settings
import DialogueScript.Proofs.SingleTree
import DialogueScript.Proofs.Spans
import DialogueScript.Proofs.Spelling
import DialogueScript.Proofs.Splitting
import DialogueScript.Proofs.Stretches
import DialogueScript.Proofs.StringLiterals
import DialogueScript.Proofs.Text
import DialogueScript.Proofs.TokenOrder
import DialogueScript.Script
import DialogueScript.Statement
import DialogueScript.Statement.Kind
import DialogueScript.Statement.Reader
import DialogueScript.Store
import DialogueScript.Text
import DialogueScript.Token
import DialogueScript.Token.Lexer
import DialogueScript.Value
