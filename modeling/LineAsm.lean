import LineAsm.CommandLine
import LineAsm.Console
import LineAsm.Device
import LineAsm.Fault
import LineAsm.Generator
import LineAsm.Line
import LineAsm.Machine.Effect
import LineAsm.Machine.Journal
import LineAsm.Machine.Operand
import LineAsm.Machine.Plan
import LineAsm.Machine.Run
import LineAsm.Machine.State
import LineAsm.Machine.Step
import LineAsm.Main
import LineAsm.Memory
import LineAsm.Number.Arithmetic
import LineAsm.Number.Basic
import LineAsm.Number.Decimal
import LineAsm.Number.Digits
import LineAsm.Number.Magnitude
import LineAsm.Number.Power
import LineAsm.Number.Printer
import LineAsm.Number.Reader
import LineAsm.Number.Shortest
import LineAsm.Opcode
import LineAsm.Operation
import LineAsm.Program
import LineAsm.Proofs.Addresses
import LineAsm.Proofs.Attended
import LineAsm.Proofs.Boundaries
import LineAsm.Proofs.Cells
import LineAsm.Proofs.Checked
import LineAsm.Proofs.Comparisons
import LineAsm.Proofs.Concatenation
import LineAsm.Proofs.Control
import LineAsm.Proofs.Correspondence
import LineAsm.Proofs.Cursor
import LineAsm.Proofs.Following
import LineAsm.Proofs.Footprints
import LineAsm.Proofs.Insertion
import LineAsm.Proofs.Jumps
import LineAsm.Proofs.LeadingNumbers
import LineAsm.Proofs.Lexemes
import LineAsm.Proofs.Limits
import LineAsm.Proofs.MaximalMunch
import LineAsm.Proofs.NumberReaders
import LineAsm.Proofs.NumberTexts
import LineAsm.Proofs.Numerals
import LineAsm.Proofs.Padding
import LineAsm.Proofs.Protocol
import LineAsm.Proofs.Reachable
import LineAsm.Proofs.Readings
import LineAsm.Proofs.Rendering
import LineAsm.Proofs.Requests
import LineAsm.Proofs.Residues
import LineAsm.Proofs.Resolution
import LineAsm.Proofs.Resting
import LineAsm.Proofs.Roles
import LineAsm.Proofs.Sessions
import LineAsm.Proofs.Shapes
import LineAsm.Proofs.Slices
import LineAsm.Proofs.Sources
import LineAsm.Proofs.Spelling
import LineAsm.Proofs.Subroutines
import LineAsm.Proofs.Sums
import LineAsm.Proofs.Suspension
import LineAsm.Proofs.Unfinished
import LineAsm.Proofs.WholeNumbers
import LineAsm.Register
import LineAsm.Stack
import LineAsm.Text.Blank
import LineAsm.Text.Hidden
import LineAsm.Text.Quoted
import LineAsm.Token
import LineAsm.Token.Pattern
import LineAsm.Value
