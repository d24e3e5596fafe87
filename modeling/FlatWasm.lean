import FlatWasm.Assembly
import FlatWasm.Block
import FlatWasm.Body
import FlatWasm.Command
import FlatWasm.Command.Options
import FlatWasm.Control
import FlatWasm.Cursor
import FlatWasm.Error
import FlatWasm.FloatFormat
import FlatWasm.FloatFormat.Parse
import FlatWasm.FloatFormat.Rounding
import FlatWasm.FloatFormat.Text
import FlatWasm.Instruction
import FlatWasm.Instruction.Labelled
import FlatWasm.Instruction.Read
import FlatWasm.Leb128
import FlatWasm.Listing
import FlatWasm.Lowering
import FlatWasm.Main
import FlatWasm.Operator
import FlatWasm.Operator.Memory
import FlatWasm.Operator.Numeric
import FlatWasm.Text.Hex
import FlatWasm.Text.Numeral
import FlatWasm.Text.Quoted
import FlatWasm.Text.Words
import FlatWasm.Value
import FlatWasm.Word
import FlatWasm.Proofs.Leb128
import FlatWasm.Proofs.Operands
import FlatWasm.Proofs.Scanning
import FlatWasm.Proofs.Reencoding
import FlatWasm.Proofs.Resolution
import FlatWasm.Proofs.Structure
import FlatWasm.Proofs.Lowering
import FlatWasm.Proofs.Machine
import FlatWasm.Proofs.Simulation
import FlatWasm.Proofs.Outcome
import FlatWasm.Proofs.Labels
import FlatWasm.Proofs.Modes
import FlatWasm.Proofs.Numerals
import FlatWasm.Proofs.Rounding
import FlatWasm.Proofs.FloatText
import FlatWasm.Proofs.Assembling
import FlatWasm.Proofs.Truncation
import FlatWasm.Proofs.Placement
import FlatWasm.Proofs.SizeLimit
import FlatWasm.Proofs.Lines
import FlatWasm.Proofs.Unwinding
import FlatWasm.Proofs.Relocation
import FlatWasm.Proofs.Histories
import FlatWasm.Proofs.Checked
import FlatWasm.Proofs.Safety
import FlatWasm.Proofs.Values
import FlatWasm.Proofs.Formats
import FlatWasm.Proofs.Literals
import FlatWasm.Proofs.Failures
import FlatWasm.Proofs.Locality
import FlatWasm.Proofs.Tiling
import FlatWasm.Proofs.Joining
import FlatWasm.Proofs.Display
import FlatWasm.Proofs.Writers
