import Hue.Text.Blank
import Hue.Text.Split
import Hue.Numeral
import Hue.Word
import Hue.Register
import Hue.Opcode
import Hue.Instruction
import Hue.Error
import Hue.Encoding
import Hue.Text.Utf16
import Hue.Json.Basic
import Hue.Json.Token
import Hue.Json.Reader
import Hue.Settings
import Hue.Source.Line
import Hue.Source.Statement
import Hue.Source.Program
import Hue.SymbolTable
import Hue.Assembly
import Hue.Listing
import Hue.Report
import Hue.Image
import Hue.Tool.Files
import Hue.Tool.Directory
import Hue.Tool.Outcome
import Hue.Tool.Arguments
import Hue.Tool.Assembler
import Hue.Tool.Disassembler
import Hue.Main
import Hue.Proofs.Numeral
import Hue.Proofs.Encoding
import Hue.Proofs.Text
import Hue.Proofs.Line
import Hue.Proofs.Statement
import Hue.Proofs.SymbolTable
import Hue.Proofs.Program
import Hue.Proofs.Assembly
import Hue.Proofs.Resolution
import Hue.Proofs.Rejection
import Hue.Proofs.Listing
import Hue.Proofs.RoundTrip
import Hue.Proofs.Relisting
import Hue.Proofs.Accounting
import Hue.Proofs.Fault
import Hue.Proofs.Settling
import Hue.Proofs.Totality
import Hue.Proofs.FatalError
import Hue.Proofs.Decoding
import Hue.Proofs.FixedPoint
import Hue.Proofs.Report
import Hue.Proofs.Stages
import Hue.Proofs.Appending
import Hue.Proofs.Shape
import Hue.Proofs.Grammar
import Hue.Proofs.Image
import Hue.Proofs.Directory
import Hue.Proofs.Arguments
import Hue.Proofs.Outcome
import Hue.Proofs.AllOrNothing
import Hue.Proofs.Pipeline
import Hue.Proofs.Declaration
import Hue.Proofs.LetterCase
import Hue.Proofs.Layout
import Hue.Proofs.TextImage
import Hue.Proofs.BinaryImage
import Hue.Proofs.Label
import Hue.Proofs.Immediate
