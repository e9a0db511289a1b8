import Eqasm.Assembly
import Eqasm.Assembly.Events
import Eqasm.Backend
import Eqasm.Backend.BitFlip
import Eqasm.Backend.Coin
import Eqasm.Backend.Ideal
import Eqasm.Backend.Recording
import Eqasm.Backend.Simulator
import Eqasm.Bank
import Eqasm.Bank.Events
import Eqasm.Cell
import Eqasm.Command
import Eqasm.Command.Execution
import Eqasm.Command.Reading
import Eqasm.Config
import Eqasm.Decimal.Exact
import Eqasm.Decimal.Fixed
import Eqasm.Decimal.Reading
import Eqasm.Decimal.Shortest
import Eqasm.Diagnostic
import Eqasm.Failure
import Eqasm.Fault
import Eqasm.Flag
import Eqasm.Instruction
import Eqasm.Instruction.Listing
import Eqasm.Keyword
import Eqasm.LabelTable
import Eqasm.Log
import Eqasm.Machine
import Eqasm.Machine.Datapath
import Eqasm.Machine.Events
import Eqasm.Machine.State
import Eqasm.Main
import Eqasm.Memory
import Eqasm.Memory.Dump
import Eqasm.Memory.Range
import Eqasm.Program.Files
import Eqasm.Random.ChaCha
import Eqasm.Settings
import Eqasm.Settings.Reading
import Eqasm.Setup
import Eqasm.Shell
import Eqasm.Statement
import Eqasm.Statement.Reader
import Eqasm.Statement.Reading
import Eqasm.Tally
import Eqasm.Tally.Report
import Eqasm.TargetRegisters
import Eqasm.Text.Align
import Eqasm.Text.Blank
import Eqasm.Text.LetterCase
import Eqasm.Text.Lowercase
import Eqasm.Text.Numeral
import Eqasm.Text.Unsigned
import Eqasm.Token
import Eqasm.Token.Lexer
import Eqasm.Toml.DateTime
import Eqasm.Toml.Document
import Eqasm.Toml.Reader
import Eqasm.Toml.Scalar
import Eqasm.Toml.Value
import Eqasm.Work
import Eqasm.Workspace
import Eqasm.Proofs.Assembly.Declarations
import Eqasm.Proofs.Assembly.Emission
import Eqasm.Proofs.Assembly.Layout
import Eqasm.Proofs.Assembly.Lines
import Eqasm.Proofs.Assembly.Order
import Eqasm.Proofs.Assembly.Problems
import Eqasm.Proofs.Assembly.Recovery
import Eqasm.Proofs.Assembly.Transcript
import Eqasm.Proofs.Assembly.WellFormed
import Eqasm.Proofs.Backend.Circuits
import Eqasm.Proofs.Backend.Flips
import Eqasm.Proofs.Backend.Replies
import Eqasm.Proofs.Bank.Sound
import Eqasm.Proofs.Cell.Arithmetic
import Eqasm.Proofs.Cell.Conversions
import Eqasm.Proofs.Cell.Division
import Eqasm.Proofs.Cell.Fields
import Eqasm.Proofs.Cell.Views
import Eqasm.Proofs.Cell.WordConversions
import Eqasm.Proofs.Cell.Words
import Eqasm.Proofs.Except
import Eqasm.Proofs.Instruction.Lowering
import Eqasm.Proofs.Instruction.Row
import Eqasm.Proofs.Instruction.WellFormed
import Eqasm.Proofs.LabelTable.Carried
import Eqasm.Proofs.LabelTable.Insertion
import Eqasm.Proofs.Listing.RoundTrip
import Eqasm.Proofs.Machine.Abbreviations
import Eqasm.Proofs.Machine.Addresses
import Eqasm.Proofs.Machine.Agreement
import Eqasm.Proofs.Machine.Atomicity
import Eqasm.Proofs.Machine.Comparisons
import Eqasm.Proofs.Machine.Constants
import Eqasm.Proofs.Machine.Destinations
import Eqasm.Proofs.Machine.Dispatch
import Eqasm.Proofs.Machine.Effect
import Eqasm.Proofs.Machine.Failure
import Eqasm.Proofs.Machine.Faults
import Eqasm.Proofs.Machine.Finish
import Eqasm.Proofs.Machine.Frame
import Eqasm.Proofs.Machine.Genuine
import Eqasm.Proofs.Machine.History
import Eqasm.Proofs.Machine.Insertion
import Eqasm.Proofs.Machine.Instructions
import Eqasm.Proofs.Machine.Labels
import Eqasm.Proofs.Machine.Literals
import Eqasm.Proofs.Machine.Loading
import Eqasm.Proofs.Machine.Lockstep
import Eqasm.Proofs.Machine.Measurements
import Eqasm.Proofs.Machine.Notes
import Eqasm.Proofs.Machine.Reachable
import Eqasm.Proofs.Machine.Refusal
import Eqasm.Proofs.Machine.Renewal
import Eqasm.Proofs.Machine.Run
import Eqasm.Proofs.Machine.Secrecy
import Eqasm.Proofs.Machine.Simultaneous
import Eqasm.Proofs.Machine.Sound
import Eqasm.Proofs.Machine.Targets
import Eqasm.Proofs.Machine.Transfers
import Eqasm.Proofs.Memory.Agreement
import Eqasm.Proofs.Memory.Bytes
import Eqasm.Proofs.Memory.History
import Eqasm.Proofs.Memory.Runs
import Eqasm.Proofs.Memory.Writing
import Eqasm.Proofs.Setup.Shots
import Eqasm.Proofs.Statement.Exactness
import Eqasm.Proofs.Statement.Grammar
import Eqasm.Proofs.Statement.Operands
import Eqasm.Proofs.Statement.Rows
import Eqasm.Proofs.Statement.WellFormed
import Eqasm.Proofs.Tally.Counts
import Eqasm.Proofs.Tally.Reduction
import Eqasm.Proofs.TargetRegisters.Sound
import Eqasm.Proofs.Text.Lowercase
import Eqasm.Proofs.Token.Gap
import Eqasm.Proofs.Token.Layout
import Eqasm.Proofs.Token.Lexeme
import Eqasm.Proofs.Token.Lines
import Eqasm.Proofs.Token.Literal
import Eqasm.Proofs.Token.Numeral
import Eqasm.Proofs.Token.Row
import Eqasm.Proofs.Token.Spelling
import Eqasm.Proofs.Token.Tiling
import Eqasm.Proofs.Token.Validity
import Eqasm.Proofs.Work
