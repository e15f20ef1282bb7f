import LineSearch.Command.Arguments
import LineSearch.Command.Definition
import LineSearch.Command.Outcome
import LineSearch.Command.Parser
import LineSearch.Command.Refusal
import LineSearch.Files.Lookup
import LineSearch.Files.Path
import LineSearch.Files.Tree
import LineSearch.Files.Walk
import LineSearch.Main
import LineSearch.Pattern
import LineSearch.Pattern.CharSet
import LineSearch.Pattern.Cursor
import LineSearch.Pattern.Error
import LineSearch.Pattern.Expression
import LineSearch.Pattern.Matching
import LineSearch.Pattern.Reading
import LineSearch.Search.Buffer
import LineSearch.Search.Configuration
import LineSearch.Search.Inputs
import LineSearch.Search.Run
import LineSearch.Text.Display
import LineSearch.Text.Lines
import LineSearch.Text.Utf8
import LineSearch.Proofs.Command.ExitStatus
import LineSearch.Proofs.Command.Obedience
import LineSearch.Proofs.Command.ReadBack
import LineSearch.Proofs.Files.Below
import LineSearch.Proofs.Files.Collected
import LineSearch.Proofs.Files.Following
import LineSearch.Proofs.Files.Named
import LineSearch.Proofs.Files.Paths
import LineSearch.Proofs.Files.Tree
import LineSearch.Proofs.Files.Walk
import LineSearch.Proofs.Matching.Additions
import LineSearch.Proofs.Matching.Alignment
import LineSearch.Proofs.Matching.Commitment
import LineSearch.Proofs.Matching.Continuation
import LineSearch.Proofs.Matching.EmptyLine
import LineSearch.Proofs.Matching.Enumeration
import LineSearch.Proofs.Matching.Exhaustion
import LineSearch.Proofs.Matching.Longest
import LineSearch.Proofs.Matching.PlainText
import LineSearch.Proofs.Matching.Preference
import LineSearch.Proofs.Matching.Repetition
import LineSearch.Proofs.Matching.Suffix
import LineSearch.Proofs.Matching.WholeLine
import LineSearch.Proofs.Matching.Width
import LineSearch.Proofs.Reading.Completion
import LineSearch.Proofs.Reading.Descent
import LineSearch.Proofs.Reading.FlatScan
import LineSearch.Proofs.Reading.Grammar
import LineSearch.Proofs.Reading.Parts
import LineSearch.Proofs.Reading.Positions
import LineSearch.Proofs.Reading.Printing
import LineSearch.Proofs.Reading.Resuming
import LineSearch.Proofs.Reading.Shifting
import LineSearch.Proofs.Reading.Source
import LineSearch.Proofs.Reading.Spelling
import LineSearch.Proofs.Reading.Steps
import LineSearch.Proofs.Search.Again
import LineSearch.Proofs.Search.Course
import LineSearch.Proofs.Search.InOrder
import LineSearch.Proofs.Search.Listed
import LineSearch.Proofs.Search.Matches
import LineSearch.Proofs.Search.Writing
import LineSearch.Proofs.Text.Cutting
import LineSearch.Proofs.Text.DecodedLines
import LineSearch.Proofs.Text.Decoding
import LineSearch.Proofs.Text.Encoding
import LineSearch.Proofs.Text.Pieces
import LineSearch.Proofs.Text.Substrings
