import WireSchema.Compiler.Available
import WireSchema.Compiler.Run
import WireSchema.Layout.Template
import WireSchema.Main
import WireSchema.Text.Shortest
import WireSchema.Proofs.Grammar.Moves
import WireSchema.Proofs.Grammar.Spelling
import WireSchema.Proofs.Grammar.Opening
import WireSchema.Proofs.Grammar.Printed
import WireSchema.Proofs.Grammar.Answers
import WireSchema.Proofs.TypeSpec.Written
import WireSchema.Proofs.Grammar.Produced
import WireSchema.Proofs.Steps
import WireSchema.Proofs.Layout.Rows
import WireSchema.Proofs.Layout.Shown
import WireSchema.Proofs.Project.Adds
import WireSchema.Proofs.Project.Cells
import WireSchema.Proofs.Project.Resolved
import WireSchema.Proofs.TypeSpec.RoundTrip
import WireSchema.Proofs.Text.Reading
import WireSchema.Proofs.TypeSpec.DocValue
import WireSchema.Proofs.Project.Crossed
import WireSchema.Proofs.Project.Declared
import WireSchema.Proofs.Project.Later
import WireSchema.Proofs.Project.Listed
import WireSchema.Proofs.TypeSpec.Independent
import WireSchema.Proofs.TypeSpec.Literals
import WireSchema.Proofs.TypeSpec.Names
import WireSchema.Proofs.Lexing.Literals
import WireSchema.Proofs.Lexing.Coverage
import WireSchema.Proofs.TypeSpec.Endless
import WireSchema.Proofs.TypeSpec.Answered
import WireSchema.Proofs.Project.History
import WireSchema.Proofs.Lexing.Faults
import WireSchema.Proofs.Grammar.Ground
import WireSchema.Proofs.Grammar.Reported
import WireSchema.Proofs.Grammar.Deeper
import WireSchema.Proofs.Lexing.Moved
import WireSchema.Proofs.Lexing.Respaced
import WireSchema.Proofs.Lexing.Templates
import WireSchema.Proofs.Grammar.Repeats
import WireSchema.Proofs.Grammar.Ahead
import WireSchema.Proofs.Grammar.Within
import WireSchema.Proofs.Grammar.Behind
import WireSchema.Proofs.Grammar.Spacing
import WireSchema.Proofs.Grammar.Statements
import WireSchema.Proofs.Grammar.Suffix
import WireSchema.Proofs.Grammar.Grouped
import WireSchema.Proofs.Grammar.Members
import WireSchema.Proofs.Grammar.Lines
import WireSchema.Proofs.Grammar.Bodies
import WireSchema.Proofs.Project.Solid
import WireSchema.Proofs.Project.Worded
import WireSchema.Proofs.TypeSpec.Blocks
import WireSchema.Proofs.TypeSpec.Vacant
import WireSchema.Proofs.TypeSpec.Emitted
import WireSchema.Proofs.Project.Owned
import WireSchema.Proofs.TypeSpec.Asking
import WireSchema.Proofs.TypeSpec.Expanded
import WireSchema.Proofs.Project.Built
import WireSchema.Proofs.Project.Alternatives
import WireSchema.Proofs.Project.Flattened
import WireSchema.Proofs.Layout.Outline
import WireSchema.Proofs.Project.Named
import WireSchema.Proofs.Grammar.Enumerated
import WireSchema.Proofs.TypeSpec.Indented
import WireSchema.Proofs.TypeSpec.Verbatim
import WireSchema.Proofs.TypeSpec.FieldNames
import WireSchema.Proofs.Grammar.Enumerations
import WireSchema.Proofs.Text.Trimming
import WireSchema.Proofs.Text.Indenting
import WireSchema.Proofs.Doc.Rows
import WireSchema.Proofs.Doc.Written
import WireSchema.Proofs.Doc.Separators
import WireSchema.Proofs.Files.Replaced
import WireSchema.Proofs.Layout.Substituted
import WireSchema.Proofs.Config.Saved
import WireSchema.Proofs.Source.Positions
import WireSchema.Proofs.Compiler.Output
import WireSchema.Proofs.Layout.Shared
import WireSchema.Proofs.Grammar.Matching
import WireSchema.Proofs.Grammar.Progress
import WireSchema.Proofs.Files.Kept
import WireSchema.Proofs.TypeSpec.Stated
import WireSchema.Proofs.Grammar.Throughout
