import CssMinify.Cascade.Exchange
import CssMinify.Cascade.Touch
import CssMinify.Cascade.Travel
import CssMinify.Color.Basic
import CssMinify.Color.Function
import CssMinify.Color.Names
import CssMinify.Color.Shortest
import CssMinify.CommandLine
import CssMinify.Config
import CssMinify.Main
import CssMinify.Minify
import CssMinify.Number.Decimal
import CssMinify.Number.Remainder
import CssMinify.Optimizer
import CssMinify.Pattern
import CssMinify.Pattern.Parser
import CssMinify.Profile
import CssMinify.Profile.Flag
import CssMinify.Profile.Parser
import CssMinify.Proofs.Cascade.Symmetry
import CssMinify.Proofs.Codec.Background
import CssMinify.Proofs.Codec.Classification
import CssMinify.Proofs.Codec.Layer
import CssMinify.Proofs.Codec.Line
import CssMinify.Proofs.Codec.LineRoundTrip
import CssMinify.Proofs.Codec.Retaking
import CssMinify.Proofs.Codec.RoundTrip
import CssMinify.Proofs.Codec.Values
import CssMinify.Proofs.Codec.Words
import CssMinify.Proofs.Color.Digits
import CssMinify.Proofs.Color.Spelling
import CssMinify.Proofs.Effect.Assembly
import CssMinify.Proofs.Effect.Body
import CssMinify.Proofs.Effect.Claim
import CssMinify.Proofs.Effect.Coverage
import CssMinify.Proofs.Effect.Engine
import CssMinify.Proofs.Effect.Fallback
import CssMinify.Proofs.Effect.Folding
import CssMinify.Proofs.Effect.Frames
import CssMinify.Proofs.Effect.Granting
import CssMinify.Proofs.Effect.Longhands
import CssMinify.Proofs.Effect.Merging
import CssMinify.Proofs.Effect.Preorder
import CssMinify.Proofs.Effect.Replacing
import CssMinify.Proofs.Effect.Shadowing
import CssMinify.Proofs.Effect.Tree
import CssMinify.Proofs.Moves.Exchange
import CssMinify.Proofs.Moves.Hoisting
import CssMinify.Proofs.Moves.Holders
import CssMinify.Proofs.Moves.Merging
import CssMinify.Proofs.Moves.Pass
import CssMinify.Proofs.Moves.Step
import CssMinify.Proofs.Parsing.Progress
import CssMinify.Proofs.Parsing.Walk
import CssMinify.Proofs.Printing.Declarations
import CssMinify.Proofs.Printing.Hacks
import CssMinify.Proofs.Printing.Lexing
import CssMinify.Proofs.Printing.Plain
import CssMinify.Proofs.Printing.Reading
import CssMinify.Proofs.Printing.Reparsing
import CssMinify.Proofs.Printing.Selectors
import CssMinify.Proofs.Printing.Values
import CssMinify.Proofs.Printing.Words
import CssMinify.Proofs.Profile.Resolution
import CssMinify.Proofs.Registry.Building
import CssMinify.Proofs.Registry.Leaves
import CssMinify.Proofs.Runs.Anchors
import CssMinify.Proofs.Runs.Collapsing
import CssMinify.Proofs.Runs.Definitions
import CssMinify.Proofs.Runs.Edit
import CssMinify.Proofs.Runs.LastDefinition
import CssMinify.Proofs.Runs.Repeats
import CssMinify.Proofs.Runs.SelectorLists
import CssMinify.Proofs.Runs.Skipping
import CssMinify.Proofs.Runs.Termination
import CssMinify.Proofs.Runs.Totality
import CssMinify.Proofs.Runs.Unmerged
import CssMinify.Proofs.Selector.Agreeing
import CssMinify.Proofs.Selector.Disjoint
import CssMinify.Proofs.Selector.Heads
import CssMinify.Proofs.Selector.Key
import CssMinify.Proofs.Selector.Mentions
import CssMinify.Proofs.Selector.Places
import CssMinify.Proofs.Selector.Reader
import CssMinify.Proofs.Selector.Reading
import CssMinify.Proofs.Selector.Search
import CssMinify.Proofs.Selector.Target
import CssMinify.Proofs.Selector.Written
import CssMinify.Proofs.Size.Bodies
import CssMinify.Proofs.Size.Gain
import CssMinify.Proofs.Size.Measures
import CssMinify.Proofs.Size.Sheets
import CssMinify.Proofs.Size.Tokens
import CssMinify.Proofs.Stability.Bodies
import CssMinify.Proofs.Stability.Passes
import CssMinify.Proofs.Stability.Settled
import CssMinify.Proofs.Stability.Tokens
import CssMinify.Proofs.Stability.Values
import CssMinify.Proofs.Token.Lexeme
import CssMinify.Proofs.Token.Tiling
import CssMinify.Proofs.Value.Numerals
import CssMinify.Proofs.Value.Shortening
import CssMinify.Property.Basic
import CssMinify.Property.Body
import CssMinify.Property.Merging
import CssMinify.Property.Override
import CssMinify.Property.Restore
import CssMinify.Property.Shadowing
import CssMinify.Property.Split
import CssMinify.Registry
import CssMinify.Registry.Table
import CssMinify.Rules.Adjacent
import CssMinify.Rules.Basic
import CssMinify.Rules.Distant
import CssMinify.Rules.Duplicates
import CssMinify.Rules.Empty
import CssMinify.Rules.FontFaces
import CssMinify.Rules.Hoisting
import CssMinify.Rules.Media
import CssMinify.Rules.Pass
import CssMinify.Selector.Basic
import CssMinify.Selector.Merging
import CssMinify.Selector.Overlap
import CssMinify.Selector.Parser
import CssMinify.Selector.Specificity
import CssMinify.Sheet.Basic
import CssMinify.Sheet.DeclarationParser
import CssMinify.Sheet.Parser
import CssMinify.Sheet.Printer
import CssMinify.Sheet.Spacing
import CssMinify.Text.Ascii
import CssMinify.Text.Blank
import CssMinify.Text.DecimalDigit
import CssMinify.Text.Search
import CssMinify.Token
import CssMinify.Token.Lexer
import CssMinify.Total
import CssMinify.Value.Keyword
import CssMinify.Value.Minify
import CssMinify.Value.Number
import CssMinify.Value.Word
