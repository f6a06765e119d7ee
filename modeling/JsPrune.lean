import JsPrune.Options.Document
import JsPrune.Options.Summary
import JsPrune.Pruning
import JsPrune.Proofs.Span.Union
import JsPrune.Proofs.Text.Blanks
import JsPrune.Proofs.Cut
import JsPrune.Proofs.Padding.Widening
import JsPrune.Proofs.Comment.Lexeme
import JsPrune.Proofs.Comment.Placement
import JsPrune.Proofs.Session.Exactness
import JsPrune.Proofs.Session.Lifecycle
import JsPrune.Proofs.Padding.Comments
import JsPrune.Proofs.Padding.LineBreaks
import JsPrune.Proofs.Padding.Gluing
import JsPrune.Proofs.Session.Comments
import JsPrune.Proofs.Text.Position
import JsPrune.Proofs.SourceMap.Anchors
import JsPrune.Proofs.SourceMap.Exactness
import JsPrune.Proofs.SourceMap.Ascent
import JsPrune.Proofs.Lexical.Scanning
import JsPrune.Proofs.Guarded.Session
import JsPrune.Proofs.Pruning.Comments
import JsPrune.Proofs.Pruning.Statements
import JsPrune.Proofs.Padding.Restranding
import JsPrune.Proofs.Padding.Runs
import JsPrune.Proofs.Comment.Replacement
import JsPrune.Proofs.Pruning.Kept
import JsPrune.Proofs.Pruning.Everything
import JsPrune.Proofs.Pruning.Reparsing
import JsPrune.Proofs.Pruning.Twice
import JsPrune.Proofs.Padding.Monotone
import JsPrune.Proofs.Session.Monotone
import JsPrune.Proofs.Padding.BlankLines
import JsPrune.Proofs.Session.BlankLines
import JsPrune.Proofs.Comment.Blanks
import JsPrune.Proofs.Lexical.Numeral
import JsPrune.Proofs.Lexical.Slashes
import JsPrune.Proofs.SourceMap.Agreement
import JsPrune.Proofs.Text.Offsets
import JsPrune.Proofs.SourceMap.Decoding
import JsPrune.Proofs.Json.Reading
import JsPrune.Proofs.SourceMap.RoundTrip
import JsPrune.Proofs.Pruning.Walk
import JsPrune.Proofs.Pruning.Nodes
import JsPrune.Proofs.Pruning.Outermost
import JsPrune.Proofs.Options.Faults
import JsPrune.Proofs.Options.Reading
import JsPrune.Proofs.Options.Settings
import JsPrune.Proofs.Comment.Category
import JsPrune.Proofs.Comment.Templates
