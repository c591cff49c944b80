import Storyworld.Main
import Storyworld.Proofs.Document.Accounted
import Storyworld.Proofs.Document.Attribution
import Storyworld.Proofs.Document.Broken
import Storyworld.Proofs.Document.Expected
import Storyworld.Proofs.Document.Parentheses
import Storyworld.Proofs.Document.Segments
import Storyworld.Proofs.Document.Sequence
import Storyworld.Proofs.Document.Source
import Storyworld.Proofs.Document.Spacing
import Storyworld.Proofs.Document.Truncation
import Storyworld.Proofs.Document.Warnings
import Storyworld.Proofs.Form.Definitions
import Storyworld.Proofs.Form.Document
import Storyworld.Proofs.Form.Levels
import Storyworld.Proofs.Form.Weight
import Storyworld.Proofs.Grammar.Commas
import Storyworld.Proofs.Grammar.Members
import Storyworld.Proofs.Grammar.Termination
import Storyworld.Proofs.Layout.Outcome
import Storyworld.Proofs.Nesting.Exact
import Storyworld.Proofs.Position.Report
import Storyworld.Proofs.Shape.Builds
import Storyworld.Proofs.Shape.Ensures
import Storyworld.Proofs.Shape.Independence
import Storyworld.Proofs.Shape.Reorders
import Storyworld.Proofs.Shape.Reports
import Storyworld.Proofs.Shape.WellShaped
import Storyworld.Proofs.Spelling.Changes
import Storyworld.Proofs.Spelling.Condition
import Storyworld.Proofs.Spelling.Document
import Storyworld.Proofs.Spelling.Effect
import Storyworld.Proofs.Spelling.Goal
import Storyworld.Proofs.Spelling.Item
import Storyworld.Proofs.Spelling.Npc
import Storyworld.Proofs.Spelling.Overlay
import Storyworld.Proofs.Spelling.Room
import Storyworld.Proofs.Spelling.Statement
import Storyworld.Proofs.Spelling.Trigger
import Storyworld.Proofs.Token.Bytes
import Storyworld.Proofs.Token.Quoting
import Storyworld.Proofs.Token.Tiling
import Storyworld.Proofs.Relabel.Reading
import Storyworld.Proofs.Shape.Numbers
import Storyworld.Proofs.Relabel.Building
import Storyworld.Proofs.Token.Numeral
import Storyworld.Proofs.Document.Numbers
