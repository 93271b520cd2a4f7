import SyntaxTree.Stack
import SyntaxTree.Proofs.ReadsBack
import SyntaxTree.Proofs.Scalar
import SyntaxTree.Proofs.ReadSpelling
import SyntaxTree.Proofs.SkipSpelling
import SyntaxTree.Proofs.PlaceSpelling
import SyntaxTree.Proofs.Spelled
import SyntaxTree.Proofs.SpelledValue
import SyntaxTree.Proofs.SpelledPlace
import SyntaxTree.Proofs.Brackets
import SyntaxTree.Proofs.NumberValue
import SyntaxTree.Proofs.NumberLayout
import SyntaxTree.Proofs.ValueSpelling
import SyntaxTree.Proofs.Room
import SyntaxTree.Proofs.NodeText
import SyntaxTree.Proofs.Fits
import SyntaxTree.Proofs.FitsNode
import SyntaxTree.Proofs.RoundTrip
import SyntaxTree.Proofs.Frames
import SyntaxTree.Proofs.Holes
import SyntaxTree.Proofs.Sites
import SyntaxTree.Proofs.Identical
import SyntaxTree.Proofs.MemberOrder
import SyntaxTree.Proofs.Rearranged
import SyntaxTree.Proofs.RearrangedText
import SyntaxTree.Proofs.PositionalText
import SyntaxTree.Proofs.PlainText
import SyntaxTree.Proofs.Mistakes
import SyntaxTree.Proofs.OtherRecords
import SyntaxTree.Proofs.CutNodes
import SyntaxTree.Proofs.NumberTexts
import SyntaxTree.Proofs.Nearest
import SyntaxTree.Proofs.ShortestDecimal
import SyntaxTree.Proofs.NumberShape
import SyntaxTree.Proofs.OneField
import SyntaxTree.Proofs.NumberPlace
import SyntaxTree.Proofs.LongNumbers
import SyntaxTree.Proofs.NumberReading
import SyntaxTree.Proofs.IntegerForms
import SyntaxTree.Proofs.Walk
import SyntaxTree.Proofs.FurtherMembers
import SyntaxTree.Proofs.Respelled
import SyntaxTree.Proofs.ObjectOrder
import SyntaxTree.Proofs.Grouping
import SyntaxTree.Proofs.Parentheses
import SyntaxTree.Proofs.BuilderRuns
import SyntaxTree.Proofs.OperandChains
import SyntaxTree.Proofs.Equality
import SyntaxTree.Proofs.KindNames
import SyntaxTree.Proofs.ErrorMessages
