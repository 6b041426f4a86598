import BitGrammar.Proofs.Binding
import BitGrammar.Proofs.ByteSets
import BitGrammar.Proofs.CheckedRun
import BitGrammar.Proofs.ChoiceLaws
import BitGrammar.Proofs.Concatenation
import BitGrammar.Proofs.ContinuationLaws
import BitGrammar.Proofs.Elision
import BitGrammar.Proofs.EmbeddedRun
import BitGrammar.Proofs.Exclusions
import BitGrammar.Proofs.ExclusiveParity
import BitGrammar.Proofs.FieldEncoding
import BitGrammar.Proofs.FirstBinding
import BitGrammar.Proofs.FixedWidth
import BitGrammar.Proofs.Forward
import BitGrammar.Proofs.FurthestFailure
import BitGrammar.Proofs.Identifiers
import BitGrammar.Proofs.IntegerRange
import BitGrammar.Proofs.LeadingBlanks
import BitGrammar.Proofs.LengthPrefix
import BitGrammar.Proofs.LiteralBytes
import BitGrammar.Proofs.LocationContext
import BitGrammar.Proofs.LongestRepetition
import BitGrammar.Proofs.Parentheses
import BitGrammar.Proofs.PermutationOrder
import BitGrammar.Proofs.Positions
import BitGrammar.Proofs.ProperUse
import BitGrammar.Proofs.Recognition
import BitGrammar.Proofs.RightRecursion
import BitGrammar.Proofs.SeparatedList
import BitGrammar.Proofs.SlotRepair
import BitGrammar.Proofs.Termination
import BitGrammar.Proofs.ValueText
import BitGrammar.Proofs.WordRead
import BitGrammar.Session
