import Minterm.Main
import Minterm.Enumeration
import Minterm.Value.Json
import Minterm.Proofs.Evaluation
import Minterm.Proofs.SimplifyMeaning
import Minterm.Proofs.LeftNested
import Minterm.Proofs.Lexing
import Minterm.Proofs.ReducedForm
import Minterm.Proofs.Spelling
import Minterm.Proofs.Phrases
import Minterm.Proofs.Reading
import Minterm.Proofs.ReadNames
import Minterm.Proofs.RoundTrip
import Minterm.Proofs.CanonicalText
import Minterm.Proofs.Lists
import Minterm.Proofs.BitRows
import Minterm.Proofs.GrayCycle
import Minterm.Proofs.BoundNames
import Minterm.Proofs.MapCells
import Minterm.Proofs.Groups
import Minterm.Proofs.CandidateGroups
import Minterm.Proofs.CandidateSearch
import Minterm.Proofs.GreedyCover
import Minterm.Proofs.Minimization
import Minterm.Proofs.Subcubes
import Minterm.Proofs.PrimeImplicants
import Minterm.Proofs.ProductTerms
import Minterm.Proofs.Equivalence
import Minterm.Proofs.BinaryCounting
import Minterm.Proofs.EnumerationLoops
import Minterm.Proofs.CanonicalMinimum
import Minterm.Proofs.ModelCount
import Minterm.Proofs.Tabulation
import Minterm.Proofs.RelevantNames
import Minterm.Proofs.Distribution
import Minterm.Proofs.OrderedProduct
import Minterm.Proofs.NormalForms
import Minterm.Proofs.Grammar
import Minterm.Proofs.ColumnNames
import Minterm.Proofs.TableChecks
import Minterm.Proofs.TableRows
import Minterm.Proofs.Synthesis
import Minterm.Proofs.ColumnOrder
import Minterm.Proofs.AnswerTexts
import Minterm.Proofs.CallerValues
import Minterm.Proofs.SimplifiedHeight
import Minterm.Proofs.SynthesizedHeight
import Minterm.Proofs.ColumnTexts
import Minterm.Proofs.SimplifiedSize
import Minterm.Proofs.SimplifiedShape
import Minterm.Proofs.ReaderHeights
import Minterm.Proofs.DepthLimit
import Minterm.Proofs.ViablePrefix
import Minterm.Proofs.JsonLexemes
import Minterm.Proofs.JsonSpelling
import Minterm.Proofs.JsonOutput
import Minterm.Proofs.Duality
import Minterm.Proofs.NegationNormalForm
import Minterm.Proofs.Models
import Minterm.Proofs.Descent
import Minterm.Proofs.DescentBounds
import Minterm.Proofs.Splitting
import Minterm.Proofs.OffsetScan
import Minterm.Dot.Lexeme
import Minterm.Dot.Picture
import Minterm.Proofs.GateComplements
import Minterm.Proofs.DotLexemes
import Minterm.Proofs.GraphNumbering
import Minterm.Proofs.GraphLabels
import Minterm.Proofs.GraphText
