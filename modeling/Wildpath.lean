import Wildpath.Main
import Wildpath.Session
import Wildpath.Proofs.Exactness
import Wildpath.Proofs.Safety
import Wildpath.Proofs.Pruning
import Wildpath.Proofs.Residue
import Wildpath.Proofs.Descent
import Wildpath.Proofs.Order
import Wildpath.Proofs.Limits
import Wildpath.Proofs.Subtree
import Wildpath.Proofs.Grammar
import Wildpath.Proofs.Joining
import Wildpath.Proofs.Composition
import Wildpath.Proofs.Steps
import Wildpath.Proofs.Ending
import Wildpath.Proofs.Emptying
import Wildpath.Proofs.Strictness
import Wildpath.Proofs.Sessions
import Wildpath.Proofs.Rendering
import Wildpath.Proofs.Foreseen
import Wildpath.Proofs.Delivery
import Wildpath.Proofs.Hidden
import Wildpath.Proofs.Repetition
import Wildpath.Proofs.Outline
import Wildpath.Proofs.PathText
import Wildpath.Proofs.Anchoring
import Wildpath.Proofs.WellFormed
import Wildpath.Proofs.Offences
import Wildpath.Proofs.Literal
import Wildpath.Proofs.Concealed
import Wildpath.Proofs.Spelling
import Wildpath.Proofs.NameFilter
import Wildpath.Proofs.RuledPath
import Wildpath.Proofs.Outside
import Wildpath.Proofs.Pruned
import Wildpath.Proofs.ShellHint
import Wildpath.Proofs.Output
import Wildpath.Proofs.DirectoryRules
