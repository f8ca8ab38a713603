import Reckon.Main
import Reckon.Proofs.Agreement
import Reckon.Proofs.RoundTrip
import Reckon.Proofs.Blame
import Reckon.Proofs.Depth
import Reckon.Proofs.Sessions
import Reckon.Proofs.Conflicts
import Reckon.Proofs.Registration
import Reckon.Proofs.Reporting
import Reckon.Proofs.Acceptance
import Reckon.Proofs.TextSearch
import Reckon.Proofs.Interruption
import Reckon.Proofs.Printout
import Reckon.Proofs.Excerpt
import Reckon.Proofs.PostOrder
import Reckon.Proofs.Bounds
import Reckon.Proofs.Spacing
import Reckon.Proofs.LineSpacing
import Reckon.Proofs.Refusal
import Reckon.Proofs.Surplus
import Reckon.Proofs.Subscripts
import Reckon.Proofs.Literals
import Reckon.Proofs.Integers
import Reckon.Proofs.Patterns
import Reckon.Proofs.Allocation
import Reckon.Proofs.Messages
import Reckon.Proofs.Decimals
