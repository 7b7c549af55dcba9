import Deadwood.Main
import Deadwood.Module.Position
import Deadwood.Proofs.Adding
import Deadwood.Proofs.Blanking
import Deadwood.Proofs.Choosing
import Deadwood.Proofs.Counting
import Deadwood.Proofs.Declaring
import Deadwood.Proofs.Deleting
import Deadwood.Proofs.Grouping
import Deadwood.Proofs.Leading
import Deadwood.Proofs.Overriding
import Deadwood.Proofs.Patching
import Deadwood.Proofs.Pruning
import Deadwood.Proofs.Rehearsal
import Deadwood.Proofs.Remembering
import Deadwood.Proofs.Resuming
import Deadwood.Proofs.Settling
import Deadwood.Proofs.Templates
import Deadwood.Proofs.Wordings
