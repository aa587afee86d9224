import Tableaux.Document.Fault
import Tableaux.Main
import Tableaux.Proofs.Accounting
import Tableaux.Proofs.Arena.Integrity
import Tableaux.Proofs.Decision
import Tableaux.Proofs.Documents
import Tableaux.Proofs.Independence
import Tableaux.Proofs.Loading
import Tableaux.Proofs.Refusals
import Tableaux.Proofs.Resumption
import Tableaux.Proofs.Reversal
import Tableaux.Proofs.Rules
import Tableaux.Proofs.SettingsText
import Tableaux.Proofs.Skeleton
import Tableaux.Proofs.Sweep
import Tableaux.Proofs.Thrift
import Tableaux.Session
