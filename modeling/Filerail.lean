import Filerail.Proofs.Resume
import Filerail.Proofs.Healing
import Filerail.Proofs.Agreement
import Filerail.Proofs.Seek
import Filerail.Proofs.Ending
import Filerail.Proofs.Packets
import Filerail.Proofs.Tail
import Filerail.Proofs.Acceptance
import Filerail.Proofs.Listening
import Filerail.Proofs.Truth
import Filerail.Proofs.Isolation
import Filerail.Proofs.Names
import Filerail.Proofs.Keys
import Filerail.Proofs.Removal
import Filerail.Proofs.Folder
import Filerail.Proofs.Storage
import Filerail.Proofs.Checkpoints
import Filerail.Proofs.Undoing
import Filerail.Proofs.Wire
import Filerail.Proofs.Dialogue
import Filerail.Proofs.Consent
import Filerail.Proofs.Integrity
import Filerail.Proofs.RoundTrip
import Filerail.Proofs.Confinement
