import Cxlalloc.Proofs.Conservation
import Cxlalloc.Proofs.Memalign
import Cxlalloc.Proofs.Slots
import Cxlalloc.Proofs.Realloc
import Cxlalloc.Proofs.Alignment
import Cxlalloc.Proofs.Recover
import Cxlalloc.Proofs.RecoverFree
import Cxlalloc.Proofs.Mcas
import Cxlalloc.Proofs.Evidence
import Cxlalloc.Proofs.Hazards
import Cxlalloc.Proofs.Wrapping
import Cxlalloc.Proofs.Dax
import Cxlalloc.Proofs.Reservation
import Cxlalloc.Proofs.Stat
import Cxlalloc.Proofs.Pointers
import Cxlalloc.Proofs.ArenaOverflow
import Cxlalloc.Proofs.HugeUnmap
import Cxlalloc.Proofs.RemoteClaims
import Cxlalloc.Proofs.GlobalStack
import Cxlalloc.Proofs.Caches
import Cxlalloc.Proofs.RecoverBump
import Cxlalloc.Proofs.HeapAlone
