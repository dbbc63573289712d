import RadixStore.Proofs.Chain.Reads
import RadixStore.Proofs.Cursor.Pointers
import RadixStore.Proofs.Cursor.Run
import RadixStore.Proofs.Cursor.Upcoming
import RadixStore.Proofs.Lock.Run
import RadixStore.Proofs.Lock.Validation
import RadixStore.Proofs.Node.Table
import RadixStore.Proofs.Store.Abandonment
import RadixStore.Proofs.Store.Collection
import RadixStore.Proofs.Store.Conservation
import RadixStore.Proofs.Store.Convergence
import RadixStore.Proofs.Store.Ledger
import RadixStore.Proofs.Store.Order
import RadixStore.Proofs.Store.PendingOrder
import RadixStore.Proofs.Store.Publication
import RadixStore.Proofs.Store.Retries
import RadixStore.Proofs.Store.Safepoint
import RadixStore.Proofs.Store.Separation
import RadixStore.Proofs.Store.Sharing
import RadixStore.Proofs.Store.Sweeps
import RadixStore.Proofs.Store.Updates
import RadixStore.Proofs.Store.Visibility
import RadixStore.Proofs.Tree.Arrangement
import RadixStore.Proofs.Tree.Balance
import RadixStore.Proofs.Tree.Bounds
import RadixStore.Proofs.Tree.Form
import RadixStore.Proofs.Tree.LockWords
import RadixStore.Proofs.Tree.Progress
import RadixStore.Script.Lock
import RadixStore.Script.Store
import RadixStore.Script.Tree
