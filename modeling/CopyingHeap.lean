import CopyingHeap.Heap.Words
import CopyingHeap.Proofs.Collection.Breadth
import CopyingHeap.Proofs.Collection.Canonical
import CopyingHeap.Proofs.Collection.Census
import CopyingHeap.Proofs.Collection.Cheney
import CopyingHeap.Proofs.Collection.Comparison
import CopyingHeap.Proofs.Collection.Forged
import CopyingHeap.Proofs.Collection.Moments
import CopyingHeap.Proofs.Collection.Repetition
import CopyingHeap.Proofs.Collection.Spared
import CopyingHeap.Proofs.Collection.Turns
import CopyingHeap.Proofs.Construct.Assignment
import CopyingHeap.Proofs.Construct.Chains
import CopyingHeap.Proofs.Construct.Numbers
import CopyingHeap.Proofs.Construct.Strings
import CopyingHeap.Proofs.Heap.Evolution
import CopyingHeap.Proofs.Heap.Expansion
import CopyingHeap.Proofs.Heap.StackRoom
import CopyingHeap.Proofs.HostLimit
import CopyingHeap.Proofs.Memory.Faithful
import CopyingHeap.Proofs.Options.Settings
import CopyingHeap.Proofs.Program.Accounts
import CopyingHeap.Proofs.Program.Invariant
import CopyingHeap.Proofs.Program.Parsing
import CopyingHeap.Proofs.Program.Run
import CopyingHeap.Proofs.Program.Schedule
import CopyingHeap.Proofs.Program.Zeroing
import CopyingHeap.Proofs.ShadowStack
import CopyingHeap.Proofs.StartBits.Marks
import CopyingHeap.Proofs.Value
