import OperatingSystem.Lib.Transition
import OperatingSystem.Lib.Tally
import OperatingSystem.Lib.TaskPool
import OperatingSystem.Baboon.Crossing
import OperatingSystem.Baboon.Order
import OperatingSystem.Baboon.Overtaking
import OperatingSystem.Baboon.Termination
import OperatingSystem.Baboon.Versions
import OperatingSystem.Thread.Lifecycle
import OperatingSystem.Thread.Calm
import OperatingSystem.Thread.Stranded
import OperatingSystem.Thread.Estimates
import OperatingSystem.Thread.Failing
import OperatingSystem.Thread.Order
import OperatingSystem.Thread.Untimed
import OperatingSystem.Defrag.FreeList
import OperatingSystem.Defrag.DataFile
import OperatingSystem.Defrag.Frame
import OperatingSystem.Defrag.Contents
import OperatingSystem.Defrag.Followed
import OperatingSystem.Defrag.Idempotent
import OperatingSystem.Heap.LastBlock
import OperatingSystem.Heap.Relinked
import OperatingSystem.Heap.CoalesceAll
import OperatingSystem.Heap.Growing
import OperatingSystem.Heap.Ends
import OperatingSystem.Heap.Ledger
import OperatingSystem.Heap.WrongPointer
import OperatingSystem.Heap.Mapping
import OperatingSystem.Heap.Succeeds
import OperatingSystem.Heap.Joined
import OperatingSystem.Heap.UserData
import OperatingSystem.Shell.Recall
import OperatingSystem.Shell.Account
import OperatingSystem.Shell.Versions
import OperatingSystem.Matrix.Extremes
import OperatingSystem.Matrix.Product
import OperatingSystem.Line.Cutting
