import LittlePenguin.Lib.Bytes
import LittlePenguin.Lib.Machine
import LittlePenguin.Lib.Walk
import LittlePenguin.Lib.SeqFile
import LittlePenguin.Lib.Reader
import LittlePenguin.Kernel
import LittlePenguin.Mymounts
import LittlePenguin.Mymounts.Listing
import LittlePenguin.Fix
import LittlePenguin.Fix.RoundTrip
import LittlePenguin.Fix.Bounds
import LittlePenguin.MiscDevice
import LittlePenguin.MiscDevice.Writes
import LittlePenguin.Debugfs
import LittlePenguin.Debugfs.Id
import LittlePenguin.Debugfs.Register
import LittlePenguin.Debugfs.Bytewise
import LittlePenguin.Debugfs.Race
import LittlePenguin.Reads
import LittlePenguin.Debugfs.Writes
import LittlePenguin.Debugfs.Jiffies
import LittlePenguin.Fix.Pieces
import LittlePenguin.Mymounts.Removal
import LittlePenguin.Lib.Text
import LittlePenguin.Mymounts.Show
import LittlePenguin.Debugfs.Tree
import LittlePenguin.Modules
import LittlePenguin.Lib.RefCount
import LittlePenguin.Mymounts.Lifetime
import LittlePenguin.MiscDevice.Erasure
import LittlePenguin.Fix.Reverse
import LittlePenguin.Scratch
import LittlePenguin.Lib.Forest
import LittlePenguin.Mymounts.Paths
import LittlePenguin.Lib.SeqChange
import LittlePenguin.Mymounts.Changes
import LittlePenguin.Lib.SeqRead
import LittlePenguin.Mymounts.Reading
import LittlePenguin.Fix.Concurrent
import LittlePenguin.Fix.Readers
import LittlePenguin.Fix.Overtaken
import LittlePenguin.Debugfs.Exclusive
import LittlePenguin.Lib.Ownership
import LittlePenguin.Mymounts.Opening
import LittlePenguin.MiscDevice.Opening
import LittlePenguin.Modules.Opened
