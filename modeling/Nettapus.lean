import Nettapus.Proof.HeapRun
import Nettapus.Proof.Pmm
import Nettapus.Proof.SpaceRun
import Nettapus.Proof.SpaceCopy
import Nettapus.Proof.Queue
import Nettapus.Proof.Pipe
import Nettapus.Proof.Ext2Mknod
import Nettapus.Proof.ElfLoad
import Nettapus.Proof.VfsRun
import Nettapus.Proof.PmmFit
import Nettapus.Proof.HeapTile
import Nettapus.Proof.Unmap
import Nettapus.Proof.PageHeap
import Nettapus.Proof.VfsFork
import Nettapus.Proof.Syscall
import Nettapus.Proof.ExitCopy
import Nettapus.Proof.AllocPages
import Nettapus.Proof.Ext2Map
import Nettapus.Proof.Ext2Touch
import Nettapus.Proof.Ext2Alloc
import Nettapus.Proof.VfsCounts
import Nettapus.Proof.Ext2Scan
import Nettapus.Proof.Transfer
import Nettapus.Proof.IdeList
import Nettapus.Proof.Partitions
import Nettapus.Proof.FdClose
import Nettapus.Proof.Seek
import Nettapus.Proof.DirListing
import Nettapus.Proof.DiskLock
import Nettapus.Proof.ElfWindow
import Nettapus.Proof.PathBlocks
import Nettapus.Proof.Ext2Open
import Nettapus.Proof.Arg
import Nettapus.Proof.Pids
import Nettapus.Proof.ElfLocks
import Nettapus.Proof.Config
import Nettapus.Proof.Copy
import Nettapus.Proof.KbdRun
import Nettapus.Proof.Tty
import Nettapus.Proof.Pci
import Nettapus.Proof.Turns
import Nettapus.Proof.InitMemory
import Nettapus.Proof.Processes
import Nettapus.Proof.FileLaws
