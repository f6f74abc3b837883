import Rodvin.Lib.Runs
import Rodvin.Lib.Words
import Rodvin.Lib.BitField
import Rodvin.Lib.InPlace
import Rodvin.Lib.Named
import Rodvin.Lib.Entries
import Rodvin.Lib.Bytes
import Rodvin.Lib.Lanes
import Rodvin.Lib.Checked
import Rodvin.Lib.Marked
import Rodvin.Lib.Descent
import Rodvin.Lib.Ways
import Rodvin.Lib.DoublyLinked
import Rodvin.Lib.Separated
import Rodvin.Lib.Fuel
import Rodvin.Libc.Deque
import Rodvin.Libc.DequeProofs
import Rodvin.Libc.SharedPtr
import Rodvin.Libc.SharedPtrProofs
import Rodvin.Libc.Vector
import Rodvin.Libc.VectorProofs
import Rodvin.Libc.Vectormap
import Rodvin.Libc.VectormapOnVector
import Rodvin.Libc.CString
import Rodvin.Libc.Memory
import Rodvin.Libc.Printf
import Rodvin.Libc.PrintfNumbers
import Rodvin.Libc.FormatScan
import Rodvin.Libc.PrintfStrtol
import Rodvin.Libc.Str
import Rodvin.Libc.StrProofs
import Rodvin.Libc.StrEdits
import Rodvin.Libc.Search
import Rodvin.Libc.Utf8
import Rodvin.Libc.Utf8Proofs
import Rodvin.Libc.Utf16Proofs
import Rodvin.Libc.Iteration
import Rodvin.Libc.Path
import Rodvin.Libc.PathProofs
import Rodvin.Libc.PathLaws
import Rodvin.Libc.PathOnStr
import Rodvin.Kernel.Var
import Rodvin.Kernel.Pci
import Rodvin.Kernel.PciDetect
import Rodvin.Kernel.Framebuffer
import Rodvin.Kernel.Console
import Rodvin.Kernel.EditLine
import Rodvin.Kernel.Split
import Rodvin.Kernel.EditScreen
import Rodvin.Kernel.Scancodes
import Rodvin.Kernel.Keyboard
import Rodvin.Kernel.PageAlloc
import Rodvin.Kernel.Heap
import Rodvin.Kernel.HeapProofs
import Rodvin.Kernel.HeapSearch
import Rodvin.Kernel.HeapRealloc
import Rodvin.Kernel.Fat
import Rodvin.Kernel.FatVolume
import Rodvin.Kernel.FatGeometry
import Rodvin.Kernel.FatFileProofs
import Rodvin.Kernel.FatDirProofs
import Rodvin.Kernel.FatNames
import Rodvin.Kernel.FatSeek
import Rodvin.Kernel.FatLoops
import Rodvin.Kernel.Partitions
import Rodvin.Kernel.Paging
import Rodvin.Kernel.PagingProofs
import Rodvin.Kernel.Ps2Keyboard
import Rodvin.Kernel.Mailbox
import Rodvin.Kernel.MailboxProofs
import Rodvin.Kernel.Vfs
import Rodvin.Kernel.VfsTrees
import Rodvin.Kernel.Ide
import Rodvin.Kernel.IdeProofs
import Rodvin.Kernel.FatLookup
import Rodvin.Kernel.Shell
import Rodvin.Kernel.ShellProofs
import Rodvin.Kernel.Typing
import Rodvin.Kernel.Xml
import Rodvin.Kernel.XmlProofs
import Rodvin.Kernel.XmlTokens
import Rodvin.Kernel.XmlTokensProofs
import Rodvin.Lib.Ask
import Rodvin.Kernel.XmlCalls
import Rodvin.Kernel.XmlBounds
import Rodvin.Kernel.XmlMemory
import Rodvin.Kernel.XmlProgress
import Rodvin.Kernel.XmlLeaks
import Rodvin.Boot.BootSector
import Rodvin.Boot.Memory
import Rodvin.Boot.MemoryProofs
import Rodvin.Boot.Elf
import Rodvin.Boot.ElfProofs
import Rodvin.Starfs.Volume
import Rodvin.Starfs.Directory
import Rodvin.Starfs.Mkfs
import Rodvin.Starfs.Operations
import Rodvin.Starfs.VolumeProofs
import Rodvin.Starfs.MkfsProofs
import Rodvin.Starfs.Failures
import Rodvin.Starfs.FileProofs
import Rodvin.Starfs.Extents
import Rodvin.Starfs.DirectoryProofs
import Rodvin.Starfs.DirectoryMaps
import Rodvin.Starfs.Resolution
import Rodvin.Starfs.ReadFile
import Rodvin.Starfs.LinkCounts
import Rodvin.Starfs.LinkCountsProofs
import Rodvin.Starfs.LinkCountsRuns
import Rodvin.Starfs.Ownership
import Rodvin.Starfs.OwnershipProofs
import Rodvin.Starfs.OwnershipRuns
import Rodvin.Starfs.Statistics
import Rodvin.Starfs.Overlay
import Rodvin.Starfs.DirectoryGraph
import Rodvin.Starfs.Renaming
import Rodvin.Starfs.DirStream
import Rodvin.Starfs.FileStore
