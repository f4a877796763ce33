import Foos.Memory
import Foos.CString
import Foos.Frame
import Foos.Word
import Foos.Tiling
import Foos.Transition
import Foos.Kmalloc
import Foos.HeapChain
import Foos.HeapSplice
import Foos.HeapMerge
import Foos.HeapFree
import Foos.HeapSplit
import Foos.HeapLookup
import Foos.HeapTail
import Foos.HeapSpec
import Foos.HeapRuns
import Foos.HeapCoalesce
import Foos.HeapReuse
import Foos.HeapLinks
import Foos.HeapZero
import Foos.Libc
import Foos.Program
import Foos.World
import Foos.Device
import Foos.Inode
import Foos.Devfs
import Foos.DevfsInit
import Foos.Ramfs
import Foos.Wrap
import Foos.Supply
import Foos.Bitmap
import Foos.Pmem
import Foos.FrameRuns
import Foos.Vmem
import Foos.PageTables
import Foos.IdentityMap
import Foos.HeapSupply
import Foos.OpenClose
import Foos.Mount
import Foos.ImageCheck
import Foos.RootDirectory
import Foos.MountedFiles
import Foos.PartialReads
import Foos.HeapLease
import Foos.HeapSpare
import Foos.PathTree
import Foos.Lookup
import Foos.Delay
import Foos.Tokens
import Foos.Tty
import Foos.Screen
import Foos.Keyboard
import Foos.Typing
import Foos.Echo
import Foos.CursorPorts
import Foos.TtyDevice
import Foos.LifeCycle
import Foos.LiveKeyboard
import Foos.DeviceErrors
import Foos.DeviceReads
import Foos.DirCheck
import Foos.Modifiers
import Foos.LineEditor
import Foos.CharPlane
import Foos.Attributes
import Foos.Memmem
import Foos.Acpi
import Foos.FrameSet
import Foos.PageSlots
import Foos.HeapFirstFit
import Foos.HeapLanding
import Foos.HeapBound
import Foos.HeapAlign
import Foos.Printf
import Foos.Numeral
import Foos.Conv
import Foos.Digits
import Foos.Vsprintf
import Foos.FormatScan
import Foos.Rendering
import Foos.Shell
import Foos.ShellBuffers
import Foos.Atoi
import Foos.Cmpsb
import Foos.Occurrence
import Foos.Search
import Foos.SignedOrder
import Foos.StringOrder
import Foos.Aml
import Foos.Shutdown
import Foos.Rsdt
import Foos.AcpiInit
import Foos.BootRsdp
import Foos.CatFile
import Foos.CatRuns
import Foos.CatPrints
import Foos.WholeReads
import Foos.CommandLine
import Foos.Dispatch
import Foos.MountedTree
import Foos.Components
import Foos.Listings
import Foos.DeviceCommands
import Foos.HeapReport
import Foos.Cpu
import Foos.Stubs
import Foos.Idt
import Foos.Pic
import Foos.PicRuns
import Foos.PicMasks
import Foos.IrqPath
import Foos.Serial
import Foos.SerialRuns
import Foos.StackTrace
import Foos.BootChain
import Foos.Answers
import Foos.Sessions
import Foos.SessionRuns
