import SukiOS.PmmAccounting
import SukiOS.Multiboot
import SukiOS.HeapStats
import SukiOS.Irq
import SukiOS.ContextIsolation
import SukiOS.VmmProgress
import SukiOS.VmmWindows
import SukiOS.VmmExact
import SukiOS.Fat32Remount
import SukiOS.VfsListing
import SukiOS.VfsFile
import SukiOS.VfsRuns
import SukiOS.VfsReaders
import SukiOS.KeyboardLeds
import SukiOS.ExecveCall
import SukiOS.ProcCreate
import SukiOS.ElfVmm
import SukiOS.VfsIterate
import SukiOS.HeapFailure
import SukiOS.HeapContents
import SukiOS.Fat32Mount
import SukiOS.VmmAllocFail
import SukiOS.VmmQueries
import SukiOS.VmmRights
import SukiOS.VmmMmio
import SukiOS.Acpi
import SukiOS.Apic
import SukiOS.ApicTimer
import SukiOS.Fat32Scan
import SukiOS.Fat32Atomic
import SukiOS.Fat32Free
import SukiOS.Ide
import SukiOS.KeyboardHeld
import SukiOS.KeyboardRepeat
import SukiOS.KeyboardRing
import SukiOS.TtyShows
import SukiOS.EchoLine
import SukiOS.VfsPowerCut
import SukiOS.IdeInit
import SukiOS.Uart
import SukiOS.PciEnumerate
import SukiOS.IshellScreen
import SukiOS.Rtc
import SukiOS.Stubs
