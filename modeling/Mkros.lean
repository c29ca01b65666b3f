import Mkros.Lib.Writes
import Mkros.Lib.CInt
import Mkros.Printk.RingBuffer
import Mkros.Fs.Log
import Mkros.Fs.LogCrash
import Mkros.Mm.BootmemSpec
import Mkros.Kernel.Kalloc
import Mkros.Lib.RiscvPaging
import Mkros.Kernel.VmSpec
import Mkros.Kernel.DeviceTreeSpec
import Mkros.Mm.Numa
import Mkros.Fs.Links
import Mkros.Fs.LogAdmission
import Mkros.Fs.BioSpec
import Mkros.Kernel.PipeSpec
import Mkros.Kernel.ProcSpec
import Mkros.Kernel.KallocSpec
import Mkros.Mm.BootmemInit
import Mkros.Printk.VsprintfSpec
import Mkros.Kernel.ConsoleSpec
import Mkros.Kernel.VirtioSpec
import Mkros.Kernel.SchedSpec
import Mkros.Kernel.VmCopy
import Mkros.Fs.Dir
import Mkros.Fs.DataSpec
import Mkros.Kernel.VmMap
import Mkros.Kernel.Intr
import Mkros.Fs.FreeMap
import Mkros.Fs.BlockMap
import Mkros.Fs.Path
import Mkros.Fs.Itable
import Mkros.Kernel.UserCopy
import Mkros.Fs.Ftable
import Mkros.Fs.FileRw
import Mkros.Kernel.Uart
import Mkros.Kernel.Sleeplock
import Mkros.Libfdt.Read
