import G9OS.Kernel.Containment
import G9OS.Kernel.SlotReuse
import G9OS.Kernel.ShmOpen
import G9OS.Kernel.WaitStat
import G9OS.Kernel.Lookup
import G9OS.Kernel.ReadCount
import G9OS.Mutex.Init
import G9OS.Mutex.Starvation
import G9OS.Sched.Accounting
import G9OS.Smp.Passes
import G9OS.Smp.Reaping
import G9OS.Smp.Ticks
import G9OS.Smp.Procinfo
import G9OS.Counter.Law
import G9OS.Shell.Segments
import G9OS.Shell.Leaks
import G9OS.Shell.Builtins
import G9OS.Shell.Bounds
import G9OS.Tools.ExitStatus
import G9OS.Tools.Effects
import G9OS.Tools.CatLayout
import G9OS.Tools.RmDepth
import G9OS.Tools.Ls
import G9OS.Tools.Wc
import G9OS.Tools.Grep
import G9OS.FileSys.LogSpace
import G9OS.FileSys.BioStore
import G9OS.Pipes.Wakeups
import G9OS.User.Grep
import G9OS.FileSys.FileWrite
import G9OS.FileSys.Dir
