import SpicaKernel.AshmemPreservation
import SpicaKernel.BinderDeathRuns
import SpicaKernel.BinderDescriptors
import SpicaKernel.BinderFreeBuf
import SpicaKernel.BinderStackRuns
import SpicaKernel.DpramReads
import SpicaKernel.IdaRuns
import SpicaKernel.LoggerDelivery
import SpicaKernel.MmapMerge
import SpicaKernel.Multipdp
import SpicaKernel.NetlinkAttrs
import SpicaKernel.PageAllocatorRuns
import SpicaKernel.PidMap
import SpicaKernel.PosixLockWaits
import SpicaKernel.RadixTreeGang
import SpicaKernel.RamConsole
import SpicaKernel.Rational
import SpicaKernel.ResourceTree
import SpicaKernel.Rtime
import SpicaKernel.Semaphores
import SpicaKernel.SocketFilterRuns
import SpicaKernel.TimerWheelCache
import SpicaKernel.WakeLocks
import SpicaKernel.YaffsEcc
