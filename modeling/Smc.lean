import Smc.GcdPlatforms
import Smc.Tp2.AtomicGcd
import Smc.Tp2.VgsbArbitration
import Smc.Tp2.VgsbCounters
import Smc.Tp2.ParallelPlatform
import Smc.Giet.BarrierInit
import Smc.Giet.Transparency
import Smc.Giet.Dma
import Smc.Giet.Ioc
import Smc.Giet.Tty
import Smc.Tp2.Cacheability
import Smc.Tp2.RoutingTables
import Smc.Giet.SwitchMasked
import Smc.Giet.Dispatch
import Smc.Giet.TtyWrite
import Smc.Lib.Numerals
import Smc.Tp2.ResponseStability
import Smc.App.TtyPrintf
import Smc.App.Rendering
import Smc.Lib.LineEdit
import Smc.App.TtyGets
import Smc.App.TtyGetw
import Smc.App.SysCall
import Smc.Tp2.BlockWalk
import Smc.Tp2.AddressMaskingTable
import Smc.Lib.MixedRadix
import Smc.Tp2.Identifiers
import Smc.Giet.Memcpy
import Smc.Giet.Dcache
import Smc.Giet.Itoa
import Smc.App.PutwGetw
import Smc.App.FormatScan
import Smc.Tp2.IntTabCells
import Smc.Lib.Temporal
import Smc.Tp2.BusSchedule
import Smc.Tp2.ParallelProgress
import Smc.Tp2.TwoMasters
import Smc.Giet.BarrierLive
import Smc.Giet.CrashReport
import Smc.Tp2.Elaboration
import Smc.App.TerminalInput
import Smc.Giet.IocLive
import Smc.Giet.FrameBuffer
