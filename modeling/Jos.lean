import Jos.Mmu
import Jos.Lib.IntrusiveList
import Jos.Lib.RefCount
import Jos.Lib.Tlb
import Jos.Lib.Loop
import Jos.Lib.Ring
import Jos.Lib.Numeral
import Jos.Kern
import Jos.Pmap
import Jos.PmapLemmas
import Jos.Refs
import Jos.Walk
import Jos.BootMap
import Jos.KernMap
import Jos.Inv
import Jos.PageInit
import Jos.Ops
import Jos.Runs
import Jos.FreeListSound
import Jos.KernMapSound
import Jos.IsolationSound
import Jos.UvptSound
import Jos.WindowSound
import Jos.PageInitSound
import Jos.BootAllocSound
import Jos.BootMapSound
import Jos.TlbSound
import Jos.LookupSound
import Jos.WalkSound
import Jos.InsertSound
import Jos.Lib.Paging
import Jos.PagingSound
import Jos.Env
import Jos.EnvFreeSound
import Jos.EnvIdSound
import Jos.ReservedSound
import Jos.RefCountSound
import Jos.Console
import Jos.ConsSound
import Jos.PutcSound
import Jos.Printfmt
import Jos.Emit
import Jos.CountSound
import Jos.LiteralSound
import Jos.Strtol
import Jos.StrtolSound
import Jos.BootMain
import Jos.BootLoadSound
import Jos.Kdebug
import Jos.KdebugSound
import Jos.Lib.FilterSearch
import Jos.Lib.Traced
import Jos.Stabs
import Jos.BinsearchSound
import Jos.Lib.Partition
import Jos.Check
import Jos.LowMem
import Jos.Stolen
import Jos.Scene
import Jos.CheckPageSound
import Jos.RelinkSound
import Jos.LowMemSound
import Jos.CheckSound
import Jos.BootFrame
import Jos.MemInitSound
import Jos.KernRunSound
import Jos.KernCheck
import Jos.LineSound
import Jos.Lib.Settle
import Jos.PrintfmtMem
import Jos.PrintfmtMemSound
import Jos.Directive
import Jos.NumFieldSound
import Jos.ErrorSound
import Jos.ScanSound
import Jos.CputsSound
import Jos.StrFieldSound
import Jos.BufferSound
import Jos.Ide
import Jos.ReadsegSound
import Jos.Lib.Move
import Jos.Access
import Jos.Memmove
import Jos.MemmoveSound
import Jos.Lib.Terminal
import Jos.Cga
import Jos.CgaSound
import Jos.Kbd
import Jos.KbdSound
import Jos.Readline
import Jos.ReadlineSound
import Jos.Lib.Words
import Jos.Monitor
import Jos.MonitorSound
import Jos.Parts
import Jos.Backtrace
import Jos.BacktraceSound
import Jos.Trap
import Jos.TrapSound
import Jos.Session
import Jos.SessionSound
import Jos.Polls
import Jos.BoardSound
import Jos.PollsSound
