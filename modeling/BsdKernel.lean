import BsdKernel.Lib.Alternate
import BsdKernel.Lib.Trace
import BsdKernel.Lib.Intervals
import BsdKernel.Lib.Bytes
import BsdKernel.Subr.Disksort
import BsdKernel.Subr.DisksortRuns
import BsdKernel.Subr.DisksortBarrier
import BsdKernel.Subr.Rlist
import BsdKernel.Net.BpfFilter
import BsdKernel.Net.BpfValidate
import BsdKernel.Net.BpfChain
import BsdKernel.Net.Slcompress
import BsdKernel.Net.SlReceive
import BsdKernel.Net.SlDecode
import BsdKernel.Net.SlLine
import BsdKernel.Vm.Object
import BsdKernel.Vm.Collapse
import BsdKernel.Vm.Map
import BsdKernel.Vm.MapLinked
import BsdKernel.Vm.MapShares
import BsdKernel.Vm.MapOps
import BsdKernel.Vm.MapFork
import BsdKernel.Vm.MapRuns
import BsdKernel.Lib.Patricia
import BsdKernel.Lib.Recency
import BsdKernel.Net.Radix
import BsdKernel.Net.RadixKeys
import BsdKernel.Net.RadixAdd
import BsdKernel.Net.RadixInsert
import BsdKernel.Net.RadixMemory
import BsdKernel.Net.RadixDelete
import BsdKernel.Net.RadixMatch
import BsdKernel.Net.RadixRuns
import BsdKernel.Kern.Sockbuf
import BsdKernel.Kern.SockbufCount
import BsdKernel.Kern.SockbufRecords
import BsdKernel.Kern.Soreceive
import BsdKernel.Kern.Sosend
import BsdKernel.Kern.Callout
import BsdKernel.Kern.Descrip
import BsdKernel.Kern.DescripTable
import BsdKernel.Kern.DescripRuns
import BsdKernel.Lib.Linked
import BsdKernel.Kern.Malloc
import BsdKernel.Kern.Lockmgr
import BsdKernel.Ufs.Lockf
import BsdKernel.Ufs.LockfRanges
import BsdKernel.Ufs.LockfRuns
import BsdKernel.Ufs.LockfChains
import BsdKernel.Ufs.LockfWait
import BsdKernel.Ufs.LockfWaitRuns
import BsdKernel.Kern.UnpGc
import BsdKernel.Kern.UnpMark
import BsdKernel.Kern.UnpSweep
import BsdKernel.Dosfs.Fat
import BsdKernel.Dosfs.FatAlloc
import BsdKernel.Dosfs.Name
import BsdKernel.Dosfs.DosTime
import BsdKernel.Inet.Pcb
import BsdKernel.Inet.PcbBind
import BsdKernel.Inet.TcpOptions
import BsdKernel.Inet.TcpRestart
import BsdKernel.Lib.OnesComplement
import BsdKernel.Inet.InCksum
import BsdKernel.Inet.IpReass
import BsdKernel.Inet.IpInput
import BsdKernel.Net.BpfPromisc
import BsdKernel.Ufs.Iget
import BsdKernel.Lib.Records
import BsdKernel.Net.BpfBuf
import BsdKernel.Net.BpfRecords
import BsdKernel.Net.Slip
import BsdKernel.Inet.IpOutput
import BsdKernel.Kern.NameCache
import BsdKernel.Ufs.Dir
import BsdKernel.Ufs.DirEntries
import BsdKernel.Ufs.DirSearch
import BsdKernel.Ufs.DirEnter
import BsdKernel.Ufs.DirRuns
import BsdKernel.Lib.Command
import BsdKernel.Lib.Extents
import BsdKernel.Ufs.Bmap
import BsdKernel.Ufs.BmapTree
import BsdKernel.Ufs.BmapAlloc
import BsdKernel.Ufs.BallocFail
import BsdKernel.Ufs.Indirtrunc
import BsdKernel.Ufs.BallocWithin
import BsdKernel.Ufs.ItruncSize
import BsdKernel.Ufs.ItruncFree
import BsdKernel.Ufs.Itrunc
import BsdKernel.Lib.Tailq
import BsdKernel.Kern.Vnode
import BsdKernel.Kern.VnodeRuns
import BsdKernel.Lib.Loop
import BsdKernel.Kern.Pid
import BsdKernel.Kern.PidRuns
import BsdKernel.Lib.Tally
import BsdKernel.Kern.Proccnt
import BsdKernel.Kern.ProccntRuns
import BsdKernel.Lib.Bitset
import BsdKernel.Kern.Sig
import BsdKernel.Kern.SigRuns
import BsdKernel.Kern.Tty
import BsdKernel.Kern.TtyBlock
import BsdKernel.Kern.TtyWrite
import BsdKernel.Kern.Bio
import BsdKernel.Kern.BioInv
import BsdKernel.Kern.BioOps
import BsdKernel.Kern.BioRuns
import BsdKernel.Kern.Namei
import BsdKernel.Kern.NameiBalance
import BsdKernel.Subr.Esym
import BsdKernel.Vm.MapSeen
import BsdKernel.Vm.Protect
import BsdKernel.Vm.Findspace
import BsdKernel.Vm.FirstFree
import BsdKernel.Vm.FindspaceRuns
import BsdKernel.Nfs.Compress
import BsdKernel.Nfs.CompressCode
import BsdKernel.Nfs.CompressLossless
import BsdKernel.Nfs.Srvcache
import BsdKernel.Nfs.SrvcacheInv
import BsdKernel.Nfs.SrvcacheRuns
import BsdKernel.Net.Rtsock
import BsdKernel.Net.RtsockMessages
import BsdKernel.Net.RtsockXaddrs
import BsdKernel.Net.Route
import BsdKernel.Net.RouteInv
import BsdKernel.Net.RouteOps
import BsdKernel.Net.RouteCallers
import BsdKernel.Net.RouteRuns
import BsdKernel.Lib.Signed
import BsdKernel.Kern.Time
import BsdKernel.Kern.Adjtime
import BsdKernel.Kern.Hzto
import BsdKernel.Subr.RlistPanic
import BsdKernel.Lib.Ring
import BsdKernel.Vm.MapLookup
import BsdKernel.Vm.MapPlaced
import BsdKernel.Vm.Wire
import BsdKernel.Vm.Pageable
import BsdKernel.Kern.Fdavail
import BsdKernel.Kern.DescripArgs
import BsdKernel.Kern.Mbuf
import BsdKernel.Kern.MbufSplit
import BsdKernel.Kern.MbufPullup
import BsdKernel.Kern.MbufCopy
import BsdKernel.Kern.MbufAdj
import BsdKernel.Dosfs.Pcbmap
import BsdKernel.Inet.InsertOptions
import BsdKernel.Net.BpfIfname
import BsdKernel.Net.BpfWrite
import BsdKernel.Vm.PageStartup
import BsdKernel.Subr.BoundsCheck
import BsdKernel.Subr.Ring
import BsdKernel.Lib.Window
import BsdKernel.Scripts.Text
import BsdKernel.Scripts.FixDuplicates
import BsdKernel.Scripts.FixKr
