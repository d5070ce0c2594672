import LinuxKernel.Bpf.CfgRuns
import LinuxKernel.Bpf.Totality
import LinuxKernel.Bpf.NonLeak
import LinuxKernel.Bpf.ClassicSafe
import LinuxKernel.Bpf.Debugger
import LinuxKernel.Mm.MemblockInv
import LinuxKernel.Fs.Deadlock
import LinuxKernel.Mm.Isolation
import LinuxKernel.Rbtree.IntervalSearch
import LinuxKernel.Userns.IdMapInv
import LinuxKernel.Dma.SwiotlbInv
import LinuxKernel.Lists.LruCache
import LinuxKernel.Lists.PlistReach
import LinuxKernel.Sched.CpudeadlineInv
import LinuxKernel.Bitmap.RegionInv
import LinuxKernel.Range.RangeSort
import LinuxKernel.Asn1.Actions
import LinuxKernel.Asn1.Bounds
import LinuxKernel.Net.IpFragmentInv
import LinuxKernel.Resource.ResourceInv
import LinuxKernel.Unix.GarbageInv
import LinuxKernel.Devcg.HierarchyInv
import LinuxKernel.Acl.Evaluation
import LinuxKernel.Mm.PageCounterInv
import LinuxKernel.Kconfig.Compare
import LinuxKernel.Ipc.Semop
import LinuxKernel.Fs.Eventpoll
import LinuxKernel.Lz842.Decompress
import LinuxKernel.Fs.SeqFault
import LinuxKernel.Arith.ReciprocalDiv
import LinuxKernel.Arith.Div64
import LinuxKernel.Bitmap.ZeroArea
import LinuxKernel.Bitmap.Shift
import LinuxKernel.Mm.Dram
import LinuxKernel.Net.IpVsWlc
import LinuxKernel.Net.IpVsWrrProgress
import LinuxKernel.Time.Jiffies
import LinuxKernel.Str.Escape
import LinuxKernel.Str.Kstrtox
