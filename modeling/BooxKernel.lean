import BooxKernel.Bitmap.Regions
import BooxKernel.Bitmap.Shift
import BooxKernel.Bpf.Packet
import BooxKernel.Bpf.Scratch
import BooxKernel.Buddy.Runs
import BooxKernel.Crc32.Equivalence
import BooxKernel.Dccp
import BooxKernel.Fifo
import BooxKernel.Hugetlb.Reservation
import BooxKernel.Ida.Runs
import BooxKernel.Idr.RemoveAll
import BooxKernel.InetPeer.Runs
import BooxKernel.IpFragment.Reassembly
import BooxKernel.Jbd.Reads
import BooxKernel.Jffs2.Runs
import BooxKernel.Jiffies
import BooxKernel.Lmb.Remove
import BooxKernel.Locks.Flock
import BooxKernel.Locks.Wakeup
import BooxKernel.Mmap.Merge
import BooxKernel.Mmap.Munmap
import BooxKernel.Nls
import BooxKernel.Plist
import BooxKernel.PrioHeap
import BooxKernel.PrioTree.Query
import BooxKernel.RadixTree.Gang
import BooxKernel.Raid10.Placement
import BooxKernel.Raid6.Recovery
import BooxKernel.Resource.Adjust
import BooxKernel.Rtime.RoundTrip
import BooxKernel.Sem.Runs
import BooxKernel.TextSearch.Kmp
import BooxKernel.Timer.Runs
import BooxKernel.Yaffs.Tags
