import Sic.Arch.Int64
import Sic.Arch.X86Map
import Sic.Crypto.Aes
import Sic.Crypto.Hmac
import Sic.Drivers.AthSae
import Sic.Drivers.Dsp
import Sic.Drivers.Glink
import Sic.Drivers.PtyInput
import Sic.Drivers.PtyOutput
import Sic.Drivers.Rmtfs
import Sic.Drivers.TftpClient
import Sic.Drivers.Virtio
import Sic.Fs.Blkdev
import Sic.Fs.DiskBytes
import Sic.Fs.Ext4Bitmap
import Sic.Fs.Ext4Leaf
import Sic.Fs.Ext4Read
import Sic.Fs.FatGap
import Sic.Fs.Flock
import Sic.Fs.PipeRun
import Sic.Fs.VfsEnds
import Sic.Fs.ZaefsCache
import Sic.Fs.ZaefsWalk
import Sic.Mm.HeapRealloc
import Sic.Mm.PmmKeep
import Sic.Mm.PmmRefs
import Sic.Net.ArpRun
import Sic.Net.ArpStack
import Sic.Net.ChecksumSend
import Sic.Net.TcpAcked
import Sic.Net.TcpResend
import Sic.Proc.Deliver
import Sic.Proc.EpollNest
import Sic.Proc.EpollRun
import Sic.Proc.ExitWaits
import Sic.Proc.FutexKey
import Sic.Proc.MmapPlace
import Sic.Proc.SignalRun
import Sic.Proc.UserAccess
import Sic.Proc.Wait
