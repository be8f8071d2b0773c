import SmallOS.Ext2.Dirents
import SmallOS.Proc.SignalNest
import SmallOS.Proc.Input
import SmallOS.Time.Sleep
import SmallOS.Vfs.FrameFailure
import SmallOS.Vfs.Remount
import SmallOS.Vfs.RoCoherence
import SmallOS.Ipc.PtyInput
import SmallOS.Net.FrameBounds
import SmallOS.Net.TcpClose
import SmallOS.Net.TcpChannel
import SmallOS.Net.Dhcp
import SmallOS.Net.Listen
import SmallOS.Net.TcpWindow
import SmallOS.Kernel.Unlink
import SmallOS.Ext2.WriteErrors
import SmallOS.Ext2.Room
import SmallOS.Kernel.PathForm
import SmallOS.Mem.BootMap
import SmallOS.Vm.Rights
import SmallOS.Fd.Pair
import SmallOS.Fd.Epoll
import SmallOS.Exec.StartStack
import SmallOS.Libc.Division
import SmallOS.Libc.Crypt
import SmallOS.Libc.Verscmp
import SmallOS.Libc.Sort
import SmallOS.Gui.Region
import SmallOS.Gui.Editor
