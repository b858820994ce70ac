import Xv6.Log.Space
import Xv6.Bio.StoreInv
import Xv6.Proc.Procinfo
import Xv6.Proc.Tick
import Xv6.Proc.Trap
import Xv6.Proc.SysSleep
import Xv6.Proc.Ready
import Xv6.Proc.Kill
import Xv6.Proc.Sleep
import Xv6.Proc.Cputime
import Xv6.Mkfs.Boot
import Xv6.Pipe.Wakeup
import Xv6.Console.Discipline
import Xv6.Console.Uart
import Xv6.Memmove
import Xv6.User.Grep
import Xv6.User.Printf
import Xv6.User.Heap
import Xv6.User.ShComplete
import Xv6.Virtio.Protocol
import Xv6.File.Fileread
import Xv6.Vm.Fork
import Xv6.Vm.Map
import Xv6.Proc.Wait2
import Xv6.Exec.Args
import Xv6.Exec.Image
import Xv6.Sysfile.Open
