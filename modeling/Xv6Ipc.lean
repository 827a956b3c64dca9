import Xv6Ipc.Sync.PipeWait
import Xv6Ipc.Sync.Handshake
import Xv6Ipc.Log.Admission
import Xv6Ipc.Sched.Kill
import Xv6Ipc.Descriptors.Accounts
import Xv6Ipc.Buffers.Transparent
import Xv6Ipc.Inodes.Coherent
import Xv6Ipc.Process.Register
import Xv6Ipc.Process.Inherit
import Xv6Ipc.Process.Isolation
import Xv6Ipc.Drivers.Served
import Xv6Ipc.Heap.Sound
import Xv6Ipc.Shell.Strings
import Xv6Ipc.Files.Failed
import Xv6Ipc.Sharing.Built
import Xv6Ipc.Process.Arguments
import Xv6Ipc.Exec.Contents
import Xv6Ipc.Exec.Wrap
import Xv6Ipc.Log.Wait
import Xv6Ipc.Files.Overrun
import Xv6Ipc.Programs.Accesses
import Xv6Ipc.Programs.Commands
import Xv6Ipc.Drivers.Console
import Xv6Ipc.Files.Resolve
import Xv6Ipc.Files.Holes
import Xv6Ipc.Programs.Grep
import Xv6Ipc.Memory.Memmove
