import Tortoise.Cc.If
import Tortoise.Cc.Strings
import Tortoise.Emu.ByteAccess
import Tortoise.Emu.DecodeCache
import Tortoise.Emu.Delivery
import Tortoise.Emu.Precise
import Tortoise.Emu.Privilege
import Tortoise.Emu.TimerSteps
import Tortoise.Emu.Wide
import Tortoise.Fs.Writes
import Tortoise.Kernel.Cred
import Tortoise.Kernel.Devfs
import Tortoise.Kernel.Timers
import Tortoise.Libc.Fnmatch
import Tortoise.Libc.Strtoul
import Tortoise.Libc.Time
import Tortoise.Net.Acks
import Tortoise.Net.Ports
import Tortoise.P9.Codec
import Tortoise.Pipe.Fifo
import Tortoise.Ramfs.Refine
import Tortoise.Shell.RcFlow
import Tortoise.Shell.RcVars
import Tortoise.Shell.RcEnv
import Tortoise.Shell.Redirs
import Tortoise.Sock.Dgram
import Tortoise.Tfs.Cache
import Tortoise.Tfs.Refine
import Tortoise.Tools.Bounds
import Tortoise.Tools.Select
import Tortoise.Tty.Lines
import Tortoise.Vfs.ExecRuns
