import Illinix.Verified.Buddy.Descriptors
import Illinix.Verified.Process.Pids
import Illinix.Verified.Terminal.ReadWindow
import Illinix.Verified.Terminal.Editing
import Illinix.Verified.Terminal.InputIsolation
import Illinix.Verified.Terminal.ScreenIsolation
import Illinix.Verified.Terminal.ConsoleTask
import Illinix.Verified.Process.ForkFiles
import Illinix.Verified.Vfs.Reads
import Illinix.Verified.Malloc.Classes
import Illinix.Verified.Malloc.Realloc
import Illinix.Verified.Malloc.Large
import Illinix.Verified.Bsh.Tokens
import Illinix.Verified.Cfs.ParentColor
import Illinix.Verified.Cfs.Balance
import Illinix.Verified.Cfs.Time
import Illinix.Verified.Cfs.Load
import Illinix.Verified.Cfs.Credit
import Illinix.Verified.Cfs.Tick
import Illinix.Verified.Cfs.Creation
import Illinix.Verified.Vfs.Lookup
import Illinix.Verified.Vm.Vidmap
import Illinix.Verified.Vm.Stack
import Illinix.Verified.Slab.Growth
import Illinix.Verified.Slab.DoubleFree
import Illinix.Verified.Terminal.Rendering
import Illinix.Verified.Process.Getargs
import Illinix.Verified.Process.Execv
import Illinix.Verified.Process.FailedExecute
import Illinix.Verified.Vfs.ReadBounds
import Illinix.Verified.Strings.Printf
