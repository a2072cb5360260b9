import Xv6.Bio.Cache
import Xv6.Console
import Xv6.Fs.Filewrite
import Xv6.Fs.MkfsRun
import Xv6.Fs.Path
import Xv6.Fs.Refs
import Xv6.Ide
import Xv6.Log.Admission
import Xv6.Log.Crash
import Xv6.Memmove
import Xv6.Mp
import Xv6.Pipe.Fifo
import Xv6.Proc.Cli
import Xv6.Proc.Kill
import Xv6.Sleeplock.Exclusion
import Xv6.System.Apart
import Xv6.System.Copyout
import Xv6.System.Effects
import Xv6.System.Teardown
import Xv6.Umalloc.Policy
import Xv6.User.Grep
import Xv6.User.Sh.Parsecmd
