import Dave.Bcache.Lru
import Dave.Bcache.Pool
import Dave.Devices.Screen
import Dave.Fs.Balance
import Dave.Fs.Forge
import Dave.Fs.Outcomes
import Dave.Fs.Ownership
import Dave.Ide.Refine
import Dave.Logging.Capacity
import Dave.Logging.Durable
import Dave.Memory.Args
import Dave.Memory.Copy
import Dave.Platform.Mp
import Dave.Proc.Kill
import Dave.Resource.Agree
import Dave.Resource.Conservation
import Dave.Sync.Sleeplock
import Dave.User.Cat
import Dave.User.Grep
import Dave.User.Malloc.Kernel
import Dave.User.Shell.Print
import Dave.User.Shell.Search
import Dave.User.Structio
import Dave.User.Ted.Commands
import Dave.Wait.Console
import Dave.Wait.Fifo
import Dave.Wait.Interrupt
import Dave.Wait.Stranded
