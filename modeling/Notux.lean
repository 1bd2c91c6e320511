import Notux.Sys.Locks
import Notux.Sys.Effects
import Notux.Sys.Loading
import Notux.Sys.Holders
import Notux.Sys.Spawn
import Notux.Sys.Arguments
import Notux.Sys.Modes
import Notux.Sys.Sharing
import Notux.Sys.Blocks
import Notux.Sys.Directories
import Notux.Sys.WorkingDirectory
import Notux.Sys.Reading
import Notux.Sys.Refusal
import Notux.Sys.Mounting
import Notux.Sys.Images
import Notux.Proc.Turns
import Notux.Proc.Wait
import Notux.Fs.InodeTable
import Notux.Fs.Pool
import Notux.Fs.Directory
import Notux.Mkfs.Bitmap
import Notux.Vmm.Isolation
import Notux.Vmm.Leaks
import Notux.Vmm.Heap
import Notux.Vmm.Packed
import Notux.Vmm.Loader
import Notux.Vmm.Contents
import Notux.Vmm.Covered
import Notux.Dev.Console
import Notux.Dev.Shift
import Notux.Dev.Blit
