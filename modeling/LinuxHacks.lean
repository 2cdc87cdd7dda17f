import LinuxHacks.Errno
import LinuxHacks.Lib.Transition
import LinuxHacks.Lib.Ledger
import LinuxHacks.SyscallFail.Injection
import LinuxHacks.SyscallFail.Tasks
import LinuxHacks.SyscallFail.Vectors
import LinuxHacks.SyscallFail.EntryPaths
import LinuxHacks.Barrier.Lookup
import LinuxHacks.Barrier.Rounds
import LinuxHacks.Barrier.Lifetime
import LinuxHacks.Barrier.Cancel
import LinuxHacks.Barrier.Sleepers
import LinuxHacks.Barrier.DestroyAll
import LinuxHacks.Semaphore.Accounting
import LinuxHacks.Semaphore.Destroy
import LinuxHacks.Semaphore.Spinlock
import LinuxHacks.Semaphore.Library
import LinuxHacks.Semaphore.Pipes
import LinuxHacks.Tags.Invariant
import LinuxHacks.Tags.Adding
import LinuxHacks.Tags.Removing
import LinuxHacks.Tags.Reading
import LinuxHacks.Tags.Corrupt
import LinuxHacks.Tags.Syscalls
import LinuxHacks.Tags.Symlink
import LinuxHacks.Tags.Persist
import LinuxHacks.Tags.Blocks
import LinuxHacks.Mru.Invariant
import LinuxHacks.Mru.Victims
import LinuxHacks.Mru.Clearing
import LinuxHacks.Mru.Unreclaimable
import LinuxHacks.Uwrr.Share
import LinuxHacks.Uwrr.Pick
import LinuxHacks.Uwrr.Unprivileged
import LinuxHacks.Uwrr.ForkPolicy
import LinuxHacks.Uwrr.Switching
import LinuxHacks.Uwrr.Together
import LinuxHacks.UserCache.Weights
import LinuxHacks.UserCache.Slices
import LinuxHacks.PageAlloc.Interference
import LinuxHacks.Ext2.Ending
