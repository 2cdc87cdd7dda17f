/-!
# Error numbers

The values of `asm-generic/errno-base.h` and `asm-generic/errno.h` that the
modelled system calls return, negated, to user space.
-/

namespace LinuxHacks

abbrev EPERM : Int := 1
abbrev EIO : Int := 5
abbrev EAGAIN : Int := 11
abbrev ENOMEM : Int := 12
abbrev EACCES : Int := 13
abbrev EFAULT : Int := 14
abbrev EINVAL : Int := 22
abbrev ENOSPC : Int := 28
abbrev ESPIPE : Int := 29
abbrev ENOSYS : Int := 38
abbrev ECANCELED : Int := 125

end LinuxHacks
