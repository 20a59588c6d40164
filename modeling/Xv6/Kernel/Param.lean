/-!
# `Xv6.Kernel.Param`: the constants of `param.h` and `fs.h`

Only the constants that some modelled function reads.
-/

set_option autoImplicit false

namespace Xv6

/-- Maximum number of processes. -/
def NPROC : Nat := 32

/-- Open files per process. -/
def NOFILE : Nat := 16

/-- Open files per system. -/
def NFILE : Nat := 100

/-- Maximum number of `exec` arguments. -/
def MAXARG : Nat := 32

/-- Maximum file path name. -/
def MAXPATH : Nat := 128

/-- Maximum number of blocks any file-system operation writes. -/
def MAXOPBLOCKS : Nat := 10

/-- Maximum number of data blocks in the on-disk log. -/
def LOGSIZE : Nat := MAXOPBLOCKS * 3

/-- Size of the disk block cache. -/
def NBUF : Nat := MAXOPBLOCKS * 3

/-- Device number of the file-system root disk. -/
def ROOTDEV : Nat := 1

end Xv6
