import Mathlib.Init

/-! The error numbers of errno.h. A kernel function returns 0 or the negated number;
here the error itself, so that `Except Errno` is its result. -/
namespace SurfaceOS

inductive Errno
  | eperm | enoent | eintr | eio | enxio | enoexec | ebadf | enomem | eacces | efault | ebusy | eexist | exdev
  | enotdir | eisdir | einval | enfile | emfile | efbig | enospc | erofs | epipe | enametoolong
  | enotempty | erange
  deriving DecidableEq, Repr

end SurfaceOS
