import Nettapus.Code.File

/-!
# Numbers for descriptors (`fs/vfs/fd.c`)

The end of `vfs_create_fd`, where the new descriptor gets its number and goes into the list. The numbers are
`int32_t`; a list of `2 ^ 31` descriptors would not fit into the part of the address space that is left for
the heap.
-/

namespace Nettapus

/-- The loop of `vfs_create_fd`, with `fdi` as a place in the list: where it stops, and the number. A number that is in
use is the next one, from the start of the list. -/
def createFdLoop (fds : List ℤ) : ℕ → ℕ → ℤ → Option (ℕ × ℤ)
  | 0, _, _ => none
  | n + 1, fdi, i =>
    match fds[fdi]? with
    | none => none
    | some fd =>
      if fd = i then createFdLoop fds n 0 (i + 1)
      else if fdi + 1 = fds.length then some (fdi, i)
      else createFdLoop fds n (fdi + 1) i

/-- The list after `vfs_create_fd`, by at most `n` turns of the loop. The new descriptor comes after `fdi`. -/
def assignFd (n : ℕ) (fds : List FileDescriptor) (newFd : FileDescriptor) : Option (List FileDescriptor) :=
  if fds = [] then some [{ newFd with fd := 0 }]
  else
    (createFdLoop (fds.map (·.fd)) n 0 0).map fun (fdi, i) =>
      fds.take (fdi + 1) ++ [{ newFd with fd := i }]

end Nettapus
