import Nettapus.Code.Ext2Dir
import Nettapus.Code.Vfs

/-!
# Listings with the counts of the driver (`fs/vfs/nodes.c`, `fs/ext2/list.c`)

`list_files` and `list_folders` have the field of the count as an out-parameter: a call that returns early leaves
there what it found. Here `vfs_dir_load_list` calls the functions of the ext2 driver, for a directory that they
find on the device `m`.
-/

namespace Nettapus

open Bytes

namespace Vfs

/-- `vfs_dir_load_list`, with the ext2 driver and a bound for the depth of the cache. What is outside the program can
be different for its two calls. -/
def ext2DirLoadList (fs : Ext2Fs) (io io' : Io) (m : Mem) (behind : ℕ → ℕ → Mem) (depth : ℕ) (s : Vfs) (d : ℕ) :
    Option Vfs :=
  (freeDirList depth s d).bind fun s =>
    let vnode := s.folders d
    (ext2ListFiles fs io m behind vnode.inodeNum vnode.subfileCount).bind fun files =>
      (ext2ListFolders fs io' m vnode.inodeNum vnode.subfolderCount).map fun folders =>
        s.tick.setFolder d { vnode with
          subfiles := tnodes ⟨files.2, files.1⟩
          subfolders := tnodes ⟨folders.2, folders.1⟩
          subfileCount := files.1
          subfolderCount := folders.1 }

end Vfs

end Nettapus
