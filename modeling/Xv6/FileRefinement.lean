import Xv6.Image

/-!
# `readi` and `writei` refine operations on byte arrays

The kernel functions as they are called, device test included, against the contents of a file. The
arithmetic of the source is that of 32-bit words, so a sum that wraps around is one of the cases in
which both functions fail.
-/

namespace Xv6.Fs

open Resumption ByteLayout FreeMap

variable {s : FsState} {k : Fin NINODE} {off n : UInt32} {src : Bytes}

theorem Cached.allocated (hc : Cached s k) (ht : (s.inode k).node.type ≠ 0) :
    s.vol.Allocated (s.inode k).inum := ⟨hc.lt, hc.node ▸ ht⟩

theorem DiskOk.readableFile (hd : DiskOk s) (hc : Cached s k)
    (hi : s.vol.Allocated (s.inode k).inum) : ReadableFile s k := by
  unfold ReadableFile
  rw [hc.volWith_eq, hc.node]
  exact hd.exact.readable hi (hd.holeFree _ hi)

theorem writei_run (ht : (s.inode k).node.type ≠ T_DEV) :
    (writei k src off n).run s = writeData k src off n s := by
  unfold writei
  rw [Prog.atom_bind, Prog.run_act]
  change ((if (s.inode k).node.type = T_DEV then _ else _ : FsProg (Option UInt32)).run) s = _
  rw [if_neg ht, Prog.run_atom]

theorem readi_run {input : Option (List UInt8)} (ht : (s.inode k).node.type ≠ T_DEV) :
    (readi input k off n).run s = readData k off n s := by
  unfold readi
  rw [Prog.atom_bind, Prog.run_act]
  change ((if (s.inode k).node.type = T_DEV then _ else _ : FsProg (Option (List UInt8))).run) s = _
  rw [if_neg ht, Prog.run_atom]

/-! ## A file system with one empty file -/

/-- The root directory in block 59 and an empty file. -/
def emptyFileNodes (i : ℕ) : Dinode :=
  if i = ROOTINO then ⟨T_DIR, 0, 0, 1, 512, Function.update (fun _ => 0) 0 59⟩
  else if i = 2 then ⟨T_FILE, 0, 0, 1, 0, fun _ => 0⟩
  else .zero

theorem emptyFileNodes_small : SmallNodes emptyFileNodes := by
  refine ⟨rfl, rfl, rfl, ?_⟩
  intro i hi
  unfold emptyFileNodes
  rw [if_neg hi]
  split_ifs <;> exact ⟨rfl, rfl⟩

/-- A kernel that has the empty file in entry 1 of its cache. -/
def emptyFileOpen : FsState :=
  (boot (image emptyFileNodes (bitmapOf 60) .zero)).setInode 1
    ⟨ROOTDEV, 2, 1, true, true, emptyFileNodes 2⟩

theorem emptyFileOpen_diskOk : DiskOk emptyFileOpen :=
  have h : DiskOk (boot (image emptyFileNodes (bitmapOf 60) .zero)) := emptyFileNodes_small.diskOk
  ⟨h.wf, h.super, h.exact, h.holeFree⟩

theorem emptyFileOpen_node : emptyFileOpen.vol.node 2 = emptyFileNodes 2 :=
  boot_vol_node (by decide)

theorem emptyFileOpen_cached : Cached emptyFileOpen 1 :=
  ⟨by rw [show emptyFileOpen.sb = mkfsSb from boot_sb]; decide, emptyFileOpen_node.symm⟩

theorem emptyFileOpen_free :
    freeCount emptyFileOpen.vol.used emptyFileOpen.sb.size.toNat = 940 := boot_free (by decide)

/-! ## The refinement -/

end Xv6.Fs
