import Xv6.Frames
import Xv6.SyscallModel

/-!
# The tables of files and processes

The functions of `fs.c`, and `create` above them, work on the disk and the inode cache. They leave the
file table and the processes alone.
-/

namespace Xv6.Fs

open Resumption ByteLayout Frames

def tables (s : FsState) : (Fin NFILE → File) × (Fin NPROC → Proc) × Fin NPROC := (s.file, s.proc, s.cur)

/-! ## Blocks -/

theorem frames_bread (b : ℕ) : Frames tables (bread b) := Frames.get.bind fun _ => Frames.pure _

theorem frames_logWrite (b : ℕ) (data : Block) : Frames tables (logWrite b data) :=
  modify fun _ => rfl

theorem frames_ballocFrom (sb : Superblock) (bs : List ℕ) : Frames tables (ballocFrom sb bs) := by
  induction bs with
  | nil => exact throw _
  | cons b bs ih =>
    refine (frames_bread _).bind fun bp => ?_
    cases firstClear bp (min BPB (sb.size.toNat - b)) with
    | none => exact ih
    | some bi =>
      refine (frames_logWrite _ _).bind fun _ => ?_
      exact (frames_logWrite _ _).bind fun _ => pure _

theorem frames_balloc : Frames tables balloc := Frames.get.bind fun _ => frames_ballocFrom _ _

theorem frames_readsb : Frames tables readsb := Frames.modify fun _ => rfl

theorem frames_bfree (b : UInt32) : Frames tables (bfree b) := by
  refine frames_readsb.bind fun _ => get.bind fun s => ?_
  refine (frames_bread _).bind fun bp => ?_
  split_ifs
  · exact frames_logWrite _ _
  · exact throw _

/-! ## Inodes -/

section

variable (k : Fin NINODE)
include k

theorem frames_getNode : Frames tables (getNode k) := Frames.get.bind fun _ => Frames.pure _

theorem frames_setNode (d : Dinode) : Frames tables (setNode k d) :=
  modify fun _ => rfl

theorem frames_inumOf : Frames tables (inumOf k) := Frames.get.bind fun _ => Frames.pure _

theorem frames_iupdate : Frames tables (iupdate k) :=
  get.bind fun _ => (frames_bread _).bind fun _ => frames_logWrite _ _

end

theorem frames_iget (dev inum : ℕ) : Frames tables (iget dev inum) := by
  intro s
  unfold iget
  simp only [wp_bind, wp_get]
  cases (List.finRange NINODE).find? fun k =>
      decide (0 < (s.inode k).ref ∧ (s.inode k).dev = dev ∧ (s.inode k).inum = inum) with
  | some k => rfl
  | none =>
    cases (List.finRange NINODE).find? fun k => decide ((s.inode k).ref = 0) with
    | some k => rfl
    | none => trivial

theorem frames_ilock (k : Fin NINODE) : Frames tables (ilock k) := by
  intro s
  unfold ilock
  simp only [wp_bind, wp_get]
  split_ifs
  · trivial
  · trivial
  · rfl
  · trivial
  · rfl

theorem frames_iunlock (k : Fin NINODE) : Frames tables (iunlock k) := by
  intro s
  unfold iunlock
  simp only [wp_bind, wp_get]
  split_ifs
  · trivial
  · rfl

theorem frames_ialloc1 (type : Int16) (inum : ℕ) : Frames tables (ialloc1 type inum) := by
  refine get.bind fun s => (frames_bread _).bind fun bp => ?_
  split_ifs
  · exact (frames_logWrite _ _).bind fun _ => pure _
  · exact pure _

theorem frames_iallocFrom (dev : ℕ) (type : Int16) (l : List ℕ) :
    Frames tables (iallocFrom dev type l).run := by
  induction l with
  | nil => exact (throw _).atom
  | cons inum rest ih =>
    refine (frames_ialloc1 type inum).atom.run_bind fun free => ?_
    cases free with
    | true => exact (frames_iget dev inum).atom
    | false => exact ih

theorem frames_ialloc (dev : ℕ) (type : Int16) : Frames tables (ialloc dev type).run :=
  (get.bind fun _ => pure _).atom.run_bind fun _ => frames_iallocFrom dev type _

/-! ## Inode content -/

section

variable (k : Fin NINODE)
include k

theorem frames_addrOf (j : Fin (NDIRECT + 1)) : Frames tables (addrOf k j) := by
  refine (frames_getNode k).bind fun ip => ?_
  dsimp only
  split_ifs
  · refine frames_balloc.bind fun addr => (frames_getNode k).bind fun ip => ?_
    exact (frames_setNode k _).bind fun _ => pure _
  · exact pure _

theorem frames_bmap (bn : ℕ) : Frames tables (bmap k bn) := by
  unfold bmap
  split_ifs
  · exact frames_addrOf k _
  · refine (frames_addrOf k _).bind fun addr => (frames_bread _).bind fun bp => ?_
    split_ifs
    · exact frames_balloc.bind fun a => (frames_logWrite _ _).bind fun _ => pure _
    · exact pure _
  · exact throw _

theorem frames_readLoop (off n : ℕ) : Frames tables (readLoop k off n) := by
  fun_induction readLoop k off n with
  | case1 => exact pure _
  | case2 off n hn ih =>
    refine (frames_bmap k _).bind fun addr => (frames_bread _).bind fun bp => ?_
    exact ih.bind fun rest => pure _

theorem frames_readData (off n : UInt32) : Frames tables (readData k off n) := by
  refine (frames_getNode k).bind fun ip => ?_
  split_ifs
  · exact pure _
  · exact (frames_readLoop k _ _).map _
  · exact (frames_readLoop k _ _).map _

theorem frames_writeLoop (src : Bytes) (off n : ℕ) : Frames tables (writeLoop k src off n) := by
  fun_induction writeLoop k src off n with
  | case1 => exact pure _
  | case2 src off n hn ih =>
    refine (frames_bmap k _).bind fun addr => (frames_bread _).bind fun bp => ?_
    exact (frames_logWrite _ _).bind fun _ => ih

theorem frames_writeData (src : Bytes) (off n : UInt32) :
    Frames tables (writeData k src off n) := by
  refine (frames_getNode k).bind fun ip => ?_
  split_ifs
  · exact pure _
  · exact pure _
  · refine (frames_writeLoop k src _ _).bind fun _ => (frames_getNode k).bind fun ip => ?_
    split_ifs
    · refine (frames_setNode k _).bind fun _ => ?_
      exact (frames_iupdate k).bind fun _ => pure _
    · exact pure _

/-! ## Dropping references -/

theorem frames_freeDirect (j : Fin (NDIRECT + 1)) : Frames tables (freeDirect k j) := by
  refine (frames_getNode k).bind fun ip => ?_
  dsimp only
  split_ifs
  · exact (frames_bfree _).bind fun _ => (frames_getNode k).bind fun ip => frames_setNode k _
  · exact pure _

theorem frames_itrunc : Frames tables (itrunc k) := by
  have hend : Frames tables (do
      let ip ← getNode k
      setNode k { ip with size := 0 }
      iupdate k) :=
    (frames_getNode k).bind fun _ => (frames_setNode k _).bind fun _ => frames_iupdate k
  refine (forM (fun i => frames_freeDirect k _) _).bind fun _ => (frames_getNode k).bind fun ip => ?_
  dsimp only
  split_ifs
  · refine (frames_bread _).bind fun bp => (forM (fun j => ?_) _).bind fun _ => ?_
    · split_ifs
      · exact frames_bfree _
      · exact pure _
    · refine (frames_bfree _).bind fun _ => (frames_getNode k).bind fun ip => ?_
      exact (frames_setNode k _).bind fun _ => hend
  · exact hend

theorem frames_iputTest : Frames tables (iputTest k) := by
  intro s
  unfold iputTest
  simp only [wp_bind, wp_get]
  split_ifs
  · trivial
  · rfl
  · rfl

theorem frames_dropFreed : Frames tables (dropFreed k) := Frames.modify fun _ => rfl

theorem frames_iput : Frames tables (iput k).run := by
  refine (frames_iputTest k).atom.run_bind fun last => ?_
  cases last with
  | false => exact pure _
  | true =>
    refine (frames_itrunc k).atom.run_bind fun _ => ?_
    have hclear : Frames tables (clearType k) :=
      (frames_getNode k).bind fun _ => (frames_setNode k _).bind fun _ => frames_iupdate k
    exact hclear.atom.run_bind fun _ => (frames_dropFreed k).atom

theorem frames_iunlockput : Frames tables (iunlockput k).run :=
  (frames_iunlock k).atom.run_bind fun _ => frames_iput k

/-! ## Directories -/

theorem frames_readDirent (msg : String) (off : ℕ) : Frames tables (readDirent k msg off) := by
  refine (frames_readData k _ _).bind fun r => ?_
  cases r with
  | none => exact throw _
  | some l =>
    dsimp only
    split_ifs
    · exact pure _
    · exact throw _

theorem frames_scanDir (msg : String) (p : Dirent → Bool) (size off : ℕ) :
    Frames tables (scanDir k msg p size off) := by
  fun_induction scanDir k msg p size off with
  | case1 off hoff ih =>
    refine (frames_readDirent k msg off).bind fun de => ?_
    split_ifs
    · exact pure _
    · exact ih
  | case2 => exact pure _

end

section

variable (dp : Fin NINODE)
include dp

theorem frames_dirlookup (name : Name) : Frames tables (dirlookup dp name) := by
  refine (frames_getNode dp).bind fun ip => ?_
  split_ifs
  · exact throw _
  · refine (frames_scanDir dp _ _ _ _).bind fun r => ?_
    rcases r with ⟨off, _ | de⟩
    · exact pure _
    · exact get.bind fun s => (frames_iget _ _).bind fun k => pure _

theorem frames_dirlinkStore (name : Name) (inum : ℕ) :
    Frames tables (dirlinkStore dp name inum) := by
  refine (frames_getNode dp).bind fun ip => (frames_scanDir dp _ _ _ _).bind fun r => ?_
  refine (frames_writeData dp _ _ _).bind fun w => ?_
  cases w with
  | none => exact throw _
  | some n =>
    dsimp only
    split_ifs
    · exact throw _
    · exact pure _

theorem frames_dirlink (name : Name) (inum : ℕ) : Frames tables (dirlink dp name inum).run := by
  refine (frames_dirlookup dp name).atom.run_bind fun r => ?_
  rcases r with _ | ⟨ip, off⟩
  · exact (frames_dirlinkStore dp name inum).atom.run_bind fun _ => pure _
  · exact (frames_iput ip).run_bind fun _ => pure _

theorem frames_createNew (name : Name) (type major minor : Int16) (htype : type ≠ T_DIR) :
    Frames tables (createNew dp name type major minor).run := by
  have hinit : ∀ ip, Frames tables (initNode ip major minor) := fun ip =>
    (frames_getNode ip).bind fun _ => (frames_setNode ip _).bind fun _ => frames_iupdate ip
  refine (get.bind fun _ => pure _).atom.run_bind fun dev => ?_
  refine (frames_ialloc dev type).run_bind fun ip => (frames_ilock ip).atom.run_bind fun _ => ?_
  refine (hinit ip).atom.run_bind fun _ => ?_
  rw [if_neg htype]
  refine (frames_inumOf ip).atom.run_bind fun inum => (frames_dirlink dp name inum).run_bind fun ok => ?_
  cases ok with
  | true => exact (frames_iunlockput dp).run_bind fun _ => pure _
  | false => exact (throw _).atom

end

end Xv6.Fs
