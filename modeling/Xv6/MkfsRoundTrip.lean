import Xv6.MkfsBoot

/-!
# What `mkfs` writes, the kernel reads

After booting from an image the kernel finds each file of the root directory under its stored name, with the
bytes that `mkfs` read. A lookup of a name that is not there reads to the end of the directory; if the last block
is a hole, `bmap` allocates it in the middle of the read.
-/

namespace Xv6.Fs

open Resumption ByteLayout FreeMap Function List

variable {s s' : FsState} {k : Fin NINODE} {E : Stop → FsState → Prop} {j q b : ℕ}

/-! ## Reading a hole -/

theorem growAddr_inum (a : Fin (NDIRECT + 1)) : ((s.growAddr k a b).inode k).inum = (s.inode k).inum := by
  simp [FsState.growAddr, FsState.setNode, FsState.setInode]

theorem growAddr_size (a : Fin (NDIRECT + 1)) : ((s.growAddr k a b).inode k).node.size = (s.inode k).node.size := by
  simp [FsState.growAddr, FsState.setNode, FsState.setInode]

theorem wp_readDirent_hole {R : Dirent → FsState → Prop} {msg : String} (hq : q < NDIRECT)
    (hj : DIRENTSIZE * j / BSIZE = q) (hsize : DIRENTSIZE * j + DIRENTSIZE ≤ (s.inode k).node.size.toNat)
    (haddr : (s.inode k).node.addrs (Fin.ofNat _ q) = 0)
    (hfull : freeCount s.vol.used s.sb.size.toNat = 0 → E (.panic "balloc: out of blocks") s)
    (hR : ∀ b < s.sb.size.toNat, s.vol.used b = false → R ⟨0, []⟩ (s.growAddr k (Fin.ofNat _ q) b)) :
    wp (readDirent k msg (DIRENTSIZE * j)) R E s := by
  have hlt := (s.inode k).node.size.toNat_lt
  have hoff : (UInt32.ofNat (DIRENTSIZE * j)).toNat = DIRENTSIZE * j := by
    rw [UInt32.toNat_ofNat', Nat.mod_eq_of_lt (by omega)]
  have hn : (UInt32.ofNat DIRENTSIZE).toNat = DIRENTSIZE := rfl
  have hnowrap : ¬ UInt32.ofNat (DIRENTSIZE * j) + UInt32.ofNat DIRENTSIZE < UInt32.ofNat (DIRENTSIZE * j) := by
    rw [add_lt_iff, hoff, hn]
    omega
  have hinside : ¬ UInt32.ofNat (DIRENTSIZE * j) + UInt32.ofNat DIRENTSIZE > (s.inode k).node.size := by
    rw [gt_iff_lt, UInt32.lt_iff_toNat_lt, toNat_add_of_not_lt hnowrap, hoff, hn]
    omega
  have hstart : ¬ UInt32.ofNat (DIRENTSIZE * j) > (s.inode k).node.size := by
    rw [gt_iff_lt, UInt32.lt_iff_toNat_lt, hoff]
    omega
  have hwhole : min DIRENTSIZE (BSIZE - DIRENTSIZE * j % BSIZE) = DIRENTSIZE := by
    simp only [DIRENTSIZE, BSIZE]
    omega
  unfold readDirent readData
  simp only [getNode, wp_bind, wp_get, wp_pure]
  rw [if_neg (not_or.2 ⟨hstart, hnowrap⟩), if_neg hinside, wp_map, hoff, hn, readLoop, if_neg (by decide), wp_bind, hj]
  unfold bmap
  rw [if_pos hq]
  refine wp_addrOf (fun _ => hfull) (fun hne => absurd haddr hne) fun _ b hb hfree => ?_
  have hb' : (UInt32.ofNat b).toNat = b := by
    have := s.sb.size.toNat_lt
    rw [UInt32.toNat_ofNat', Nat.mod_eq_of_lt (by omega)]
  have hzero : (s.growAddr k (Fin.ofNat _ q) b).disk b = .zero := update_self ..
  simp only [bread, wp_bind, wp_get, wp_pure, hb', hwhole, hzero, Nat.sub_self]
  rw [readLoop, if_pos rfl]
  simp only [wp_pure, Buffer.byte_zero, append_nil, length_map, length_range, if_true]
  have hrecord : (Dirent.ofBytes fun i => ((List.range DIRENTSIZE).map fun _ => (0 : UInt8)).getD i 0) = ⟨0, []⟩ := by
    decide
  rw [hrecord]
  exact hR b hb hfree

theorem bytes_growAddr (hw : s.sb.WellFormed) (hex : (s.volWith k).Exact)
    (hi : (s.volWith k).Allocated (s.inode k).inum) (hn : (s.volWith k).HasBlocks (s.inode k).inum q)
    (hq : q < NDIRECT) (hb : b < s.sb.size.toNat) (hfree : s.vol.used b = false)
    (hsize : (s.inode k).node.size.toNat ≤ (q + 1) * BSIZE) :
    (s.growAddr k (Fin.ofNat _ q) b).bytes k = s.bytes k := by
  have hmap := Bmapped.direct hw hex hi hn hq hb hfree
  have hlo := free_is_data hex hb hfree
  have hb' : (UInt32.ofNat b).toNat = b := by
    have := s.sb.size.toNat_lt
    rw [UInt32.toNat_ofNat', Nat.mod_eq_of_lt (by omega)]
  unfold FsState.bytes Volume.contents
  rw [FsState.volWith_node_self, FsState.volWith_node_self, growAddr_size, growAddr_inum]
  refine map_congr_left fun o ho => ?_
  rw [mem_range] at ho
  by_cases h0 : (s.volWith k).addr (s.inode k).inum (.block (o / BSIZE)) = 0
  · have hlast : o / BSIZE = q := by
      have hle : o / BSIZE < q + 1 := by
        rw [Nat.div_lt_iff_lt_mul (by decide)]
        omega
      have hmax : o / BSIZE < MAXFILE := by
        simp only [MAXFILE, NDIRECT, NINDIRECT, BSIZE] at *
        omega
      have := (hn.block (o / BSIZE) hmax).not.1 (not_not.2 h0)
      omega
    have hnew : ((s.growAddr k (Fin.ofNat _ q) b).volWith k).fileBlock (s.inode k).inum (o / BSIZE) = .zero := by
      rw [Volume.fileBlock, hlast, ← hmap.addr, hb', FsState.volWith_growAddr hw hb hlo]
      exact update_self ..
    have hold : (s.volWith k).fileBlock (s.inode k).inum (o / BSIZE) = .zero := by
      rw [Volume.fileBlock, h0, FsState.volWith_data]
      change (if s.sb.dataStart ≤ 0 then s.disk 0 else .zero) = _
      exact if_neg (Nat.not_le.2 ((Nat.zero_le _).trans_lt (bmapstart_lt_dataStart s.sb)))
    rw [Volume.byteAt, Volume.byteAt, hnew, hold]
  · exact hmap.bytes o h0

theorem readable_growAddr (hw : s.sb.WellFormed) (hex : (s.volWith k).Exact)
    (hi : (s.volWith k).Allocated (s.inode k).inum) (hn : (s.volWith k).HasBlocks (s.inode k).inum q)
    (hq : q < NDIRECT) (hb : b < s.sb.size.toNat) (hfree : s.vol.used b = false)
    (hsize : blocksOf (s.inode k).node.size.toNat = q + 1) : ReadableFile (s.growAddr k (Fin.ofNat _ q) b) k := by
  have hmap := Bmapped.direct hw hex hi hn hq hb hfree
  have hhas := hmap.ext.has
  rw [show max q (q + 1) = q + 1 by omega] at hhas
  unfold ReadableFile
  rw [growAddr_size, growAddr_inum, hsize]
  exact hmap.ext.exact.readable (hmap.ext.allocated.2 hi) hhas

end Xv6.Fs

namespace Xv6.Mkfs

open Fs Resumption ByteLayout FreeMap Image Function List

variable {m : Image} {files : List Input} {s s' : FsState} {k : Fin NINODE} {name : Name}

/-! ## The root directory -/

variable {ip : Fin NINODE} {R : Option (ℕ × ℕ × Option (List UInt8)) → FsState → Prop} {i : ℕ}
  {off n : UInt32}

theorem Mounted.freeCount (h : Mounted m s) (hf : Finished files m) (hlen : files.length + 2 ≤ NINODES) :
    freeCount s.vol.used s.sb.size.toNat = FSSIZE - m.freeblock := by
  obtain ⟨m₀, hbuilt, hvol, -, hfree⟩ := hf.built
  have hused : s.vol.used = m₀.vol.used := by
    rw [h.vol_eq hf hlen]
    dsimp only
    rw [hvol]
    rfl
  rw [hused, h.sb_eq hf, hfree]
  exact freeCount_of_lt fun _ _ => rfl

theorem Finished.freeblock_le (hf : Finished files m) : m.freeblock ≤ FSSIZE := by
  obtain ⟨m₀, hbuilt, -, -, hfree⟩ := hf.built
  rw [hfree]
  exact hbuilt.good.base.high

theorem Mounted.root_node (h : Mounted m s) (hf : Finished files m) (hlen : files.length + 2 ≤ NINODES) :
    (s.vol.node ROOTINO).type = T_DIR ∧ (s.vol.node ROOTINO).size.toNat = rootSize files.length := by
  have hmore : NINODES ≤ ninodeblocks * IPB := by decide
  have hsize := hf.root_size (hlen.trans hmore)
  obtain ⟨m₀, hbuilt, hvol, -⟩ := hf.built
  rw [h.vol_eq hf hlen]
  refine ⟨?_, hsize⟩
  dsimp only
  rw [hvol, Volume.setSize_node_self]
  exact hbuilt.root.1

theorem Mounted.wp_dirlookup {R : Option (Fin NINODE × ℕ) → FsState → Prop} {E : Stop → FsState → Prop}
    (h : Mounted m s) (hf : Finished files m) (hlen : files.length + 2 ≤ NINODES) (hcached : Cached s k)
    (hinum : (s.inode k).inum = ROOTINO)
    (hfound : ∀ de ∈ rootEntries files, canon de.name = canon name → ∀ off,
      wp (iget (s.inode k).dev de.inum.toNat) (fun ip s' => R (some (ip, off)) s') E s)
    (hfull : (∀ de ∈ rootEntries files, canon de.name ≠ canon name) → 32 ∣ files.length + 2 →
      m.freeblock = FSSIZE → E (.panic "balloc: out of blocks") s)
    (hnone : (∀ de ∈ rootEntries files, canon de.name ≠ canon name) →
      (32 ∣ files.length + 2 → m.freeblock < FSSIZE) → ∀ s', R none s') : wp (dirlookup k name) R E s := by
  obtain ⟨htype, hsize⟩ := h.root_node hf hlen
  rw [← hinum, ← hcached.node] at htype hsize
  have hvol := hcached.volWith_eq
  have hexact : (s.volWith k).Exact := hvol ▸ h.exact hf hlen
  have halloc : (s.volWith k).Allocated (s.inode k).inum := by
    refine ⟨hcached.lt, ?_⟩
    rw [FsState.volWith_node_self, htype]
    decide
  have hhas : (s.volWith k).HasBlocks (s.inode k).inum (blocksOf (DIRENTSIZE * (files.length + 2))) := by
    rw [hvol, hinum]
    exact h.hasBlocks hf hlen hf.root_blocks
  have hread := hexact.readable halloc hhas
  have hcount : rootSize files.length = DIRENTSIZE * (rootSize files.length / DIRENTSIZE) := by
    simp only [rootSize, DIRENTSIZE, BSIZE]
    omega
  have hmore : files.length + 2 < rootSize files.length / DIRENTSIZE := by
    simp only [rootSize, DIRENTSIZE, BSIZE]
    omega
  have hlength : (s.bytes k).length = DIRENTSIZE * (rootSize files.length / DIRENTSIZE) := by
    rw [length_bytes, hsize]
    exact hcount
  have hentry : ∀ j, entryAt (s.bytes k) j = if h : j < (rootEntries files).length then
      ⟨(rootEntries files)[j].inum, canon (rootEntries files)[j].name⟩ else ⟨0, []⟩ := fun j => by
    rw [h.root_bytes hf hlen hcached hinum, entryAt_root]
  have hbehind : ∀ u, files.length + 2 ≤ u → decide ((entryAt (s.bytes k) u).inum ≠ 0 ∧
      namecmp name (entryAt (s.bytes k) u).name = 0) = false := by
    intro u hu
    rw [hentry, dif_neg (by rw [length_rootEntries]; omega)]
    exact decide_eq_false fun hc => hc.1 rfl
  have habsent : (∀ u, 0 ≤ u → u < files.length + 2 → decide ((entryAt (s.bytes k) u).inum ≠ 0 ∧
      namecmp name (entryAt (s.bytes k) u).name = 0) = false) →
      ∀ de ∈ rootEntries files, canon de.name ≠ canon name := by
    intro hall de hde heq
    obtain ⟨u, hu, rfl⟩ := mem_iff_getElem.1 hde
    have hfalse := of_decide_eq_false (hall u (Nat.zero_le _) (by rwa [length_rootEntries] at hu))
    have hlive := rootEntries_inum hlen hde
    rw [namecmp_entry, hentry, dif_pos hu] at hfalse
    exact hfalse ⟨hlive, heq⟩
  unfold dirlookup
  simp only [getNode, wp_bind, wp_get, wp_pure]
  rw [if_neg (not_not.2 htype), wp_bind, hsize, hcount]
  refine wp_scanDir_within (j := 0) hread (size_le_blocks _) hlength hmore.le (Nat.zero_le _)
    (fun t _ ht hp _ => ?_) fun hall => ?_
  · have ht' : t < (rootEntries files).length := by rwa [length_rootEntries]
    have htrue := (of_decide_eq_true hp).2
    rw [namecmp_entry] at htrue
    rw [hentry, dif_pos ht'] at htrue ⊢
    simp only [wp_bind, wp_get, wp_pure]
    exact hfound _ (getElem_mem ht') htrue _
  · have hnot := habsent hall
    by_cases hfill : 32 ∣ files.length + 2
    · -- the directory ends in a block that it does not have
      have hq : DIRENTSIZE * (files.length + 2) / BSIZE = blocksOf (DIRENTSIZE * (files.length + 2)) := by
        simp only [blocksOf, DIRENTSIZE, BSIZE]
        omega
      have hdirect : blocksOf (DIRENTSIZE * (files.length + 2)) < NDIRECT := by
        simp only [blocksOf, DIRENTSIZE, BSIZE, NDIRECT, NINODES] at *
        omega
      have hblocks : blocksOf (s.inode k).node.size.toNat = blocksOf (DIRENTSIZE * (files.length + 2)) + 1 := by
        rw [hsize]
        simp only [blocksOf, rootSize, DIRENTSIZE, BSIZE]
        omega
      have hsizele : (s.inode k).node.size.toNat ≤ (blocksOf (DIRENTSIZE * (files.length + 2)) + 1) * BSIZE := by
        rw [← hblocks]
        exact size_le_blocks _
      have haddr : (s.inode k).node.addrs (Fin.ofNat _ (blocksOf (DIRENTSIZE * (files.length + 2)))) = 0 := by
        rw [addrs_eq_zero, Volume.slotOf_ofNat hdirect]
        by_contra hne
        exact absurd ((hhas.block _ (hdirect.trans (by decide))).1 hne) (lt_irrefl _)
      rw [scanDir, if_pos (Nat.mul_lt_mul_of_pos_left hmore (by decide)), wp_bind]
      refine wp_readDirent_hole hdirect hq ?_ haddr (fun h0 => ?_) fun b hb hfree => ?_
      · rw [hsize, hcount, ← Nat.mul_succ]
        exact Nat.mul_le_mul_left _ hmore
      · rw [h.freeCount hf hlen] at h0
        have := hf.freeblock_le
        exact hfull hnot hfill (by omega)
      · have hspace : m.freeblock < FSSIZE := by
          have hpos : 0 < FreeMap.freeCount s.vol.used s.sb.size.toNat :=
            Finset.card_pos.2 ⟨b, Finset.mem_filter.2 ⟨Finset.mem_range.2 hb, hfree⟩⟩
          rw [h.freeCount hf hlen] at hpos
          omega
        have hsame := bytes_growAddr (h.wellFormed hf) hexact halloc hhas hdirect hb hfree hsizele
        simp only [wp_ite, wp_pure]
        refine ⟨fun hp => absurd rfl (of_decide_eq_true hp).1, fun _ => ?_⟩
        rw [← Nat.mul_succ]
        refine wp_scanDir (readable_growAddr (h.wellFormed hf) hexact halloc hhas hdirect hb hfree hblocks)
          (by rw [hsame]; exact hlength) hmore (fun t ht _ hp _ => ?_) fun _ => ?_
        · rw [hsame, hbehind t (by omega)] at hp
          cases hp
        · dsimp only
          rw [wp_pure]
          exact hnone hnot (fun _ => hspace) _
    · have hall' : ReadableFile s k := by
        unfold ReadableFile
        rw [hsize, ← (blocksOf_rootSize _).2 hfill]
        exact hread
      refine wp_scanDir hall' hlength hmore.le (fun t ht _ hp _ => ?_) fun _ => ?_
      · rw [hbehind t ht] at hp
        cases hp
      · dsimp only
        rw [wp_pure]
        exact hnone hnot (fun hc => absurd hc hfill) _

/-! ## Opening and reading a file -/

/-- Look up a name in the root directory and read the file: its inode number, its size and the result of `readi`. -/
def openRead (name : Name) (off n : UInt32) : FsProg (Option (ℕ × ℕ × Option (List UInt8))) := do
  Prog.atom (ilock 0)
  match ← Prog.atom (dirlookup 0 name) with
  | none => return none
  | some (ip, _) =>
    Prog.atom (ilock ip)
    let data ← readi none ip off n
    let s ← Prog.atom get
    return some ((s.inode ip).inum, (s.inode ip).node.size.toNat, data)

/-- What `readi` returns from a file with the bytes `data`. -/
def slice (data : List UInt8) (off n : UInt32) : Option (List UInt8) :=
  if data.length < off.toNat ∨ 2 ^ 32 ≤ off.toNat + n.toNat then none
  else some ((data.drop off.toNat).take n.toNat)

/-- After booting from the image each stored name leads to its file, and no other name leads anywhere. -/
structure RoundTrip (files : List Input) (m : Image) : Prop where
  stored : ∀ i (hi : i < files.length) name, canon name = canon files[i].name → ∀ off n, ∃ s,
    (openRead name off n).run (Fs.boot m.img) =
      .ok (some (i + 2, files[i].data.length, slice files[i].data off n)) s
  absent : ∀ name, (∀ de ∈ rootEntries files, canon de.name ≠ canon name) → ∀ off n, ∃ s,
    (openRead name off n).run (Fs.boot m.img) = .ok none s

variable {E : Stop → FsState → Prop}

theorem boot_mounted (m : Image) : Mounted m (Fs.boot m.img) := ⟨rfl, rfl⟩

theorem boot_inode (m : Image) : (Fs.boot m.img).inode 0 = ⟨ROOTDEV, ROOTINO, 1, false, false, .zero⟩ := rfl

theorem wp_ilock_root {R : Unit → FsState → Prop} (hf : Finished files m) (hlen : files.length + 2 ≤ NINODES)
    (hR : R () (rootLocked m)) : wp (ilock 0) R E (Fs.boot m.img) := by
  have hmount := boot_mounted m
  have hlt : ROOTINO < (Fs.boot m.img).sb.ninodes.toNat := by
    rw [hmount.sb_eq hf]
    decide
  refine wp_ilock ?_ ?_ ?_ ?_ ?_ ?_ <;> simp only [boot_inode]
  · exact le_refl 1
  · exact hlt
  · exact nofun
  · rw [(hmount.root_node hf hlen).1]
    decide
  · have hnode : (Fs.boot m.img).vol.node ROOTINO = (Fs.boot m.img).dnode ROOTINO := if_pos hlt
    rw [hnode]
    exact hR

theorem rootLocked_free (m : Image) {j : Fin NINODE} (hj : j ≠ 0) : ((rootLocked m).inode j).ref = 0 := by
  have hsame : (rootLocked m).inode j = (Fs.boot m.img).inode j := update_of_ne hj _ _
  rw [hsame]
  change (if j = 0 then _ else _ : Inode).ref = 0
  rw [if_neg hj]

theorem Holds.fresh {inum : ℕ} (h : Holds ip inum (rootLocked m) s') (hne : inum ≠ ROOTINO) :
    (s'.inode ip).ref = 1 ∧ (s'.inode ip).valid = false ∧ (s'.inode ip).busy = false := by
  rcases h.entry with ⟨hpos, hs'⟩ | ⟨-, hfresh⟩
  · by_cases hip : ip = 0
    · have hinum := h.inum
      rw [hs', hip, rootLocked_inode] at hinum
      exact absurd hinum.symm hne
    · rw [rootLocked_free m hip] at hpos
      exact absurd hpos (lt_irrefl _)
  · exact hfresh

section

variable (hf : Finished files m)
include hf

section

variable (hlen : files.length + 2 ≤ NINODES)
include hlen

theorem wp_readFile (hi : i < files.length) (h : Holds ip (i + 2) (rootLocked m) s')
    (hR : ∀ s, R (some (i + 2, files[i].data.length, slice files[i].data off n)) s) :
    wp (do
      Prog.atom (ilock ip)
      let data ← readi none ip off n
      let s ← Prog.atom get
      return some ((s.inode ip).inum, (s.inode ip).node.size.toNat, data) :
        FsProg (Option (ℕ × ℕ × Option (List UInt8)))).run R E s' := by
  have hne : i + 2 ≠ ROOTINO := by
    simp only [ROOTINO]
    omega
  obtain ⟨href, hvalid, hbusy⟩ := Holds.fresh h hne
  have hmount' : Mounted m s' := ⟨h.disk, h.sb⟩
  have hlt : i + 2 < s'.sb.ninodes.toNat := by
    rw [hmount'.sb_eq hf, sb_ninodes]
    omega
  have hinum := h.inum
  have htype : (s'.vol.node (i + 2)).type = T_FILE := (hmount'.file hf hlen hi).1
  simp only [Prog.run_bind, Prog.run_atom, wp_bind]
  refine wp_ilock href.ge hbusy (hinum ▸ hlt) (fun hv => ?_) ?_ ?_
  · rw [hvalid] at hv
    cases hv
  · rw [hinum, htype]
    decide
  · -- the state in which the file is locked and read
    set s := s'.setInode ip { s'.inode ip with busy := true, valid := true, node := s'.vol.node (s'.inode ip).inum } with hs
    have hentry : s.inode ip =
        { s'.inode ip with busy := true, valid := true, node := s'.vol.node (s'.inode ip).inum } := by
      simp only [hs, FsState.setInode, update_self]
    have hmount : Mounted m s := ⟨h.disk, h.sb⟩
    obtain ⟨htypes, hcont⟩ := hmount.file hf hlen hi
    have hsinum : (s.inode ip).inum = i + 2 := by rw [hentry, hinum]
    have hcached : Cached s ip := by
      refine ⟨by rw [hsinum]; exact hlt, ?_⟩
      rw [hsinum, hentry, hinum]
      rfl
    have hnode : (s.inode ip).node = s.vol.node (i + 2) := by rw [hcached.node, hsinum]
    have hsize : (s.inode ip).node.size.toNat = files[i].data.length := by
      rw [hnode, ← length_contents, hcont]
    have hblocks : s.vol.HasBlocks (i + 2) (blocksOf (s.vol.node (i + 2)).size.toNat) := by
      have hhas := hf.file_blocks hne
      have heq : s.vol.node = (imageVol m.img).node := by rw [hmount.vol_eq hf hlen]
      rw [heq]
      exact hmount.hasBlocks hf hlen hhas
    have hread : ReadableFile s ip := by
      unfold ReadableFile
      rw [hcached.volWith_eq, hsinum, hnode]
      exact (hmount.exact hf hlen).readable ⟨hlt, by rw [htypes]; decide⟩ hblocks
    unfold readi
    simp only [Prog.run_bind, Prog.run_atom, wp_bind, getNode, wp_get, wp_pure]
    rw [if_neg (by rw [hnode, htypes]; decide)]
    simp only [Prog.run_atom]
    have hdone : ∀ r, r = slice files[i].data off n →
        R (some ((s.inode ip).inum, (s.inode ip).node.size.toNat, r)) s := by
      rintro r rfl
      rw [hsinum, hsize]
      exact hR s
    refine wp_readData hread (fun hbad => hdone _ ?_) fun hoff hwrap => hdone _ ?_
    · rw [hsize] at hbad
      exact (if_pos hbad).symm
    · rw [hsize] at hoff
      rw [hcached.volWith_eq, hsinum, hcont]
      exact (if_neg (by omega)).symm

theorem wp_openRead_stored (hnames : NamesDistinct files)
    (hi : i < files.length) (hname : canon name = canon files[i].name)
    (hR : ∀ s, R (some (i + 2, files[i].data.length, slice files[i].data off n)) s) :
    wp (openRead name off n).run R E (Fs.boot m.img) := by
  have hpos : i + 2 < (rootEntries files).length := by
    rw [length_rootEntries]
    omega
  have hfile : (rootEntries files)[i + 2] = ⟨UInt16.ofNat (i + 2), files[i].name⟩ := by
    simp [rootEntries]
  have hmem := getElem_mem hpos
  rw [hfile] at hmem
  have hinum : (UInt16.ofNat (i + 2)).toNat = i + 2 := by
    simp only [NINODES] at hlen
    rw [UInt16.toNat_ofNat', Nat.mod_eq_of_lt (by omega)]
  unfold openRead
  simp only [Prog.run_bind, Prog.run_atom, wp_bind]
  refine wp_ilock_root hf hlen ?_
  refine (rootLocked_mounted m).wp_dirlookup hf hlen (rootLocked_cached hf) (by rw [rootLocked_inode])
    (fun de hde heq off => ?_) (fun hnot => absurd hname.symm (hnot _ hmem)) fun hnot => absurd hname.symm (hnot _ hmem)
  obtain rfl : de = ⟨UInt16.ofNat (i + 2), files[i].name⟩ :=
    inj_on_of_nodup_map hnames hde hmem (heq.trans hname)
  rw [hinum]
  refine wp_iget (fun hall => absurd (rootLocked_free m (j := 1) (by decide)) (hall 1)) fun ip s' hs' => ?_
  have hread := wp_readFile (E := E) hf hlen hi hs' hR
  simpa only [Prog.run_bind, Prog.run_atom, wp_bind] using hread

theorem wp_openRead_absent
 (hnot : ∀ de ∈ rootEntries files, canon de.name ≠ canon name)
    (hfull : 32 ∣ files.length + 2 → m.freeblock = FSSIZE → ∀ s, E (.panic "balloc: out of blocks") s)
    (hR : (32 ∣ files.length + 2 → m.freeblock < FSSIZE) → ∀ s, R none s) :
    wp (openRead name off n).run R E (Fs.boot m.img) := by
  unfold openRead
  simp only [Prog.run_bind, Prog.run_atom, wp_bind]
  refine wp_ilock_root hf hlen ?_
  exact (rootLocked_mounted m).wp_dirlookup hf hlen (rootLocked_cached hf) (by rw [rootLocked_inode])
    (fun de hde heq => absurd heq (hnot de hde)) (fun _ hfill hfree => hfull hfill hfree _)
    fun _ hspace s' => hR hspace s'

theorem openRead_panics (hnot : ∀ de ∈ rootEntries files, canon de.name ≠ canon name)
    (hfill : 32 ∣ files.length + 2) (hfull : m.freeblock = FSSIZE) (off n : UInt32) :
    ∃ s, (openRead name off n).run (Fs.boot m.img) = .error (.panic "balloc: out of blocks") s := by
  have hw : wp (openRead name off n).run (fun _ _ => False) (fun e _ => e = .panic "balloc: out of blocks")
      (Fs.boot m.img) :=
    wp_openRead_absent hf hlen hnot (fun _ _ _ => rfl) fun hspace => absurd (hspace hfill) (by omega)
  cases hrun : (openRead name off n).run (Fs.boot m.img) with
  | ok r s => exact ((wp_of_ok hrun).1 hw).elim
  | error e s =>
    obtain rfl := wp_error hw hrun
    exact ⟨s, rfl⟩

end

end

theorem exists_absent (hlen : files.length + 2 ≤ NINODES) :
    ∃ name, ∀ de ∈ rootEntries files, canon de.name ≠ canon name := by
  by_contra hall
  push Not at hall
  have hsub : ((List.range 255).map fun i => canon [UInt8.ofNat (i + 1)]) ⊆
      (rootEntries files).map fun de => canon de.name := by
    intro x hx
    obtain ⟨i, -, rfl⟩ := mem_map.1 hx
    obtain ⟨de, hde, heq⟩ := hall [UInt8.ofNat (i + 1)]
    exact mem_map.2 ⟨de, hde, heq⟩
  have hval : ∀ i < 255, (UInt8.ofNat (i + 1)).toNat = i + 1 := by
    intro i hi
    rw [UInt8.toNat_ofNat', Nat.mod_eq_of_lt (by omega)]
  have hcanon : ∀ i < 255, canon [UInt8.ofNat (i + 1)] = [UInt8.ofNat (i + 1)] := by
    intro i hi
    have hne : UInt8.ofNat (i + 1) ≠ 0 := fun h0 => absurd (hval i hi) (by rw [h0]; exact (Nat.succ_ne_zero i).symm)
    exact takeWhile_cons_of_pos (decide_eq_true hne)
  have hnodup : ((List.range 255).map fun i => canon [UInt8.ofNat (i + 1)]).Nodup := by
    refine List.Nodup.map_on (fun i hi j hj heq => ?_) nodup_range
    rw [mem_range] at hi hj
    rw [hcanon i hi, hcanon j hj, singleton_inj] at heq
    have := congrArg UInt8.toNat heq
    rw [hval i hi, hval j hj] at this
    omega
  have hle := (hnodup.subperm hsub).length_le
  rw [length_map, length_map, length_range, length_rootEntries] at hle
  simp only [NINODES] at hlen
  omega

/-- One `read` that fills a block. -/
def fullChunk : Chunk := ⟨List.replicate BSIZE 0, List.cons_ne_nil _ _, List.length_replicate.le⟩

/-- Thirty files that together with the root directory fill the disk. -/
def fullFiles : List Input := (List.range 30).map fun i =>
  ⟨[UInt8.ofNat (97 + i)], some (List.replicate (if i = 0 then 12 else 31) fullChunk)⟩

theorem length_fullChunks (a : Name) (c : ℕ) :
    (⟨a, some (List.replicate c fullChunk)⟩ : Input).data.length = c * BSIZE := by
  unfold Input.data
  rw [Option.getD_some, length_flatMap, map_replicate, sum_replicate, smul_eq_mul]
  exact congrArg (c * ·) length_replicate

theorem blocksNeeded_fullFiles : blocksNeeded fullFiles = nblocks := by
  unfold blocksNeeded fullFiles
  rw [map_map, length_map, length_range]
  have hcost : ((fun f : Input => Volume.cost (blocksOf f.data.length)) ∘ fun i =>
      (⟨[UInt8.ofNat (97 + i)], some (List.replicate (if i = 0 then 12 else 31) fullChunk)⟩ : Input)) =
      fun i => Volume.cost (blocksOf ((if i = 0 then 12 else 31) * BSIZE)) := by
    funext i
    rw [Function.comp_apply, length_fullChunks]
  rw [hcost]
  decide

theorem fullFiles_accepted : Accepted fullFiles := by
  refine ⟨by decide, fun f hf => ?_, fun f hf => ?_, blocksNeeded_fullFiles.le⟩
  · obtain ⟨i, -, rfl⟩ := mem_map.1 hf
    exact Option.some_ne_none _
  · obtain ⟨i, -, rfl⟩ := mem_map.1 hf
    rw [length_fullChunks]
    split <;> decide

end Xv6.Mkfs
