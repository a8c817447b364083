import Xv6.ExecFailure
import Xv6.TableFrame

/-!
# A failed open

`sys_open` finds the inode, then takes an entry of the file table and a descriptor. If one of the
tables is full it gives back what it has taken, except for a file that it has just created.
-/

namespace Xv6.Fs

open Resumption ByteLayout FreeMap Prog Function

variable {s t : FsState} {ip : Fin NINODE} {path : List UInt8} {omode : UInt32}

/-! ## The inode -/

/-- `create` finds the name, if it gets as far as looking it up. -/
def Found (path : List UInt8) (s : FsState) : Prop :=
  ∀ dp name t₁ t₂ t₃, (nameiparent path).run s = .ok (some (dp, name)) t₁ → ilock dp t₁ = .ok () t₂ →
    dirlookup dp name t₂ ≠ .ok none t₃

/-- The call does not create a file. -/
def Existing (path : List UInt8) (omode : UInt32) (s : FsState) : Prop :=
  omode &&& O_CREATE = 0 ∨ Found path s

/-- The result of looking for an inode: it is locked and there is one reference to it, or the file is
new. -/
def Located (found : Prop) (s : FsState) : Option (Fin NINODE) → FsState → Prop
  | none, t => Walk s [] none t
  | some ip, t => Walk s [ip] (some ip) t ∨ ¬ found ∧ tables t = tables s

variable {E : Stop → FsState → Prop} {R : Fin NINODE → FsState → Prop}

theorem Walk.tables {held : List (Fin NINODE)} {lock : Option (Fin NINODE)} (h : Walk s held lock t) :
    tables t = tables s := by
  unfold Fs.tables
  rw [h.file, h.proc, h.cur]

theorem wp_create (hs : Steady s) (path : List UInt8) :
    wp (create path T_FILE 0 0).run (Located (Found path s) s) (fun _ _ => True) s := by
  have hE : ∀ (e : Stop) (t' : FsState), True → True := fun _ _ h => h
  unfold create
  simp only [run_bind, wp_bind]
  refine wp_mono (wp_ran (wp_namex_walk hs hs.walk true path)) ?_ hE
  rintro (_ | ⟨dp, name⟩) t₁ ⟨hrun₁, h₁⟩
  · exact h₁
  simp only [run_bind, run_atom, wp_bind]
  refine wp_mono (wp_ran (wp_ilock_walk h₁ h₁.ref_pos)) ?_ hE
  rintro _ t₂ ⟨hrun₂, h₂, -⟩
  refine wp_mono (wp_ran (wp_dirlookup_walk hs h₂ name)) ?_ hE
  rintro (_ | ⟨ip, off⟩) t₃ ⟨hrun₃, h₃⟩
  · -- the file is created here
    have h₃ : Walk s [dp] (some dp) t₃ := h₃
    change wp (createNew dp name T_FILE 0 0 >>= fun ip => pure (some ip)).run _ _ t₃
    simp only [run_bind, wp_bind]
    refine wp_mono (frames_createNew dp name T_FILE 0 0 (by decide) t₃) ?_ hE
    intro ip t₄ h₄
    exact .inr ⟨fun hfound => hfound dp name t₁ t₂ t₃ hrun₁ hrun₂ hrun₃, h₄.trans h₃.tables⟩
  simp only [run_bind, run_atom, wp_bind]
  refine wp_mono (wp_iunlockput_walk (h₃.perm (List.Perm.swap dp ip []))) ?_ hE
  intro _ t₄ h₄
  refine wp_mono (wp_ilock_walk h₄ h₄.ref_pos) ?_ hE
  rintro _ t₅ ⟨h₅, -⟩
  simp only [getNode, wp_bind, wp_get, wp_pure]
  by_cases hfile : (t₅.inode ip).node.type = T_FILE
  · rw [if_pos ⟨trivial, hfile⟩]
    exact .inl h₅
  · rw [if_neg fun hc => hfile hc.2]
    simp only [run_bind, wp_bind]
    exact wp_mono (wp_iunlockput_walk h₅) (fun _ _ h₆ => h₆) hE

theorem wp_openInode (hs : Steady s) (path : List UInt8) (omode : UInt32) :
    wp (openInode path omode).run (Located (Existing path omode s) s) (fun _ _ => True) s := by
  have hE : ∀ (e : Stop) (t' : FsState), True → True := fun _ _ h => h
  unfold openInode
  by_cases hcreate : omode &&& O_CREATE ≠ 0
  · rw [if_pos hcreate]
    refine wp_mono (wp_create hs path) ?_ hE
    rintro (_ | ip) t h
    · exact h
    · exact h.imp_right fun hnew => ⟨fun hex => hnew.1 (hex.resolve_left hcreate), hnew.2⟩
  rw [if_neg hcreate]
  simp only [run_bind, wp_bind]
  refine wp_mono (wp_namei_walk hs hs.walk path) ?_ hE
  rintro (_ | ip) t₁ h₁
  · exact h₁
  simp only [run_bind, run_atom, wp_bind]
  refine wp_mono (wp_ilock_walk h₁ h₁.ref_pos) ?_ hE
  rintro _ t₂ ⟨h₂, -⟩
  simp only [getNode, wp_bind, wp_get, wp_pure]
  by_cases hdir : (t₂.inode ip).node.type = T_DIR ∧ omode ≠ O_RDONLY
  · rw [if_pos hdir]
    simp only [run_bind, wp_bind]
    exact wp_mono (wp_iunlockput_walk h₂) (fun _ _ h₃ => h₃) hE
  · rw [if_neg hdir]
    exact .inl h₂

/-! ## The tables -/

theorem wp_openFailed (h : Walk (s.emit .beginOp) [ip] (some ip) t) :
    wp (openFailed ip).run (fun _ s' => NoTrace s s') (fun _ _ => True) t := by
  unfold openFailed endOp
  simp only [run_bind, run_atom, wp_bind]
  exact wp_mono (wp_iunlockput_walk h) (fun _ _ h' => h'.noTrace) fun _ _ _ => trivial

theorem wp_fileclose_fresh {R : Unit → FsState → Prop} {f : Fin NFILE}
    (hfree : (t.file f).ref = 0) (htype : (t.file f).type = .none) (hR : R () t) :
    wp (fileclose f).run R E (t.setFile f { t.file f with ref := 1 }) := by
  have hself : (t.setFile f { t.file f with ref := 1 }).file f = { t.file f with ref := 1 } :=
    update_self ..
  have hback : (t.setFile f { t.file f with ref := 1 }).setFile f
      { ({ t.file f with ref := 1 } : File) with ref := 0, type := .none } = t := by
    unfold FsState.setFile
    rw [update_idem]
    have hfile : ({ ({ t.file f with ref := 1 } : File) with ref := 0, type := .none } : File) =
        t.file f := by
      cases hx : t.file f
      rw [hx] at hfree htype
      cases hfree
      cases htype
      rfl
    rw [hfile, update_eq_self]
  unfold fileclose fileRelease
  simp only [run_bind, run_atom, wp_bind, wp_get, hself]
  rw [if_neg (by omega), if_neg (by omega)]
  simp only [wp_bind, wp_set, wp_pure]
  rw [if_neg (by rw [htype]; simp), hback]
  exact hR

/-- There is a free entry in the file table, and the process has a free descriptor. -/
structure Room (s : FsState) : Prop where
  file : ∃ f, (s.file f).ref = 0
  ofile : ∃ fd, (s.proc s.cur).ofile fd = none

theorem Room.of_tables (h : Room s) (ht : tables t = tables s) : Room t := by
  unfold tables at ht
  obtain ⟨hfile, hproc, hcur⟩ : t.file = s.file ∧ t.proc = s.proc ∧ t.cur = s.cur := by
    simpa only [Prod.mk.injEq] using ht
  refine ⟨?_, ?_⟩
  · rw [hfile]
    exact h.file
  · rw [hproc, hcur]
    exact h.ofile

theorem wp_sysOpen (hs : Steady s) (hfile : ∀ f, (s.file f).ref = 0 → (s.file f).type = .none)
    {arg : CString × UInt32} (h : Existing arg.1.1 arg.2 (s.emit .beginOp) ∨ Room s) :
    wp (sysOpen (some arg)).run (fun r s' => r = -1 → NoTrace s s') (fun _ _ => True) s := by
  have hE : ∀ (e : Stop) (t' : FsState), True → True := fun _ _ h => h
  have hs' := hs.emit .beginOp
  unfold sysOpen beginOp endOp
  simp only [run_bind, run_atom, wp_bind, wp_modify]
  refine wp_mono (wp_openInode hs' arg.1.1 arg.2) ?_ hE
  rintro (_ | ip) t ht
  · exact fun _ => Walk.noTrace ht
  have ht : Walk (s.emit .beginOp) [ip] (some ip) t ∨ Room t :=
    ht.imp_right fun hnew => (h.resolve_left hnew.1).of_tables hnew.2
  have hclosed : Walk (s.emit .beginOp) [ip] (some ip) t →
      wp (openFailed ip).run (fun r s' => r = -1 → NoTrace s s') (fun _ _ => True) t :=
    fun hw => wp_mono (wp_openFailed hw) (fun _ _ hn _ => hn) hE
  simp only [run_bind, run_atom, wp_bind]
  unfold filealloc
  simp only [wp_bind, wp_get]
  cases hfind : (List.finRange NFILE).find? fun f => decide ((t.file f).ref = 0) with
  | none =>
    rcases ht with hw | hroom
    · exact hclosed hw
    · obtain ⟨f, hf⟩ := hroom.file
      exact absurd (decide_eq_true hf) (List.find?_eq_none.1 hfind f (List.mem_finRange f))
  | some f =>
    have hf := List.find?_some hfind
    rw [decide_eq_true_iff] at hf
    simp only [wp_bind, wp_set, wp_pure, run_bind, run_atom]
    unfold fdalloc
    simp only [wp_bind, wp_get]
    cases hfd : (List.finRange NOFILE).find? fun fd =>
        decide ((((t.setFile f { t.file f with ref := 1 }).proc
          (t.setFile f { t.file f with ref := 1 }).cur).ofile fd) = none) with
    | none =>
      rcases ht with hw | hroom
      · have htype : (t.file f).type = .none := by
          rw [hw.file] at hf ⊢
          exact hfile f hf
        simp only [wp_pure, run_bind, wp_bind]
        exact wp_fileclose_fresh hf htype (hclosed hw)
      · obtain ⟨fd, hnone⟩ := hroom.ofile
        exact absurd (decide_eq_true hnone) (List.find?_eq_none.1 hfd fd (List.mem_finRange fd))
    | some fd =>
      simp only [setOfile, wp_bind, wp_modify, wp_pure, run_bind, run_atom]
      refine wp_any fun _ t₁ => ?_
      simp only [openFile, wp_modify]
      intro hneg
      have hneg : ((fd : ℕ) : ℤ) = -1 := hneg
      omega

/-! ## A full descriptor table -/

/-- `init` has opened the root directory and duplicated the descriptor until its table is full. -/
def fullOfile : FsState :=
  { emptyFileBoot with
    inode := fun k => if k = 0 then ⟨ROOTDEV, ROOTINO, 2, false, false, .zero⟩
      else ⟨0, 0, 0, false, false, .zero⟩
    file := Function.update emptyFileBoot.file 0 ⟨.inode, NOFILE, true, false, 0, 0⟩
    proc := Function.update emptyFileBoot.proc initproc ⟨.runnable, none, fun _ => some 0, some 0⟩ }

theorem fullOfile_steady : Steady fullOfile := by
  have h := emptyFileBoot_steady
  refine ⟨⟨h.disk.wf, h.disk.super, h.disk.exact, h.disk.holeFree⟩, h.root, h.dirs, ?_, ?_, ?_⟩
  · intro k hk
    by_cases h0 : k = 0
    · subst h0
      exact ⟨⟨rfl, h.root, nofun⟩, rfl⟩
    · have hzero : (fullOfile.inode k).ref = 0 := by
        change (if k = 0 then _ else _ : Inode).ref = 0
        rw [if_neg h0]
      omega
  · intro i htype hlink
    obtain ⟨k, hk, hinum⟩ := h.links i htype hlink
    by_cases h0 : k = 0
    · subst h0
      exact ⟨0, Nat.two_pos, hinum⟩
    · have hzero : (emptyFileBoot.inode k).ref = 0 := by
        change (if k = 0 then _ else _ : Inode).ref = 0
        rw [if_neg h0]
      omega
  · intro k hk
    have hcwd : some (0 : Fin NINODE) = some k := hk
    cases hcwd
    exact Nat.two_pos

/-- The volume on which only the root directory has a block, which is empty. -/
def smallVol (nodes : ℕ → Dinode) : Volume := (boot (image nodes (bitmapOf 60) .zero)).vol

section SmallVol

variable {nodes : ℕ → Dinode} {i : ℕ} {d : Dinode}

theorem smallVol_sb : (smallVol nodes).sb = mkfsSb := boot_sb

theorem smallVol_node (hi : i < 200) : (smallVol nodes).node i = nodes i := boot_vol_node hi

theorem smallVol_update (hi : i < 200) :
    { smallVol nodes with node := update (smallVol nodes).node i d } =
      smallVol (update nodes i d) := by
  unfold smallVol FsState.vol
  simp only [boot_sb]
  congr 1
  · funext j
    by_cases hji : j = i
    · subst hji
      rw [update_self, if_pos (show j < mkfsSb.ninodes.toNat from hi), boot_dnode hi, update_self]
    · rw [update_of_ne hji]
      split_ifs with hj
      · rw [boot_dnode hj, boot_dnode hj, update_of_ne hji]
      · rfl
  · funext b
    split_ifs with hb
    · have hb : 59 ≤ b := hb
      change image nodes _ _ b = image (update nodes i d) _ _ b
      unfold image
      rw [if_neg (c := 32 ≤ b ∧ b < 58) (by omega), if_neg (c := 32 ≤ b ∧ b < 58) (by omega)]
    · rfl

theorem SmallNodes.update (h : SmallNodes nodes) (hi : i ≠ ROOTINO) (hsize : d.size = 0)
    (haddrs : d.addrs = fun _ => 0) : SmallNodes (Function.update nodes i d) := by
  have hroot : Function.update nodes i d ROOTINO = nodes ROOTINO := update_of_ne hi.symm _ _
  refine ⟨hroot ▸ h.type, hroot ▸ h.size, hroot ▸ h.addrs, fun j hj => ?_⟩
  by_cases hji : j = i
  · subst hji
    rw [update_self]
    exact ⟨hsize, haddrs⟩
  · rw [update_of_ne hji]
    exact h.others j hj

end SmallVol

structure Stage (V : Volume) (x : Fin NINODE → Inode) (t : FsState) : Prop where
  super : t.sb = superblock (t.disk 1)
  vol : t.vol = V
  inode : t.inode = x
  file : t.file = fullOfile.file
  proc : t.proc = fullOfile.proc
  cur : t.cur = fullOfile.cur

section Stage

variable {V : Volume} {x : Fin NINODE → Inode} {k : Fin NINODE} {nodes : ℕ → Dinode}
  {E : Stop → FsState → Prop}

variable {i dev inum : ℕ} {R : Unit → FsState → Prop} {type : Int16}

theorem Stage.setInode (h : Stage V x t) (y : Inode) : Stage V (update x k y) (t.setInode k y) :=
  ⟨h.super, h.vol, by rw [← h.inode]; rfl, h.file, h.proc, h.cur⟩

section

variable (h : Stage (smallVol nodes) x t)
include h

theorem Stage.sb : t.sb = mkfsSb := by
  rw [← FsState.vol_sb, h.vol, smallVol_sb]

theorem Stage.diskOk (hn : SmallNodes nodes) : DiskOk t := by
  refine ⟨?_, h.super, ?_, ?_⟩
  · rw [h.sb]
    exact mkfsSb_wellFormed
  · rw [h.vol]
    exact hn.exact
  · rw [h.vol]
    exact hn.holeFree

theorem Stage.putNode (hi : i < 200) (d : Dinode) :
    Stage (smallVol (update nodes i d)) x (t.putNode i d) := by
  have hw : t.sb.WellFormed := by
    rw [h.sb]
    exact mkfsSb_wellFormed
  have hlt : i < t.sb.ninodes.toNat := by
    rw [h.sb]
    exact hi
  refine ⟨?_, ?_, h.inode, h.file, h.proc, h.cur⟩
  · have hdisk : (t.putNode i d).disk 1 = t.disk 1 := by
      refine update_of_ne ?_ _ _
      rw [h.sb]
      change 1 ≠ i / 8 + 32
      omega
    rw [hdisk]
    exact h.super
  · rw [FsState.vol_putNode hw hlt, h.vol, smallVol_update hi]

theorem Stage.wp_ilock
    (href : 1 ≤ (x k).ref) (hbusy : (x k).busy = false) (hlt : (x k).inum < 200)
    (hnode : (x k).valid = true → (x k).node = nodes (x k).inum) (htype : (nodes (x k).inum).type ≠ 0)
    (hR : ∀ t', Stage (smallVol nodes) (update x k { x k with
      busy := true, valid := true, node := nodes (x k).inum }) t' → R () t') :
    wp (ilock k) R E t := by
  have hx := congrFun h.inode k
  have hv : t.vol.node (x k).inum = nodes (x k).inum := by rw [h.vol, smallVol_node hlt]
  rw [← hx] at href hbusy hlt hnode htype hv hR
  refine Fs.wp_ilock href hbusy (by rw [h.sb]; exact hlt) (fun hval => (hnode hval).trans hv.symm)
    (by rwa [hv]) ?_
  rw [hv]
  exact hR _ (h.setInode _)

end

theorem Stage.wp_iunlock (h : Stage V x t) (href : 1 ≤ (x k).ref) (hbusy : (x k).busy = true)
    (hR : ∀ t', Stage V (update x k { x k with busy := false }) t' → R () t') :
    wp (iunlock k) R E t := by
  have hx := congrFun h.inode k
  rw [← hx] at href hbusy hR
  exact Fs.wp_iunlock href hbusy (hR _ (h.setInode _))

theorem Stage.wp_iput (h : Stage V x t)
    (hkeep : ¬ ((x k).ref = 1 ∧ (x k).valid = true ∧ (x k).node.nlink = 0))
    (hR : ∀ t', Stage V (update x k { x k with ref := (x k).ref - 1 }) t' → R () t') :
    wp (iput k).run R E t := by
  have hx := congrFun h.inode k
  rw [← hx] at hkeep hR
  unfold iput iputTest
  simp only [run_bind, run_atom, wp_bind, wp_get]
  rw [if_neg hkeep]
  simp only [wp_bind, wp_set, wp_pure]
  exact hR _ (h.setInode _)

theorem Stage.wp_iunlockput (h : Stage V x t) (href : 1 ≤ (x k).ref)
    (hbusy : (x k).busy = true)
    (hkeep : ¬ ((x k).ref = 1 ∧ (x k).valid = true ∧ (x k).node.nlink = 0))
    (hR : ∀ t', Stage V (update x k { x k with busy := false, ref := (x k).ref - 1 }) t' → R () t') :
    wp (iunlockput k).run R E t := by
  unfold iunlockput
  simp only [run_bind, run_atom, wp_bind]
  refine h.wp_iunlock href hbusy fun t₁ h₁ => ?_
  refine h₁.wp_iput (by rw [update_self]; exact hkeep) fun t₂ h₂ => hR _ ?_
  rwa [update_idem, update_self] at h₂

section

variable (h : Stage (smallVol nodes) x t)
include h

section

variable (hn : SmallNodes nodes)
include hn

theorem Stage.isDir (href : 0 < (x k).ref)
    (hinum : (x k).inum = ROOTINO) (hnode : (x k).node = nodes ROOTINO) : IsDir t k 32 := by
  have hx := congrFun h.inode k
  have hv : t.vol.node ROOTINO = nodes ROOTINO := by rw [h.vol, smallVol_node (by decide)]
  have hc : Cached t k := by
    refine ⟨?_, ?_⟩
    · rw [hx, hinum, h.sb]
      decide
    · rw [hx, hinum, hnode, hv]
  refine ⟨h.diskOk hn, hc, hx ▸ href, ?_, ?_⟩
  · rw [hx, hnode, hn.type]
  · rw [length_bytes, hx, hnode, hn.size]
    decide

theorem Stage.entry (hd : IsDir t k 32)
    (hinum : (x k).inum = ROOTINO) (j : ℕ) : entryAt (t.bytes k) j = ⟨0, []⟩ := by
  have hzero : (fun o => (t.bytes k).getD (DIRENTSIZE * j + o) 0) = fun _ => 0 := by
    funext o
    rw [hd.bytes_eq, congrFun h.inode k, hinum, h.vol]
    exact hn.contents_zero _
  rw [entryAt, hzero]
  decide

theorem Stage.wp_dirlookup {R : Option (Fin NINODE × ℕ) → FsState → Prop} (hd : IsDir t k 32)
    (hinum : (x k).inum = ROOTINO) (name : Name) (hR : R none t) : wp (dirlookup k name) R E t := by
  have hno : ∀ j, ¬ Match (t.bytes k) name j := fun j hm => hm.1 (by rw [h.entry hn hd hinum])
  exact Fs.wp_dirlookup hd name (fun j _ hm => absurd hm (hno j)) (fun j _ _ _ hm => absurd hm (hno j))
    fun _ => hR

end

end

theorem Stage.wp_iget_found {R : Fin NINODE → FsState → Prop} (h : Stage V x t)
    (hfind : (List.finRange NINODE).find? (fun k =>
      decide (0 < (x k).ref ∧ (x k).dev = dev ∧ (x k).inum = inum)) = some k)
    (hR : ∀ t', Stage V (update x k { x k with ref := (x k).ref + 1 }) t' → R k t') :
    wp (iget dev inum) R E t := by
  rw [← h.inode] at hfind hR
  unfold iget
  simp only [wp_bind, wp_get]
  rw [hfind]
  simp only [wp_bind, wp_set, wp_pure]
  have h' := h.setInode (k := k) { t.inode k with ref := (t.inode k).ref + 1 }
  rw [← h.inode] at h'
  exact hR _ h'

theorem Stage.wp_iget_fresh {R : Fin NINODE → FsState → Prop} (h : Stage V x t)
    (hnone : (List.finRange NINODE).find? (fun k =>
      decide (0 < (x k).ref ∧ (x k).dev = dev ∧ (x k).inum = inum)) = none)
    (hfree : (List.finRange NINODE).find? (fun k => decide ((x k).ref = 0)) = some k)
    (hR : ∀ t', Stage V (update x k { x k with
      dev := dev, inum := inum, ref := 1, busy := false, valid := false }) t' → R k t') :
    wp (iget dev inum) R E t := by
  rw [← h.inode] at hnone hfree hR
  unfold iget
  simp only [wp_bind, wp_get]
  rw [hnone]
  dsimp only
  rw [hfree]
  simp only [wp_bind, wp_set, wp_pure]
  have h' := h.setInode (k := k) { t.inode k with dev := dev, inum := inum, ref := 1, busy := false, valid := false }
  rw [← h.inode] at h'
  exact hR _ h'

section

variable (h : Stage (smallVol nodes) x t)
include h

theorem Stage.dinode (hi : i < 200) : dinode (t.disk (IBLOCK i t.sb)) (i % IPB) = nodes i := by
  have hlt : i < t.sb.ninodes.toNat := by
    rw [h.sb]
    exact hi
  have hv : t.vol.node i = t.dnode i := if_pos hlt
  rw [h.vol, smallVol_node hi] at hv
  exact hv.symm

theorem Stage.wp_ialloc1_used {R : Bool → FsState → Prop} (hi : i < 200)
    (htype : (nodes i).type ≠ 0) (hR : R false t) : wp (ialloc1 type i) R E t := by
  unfold ialloc1 bread
  simp only [wp_bind, wp_get, wp_pure]
  rw [h.dinode hi, if_neg htype]
  exact hR

theorem Stage.wp_ialloc1_free {R : Bool → FsState → Prop}
    (hi : i < 200) (htype : (nodes i).type = 0)
    (hR : ∀ t', Stage (smallVol (update nodes i { Dinode.zero with type := type })) x t' → R true t') :
    wp (ialloc1 type i) R E t := by
  unfold ialloc1 bread
  simp only [wp_bind, wp_get, wp_pure]
  rw [h.dinode hi, if_pos htype]
  exact hR _ (h.putNode hi _)

theorem Stage.wp_dirlink {R : Bool → FsState → Prop}
    (hn : SmallNodes nodes) (hd : IsDir t k 32) (hinum : (x k).inum = ROOTINO) (name : Name) (inum : ℕ)
    (hR : ∀ V d t', (∀ i, i ≠ ROOTINO → V.node i = (smallVol nodes).node i) →
      entryAt (V.contents ROOTINO) 0 = ⟨UInt16.ofNat inum, canon name⟩ →
      Stage V (update x k { x k with node := d }) t' → R true t') :
    wp (dirlink k name inum).run R E t := by
  have hx := congrFun h.inode k
  have hv : t.vol.node (t.inode k).inum = nodes ROOTINO := by
    rw [hx, hinum, h.vol, smallVol_node (by decide)]
  have hzero : ∀ j, decide ((entryAt (t.bytes k) j).inum = 0) = true := fun j => by
    rw [h.entry hn hd hinum]
    rfl
  unfold dirlink
  simp only [run_bind, run_atom, wp_bind]
  refine h.wp_dirlookup hn hd hinum name ?_
  simp only [run_bind, run_atom, wp_bind]
  unfold dirlinkStore
  simp only [getNode, wp_bind, wp_get, wp_pure]
  rw [hd.size_eq]
  refine wp_scanDir (j := 0) hd.readable hd.length (Nat.zero_le _) (fun j _ _ _ hbefore => ?_) fun hall => ?_
  swap
  · exact absurd (hzero 0) (by rw [hall 0 le_rfl (by decide)]; decide)
  have hj : j = 0 := by
    by_contra hj
    exact absurd (hzero 0) (by rw [hbefore 0 le_rfl (by omega)]; decide)
  subst hj
  dsimp only
  refine wp_writeData hd.ok hd.cached hd.allocated ?_ ?_ ?_
  · rw [hv, hn.size]
    intro hr
    exact absurd hr (by decide)
  · rw [hv, hn.size]
    intro _ hfull
    have hsame : Volume.cost (blocksOf (512 : UInt32).toNat) =
        Volume.cost (blocksOf (max (512 : UInt32).toNat ((UInt32.ofNat (DIRENTSIZE * 0)).toNat +
          (UInt32.ofNat DIRENTSIZE).toNat))) := by decide
    omega
  · intro _ t' hw
    dsimp only
    rw [if_neg (not_not.2 rfl), wp_pure]
    have hst := Wrote.stored (t := 0) hd (Nat.zero_le _) hw
    refine hR t'.vol (t'.vol.node ROOTINO) t' (fun i hi => ?_) ?_ ?_
    · rw [hw.node_ne i (by rw [hx, hinum]; exact hi), h.vol]
    · have hentry := hst.entry 0 (by decide)
      rw [if_pos rfl, ofBytes_bytes_canon, hst.dir.bytes_eq, hst.inum, hx, hinum] at hentry
      exact hentry
    · refine ⟨hw.ok.super, rfl, ?_, hw.file.trans h.file, hw.proc.trans h.proc, hw.cur.trans h.cur⟩
      rw [hw.inode, hx, hinum, h.inode]

end

end Stage

/-! ## Creating a file -/

/-- The inode of the new file. -/
def newNode : Dinode := { Dinode.zero with type := T_FILE, nlink := 1 }

def rootEntry (busy : Bool) : Inode := ⟨ROOTDEV, ROOTINO, 3, busy, true, emptyFileNodes ROOTINO⟩

theorem elements_new : elements [47, 97] = [[97]] := by
  rw [elements]
  change [97] :: elements [] = [[97]]
  rw [elements]
  rfl

theorem wp_namex_new {R : Option (Fin NINODE × Name) → FsState → Prop}
    (parent : Bool) (h : Stage (smallVol emptyFileNodes) fullOfile.inode t)
    (hparent : parent = true → ∀ t', Stage (smallVol emptyFileNodes)
      (update fullOfile.inode 0 (rootEntry false)) t' → R (some (0, [97])) t')
    (hmissing : parent = false → ∀ t', R none t') : wp (namex parent [47, 97]).run R E t := by
  have hslash : ([47, 97] : List UInt8).head? = some slash := rfl
  unfold namex
  rw [if_pos hslash, elements_new]
  simp only [run_bind, run_atom, wp_bind]
  refine h.wp_iget_found (k := 0) rfl fun t₁ h₁ => ?_
  unfold namexLoop
  simp only [run_bind, run_atom, wp_bind]
  refine h₁.wp_ilock (by decide) rfl (by decide) (fun h => by cases h) (by decide) fun t₂ h₂ => ?_
  rw [update_idem] at h₂
  have h₂ : Stage (smallVol emptyFileNodes) (update fullOfile.inode 0 (rootEntry true)) t₂ := h₂
  have hdir : (t₂.inode 0).node.type = T_DIR := by
    rw [h₂.inode]
    rfl
  simp only [getNode, wp_bind, wp_get, wp_pure]
  rw [if_neg (not_not.2 hdir)]
  cases parent with
  | true =>
    rw [if_pos ⟨rfl, trivial⟩]
    simp only [run_bind, run_atom, wp_bind]
    refine h₂.wp_iunlock (by decide) rfl fun t₃ h₃ => hparent rfl t₃ ?_
    rwa [update_idem] at h₃
  | false =>
    rw [if_neg (by simp)]
    simp only [run_bind, run_atom, wp_bind]
    have hd₂ : IsDir t₂ 0 32 := h₂.isDir emptyFileNodes_small (by decide) rfl rfl
    refine h₂.wp_dirlookup emptyFileNodes_small hd₂ rfl [97] ?_
    simp only [run_bind, wp_bind]
    exact h₂.wp_iunlockput (by decide) rfl (by decide) fun t₃ _ => hmissing rfl t₃

theorem wp_ialloc_new
    (h : Stage (smallVol emptyFileNodes) (update fullOfile.inode 0 (rootEntry true)) t)
    (hR : ∀ t', Stage (smallVol (update emptyFileNodes 3 { Dinode.zero with type := T_FILE }))
      (update (update fullOfile.inode 0 (rootEntry true)) 1
        ⟨ROOTDEV, 3, 1, false, false, .zero⟩) t' → R 1 t') :
    wp (ialloc ROOTDEV T_FILE).run R E t := by
  have hrange : List.range' 1 (mkfsSb.ninodes.toNat - 1) = 1 :: 2 :: 3 :: List.range' 4 196 := rfl
  unfold ialloc
  simp only [run_bind, run_atom, wp_bind, wp_get, wp_pure]
  rw [h.sb, hrange]
  simp only [iallocFrom, run_bind, run_atom, wp_bind]
  refine h.wp_ialloc1_used (by decide) (by decide) ?_
  simp only [Bool.false_eq_true, if_false, run_bind, run_atom, wp_bind]
  refine h.wp_ialloc1_used (by decide) (by decide) ?_
  simp only [Bool.false_eq_true, if_false, run_bind, run_atom, wp_bind]
  refine h.wp_ialloc1_free (by decide) rfl fun t₁ h₁ => ?_
  simp only [if_true, run_atom]
  exact h₁.wp_iget_fresh rfl rfl hR

theorem wp_createNew_new
    (h : Stage (smallVol emptyFileNodes) (update fullOfile.inode 0 (rootEntry true)) t)
    (hR : ∀ V x t', V.node 3 = newNode → entryAt (V.contents ROOTINO) 0 = ⟨3, [97]⟩ →
      x 1 = ⟨ROOTDEV, 3, 1, true, true, newNode⟩ → Stage V x t' → R 1 t') :
    wp (createNew 0 [97] T_FILE 0 0).run R E t := by
  have hsmall : SmallNodes (update emptyFileNodes 3 newNode) :=
    emptyFileNodes_small.update (by decide) rfl rfl
  unfold createNew
  simp only [run_bind, run_atom, wp_bind, wp_get, wp_pure]
  rw [congrFun h.inode 0]
  refine wp_ialloc_new h fun t₁ h₁ => ?_
  refine h₁.wp_ilock (by decide) rfl (by decide) (fun h => by cases h) (by decide) fun t₂ h₂ => ?_
  rw [update_idem] at h₂
  unfold initNode
  simp only [getNode, setNode, wp_bind, wp_get, wp_pure, wp_modify]
  refine wp_iupdate ?_
  have hx : t₂.inode 1 = ⟨ROOTDEV, 3, 1, true, true, { Dinode.zero with type := T_FILE }⟩ := by
    rw [h₂.inode]
    rfl
  have hset : t₂.setNode 1 { (t₂.inode 1).node with major := 0, minor := 0, nlink := 1 } =
      t₂.setInode 1 ⟨ROOTDEV, 3, 1, true, true, newNode⟩ := by
    unfold FsState.setNode
    rw [hx]
    rfl
  have hself : (t₂.setInode 1 ⟨ROOTDEV, 3, 1, true, true, newNode⟩).inode 1 =
      ⟨ROOTDEV, 3, 1, true, true, newNode⟩ := by
    simp only [FsState.setInode, update_self]
  rw [hset, hself]
  have h₃ := (h₂.setInode (k := 1) ⟨ROOTDEV, 3, 1, true, true, newNode⟩).putNode (i := 3) (by decide) newNode
  rw [update_idem, update_idem] at h₃
  generalize FsState.putNode _ 3 newNode = t₃ at h₃
  have hinum : (t₃.inode 1).inum = 3 := by
    rw [h₃.inode]
    rfl
  rw [if_neg (by decide)]
  simp only [inumOf, run_bind, run_atom, wp_bind, wp_get, wp_pure]
  rw [hinum]
  have hd : IsDir t₃ 0 32 := h₃.isDir hsmall (by decide) rfl rfl
  refine h₃.wp_dirlink hsmall hd rfl [97] 3 fun V d t₄ hnode hentry h₄ => ?_
  rw [if_pos rfl]
  simp only [run_bind, wp_bind]
  refine h₄.wp_iunlockput (show 1 ≤ 3 by decide) rfl (fun hlast => ?_) fun t₅ h₅ => hR V _ t₅ ?_ hentry rfl h₅
  · have hthree : 3 = 1 := hlast.1
    omega
  · rw [hnode 3 (by decide), smallVol_node (by decide), update_self]

theorem wp_create_new {R : Option (Fin NINODE) → FsState → Prop}
    (h : Stage (smallVol emptyFileNodes) fullOfile.inode t)
    (hR : ∀ V x t', V.node 3 = newNode → entryAt (V.contents ROOTINO) 0 = ⟨3, [97]⟩ →
      x 1 = ⟨ROOTDEV, 3, 1, true, true, newNode⟩ → Stage V x t' → R (some 1) t') :
    wp (create [47, 97] T_FILE 0 0).run R E t := by
  unfold create
  simp only [run_bind, wp_bind]
  refine wp_namex_new true h (fun _ t₁ h₁ => ?_) (by simp)
  simp only [run_bind, run_atom, wp_bind]
  refine h₁.wp_ilock (by decide) rfl (by decide) (fun _ => rfl) (by decide) fun t₂ h₂ => ?_
  rw [update_idem] at h₂
  have h₂ : Stage (smallVol emptyFileNodes) (update fullOfile.inode 0 (rootEntry true)) t₂ := h₂
  have hd₂ : IsDir t₂ 0 32 := h₂.isDir emptyFileNodes_small (by decide) rfl rfl
  refine h₂.wp_dirlookup emptyFileNodes_small hd₂ rfl [97] ?_
  change wp (createNew 0 [97] T_FILE 0 0 >>= fun ip => pure (some ip)).run R E t₂
  simp only [run_bind, wp_bind]
  exact wp_createNew_new h₂ hR

/-- The path "/a". -/
def newPath : CString := ⟨[47, 97], by decide⟩

theorem wp_sysOpen_full : wp (sysOpen (some (newPath, O_CREATE ||| O_RDWR))).run
    (fun r s' => r = -1 ∧ s'.sb = superblock (s'.disk 1) ∧ s'.vol.node 3 = newNode ∧
      entryAt (s'.vol.contents ROOTINO) 0 = ⟨3, [97]⟩) (fun _ _ => False) fullOfile := by
  have h : Stage (smallVol emptyFileNodes) fullOfile.inode (fullOfile.emit .beginOp) :=
    ⟨rfl, rfl, rfl, rfl, rfl, rfl⟩
  unfold sysOpen beginOp openInode
  simp only [run_bind, run_atom, wp_bind, wp_modify]
  rw [if_pos (show (O_CREATE ||| O_RDWR) &&& O_CREATE ≠ 0 by decide)]
  refine wp_create_new h fun V x t hnode hentry hx ht => ?_
  have hclosed : wp (openFailed 1).run (fun r s' => r = -1 ∧ s'.sb = superblock (s'.disk 1) ∧
      s'.vol.node 3 = newNode ∧ entryAt (s'.vol.contents ROOTINO) 0 = ⟨3, [97]⟩) (fun _ _ => False) t := by
    unfold openFailed endOp
    simp only [run_bind, run_atom, wp_bind]
    refine ht.wp_iunlockput (by rw [hx]) (by rw [hx]) (by rw [hx]; decide) fun t' ht' => ?_
    rw [← ht'.vol] at hnode hentry
    exact ⟨rfl, ht'.super, hnode, hentry⟩
  have hfind : ((List.finRange NFILE).find? fun f => decide ((t.file f).ref = 0)) = some 1 := by
    rw [ht.file]
    rfl
  have hfd : ∀ y, ((List.finRange NOFILE).find? fun fd =>
      decide ((((t.setFile 1 y).proc (t.setFile 1 y).cur).ofile fd) = none)) = none := by
    intro y
    change ((List.finRange NOFILE).find? fun fd => decide (((t.proc t.cur).ofile fd) = none)) = none
    rw [ht.proc, ht.cur]
    rfl
  simp only [run_bind, run_atom, wp_bind]
  unfold filealloc
  simp only [wp_bind, wp_get]
  rw [hfind]
  simp only [wp_bind, wp_set, wp_pure, run_bind, run_atom]
  unfold fdalloc
  simp only [wp_bind, wp_get]
  rw [hfd]
  simp only [wp_pure, run_bind, wp_bind]
  refine wp_fileclose_fresh ?_ ?_ hclosed
  · rw [ht.file]
    rfl
  · rw [ht.file]
    rfl

theorem wp_sysOpen_missing : wp (sysOpen (some (newPath, O_RDONLY))).run (fun r _ => r = -1)
    (fun _ _ => False) fullOfile := by
  have h : Stage (smallVol emptyFileNodes) fullOfile.inode (fullOfile.emit .beginOp) :=
    ⟨rfl, rfl, rfl, rfl, rfl, rfl⟩
  unfold sysOpen beginOp openInode
  simp only [run_bind, run_atom, wp_bind, wp_modify]
  rw [if_neg (show ¬ O_RDONLY &&& O_CREATE ≠ 0 by decide)]
  unfold namei
  simp only [run_bind, wp_bind]
  refine wp_namex_new false h (by simp) fun _ t' => ?_
  exact rfl

/-! ## Failing -/

end Xv6.Fs
