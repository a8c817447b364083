import Xv6.ExecHeader
import Xv6.DirectoryMap

/-!
# Walking along a path

`namex` takes a reference to one directory after the other, locks it to look up the next name, and
drops it. Apart from entries of the inode cache nothing changes: the walk only reads, and none of the
inodes that it drops is freed, because an inode without links is held by somebody else.
-/

namespace Xv6.Fs

open Resumption ByteLayout FreeMap Prog Function

variable {s t : FsState} {k ip : Fin NINODE} {held : List (Fin NINODE)} {lock : Option (Fin NINODE)}

/-! ## A file system at rest -/

/-- A cache entry that belongs to an inode of the volume; if it has been read, it agrees with it. -/
structure InCache (V : Volume) (x : Inode) : Prop where
  dev : x.dev = ROOTDEV
  lt : x.inum < V.sb.ninodes.toNat
  node : x.valid = true → x.node = V.node x.inum ∧ x.node.type ≠ 0

/-- The file system while no call is under way in it: directories are whole numbers of entries, no
inode is locked, and an inode without links is in use. -/
structure Steady (s : FsState) : Prop where
  disk : DiskOk s
  root : ROOTINO < s.sb.ninodes.toNat
  dirs : ∀ i, (s.vol.node i).type = T_DIR → ∃ c, (s.vol.contents i).length = DIRENTSIZE * c ∧
    ∀ j < c, (entryAt (s.vol.contents i) j).inum.toNat < s.sb.ninodes.toNat
  entry : ∀ k, 0 < (s.inode k).ref → InCache s.vol (s.inode k) ∧ (s.inode k).busy = false
  links : ∀ i, (s.vol.node i).type ≠ 0 → (s.vol.node i).nlink = 0 →
    ∃ k, 0 < (s.inode k).ref ∧ (s.inode k).inum = i
  cwd : ∀ k, (s.proc s.cur).cwd = some k → 0 < (s.inode k).ref

/-- On the way from `s`: the references `held` have been taken, and `lock` is locked. -/
structure Walk (s : FsState) (held : List (Fin NINODE)) (lock : Option (Fin NINODE)) (t : FsState) :
    Prop where
  disk : t.disk = s.disk
  sb : t.sb = s.sb
  file : t.file = s.file
  proc : t.proc = s.proc
  cur : t.cur = s.cur
  trace : t.trace = s.trace
  ref : ∀ k, (t.inode k).ref = (s.inode k).ref + held.count k
  inum : ∀ k, 0 < (s.inode k).ref → (t.inode k).inum = (s.inode k).inum
  entry : ∀ k, 0 < (t.inode k).ref → InCache s.vol (t.inode k)
  busy : ∀ k, 0 < (t.inode k).ref → (t.inode k).busy = decide (lock = some k)
  locked : ∀ k, lock = some k → 0 < (t.inode k).ref ∧ (t.inode k).valid = true
  safe : ∀ k, 0 < (t.inode k).ref → (s.inode k).ref = 0 →
    (s.vol.node (t.inode k).inum).type ≠ 0 → (s.vol.node (t.inode k).inum).nlink ≠ 0

variable {held' : List (Fin NINODE)}

theorem Steady.walk (h : Steady s) : Walk s [] none s := by
  refine ⟨rfl, rfl, rfl, rfl, rfl, rfl, fun k => by simp, fun _ _ => rfl, fun k hk => (h.entry k hk).1,
    fun k hk => ?_, fun k hk => (by cases hk), fun k hk h0 => absurd hk (by omega)⟩
  rw [(h.entry k hk).2]
  rfl

theorem vol_congr (hdisk : t.disk = s.disk) (hsb : t.sb = s.sb) : t.vol = s.vol := by
  unfold FsState.vol FsState.dnode FsState.used
  rw [hdisk, hsb]

theorem Walk.vol (h : Walk s held lock t) : t.vol = s.vol := vol_congr h.disk h.sb

theorem Walk.diskOk (hs : Steady s) (h : Walk s held lock t) : DiskOk t := by
  refine ⟨?_, ?_, ?_, ?_⟩
  · rw [h.sb]
    exact hs.disk.wf
  · rw [h.sb, h.disk]
    exact hs.disk.super
  · rw [h.vol]
    exact hs.disk.exact
  · rw [h.vol]
    exact hs.disk.holeFree

theorem Walk.perm (h : Walk s held lock t) (hp : held.Perm held') : Walk s held' lock t :=
  { h with ref := fun k => by rw [h.ref k, hp.count_eq] }

theorem Walk.setInode {lock' : Option (Fin NINODE)} {x : Inode}
    (h : Walk s held lock t) (href : x.ref = (s.inode ip).ref + held'.count ip)
    (hcount : ∀ k ≠ ip, held'.count k = held.count k)
    (hinum : 0 < (s.inode ip).ref → x.inum = (s.inode ip).inum)
    (hok : 0 < x.ref → InCache s.vol x) (hbusy : 0 < x.ref → x.busy = decide (lock' = some ip))
    (hlock : ∀ k ≠ ip, lock' = some k ↔ lock = some k)
    (hlocked : lock' = some ip → 0 < x.ref ∧ x.valid = true)
    (hsafe : 0 < x.ref → (s.inode ip).ref = 0 → (s.vol.node x.inum).type ≠ 0 →
      (s.vol.node x.inum).nlink ≠ 0) :
    Walk s held' lock' (t.setInode ip x) := by
  have hself : (t.setInode ip x).inode ip = x := update_self ..
  have hne : ∀ k, k ≠ ip → (t.setInode ip x).inode k = t.inode k :=
    fun k hk => update_of_ne hk ..
  refine ⟨h.disk, h.sb, h.file, h.proc, h.cur, h.trace, ?_, ?_, ?_, ?_, ?_, ?_⟩ <;> intro k <;>
    by_cases hk : k = ip
  · subst hk
    rw [hself, href]
  · rw [hne k hk, h.ref k, hcount k hk]
  · subst hk
    rw [hself]
    exact hinum
  · rw [hne k hk]
    exact h.inum k
  · subst hk
    rw [hself]
    exact hok
  · rw [hne k hk]
    exact h.entry k
  · subst hk
    rw [hself]
    exact hbusy
  · rw [hne k hk]
    intro hpos
    rw [h.busy k hpos]
    exact decide_eq_decide.mpr (hlock k hk).symm
  · subst hk
    rw [hself]
    exact hlocked
  · rw [hne k hk, hlock k hk]
    exact h.locked k
  · subst hk
    rw [hself]
    exact hsafe
  · rw [hne k hk]
    exact h.safe k

/-! ## References -/

theorem count_cons_self_add : (ip :: held).count ip = held.count ip + 1 := List.count_cons_self

theorem count_cons_ne (hk : k ≠ ip) : (ip :: held).count k = held.count k :=
  List.count_cons_of_ne (Ne.symm hk)

theorem Walk.ref_pos (h : Walk s (ip :: held) lock t) : 0 < (t.inode ip).ref := by
  have := h.ref ip
  rw [count_cons_self_add] at this
  omega

theorem Walk.again (h : Walk s held lock t) (hpos : 0 < (t.inode ip).ref) :
    Walk s (ip :: held) lock (t.setInode ip { t.inode ip with ref := (t.inode ip).ref + 1 }) := by
  have hok := h.entry ip hpos
  refine h.setInode ?_ (fun k hk => count_cons_ne hk) (h.inum ip) (fun _ => ⟨hok.dev, hok.lt, hok.node⟩)
    (fun _ => h.busy ip hpos) (fun _ _ => Iff.rfl) (fun hl => ⟨Nat.succ_pos _, (h.locked ip hl).2⟩)
    (fun _ => h.safe ip hpos)
  change (t.inode ip).ref + 1 = _
  rw [h.ref ip, count_cons_self_add, Nat.add_assoc]

theorem wp_iget_walk (hs : Steady s) (h : Walk s held lock t) {inum : ℕ}
    (hlt : inum < s.sb.ninodes.toNat) :
    wp (iget ROOTDEV inum) (fun ip t' => Walk s (ip :: held) lock t' ∧ (t'.inode ip).inum = inum)
      (fun _ _ => True) t := by
  unfold iget
  rw [wp_bind, wp_get]
  cases hfind : (List.finRange NINODE).find? fun k =>
      decide (0 < (t.inode k).ref ∧ (t.inode k).dev = ROOTDEV ∧ (t.inode k).inum = inum) with
  | some ip =>
    have hip := List.find?_some hfind
    rw [decide_eq_true_iff] at hip
    dsimp only
    rw [wp_bind, wp_set, wp_pure]
    refine ⟨h.again hip.1, ?_⟩
    simp only [FsState.setInode, update_self]
    exact hip.2.2
  | none =>
    dsimp only
    cases hfree : (List.finRange NINODE).find? fun k => decide ((t.inode k).ref = 0) with
    | none => trivial
    | some ip =>
      have hip := List.find?_some hfree
      rw [decide_eq_true_iff] at hip
      have hsref : (s.inode ip).ref = 0 := by
        have := h.ref ip
        omega
      have hcount : held.count ip = 0 := by
        have := h.ref ip
        omega
      have hunlocked : lock ≠ some ip := fun hl => by
        have := (h.locked ip hl).1
        omega
      dsimp only
      rw [wp_bind, wp_set, wp_pure]
      refine ⟨h.setInode ?_ (fun k hk => count_cons_ne hk) (fun hpos => absurd hpos (by omega))
        (fun _ => ⟨rfl, hlt, (by simp)⟩) (fun _ => ?_) (fun _ _ => Iff.rfl) (fun hl => absurd hl hunlocked)
        (fun _ _ htype hlink => ?_), ?_⟩
      · rw [hsref, count_cons_self_add, hcount]
      · exact (decide_eq_false hunlocked).symm
      · -- an inode without links would have been found in the cache
        obtain ⟨j, hj, hinum⟩ := hs.links inum htype hlink
        have hpos : 0 < (t.inode j).ref := by
          have := h.ref j
          omega
        refine List.find?_eq_none.mp hfind j (List.mem_finRange j) ?_
        rw [decide_eq_true_iff]
        exact ⟨hpos, (h.entry j hpos).dev, (h.inum j hj).trans hinum⟩
      · simp only [FsState.setInode, update_self]

theorem wp_ilock_walk (h : Walk s held none t) (hpos : 0 < (t.inode ip).ref) :
    wp (ilock ip) (fun _ t' => Walk s held (some ip) t' ∧ (t'.inode ip).inum = (t.inode ip).inum)
      (fun _ _ => True) t := by
  have hok := h.entry ip hpos
  have hbusy : (t.inode ip).busy = false := h.busy ip hpos
  have hdisk : t.vol.node (t.inode ip).inum =
      dinode (t.disk (IBLOCK (t.inode ip).inum t.sb)) ((t.inode ip).inum % IPB) :=
    if_pos (by rw [h.sb]; exact hok.lt)
  have hother : ∀ k ≠ ip, some ip = some k ↔ none = some k := by
    intro k hk
    constructor
    · exact fun hc => (hk (Option.some.inj hc).symm).elim
    · nofun
  unfold ilock
  simp only [wp_bind, wp_get]
  rw [if_neg (by omega), if_neg (by rw [hbusy]; decide)]
  by_cases hv : (t.inode ip).valid = true
  · rw [if_pos hv, wp_set]
    refine ⟨h.setInode (h.ref ip) (fun _ _ => rfl) (h.inum ip) (fun _ => ⟨hok.dev, hok.lt, hok.node⟩)
      (fun _ => by simp) hother (fun _ => ⟨hpos, hv⟩) fun _ => h.safe ip hpos, ?_⟩
    simp only [FsState.setInode, update_self]
  · rw [if_neg hv]
    simp only [wp_bind, wp_set, wp_ite, wp_pure, wp_throw, implies_true, true_and]
    rw [← hdisk, h.vol]
    intro htype
    refine ⟨h.setInode (h.ref ip) (fun _ _ => rfl) (h.inum ip) (fun _ => ⟨hok.dev, hok.lt, fun _ => ⟨rfl, htype⟩⟩)
      (fun _ => by simp) hother (fun _ => ⟨hpos, rfl⟩) fun _ => h.safe ip hpos, ?_⟩
    simp only [FsState.setInode, update_self]

theorem wp_iunlock_walk (h : Walk s held (some ip) t) :
    wp (iunlock ip) (fun _ t' => Walk s held none t') (fun _ _ => True) t := by
  obtain ⟨hpos, hvalid⟩ := h.locked ip rfl
  have hok := h.entry ip hpos
  have hbusy : (t.inode ip).busy = true := by
    rw [h.busy ip hpos]
    exact decide_eq_true rfl
  have hother : ∀ k ≠ ip, none = some k ↔ some ip = some k := by
    intro k hk
    constructor
    · nofun
    · exact fun hc => (hk (Option.some.inj hc).symm).elim
  refine wp_iunlock hpos hbusy ?_
  exact h.setInode (h.ref ip) (fun _ _ => rfl) (h.inum ip) (fun _ => ⟨hok.dev, hok.lt, hok.node⟩)
    (fun _ => rfl) hother nofun fun _ => h.safe ip hpos

theorem wp_iput_walk (h : Walk s (ip :: held) none t) :
    wp (iput ip).run (fun _ t' => Walk s held none t') (fun _ _ => True) t := by
  have href := h.ref ip
  rw [count_cons_self_add] at href
  have hpos : 0 < (t.inode ip).ref := by omega
  have hok := h.entry ip hpos
  have hkeep : ¬ ((t.inode ip).ref = 1 ∧ (t.inode ip).valid = true ∧ (t.inode ip).node.nlink = 0) := by
    rintro ⟨hone, hvalid, hlink⟩
    obtain ⟨hnode, htype⟩ := hok.node hvalid
    rw [hnode] at hlink htype
    exact h.safe ip hpos (by omega) htype hlink
  unfold iput iputTest
  simp only [run_bind, run_atom, wp_bind, wp_get]
  rw [if_neg hkeep, wp_bind, wp_set, wp_pure]
  simp only [Bool.false_eq_true, if_false]
  refine h.setInode ?_ (fun k hk => (count_cons_ne hk).symm) (h.inum ip)
    (fun _ => ⟨hok.dev, hok.lt, hok.node⟩) (fun _ => h.busy ip hpos) (fun _ _ => Iff.rfl)
    (by simp) fun _ => h.safe ip hpos
  change (t.inode ip).ref - 1 = _
  omega

theorem wp_iunlockput_walk (h : Walk s (ip :: held) (some ip) t) :
    wp (iunlockput ip).run (fun _ t' => Walk s held none t') (fun _ _ => True) t := by
  unfold iunlockput
  rw [run_bind, run_atom, wp_bind]
  exact wp_mono (wp_iunlock_walk h) (fun _ _ h' => wp_iput_walk h') fun _ _ _ => trivial

/-! ## Directories -/

theorem Walk.cached (h : Walk s held (some ip) t) : Cached t ip := by
  obtain ⟨hpos, hvalid⟩ := h.locked ip rfl
  have hok := h.entry ip hpos
  refine ⟨by rw [h.sb]; exact hok.lt, ?_⟩
  rw [h.vol]
  exact (hok.node hvalid).1

theorem Walk.type_ne (h : Walk s held (some ip) t) : (t.inode ip).node.type ≠ 0 := by
  obtain ⟨hpos, hvalid⟩ := h.locked ip rfl
  exact ((h.entry ip hpos).node hvalid).2

section

variable (hs : Steady s)
include hs

theorem Walk.readable (h : Walk s held (some ip) t) : ReadableFile t ip :=
  (h.diskOk hs).readableFile h.cached (h.cached.allocated h.type_ne)

theorem wp_dirlookup_walk (h : Walk s held (some ip) t) (name : Name) :
    wp (dirlookup ip name) (fun r t' =>
      match r with
      | none => Walk s held (some ip) t'
      | some x => Walk s (x.1 :: held) (some ip) t') (fun _ _ => True) t := by
  unfold dirlookup
  simp only [getNode, wp_bind, wp_get, wp_pure]
  by_cases htype : (t.inode ip).node.type ≠ T_DIR
  · rw [if_pos htype]
    trivial
  have hdev := (h.entry ip (h.locked ip rfl).1).dev
  have hnode := h.cached.node
  rw [h.vol] at hnode
  obtain ⟨c, hlen, hentries⟩ := hs.dirs (t.inode ip).inum (by rw [← hnode]; exact not_not.mp htype)
  have hbytes : t.bytes ip = s.vol.contents (t.inode ip).inum := by
    rw [FsState.bytes, h.cached.volWith_eq, h.vol]
  have hsize : (t.inode ip).node.size.toNat = DIRENTSIZE * c := by
    rw [← length_bytes, hbytes, hlen]
  rw [if_neg htype, wp_bind, hsize]
  refine wp_scanDir (j := 0) (h.readable hs) (by rw [hbytes, hlen]) (Nat.zero_le _)
    (fun j _ hj _ _ => ?_) fun _ => ?_
  · simp only [wp_bind, wp_get]
    rw [hdev, hbytes]
    refine wp_mono (wp_iget_walk hs h (hentries j hj)) ?_ fun _ _ _ => trivial
    intro k t' hk
    rw [wp_pure]
    exact hk.1
  · dsimp only
    rw [wp_pure]
    exact h

/-! ## Paths -/

theorem wp_namexLoop_walk (parent : Bool) (names : List Name) (h : Walk s (ip :: held) none t) :
    wp (namexLoop parent ip names).run (fun r t' =>
      match r with
      | none => Walk s held none t'
      | some x => Walk s (x.1 :: held) none t') (fun _ _ => True) t := by
  have hE : ∀ (e : Stop) (t' : FsState), True → True := fun _ _ h => h
  induction names generalizing ip t with
  | nil =>
    unfold namexLoop
    cases parent with
    | true =>
      simp only [if_true, run_bind, wp_bind]
      exact wp_mono (wp_iput_walk h) (fun _ _ h' => h') hE
    | false =>
      simp only [Bool.false_eq_true, if_false]
      exact h
  | cons name rest ih =>
    unfold namexLoop
    simp only [run_bind, run_atom, wp_bind, getNode, wp_get, wp_pure]
    refine wp_mono (wp_ilock_walk h h.ref_pos) ?_ hE
    rintro _ t₁ ⟨h₁, -⟩
    by_cases htype : (t₁.inode ip).node.type ≠ T_DIR
    · rw [if_pos htype]
      simp only [run_bind, wp_bind]
      exact wp_mono (wp_iunlockput_walk h₁) (fun _ _ h' => h') hE
    rw [if_neg htype]
    by_cases hlast : parent ∧ rest = []
    · rw [if_pos hlast]
      simp only [run_bind, run_atom, wp_bind]
      exact wp_mono (wp_iunlock_walk h₁) (fun _ _ h' => h') hE
    rw [if_neg hlast]
    simp only [run_bind, run_atom, wp_bind]
    refine wp_mono (wp_dirlookup_walk hs h₁ name) ?_ hE
    rintro (_ | ⟨next, off⟩) t₂ h₂
    · simp only [run_bind, wp_bind]
      exact wp_mono (wp_iunlockput_walk h₂) (fun _ _ h' => h') hE
    · simp only [run_bind, wp_bind]
      refine wp_mono (wp_iunlockput_walk (h₂.perm (List.Perm.swap ip next held))) ?_ hE
      exact fun _ _ h' => ih h'

theorem wp_namex_walk (h : Walk s [] none t) (parent : Bool) (path : List UInt8) :
    wp (namex parent path).run (fun r t' =>
      match r with
      | none => Walk s [] none t'
      | some x => Walk s [x.1] none t') (fun _ _ => True) t := by
  unfold namex
  by_cases hroot : path.head? = some slash
  · rw [if_pos hroot]
    simp only [run_bind, run_atom, wp_bind]
    refine wp_mono (wp_iget_walk hs h hs.root) ?_ fun _ _ _ => trivial
    exact fun ip t' h' => wp_namexLoop_walk hs parent _ h'.1
  · rw [if_neg hroot]
    simp only [run_bind, run_atom, wp_bind]
    unfold idupCwd
    simp only [wp_bind, wp_get]
    cases hcwd : (t.proc t.cur).cwd with
    | none => trivial
    | some k =>
      have hk : 0 < (s.inode k).ref := by
        rw [h.proc, h.cur] at hcwd
        exact hs.cwd k hcwd
      have hpos : 0 < (t.inode k).ref := by
        have := h.ref k
        omega
      simp only [idup, wp_bind, wp_modify, wp_pure]
      exact wp_namexLoop_walk hs parent _ (h.again hpos)

theorem wp_namei_walk (h : Walk s [] none t) (path : List UInt8) :
    wp (namei path).run (fun r t' =>
      match r with
      | none => Walk s [] none t'
      | some ip => Walk s [ip] none t') (fun _ _ => True) t := by
  unfold namei
  rw [run_bind, wp_bind]
  refine wp_mono (wp_namex_walk hs h false path) ?_ fun _ _ _ => trivial
  rintro (_ | ⟨ip, name⟩) t' h'
  · exact h'
  · exact h'

end

/-! ## A call from begin_op to end_op -/

theorem Steady.emit (h : Steady s) (e : FsEvent) : Steady (s.emit e) :=
  ⟨⟨h.disk.wf, h.disk.super, h.disk.exact, h.disk.holeFree⟩, h.root, h.dirs, h.entry, h.links, h.cwd⟩

/-- The file system and the tables above it are the same. -/
structure SameFs (s s' : FsState) : Prop where
  disk : s'.disk = s.disk
  file : s'.file = s.file
  proc : s'.proc = s.proc
  cur : s'.cur = s.cur
  ref : ∀ k, (s'.inode k).ref = (s.inode k).ref
  inum : ∀ k, 0 < (s.inode k).ref → (s'.inode k).inum = (s.inode k).inum
  unlocked : ∀ k, 0 < (s'.inode k).ref → (s'.inode k).busy = false

theorem Steady.sameFs (h : Steady s) : SameFs s s :=
  ⟨rfl, rfl, rfl, rfl, fun _ => rfl, fun _ _ => rfl, fun k hk => (h.entry k hk).2⟩

/-- Nothing is left of a call in the file system but its transaction. -/
structure NoTrace (s s' : FsState) : Prop extends SameFs s s' where
  trace : s'.trace = s.trace ++ [(s.cur, .beginOp), (s.cur, .endOp)]

theorem Walk.noTrace (h : Walk (s.emit .beginOp) [] none t) : NoTrace s (t.emit .endOp) := by
  refine ⟨⟨h.disk, h.file, h.proc, h.cur, fun k => ?_, h.inum, h.busy⟩, ?_⟩
  · exact (h.ref k).trans (by rw [List.count_nil, Nat.add_zero]; rfl)
  · change t.trace ++ [(t.cur, FsEvent.endOp)] = _
    rw [h.trace, h.cur]
    change s.trace ++ [(s.cur, FsEvent.beginOp)] ++ [(s.cur, FsEvent.endOp)] = _
    rw [List.append_assoc]
    rfl

end Xv6.Fs
