import Xv6.PathWalk
import Xv6.ExecMemory

/-!
# A failed exec

`exec` works on the file system and on memory. In the file system it takes one reference, reads under
the lock and drops the reference, all in one transaction. In memory it builds a second image beside
that of the caller, and frees it if anything fails.
-/

/-! ## The file system -/

namespace Xv6.Fs

open Resumption ByteLayout FreeMap Prog

variable {s t : FsState} {ip : Fin NINODE} {held : List (Fin NINODE)}

section

variable (hs : Steady s)
include hs

section

variable (h : Walk s held (some ip) t)
include h

theorem wp_readi_walk (input : Option (List UInt8)) (off n : UInt32) :
    wp (readi input ip off n).run (fun _ t' => Walk s held (some ip) t') (fun _ _ => True) t := by
  have hE : ∀ (e : Stop) (t' : FsState), True → True := fun _ _ h => h
  unfold readi
  simp only [run_bind, run_atom, wp_bind, getNode, wp_get, wp_pure]
  by_cases htype : (t.inode ip).node.type = T_DEV
  · rw [if_pos htype]
    by_cases hdev : noDevice (t.inode ip).node
    · rw [if_pos hdev]
      exact h
    · rw [if_neg hdev]
      simp only [run_bind, run_atom, wp_bind]
      refine wp_mono (wp_iunlock_walk h) ?_ hE
      intro _ t₁ h₁
      have hpos : 0 < (t₁.inode ip).ref := by
        rw [h₁.ref ip, ← h.ref ip]
        exact (h.locked ip rfl).1
      exact wp_mono (wp_ilock_walk h₁ hpos) (fun _ _ h₂ => h₂.1) hE
  · rw [if_neg htype, run_atom]
    exact wp_readData (h.readable hs) (fun _ => h) (fun _ _ => h)

theorem wp_loaduvm_walk (input : ℕ → Option (List UInt8)) (offset : UInt32) (sz i : ℕ) :
    wp (loaduvm input ip offset sz i).run (fun _ t' => Walk s held (some ip) t') (fun _ _ => True) t := by
  generalize hk : sz - i = k
  induction k using Nat.strong_induction_on generalizing t i with
  | h k ih =>
    rw [loaduvm]
    by_cases hi : i < sz
    · rw [if_pos hi]
      simp only [run_bind, wp_bind]
      refine wp_mono (wp_readi_walk hs h _ _ _) ?_ fun _ _ _ => trivial
      intro r t₁ h₁
      by_cases hlen : r.map List.length ≠ some (min (sz - i) PGSIZE)
      · rw [if_pos hlen]
        exact h₁
      · rw [if_neg hlen]
        refine ih _ ?_ h₁ _ rfl
        simp only [PGSIZE]
        omega
    · rw [if_neg hi]
      exact h

theorem wp_loadSegments_walk (env : ExecEnv) (phoff : UInt32) (n i : ℕ) :
    wp (loadSegments env ip phoff n i).run (fun _ t' => Walk s held (some ip) t')
      (fun _ _ => True) t := by
  induction n generalizing t i with
  | zero => exact h
  | succ n ih =>
    rw [loadSegments]
    simp only [run_bind, wp_bind]
    refine wp_mono (wp_readi_walk hs h _ _ _) ?_ fun _ _ _ => trivial
    rintro (_ | l) t₁ h₁
    · exact h₁
    · simp only
      split_ifs with hlen htype hfilesz hwrap halloc halign
      · exact h₁
      · exact ih h₁ _
      · exact h₁
      · exact h₁
      · exact h₁
      · simp only [run_bind, wp_bind]
        refine wp_mono (wp_loaduvm_walk hs h₁ _ _ _ _) ?_ fun _ _ _ => trivial
        rintro (_ | _) t₂ h₂
        · exact h₂
        · exact ih h₂ _
      · exact h₁

theorem wp_loadProgram_walk (env : ExecEnv) :
    wp (loadProgram env ip).run (fun _ t' => Walk s held (some ip) t') (fun _ _ => True) t := by
  unfold loadProgram
  simp only [run_bind, wp_bind]
  refine wp_mono (wp_readi_walk hs h _ _ _) ?_ fun _ _ _ => trivial
  intro r t₁ h₁
  split_ifs
  · exact h₁
  · exact h₁
  · exact wp_loadSegments_walk hs h₁ env _ _ _
  · exact h₁

end

theorem wp_exec_noTrace (env : ExecEnv) (path : List UInt8) :
    wp (exec env path).run (fun _ s' => NoTrace s s') (fun _ _ => True) s := by
  have hE : ∀ (e : Stop) (t' : FsState), True → True := fun _ _ h => h
  have hs' := hs.emit .beginOp
  unfold exec beginOp endOp
  simp only [run_bind, run_atom, wp_bind, wp_modify]
  refine wp_mono (wp_namei_walk hs' hs'.walk path) ?_ hE
  rintro (_ | ip) t₁ h₁
  · exact h₁.noTrace
  · simp only [run_bind, run_atom, wp_bind]
    refine wp_mono (wp_ilock_walk h₁ h₁.ref_pos) ?_ hE
    rintro _ t₂ ⟨h₂, -⟩
    refine wp_mono (wp_loadProgram_walk hs' h₂ env) ?_ hE
    intro loaded t₃ h₃
    refine wp_mono (wp_iunlockput_walk h₃) ?_ hE
    exact fun _ t₄ h₄ => h₄.noTrace

end

end Xv6.Fs

/-! ## The memory -/

namespace Xv6.Vm

open Resumption ByteLayout Custody

variable [Link] {v : State} {c : ℕ} {f : ElfFile} {elf : Bytes} {argv : List (List UInt8)}

/-- If the program of the file can be loaded, the argument block is no larger than the image. -/
def BlockFits (v : State) (f : ElfFile) (argv : List (List UInt8)) : Prop :=
  ∀ elf d m₁ sz m₂, readHeader f = some elf → setupkvm v.mem = .ok (some d) m₁ →
    loadSegments f d (get32 elf 28) (get16 elf 44).toNat 0 0 m₁ = .ok (some sz) m₂ →
    argBlock argv ≤ pagesOf sz * PGSIZE + 2 * PGSIZE

/-- The caller, whose directory is `c`, is as before, and what was built for it is free again. -/
structure CallerIntact (c : ℕ) (v v' : State) : Prop where
  state : v' = { v with mem := v'.mem }
  pte : v'.mem.pte c = v.mem.pte c
  bytes : v'.mem.bytes c = v.mem.bytes c
  undone : Undone (v.Owned {.free}) v.mem v'.mem

theorem Running.intact {m' : Mem} (hr : Running v c) (hu : Undone (v.Owned {.free}) v.mem m') :
    CallerIntact c v { v with mem := m' } := by
  have hkept : ∀ pg ∈ v.mem.Pages c, m'.page pg = v.mem.page pg := by
    rintro pg ⟨a, ha⟩
    refine hu.contents pg fun hfree => ?_
    cases hr.space.excl (some a) none pg ha hfree
  have hpte : m'.pte c = v.mem.pte c := (tab_pte_of_pages hkept).2
  refine ⟨rfl, hpte, ?_, hu⟩
  refine Mem.bytes_congr fun u hu' => ?_
  unfold Mem.view
  change (m'.pte c u).map _ = _
  rw [hpte]
  cases he : v.mem.pte c u with
  | none => rfl
  | some e => rw [Option.map_some, Option.map_some, hkept _ ⟨.user u, hu', by rw [he]; rfl⟩]

attribute [local irreducible] buildStack

theorem wp_exec_intact {E : Stop → State → Prop} (h : SystemOk v) (hr : Running v c)
    (path : List UInt8) (file : Option ElfFile) (hargs : ∀ f, file = some f → BlockFits v f argv) :
    wp (exec path file argv) (fun r v' => r = false → CallerIntact c v v') E v := by
  have hsame : CallerIntact c v v := hr.intact ⟨h.pool, fun _ _ => rfl, fun _ _ _ _ => Iff.rfl⟩
  cases file with
  | none => exact fun _ => hsame
  | some f =>
    cases hhead : readHeader f with
    | none =>
      unfold exec
      simp only [hhead]
      exact fun _ => hsame
    | some elf =>
      have hfill : ∀ d m₁, setupkvm v.mem = .ok (some d) m₁ → Built (v.Owned {.free}) d v.mem m₁ →
          wp (loadImage f c d elf argv) (FillPost (v.Owned {.free}) d v.mem True fun _ _ _ _ => True)
            (fun _ _ => False) m₁ := by
        intro d m₁ hsetup hb
        unfold loadImage
        rw [wp_bind]
        refine wp_post (wp_ran (wp_loadSegments Loaded.inv ⟨_, hb.loaded⟩)) ?_
        rintro r m₂ ⟨hrun, sz, ⟨img, himg⟩, rfl | rfl⟩
        · exact ⟨⟨sz, himg.toImage⟩, trivial⟩
        · have hblock := hargs f rfl elf d m₁ sz m₂ hhead hsetup hrun
          refine wp_post (wp_buildStack_args himg hblock) ?_
          rintro (_ | x) m₃ hpost
          · exact ⟨hpost.1, trivial⟩
          · exact ⟨hpost.2.2.2.toImage, trivial⟩
      refine wp_post (wp_exec_of path h hr hhead hfill) ?_
      rintro r v' (⟨rfl, hv', hundone, -⟩ | ⟨rfl, -⟩)
      · intro _
        rw [hv']
        exact hr.intact hundone
      · exact fun hr => (by cases hr)

/-- Whatever `exec` is called with, a failure leaves the caller as it was: its files and inodes, with
one transaction begun and ended, and its memory. -/
theorem failed_exec_intact {s : Fs.FsState} (hs : Fs.Steady s) (h : SystemOk v) (hr : Running v c)
    (env : Fs.ExecEnv) (path : List UInt8) (file : Option ElfFile)
    (hargs : ∀ f, file = some f → BlockFits v f argv) :
    (∀ r s', (Fs.exec env path).run s = .ok r s' → Fs.NoTrace s s') ∧
      ∃ r v', exec path file argv v = .ok r v' ∧ (r = false → CallerIntact c v v') := by
  refine ⟨fun r s' hrun => ?_, wp_exists_ok (wp_exec_intact h hr path file hargs)⟩
  have hw := Fs.wp_exec_noTrace hs env path
  exact (wp_of_ok hrun).mp hw

end Xv6.Vm

/-! ## A file system at rest -/

namespace Xv6.Fs

open Resumption ByteLayout FreeMap

/-- The file system with one empty file and a directory without entries. -/
def emptyFileBoot : FsState := boot (image emptyFileNodes (bitmapOf 60) .zero)

theorem emptyFileBoot_node (i : ℕ) : emptyFileBoot.vol.node i = if i < 200 then emptyFileNodes i else .zero := by
  by_cases hi : i < 200
  · rw [if_pos hi]
    exact boot_vol_node hi
  · rw [if_neg hi]
    refine if_neg ?_
    rw [show emptyFileBoot.sb = mkfsSb from boot_sb]
    exact hi

theorem SmallNodes.contents_zero {nodes : ℕ → Dinode} (h : SmallNodes nodes) (o : ℕ) :
    ((boot (image nodes (bitmapOf 60) .zero)).vol.contents ROOTINO).getD o 0 = 0 := by
  by_cases ho : o < ((boot (image nodes (bitmapOf 60) .zero)).vol.node ROOTINO).size.toNat
  · have haddr : (boot (image nodes (bitmapOf 60) .zero)).vol.addr ROOTINO (.block (o / BSIZE)) =
        if ROOTINO = ROOTINO ∧ Slot.block (o / BSIZE) = .block 0 then 59 else 0 :=
      h.addr (by decide) _
    have hdata : ∀ b, b = 59 ∨ b = 0 → (boot (image nodes (bitmapOf 60) .zero)).vol.data b = .zero := by
      intro b hb
      change (if (boot (image nodes (bitmapOf 60) .zero)).sb.dataStart ≤ b
        then image nodes (bitmapOf 60) .zero b else .zero) = Buffer.zero
      rcases hb with rfl | rfl
      · simp [image]
      · simp [image]
    rw [getD_contents ho, Volume.byteAt, Volume.fileBlock, hdata, Buffer.byte_zero]
    rw [haddr]
    split_ifs
    · exact .inl rfl
    · exact .inr rfl
  · exact List.getD_eq_default _ _ (by rw [length_contents]; omega)

theorem emptyFileBoot_steady : Steady emptyFileBoot := by
  have hsb : emptyFileBoot.sb = mkfsSb := boot_sb
  have hinodes : emptyFileBoot.sb.ninodes.toNat = 200 := by rw [hsb]; decide
  refine ⟨emptyFileNodes_small.diskOk, by rw [hinodes]; decide, ?_, ?_, ?_, ?_⟩
  · intro i hi
    rw [emptyFileBoot_node] at hi
    have hroot : i = ROOTINO := by
      unfold emptyFileNodes at hi
      split_ifs at hi with h₁ h₂ h₃
      · exact h₂
      all_goals exact absurd hi (by decide)
    subst hroot
    refine ⟨32, ?_, fun j _ => ?_⟩
    · rw [length_contents, emptyFileBoot_node]
      decide
    · have hzero : (fun o => (emptyFileBoot.vol.contents ROOTINO).getD (DIRENTSIZE * j + o) 0) = fun _ => 0 :=
        funext fun o => emptyFileNodes_small.contents_zero _
      rw [entryAt, hzero, hinodes]
      decide
  · intro k hk
    by_cases h0 : k = 0
    · subst h0
      exact ⟨⟨rfl, by rw [show emptyFileBoot.vol.sb = mkfsSb from boot_sb]; decide, (by decide)⟩, rfl⟩
    · have hzero : (emptyFileBoot.inode k).ref = 0 := by
        change (if k = 0 then _ else _ : Inode).ref = 0
        rw [if_neg h0]
      omega
  · intro i htype hlink
    rw [emptyFileBoot_node] at htype hlink
    unfold emptyFileNodes at htype hlink
    split_ifs at htype hlink <;> first | exact absurd hlink (by decide) | exact absurd rfl htype
  · intro k hk
    have hcwd : some (0 : Fin NINODE) = some k := hk
    cases hcwd
    exact Nat.one_pos

end Xv6.Fs

namespace Xv6.Vm

open Resumption

theorem failed_exec_intact_boot : ∃ v c, @main smallKernel [] 0 (State.off (fun _ => .zero) fun _ => false)
      = .ok () v ∧
    ∀ env path, (∀ r s', (Fs.exec env path).run Fs.emptyFileBoot = .ok r s' → Fs.NoTrace Fs.emptyFileBoot s') ∧
      ∃ r v', @exec smallKernel path (some emptyElf) [[104, 105]] v = .ok r v' ∧
        (r = false → @CallerIntact smallKernel c v v') := by
  obtain ⟨v, c, hboot, hok, -, hf⟩ := @exists_fresh smallKernel
  refine ⟨v, c, hboot, fun env path => ?_⟩
  refine @failed_exec_intact smallKernel _ _ _ _ Fs.emptyFileBoot_steady hok
    (@Fresh.running smallKernel _ _ _ hok hf) env path _ ?_
  intro f _ elf d m₁ sz m₂ _ _ _
  have hblock : argBlock [[104, 105]] = 24 := by decide
  rw [hblock]
  simp only [PGSIZE]
  omega

end Xv6.Vm
