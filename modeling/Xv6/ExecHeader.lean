import Xv6.FileRefinement
import Xv6.ProcModel

/-!
# Reading the header of a program

`exec` reads the ELF header with `readi` and compares the number of bytes it gets with the size of the
header. The comparison is unsigned, so -1 is as good as a complete header, and the magic number is
then looked for in what the variable happens to hold. `readi` returns -1 for a device without a
driver, and for the console when the process is killed.
-/

namespace Xv6.Fs

open Resumption ByteLayout Prog UInt32 Nat

def readiResult : Option (List UInt8) → Int32
  | none => -1
  | some l => Int32.ofNat l.length

/-- How `exec` reads and checks the header of the locked inode `k`; `stale` is what the variable `elf`
holds if `readi` fails. -/
def checkHeader (input : Option (List UInt8)) (k : Fin NINODE) (stale : List UInt8) :
    FsProg (Option Bytes) := do
  let r ← readi input k 0 (UInt32.ofNat Vm.ELFHDRSIZE)
  return Vm.readHeader ⟨fun _ _ => r, stale⟩

/-- The inode is locked and loaded. -/
structure Locked (s : FsState) (k : Fin NINODE) : Prop where
  ref : 1 ≤ (s.inode k).ref
  busy : (s.inode k).busy = true
  valid : (s.inode k).valid = true

/-- The whole header has been read from the file, and it has the magic number. -/
def HeaderRead (input : Option (List UInt8)) (k : Fin NINODE) (s s' : FsState) : Prop :=
  ∃ l, (readi input k 0 (UInt32.ofNat Vm.ELFHDRSIZE)).run s = .ok (some l) s' ∧
    l.length = Vm.ELFHDRSIZE ∧ get32 (fun j => l.getD j 0) 0 = Vm.ELF_MAGIC

/-- `readi` returns -1: a device without a driver, or a console that delivers nothing. -/
def ReadFails (ip : Dinode) (input : Option (List UInt8)) : Prop :=
  ip.type = T_DEV ∧ (noDevice ip = true ∨ input = none)

variable {s s' : FsState} {k : Fin NINODE} {input r : Option (List UInt8)}

variable {stale : List UInt8}

theorem checkHeader_run (hr : (readi input k 0 (UInt32.ofNat Vm.ELFHDRSIZE)).run s = .ok r s') :
    (checkHeader input k stale).run s = .ok (Vm.readHeader ⟨fun _ _ => r, stale⟩) s' := by
  unfold checkHeader
  rw [run_bind]
  change EStateM.bind _ _ s = _
  unfold EStateM.bind
  rw [hr]
  rfl

theorem exists_readi_run {hdr : Option Bytes} (hc : (checkHeader input k stale).run s = .ok hdr s') :
    ∃ r, (readi input k 0 (UInt32.ofNat Vm.ELFHDRSIZE)).run s = .ok r s' ∧
      hdr = Vm.readHeader ⟨fun _ _ => r, stale⟩ := by
  unfold checkHeader at hc
  rw [run_bind] at hc
  change EStateM.bind _ _ s = _ at hc
  unfold EStateM.bind at hc
  cases hr : (readi input k 0 (ofNat Vm.ELFHDRSIZE)).run s with
  | error e t =>
    rw [hr] at hc
    cases hc
  | ok r t =>
    rw [hr] at hc
    cases hc
    exact ⟨r, rfl, rfl⟩

/-! ## What readi delivers -/

theorem wp_any {α : Type} {m : M α} {Q : α → FsState → Prop} (hQ : ∀ a t, Q a t) :
    wp m Q (fun _ _ => True) s := by
  unfold wp
  cases m s with
  | ok a t => exact hQ a t
  | error e t => trivial

theorem wp_readLoop_length {off n : ℕ} :
    wp (readLoop k off n) (fun l _ => l.length = n) (fun _ _ => True) s := by
  induction n using Nat.strong_induction_on generalizing off s with
  | h n ih =>
    rw [readLoop]
    by_cases hzero : n = 0
    · rw [if_pos hzero, wp_pure]
      exact hzero.symm
    · rw [if_neg hzero, wp_bind]
      refine wp_any fun addr t => ?_
      rw [wp_bind]
      refine wp_any fun bp t => ?_
      have hm : 0 < min n (BSIZE - off % BSIZE) := by
        have := Nat.mod_lt off (show 0 < BSIZE by decide)
        omega
      rw [wp_bind]
      refine wp_mono (ih (n - min n (BSIZE - off % BSIZE)) (by omega)) ?_ (fun _ _ _ => trivial)
      intro rest t hrest
      rw [wp_pure, List.length_append, List.length_map, List.length_range, hrest]
      omega

theorem wp_readData_start {n : UInt32} :
    wp (readData k 0 n) (fun r _ => ∃ l, r = some l ∧ l.length ≤ n.toNat) (fun _ _ => True) s := by
  unfold readData
  simp only [getNode, wp_bind, wp_get, wp_pure]
  rw [if_neg, wp_map]
  · refine wp_mono wp_readLoop_length ?_ (fun _ _ _ => trivial)
    intro l t hl
    refine ⟨l, rfl, ?_⟩
    rw [hl]
    split_ifs with hgt
    · rw [gt_iff_lt, UInt32.zero_add, UInt32.lt_iff_toNat_lt] at hgt
      rw [UInt32.sub_zero]
      exact hgt.le
    · exact le_rfl
  · rw [UInt32.zero_add]
    rintro (h | h)
    · exact absurd h (UInt32.not_lt.mpr UInt32.zero_le)
    · exact absurd h (UInt32.not_lt.mpr UInt32.zero_le)

theorem readi_start (ht : ¬ ReadFails (s.inode k).node input)
    (hr : (readi input k 0 (UInt32.ofNat Vm.ELFHDRSIZE)).run s = .ok r s') :
    ∃ l, r = some l ∧ l.length ≤ Vm.ELFHDRSIZE := by
  by_cases hdev : (s.inode k).node.type = T_DEV
  · have hdriver : noDevice (s.inode k).node = false := by
      by_contra hno
      exact ht ⟨hdev, .inl (Bool.eq_true_of_not_eq_false hno)⟩
    have hw : wp (readi input k 0 (ofNat Vm.ELFHDRSIZE)).run
        (fun r _ => r = input.map (·.take Vm.ELFHDRSIZE)) (fun _ _ => True) s := by
      unfold readi
      simp only [run_bind, run_atom, wp_bind, getNode, wp_get, wp_pure]
      rw [if_pos hdev, if_neg (by rw [hdriver]; decide)]
      simp only [run_bind, run_atom, wp_bind]
      refine wp_any fun _ _ => wp_any fun _ _ => ?_
      rfl
    rw [wp_ok hw hr]
    cases input with
    | none => exact (ht ⟨hdev, .inr rfl⟩).elim
    | some l => exact ⟨_, rfl, List.length_take_le ..⟩
  · rw [readi_run hdev] at hr
    exact wp_ok wp_readData_start hr

theorem ReadFails.run (h : Locked s k) (hf : ReadFails (s.inode k).node input) :
    ∃ s', (readi input k 0 (UInt32.ofNat Vm.ELFHDRSIZE)).run s = .ok none s' := by
  obtain ⟨hdev, hno⟩ := hf
  have hw : wp (readi input k 0 (ofNat Vm.ELFHDRSIZE)).run (fun r _ => r = none)
      (fun _ _ => False) s := by
    unfold readi
    simp only [run_bind, run_atom, wp_bind, getNode, wp_get, wp_pure]
    rw [if_pos hdev]
    by_cases hdriver : noDevice (s.inode k).node = true
    · rw [if_pos hdriver]
      rfl
    · rw [if_neg hdriver]
      simp only [run_bind, run_atom, wp_bind]
      refine wp_iunlock h.ref h.busy ?_
      have hinode : (s.setInode k { s.inode k with busy := false }).inode k =
          { s.inode k with busy := false } := Function.update_self ..
      unfold ilock
      simp only [wp_bind, wp_get]
      rw [hinode, if_neg (not_lt.mpr h.ref), if_neg Bool.false_ne_true, if_pos h.valid, wp_set]
      rw [hno.resolve_left hdriver]
      rfl
  obtain ⟨r, s', hrun, rfl⟩ := wp_exists_ok hw
  exact ⟨s', hrun⟩

/-! ## The header check -/

theorem readHeader_some {l : List UInt8} {hdr : Bytes} (hlen : l.length ≤ Vm.ELFHDRSIZE)
    (hh : Vm.readHeader ⟨fun _ _ => some l, stale⟩ = some hdr) :
    l.length = Vm.ELFHDRSIZE ∧ get32 (fun j => l.getD j 0) 0 = Vm.ELF_MAGIC := by
  unfold Vm.readHeader at hh
  simp only [Option.map_some, Option.getD_some] at hh
  split_ifs at hh with hshort hmagic
  exact ⟨le_antisymm hlen (not_lt.mp hshort), not_not.mp hmagic⟩

/-- The four bytes of the magic number. -/
def magicBytes : List UInt8 := [0x7F, 0x45, 0x4C, 0x46]

theorem readHeader_stale : Vm.readHeader ⟨fun _ _ => none, magicBytes⟩ ≠ none := by
  unfold Vm.readHeader
  rw [if_neg (by decide), if_neg (by decide)]
  simp

theorem ReadFails.accepted (h : Locked s k) (hf : ReadFails (s.inode k).node input) :
    ∃ hdr s', (checkHeader input k magicBytes).run s = .ok (some hdr) s' ∧
      ¬ HeaderRead input k s s' := by
  obtain ⟨s', hrun⟩ := hf.run h
  obtain ⟨hdr, hhdr⟩ := Option.ne_none_iff_exists'.mp readHeader_stale
  refine ⟨hdr, s', by rw [checkHeader_run hrun, hhdr], ?_⟩
  rintro ⟨l, hl, -⟩
  rw [hrun] at hl
  cases hl

/-- Only headers that have been read are accepted, whatever was in the variable before: exactly for
the inodes on which `readi` does not fail. -/
theorem header_read_iff (h : Locked s k) (input : Option (List UInt8)) :
    (∀ stale hdr s', (checkHeader input k stale).run s = .ok (some hdr) s' →
      HeaderRead input k s s') ↔ ¬ ReadFails (s.inode k).node input := by
  constructor
  · intro hall hf
    obtain ⟨hdr, s', hrun, hnot⟩ := hf.accepted h
    exact hnot (hall _ hdr s' hrun)
  · intro hok stale hdr s' hrun
    obtain ⟨r, hr, hhdr⟩ := exists_readi_run hrun
    obtain ⟨l, rfl, hlen⟩ := readi_start hok hr
    exact ⟨l, hr, readHeader_some hlen hhdr.symm⟩

theorem header_read_iff_file : Locked emptyFileOpen 1 ∧
    ∀ stale hdr s', (checkHeader none 1 stale).run emptyFileOpen = .ok (some hdr) s' →
      HeaderRead none 1 emptyFileOpen s' := by
  have h : Locked emptyFileOpen 1 := ⟨le_rfl, rfl, rfl⟩
  refine ⟨h, (header_read_iff h none).mpr ?_⟩
  rintro ⟨hdev, -⟩
  exact absurd hdev (by decide)

/-! ## A device without a driver -/

/-- The root directory and a device with major number 5. -/
def deviceNodes (i : ℕ) : Dinode :=
  if i = ROOTINO then ⟨T_DIR, 0, 0, 1, 512, Function.update (fun _ => 0) 0 59⟩
  else if i = 2 then ⟨T_DEV, 5, 0, 1, 0, fun _ => 0⟩
  else .zero

/-- `exec` has locked the device. -/
def deviceLocked : FsState :=
  (boot (image deviceNodes (bitmapOf 60) .zero)).setInode 1
    ⟨ROOTDEV, 2, 1, true, true, deviceNodes 2⟩

theorem deviceLocked_cached : Cached deviceLocked 1 := by
  have hnode : deviceLocked.vol.node 2 = deviceNodes 2 := boot_vol_node (by decide)
  exact ⟨by rw [show deviceLocked.sb = mkfsSb from boot_sb]; decide, hnode.symm⟩

/-- Nothing is read from the device, and the header left in the variable is accepted. -/
theorem stale_header_accepted : Cached deviceLocked 1 ∧
    ∃ hdr s', (checkHeader none 1 magicBytes).run deviceLocked = .ok (some hdr) s' ∧
      ¬ HeaderRead none 1 deviceLocked s' := by
  refine ⟨deviceLocked_cached, ReadFails.accepted ⟨le_rfl, rfl, rfl⟩ ⟨rfl, .inl ?_⟩⟩
  decide

end Xv6.Fs
