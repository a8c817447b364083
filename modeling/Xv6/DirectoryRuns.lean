import Xv6.MkfsBoot

/-!
# Directories that `create` and `mkfs` make

Both start a history: `create` links "." and ".." into an empty directory, `mkfs` writes the root directory.
-/

namespace Xv6.Fs

open Resumption ByteLayout FreeMap Mkfs Function List UInt16

variable {s s' s₀ s₁ s₂ : FsState} {k : Fin NINODE} {c inum : ℕ} {name : Name} {own parent : ℕ}
  {h : List Event}

theorem dirlink_stored (hdir : IsDir s k c) (hrun : (dirlink k name inum).run s = .ok true s') :
    ∃ t, t ≤ c ∧ (t < c → (entryAt (s.bytes k) t).inum = 0) ∧
      Stored k c t ⟨UInt16.ofNat inum, canon name⟩ s s' := by
  have hw : wp (dirlink k name inum).run (fun r s' => r = true → ∃ t, t ≤ c ∧
      (t < c → (entryAt (s.bytes k) t).inum = 0) ∧
      Stored k c t ⟨ofNat inum, canon name⟩ s s') (fun _ _ => True) s :=
    wp_dirlink hdir name inum (fun _ _ => trivial) (fun _ _ _ _ _ _ => nofun)
      fun _ t s' ht hfree hs' _ => ⟨t, ht, hfree, hs'⟩
  exact (wp_of_ok hrun).1 hw rfl

theorem ofNat_ne_zero (hpos : 0 < inum) (hlt : inum < 65536) :
    UInt16.ofNat inum ≠ 0 ∧ (UInt16.ofNat inum).toNat = inum := by
  have hval : (ofNat inum).toNat = inum := by
    rw [toNat_ofNat', Nat.mod_eq_of_lt hlt]
  refine ⟨fun h0 => ?_, hval⟩
  rw [h0] at hval
  exact absurd hval hpos.ne

theorem dirMap_createDots (hdir : IsDir s₀ k 0) (hown : 0 < own ∧ own < 65536) (hparent : 0 < parent ∧ parent < 65536)
    (hdot : (dirlink k dot own).run s₀ = .ok true s₁) (ho : Others k s₁ s₂)
    (hdotdot : (dirlink k dotdot parent).run s₂ = .ok true s) :
    DirMap s k (UInt16.ofNat own) (UInt16.ofNat parent) (latest (fun _ => 0) [.link dot own, .link dotdot parent]) := by
  obtain ⟨hown0, hownv⟩ := ofNat_ne_zero hown.1 hown.2
  obtain ⟨hpar0, hparv⟩ := ofNat_ne_zero hparent.1 hparent.2
  obtain ⟨t, ht, -, hs₁⟩ := dirlink_stored hdir hdot
  obtain rfl : t = 0 := by omega
  have hdir₁ : IsDir s₁ k 1 := hs₁.dir
  have hentry₁ : entryAt (s₁.bytes k) 0 = ⟨ofNat own, canon dot⟩ := hs₁.entry 0 (by omega)
  have hdir₂ := ho.dir 1 hdir₁
  have hentry₂ : entryAt (s₂.bytes k) 0 = ⟨ofNat own, canon dot⟩ := by
    rw [ho.bytes]
    exact hentry₁
  obtain ⟨t, ht, hfree, hs⟩ := dirlink_stored hdir₂ hdotdot
  obtain rfl : t = 1 := by
    by_contra hne
    obtain rfl : t = 0 := by omega
    have hzero := hfree (by omega)
    rw [hentry₂] at hzero
    exact hown0 hzero
  have hzero : entryAt (s.bytes k) 0 = ⟨ofNat own, dot⟩ := by
    rw [hs.entry 0 (by omega), if_neg (by omega), hentry₂, canon_dot]
  have hone : entryAt (s.bytes k) 1 = ⟨ofNat parent, dotdot⟩ := by
    rw [hs.entry 1 (by omega), if_pos rfl, canon_dotdot]
  have hmap : latest (fun _ => 0) [.link dot own, .link dotdot parent] =
      update (update (fun _ => 0) dot own) dotdot parent := by
    rw [latest, foldl_cons, foldl_cons, foldl_nil, Event.apply_link, Event.apply_link, canon_dot,
      canon_dotdot]
  have hdots : dot ≠ dotdot := by decide
  have hlow : ∀ {a : ℕ}, a < max 1 (1 + 1) → a = 0 ∨ a = 1 := by
    intro a ha
    omega
  refine ⟨_, hs.dir, le_rfl, hzero, hone, hown0, hpar0, fun a b ha hb _ _ hab => ?_, fun a ha _ => ?_, fun n hn => ?_⟩
  · rcases hlow ha with rfl | rfl <;> rcases hlow hb with rfl | rfl
    · rfl
    · rw [hzero, hone] at hab
      exact absurd hab hdots
    · rw [hzero, hone] at hab
      exact absurd hab.symm hdots
    · rfl
  · rw [hmap]
    rcases hlow ha with rfl | rfl
    · rw [hzero, update_of_ne hdots, update_self, hownv]
    · rw [hone, update_self, hparv]
  · rw [hmap] at hn
    by_cases h1 : canon n = dotdot
    · exact ⟨1, by omega, by rw [hone]; exact hpar0, by rw [hone, h1]⟩
    · rw [update_of_ne h1] at hn
      by_cases h0 : canon n = dot
      · exact ⟨0, by omega, by rw [hzero]; exact hown0, by rw [hzero, h0]⟩
      · rw [update_of_ne h0] at hn
        exact absurd rfl hn

/-- A directory that `create` has made in an empty inode, or the root directory of an image of `mkfs`; its
first two inode numbers and its map. -/
inductive Created (k : Fin NINODE) : FsState → UInt16 → UInt16 → (Name → ℕ) → Prop
  | create {s₀ s₁ s₂ s : FsState} {own parent : ℕ} : IsDir s₀ k 0 → 0 < own ∧ own < 65536 → 0 < parent ∧ parent < 65536 →
      (dirlink k dot own).run s₀ = .ok true s₁ → Others k s₁ s₂ → (dirlink k dotdot parent).run s₂ = .ok true s →
      Created k s (UInt16.ofNat own) (UInt16.ofNat parent) (latest (fun _ => 0) [.link dot own, .link dotdot parent])
  | mkfs {files : List Input} {m : Image} {s : FsState} : Builds files m → files.length + 2 ≤ NINODES → ¬ 32 ∣ files.length + 2 →
      NamesDistinct files → Mounted m s → Cached s k → (s.inode k).inum = ROOTINO → 0 < (s.inode k).ref →
      Created k s 1 1 (rootMap files)

theorem Created.dirMap {p q : UInt16} {m : Name → ℕ} (hmade : Created k s p q m) : DirMap s k p q m := by
  cases hmade with
  | create hdir hown hparent hdot ho hdotdot => exact dirMap_createDots hdir hown hparent hdot ho hdotdot
  | mkfs hbuild hlen hfill hnames hmount hcached hinum href =>
    exact hmount.root (hbuild.finished (hlen.trans (by decide))) hlen hfill hnames hcached hinum href

/-- Two empty files with one name. -/
def twins : List Input := [⟨[97], some []⟩, ⟨[97], some []⟩]

theorem twins_accepted : Accepted twins := by
  refine ⟨by decide, fun f hf => ?_, fun f hf => ?_, by decide⟩
  · rcases mem_cons.1 hf with rfl | hf
    · exact Option.some_ne_none _
    · rw [mem_singleton.1 hf]
      exact Option.some_ne_none _
  · rcases mem_cons.1 hf with rfl | hf
    · exact Nat.zero_le _
    · rw [mem_singleton.1 hf]
      exact Nat.zero_le _

end Xv6.Fs
