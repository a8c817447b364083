import Xv6.Directory

/-!
# A directory is a finite map

`dirlookup`, `dirlink`, the erasure in `sys_unlink` and `isdirempty` on a directory whose contents are well
formed: what they return and what they do to its entries.
-/

namespace Xv6.Fs

open Resumption ByteLayout FreeMap Function UInt32 List Nat FsState

variable {s s' s₁ : FsState} {k ip : Fin NINODE} {E : Stop → FsState → Prop} {c t inum : ℕ}
  {name : Name}

/-- Cache entry `k` is a directory of `c` entries, in use. -/
structure IsDir (s : FsState) (k : Fin NINODE) (c : ℕ) : Prop where
  ok : DiskOk s
  cached : Cached s k
  ref : 0 < (s.inode k).ref
  type : (s.inode k).node.type = T_DIR
  length : (s.bytes k).length = DIRENTSIZE * c

variable {src : Bytes} {R : Unit → FsState → Prop}

section

variable (h : IsDir s k c)
include h

theorem IsDir.allocated : s.vol.Allocated (s.inode k).inum := by
  refine ⟨h.cached.lt, ?_⟩
  rw [← h.cached.node, h.type]
  decide

theorem IsDir.readable : ReadableFile s k := by
  unfold ReadableFile
  rw [h.cached.volWith_eq, h.cached.size_eq]
  exact h.ok.exact.readable h.allocated (h.ok.holeFree _ h.allocated)

theorem IsDir.bytes_eq : s.bytes k = s.vol.contents (s.inode k).inum := by
  rw [bytes, h.cached.volWith_eq]

theorem IsDir.size_eq : (s.inode k).node.size.toNat = DIRENTSIZE * c := by
  rw [← length_bytes, h.length]

end

/-- The directory in `k` is as it was. -/
structure Others (k : Fin NINODE) (s s' : FsState) : Prop where
  dir : ∀ c, IsDir s k c → IsDir s' k c
  inum : (s'.inode k).inum = (s.inode k).inum
  bytes : s'.bytes k = s.bytes k

theorem Others.trans {s₂ : FsState} (h : Others k s s₁) (h' : Others k s₁ s₂) : Others k s s₂ :=
  ⟨fun c hc => h'.dir c (h.dir c hc), h'.inum.trans h.inum, h'.bytes.trans h.bytes⟩

theorem others_of_cache (hdisk : s'.disk = s.disk) (hsb : s'.sb = s.sb) (hinum : (s'.inode k).inum = (s.inode k).inum)
    (hnode : (s'.inode k).node = (s.inode k).node) (href : 0 < (s'.inode k).ref) : Others k s s' := by
  have hvol : s'.vol = s.vol := by
    unfold vol dnode used
    rw [hdisk, hsb]
  have hbytes : s'.bytes k = s.bytes k := by
    unfold bytes volWith
    rw [hvol, hinum, hnode]
  refine ⟨fun c h => ⟨⟨?_, ?_, ?_, ?_⟩, ⟨?_, ?_⟩, href, hnode ▸ h.type, hbytes ▸ h.length⟩, hinum, hbytes⟩
  · rw [hsb]
    exact h.ok.wf
  · rw [hsb, hdisk]
    exact h.ok.super
  · rw [hvol]
    exact h.ok.exact
  · rw [hvol]
    exact h.ok.holeFree
  · rw [hsb, hinum]
    exact h.cached.lt
  · rw [hvol, hnode, hinum]
    exact h.cached.node

/-! ## Looking up -/

/-- What `iget` does to the cache: one more reference to an entry, or a fresh entry. -/
structure Holds (ip : Fin NINODE) (inum : ℕ) (s s' : FsState) : Prop where
  disk : s'.disk = s.disk
  sb : s'.sb = s.sb
  inum : (s'.inode ip).inum = inum
  other : ∀ j, j ≠ ip → s'.inode j = s.inode j
  entry : 0 < (s.inode ip).ref ∧ s'.inode ip = { s.inode ip with ref := (s.inode ip).ref + 1 } ∨
    (s.inode ip).ref = 0 ∧ (s'.inode ip).ref = 1 ∧ (s'.inode ip).valid = false ∧ (s'.inode ip).busy = false

theorem Holds.others (h : Holds ip inum s s') (hk : 0 < (s.inode k).ref) : Others k s s' := by
  by_cases hki : k = ip
  · subst hki
    rcases h.entry with ⟨-, hs'⟩ | ⟨h0, -⟩
    · exact others_of_cache h.disk h.sb (by rw [hs']) (by rw [hs']) (by rw [hs']; exact succ_pos _)
    · exact absurd hk (by omega)
  · have hsame := h.other k hki
    exact others_of_cache h.disk h.sb (by rw [hsame]) (by rw [hsame]) (by rw [hsame]; exact hk)

theorem wp_iget {R : Fin NINODE → FsState → Prop} {dev : ℕ} (hE : (∀ j, (s.inode j).ref ≠ 0) → E (.panic "iget: no inodes") s)
    (hR : ∀ ip s', Holds ip inum s s' → R ip s') : wp (iget dev inum) R E s := by
  unfold iget
  rw [wp_bind, wp_get]
  cases hfind : (List.finRange NINODE).find? fun k =>
      decide (0 < (s.inode k).ref ∧ (s.inode k).dev = dev ∧ (s.inode k).inum = inum) with
  | some ip =>
    have hip := List.find?_some hfind
    rw [decide_eq_true_iff] at hip
    dsimp only
    rw [wp_bind, wp_set, wp_pure]
    refine hR _ _ ⟨rfl, rfl, ?_, fun j hj => update_of_ne hj _ _, .inl ⟨hip.1, update_self ..⟩⟩
    simp only [setInode, update_self]
    exact hip.2.2
  | none =>
    dsimp only
    cases hfree : (List.finRange NINODE).find? fun k => decide ((s.inode k).ref = 0) with
    | none =>
      refine hE fun j hj => List.find?_eq_none.1 hfree j (mem_finRange j) ?_
      rwa [decide_eq_true_iff]
    | some ip =>
      have hip := List.find?_some hfree
      rw [decide_eq_true_iff] at hip
      dsimp only
      rw [wp_bind, wp_set, wp_pure]
      refine hR _ _ ⟨rfl, rfl, ?_, fun j hj => update_of_ne hj _ _, .inr ⟨hip, ?_, ?_, ?_⟩⟩ <;>
        simp only [setInode, update_self]

def Match (l : List UInt8) (name : Name) (j : ℕ) : Prop :=
  (entryAt l j).inum ≠ 0 ∧ (entryAt l j).name = canon name

theorem canon_ofBytes (f : Bytes) : canon (Dirent.ofBytes f).name = (Dirent.ofBytes f).name := by
  have hlen : (Dirent.ofBytes f).name.length ≤ DIRSIZ :=
    (takeWhile_sublist _).length_le.trans (by rw [length_map, length_range])
  rw [canon, take_of_length_le hlen, Dirent.ofBytes, takeWhile_takeWhile]
  simp

theorem namecmp_entry (l : List UInt8) (name : Name) (j : ℕ) :
    namecmp name (entryAt l j).name = 0 ↔ (entryAt l j).name = canon name := by
  rw [namecmp_eq_zero_iff, entryAt, canon_ofBytes]
  exact eq_comm

theorem wp_dirlookup {R : Option (Fin NINODE × ℕ) → FsState → Prop} (h : IsDir s k c) (name : Name)
    (hE : ∀ t < c, Match (s.bytes k) name t → E (.panic "iget: no inodes") s)
    (hsome : ∀ t ip s', t < c → Match (s.bytes k) name t → (∀ u < t, ¬ Match (s.bytes k) name u) →
      Holds ip (entryAt (s.bytes k) t).inum.toNat s s' → R (some (ip, DIRENTSIZE * t)) s')
    (hnone : (∀ u < c, ¬ Match (s.bytes k) name u) → R none s) : wp (dirlookup k name) R E s := by
  have hmatch : ∀ j, decide ((entryAt (s.bytes k) j).inum ≠ 0 ∧ namecmp name (entryAt (s.bytes k) j).name = 0) = true ↔
      Match (s.bytes k) name j := fun j => by
    rw [decide_eq_true_iff, namecmp_entry]
    rfl
  have hmatch' : ∀ j, decide ((entryAt (s.bytes k) j).inum ≠ 0 ∧ namecmp name (entryAt (s.bytes k) j).name = 0) = false →
      ¬ Match (s.bytes k) name j := fun j hj hm => by
    rw [(hmatch j).2 hm] at hj
    cases hj
  unfold dirlookup
  simp only [getNode, wp_bind, wp_get, wp_pure]
  rw [if_neg (not_not.2 h.type), wp_bind, h.size_eq]
  refine wp_scanDir (j := 0) h.readable h.length (zero_le _) (fun t _ ht hp hbefore => ?_) fun hall => ?_
  · simp only [wp_bind, wp_get]
    refine wp_iget (fun _ => hE t ht ((hmatch t).1 hp)) fun ip s' hs' => ?_
    rw [wp_pure]
    exact hsome t ip s' ht ((hmatch t).1 hp) (fun u hu => hmatch' u (hbefore u (zero_le _) hu)) hs'
  · dsimp only
    rw [wp_pure]
    exact hnone fun u hu => hmatch' u (hall u (zero_le _) hu)

/-! ## Changing an entry -/

structure Stored (k : Fin NINODE) (c t : ℕ) (de : Dirent) (s s' : FsState) : Prop where
  dir : IsDir s' k (max c (t + 1))
  inum : (s'.inode k).inum = (s.inode k).inum
  entry : ∀ j, j < max c (t + 1) → entryAt (s'.bytes k) j = if j = t then de else entryAt (s.bytes k) j

section

variable (h : IsDir s k c)
include h

theorem Wrote.stored (ht : t ≤ c)
    (hw : Wrote k src (DIRENTSIZE * t) DIRENTSIZE s s') : Stored k c t (.ofBytes src) s s' := by
  have hentry : s'.inode k = { s.inode k with node := s'.vol.node (s.inode k).inum } := by
    rw [hw.inode, update_self]
  have hinum : (s'.inode k).inum = (s.inode k).inum := by rw [hentry]
  have hcached : Cached s' k := by
    refine ⟨?_, ?_⟩
    · rw [hinum, hw.sb]
      exact h.cached.lt
    · rw [hinum, hentry]
  have hbytes : s'.bytes k = overwrite (s.bytes k) (DIRENTSIZE * t) DIRENTSIZE src := by
    rw [bytes, hcached.volWith_eq, hinum, hw.contents, h.bytes_eq]
  obtain ⟨hlen, hget⟩ := entryAt_overwrite src h.length ht
  refine ⟨⟨hw.ok, hcached, ?_, ?_, hbytes ▸ hlen⟩, hinum, fun j hj => ?_⟩
  · rw [hentry]
    exact h.ref
  · obtain ⟨a, ha⟩ := hw.node
    rw [hentry, ha, ← h.cached.node]
    exact h.type
  · rw [hbytes]
    exact hget j hj

theorem IsDir.count_le : DIRENTSIZE * c ≤ MAXFILE * BSIZE := by
  have hhole := h.ok.holeFree _ h.allocated
  have hsize := size_le_blocks (s.vol.node (s.inode k).inum).size.toNat
  rw [← h.size_eq, h.cached.size_eq]
  exact hsize.trans (mul_le_mul_right _ hhole.le)

theorem wp_writeDirent {R : Option UInt32 → FsState → Prop} (ht : t ≤ c)
    (hE : ∀ s', E (.panic "balloc: out of blocks") s') (hR : ∀ s', Stored k c t (.ofBytes src) s s' → R (some (UInt32.ofNat DIRENTSIZE)) s')
    (hfail : R none s) : wp (writeData k src (UInt32.ofNat (DIRENTSIZE * t)) (UInt32.ofNat DIRENTSIZE)) R E s := by
  have hcount := h.count_le
  have hoff : (ofNat (DIRENTSIZE * t)).toNat = DIRENTSIZE * t := by
    rw [toNat_ofNat', mod_eq_of_lt]
    simp only [DIRENTSIZE, MAXFILE, NDIRECT, NINDIRECT, BSIZE] at *
    omega
  have hn : (ofNat DIRENTSIZE).toNat = DIRENTSIZE := rfl
  refine wp_writeData h.ok h.cached h.allocated (fun _ => hfail) (fun _ _ s' => hE s') fun _ s' hw => hR s' ?_
  rw [hoff, hn] at hw
  exact hw.stored h ht

theorem wp_dirlinkStore
    (hE : ∀ msg s', E (.panic msg) s')
    (hR : ∀ t s', t ≤ c → (t < c → (entryAt (s.bytes k) t).inum = 0) →
      Stored k c t ⟨UInt16.ofNat inum, canon name⟩ s s' → R () s') :
    wp (dirlinkStore k name inum) R E s := by
  have hstore : ∀ t, t ≤ c → (t < c → (entryAt (s.bytes k) t).inum = 0) →
      ∀ f : Option UInt32 → M Unit, f (some (ofNat DIRENTSIZE)) = pure () → f none = throw (.panic "dirlink") →
      wp (writeData k (Dirent.bytes ⟨UInt16.ofNat inum, name⟩) (ofNat (DIRENTSIZE * t))
        (ofNat DIRENTSIZE)) (fun r => wp (f r) R E) E s := by
    intro t ht hfree f hsome hnone
    refine wp_writeDirent h ht (fun s' => hE _ s') (fun s' hs' => ?_) ?_
    · rw [ofBytes_bytes_canon] at hs'
      rw [hsome, wp_pure]
      exact hR t s' ht hfree hs'
    · rw [hnone]
      exact hE _ s
  unfold dirlinkStore
  simp only [getNode, wp_bind, wp_get, wp_pure]
  rw [h.size_eq]
  refine wp_scanDir (j := 0) h.readable h.length (zero_le _) (fun t _ ht hp _ => ?_) fun _ => ?_
  · exact hstore t ht.le (fun _ => of_decide_eq_true hp) _ (if_neg (not_not.2 rfl)) rfl
  · exact hstore c le_rfl (fun hc => absurd hc (lt_irrefl _)) _ (if_neg (not_not.2 rfl)) rfl

theorem wp_clearDirent (ht : t < c) (hE : ∀ msg s', E (.panic msg) s')
    (hR : ∀ s', Stored k c t ⟨0, []⟩ s s' → R () s') : wp (clearDirent k (DIRENTSIZE * t)) R E s := by
  unfold clearDirent
  rw [wp_bind]
  refine wp_writeDirent h ht.le (fun s' => hE _ s') (fun s' hs' => ?_) (hE _ s)
  dsimp only
  rw [if_neg (not_not.2 rfl), wp_pure]
  have hzero : Dirent.ofBytes (fun _ => 0) = ⟨0, []⟩ := by decide
  rw [hzero] at hs'
  exact hR s' hs'

theorem wp_isdirempty {R : Bool → FsState → Prop} (htwo : 2 ≤ c)
    (hR : ∀ b, (b = true ↔ ∀ u, 2 ≤ u → u < c → (entryAt (s.bytes k) u).inum = 0) → R b s) :
    wp (isdirempty k) R E s := by
  unfold isdirempty
  simp only [getNode, wp_bind, wp_get, wp_pure]
  rw [h.size_eq, show 2 * DIRENTSIZE = DIRENTSIZE * 2 from rfl]
  refine wp_scanDir h.readable h.length htwo (fun t h2 ht hp _ => hR _ ?_) fun hall => hR _ ?_
  · refine ⟨(by simp), fun hzero => ?_⟩
    exact absurd (hzero t h2 ht) (of_decide_eq_true hp)
  · refine ⟨fun _ u h2 hu => ?_, fun _ => rfl⟩
    exact not_not.1 (of_decide_eq_false (hall u h2 hu))

end

end Xv6.Fs
