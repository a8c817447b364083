import Xv6.DirectoryMap

/-!
# Histories of a directory

The entries of a directory stand for the map that a history of `dirlink` and erasures describes: its live
entries have different names, the first two are "." and "..", and each live name has the inode number that
was linked last.
-/

namespace Xv6.Fs

open Resumption ByteLayout FreeMap Function

variable {s s' s₁ s₂ : FsState} {k ip : Fin NINODE} {E : Stop → FsState → Prop} {c t inum : ℕ}
  {name : Name}

/-! ## `dirlink` -/

theorem wp_iput_held {R : Unit → FsState → Prop} (h : Holds ip inum s s₁) (hk : 0 < (s.inode k).ref)
    (hR : ∀ s', Others k s s' → s'.disk = s.disk → R () s') : wp (iput ip).run R E s₁ := by
  have hkeep : ¬ ((s₁.inode ip).ref = 1 ∧ (s₁.inode ip).valid = true ∧ (s₁.inode ip).node.nlink = 0) := by
    rintro ⟨href, hvalid, -⟩
    rcases h.entry with ⟨hpos, hs₁⟩ | ⟨-, -, hinvalid, -⟩
    · rw [hs₁] at href
      have : (s.inode ip).ref + 1 = 1 := href
      omega
    · rw [hinvalid] at hvalid
      cases hvalid
  unfold iput iputTest
  simp only [Prog.run_bind, Prog.run_atom, wp_bind, wp_get]
  rw [if_neg hkeep, wp_bind, wp_set, wp_pure]
  simp only [Bool.false_eq_true, if_false]
  refine hR _ ?_ h.disk
  by_cases hki : k = ip
  · subst hki
    rcases h.entry with ⟨hpos, hs₁⟩ | ⟨h0, -⟩
    · refine others_of_cache h.disk h.sb ?_ ?_ ?_ <;> simp only [FsState.setInode, update_self, hs₁]
      exact hk
    · exact absurd hk (by omega)
  · have hsame := h.other k hki
    refine others_of_cache h.disk h.sb ?_ ?_ ?_ <;> simp only [FsState.setInode, update_of_ne hki, hsame]
    exact hk

theorem wp_dirlink {R : Bool → FsState → Prop} (h : IsDir s k c) (name : Name) (inum : ℕ)
    (hE : ∀ msg s', E (.panic msg) s')
    (hfalse : ∀ t s', t < c → Match (s.bytes k) name t → Others k s s' → s'.disk = s.disk → R false s')
    (htrue : (∀ u < c, ¬ Match (s.bytes k) name u) → ∀ t s', t ≤ c → (t < c → (entryAt (s.bytes k) t).inum = 0) →
      Stored k c t ⟨UInt16.ofNat inum, canon name⟩ s s' → R true s') :
    wp (dirlink k name inum).run R E s := by
  unfold dirlink
  rw [Prog.run_bind, Prog.run_atom, wp_bind]
  refine wp_dirlookup h name (fun _ _ _ => hE _ s) (fun t ip s₁ ht hm _ hholds => ?_) fun hnone => ?_
  · dsimp only
    rw [Prog.run_bind, wp_bind]
    exact wp_iput_held hholds h.ref fun s' ho hdisk => hfalse t s' ht hm ho hdisk
  · dsimp only
    rw [Prog.run_bind, Prog.run_atom, wp_bind]
    exact wp_dirlinkStore h hE fun t s' ht hfree hs' => htrue hnone t s' ht hfree hs'

/-! ## Histories -/

inductive Event
  | link (name : Name) (inum : ℕ)
  | erase (name : Name)

/-- The map after an event; 0 stands for a name that is not mapped. -/
def Event.apply (m : Name → ℕ) : Event → Name → ℕ
  | .link name inum => Function.update m (canon name) inum
  | .erase name => Function.update m (canon name) 0

theorem Event.apply_link (m : Name → ℕ) (name : Name) (inum : ℕ) :
    Event.apply m (.link name inum) = update m (canon name) inum := rfl

theorem Event.apply_erase (m : Name → ℕ) (name : Name) :
    Event.apply m (.erase name) = update m (canon name) 0 := rfl

/-- The inode number that was linked last under a name and not erased since. -/
def latest (m : Name → ℕ) (h : List Event) : Name → ℕ := h.foldl Event.apply m

theorem latest_append (m : Name → ℕ) (h : List Event) (e : Event) : latest m (h ++ [e]) = e.apply (latest m h) := by
  unfold latest
  rw [List.foldl_append]
  rfl

structure MapOk (l : List UInt8) (c : ℕ) (own parent : UInt16) (m : Name → ℕ) : Prop where
  two : 2 ≤ c
  slot0 : entryAt l 0 = ⟨own, dot⟩
  slot1 : entryAt l 1 = ⟨parent, dotdot⟩
  ownUsed : own ≠ 0
  parentUsed : parent ≠ 0
  distinct : ∀ a b, a < c → b < c → (entryAt l a).inum ≠ 0 → (entryAt l b).inum ≠ 0 →
    (entryAt l a).name = (entryAt l b).name → a = b
  value : ∀ a < c, (entryAt l a).inum ≠ 0 → m (entryAt l a).name = (entryAt l a).inum.toNat
  domain : ∀ n, m (canon n) ≠ 0 → ∃ a < c, Match l n a

variable {l l' : List UInt8} {own parent : UInt16} {m : Name → ℕ}

theorem toNat_ne_zero {v : UInt16} (h : v ≠ 0) : v.toNat ≠ 0 := fun h0 => h (UInt16.toNat_inj.1 h0)

theorem MapOk.value_of_match (h : MapOk l c own parent m) (ht : t < c) (hm : Match l name t) :
    m (canon name) = (entryAt l t).inum.toNat := by
  rw [← hm.2]
  exact h.value t ht hm.1

theorem MapOk.zero_of_absent (h : MapOk l c own parent m) (hnone : ∀ u < c, ¬ Match l name u) : m (canon name) = 0 := by
  by_contra hne
  obtain ⟨a, ha, hm⟩ := h.domain name hne
  exact hnone a ha hm

theorem canon_dot : canon dot = dot := by decide

theorem canon_dotdot : canon dotdot = dotdot := by decide

section

variable (h : MapOk l c own parent m)
include h

theorem MapOk.inum_low (ht : t < 2) : (entryAt l t).inum ≠ 0 := by
  obtain rfl | rfl : t = 0 ∨ t = 1 := by omega
  · rw [h.slot0]
    exact h.ownUsed
  · rw [h.slot1]
    exact h.parentUsed

theorem MapOk.link (hnone : ∀ u < c, ¬ Match l name u) (hpos : 0 < inum)
    (hlt : inum < 65536) (ht : t ≤ c) (hfree : t < c → (entryAt l t).inum = 0)
    (hl' : ∀ j, j < max c (t + 1) → entryAt l' j = if j = t then ⟨UInt16.ofNat inum, canon name⟩ else entryAt l j) :
    MapOk l' (max c (t + 1)) own parent (Event.apply m (.link name inum)) := by
  have htwo := h.two
  have hval : (UInt16.ofNat inum).toNat = inum := by
    rw [UInt16.toNat_ofNat', Nat.mod_eq_of_lt hlt]
  have hne : UInt16.ofNat inum ≠ 0 := fun h0 => by
    rw [h0] at hval
    exact absurd hval (by simpa using hpos.ne)
  have hnew : entryAt l' t = ⟨UInt16.ofNat inum, canon name⟩ := by rw [hl' t (by omega), if_pos rfl]
  have hold : ∀ j, j < max c (t + 1) → j ≠ t → entryAt l' j = entryAt l j ∧ j < c := fun j hj hjt =>
    ⟨by rw [hl' j hj, if_neg hjt], by omega⟩
  have hlow : ∀ j, j < 2 → j ≠ t := by
    rintro j hj rfl
    exact h.inum_low hj (hfree (by omega))
  have habsent : ∀ a < c, (entryAt l a).inum ≠ 0 → (entryAt l a).name ≠ canon name := fun a ha h0 hn =>
    hnone a ha ⟨h0, hn⟩
  refine ⟨by omega, ?_, ?_, h.ownUsed, h.parentUsed, fun a b ha hb ha0 hb0 hab => ?_, fun a ha ha0 => ?_, fun n hn => ?_⟩
  · rw [(hold 0 (by omega) (hlow 0 (by omega))).1, h.slot0]
  · rw [(hold 1 (by omega) (hlow 1 (by omega))).1, h.slot1]
  · by_cases hat : a = t
    · by_cases hbt : b = t
      · rw [hat, hbt]
      · obtain ⟨hb', hbc⟩ := hold b hb hbt
        rw [hat, hnew, hb'] at hab
        rw [hb'] at hb0
        exact absurd hab.symm (habsent b hbc hb0)
    · obtain ⟨ha', hac⟩ := hold a ha hat
      rw [ha'] at ha0 hab
      by_cases hbt : b = t
      · rw [hbt, hnew] at hab
        exact absurd hab (habsent a hac ha0)
      · obtain ⟨hb', hbc⟩ := hold b hb hbt
        rw [hb'] at hb0 hab
        exact h.distinct a b hac hbc ha0 hb0 hab
  · rw [Event.apply_link]
    by_cases hat : a = t
    · rw [hat, hnew, update_self, hval]
    · obtain ⟨ha', hac⟩ := hold a ha hat
      rw [ha'] at ha0 ⊢
      rw [update_of_ne (habsent a hac ha0)]
      exact h.value a hac ha0
  · rw [Event.apply_link] at hn
    by_cases hnn : canon n = canon name
    · refine ⟨t, by omega, ?_, ?_⟩
      · rw [hnew]
        exact hne
      · rw [hnew, hnn]
    · rw [update_of_ne hnn] at hn
      obtain ⟨a, hac, hm⟩ := h.domain n hn
      have hat : a ≠ t := by
        rintro rfl
        exact hm.1 (hfree hac)
      have ha' := (hold a (by omega) hat).1
      exact ⟨a, by omega, ha' ▸ hm.1, ha' ▸ hm.2⟩

theorem MapOk.erase (ht : t < c) (hm : Match l name t) (hdot : namecmp name dot ≠ 0)
    (hdotdot : namecmp name dotdot ≠ 0)
    (hl' : ∀ j, j < c → entryAt l' j = if j = t then ⟨0, []⟩ else entryAt l j) :
    MapOk l' c own parent (Event.apply m (.erase name)) := by
  have htwo := h.two
  have h0 : t ≠ 0 := by
    rintro rfl
    have := hm.2
    rw [h.slot0] at this
    exact hdot ((namecmp_eq_zero_iff ..).2 (this.symm.trans canon_dot.symm))
  have h1 : t ≠ 1 := by
    rintro rfl
    have := hm.2
    rw [h.slot1] at this
    exact hdotdot ((namecmp_eq_zero_iff ..).2 (this.symm.trans canon_dotdot.symm))
  have hlive : ∀ a < c, (entryAt l' a).inum ≠ 0 → entryAt l' a = entryAt l a ∧ a ≠ t := by
    intro a ha ha0
    have hat : a ≠ t := by
      rintro rfl
      rw [hl' a ha, if_pos rfl] at ha0
      exact ha0 rfl
    exact ⟨by rw [hl' a ha, if_neg hat], hat⟩
  refine ⟨htwo, ?_, ?_, h.ownUsed, h.parentUsed, fun a b ha hb ha0 hb0 hab => ?_, fun a ha ha0 => ?_, fun n hn => ?_⟩
  · rw [hl' 0 (by omega), if_neg h0.symm, h.slot0]
  · rw [hl' 1 (by omega), if_neg h1.symm, h.slot1]
  · have ha' := (hlive a ha ha0).1
    have hb' := (hlive b hb hb0).1
    rw [ha'] at ha0 hab
    rw [hb'] at hb0 hab
    exact h.distinct a b ha hb ha0 hb0 hab
  · obtain ⟨ha', hat⟩ := hlive a ha ha0
    rw [ha'] at ha0 ⊢
    rw [Event.apply_erase, update_of_ne]
    · exact h.value a ha ha0
    · exact fun hn => hat (h.distinct a t ha ht ha0 hm.1 (hn.trans hm.2.symm))
  · rw [Event.apply_erase] at hn
    have hnn : canon n ≠ canon name := by
      intro heq
      rw [heq, update_self] at hn
      exact hn rfl
    rw [update_of_ne hnn] at hn
    obtain ⟨a, hac, hma⟩ := h.domain n hn
    have hat : a ≠ t := by
      rintro rfl
      exact hnn (hma.2.symm.trans hm.2)
    have ha' : entryAt l' a = entryAt l a := by rw [hl' a hac, if_neg hat]
    exact ⟨a, hac, ha' ▸ hma.1, ha' ▸ hma.2⟩

end

/-- Calls on the directory in cache entry `k`, with anything in between that leaves it alone. Inode numbers fit
the 16 bits of a directory entry. -/
inductive Calls (k : Fin NINODE) (s₀ : FsState) : List Event → FsState → Prop
  | start : Calls k s₀ [] s₀
  | other {h s s'} : Calls k s₀ h s → Others k s s' → Calls k s₀ h s'
  | lookup {h s s'} (name : Name) {r} : Calls k s₀ h s → dirlookup k name s = .ok r s' → Calls k s₀ h s'
  | link {h s s'} (name : Name) (inum : ℕ) : Calls k s₀ h s → 0 < inum → inum < 65536 →
      (dirlink k name inum).run s = .ok true s' → Calls k s₀ (h ++ [.link name inum]) s'
  | linkFails {h s s'} (name : Name) (inum : ℕ) : Calls k s₀ h s → (dirlink k name inum).run s = .ok false s' →
      Calls k s₀ h s'
  | erase {h s s₁ s₂ s'} (name : Name) {ip off} : Calls k s₀ h s → namecmp name dot ≠ 0 → namecmp name dotdot ≠ 0 →
      dirlookup k name s = .ok (some (ip, off)) s₁ → Others k s₁ s₂ → clearDirent k off s₂ = .ok () s' →
      Calls k s₀ (h ++ [.erase name]) s'

variable {s₀ : FsState} {h : List Event}

def DirMap (s : FsState) (k : Fin NINODE) (own parent : UInt16) (m : Name → ℕ) : Prop :=
  ∃ c, IsDir s k c ∧ MapOk (s.bytes k) c own parent m

section

variable (hd : DirMap s k own parent m)
include hd

theorem DirMap.other (ho : Others k s s') : DirMap s' k own parent m := by
  obtain ⟨c, hdir, hmap⟩ := hd
  exact ⟨c, ho.dir c hdir, ho.bytes ▸ hmap⟩

theorem DirMap.lookup {r : Option (Fin NINODE × ℕ)}
    (hrun : dirlookup k name s = .ok r s') : DirMap s' k own parent m := by
  obtain ⟨c, hdir, hmap⟩ := hd
  have hw : wp (dirlookup k name) (fun _ s' => DirMap s' k own parent m) (fun _ _ => True) s :=
    wp_dirlookup hdir name (fun _ _ _ => trivial)
      (fun t ip s' _ _ _ hh => DirMap.other ⟨c, hdir, hmap⟩ (hh.others hdir.ref)) fun _ => ⟨c, hdir, hmap⟩
  exact (wp_of_ok hrun).1 hw

theorem DirMap.link (hpos : 0 < inum) (hlt : inum < 65536)
    (hrun : (dirlink k name inum).run s = .ok true s') :
    DirMap s' k own parent (Event.apply m (.link name inum)) := by
  obtain ⟨c, hdir, hmap⟩ := hd
  have hw : wp (dirlink k name inum).run (fun r s' => r = true →
      DirMap s' k own parent (Event.apply m (.link name inum))) (fun _ _ => True) s := by
    refine wp_dirlink hdir name inum (fun _ _ => trivial) (fun _ _ _ _ _ _ => nofun) ?_
    intro hnone t s' ht hfree hs' _
    exact ⟨_, hs'.dir, hmap.link hnone hpos hlt ht hfree hs'.entry⟩
  exact (wp_of_ok hrun).1 hw rfl

theorem DirMap.linkFails (hrun : (dirlink k name inum).run s = .ok false s') :
    DirMap s' k own parent m := by
  obtain ⟨c, hdir, hmap⟩ := hd
  have hw : wp (dirlink k name inum).run (fun r s' => r = false → DirMap s' k own parent m) (fun _ _ => True) s := by
    refine wp_dirlink hdir name inum (fun _ _ => trivial) ?_ fun _ _ _ _ _ _ => nofun
    exact fun t s' _ _ ho _ _ => DirMap.other ⟨c, hdir, hmap⟩ ho
  exact (wp_of_ok hrun).1 hw rfl

theorem DirMap.erase {off : ℕ} (hdot : namecmp name dot ≠ 0)
    (hdotdot : namecmp name dotdot ≠ 0) (hlook : dirlookup k name s = .ok (some (ip, off)) s₁) (ho : Others k s₁ s₂)
    (hclear : clearDirent k off s₂ = .ok () s') : DirMap s' k own parent (Event.apply m (.erase name)) := by
  obtain ⟨c, hdir, hmap⟩ := hd
  have hw : wp (dirlookup k name) (fun r s₁ => ∀ ip off, r = some (ip, off) → Others k s s₁ ∧
      ∃ t < c, off = DIRENTSIZE * t ∧ Match (s.bytes k) name t) (fun _ _ => True) s := by
    refine wp_dirlookup hdir name (fun _ _ _ => trivial) (fun t ip s₁ ht hm _ hh => ?_) fun _ => nofun
    rintro _ _ ⟨⟩
    exact ⟨hh.others hdir.ref, t, ht, rfl, hm⟩
  obtain ⟨ho₁, t, ht, rfl, hm⟩ := (wp_of_ok hlook).1 hw ip off rfl
  have ho₂ := ho₁.trans ho
  have hdir₂ := ho₂.dir c hdir
  have hw₂ : wp (clearDirent k (DIRENTSIZE * t)) (fun _ s' =>
      DirMap s' k own parent (Event.apply m (.erase name))) (fun _ _ => True) s₂ := by
    refine wp_clearDirent hdir₂ ht (fun _ _ => trivial) fun s' hs' => ?_
    have hmax : max c (t + 1) = c := by omega
    have hdir' := hs'.dir
    have hentry := hs'.entry
    rw [hmax] at hdir' hentry
    rw [ho₂.bytes] at hentry
    exact ⟨c, hdir', hmap.erase ht hm hdot hdotdot hentry⟩
  exact (wp_of_ok hclear).1 hw₂

end

theorem Calls.dirMap (hcalls : Calls k s₀ h s) (hstart : DirMap s₀ k own parent m) :
    DirMap s k own parent (latest m h) := by
  induction hcalls with
  | start => exact hstart
  | other _ ho ih => exact ih.other ho
  | lookup name _ hrun ih => exact ih.lookup hrun
  | link name inum _ hpos hlt hrun ih =>
    rw [latest_append]
    exact ih.link hpos hlt hrun
  | linkFails name inum _ hrun ih => exact ih.linkFails hrun
  | erase name _ hdot hdotdot hlook ho hclear ih =>
    rw [latest_append]
    exact ih.erase hdot hdotdot hlook ho hclear

/-! ## What the calls return -/

/-- A directory as a finite map: the layout of its entries, and what the calls return, `m` being the map. -/
structure Behaves (s : FsState) (k : Fin NINODE) (own parent : UInt16) (m : Name → ℕ) : Prop where
  size : DIRENTSIZE ∣ (s.inode k).node.size.toNat
  distinct : ∀ a b, DIRENTSIZE * a < (s.inode k).node.size.toNat → DIRENTSIZE * b < (s.inode k).node.size.toNat →
    (entryAt (s.bytes k) a).inum ≠ 0 → (entryAt (s.bytes k) b).inum ≠ 0 →
    namecmp (entryAt (s.bytes k) a).name (entryAt (s.bytes k) b).name = 0 → a = b
  dots : entryAt (s.bytes k) 0 = ⟨own, dot⟩ ∧ entryAt (s.bytes k) 1 = ⟨parent, dotdot⟩
  lookup : ∀ name, (∃ ip off s', dirlookup k name s = .ok (some (ip, off)) s' ∧
      (s'.inode ip).inum = m (canon name) ∧ m (canon name) ≠ 0 ∧ s'.disk = s.disk) ∨
    (dirlookup k name s = .ok none s ∧ m (canon name) = 0) ∨
    (m (canon name) ≠ 0 ∧ dirlookup k name s = .error (.panic "iget: no inodes") s)
  link : ∀ name inum r s', (dirlink k name inum).run s = .ok r s' → (r = false ↔ m (canon name) ≠ 0) ∧
    (r = false → s'.disk = s.disk ∧ s'.bytes k = s.bytes k)
  isdirempty : ∃ b, isdirempty k s = .ok b s ∧
    (b = true ↔ ∀ name, canon name ≠ dot → canon name ≠ dotdot → m (canon name) = 0)

theorem MapOk.empty_iff (h : MapOk l c own parent m) : (∀ u, 2 ≤ u → u < c → (entryAt l u).inum = 0) ↔
    ∀ name, canon name ≠ dot → canon name ≠ dotdot → m (canon name) = 0 := by
  have htwo := h.two
  constructor
  · intro hall name hdot hdotdot
    by_contra hne
    obtain ⟨a, ha, hm⟩ := h.domain name hne
    have hlow : a < 2 := by
      by_contra hge
      exact hm.1 (hall a (by omega) ha)
    have hname := hm.2
    obtain rfl | rfl : a = 0 ∨ a = 1 := by omega
    · rw [h.slot0] at hname
      exact hdot hname.symm
    · rw [h.slot1] at hname
      exact hdotdot hname.symm
  · intro hall u hu huc
    by_contra hne
    have hcanon : canon (entryAt l u).name = (entryAt l u).name := canon_ofBytes _
    have hval := h.value u huc hne
    have hnot : ∀ t, t < 2 → (entryAt l u).name ≠ (entryAt l t).name := by
      intro t ht heq
      have := h.distinct u t huc (by omega) hne (h.inum_low ht) heq
      omega
    refine toNat_ne_zero hne (hval ▸ ?_)
    rw [← hcanon]
    refine hall _ ?_ ?_
    · rw [hcanon]
      have := hnot 0 (by omega)
      rwa [h.slot0] at this
    · rw [hcanon]
      have := hnot 1 (by omega)
      rwa [h.slot1] at this

theorem MapOk.lookup_result (hmap : MapOk (s.bytes k) c own parent m) (hdir : IsDir s k c) (name : Name) :
    (∃ ip off s', dirlookup k name s = .ok (some (ip, off)) s' ∧
      (s'.inode ip).inum = m (canon name) ∧ m (canon name) ≠ 0 ∧ s'.disk = s.disk) ∨
    (dirlookup k name s = .ok none s ∧ m (canon name) = 0) ∨
    (m (canon name) ≠ 0 ∧ dirlookup k name s = .error (.panic "iget: no inodes") s) := by
  by_cases hne : m (canon name) ≠ 0
  · have hw : wp (dirlookup k name) (fun r s' => ∃ ip off, r = some (ip, off) ∧
        (s'.inode ip).inum = m (canon name) ∧ s'.disk = s.disk)
        (fun e s' => e = .panic "iget: no inodes" ∧ s' = s) s := by
      refine wp_dirlookup hdir name (fun _ _ _ => ⟨rfl, rfl⟩) (fun t ip s' ht hm _ hh => ?_) fun hnone =>
        absurd (hmap.zero_of_absent hnone) hne
      exact ⟨ip, _, rfl, hh.inum.trans (hmap.value_of_match ht hm).symm, hh.disk⟩
    cases hrun : dirlookup k name s with
    | ok r s' =>
      obtain ⟨ip, off, rfl, hinum, hdisk⟩ := (wp_of_ok hrun).1 hw
      exact .inl ⟨ip, off, s', rfl, hinum, hne, hdisk⟩
    | error e s' =>
      obtain ⟨rfl, rfl⟩ := wp_error hw hrun
      exact .inr (.inr ⟨hne, rfl⟩)
  · have hw : wp (dirlookup k name) (fun r s' => r = none ∧ s' = s) (fun _ _ => False) s := by
      have hnone : ∀ u < c, ¬ Match (s.bytes k) name u := fun u hu hm =>
        hne (hmap.value_of_match hu hm ▸ toNat_ne_zero hm.1)
      exact wp_dirlookup hdir name (fun t ht hm => absurd hm (hnone t ht))
        (fun t _ _ ht hm => absurd hm (hnone t ht)) fun _ => ⟨rfl, rfl⟩
    obtain ⟨r, s', hrun, rfl, rfl⟩ := wp_exists_ok hw
    exact .inr (.inl ⟨hrun, not_not.1 hne⟩)

theorem DirMap.behaves (hd : DirMap s k own parent m) : Behaves s k own parent m := by
  obtain ⟨c, hdir, hmap⟩ := hd
  have hsize := hdir.size_eq
  have hcount : ∀ a, DIRENTSIZE * a < (s.inode k).node.size.toNat → a < c := fun a ha => by
    rw [hsize] at ha
    exact Nat.lt_of_mul_lt_mul_left ha
  refine ⟨⟨c, hsize⟩, fun a b ha hb ha0 hb0 hab => ?_, ⟨hmap.slot0, hmap.slot1⟩, hmap.lookup_result hdir,
    fun name inum r s' hrun => ?_, ?_⟩
  · rw [namecmp_eq_zero_iff, entryAt, entryAt, canon_ofBytes, canon_ofBytes] at hab
    exact hmap.distinct a b (hcount a ha) (hcount b hb) ha0 hb0 hab
  · have hw : wp (dirlink k name inum).run (fun r s' => (r = false ↔ m (canon name) ≠ 0) ∧
        (r = false → s'.disk = s.disk ∧ s'.bytes k = s.bytes k)) (fun _ _ => True) s := by
      refine wp_dirlink hdir name inum (fun _ _ => trivial) (fun t s' ht hm ho hdisk => ?_) ?_
      · refine ⟨⟨fun _ => ?_, fun _ => rfl⟩, fun _ => ⟨hdisk, ho.bytes⟩⟩
        rw [hmap.value_of_match ht hm]
        exact toNat_ne_zero hm.1
      · intro hnone t s' _ _ _
        exact ⟨⟨(by simp), fun hne => absurd (hmap.zero_of_absent hnone) hne⟩, (by simp)⟩
    exact (wp_of_ok hrun).1 hw
  · have hw : wp (Fs.isdirempty k) (fun b s' => s' = s ∧
        (b = true ↔ ∀ u, 2 ≤ u → u < c → (entryAt (s.bytes k) u).inum = 0)) (fun _ _ => False) s :=
      wp_isdirempty hdir hmap.two fun b hb => ⟨rfl, hb⟩
    obtain ⟨b, s', hrun, rfl, hb⟩ := wp_exists_ok hw
    exact ⟨b, hrun, hb.trans hmap.empty_iff⟩

end Xv6.Fs
