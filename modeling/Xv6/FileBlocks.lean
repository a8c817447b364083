import Xv6.BlockMap

/-!
# `bmap`

The specification of `bmap` on an inode with `n` content blocks, for block numbers up to `n`: a block
that exists is returned and nothing changes, block `n` is allocated. The blocks passed to `log_write`
are counted exactly, together with the block whose address is returned.
-/

namespace Xv6.Fs

open Resumption ByteLayout FreeMap List Volume FsState

variable {s s' : FsState} {k : Fin NINODE} {n bn b c : ℕ} {E : Stop → FsState → Prop}

def Fresh (s s' : FsState) (c : ℕ) : Prop := s.vol.used c = false ∧ s'.vol.used c = true

structure Bmapped (k : Fin NINODE) (n bn : ℕ) (s s' : FsState) (a : UInt32) : Prop where
  inside : Inside k s s'
  ext : (s.volWith k).Extends (s'.volWith k) (s.inode k).inum n (max n (bn + 1))
  bytes : ∀ o, (s.volWith k).addr (s.inode k).inum (.block (o / BSIZE)) ≠ 0 →
    (s'.volWith k).byteAt (s.inode k).inum o = (s.volWith k).byteAt (s.inode k).inum o
  addr : a.toNat = (s'.volWith k).addr (s.inode k).inum (.block bn)
  stay : bn < n → s' = s
  logs : ∃ L, Logs s s' L ∧ ∀ b, b ∈ L ∨ b = a.toNat ↔ b = a.toNat ∨
    (∃ c, Fresh s s' c ∧ b = BBLOCK c s.sb) ∨
    (n ≤ bn ∧ NDIRECT ≤ bn) ∧ b = (s'.volWith k).addr (s.inode k).inum .indirect

variable {s₁ : FsState} {R : UInt32 → FsState → Prop} {a : Fin (NDIRECT + 1)} {ind j : ℕ}
  {p q r : Prop}

theorem logs_refl (s : FsState) : Logs s s [] := by simp [Logs]

theorem Logs.trans {L L' : List ℕ} (h : Logs s s₁ L) (hc : s₁.cur = s.cur)
    (h' : Logs s₁ s' L') : Logs s s' (L ++ L') := by
  unfold Logs at *
  rw [h', h, hc, map_append, append_assoc]

theorem freeCount_eq_zero (h : ∀ b < s.sb.size.toNat, s.used b = true) :
    freeCount s.vol.used s.sb.size.toNat = 0 := by
  unfold freeCount
  rw [Finset.card_eq_zero, Finset.filter_eq_empty_iff]
  intro b hb
  rw [Finset.mem_range] at hb
  rw [vol_used hb, h b hb]
  exact Bool.noConfusion

theorem wp_balloc_vol
    (hfull : freeCount s.vol.used s.sb.size.toNat = 0 → E (.panic "balloc: out of blocks") s)
    (hR : ∀ b < s.sb.size.toNat, s.vol.used b = false → R (UInt32.ofNat b) (s.takeBlock b)) :
    wp balloc R E s := by
  apply wp_balloc
  · exact fun h => hfull (freeCount_eq_zero h)
  · intro b hb hfree _
    exact hR b hb (by rw [vol_used hb, hfree])

theorem wp_addrOf
    (hfull : (s.inode k).node.addrs a = 0 → freeCount s.vol.used s.sb.size.toNat = 0 →
      E (.panic "balloc: out of blocks") s)
    (hold : (s.inode k).node.addrs a ≠ 0 → R ((s.inode k).node.addrs a) s)
    (hnew : (s.inode k).node.addrs a = 0 → ∀ b < s.sb.size.toNat, s.vol.used b = false →
      R (UInt32.ofNat b) (s.growAddr k a b)) : wp (addrOf k a) R E s := by
  unfold addrOf
  simp only [getNode, setNode, wp_bind, wp_get, wp_pure, wp_ite, wp_modify]
  constructor
  · intro h0
    apply wp_balloc_vol (hfull h0)
    intro b hb hfree
    exact hnew h0 b hb hfree
  · exact hold

theorem free_is_data (h : (s.volWith k).Exact) (hb : b < s.sb.size.toNat)
    (hfree : s.vol.used b = false) : s.sb.dataStart ≤ b := (FreeMap.Exact.unowned h hb hfree).1

theorem addrs_eq_zero : (s.inode k).node.addrs a = 0 ↔
    (s.volWith k).addr (s.inode k).inum (Volume.slotOf a) = 0 := by
  rw [addr_slotOf, volWith_node_self, ← UInt32.toNat_inj]
  rfl

theorem fresh_iff (hfree : s.vol.used b = false)
    (hu : s'.vol.used = Function.update s.vol.used b true) (c : ℕ) : Fresh s s' c ↔ c = b := by
  unfold Fresh
  rw [hu]
  by_cases hc : c = b
  · simp [hc, hfree]
  · simp [hc]

theorem fresh_trans (h : ∀ c, s.vol.used c = true → s₁.vol.used c = true)
    (h' : ∀ c, s₁.vol.used c = true → s'.vol.used c = true) :
    Fresh s s' c ↔ Fresh s s₁ c ∨ Fresh s₁ s' c := by
  have h₁ := h c
  have h₂ := h' c
  unfold Fresh
  cases hs : s.vol.used c <;> cases hs₁ : s₁.vol.used c <;> cases hs' : s'.vol.used c <;> simp_all

theorem Inside.growAddr (hw : s.sb.WellFormed) (hb : b < s.sb.size.toNat)
    (hlo : s.sb.dataStart ≤ b) : Inside k s (s.growAddr k a b) :=
  (Inside.takeBlock hw hb hlo).trans (Inside.setNode _)

theorem Inside.growEntry (hw : s.sb.WellFormed) (hb : b < s.sb.size.toNat)
    (hlo : s.sb.dataStart ≤ b) (hind : s.sb.dataStart ≤ ind) : Inside k s (s.growEntry ind j b) :=
  (Inside.takeBlock hw hb hlo).trans (Inside.putBlock (s := s.takeBlock b) hw hind)

theorem logs_growAddr :
    Logs s (s.growAddr k a b) [BBLOCK b s.sb, b] := takeBlock_trace

theorem logs_growEntry : Logs s (s.growEntry ind j b) [BBLOCK b s.sb, b, ind] := by
  unfold Logs FsState.growEntry
  rw [putBlock_trace, takeBlock_trace]
  simp

/-! The blocks logged in the three cases of an allocation: the bitmap block `p`, the new block `q`
and the indirect block `r`. -/

theorem logged_direct : (p ∨ q) ∨ q ↔ q ∨ p := by tauto

theorem logged_entry : (p ∨ q ∨ r) ∨ q ↔ q ∨ p ∨ r := by tauto

theorem logged_first {p' : Prop} : (p ∨ r ∨ p' ∨ q ∨ r) ∨ q ↔ q ∨ (p ∨ p') ∨ r := by tauto

theorem Bmapped.existing {a : UInt32} (h : (s.volWith k).Exact)
    (hn : (s.volWith k).HasBlocks (s.inode k).inum n) (hbn : bn < n)
    (ha : a.toNat = (s.volWith k).addr (s.inode k).inum (.block bn)) : Bmapped k n bn s s a := by
  refine ⟨Inside.refl k s, ?_, fun _ _ => rfl, ha, fun _ => rfl, [], logs_refl s, ?_⟩
  · rw [show max n (bn + 1) = n by omega]
    exact .refl h hn
  · intro b
    simp [Fresh, show ¬ n ≤ bn by omega]

theorem Bmapped.direct (hw : s.sb.WellFormed) (h : (s.volWith k).Exact)
    (hi : (s.volWith k).Allocated (s.inode k).inum)
    (hn : (s.volWith k).HasBlocks (s.inode k).inum n) (hlt : n < NDIRECT)
    (hb : b < s.sb.size.toNat) (hfree : s.vol.used b = false) :
    Bmapped k n n s (s.growAddr k (Fin.ofNat _ n) b) (UInt32.ofNat b) := by
  have hm : n < MAXFILE := hlt.trans (by decide)
  have hlo := free_is_data h hb hfree
  have hempty : (s.volWith k).addr (s.inode k).inum (.block n) = 0 := by
    have := hn.block n hm
    simpa using this
  have g := gives_growAddr (a := Fin.ofNat _ n) h hi
    (by rwa [slotOf_ofNat hlt]) hb hfree
  rw [← volWith_growAddr hw hb hlo, slotOf_ofNat hlt] at g
  have ha : (UInt32.ofNat b).toNat = b := toNat_ofNat_lt hb
  refine ⟨Inside.growAddr hw hb hlo, ?_, ?_, ?_, ?_, _, logs_growAddr, ?_⟩
  · rw [show max n (n + 1) = n + 1 by omega]
    exact g.extends_block h hn hm (by omega)
  · intro o ho
    exact g.byteAt_eq hi ho hempty
  · rw [ha, g.addr _ hi, if_pos ⟨rfl, rfl⟩]
  · intro hlt'
    exact absurd hlt' (lt_irrefl n)
  · have hnew : ∀ d, Fresh s (s.growAddr k (Fin.ofNat _ n) b) d ↔ d = b := fresh_iff hfree g.used
    intro x
    simp only [ha, hnew, exists_eq_left, mem_cons, not_mem_nil, or_false,
      show ¬ NDIRECT ≤ n by omega, and_false, false_and]
    exact logged_direct

theorem Bmapped.entry (hw : s.sb.WellFormed) (h : (s.volWith k).Exact)
    (hi : (s.volWith k).Allocated (s.inode k).inum)
    (hn : (s.volWith k).HasBlocks (s.inode k).inum n) (hgt : NDIRECT < n) (hm : n < MAXFILE)
    (hind : (s.volWith k).addr (s.inode k).inum .indirect = ind)
    (hb : b < s.sb.size.toNat) (hfree : s.vol.used b = false) :
    Bmapped k n n s (s.growEntry ind (n - NDIRECT) b) (UInt32.ofNat b) := by
  have hlo := free_is_data h hb hfree
  have hind0 : (s.volWith k).addr (s.inode k).inum .indirect ≠ 0 := hn.indirect.mpr hgt
  have hdata : s.sb.dataStart ≤ ind := hind ▸ (h.addr_range hi hind0).1
  have hempty : (s.volWith k).addr (s.inode k).inum (.block n) = 0 := by
    have := hn.block n hm
    simpa using this
  have g := gives_growEntry h hi hind0 (by omega) hm hempty hb hfree
  rw [← volWith_growEntry hw hb hlo hind hdata] at g
  have ha : (UInt32.ofNat b).toNat = b := toNat_ofNat_lt hb
  refine ⟨Inside.growEntry hw hb hlo hdata, ?_, ?_, ?_, ?_, _, logs_growEntry, ?_⟩
  · rw [show max n (n + 1) = n + 1 by omega]
    exact g.extends_block h hn hm (by omega)
  · intro o ho
    exact g.byteAt_eq hi ho hempty
  · rw [ha, g.addr _ hi, if_pos ⟨rfl, rfl⟩]
  · intro hlt'
    exact absurd hlt' (lt_irrefl n)
  · have hnew : ∀ d, Fresh s (s.growEntry ind (n - NDIRECT) b) d ↔ d = b := fresh_iff hfree g.used
    have hind' : ((s.growEntry ind (n - NDIRECT) b).volWith k).addr (s.inode k).inum .indirect =
        ind := by
      rw [g.addr _ hi, if_neg fun hc => Slot.noConfusion hc.2, hind]
    intro x
    simp only [ha, hind', hnew, le_refl, true_and, exists_eq_left, hgt.le, mem_cons,
      not_mem_nil, or_false]
    exact logged_entry

theorem Bmapped.first (hw : s.sb.WellFormed) (h : (s.volWith k).Exact)
    (hi : (s.volWith k).Allocated (s.inode k).inum)
    (hn : (s.volWith k).HasBlocks (s.inode k).inum NDIRECT)
    (hc : c < s.sb.size.toNat) (hcfree : s.vol.used c = false)
    (hb : b < s.sb.size.toNat) (hbfree : (s.growAddr k (Fin.last _) c).vol.used b = false) :
    Bmapped k NDIRECT NDIRECT s ((s.growAddr k (Fin.last _) c).growEntry c 0 b)
      (UInt32.ofNat b) := by
  have hclo := free_is_data h hc hcfree
  have hind0 : (s.volWith k).addr (s.inode k).inum .indirect = 0 := by
    have := hn.indirect
    simpa using this
  have hempty : (s.volWith k).addr (s.inode k).inum (.block NDIRECT) = 0 := by
    have := hn.block NDIRECT (by decide)
    simpa using this
  have g := gives_growAddr (a := Fin.last _) h hi (by rwa [slotOf_last]) hc hcfree
  rw [← volWith_growAddr hw hc hclo, slotOf_last] at g
  have hinside : Inside k s (s.growAddr k (Fin.last _) c) := Inside.growAddr hw hc hclo
  generalize hs₁ : s.growAddr k (Fin.last _) c = s₁ at *
  have hinum := hinside.inum
  have hi₁ : (s₁.volWith k).Allocated (s₁.inode k).inum := by
    rw [hinum]
    exact g.allocated.mpr hi
  have hw₁ : s₁.sb.WellFormed := hinside.sb ▸ hw
  have hb₁ : b < s₁.sb.size.toNat := hinside.sb ▸ hb
  have h₁ := g.exact h
  have hlo₁ := free_is_data h₁ hb₁ hbfree
  have hind₁ : (s₁.volWith k).addr (s₁.inode k).inum .indirect = c := by
    rw [hinum, g.addr _ hi, if_pos ⟨rfl, rfl⟩]
  have hdata₁ : s₁.sb.dataStart ≤ c := hinside.sb ▸ hclo
  have hempty₁ : (s₁.volWith k).addr (s₁.inode k).inum (.block NDIRECT) = 0 := by
    rw [hinum, g.addr _ hi, if_neg fun hc => Slot.noConfusion hc.2, hempty]
  have g' := gives_growEntry h₁ hi₁ (by rw [hind₁]; exact g.pos h) (lt_irrefl NDIRECT)
    (by decide) hempty₁ hb₁ hbfree
  rw [← volWith_growEntry hw₁ hb₁ hlo₁ hind₁ hdata₁, hinum, Nat.sub_self] at g'
  have ha : (UInt32.ofNat b).toNat = b := toNat_ofNat_lt hb
  have hlogs₁ : Logs s s₁ [BBLOCK c s.sb, c] := hs₁ ▸ logs_growAddr
  refine ⟨hinside.trans (Inside.growEntry hw₁ hb₁ hlo₁ hdata₁), ?_, ?_, ?_, ?_, _,
    hlogs₁.trans hinside.cur logs_growEntry, ?_⟩
  · exact g.extends_indirect g' h hn
  · intro o ho
    have ho₁ : (s₁.volWith k).addr (s.inode k).inum (.block (o / BSIZE)) ≠ 0 := by
      rwa [g.addr _ hi, if_neg fun hc => Slot.noConfusion hc.2]
    rw [g'.byteAt_eq (g.allocated.mpr hi) ho₁ g'.empty, g.byteAt_eq hi ho hind0]
  · rw [ha, g'.addr _ (g.allocated.mpr hi), if_pos ⟨rfl, rfl⟩]
  · intro hlt'
    exact absurd hlt' (lt_irrefl _)
  · have hu₁ : s₁.vol.used = Function.update s.vol.used c true := g.used
    have hind' : ((s₁.growEntry c 0 b).volWith k).addr (s.inode k).inum .indirect = c := by
      rw [g'.addr _ (g.allocated.mpr hi), if_neg fun hc => Slot.noConfusion hc.2, ← hinum, hind₁]
    have hnew : ∀ d, Fresh s (s₁.growEntry c 0 b) d ↔ d = c ∨ d = b := by
      intro d
      have hfresh₁ := fresh_iff hcfree hu₁ d
      have hfresh' : Fresh s₁ (s₁.growEntry c 0 b) d ↔ d = b := fresh_iff hbfree g'.used d
      rw [← hfresh₁, ← hfresh']
      exact fresh_trans g.used_mono g'.used_mono
    intro x
    simp only [ha, hind', hnew, le_refl, true_and, hinside.sb, or_and_right, exists_or,
      exists_eq_left, cons_append, nil_append, mem_cons, not_mem_nil, or_false]
    exact logged_first

structure Readable (V : Volume) (i n : ℕ) : Prop where
  has : V.HasBlocks i n
  data : ∀ sl, V.addr i sl ≠ 0 → V.sb.dataStart ≤ V.addr i sl

theorem Volume.Exact.readable {V : Volume} {i : ℕ} (h : V.Exact) (hi : V.Allocated i)
    (hn : V.HasBlocks i n) : Readable V i n := ⟨hn, fun _ h0 => (h.addr_range hi h0).1⟩

theorem wp_bmap_existing (h : Readable (s.volWith k) (s.inode k).inum n) (hbn : bn < n)
    (hR : ∀ a : UInt32, a.toNat = (s.volWith k).addr (s.inode k).inum (.block bn) → R a s) :
    wp (bmap k bn) R E s := by
  have hm : bn < MAXFILE := hbn.trans_le h.has.le
  have h0 := (h.has.block bn hm).mpr hbn
  unfold bmap
  by_cases hdir : bn < NDIRECT
  · rw [if_pos hdir]
    have haddr : (s.inode k).node.addrs (Fin.ofNat _ bn) ≠ 0 := by
      rwa [Ne, addrs_eq_zero, slotOf_ofNat hdir]
    apply wp_addrOf
    · exact fun h => absurd h haddr
    · intro _
      apply hR
      rw [addr_direct hdir, volWith_node_self]
    · exact fun h => absurd h haddr
  · have hin : bn - NDIRECT < NINDIRECT := by
      simp only [MAXFILE, NDIRECT, NINDIRECT, BSIZE] at *
      omega
    have hind0 := h.has.indirect.mpr (show NDIRECT < n by omega)
    have hlast : (s.inode k).node.addrs (Fin.last _) ≠ 0 := by
      rwa [Ne, addrs_eq_zero, slotOf_last]
    have hword := addr_entry (V := s.volWith k) (i := (s.inode k).inum) hdir hm hind0
    rw [volWith_data, vol_data (h.data _ hind0), addr_indirect,
      volWith_node_self] at hword
    rw [if_neg hdir, if_pos hin, wp_bind]
    apply wp_addrOf
    · exact fun h => absurd h hlast
    · intro _
      simp only [wp_bind, bread, wp_get, wp_pure, wp_ite]
      constructor
      · intro hz
        rw [hz] at hword
        exact absurd hword h0
      · intro _
        exact hR _ hword.symm
    · exact fun h => absurd h hlast

theorem wp_bmap (hw : s.sb.WellFormed) (h : (s.volWith k).Exact)
    (hi : (s.volWith k).Allocated (s.inode k).inum)
    (hn : (s.volWith k).HasBlocks (s.inode k).inum n) (hbn : bn ≤ n) (hm : bn < MAXFILE)
    (hfull : freeCount s.vol.used s.sb.size.toNat + Volume.cost n < Volume.cost (max n (bn + 1)) →
      ∀ s', E (.panic "balloc: out of blocks") s')
    (hR : ∀ a s', Bmapped k n bn s s' a → R a s') : wp (bmap k bn) R E s := by
  rcases Nat.lt_or_eq_of_le hbn with hlt | rfl
  · exact wp_bmap_existing (h.readable hi hn) hlt fun a ha => hR a s (.existing h hn hlt ha)
  have hlast : (s.inode k).node.addrs (Fin.last _) = 0 ↔ bn ≤ NDIRECT := by
    rw [addrs_eq_zero, slotOf_last, ← not_lt, ← hn.indirect, not_not]
  have hempty : (s.volWith k).addr (s.inode k).inum (.block bn) = 0 := by
    have := hn.block bn hm
    simpa using this
  rw [show max bn (bn + 1) = bn + 1 by omega] at hfull
  unfold bmap
  by_cases hdir : bn < NDIRECT
  · rw [if_pos hdir]
    have haddr : (s.inode k).node.addrs (Fin.ofNat _ bn) = 0 := by
      rwa [addrs_eq_zero, slotOf_ofNat hdir]
    apply wp_addrOf
    · intro _ hfree
      apply hfull
      rw [hfree]
      simp only [Volume.cost, NDIRECT] at *
      split_ifs <;> omega
    · exact fun h => absurd haddr h
    · intro _ b hb hfree
      exact hR _ _ (.direct hw h hi hn hdir hb hfree)
  · have hin : bn - NDIRECT < NINDIRECT := by
      simp only [MAXFILE, NDIRECT, NINDIRECT, BSIZE] at *
      omega
    rw [if_neg hdir, if_pos hin, wp_bind]
    apply wp_addrOf
    · intro h0 hfree
      rw [hlast] at h0
      apply hfull
      rw [hfree, show bn = NDIRECT by omega]
      decide
    · intro h0
      rw [Ne, hlast, not_le] at h0
      have hind0 := hn.indirect.mpr h0
      have hind : (s.volWith k).addr (s.inode k).inum .indirect =
          ((s.inode k).node.addrs (Fin.last _)).toNat := by
        rw [addr_indirect, volWith_node_self]
      have hword := addr_entry (V := s.volWith k) (i := (s.inode k).inum) hdir hm hind0
      rw [volWith_data, vol_data (h.addr_range hi hind0).1, hind, hempty] at hword
      have hzero : (s.disk ((s.inode k).node.addrs (Fin.last _)).toNat).word (bn - NDIRECT) = 0 :=
        UInt32.toNat_inj.mp hword.symm
      simp only [wp_bind, bread, wp_get, wp_pure, wp_ite, logWrite, wp_modify, hzero, true_imp_iff,
        not_true_eq_false, false_imp_iff, and_true]
      apply wp_balloc_vol
      · intro hfree
        apply hfull
        rw [hfree]
        simp only [Volume.cost]
        split_ifs <;> omega
      · intro b hb hfree
        exact hR _ _ (.entry hw h hi hn h0 hm hind hb hfree)
    · intro h0 c hc hcfree
      rw [hlast] at h0
      have hb12 : bn = NDIRECT := by omega
      subst hb12
      have hcnat : (UInt32.ofNat c).toNat = c := toNat_ofNat_lt hc
      have hzero : (s.growAddr k (Fin.last _) c).disk c = .zero := disk_takeBlock_self
      simp only [wp_bind, bread, wp_get, wp_pure, wp_ite, logWrite, wp_modify, hcnat, hzero,
        Nat.sub_self, Buffer.word_zero, true_imp_iff, not_true_eq_false, false_imp_iff, and_true]
      apply wp_balloc_vol
      · intro hfree
        apply hfull
        have hlo := free_is_data h hc hcfree
        have g := gives_growAddr (a := Fin.last _) h hi
          (by rw [← addrs_eq_zero, hlast]) hc hcfree
        have hfc := g.freeCount
        rw [← volWith_growAddr hw hc hlo] at hfc
        simp only [volWith_used, volWith_sb, hfree] at hfc
        rw [← hfc]
        decide
      · intro b hb hbfree
        have := hR _ _ (.first hw h hi hn hc hcfree hb hbfree)
        unfold FsState.growEntry at this
        rwa [hzero] at this

end Xv6.Fs
