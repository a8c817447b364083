import Xv6.MkfsModel
import Xv6.FileData

/-!
# `iappend` on volumes

The image under construction as a volume of the file system layer, with the inode that `iappend` keeps in
memory: taking the next block and storing it in an address slot gives the file a free block, and a whole
call appends its bytes to the contents of the file.
-/

namespace Xv6.Mkfs

open Fs Resumption ByteLayout FreeMap Function Volume Nat

/-- The super block, with every inode that the inode blocks hold. -/
def imageSb : Superblock := { sb with ninodes := UInt32.ofNat (ninodeblocks * IPB) }

variable {R : Dinode × UInt32 → Image → Prop} {a : ℕ} {m' : Image}

theorem imageSb_dataStart : imageSb.dataStart = nmeta := by decide

theorem iblock_range {i : ℕ} (hi : i < ninodeblocks * IPB) :
    2 + nlog ≤ IBLOCK i sb ∧ IBLOCK i sb < 2 + nlog + ninodeblocks := by
  have hstart : sb.inodestart.toNat = 2 + nlog := rfl
  unfold IBLOCK
  rw [hstart]
  simp only [nlog, ninodeblocks, NINODES, IPB, LOGSIZE, MAXOPBLOCKS, BSIZE, DINODESIZE] at *
  omega

theorem volume_ext {V V' : Volume} (hsb : V.sb = V'.sb) (hnode : V.node = V'.node) (hused : V.used = V'.used)
    (hdata : V.data = V'.data) : V = V' := by
  cases V
  cases V'
  cases hsb
  cases hnode
  cases hused
  cases hdata
  rfl

namespace Image

variable {m : Image} {b c i j : ℕ} {x : Block} {d : Dinode}

def node (m : Image) (i : ℕ) : Dinode :=
  if i < ninodeblocks * IPB then dinode (m.img (IBLOCK i sb)) (i % IPB) else .zero

def vol (m : Image) : Volume where
  sb := imageSb
  node := m.node
  used b := decide (b < m.freeblock)
  data b := if nmeta ≤ b then m.img b else .zero

def volWith (m : Image) (i : ℕ) (d : Dinode) : Volume := { m.vol with node := Function.update m.vol.node i d }

variable {m' : Image}

theorem volWith_node_self : (m.volWith i d).node i = d := update_self ..

theorem volWith_self (m : Image) (i : ℕ) : m.volWith i (m.vol.node i) = m.vol := by
  unfold volWith
  rw [update_eq_self]

theorem vol_data (hb : nmeta ≤ b) : m.vol.data b = m.img b := if_pos hb

theorem volWith_data (hb : nmeta ≤ b) : (m.volWith i d).data b = m.img b := if_pos hb

theorem volWith_wsect (hb : nmeta ≤ b) (himg : m'.img = update m.img b x)
    (hfree : m'.freeblock = m.freeblock) : m'.volWith i d = (m.volWith i d).store b x := by
  have hnode : m'.vol.node = m.vol.node := by
    funext j
    by_cases hj : j < ninodeblocks * IPB
    · have hblock := (iblock_range hj).2
      simp only [vol, node, if_pos hj, himg]
      rw [update_of_ne]
      simp only [nmeta] at hb
      omega
    · simp only [vol, node, if_neg hj]
  have hdata : m'.vol.data = update m.vol.data b x := by
    funext c
    by_cases hcb : c = b
    · subst hcb
      rw [update_self, vol_data hb, himg, update_self]
    · rw [update_of_ne hcb]
      simp only [vol, himg, update_of_ne hcb]
  have hused : m'.vol.used = m.vol.used := by
    simp only [vol, hfree]
  refine volume_ext rfl ?_ hused hdata
  simp only [volWith, hnode, store]

theorem vol_winode (hi : i < ninodeblocks * IPB)
    (himg : m'.img = update m.img (IBLOCK i sb) (setDinode (m.img (IBLOCK i sb)) (i % IPB) d))
    (hfree : m'.freeblock = m.freeblock) : m'.vol = m.volWith i d := by
  have hblock := (iblock_range hi).2
  have hnode : m'.vol.node = update m.vol.node i d := by
    funext j
    by_cases hj : j < ninodeblocks * IPB
    · by_cases hsame : IBLOCK j sb = IBLOCK i sb
      · have hslot : j % IPB = i % IPB ↔ j = i := by
          unfold IBLOCK at hsame
          constructor
          · intro h
            rw [← div_add_mod j IPB, ← div_add_mod i IPB, h]
            congr 2
            omega
          · exact fun h => by rw [h]
        simp only [vol, node, if_pos hj, himg, hsame, update_self]
        rw [dinode_setDinode _ (mod_lt _ (by decide))]
        by_cases hji : j = i
        · rw [if_pos (hslot.2 hji), hji, update_self]
        · rw [if_neg (mt hslot.1 hji), update_of_ne hji, node, if_pos hj, hsame]
      · have hji : j ≠ i := fun h => hsame (by rw [h])
        simp only [vol, node, if_pos hj, himg, update_of_ne hsame, update_of_ne hji]
    · have hji : j ≠ i := fun h => hj (h ▸ hi)
      simp only [vol, node, if_neg hj, update_of_ne hji]
  have hdata : m'.vol.data = m.vol.data := by
    funext c
    by_cases hc : nmeta ≤ c
    · rw [vol_data hc, vol_data hc, himg, update_of_ne]
      simp only [nmeta] at hc
      omega
    · simp only [vol, if_neg hc]
  have hused : m'.vol.used = m.vol.used := by
    simp only [vol, hfree]
  exact volume_ext rfl hnode hused hdata

/-- The image file has its full length, and blocks from `freeblock` on have not been touched. -/
structure Base (m : Image) : Prop where
  nsect : m.nsect = FSSIZE
  low : nmeta ≤ m.freeblock
  high : m.freeblock ≤ FSSIZE
  clean : ∀ b, m.freeblock ≤ b → m.img b = .zero
  super : m.img 1 = setSuperblock .zero sb

structure Frame (m m' : Image) : Prop where
  freeinode : m'.freeinode = m.freeinode
  winodes : m'.winodes = m.winodes

theorem Frame.refl (m : Image) : Frame m m := ⟨rfl, rfl⟩

theorem Frame.trans {m₁ m₂ m₃ : Image} (h : Frame m₁ m₂) (h' : Frame m₂ m₃) : Frame m₁ m₃ :=
  ⟨h'.freeinode.trans h.freeinode, h'.winodes.trans h.winodes⟩

def next (m : Image) : Image := { m with freeblock := m.freeblock + 1 }

theorem Base.next (h : Base m) (hlt : m.freeblock < FSSIZE) : Base m.next :=
  ⟨h.nsect, le_succ_of_le h.low, hlt, fun b hb => h.clean b (le_of_succ_le hb), h.super⟩

theorem vol_next_used (m : Image) : m.next.vol.used = update m.vol.used m.freeblock true := by
  funext c
  by_cases hc : c = m.freeblock
  · subst hc
    simp [vol, Image.next]
  · rw [update_of_ne hc]
    have hlt : c < m.freeblock + 1 ↔ c < m.freeblock := by omega
    simp only [vol, Image.next, hlt]

theorem update_free_data (h : Base m) : update m.vol.data m.freeblock .zero = m.vol.data := by
  rw [← h.clean m.freeblock le_rfl, ← vol_data h.low, update_eq_self]

theorem volWith_next_addr (h : Base m) (hd : (m.volWith i d).node i = d) (a : Fin (NDIRECT + 1)) :
    m.next.volWith i { d with addrs := update d.addrs a (UInt32.ofNat m.freeblock) } =
      (m.volWith i d).growAddr i a m.freeblock := by
  refine volume_ext rfl ?_ (vol_next_used m) (update_free_data h).symm
  simp only [growAddr, hd]
  simp only [volWith, update_idem]
  rfl

theorem volWith_next_entry (h : Base m) {k : ℕ} (hind : nmeta ≤ (m.volWith i d).addr i .indirect)
    (himg : m'.img = update m.img ((m.volWith i d).addr i .indirect)
      ((m.img ((m.volWith i d).addr i .indirect)).setWord k (UInt32.ofNat m.freeblock)))
    (hfree : m'.freeblock = m.next.freeblock) :
    m'.volWith i d = (m.volWith i d).growEntry i k m.freeblock := by
  have hstore : m'.volWith i d = (m.next.volWith i d).store _ _ := volWith_wsect hind himg hfree
  rw [hstore]
  refine volume_ext rfl rfl (vol_next_used m) ?_
  simp only [store, growEntry, volWith_data hind]
  congr 1
  exact (update_free_data h).symm

theorem Base.toNat_next (h : Base m) : (UInt32.ofNat m.freeblock).toNat = m.freeblock := by
  have := h.high
  rw [UInt32.toNat_ofNat', mod_eq_of_lt]
  simp only [FSSIZE] at this
  omega

theorem volWith_used_next : (m.volWith i d).used m.freeblock = false := decide_eq_false (lt_irrefl _)

end Image

open Image

variable {m : Image} {d : Dinode} {i n fbn : ℕ} {E : Halt → Image → Prop}

/-! ## Addresses -/

inductive Got (W W' : Volume) (i : ℕ) (sl : Slot) (x : ℕ) : Prop
  | had (hx : W.addr i sl = x) (h0 : x ≠ 0) (hW : W' = W)
  | got (g : W.Gives W' i sl x) (hzero : W'.data x = .zero)

theorem wp_addrOf (h : Base m) (hex : (m.volWith i d).Exact)
    (hi : (m.volWith i d).Allocated i) (a : Fin (NDIRECT + 1))
    (hR : ∀ d' x m', m'.nsect = FSSIZE →
      (m.freeblock < FSSIZE ∨ (m.volWith i d).addr i (Volume.slotOf a) ≠ 0 → x.toNat < FSSIZE) →
      (x.toNat < FSSIZE → Base m' ∧ Frame m m' ∧
        Got (m.volWith i d) (m'.volWith i d') i (Volume.slotOf a) x.toNat) → R (d', x) m') :
    wp (addrOf d a) R E m := by
  have haddr : (m.volWith i d).addr i (slotOf a) = (d.addrs a).toNat := by
    rw [addr_slotOf, volWith_node_self]
  unfold addrOf nextBlock
  simp only [wp_ite, wp_bind, wp_get, wp_modify, wp_pure]
  constructor
  · intro hzero
    have hempty : (m.volWith i d).addr i (slotOf a) = 0 := by
      rw [haddr, hzero]
      rfl
    refine hR _ _ m.next h.nsect (fun hlt => ?_) fun hlt => ?_
    · rw [h.toNat_next]
      exact hlt.resolve_right fun hne => hne hempty
    · rw [h.toNat_next] at hlt ⊢
      refine ⟨h.next hlt, ⟨rfl, rfl⟩, .got ?_ ?_⟩
      · rw [volWith_next_addr h volWith_node_self]
        exact gives_growAddr hex hi hempty hlt volWith_used_next
      · rw [volWith_data h.low]
        exact h.clean _ le_rfl
  · intro hne
    have hne' : (m.volWith i d).addr i (slotOf a) ≠ 0 := fun h0 =>
      hne (UInt32.toNat_inj.1 (haddr.symm.trans h0))
    refine hR d _ m h.nsect (fun _ => ?_) fun _ => ⟨h, .refl m, .had haddr (haddr ▸ hne') rfl⟩
    rw [← haddr]
    exact (hex.addr_range hi hne').2

structure Blocked (W W' : Volume) (i n fbn x : ℕ) : Prop where
  ext : W.Extends W' i n (max n (fbn + 1))
  addr : W'.addr i (.block fbn) = x
  pos : x ≠ 0
  bytes : ∀ o, W.addr i (.block (o / BSIZE)) ≠ 0 → W'.byteAt i o = W.byteAt i o
  fresh : W.addr i (.block fbn) = 0 → W'.fileBlock i fbn = .zero

variable {W W' W₁ : Volume} {x : ℕ}

theorem Got.blocked (hg : Got W W' i (.block fbn) x) (hex : W.Exact) (hi : W.Allocated i) (hn : W.HasBlocks i n)
    (hm : fbn < MAXFILE) (hle : fbn ≤ n) (hind : fbn = n → n ≠ NDIRECT) : Blocked W W' i n fbn x := by
  cases hg with
  | had hx h0 hW =>
    subst hW
    have hlt : fbn < n := (hn.block fbn hm).1 (hx ▸ h0)
    refine ⟨?_, hx, h0, fun _ _ => rfl, fun hz => absurd (hx.symm.trans hz) h0⟩
    rw [max_eq_left hlt]
    exact .refl hex hn
  | got g hzero =>
    have hlt : ¬ fbn < n := fun hlt => (hn.block fbn hm).2 hlt g.empty
    obtain rfl : fbn = n := by omega
    have hx : W'.addr i (.block fbn) = x := by rw [g.addr i hi, if_pos ⟨rfl, rfl⟩]
    refine ⟨?_, hx, g.pos hex, fun o ho => g.byteAt_eq hi ho g.empty, fun _ => ?_⟩
    · rw [max_eq_right (le_succ _)]
      exact g.extends_block hex hn hm (hind rfl)
    · rw [fileBlock, hx, hzero]

theorem Got.blocked_indirect (hg : Got W W₁ i .indirect a) (hg' : Got W₁ W' i (.block fbn) x) (hex : W.Exact)
    (hi : W.Allocated i) (hn : W.HasBlocks i n) (hm : fbn < MAXFILE) (hle : fbn ≤ n) (hfbn : ¬ fbn < NDIRECT) :
    Blocked W W' i n fbn x := by
  cases hg with
  | had ha h0 hW =>
    subst hW
    have hlt : NDIRECT < n := hn.indirect.1 (ha ▸ h0)
    exact hg'.blocked hex hi hn hm hle fun _ => by omega
  | got g _ =>
    have hnot : ¬ NDIRECT < n := fun hlt => hn.indirect.2 hlt g.empty
    obtain rfl : fbn = NDIRECT := by omega
    obtain rfl : n = NDIRECT := by omega
    have hzero : W.addr i (.block NDIRECT) = 0 := by
      by_contra hne
      exact lt_irrefl _ ((hn.block NDIRECT hm).1 hne)
    have hzero₁ : W₁.addr i (.block NDIRECT) = 0 := by
      rw [g.addr i hi, if_neg fun hc => Slot.noConfusion hc.2, hzero]
    cases hg' with
    | had hx h0 hW => exact absurd (hx.symm.trans hzero₁) h0
    | got g' hzero' =>
      have hi₁ : W₁.Allocated i := g.allocated.2 hi
      have hx : W'.addr i (.block NDIRECT) = x := by rw [g'.addr i hi₁, if_pos ⟨rfl, rfl⟩]
      refine ⟨?_, hx, g'.pos (g.exact hex), fun o ho => ?_, fun _ => ?_⟩
      · rw [max_eq_right (le_succ _)]
        exact g.extends_indirect g' hex hn
      · have ho₁ : W₁.addr i (.block (o / BSIZE)) ≠ 0 := by
          rw [g.addr i hi, if_neg fun hc => Slot.noConfusion hc.2]
          exact ho
        rw [g'.byteAt_eq hi₁ ho₁ g'.empty, g.byteAt_eq hi ho g.empty]
      · rw [fileBlock, hx, hzero']

theorem wp_rsect {R : Block → Image → Prop} {sec : ℕ} (hsect : m.nsect = FSSIZE)
    (hE : ¬ sec < FSSIZE → E (.exit 1) m) (hR : sec < FSSIZE → R (m.img sec) m) : wp (rsect sec) R E m := by
  unfold rsect
  simp only [wp_bind, wp_get, wp_ite, wp_pure, wp_throw, hsect]
  exact ⟨hR, hE⟩

theorem freeCount_volWith :
    freeCount (m.volWith i d).used (m.volWith i d).sb.size.toNat = FSSIZE - m.freeblock :=
  freeCount_of_lt fun _ _ => rfl

theorem addr_lt_next (hex : (m.volWith i d).Exact) (hi : (m.volWith i d).Allocated i) {sl : Slot}
    (h0 : (m.volWith i d).addr i sl ≠ 0) :
    nmeta ≤ (m.volWith i d).addr i sl ∧ (m.volWith i d).addr i sl < m.freeblock := by
  refine ⟨imageSb_dataStart ▸ (hex.addr_range hi h0).1, ?_⟩
  have hused := FreeMap.Exact.used_own hex (k := (i, sl)) (by rwa [own_of_allocated hi])
  rw [own_of_allocated hi] at hused
  exact of_decide_eq_true hused

theorem Image.Base.store (h : Base m) {b nsect : ℕ} {data : Block} (hb : nmeta ≤ b) (hlt : b < m.freeblock)
    (himg : m'.img = update m.img b data) (hnsect : nsect = max m.nsect (b + 1)) (hm' : m'.nsect = nsect)
    (hfree : m'.freeblock = m.freeblock) : Base m' := by
  have hhigh := h.high
  refine ⟨?_, hfree ▸ h.low, hfree ▸ h.high, fun c hc => ?_, ?_⟩
  · rw [hm', hnsect, h.nsect]
    omega
  · rw [himg, update_of_ne (by omega)]
    exact h.clean c (hfree ▸ hc)
  · rw [himg, update_of_ne (by simp only [nmeta] at hb; omega)]
    exact h.super

def Room (m : Image) (n n' : ℕ) : Prop := m.freeblock + Volume.cost n' ≤ FSSIZE + Volume.cost n

section

variable (h : Room m n (max n (fbn + 1)))
include h

theorem Room.direct (hdirect : fbn < NDIRECT) (hle : fbn ≤ n) : m.freeblock < FSSIZE ∨ fbn < n := by
  unfold Room cost at h
  split_ifs at h <;> omega

theorem Room.indirect (hdirect : ¬ fbn < NDIRECT) (hle : fbn ≤ n) :
    m.freeblock < FSSIZE ∨ NDIRECT < n := by
  unfold Room cost at h
  split_ifs at h <;> omega

theorem Room.entry (hdirect : ¬ fbn < NDIRECT) (hle : fbn ≤ n) (hnew : ¬ fbn < n) :
    (if NDIRECT < n then m.freeblock else m.freeblock + 1) < FSSIZE := by
  unfold Room cost at h
  split_ifs at h ⊢ <;> omega

end

theorem gives_next_entry (h : Base m) (hex : (m.volWith i d).Exact) (hi : (m.volWith i d).Allocated i)
    (ha : (m.volWith i d).addr i .indirect = a) (ha0 : a ≠ 0) (hdirect : ¬ fbn < NDIRECT) (hm : fbn < MAXFILE)
    (hzero : (m.volWith i d).addr i (.block fbn) = 0) (hlt : m.freeblock < FSSIZE)
    (himg : m'.img = update m.img a
      ((m.img a).setWord (fbn - NDIRECT) (UInt32.ofNat m.freeblock)))
    (hfree : m'.freeblock = m.next.freeblock) :
    (m.volWith i d).Gives (m'.volWith i d) i (.block fbn) m.freeblock := by
  subst ha
  rw [volWith_next_entry h (addr_lt_next hex hi ha0).1 himg hfree]
  exact gives_growEntry hex hi ha0 hdirect hm hzero hlt volWith_used_next

theorem wp_blockAddr (h : Base m) (hex : (m.volWith i d).Exact)
    (hi : (m.volWith i d).Allocated i) (hn : (m.volWith i d).HasBlocks i n) (hm : fbn < MAXFILE) (hle : fbn ≤ n)
    (hE : ∀ m', ¬ Room m n (max n (fbn + 1)) → E (.exit 1) m')
    (hR : ∀ d' x m', m'.nsect = FSSIZE → (Room m n (max n (fbn + 1)) → x.toNat < FSSIZE) →
      (x.toNat < FSSIZE → Base m' ∧ Frame m m' ∧
        Blocked (m.volWith i d) (m'.volWith i d') i n fbn x.toNat) → R (d', x) m') :
    wp (blockAddr d fbn) R E m := by
  unfold blockAddr
  simp only [wp_ite, wp_bind]
  constructor
  · intro hdirect
    refine wp_addrOf h hex hi _ fun d' x m' hsect hroom hgot => hR d' x m' hsect (fun hr => hroom ?_) fun hlt => ?_
    · rw [slotOf_ofNat hdirect, hn.block fbn hm]
      exact hr.direct hdirect hle
    · obtain ⟨hbase, hframe, hg⟩ := hgot hlt
      rw [slotOf_ofNat hdirect] at hg
      exact ⟨hbase, hframe, hg.blocked hex hi hn hm hle fun heq => by omega⟩
  · intro hdirect
    refine wp_addrOf h hex hi _ fun d₁ a m₁ hsect hroom hgot => ?_
    rw [slotOf_last, hn.indirect] at hroom
    refine wp_rsect hsect (fun ha => hE _ fun hr => ha (hroom (hr.indirect hdirect hle))) fun ha => ?_
    change a.toNat < FSSIZE at ha
    obtain ⟨hbase, hframe, hg⟩ := hgot ha
    rw [slotOf_last] at hg
    have hnext : m₁.freeblock ≤ if NDIRECT < n then m.freeblock else m.freeblock + 1 := by
      cases hg with
      | had hx h0 hW =>
        have hcount := congrArg (fun V : Volume => freeCount V.used V.sb.size.toNat) hW
        have hind := hn.indirect.1 (hx ▸ h0)
        rw [if_pos hind]
        simp only [freeCount_volWith] at hcount
        have := h.high
        have := hbase.high
        omega
      | got g _ =>
        have hcount := g.freeCount
        have hind : ¬ NDIRECT < n := fun hc => hn.indirect.2 hc g.empty
        rw [if_neg hind]
        simp only [freeCount_volWith] at hcount
        have := hbase.high
        omega
    have hfacts : (m₁.volWith i d₁).Exact ∧ (m₁.volWith i d₁).Allocated i ∧
        (m₁.volWith i d₁).addr i .indirect = a.toNat ∧ a.toNat ≠ 0 := by
      cases hg with
      | had hx h0 hW =>
        rw [hW]
        exact ⟨hex, hi, hx, h0⟩
      | got g _ => exact ⟨g.exact hex, g.allocated.2 hi, by rw [g.addr i hi, if_pos ⟨rfl, rfl⟩], g.pos hex⟩
    obtain ⟨hex₁, hi₁, haddr, ha0⟩ := hfacts
    obtain ⟨halow, halt⟩ := addr_lt_next hex₁ hi₁ (haddr ▸ ha0)
    have hentry : (m₁.volWith i d₁).addr i (.block fbn) = ((m₁.img a.toNat).word (fbn - NDIRECT)).toNat := by
      rw [addr_entry hdirect hm (haddr ▸ ha0), volWith_data halow, haddr]
    unfold nextBlock wsect
    constructor
    · intro hzero
      refine hR _ _ _ ?_ (fun hr => ?_) fun hlt => ?_
      · simp only [hsect]
        omega
      · rw [hbase.toNat_next]
        have hfbn : ¬ fbn < n := by
          intro hlt
          cases hg with
          | had hx h0 hW =>
            rw [hW, hzero] at hentry
            exact (hn.block fbn hm).2 hlt hentry
          | got g _ => exact hn.indirect.2 (by omega) g.empty
        exact hnext.trans_lt (hr.entry hdirect hle hfbn)
      · rw [hbase.toNat_next] at hlt ⊢
        rw [haddr] at halow halt
        refine ⟨(hbase.next hlt).store halow (lt_succ_of_lt halt) rfl rfl rfl rfl,
          hframe.trans ⟨rfl, rfl⟩, hg.blocked_indirect (.got ?_ ?_) hex hi hn hm hle hdirect⟩
        · refine gives_next_entry hbase hex₁ hi₁ haddr ha0 hdirect hm ?_ hlt rfl rfl
          rw [hentry, hzero]
          rfl
        · rw [volWith_data hbase.low]
          dsimp only
          rw [update_of_ne halt.ne']
          exact hbase.clean _ le_rfl
    · intro hne
      have hne' : (m₁.volWith i d₁).addr i (.block fbn) ≠ 0 := fun h0 =>
        hne (UInt32.toNat_inj.1 (hentry.symm.trans h0))
      refine hR _ _ _ hsect (fun _ => ?_) fun _ => ⟨hbase, hframe,
        hg.blocked_indirect (.had hentry (hentry ▸ hne') rfl) hex hi hn hm hle hdirect⟩
      rw [← hentry]
      exact (hex₁.addr_range hi₁ hne').2

end Xv6.Mkfs
