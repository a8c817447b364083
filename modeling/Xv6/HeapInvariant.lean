import Xv6.HeapBlocks

/-!
# What holds of the heap between two calls

Memory represents the list of free blocks as a ring of headers, and `free` inserts a block into it.
-/

namespace Xv6.Umalloc

open ByteLayout Blk PointerChain Heap List

variable {base n : ℕ} {h h' : Heap} {ns lv A l : List Blk} {b c t x : Blk}

/-- The free blocks `ns` are a ring in memory, sorted and without neighbours that touch, and together with
the blocks `lv` they are the memory that `sbrk` has given. -/
structure Rep (base : ℕ) (h : Heap) (ns lv : List Blk) : Prop where
  head : ∃ fl, ns = ⟨base, 0⟩ :: fl ∧ ∀ b ∈ fl, 0 < b.size
  ring : Lseg h.ptr base (ns.map addr) base
  freep : h.freep ∈ ns.map addr
  size : ∀ b ∈ ns ++ lv, h.size b.addr = b.size
  sorted : ns.Pairwise Before
  live_pos : ∀ b ∈ lv, 0 < b.size
  apart : ∀ b ∈ ns, ∀ c ∈ lv, Apart b c
  live_apart : lv.Pairwise Apart
  low : ∀ c ∈ lv, base < c.addr
  high : ∀ b ∈ ns ++ lv, b.top < KERNBASE
  cover : ∀ a, (∃ b ∈ ns ++ lv, b.Has a) ↔ ∃ r ∈ h.core, r.Has a

/-! ## The ring -/

section

variable (r : Rep base h ns lv)
include r

theorem Rep.next {y : Blk} (l₁ l₂ : List Blk) (hns : ns = l₁ ++ x :: y :: l₂) :
    h.ptr x.addr = y.addr := by
  have := r.ring
  rw [hns, map_append, map_cons, map_cons] at this
  exact this.next

theorem Rep.last (l₁ : List Blk) (hns : ns = l₁ ++ [x]) : h.ptr x.addr = base := by
  have := r.ring
  rw [hns, map_append, map_singleton] at this
  exact this.last

theorem Rep.base_le (hx : x ∈ ns) : base ≤ x.addr := by
  obtain ⟨fl, rfl, -⟩ := r.head
  rcases mem_cons.1 hx with rfl | hx
  · exact le_rfl
  · exact ((pairwise_cons.1 r.sorted).1 x hx).addr_lt.le

theorem Rep.nodup : (ns.map addr).Nodup := by
  refine pairwise_map.2 (r.sorted.imp fun hbc => ?_)
  exact hbc.addr_lt.ne

end

theorem split_sorted (hs : ns.Pairwise Before) (k : ℕ) :
    ∃ l₁ l₂, ns = l₁ ++ l₂ ∧ (∀ x ∈ l₁, x.addr < k) ∧ ∀ x ∈ l₂, k ≤ x.addr := by
  induction ns with
  | nil => exact ⟨[], [], rfl, nofun, nofun⟩
  | cons d ns ih =>
    obtain ⟨hd, hs⟩ := pairwise_cons.1 hs
    by_cases hk : d.addr < k
    · obtain ⟨l₁, l₂, rfl, h₁, h₂⟩ := ih hs
      refine ⟨d :: l₁, l₂, rfl, fun x hx => ?_, h₂⟩
      rcases mem_cons.1 hx with rfl | hx
      · exact hk
      · exact h₁ x hx
    · refine ⟨[], d :: ns, rfl, nofun, fun x hx => ?_⟩
      rcases mem_cons.1 hx with rfl | hx
      · omega
      · have := (hd x hx).addr_lt
        omega

structure Place (ns : List Blk) (b : Blk) (A : List Blk) (t : Blk) (l : List Blk) : Prop where
  eq : ns = A ++ t :: l
  below : t.top ≤ b.addr
  above : ∀ x ∈ l, b.top ≤ x.addr
  pos : ∀ x ∈ l, 0 < x.size

theorem Rep.exists_place (r : Rep base h ns (b :: lv)) : ∃ A t l, Place ns b A t l := by
  obtain ⟨l₁, l, hns, h₁, h₂⟩ := split_sorted r.sorted b.addr
  obtain ⟨fl, hfl, hpos⟩ := r.head
  have hside : ∀ x ∈ ns, Apart x b := fun x hx => r.apart x hx b mem_cons_self
  rcases eq_nil_or_concat l₁ with rfl | ⟨A, t, rfl⟩
  · -- the static header is below every block
    have := h₂ ⟨base, 0⟩ (by rw [← nil_append l, ← hns, hfl]; exact mem_cons_self)
    have := r.low b mem_cons_self
    simp only at *
    omega
  · rw [concat_eq_append] at hns h₁
    refine ⟨A, t, l, by rw [hns, append_assoc]; rfl, ?_, fun x hx => ?_, fun x hx => ?_⟩
    · have ht := h₁ t (mem_append_right A (mem_singleton_self t))
      have hb := b.addr_lt_top
      rcases hside t (by rw [hns]; simp) with h | h
      · exact h
      · omega
    · have hx' := h₂ x hx
      have := x.addr_lt_top
      rcases hside x (by rw [hns]; exact mem_append_right _ hx) with h | h
      · omega
      · exact h
    · have hxns : x ∈ ns := by rw [hns]; exact mem_append_right _ hx
      rw [hfl] at hxns
      rcases mem_cons.1 hxns with rfl | hx'
      · have := h₂ _ hx
        have := r.low b mem_cons_self
        simp only at *
        omega
      · exact hpos x hx'

/-! ## The loop of `free` -/

def Stops (h : Heap) (bp p : ℕ) : Prop :=
  (p < bp ∧ bp < h.ptr p) ∨ (h.ptr p ≤ p ∧ (p < bp ∨ bp < h.ptr p))

theorem place_stop {bp p : ℕ} (hs : Stops h bp p) : place h bp (n + 1) p = some p := by
  by_cases hin : p < bp ∧ bp < h.ptr p
  · rw [place, if_pos hin]
  · rw [place, if_neg hin, if_pos (hs.resolve_left hin)]

theorem place_next {bp p : ℕ} (hs : ¬ Stops h bp p) : place h bp (n + 1) p = place h bp n (h.ptr p) := by
  unfold Stops at hs
  rw [not_or] at hs
  rw [place, if_neg hs.1, if_neg hs.2]

theorem place_walk {bp p q : ℕ} {L M : List ℕ} {z : ℕ} (hl : Lseg h.ptr p (L ++ q :: M) z)
    (hL : ∀ x ∈ L, ¬ Stops h bp x) (hq : Stops h bp q) (hn : L.length < n) : place h bp n p = some q := by
  induction L generalizing p n with
  | nil =>
    obtain ⟨n, rfl⟩ : ∃ m, n = m + 1 := ⟨n - 1, by omega⟩
    obtain ⟨rfl, -⟩ := hl
    exact place_stop hq
  | cons x L ih =>
    obtain ⟨n, rfl⟩ : ∃ m, n = m + 1 := ⟨n - 1, by omega⟩
    obtain ⟨rfl, hl⟩ := hl
    rw [place_next (hL p mem_cons_self)]
    rw [length_cons] at hn
    exact ih hl (fun x hx => hL x (mem_cons_of_mem p hx)) (by omega)

section

variable (hp : Place ns b A t l)
include hp

section

variable (r : Rep base h ns (b :: lv))
include r

theorem Place.stops : Stops h b.addr t.addr := by
  have ht := t.addr_lt_top
  have hbelow := hp.below
  cases l with
  | nil =>
    rw [Stops, r.last A hp.eq]
    have := r.base_le (x := t) (by rw [hp.eq]; simp)
    exact .inr ⟨this, .inl (by omega)⟩
  | cons y l =>
    rw [Stops, r.next A l hp.eq]
    have := hp.above y mem_cons_self
    have := b.addr_lt_top
    exact .inl ⟨by omega, by omega⟩

theorem Place.not_stops (hx : x ∈ ns) (hne : x.addr ≠ t.addr) : ¬ Stops h b.addr x.addr := by
  have hsorted := r.sorted
  have hbase := r.low b mem_cons_self
  have hbt := b.addr_lt_top
  have hbelow := hp.below
  have htt := t.addr_lt_top
  rw [hp.eq] at hx
  rcases mem_append.1 hx with hx | hx
  · -- below the place, the next header is still below the block
    obtain ⟨A₁, A₂, rfl⟩ := append_of_mem hx
    cases A₂ with
    | nil =>
      rw [Stops, r.next A₁ l (show ns = A₁ ++ x :: t :: l by rw [hp.eq]; simp)]
      rw [hp.eq] at hsorted
      have := ((pairwise_append.1 hsorted).2.2 x hx t mem_cons_self).addr_lt
      omega
    | cons y A₂ =>
      rw [Stops, r.next A₁ (A₂ ++ t :: l) (show ns = A₁ ++ x :: y :: (A₂ ++ t :: l) by rw [hp.eq]; simp)]
      rw [hp.eq] at hsorted
      have hyt := ((pairwise_append.1 hsorted).2.2 y (by simp) t mem_cons_self).addr_lt
      have hA := (pairwise_append.1 hsorted).1
      have hxy := ((pairwise_cons.1 (pairwise_append.1 hA).2.1).1 y mem_cons_self).addr_lt
      omega
  · rcases mem_cons.1 hx with rfl | hx
    · exact (hne rfl).elim
    · have hbx := hp.above x hx
      obtain ⟨l₁, l₂, rfl⟩ := append_of_mem hx
      cases l₂ with
      | nil =>
        rw [Stops, r.last (A ++ t :: l₁) (show ns = A ++ t :: l₁ ++ [x] by rw [hp.eq]; simp)]
        omega
      | cons y l₂ =>
        rw [Stops, r.next (A ++ t :: l₁) l₂ (show ns = A ++ t :: l₁ ++ x :: y :: l₂ by rw [hp.eq]; simp)]
        rw [hp.eq] at hsorted
        have htl := (pairwise_cons.1 (pairwise_append.1 hsorted).2.1).2
        have hxy := ((pairwise_cons.1 (pairwise_append.1 htl).2.1).1 y mem_cons_self).addr_lt
        omega

theorem Place.found (hn : ns.length < n) : place h b.addr n h.freep = some t.addr := by
  obtain ⟨L, M, hLM⟩ := append_of_mem r.freep
  have hring := r.ring
  rw [hLM] at hring
  have hmem : t.addr ∈ h.freep :: M ++ L := by
    have ht : t.addr ∈ ns.map addr := mem_map_of_mem (by rw [hp.eq]; simp)
    rw [hLM] at ht
    simp only [mem_append, mem_cons] at ht ⊢
    tauto
  obtain ⟨B, D, hBD, hB⟩ := eq_append_cons_of_mem hmem
  have hrot := hring.rotate
  rw [hBD] at hrot
  refine place_walk hrot (fun q hq => ?_) (hp.stops r) ?_
  · have hq' : q ∈ ns.map addr := by
      have : q ∈ h.freep :: M ++ L := by rw [hBD]; exact mem_append_left _ hq
      rw [hLM]
      simp only [mem_append, mem_cons] at this ⊢
      tauto
    obtain ⟨x, hx, rfl⟩ := mem_map.1 hq'
    exact hp.not_stops r hx fun hxt => hB (hxt ▸ hq)
  · have hlen := congrArg List.length hBD
    have hlen' := congrArg List.length hLM
    simp only [length_append, length_cons, length_map] at hlen hlen'
    omega

end

end

/-! ## The rest of `free` -/

theorem Rep.far (r : Rep base h ns (b :: lv)) (hx : x ∈ ns ++ lv) : Far b.addr x.addr := by
  rcases mem_append.1 hx with hx | hx
  · exact (r.apart x hx b mem_cons_self).far.symm
  · exact ((pairwise_cons.1 r.live_apart).1 x hx).far

section

variable (r : Rep base h ns lv)
include r

theorem Rep.far_nodes (ht : t ∈ ns) (hx : x ∈ ns ++ lv) (hne : x.addr ≠ t.addr) :
    Far t.addr x.addr := by
  rcases mem_append.1 hx with hx | hx
  · rcases eq_or_ne x t with rfl | hxt
    · exact (hne rfl).elim
    · have hfar : ns.Pairwise fun y z => Far y.addr z.addr := r.sorted.imp fun hyz => hyz.far
      have : Std.Symm fun y z : Blk => Far y.addr z.addr := ⟨fun _ _ hyz => hyz.symm⟩
      exact hfar.forall ht hx hxt.symm
  · exact (r.apart t ht x hx).far

theorem Rep.fin_lt (hx : x ∈ ns ++ lv) : x.fin < KERNBASE :=
  x.fin_le_top.trans_lt (r.high x hx)

theorem Rep.plus_size (hx : x ∈ ns ++ lv) : plus x.addr (h.size x.addr) = x.fin := by
  have := r.fin_lt hx
  rw [r.size x hx]
  exact plus_eq (by rw [fin_eq] at this; unfold KERNBASE at this; omega)

end

structure Upper (base : ℕ) (h h₁ : Heap) (b : Blk) (l : List Blk) : Prop where
  touches : Touches h h₁ [b.addr]
  freep : h₁.freep = h.freep
  core : h₁.core = h.core
  size : h₁.size b.addr = (absorb b l).1.size
  rest : Lseg h.ptr (h₁.ptr b.addr) ((absorb b l).2.map addr) base

theorem Place.upper (hp : Place ns b A t l) (r : Rep base h ns (b :: lv)) :
    Upper base h (joinUpper h b.addr t.addr) b l := by
  have hb : b ∈ ns ++ b :: lv := by simp
  have hfin := r.plus_size hb
  have hsize := r.size b hb
  have hring := r.ring
  rw [hp.eq, map_append, map_cons, lseg_append] at hring
  obtain ⟨m, -, -, hrest⟩ := hring
  unfold joinUpper
  rw [hfin]
  cases l with
  | nil =>
    have hptr : h.ptr t.addr = base := hrest
    have hlow := r.low b mem_cons_self
    have hne : b.fin ≠ base := by rw [fin_eq]; omega
    have hbase : base < 2 ^ 32 := by
      have := r.fin_lt hb
      rw [fin_eq] at this
      unfold KERNBASE at this
      omega
    rw [hptr, if_neg hne]
    exact ⟨touches_setPtr, rfl, rfl, (size_setPtr (.inl rfl)).trans hsize, ptr_setPtr hbase⟩
  | cons c l =>
    obtain ⟨hptr, hrest⟩ := hrest
    have hc : c ∈ ns ++ b :: lv := by rw [hp.eq]; simp
    have hfar : Far b.addr c.addr := r.far (by rw [hp.eq]; simp)
    rw [hptr]
    by_cases hjoin : b.fin = c.addr
    · have hcfin := r.fin_lt hc
      have hsum : b.size + c.size < 2 ^ 32 := by
        rw [fin_eq] at *
        unfold KERNBASE at hcfin
        omega
      have hfart : Far b.addr t.addr := r.far (by rw [hp.eq]; simp)
      rw [if_pos hjoin, hsize, r.size c hc]
      dsimp only
      rw [ptr_setSize (.inr hfart), hptr, ptr_setSize (.inr hfar)]
      refine ⟨(touches_setSize.trans touches_setPtr).mono (by simp), rfl, rfl, ?_, ?_⟩
      · rw [size_setPtr (.inl rfl), size_setSize hsum, absorb_cons, if_pos hjoin]
      · rw [ptr_setPtr (ptr_lt _ _), absorb_cons, if_pos hjoin]
        exact hrest
    · have hcaddr : c.addr < 2 ^ 32 := by
        have := r.fin_lt hc
        rw [fin_eq] at this
        unfold KERNBASE at this
        omega
      rw [if_neg hjoin]
      refine ⟨touches_setPtr, rfl, rfl, ?_, ?_⟩
      · rw [size_setPtr (.inl rfl), hsize, absorb_cons, if_neg hjoin]
      · rw [ptr_setPtr hcaddr, absorb_cons, if_neg hjoin]
        exact ⟨rfl, hrest⟩

structure Lower (h₁ h₂ : Heap) (t b : Blk) : Prop where
  touches : Touches h₁ h₂ [t.addr]
  core : h₂.core = h₁.core
  joined : t.fin = b.addr → h₂.size t.addr = t.size + b.size ∧ h₂.ptr t.addr = h₁.ptr b.addr
  linked : t.fin ≠ b.addr → h₂.size t.addr = t.size ∧ h₂.ptr t.addr = b.addr

theorem lower_of_size {h₁ : Heap} (hfar : Far t.addr b.addr) (ht : h₁.size t.addr = t.size)
    (hb : h₁.size b.addr = b.size) (hfin : t.fin < KERNBASE) (hbfin : b.fin < KERNBASE) :
    Lower h₁ (joinLower h₁ b.addr t.addr) t b := by
  have hplus : plus t.addr (h₁.size t.addr) = t.fin := by
    rw [ht]
    exact plus_eq (by rw [fin_eq] at hfin; unfold KERNBASE at hfin; omega)
  rw [fin_eq] at hbfin
  unfold KERNBASE at hbfin hfin
  unfold joinLower
  rw [hplus]
  by_cases hjoin : t.fin = b.addr
  · rw [if_pos hjoin]
    dsimp only
    refine ⟨(touches_setSize.trans touches_setPtr).mono (by simp), rfl, fun _ => ⟨?_, ?_⟩,
      fun hne => (hne hjoin).elim⟩
    · rw [fin_eq] at hjoin
      rw [size_setPtr (.inl rfl), size_setSize (by omega), ht, hb]
    · rw [ptr_setPtr (ptr_lt _ _), ptr_setSize (.inr hfar)]
  · rw [if_neg hjoin]
    refine ⟨touches_setPtr, rfl, fun h => (hjoin h).elim, fun _ => ⟨?_, ptr_setPtr (by omega)⟩⟩
    rw [size_setPtr (.inl rfl), ht]

theorem Rep.joined {h₁ h₂ : Heap} (r : Rep base h ns (b :: lv)) (hp : Place ns b A t l)
    (hup : Upper base h h₁ b l) (hlow : Lower h₁ h₂ t (absorb b l).1) :
    Rep base { h₂ with freep := t.addr } (inserted A t b l) lv ∧ Touches h h₂ [b.addr, t.addr] := by
  set b' := (absorb b l).1 with hb'
  set l' := (absorb b l).2 with hl'
  have htns : t ∈ ns := by rw [hp.eq]; simp
  have hbmem : b ∈ ns ++ b :: lv := by simp
  have hbpos := r.live_pos b mem_cons_self
  have haddr : b'.addr = b.addr := absorb_addr b l
  have hfarbt : Far b.addr t.addr := r.far (mem_append_left _ htns)
  have htouch : Touches h h₂ [b.addr, t.addr] := hup.touches.trans hlow.touches
  -- what is neither the block nor the one below it has kept its header
  have hkeep : ∀ x ∈ ns ++ lv, x.addr ≠ t.addr → h₂.ptr x.addr = h.ptr x.addr ∧ h₂.size x.addr = x.size := by
    intro x hx hne
    have hx' : x ∈ ns ++ b :: lv := by
      rcases mem_append.1 hx with hx | hx <;> simp [hx]
    have hfar : ∀ p ∈ [b.addr, t.addr], Far p x.addr := by
      simpa using ⟨r.far hx, r.far_nodes htns hx' hne⟩
    exact ⟨htouch.ptr hfar, (htouch.size hfar).trans (r.size x hx')⟩
  have hsorted := r.sorted
  rw [hp.eq] at hsorted
  obtain ⟨-, htl, hAt⟩ := pairwise_append.1 hsorted
  have hA : ∀ x ∈ A, x ∈ ns ∧ x.addr ≠ t.addr := fun x hx =>
    ⟨by rw [hp.eq]; simp [hx], (hAt x hx t mem_cons_self).addr_lt.ne⟩
  have hl : ∀ x ∈ l', x ∈ ns ∧ x.addr ≠ t.addr := fun x hx => by
    have hx := mem_of_mem_absorb hx
    exact ⟨by rw [hp.eq]; simp [hx], ((pairwise_cons.1 htl).1 x hx).addr_lt.ne'⟩
  have hbptr : h₂.ptr b.addr = h₁.ptr b.addr := hlow.touches.ptr (by simpa using hfarbt.symm)
  have hbsize : h₂.size b.addr = b'.size :=
    (hlow.touches.size (by simpa using hfarbt.symm)).trans hup.size
  have hrest : Lseg h₂.ptr (h₁.ptr b.addr) (l'.map addr) base := by
    refine hup.rest.congr fun p hp' => ?_
    obtain ⟨x, hx, rfl⟩ := mem_map.1 hp'
    exact (hkeep x (mem_append_left _ (hl x hx).1) (hl x hx).2).1
  have hglue : ∀ x ∈ glue t b', h₂.size x.addr = x.size := by
    by_cases hjoin : t.fin = b'.addr
    · rw [glue_of_eq hjoin]
      intro x hx
      rw [mem_singleton.1 hx]
      exact (hlow.joined hjoin).1
    · rw [glue_of_ne hjoin]
      intro x hx
      rcases mem_cons.1 hx with rfl | hx
      · exact (hlow.linked hjoin).1
      · rw [mem_singleton.1 hx, haddr]
        exact hbsize
  refine ⟨⟨?_, ?_, ?_, ?_, ?_, ?_, ?_, ?_, ?_, ?_, ?_⟩, htouch⟩
  · obtain ⟨fl, hfl, hpos⟩ := r.head
    exact inserted_head (hp.eq.symm.trans hfl) hpos hbpos (r.low b mem_cons_self)
  · show Lseg h₂.ptr base ((inserted A t b l).map addr) base
    have hring := r.ring
    rw [hp.eq, map_append, map_cons, lseg_append] at hring
    obtain ⟨m, hbelow, hm, -⟩ := hring
    subst hm
    rw [inserted, map_append, map_append, lseg_append]
    refine ⟨t.addr, hbelow.congr fun p hp' => ?_, ?_⟩
    · obtain ⟨x, hx, rfl⟩ := mem_map.1 hp'
      exact (hkeep x (mem_append_left _ (hA x hx).1) (hA x hx).2).1
    · by_cases hjoin : t.fin = b'.addr
      · rw [glue_of_eq hjoin]
        refine ⟨rfl, ?_⟩
        rw [(hlow.joined hjoin).2, haddr]
        exact hrest
      · rw [glue_of_ne hjoin]
        refine ⟨rfl, (hlow.linked hjoin).2, ?_⟩
        rw [haddr, hbptr]
        exact hrest
  · have : t.addr ∈ (glue t b').map addr := by
      by_cases hjoin : t.fin = b'.addr
      · rw [glue_of_eq hjoin]
        simp
      · rw [glue_of_ne hjoin]
        simp
    show t.addr ∈ (inserted A t b l).map addr
    rw [inserted, map_append, map_append]
    exact mem_append_right _ (mem_append_left _ this)
  · intro x hx
    show h₂.size x.addr = x.size
    rcases mem_append.1 hx with hx | hx
    · rcases mem_append.1 hx with hx | hx
      · exact (hkeep x (mem_append_left _ (hA x hx).1) (hA x hx).2).2
      · rcases mem_append.1 hx with hx | hx
        · exact hglue x hx
        · exact (hkeep x (mem_append_left _ (hl x hx).1) (hl x hx).2).2
    · have hne := (r.apart t htns x (mem_cons_of_mem b hx)).far
      exact (hkeep x (mem_append_right _ hx) (by unfold Far at hne; omega)).2
  · exact inserted_sorted hsorted hbpos hp.below hp.pos hp.above
  · exact fun c hc => r.live_pos c (mem_cons_of_mem b hc)
  · intro d hd c hc
    refine inserted_apart hbpos hp.pos (fun d hd => r.apart d (by rw [hp.eq]; exact hd) c
      (mem_cons_of_mem b hc)) ((pairwise_cons.1 r.live_apart).1 c hc) hp.below d hd
  · exact (pairwise_cons.1 r.live_apart).2
  · exact fun c hc => r.low c (mem_cons_of_mem b hc)
  · intro x hx
    rcases mem_append.1 hx with hx | hx
    · exact inserted_top_lt (fun c hc => r.high c (mem_append_left _ (by rw [hp.eq]; exact hc)))
        (r.high b hbmem) hbpos hp.pos x hx
    · exact r.high x (by simp [hx])
  · intro a
    have hcore : h₂.core = h.core := hlow.core.trans hup.core
    show _ ↔ ∃ r ∈ h₂.core, r.Has a
    rw [hcore, ← r.cover a, hp.eq]
    have := inserted_has (A := A) (t := t) (l := l) hbpos a
    simp only [mem_append, or_and_right, exists_or, mem_cons, exists_eq_left] at this ⊢
    rw [this]
    simp only [or_assoc]

def freedHeap (h : Heap) (b t : Blk) : Heap :=
  { joinLower (joinUpper h b.addr t.addr) b.addr t.addr with freep := t.addr }

theorem Rep.freed (r : Rep base h ns (b :: lv)) (hp : Place ns b A t l) :
    Rep base (freedHeap h b t) (inserted A t b l) lv ∧ Touches h (freedHeap h b t) [b.addr, t.addr] := by
  have hup := hp.upper r
  have htns : t ∈ ns := by rw [hp.eq]; simp
  have haddr : (absorb b l).1.addr = b.addr := absorb_addr b l
  have hfar : Far b.addr t.addr := r.far (mem_append_left _ htns)
  have hlow := lower_of_size (b := (absorb b l).1) (by rw [haddr]; exact hfar.symm)
    ((hup.touches.size (by simpa using hfar)).trans (r.size t (mem_append_left _ htns)))
    (by rw [haddr]; exact hup.size) (r.fin_lt (mem_append_left _ htns))
    ((absorb b l).1.fin_le_top.trans_lt (absorb_top_lt (r.high b (by simp))
      (fun c hc => r.high c (by rw [hp.eq]; simp [hc])) hp.pos))
  rw [haddr] at hlow
  exact r.joined hp hup hlow

theorem Place.free (hp : Place ns b A t l) (r : Rep base h ns (b :: lv)) (hn : ns.length < n) :
    free n (b.addr + HDR) h = some (freedHeap h b t) := by
  unfold Umalloc.free
  rw [Nat.add_sub_cancel]
  simp only [hp.found r hn, Option.bind_eq_bind, Option.bind_some]
  rfl

end Xv6.Umalloc
