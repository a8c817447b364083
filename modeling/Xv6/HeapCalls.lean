import Xv6.HeapInvariant

/-!
# The calls of the allocator

`malloc` finds the first block on the ring that is large enough, also after `morecore` has added one, and
takes it or its tail. Along every run of a program the heap is as it should be.
-/

namespace Xv6.Umalloc

open ByteLayout Blk PointerChain Heap List

variable {base n : ℕ} {h h' : Heap} {ns lv A l : List Blk} {b c t x y : Blk} {nunits : ℕ}

/-! ## Taking a block -/

variable {prev p nu : ℕ} {C D : List Blk}

theorem Rep.exists_prev (r : Rep base h ns lv) (hx : x ∈ ns) (hpos : 0 < x.size)
    (hprev : prev ∈ ns.map addr) (hnext : h.ptr prev = x.addr) :
    ∃ C y D, ns = C ++ y :: x :: D ∧ y.addr = prev := by
  obtain ⟨fl, hfl, -⟩ := r.head
  have hbase : x.addr ≠ base := by
    intro hxb
    have hfirst : (⟨base, 0⟩ : Blk) ∈ ns := by rw [hfl]; exact mem_cons_self
    have : x = ⟨base, 0⟩ := inj_on_of_nodup_map r.nodup hx hfirst hxb
    rw [this] at hpos
    exact absurd hpos (lt_irrefl 0)
  obtain ⟨L₁, L₂, hL⟩ := r.ring.next_eq hprev (by rw [hnext]; exact hbase)
  obtain ⟨C, R, rfl, rfl, hR⟩ := map_eq_append_iff.1 hL
  obtain ⟨y, R, rfl, rfl, hR⟩ := map_eq_cons_iff.1 hR
  obtain ⟨z, D, rfl, hz, rfl⟩ := map_eq_cons_iff.1 hR
  have : z = x := inj_on_of_nodup_map r.nodup (by simp) hx (hz.trans hnext)
  subst this
  exact ⟨C, y, D, rfl, rfl⟩

theorem Rep.far_of_ne (r : Rep base h ns lv) (hx : x ∈ ns ++ lv) (hy : y ∈ ns ++ lv) (hne : x ≠ y) :
    Far x.addr y.addr := by
  have hfar : (ns ++ lv).Pairwise fun y z => Far y.addr z.addr :=
    pairwise_append.2 ⟨r.sorted.imp fun hyz => hyz.far, r.live_apart.imp fun hyz => hyz.far,
      fun y hy z hz => (r.apart y hy z hz).far⟩
  have : Std.Symm fun y z : Blk => Far y.addr z.addr := ⟨fun _ _ hyz => hyz.symm⟩
  exact hfar.forall hx hy hne

theorem Rep.apart_of_mem (r : Rep base h (C ++ x :: D) lv) (hy : y ∈ C ++ D) : Apart y x := by
  obtain ⟨-, hD, hC⟩ := pairwise_append.1 r.sorted
  rcases mem_append.1 hy with hy | hy
  · exact .inl (hC y hy x mem_cons_self).1
  · exact .inr ((pairwise_cons.1 hD).1 y hy).1

theorem Rep.head_without (r : Rep base h (C ++ y :: x :: D) lv) :
    ∃ fl, C ++ y :: D = ⟨base, 0⟩ :: fl ∧ ∀ b ∈ fl, 0 < b.size := by
  obtain ⟨fl, hfl, hpos⟩ := r.head
  cases C with
  | nil =>
    obtain ⟨rfl, rfl⟩ := List.cons.inj hfl
    exact ⟨D, rfl, fun b hb => hpos b (mem_cons_of_mem x hb)⟩
  | cons c C =>
    obtain ⟨rfl, rfl⟩ := List.cons.inj hfl
    refine ⟨C ++ y :: D, rfl, fun b hb => hpos b (show b ∈ C ++ y :: x :: D from ?_)⟩
    simp only [mem_append, mem_cons] at hb ⊢
    tauto

theorem Rep.unlinked (r : Rep base h (C ++ y :: x :: D) lv) (hpos : 0 < x.size) :
    Rep base { h.setPtr y.addr (h.ptr x.addr) with freep := y.addr } (C ++ y :: D) (x :: lv) := by
  have hsub : (C ++ y :: D).Sublist (C ++ y :: x :: D) :=
    (List.Sublist.refl C).append ((sublist_cons_self x D).cons_cons y)
  have hmem : ∀ z, z ∈ (C ++ y :: D) ++ x :: lv ↔ z ∈ (C ++ y :: x :: D) ++ lv := by
    intro z
    simp only [mem_append, mem_cons]
    tauto
  have hy : y ∈ (C ++ y :: x :: D) ++ lv := by simp
  have hnodup := r.nodup.of_map
  have hyx := (pairwise_cons.1 (pairwise_append.1 r.sorted).2.1).1 x mem_cons_self
  have hring := r.ring
  rw [map_append, map_cons, map_cons, lseg_append] at hring
  obtain ⟨m, hC, hm, -, hD⟩ := hring
  subst hm
  have hkeep : ∀ z ∈ C ++ D, (h.setPtr y.addr (h.ptr x.addr)).ptr z.addr = h.ptr z.addr := by
    intro z hz
    refine ptr_setPtr_of_far (r.far_of_ne hy ?_ ?_)
    · simp only [mem_append, mem_cons] at hz ⊢
      tauto
    · rintro rfl
      rw [nodup_append] at hnodup
      rcases mem_append.1 hz with hz | hz
      · exact hnodup.2.2 y hz y mem_cons_self rfl
      · exact (nodup_cons.1 hnodup.2.1).1 (mem_cons_of_mem x hz)
  refine ⟨r.head_without, ?_, by simp, fun z hz => ?_, r.sorted.sublist hsub, ?_, fun z hz c hc => ?_, ?_, ?_,
    fun z hz => r.high z ((hmem z).1 hz), fun a => ?_⟩
  · show Lseg (h.setPtr y.addr (h.ptr x.addr)).ptr base ((C ++ y :: D).map addr) base
    rw [map_append, map_cons, lseg_append]
    refine ⟨y.addr, hC.congr fun p hp => ?_, rfl, ?_⟩
    · obtain ⟨z, hz, rfl⟩ := mem_map.1 hp
      exact hkeep z (mem_append_left D hz)
    · rw [ptr_setPtr (ptr_lt h x.addr)]
      refine hD.congr fun p hp => ?_
      obtain ⟨z, hz, rfl⟩ := mem_map.1 hp
      exact hkeep z (mem_append_right C hz)
  · have hz := (hmem z).1 hz
    rw [← r.size z hz]
    refine size_setPtr ?_
    by_cases hzy : y = z
    · exact .inl (congrArg addr hzy)
    · exact .inr (r.far_of_ne hy hz hzy)
  · intro z hz
    rcases mem_cons.1 hz with rfl | hz
    · exact hpos
    · exact r.live_pos z hz
  · rcases mem_cons.1 hc with rfl | hc
    · have r' : Rep base h ((C ++ [y]) ++ c :: D) lv := by
        rw [append_assoc]
        exact r
      exact r'.apart_of_mem (by rw [append_assoc]; exact hz)
    · exact r.apart z (hsub.subset hz) c hc
  · exact pairwise_cons.2 ⟨fun c hc => r.apart x (by simp) c hc, r.live_apart⟩
  · intro c hc
    rcases mem_cons.1 hc with rfl | hc
    · exact (r.base_le (x := y) (by simp)).trans_lt hyx.addr_lt
    · exact r.low c hc
  · exact (exists_congr fun z => and_congr_left fun _ => hmem z).trans (r.cover a)

def front (x : Blk) (k : ℕ) : Blk := ⟨x.addr, x.size - k⟩

def tail (x : Blk) (k : ℕ) : Blk := ⟨x.addr + 8 * (x.size - k), k⟩

section Divide

variable {C D : List Blk} {k : ℕ} (hk : 0 < k) (hkx : k < x.size)

include hk hkx

theorem front_tail_has (a : ℕ) : x.Has a ↔ (front x k).Has a ∨ (tail x k).Has a := by
  simp only [Has, front, tail, fin_eq]
  omega

omit hk in
theorem front_apart_tail : Apart (front x k) (tail x k) := by
  simp only [Apart, front, tail, top_eq]
  omega

theorem front_before (h : Before x c) : Before (front x k) c := by
  simp only [Before, front, top_eq, fin_eq] at *
  omega

theorem front_apart (h : Apart x c) : Apart (front x k) c := by
  simp only [Apart, front, top_eq] at *
  omega

theorem tail_apart (h : Apart x c) : Apart (tail x k) c := by
  simp only [Apart, tail, top_eq] at *
  omega

theorem Rep.divided_sorted (r : Rep base h (C ++ x :: D) lv) : (C ++ front x k :: D).Pairwise Before := by
  obtain ⟨hC, hD, hCD⟩ := pairwise_append.1 r.sorted
  obtain ⟨hx, hD⟩ := pairwise_cons.1 hD
  refine pairwise_append.2 ⟨hC, pairwise_cons.2 ⟨fun d hd => front_before hk hkx (hx d hd), hD⟩,
    fun c hc d hd => ?_⟩
  rcases mem_cons.1 hd with rfl | hd
  · exact hCD c hc x mem_cons_self
  · exact hCD c hc d (mem_cons_of_mem x hd)

omit hk in
theorem Rep.divided_head (r : Rep base h (C ++ x :: D) lv) :
    ∃ fl, C ++ front x k :: D = ⟨base, 0⟩ :: fl ∧ ∀ b ∈ fl, 0 < b.size := by
  obtain ⟨fl, hfl, hpos⟩ := r.head
  cases C with
  | nil =>
    obtain ⟨rfl, -⟩ := List.cons.inj hfl
    exact absurd hkx (Nat.not_lt_zero k)
  | cons c C =>
    obtain ⟨rfl, rfl⟩ := List.cons.inj hfl
    refine ⟨C ++ front x k :: D, rfl, fun b hb => ?_⟩
    rcases mem_append.1 hb with hb | hb
    · exact hpos b (mem_append_left _ hb)
    · rcases mem_cons.1 hb with rfl | hb
      · exact Nat.sub_pos_of_lt hkx
      · exact hpos b (mem_append_right _ (mem_cons_of_mem x hb))

theorem Rep.divided {p : ℕ} (r : Rep base h (C ++ x :: D) lv) (hp : p ∈ C.map addr) :
    Rep base { (h.setSize x.addr (x.size - k)).setSize (tail x k).addr k with freep := p }
      (C ++ front x k :: D) (tail x k :: lv) := by
  have hx : x ∈ (C ++ x :: D) ++ lv := by simp
  have hfin := r.fin_lt hx
  have hmap : (C ++ front x k :: D).map addr = (C ++ x :: D).map addr := by
    rw [map_append, map_append]
    rfl
  have hside : ∀ z ∈ C ++ D ++ lv, Apart x z := by
    intro z hz
    rcases mem_append.1 hz with hz | hz
    · exact (r.apart_of_mem hz).symm
    · exact r.apart x (by simp) z hz
  have hkeep : ∀ z ∈ C ++ D ++ lv, Far x.addr z.addr ∧ Far (tail x k).addr z.addr := fun z hz =>
    ⟨(hside z hz).far, (tail_apart hk hkx (hside z hz)).far⟩
  have htail : Far (tail x k).addr x.addr := (front_apart_tail hkx).far.symm
  have hsplit : ∀ z ∈ C ++ front x k :: D, z ∈ C ++ D ∨ z = front x k := by
    intro z hz
    simp only [mem_append, mem_cons] at hz ⊢
    tauto
  rw [fin_eq] at hfin
  unfold KERNBASE at hfin
  refine ⟨r.divided_head hkx, ?_, ?_, fun z hz => ?_, r.divided_sorted hk hkx, ?_, fun z hz c hc => ?_, ?_,
    fun c hc => ?_, fun z hz => ?_, fun a => ?_⟩
  · rw [hmap]
    refine r.ring.congr fun q hq => ?_
    obtain ⟨z, hz, rfl⟩ := mem_map.1 hq
    show ((h.setSize x.addr (x.size - k)).setSize (tail x k).addr k).ptr z.addr = h.ptr z.addr
    by_cases hzx : z = x
    · subst hzx
      rw [ptr_setSize (.inr htail), ptr_setSize (.inl rfl)]
    · have hz : z ∈ C ++ D ++ lv := by
        simp only [mem_append, mem_cons] at hz ⊢
        tauto
      rw [ptr_setSize (.inr (hkeep z hz).2), ptr_setSize (.inr (hkeep z hz).1)]
  · rw [map_append]
    exact mem_append_left _ hp
  · show ((h.setSize x.addr (x.size - k)).setSize (tail x k).addr k).size z.addr = z.size
    have hold : ∀ z ∈ C ++ D ++ lv,
        ((h.setSize x.addr (x.size - k)).setSize (tail x k).addr k).size z.addr = z.size := by
      intro z hz
      rw [size_setSize_of_far (hkeep z hz).2, size_setSize_of_far (hkeep z hz).1]
      refine r.size z ?_
      simp only [mem_append, mem_cons] at hz ⊢
      tauto
    rcases mem_append.1 hz with hz | hz
    · rcases hsplit z hz with hz | rfl
      · exact hold z (mem_append_left lv hz)
      · exact (size_setSize_of_far htail).trans (size_setSize (by omega))
    · rcases mem_cons.1 hz with rfl | hz
      · exact size_setSize (by show k < _; omega)
      · exact hold z (mem_append_right _ hz)
  · intro z hz
    rcases mem_cons.1 hz with rfl | hz
    · exact hk
    · exact r.live_pos z hz
  · rcases hsplit z hz with hz | rfl <;> rcases mem_cons.1 hc with rfl | hc
    · exact (tail_apart hk hkx (hside z (mem_append_left lv hz))).symm
    · exact r.apart z (by simp only [mem_append, mem_cons] at hz ⊢; tauto) c hc
    · exact front_apart_tail hkx
    · exact front_apart hk hkx (r.apart x (by simp) c hc)
  · exact pairwise_cons.2 ⟨fun c hc => tail_apart hk hkx (r.apart x (by simp) c hc), r.live_apart⟩
  · rcases mem_cons.1 hc with rfl | hc
    · have := r.base_le (x := x) (by simp)
      show base < x.addr + 8 * (x.size - k)
      omega
    · exact r.low c hc
  · have hxtop := r.high x hx
    have hold : ∀ z ∈ C ++ D ++ lv, z.top < KERNBASE := fun z hz => r.high z (by
      simp only [mem_append, mem_cons] at hz ⊢
      tauto)
    rcases mem_append.1 hz with hz | hz
    · rcases hsplit z hz with hz | rfl
      · exact hold z (mem_append_left lv hz)
      · simp only [front, top_eq] at *
        omega
    · rcases mem_cons.1 hz with rfl | hz
      · simp only [tail, top_eq] at *
        omega
      · exact hold z (mem_append_right _ hz)
  · refine Iff.trans ?_ (r.cover a)
    simp only [mem_append, mem_cons, or_and_right, exists_or, exists_eq_left,
      front_tail_has hk hkx a]
    exact iff_of_eq (by ac_rfl)

end Divide

theorem Blk.Apart.outside {a : ℕ} (hbc : Apart b c) (ha : c.Has a) : a < b.addr ∨ b.addr + 8 ≤ a := by
  simp only [Apart, Has, top_eq, fin_eq] at *
  omega

section

variable (r : Rep base h ns lv)
include r

theorem Rep.taken {k : ℕ} (hx : x ∈ ns) (hk : 0 < k) (hkx : k ≤ x.size)
    (hprev : prev ∈ ns.map addr) (hnext : h.ptr prev = x.addr) :
    ∃ q ns', (take k prev x.addr h).1 = q + HDR ∧ Rep base (take k prev x.addr h).2 ns' (⟨q, k⟩ :: lv) ∧
      ∀ c ∈ lv, ∀ a, c.Has a → (take k prev x.addr h).2.mem a = h.mem a := by
  obtain ⟨C, y, D, rfl, rfl⟩ := r.exists_prev hx (hk.trans_le hkx) hprev hnext
  have hmem : x ∈ (C ++ y :: x :: D) ++ lv := by simp
  have hsize := r.size x hmem
  have hfin := r.fin_lt hmem
  rw [fin_eq] at hfin
  unfold KERNBASE at hfin
  unfold take
  rw [hsize]
  rcases hkx.eq_or_lt with hkx | hkx
  · rw [if_pos hkx.symm]
    have hx : (⟨x.addr, k⟩ : Blk) = x := by rw [hkx]
    refine ⟨x.addr, C ++ y :: D, plus_eq (by omega), ?_, fun c hc a ha => ?_⟩
    · rw [hx]
      exact r.unlinked (hk.trans_le hkx.le)
    · refine touches_setPtr (h := h) a fun p hp => ?_
      rw [mem_singleton.1 hp]
      exact (r.apart y (by simp) c hc).outside ha
  · rw [if_neg hkx.ne']
    dsimp only
    have hplus : plus x.addr (x.size - k) = (tail x k).addr := plus_eq (by omega)
    rw [size_setSize (show x.size - k < 2 ^ 32 by omega), hplus]
    have r' : Rep base h ((C ++ [y]) ++ x :: D) lv := by
      rw [append_assoc]
      exact r
    refine ⟨(tail x k).addr, _, plus_eq ?_, r'.divided hk hkx (p := y.addr) (by simp), fun c hc a ha => ?_⟩
    · show x.addr + 8 * (x.size - k) + 8 * 1 < 2 ^ 32
      omega
    · have hxc := r.apart x (by simp) c hc
      refine (touches_setSize.trans touches_setSize (h := h)) a fun p hp => ?_
      rcases mem_append.1 hp with hp | hp
      · rw [mem_singleton.1 hp]
        exact hxc.outside ha
      · rw [mem_singleton.1 hp]
        exact (tail_apart hk hkx hxc).outside ha

/-! ## More memory -/

theorem Rep.below (hfresh : Fresh base h p nu) (hx : x ∈ ns ++ lv) : x.top ≤ p := by
  obtain ⟨hbase, hcore, -⟩ := hfresh
  by_cases hpos : 0 < x.size
  · have hlast : x.Has (x.fin - 1) := by
      rw [Has, fin_eq]
      omega
    obtain ⟨c, hc, hin⟩ := (r.cover (x.fin - 1)).1 ⟨x, hx, hlast⟩
    have hle : c.fin ≤ p := hcore c hc
    rw [top_of_pos hpos]
    have := hin.2
    omega
  · -- only the static header has no memory
    obtain ⟨fl, hfl, hflpos⟩ := r.head
    rcases mem_append.1 hx with hx | hx
    · rw [hfl] at hx
      rcases mem_cons.1 hx with rfl | hx
      · exact hbase
      · exact absurd (hflpos x hx) hpos
    · exact absurd (r.live_pos x hx) hpos

theorem Rep.grown (hfresh : Fresh base h p nu) (hnu : 0 < nu) :
    Rep base { h.setSize p nu with core := ⟨p, nu⟩ :: h.core } ns (⟨p, nu⟩ :: lv) := by
  have hbelow : ∀ x ∈ ns ++ lv, Apart x ⟨p, nu⟩ := fun x hx => .inl (r.below hfresh hx)
  have hfar : ∀ x ∈ ns ++ lv, Far p x.addr := fun x hx => (hbelow x hx).far.symm
  obtain ⟨hbase, hcore, hhigh⟩ := hfresh
  unfold KERNBASE HDR at *
  refine ⟨r.head, ?_, r.freep, fun x hx => ?_, r.sorted, ?_, fun x hx c hc => ?_, ?_, ?_, ?_, fun a => ?_⟩
  · refine r.ring.congr fun q hq => ?_
    obtain ⟨x, hx, rfl⟩ := mem_map.1 hq
    exact ptr_setSize (.inr (hfar x (mem_append_left lv hx)))
  · show (h.setSize p nu).size x.addr = x.size
    rcases mem_append.1 hx with hx | hx
    · rw [size_setSize_of_far (hfar x (mem_append_left lv hx))]
      exact r.size x (mem_append_left lv hx)
    · rcases mem_cons.1 hx with rfl | hx
      · exact size_setSize (by omega)
      · rw [size_setSize_of_far (hfar x (mem_append_right ns hx))]
        exact r.size x (mem_append_right ns hx)
  · intro x hx
    rcases mem_cons.1 hx with rfl | hx
    · exact hnu
    · exact r.live_pos x hx
  · rcases mem_cons.1 hc with rfl | hc
    · exact hbelow x (mem_append_left lv hx)
    · exact r.apart x hx c hc
  · exact pairwise_cons.2 ⟨fun c hc => (hbelow c (mem_append_right ns hc)).symm, r.live_apart⟩
  · intro c hc
    rcases mem_cons.1 hc with rfl | hc
    · dsimp only
      omega
    · exact r.low c hc
  · intro x hx
    rcases mem_append.1 hx with hx | hx
    · exact r.high x (mem_append_left lv hx)
    · rcases mem_cons.1 hx with rfl | hx
      · rw [top_of_pos hnu]
        exact hhigh
      · exact r.high x (mem_append_right ns hx)
  · have := r.cover a
    simp only [mem_append, mem_cons, or_and_right, exists_or, exists_eq_left] at this ⊢
    rw [← this]
    exact iff_of_eq (by ac_rfl)

end

theorem exists_large (hb : nunits ≤ b.size) : ∃ x ∈ inserted A t b l, nunits ≤ x.size := by
  have hsize := hb.trans (absorb_size_le b l)
  by_cases hjoin : t.fin = (absorb b l).1.addr
  · refine ⟨⟨t.addr, t.size + (absorb b l).1.size⟩, ?_, hsize.trans (Nat.le_add_left _ _)⟩
    rw [inserted, glue_of_eq hjoin]
    simp
  · refine ⟨(absorb b l).1, ?_, hsize⟩
    rw [inserted, glue_of_ne hjoin]
    simp

theorem inserted_length (A : List Blk) (t b : Blk) (l : List Blk) :
    (inserted A t b l).length ≤ (A ++ t :: l).length + 1 := by
  have habsorb : (absorb b l).2.length ≤ l.length := by
    cases l with
    | nil => exact le_rfl
    | cons c l =>
      rw [absorb_cons]
      split
      · exact Nat.le_succ _
      · exact le_rfl
  have hglue : (glue t (absorb b l).1).length ≤ 2 := by
    unfold glue
    split <;> simp
  simp only [inserted, length_append, length_cons]
  omega

theorem Rep.more {m : ℕ} (r : Rep base h ns lv) (hm : (if nu < 4096 then 4096 else nu) = m)
    (hnu : nu ≤ m) (hpos : 0 < m) (hfresh : Fresh base h p m) (rest : List (Option ℕ)) :
    ∃ h' ns', (∀ n, ns.length < n → morecore n nu (some p :: rest) h = some (some h'.freep, rest, h')) ∧
      Rep base h' ns' lv ∧ (∃ x ∈ ns', nu ≤ x.size) ∧ ns'.length ≤ ns.length + 1 ∧
      ∀ c ∈ lv, ∀ a, c.Has a → h'.mem a = h.mem a := by
  have r₀ := r.grown hfresh hpos
  obtain ⟨A, t, l, hp⟩ := r₀.exists_place
  obtain ⟨r', htouch⟩ := r₀.freed hp
  have hplus : plus p 1 = p + HDR := plus_eq (by
    have := hfresh.2.2
    unfold KERNBASE HDR at this
    omega)
  refine ⟨_, _, fun n hn => ?_, r', exists_large hnu, ?_, fun c hc a ha => ?_⟩
  · unfold morecore
    dsimp only
    rw [hm, hplus, show free n (p + HDR) _ = _ from hp.free r₀ hn]
    rfl
  · rw [hp.eq]
    exact inserted_length A t _ l
  · have hpc := (pairwise_cons.1 r₀.live_apart).1 c hc
    have htc := r₀.apart t (by rw [hp.eq]; simp) c (mem_cons_of_mem _ hc)
    have hset : (h.setSize p m).mem a = h.mem a := touches_setSize a fun q hq => by
      rw [mem_singleton.1 hq]
      exact hpc.outside ha
    rw [htouch a fun q hq => ?_]
    · exact hset
    · rcases mem_cons.1 hq with rfl | hq
      · exact hpc.outside ha
      · rw [mem_singleton.1 hq]
        exact htc.outside ha

/-! ## The loop of `malloc` -/

section Scan

variable {k : ℕ} {sbrk : List (Option ℕ)}

theorem scan_next {prevp p : ℕ} (hp : h.size p < k ∧ p ≠ h.freep) :
    scan k (n + 1) prevp p sbrk h = scan k n p (h.ptr p) sbrk h := by
  rw [scan, if_neg (by omega), if_neg hp.2]

theorem scan_walk (k : ℕ) (sbrk : List (Option ℕ)) {prevp p q z : ℕ} {L M : List ℕ} (hl : Lseg h.ptr p (L ++ q :: M) z)
    (hL : ∀ x ∈ L, h.size x < k ∧ x ≠ h.freep) (hprev : h.ptr prevp = p) :
    ∃ prev, h.ptr prev = q ∧ (prev = prevp ∨ prev ∈ L) ∧
      ∀ n, scan k (n + L.length) prevp p sbrk h = scan k n prev q sbrk h := by
  induction L generalizing prevp p with
  | nil =>
    obtain ⟨rfl, -⟩ := hl
    exact ⟨prevp, hprev, .inl rfl, fun n => rfl⟩
  | cons x L ih =>
    obtain ⟨rfl, hl⟩ := hl
    obtain ⟨prev, hq, hmem, hscan⟩ := ih hl (fun x hx => hL x (mem_cons_of_mem p hx)) rfl
    refine ⟨prev, hq, .inr ?_, fun n => ?_⟩
    · rcases hmem with rfl | hmem
      · exact mem_cons_self
      · exact mem_cons_of_mem p hmem
    · rw [length_cons, ← Nat.add_assoc, scan_next (hL p mem_cons_self)]
      exact hscan n

section

variable (r : Rep base h ns lv)
include r

theorem Rep.around : ∃ L, (L ++ [h.freep]).Perm (ns.map addr) ∧ h.freep ∉ L ∧
    Lseg h.ptr (h.ptr h.freep) (L ++ [h.freep]) (h.ptr h.freep) := by
  obtain ⟨L, M, hLM⟩ := append_of_mem r.freep
  have hring := r.ring
  have hnodup := r.nodup
  rw [hLM] at hring hnodup ⊢
  have hperm : ((M ++ L) ++ [h.freep]).Perm (L ++ h.freep :: M) :=
    perm_append_comm.trans (perm_append_comm : (h.freep :: M ++ L).Perm (L ++ h.freep :: M))
  refine ⟨M ++ L, hperm, ?_, ?_⟩
  · intro hmem
    have := hperm.nodup_iff.2 hnodup
    exact (nodup_append.1 this).2.2 _ hmem _ (mem_singleton_self _) rfl
  · obtain ⟨-, hrot⟩ := hring.rotate
    exact lseg_append.2 ⟨h.freep, hrot, rfl, rfl⟩

theorem Rep.size_addr {p : ℕ} (hp : p ∈ ns.map addr) :
    ∃ x ∈ ns, x.addr = p ∧ h.size p = x.size := by
  obtain ⟨x, hx, rfl⟩ := mem_map.1 hp
  exact ⟨x, hx, rfl, r.size x (mem_append_left lv hx)⟩

theorem Rep.scan_hit (sbrk : List (Option ℕ)) (hlarge : ∃ x ∈ ns, k ≤ x.size) :
    ∃ prev x, x ∈ ns ∧ k ≤ x.size ∧ prev ∈ ns.map addr ∧ h.ptr prev = x.addr ∧
      ∀ n, ns.length ≤ n → scan k n h.freep (h.ptr h.freep) sbrk h = some (take k prev x.addr h) := by
  obtain ⟨L, hperm, hfreep, hring⟩ := r.around
  have hmem : ∀ p, p ∈ L ++ [h.freep] ↔ p ∈ ns.map addr := fun p => hperm.mem_iff
  have hfind : ((L ++ [h.freep]).find? fun p => decide (k ≤ h.size p)).isSome := by
    obtain ⟨x, hx, hk⟩ := hlarge
    refine List.find?_isSome.2 ⟨x.addr, (hmem _).2 (mem_map_of_mem hx), ?_⟩
    rw [r.size x (mem_append_left lv hx)]
    exact decide_eq_true hk
  obtain ⟨q, hq⟩ := Option.isSome_iff_exists.1 hfind
  obtain ⟨hkq, L₁, L₂, hsplit, hL₁⟩ := List.find?_eq_some_iff_append.1 hq
  have hkq : k ≤ h.size q := of_decide_eq_true hkq
  -- `freep` comes last on the way around
  have hbefore : ∀ p ∈ L₁, p ∈ L := by
    rcases eq_nil_or_concat L₂ with rfl | ⟨L₃, z, rfl⟩
    · obtain ⟨rfl, -⟩ := append_inj' hsplit rfl
      exact fun p hp => hp
    · have heq : L ++ [h.freep] = (L₁ ++ q :: L₃) ++ [z] := by
        rw [hsplit, concat_eq_append, append_assoc, cons_append]
      obtain ⟨rfl, -⟩ := append_inj' heq rfl
      exact fun p hp => mem_append_left _ hp
  rw [hsplit] at hring
  obtain ⟨prev, hnext, hprev, hscan⟩ := scan_walk k sbrk hring (fun p hp => ⟨by
    simpa using hL₁ p hp, fun hpf => hfreep (hpf ▸ hbefore p hp)⟩) rfl
  obtain ⟨x, hx, rfl, hsize⟩ := r.size_addr ((hmem q).1 (by rw [hsplit]; simp))
  refine ⟨prev, x, hx, hsize ▸ hkq, ?_, hnext, fun n hn => ?_⟩
  · rcases hprev with rfl | hprev
    · exact r.freep
    · exact (hmem prev).1 (by rw [hsplit]; exact mem_append_left _ hprev)
  · have hlen := hperm.length_eq
    rw [hsplit] at hlen
    simp only [length_append, length_cons, length_map] at hlen
    obtain ⟨m, rfl⟩ : ∃ m, n = m + 1 + L₁.length := ⟨n - 1 - L₁.length, by omega⟩
    rw [hscan (m + 1), scan, if_pos hkq]

theorem Rep.scan_miss (hsmall : ∀ x ∈ ns, x.size < k) :
    scan k (n + ns.length) h.freep (h.ptr h.freep) sbrk h =
      match morecore n k sbrk h with
      | none => none
      | some (none, _, h) => some (0, h)
      | some (some p, sbrk, h) => scan k n p (h.ptr p) sbrk h := by
  obtain ⟨L, hperm, hfreep, hring⟩ := r.around
  have hsize : ∀ p ∈ L ++ [h.freep], h.size p < k := by
    intro p hp
    obtain ⟨x, hx, -, hxs⟩ := r.size_addr (hperm.mem_iff.1 hp)
    rw [hxs]
    exact hsmall x hx
  obtain ⟨prev, -, -, hscan⟩ := scan_walk k sbrk hring (fun p hp =>
    ⟨hsize p (mem_append_left _ hp), fun hpf => hfreep (hpf ▸ hp)⟩) rfl
  have hlen := hperm.length_eq
  simp only [length_append, length_singleton, length_map] at hlen
  have hlast := hsize h.freep (mem_append_right L (mem_singleton_self _))
  rw [show n + ns.length = n + 1 + L.length by omega, hscan (n + 1), scan, if_neg (by omega)]
  exact if_pos rfl

end

inductive Outcome (base : ℕ) (h : Heap) (ns lv : List Blk) (k : ℕ) (sbrk : List (Option ℕ)) : ℕ → Heap → Prop
  | fails (hsmall : ∀ x ∈ ns, x.size < k) (hsbrk : ∀ p rest, sbrk ≠ some p :: rest) :
      Outcome base h ns lv k sbrk 0 h
  | gives {q : ℕ} {ns' : List Blk} {h' : Heap} (hrep : Rep base h' ns' (⟨q, k⟩ :: lv))
      (hframe : ∀ c ∈ lv, ∀ a, c.Has a → h'.mem a = h.mem a) : Outcome base h ns lv k sbrk (q + HDR) h'

theorem Rep.scan_outcome (r : Rep base h ns lv) (hk : 0 < k)
    (hfresh : ∀ p rest, sbrk = some p :: rest → Fresh base h p (max k 4096)) :
    ∃ q h', Gives (fun n => scan k n h.freep (h.ptr h.freep) sbrk h) (q, h') ∧
      Outcome base h ns lv k sbrk q h' := by
  by_cases hlarge : ∃ x ∈ ns, k ≤ x.size
  · obtain ⟨prev, x, hx, hkx, hprev, hnext, hscan⟩ := r.scan_hit sbrk hlarge
    obtain ⟨q, ns', hq, r', hframe⟩ := r.taken hx hk hkx hprev hnext
    exact ⟨q + HDR, _, ⟨ns.length, fun n hn => (hscan n hn).trans (by rw [← hq])⟩, .gives r' hframe⟩
  · have hsmall : ∀ x ∈ ns, x.size < k := fun x hx => by
      by_contra hge
      exact hlarge ⟨x, hx, by omega⟩
    have hfail : ∀ (hsbrk : ∀ p rest, sbrk ≠ some p :: rest), ∃ q h',
        Gives (fun n => scan k n h.freep (h.ptr h.freep) sbrk h) (q, h') ∧
          Outcome base h ns lv k sbrk q h' := by
      refine fun hsbrk => ⟨0, h, ⟨ns.length, fun n hn => ?_⟩, .fails hsmall hsbrk⟩
      obtain ⟨m, rfl⟩ : ∃ m, n = m + ns.length := ⟨n - ns.length, by omega⟩
      dsimp only
      rw [r.scan_miss hsmall]
      match sbrk, hsbrk with
      | [], _ => rfl
      | none :: rest, _ => rfl
      | some p :: rest, hsbrk => exact (hsbrk p rest rfl).elim
    match sbrk, hfail, hfresh with
    | [], hfail, _ => exact hfail fun p rest => nofun
    | none :: rest, hfail, _ => exact hfail fun p rest => nofun
    | some p :: rest, _, hfresh =>
      obtain ⟨h₁, ns₁, hmore, r₁, hlarge₁, hlen₁, hframe₁⟩ := r.more (by split <;> omega) (le_max_left k 4096)
        (by omega) (hfresh p rest rfl) rest
      obtain ⟨prev, x, hx, hkx, hprev, hnext, hscan⟩ := r₁.scan_hit rest hlarge₁
      obtain ⟨q, ns', hq, r', hframe⟩ := r₁.taken hx hk hkx hprev hnext
      refine ⟨q + HDR, _, ⟨ns.length + ns.length + 1, fun n hn => ?_⟩,
        .gives r' fun c hc a ha => (hframe c hc a ha).trans (hframe₁ c hc a ha)⟩
      obtain ⟨m, rfl⟩ : ∃ m, n = m + ns.length := ⟨n - ns.length, by omega⟩
      dsimp only
      rw [r.scan_miss hsmall, hmore m (by omega)]
      dsimp only
      rw [hscan m (by omega), ← hq]

end Scan

end Xv6.Umalloc
