import Xv6.Custody
import Xv6.ProcModel

/-!
# What a page directory maps

A directory is read as two maps: from its slots to page tables and from virtual pages to present
entries. A store to a directory or to one of its tables changes these maps at one point, and a store
to any other page does not change them.
-/

namespace Xv6.Vm

open Resumption ByteLayout Custody Function UInt32 List Nat Option Mem Set

/-! ## Entries -/

variable {pg : ℕ} {flags f perm : UInt32}

theorem and_twelve_ones (x : ℕ) : x &&& 0xFFF = x % PGSIZE := Nat.and_two_pow_sub_one_eq_mod x 12

theorem toNat_mkPte (hpg : pg < 2 ^ 20) (hf : flags.toNat < PGSIZE) :
    (mkPte pg flags).toNat = pg * PGSIZE + flags.toNat := by
  have hlt : pg * PGSIZE < 2 ^ 32 := by simp only [PGSIZE]; omega
  unfold mkPte
  rw [UInt32.toNat_or, UInt32.toNat_ofNat', Nat.mod_eq_of_lt hlt, Nat.mul_comm]
  exact (Nat.two_pow_add_eq_or_of_lt (show flags.toNat < 2 ^ 12 from hf) pg).symm

theorem PTE_ADDR_mkPte (hpg : pg < 2 ^ 20) (hf : flags.toNat < PGSIZE) :
    PTE_ADDR (mkPte pg flags) = pg := by
  unfold PTE_ADDR
  rw [toNat_mkPte hpg hf]
  simp only [PGSIZE] at *
  omega

theorem toNat_PTE_FLAGS (e : UInt32) : (PTE_FLAGS e).toNat = e.toNat % PGSIZE := by
  unfold PTE_FLAGS
  rw [UInt32.toNat_and]
  exact and_twelve_ones e.toNat

theorem PTE_FLAGS_lt (e : UInt32) : (PTE_FLAGS e).toNat < PGSIZE := by
  rw [toNat_PTE_FLAGS]
  exact mod_lt _ (by decide)

theorem PTE_FLAGS_mkPte (hpg : pg < 2 ^ 20)
    (hf : flags.toNat < PGSIZE) : PTE_FLAGS (mkPte pg flags) = flags := by
  rw [← UInt32.toNat_inj, toNat_PTE_FLAGS, toNat_mkPte hpg hf, Nat.mul_add_mod_of_lt hf]

theorem and_flag (e : UInt32) (hf : f.toNat < PGSIZE) : PTE_FLAGS e &&& f = e &&& f := by
  have hid : (0xFFF : UInt32) &&& f = f := by
    rw [← UInt32.toNat_inj, UInt32.toNat_and, Nat.and_comm]
    exact (and_twelve_ones f.toNat).trans (Nat.mod_eq_of_lt hf)
  unfold PTE_FLAGS
  rw [UInt32.and_assoc, hid]

theorem mkPte_flag (hpg : pg < 2 ^ 20) (hfl : flags.toNat < PGSIZE)
    (hf : f.toNat < PGSIZE) : mkPte pg flags &&& f = flags &&& f := by
  rw [← and_flag _ hf, PTE_FLAGS_mkPte hpg hfl]

theorem or_PTE_P_and (perm : UInt32) : (perm ||| PTE_P) &&& PTE_P = PTE_P := by
  rw [← UInt32.toNat_inj, UInt32.toNat_and, UInt32.toNat_or]
  change (perm.toNat ||| 1) &&& 1 = 1
  rw [Nat.and_or_distrib_right, Nat.and_one_is_mod]
  rcases Nat.mod_two_eq_zero_or_one perm.toNat with h | h <;> rw [h] <;> rfl

/-! ## Directories as maps -/

/-- The page that a directory entry points to, if it is present. -/
def tableOf (w : UInt32) : Option ℕ := if w &&& PTE_P ≠ 0 then some (PTE_ADDR w) else none

def present (w : UInt32) : Option UInt32 := if w &&& PTE_P ≠ 0 then some w else none

theorem or_PTE_P_lt (hperm : perm.toNat < PGSIZE) : (perm ||| PTE_P).toNat < PGSIZE := by
  rw [UInt32.toNat_or]
  exact Nat.or_lt_two_pow (show perm.toNat < 2 ^ 12 from hperm) (by decide)

theorem present_or (pg : ℕ) (perm : UInt32) :
    present (mkPte pg (perm ||| PTE_P)) = some (mkPte pg (perm ||| PTE_P)) := by
  unfold present mkPte
  rw [← UInt32.or_assoc, or_PTE_P_and, if_pos (by decide)]

theorem present_mkPte (hpg : pg < 2 ^ 20) (hperm : perm.toNat < PGSIZE) :
    present (mkPte pg (perm ||| PTE_P)) = some (mkPte pg (perm ||| PTE_P)) ∧
      PTE_ADDR (mkPte pg (perm ||| PTE_P)) = pg :=
  ⟨present_or pg perm, PTE_ADDR_mkPte hpg (or_PTE_P_lt hperm)⟩

namespace Mem

/-- The table in slot `i` of directory `d`. -/
def tab (m : Mem) (d i : ℕ) : Option ℕ := tableOf ((m.page d).word i)

/-- The present entry for virtual page `v`. -/
def pte (m : Mem) (d v : ℕ) : Option UInt32 :=
  (m.tab d (v / NPTENTRIES)).bind fun t => present ((m.page t).word (v % NPTENTRIES))

variable {m : Mem} {d i j t pg v : ℕ} {w : UInt32} {x : Page}

theorem setPage_page_ne (h : t ≠ pg) : (m.setPage pg x).page t = m.page t :=
  update_of_ne h ..

theorem setPage_page_self : (m.setPage pg x).page pg = x := update_self ..

theorem word_setWord_page (hi : i < 1024) (j : ℕ) :
    ((m.setWord t i w).page t).word j = if j = i then w else (m.page t).word j := by
  rw [setWord, setPage_page_self, Buffer.word_setWord (by simp only [PGSIZE]; omega)]

theorem tab_setPage (h : d ≠ pg) : (m.setPage pg x).tab d = m.tab d := by
  funext i
  unfold tab
  rw [setPage_page_ne h]

theorem pte_setPage (h : d ≠ pg) (ht : ∀ i, m.tab d i ≠ some pg) :
    (m.setPage pg x).pte d = m.pte d := by
  funext v
  unfold pte
  rw [tab_setPage h]
  cases hv : m.tab d (v / NPTENTRIES) with
  | none => rfl
  | some t =>
    have hne : t ≠ pg := fun he => ht _ (he ▸ hv)
    simp only [bind_some, setPage_page_ne hne]

theorem tab_setWord (hi : i < 1024) : (m.setWord d i w).tab d = update (m.tab d) i (tableOf w) := by
  funext j
  unfold tab
  rw [word_setWord_page hi]
  by_cases hj : j = i
  · subst hj
    rw [if_pos rfl, update_self]
  · rw [if_neg hj, update_of_ne hj]

theorem pte_setTable (hi : i < 1024) (hnone : m.tab d i = none) (hd : ∀ j, m.tab d j ≠ some d)
    (hw : tableOf w = some t) (htd : t ≠ d) (hzero : m.page t = .zero) :
    (m.setWord d i w).pte d = m.pte d := by
  funext v
  unfold pte
  rw [tab_setWord hi, hw]
  by_cases hv : v / NPTENTRIES = i
  · rw [hv, update_self, hnone, bind_some, setWord, setPage_page_ne htd, hzero,
      Buffer.word_zero]
    rfl
  · rw [update_of_ne hv]
    cases ht : m.tab d (v / NPTENTRIES) with
    | none => rfl
    | some u =>
      have hne : u ≠ d := fun he => hd _ (he ▸ ht)
      simp only [bind_some, setWord, setPage_page_ne hne]

theorem pte_setWord (hj : j < 1024) (ht : m.tab d i = some t) (htd : d ≠ t)
    (hinj : ∀ i', m.tab d i' = some t → i' = i) :
    (m.setWord t j w).pte d = update (m.pte d) (i * NPTENTRIES + j) (present w) := by
  funext v
  unfold pte
  rw [setWord, tab_setPage htd, ← setWord]
  by_cases hv : v = i * NPTENTRIES + j
  · have hdiv : v / NPTENTRIES = i := by simp only [NPTENTRIES] at *; omega
    have hmod : v % NPTENTRIES = j := by simp only [NPTENTRIES] at *; omega
    rw [hdiv, hmod, ht, hv, update_self, bind_some, word_setWord_page hj, if_pos rfl]
  · rw [update_of_ne hv]
    cases hu : m.tab d (v / NPTENTRIES) with
    | none => rfl
    | some u =>
      by_cases hut : u = t
      · subst hut
        have hmod : v % NPTENTRIES ≠ j := by
          have := hinj _ hu
          simp only [NPTENTRIES] at *
          omega
        rw [bind_some, word_setWord_page hj, if_neg hmod]
        rfl
      · simp only [bind_some, setWord, setPage_page_ne hut]

theorem tab_eq_none (hi : 1024 ≤ i) : m.tab d i = none := by
  have hzero : (m.page d).word i = 0 := by
    have hb : ∀ b, 4096 ≤ b → (m.page d).byte b = 0 := fun b hb => dif_neg (by simp only [PGSIZE]; omega)
    unfold Buffer.word get32
    rw [hb _ (by omega), hb _ (by omega), hb _ (by omega), hb _ (by omega)]
    rfl
  unfold tab
  rw [hzero]
  rfl

theorem tab_lt (h : m.tab d i = some t) : i < 1024 := by
  by_contra hi
  rw [tab_eq_none (by omega)] at h
  cases h

theorem pte_eq_some {e : UInt32} (h : m.pte d v = some e) :
    ∃ t, m.tab d (v / NPTENTRIES) = some t ∧ e = (m.page t).word (v % NPTENTRIES) ∧
      e &&& PTE_P ≠ 0 := by
  unfold pte at h
  obtain ⟨t, ht, hp⟩ := bind_eq_some_iff.mp h
  unfold present at hp
  split_ifs at hp with hP
  exact ⟨t, ht, (Option.some.inj hp).symm, Option.some.inj hp ▸ hP⟩

end Mem

/-! ## Well-formed directories -/

/-- The pages of an address space by their use; the user half has the virtual pages below 2^19. -/
inductive Part
  | dir
  | tab (i : ℕ)
  | user (v : ℕ)

/-- What holds page `pg`: the free list or a part of directory `d`. -/
def Mem.Holds (m : Mem) (d : ℕ) : Option Part → ℕ → Prop
  | none, pg => pg ∈ m.freelist
  | some .dir, pg => pg = d
  | some (.tab i), pg => m.tab d i = some pg
  | some (.user v), pg => v < 2 ^ 19 ∧ (m.pte d v).map PTE_ADDR = some pg

/-- The tables of directory `d` are pages of their own, and none of them is free. -/
structure Mem.Tree (m : Mem) (d : ℕ) : Prop where
  nodup : m.freelist.Nodup
  free : ∀ pg ∈ m.freelist, pg < 2 ^ 20 ∧ d ≠ pg ∧ ∀ i, m.tab d i ≠ some pg
  dir : ∀ i, m.tab d i ≠ some d
  inj : ∀ i j t, m.tab d i = some t → m.tab d j = some t → i = j

section Tree

variable {m : Mem} {d t v : ℕ} {w : UInt32} (h : m.Tree d) (ht : m.tab d (v / NPTENTRIES) = some t)
include h ht

theorem Mem.Tree.tab_store : (m.setWord t (v % NPTENTRIES) w).tab d = m.tab d := by
  refine tab_setPage ?_
  rintro rfl
  exact h.dir _ ht

theorem Mem.Tree.pte_store :
    (m.setWord t (v % NPTENTRIES) w).pte d = update (m.pte d) v (present w) := by
  have htd : d ≠ t := by
    rintro rfl
    exact h.dir _ ht
  have hstore := pte_setWord (w := w) (mod_lt v (show 0 < NPTENTRIES by decide)) ht htd
    fun i' hi' => h.inj _ _ t hi' ht
  rwa [div_add_mod'] at hstore

end Tree

variable [Link]

/-- `d` is a page directory that shares no page with the free list or with the pages `F` of
others. -/
structure SpaceOk (m : Mem) (d : ℕ) (F : Set ℕ) : Prop where
  nodup : m.freelist.Nodup
  excl : Exclusive (m.Holds d)
  frame : ∀ a pg, m.Holds d a pg → pg ∉ F
  range : ∀ a pg, m.Holds d a pg → Link.endPage ≤ pg ∧ pg < PHYSTOP / PGSIZE
  kernel : ∀ v e, 2 ^ 19 ≤ v → m.pte d v = some e → e &&& PTE_U = 0
  single : m.doubleFree = false

section SpaceOk

variable {m m' : Mem} {d i j t pg v : ℕ} {F : Set ℕ} {w : UInt32} {x : Page}

section

variable (h : SpaceOk m d F)
include h

theorem SpaceOk.congr (hfree : m'.freelist = m.freelist) (htab : m'.tab d = m.tab d)
    (hpte : m'.pte d = m.pte d) (hsingle : m'.doubleFree = m.doubleFree) : SpaceOk m' d F := by
  have hholds : m'.Holds d = m.Holds d := by
    funext a pg
    rcases a with _ | _ | _ | _
    · simp only [Mem.Holds, hfree]
    · rfl
    · simp only [Mem.Holds, htab]
    · simp only [Mem.Holds, hpte]
  exact ⟨hfree ▸ h.nodup, hholds ▸ h.excl, hholds ▸ h.frame, hholds ▸ h.range, hpte ▸ h.kernel,
    hsingle ▸ h.single⟩

theorem SpaceOk.tab_ne_dir (i : ℕ) : m.tab d i ≠ some d := by
  intro ht
  have := h.excl (some (.tab i)) (some .dir) d ht rfl
  simp at this

theorem SpaceOk.tab_inj (hi : m.tab d i = some t) (hj : m.tab d j = some t) : i = j := by
  have := h.excl (some (.tab i)) (some (.tab j)) t hi hj
  simpa using this

theorem SpaceOk.tree : m.Tree d := by
  refine ⟨h.nodup, fun pg hpg => ⟨?_, ?_, fun i hi => ?_⟩, h.tab_ne_dir, fun i j t => h.tab_inj⟩
  · have := (h.range none pg hpg).2
    simp only [PHYSTOP, PGSIZE] at this
    omega
  · rintro rfl
    cases h.excl (some .dir) none d rfl hpg
  · cases h.excl (some (.tab i)) none pg hi hpg

theorem SpaceOk.mono {G : Set ℕ} (hG : G ⊆ F) : SpaceOk m d G :=
  ⟨h.nodup, h.excl, fun a pg hp hg => h.frame a pg hp (hG hg), h.range, h.kernel, h.single⟩

theorem SpaceOk.setPage (hd : d ≠ pg) (ht : ∀ i, m.tab d i ≠ some pg) :
    SpaceOk (m.setPage pg x) d F :=
  h.congr rfl (tab_setPage hd) (pte_setPage hd ht) rfl

theorem SpaceOk.frame_ne (hp : pg ∈ F) : d ≠ pg ∧ ∀ i, m.tab d i ≠ some pg :=
  ⟨fun he => h.frame (some .dir) pg he.symm hp, fun i hi => h.frame (some (.tab i)) pg hi hp⟩

/-! ### Moving pages -/

theorem SpaceOk.take {rest : List ℕ} {c : ℕ} (hl : m.freelist = pg :: rest) :
    SpaceOk { m with freelist := rest, calls := c } d (insert pg F) := by
  have hnodup := h.nodup
  rw [hl, nodup_cons] at hnodup
  have hfree : m.Holds d none pg := by
    change pg ∈ m.freelist
    rw [hl]
    exact mem_cons_self
  have hsub : ∀ a x, Mem.Holds { m with freelist := rest, calls := c } d a x →
      m.Holds d a x ∧ x ≠ pg := by
    rintro (_ | a) x hx
    · have hmem : x ∈ m.freelist := by
        rw [hl]
        exact mem_cons_of_mem _ hx
      exact ⟨hmem, fun he => hnodup.1 (he ▸ hx)⟩
    · have hx' : m.Holds d (some a) x := by
        rcases a with _ | _ | _ <;> exact hx
      refine ⟨hx', fun he => ?_⟩
      have := h.excl (some a) none pg (he ▸ hx') hfree
      cases this
  refine ⟨hnodup.2, h.excl.mono fun a x hx => (hsub a x hx).1, ?_, ?_, h.kernel, h.single⟩
  · intro a x hx hF
    rcases hF with rfl | hF
    · exact (hsub a x hx).2 rfl
    · exact h.frame a x (hsub a x hx).1 hF
  · exact fun a x hx => h.range a x (hsub a x hx).1

end

theorem SpaceOk.gain {b : Option Part} (h : SpaceOk m d (insert pg F)) (hF : pg ∉ F)
    (hr : Link.endPage ≤ pg ∧ pg < PHYSTOP / PGSIZE)
    (hsub : ∀ a x, m'.Holds d a x → m.Holds d a x ∨ a = b ∧ x = pg) (hnodup : m'.freelist.Nodup)
    (hkernel : ∀ v e, 2 ^ 19 ≤ v → m'.pte d v = some e → e &&& PTE_U = 0) (hsingle : m'.doubleFree = false) :
    SpaceOk m' d F := by
  have hnew : ∀ a, ¬ m.Holds d a pg := fun a ha => h.frame a pg ha (mem_insert pg F)
  refine ⟨hnodup, h.excl.give hnew hsub, ?_, ?_, hkernel, hsingle⟩
  · intro a x hx
    rcases hsub a x hx with hx | ⟨-, rfl⟩
    · exact fun hxF => h.frame a x hx (mem_insert_of_mem _ hxF)
    · exact hF
  · intro a x hx
    rcases hsub a x hx with hx | ⟨-, rfl⟩
    · exact h.range a x hx
    · exact hr

theorem SpaceOk.give (h : SpaceOk m d (insert pg F)) (hF : pg ∉ F)
    (hr : Link.endPage ≤ pg ∧ pg < PHYSTOP / PGSIZE) : SpaceOk (m.free pg) d F := by
  obtain ⟨hd, ht⟩ := h.frame_ne (mem_insert pg F)
  have htab : (m.free pg).tab d = m.tab d := tab_setPage hd
  have hpte : (m.free pg).pte d = m.pte d := pte_setPage hd ht
  have hsub : ∀ a x, (m.free pg).Holds d a x → m.Holds d a x ∨ a = none ∧ x = pg := by
    rintro (_ | _ | _ | _) x hx
    · rcases mem_cons.mp hx with rfl | hx
      · exact .inr ⟨rfl, rfl⟩
      · exact .inl hx
    · exact .inl hx
    · exact .inl (by simpa only [Mem.Holds, htab] using hx)
    · exact .inl (by simpa only [Mem.Holds, hpte] using hx)
  have hnot : pg ∉ m.freelist := fun hp => h.frame none pg hp (mem_insert pg F)
  refine h.gain hF hr hsub (nodup_cons.mpr ⟨hnot, h.nodup⟩) (hpte ▸ h.kernel) ?_
  · change (m.doubleFree || decide (pg ∈ m.freelist)) = false
    rw [h.single, decide_eq_false hnot]
    rfl

theorem SpaceOk.setTable (h : SpaceOk m d (insert t F)) (hF : t ∉ F)
    (hr : Link.endPage ≤ t ∧ t < PHYSTOP / PGSIZE) (hi : i < 1024) (hnone : m.tab d i = none)
    (hw : tableOf w = some t) (hzero : m.page t = .zero) :
    SpaceOk (m.setWord d i w) d F ∧
      (m.setWord d i w).tab d = update (m.tab d) i (some t) ∧
      (m.setWord d i w).pte d = m.pte d := by
  obtain ⟨hd, -⟩ := h.frame_ne (mem_insert t F)
  have htab : (m.setWord d i w).tab d = update (m.tab d) i (some t) := by
    rw [tab_setWord hi, hw]
  have hpte : (m.setWord d i w).pte d = m.pte d :=
    pte_setTable hi hnone h.tab_ne_dir hw (fun he => hd he.symm) hzero
  have hsub : ∀ a x, (m.setWord d i w).Holds d a x →
      m.Holds d a x ∨ a = some (.tab i) ∧ x = t := by
    rintro (_ | _ | j | v) x hx
    · exact .inl hx
    · exact .inl hx
    · simp only [Mem.Holds, htab] at hx
      by_cases hj : j = i
      · subst hj
        rw [update_self] at hx
        exact .inr ⟨rfl, (Option.some.inj hx).symm⟩
      · rw [update_of_ne hj] at hx
        exact .inl hx
    · exact .inl (by simpa only [Mem.Holds, hpte] using hx)
  exact ⟨h.gain hF hr hsub h.nodup (hpte ▸ h.kernel) h.single, htab, hpte⟩

section Entry

variable (h : SpaceOk m d F) (ht : m.tab d (v / NPTENTRIES) = some t)
include h ht

theorem SpaceOk.pte_store :
    (m.setWord t (v % NPTENTRIES) w).pte d = update (m.pte d) v (present w) := h.tree.pte_store ht

theorem SpaceOk.tab_store : (m.setWord t (v % NPTENTRIES) w).tab d = m.tab d := h.tree.tab_store ht

theorem SpaceOk.holds_store {a : Option Part} {x : ℕ}
    (hx : (m.setWord t (v % NPTENTRIES) w).Holds d a x) :
    a ≠ some (.user v) ∧ m.Holds d a x ∨
      a = some (.user v) ∧ v < 2 ^ 19 ∧ (present w).map PTE_ADDR = some x := by
  rcases a with _ | _ | i | u
  · exact .inl ⟨by simp, hx⟩
  · exact .inl ⟨by simp, hx⟩
  · simp only [Mem.Holds, h.tab_store ht] at hx
    exact .inl ⟨by simp, hx⟩
  · simp only [Mem.Holds, h.pte_store ht] at hx
    by_cases hu : u = v
    · subst hu
      rw [update_self] at hx
      exact .inr ⟨rfl, hx⟩
    · rw [update_of_ne hu] at hx
      exact .inl ⟨by simpa using hu, hx⟩

theorem SpaceOk.storeKernel (hv : 2 ^ 19 ≤ v) (hw : w &&& PTE_U = 0) :
    SpaceOk (m.setWord t (v % NPTENTRIES) w) d F := by
  have hsub : ∀ a x, (m.setWord t (v % NPTENTRIES) w).Holds d a x → m.Holds d a x := by
    intro a x hx
    rcases h.holds_store ht hx with hx | ⟨-, hlt, -⟩
    · exact hx.2
    · omega
  refine ⟨h.nodup, h.excl.mono hsub, fun a x hx => h.frame a x (hsub a x hx),
    fun a x hx => h.range a x (hsub a x hx), ?_, h.single⟩
  intro u e hu he
  rw [h.pte_store ht] at he
  by_cases huv : u = v
  · subst huv
    rw [update_self] at he
    unfold present at he
    split_ifs at he
    exact Option.some.inj he ▸ hw
  · rw [update_of_ne huv] at he
    exact h.kernel u e hu he

theorem SpaceOk.kernel_store (hv : v < 2 ^ 19) :
    ∀ u e, 2 ^ 19 ≤ u → (m.setWord t (v % NPTENTRIES) w).pte d u = some e → e &&& PTE_U = 0 := by
  intro u e hu he
  rw [h.pte_store ht, update_of_ne (by omega)] at he
  exact h.kernel u e hu he

theorem SpaceOk.storeFlags {e : UInt32} (hv : v < 2 ^ 19) (he : m.pte d v = some e)
    (hw : (present w).map PTE_ADDR = some (PTE_ADDR e)) :
    SpaceOk (m.setWord t (v % NPTENTRIES) w) d F := by
  have hsub : ∀ a x, (m.setWord t (v % NPTENTRIES) w).Holds d a x → m.Holds d a x := by
    intro a x hx
    rcases h.holds_store ht hx with hx | ⟨rfl, -, hx⟩
    · exact hx.2
    · refine ⟨hv, ?_⟩
      rw [he]
      exact hw.symm.trans hx
  exact ⟨h.nodup, h.excl.mono hsub, fun a x hx => h.frame a x (hsub a x hx),
    fun a x hx => h.range a x (hsub a x hx), h.kernel_store ht hv, h.single⟩

theorem SpaceOk.clear {e : UInt32} (hv : v < 2 ^ 19) (he : m.pte d v = some e) :
    SpaceOk (m.setWord t (v % NPTENTRIES) 0) d (insert (PTE_ADDR e) F) := by
  have hold : m.Holds d (some (.user v)) (PTE_ADDR e) := ⟨hv, by rw [he]; rfl⟩
  have hsub : ∀ a x, (m.setWord t (v % NPTENTRIES) 0).Holds d a x →
      a ≠ some (.user v) ∧ m.Holds d a x := by
    intro a x hx
    rcases h.holds_store ht hx with hx | ⟨-, -, hx⟩
    · exact hx
    · cases hx
  refine ⟨h.nodup, h.excl.mono fun a x hx => (hsub a x hx).2, ?_,
    fun a x hx => h.range a x (hsub a x hx).2, h.kernel_store ht hv, h.single⟩
  intro a x hx hF
  obtain ⟨hne, hx⟩ := hsub a x hx
  rcases hF with rfl | hF
  · exact hne (h.excl a _ _ hx hold)
  · exact h.frame a x hx hF

end Entry

theorem SpaceOk.storeUser (h : SpaceOk m d (insert pg F)) (hF : pg ∉ F)
    (hr : Link.endPage ≤ pg ∧ pg < PHYSTOP / PGSIZE) (ht : m.tab d (v / NPTENTRIES) = some t)
    (hv : v < 2 ^ 19) (hw : (present w).map PTE_ADDR = some pg) :
    SpaceOk (m.setWord t (v % NPTENTRIES) w) d F := by
  have hsub : ∀ a x, (m.setWord t (v % NPTENTRIES) w).Holds d a x →
      m.Holds d a x ∨ a = some (.user v) ∧ x = pg := by
    intro a x hx
    rcases h.holds_store ht hx with hx | ⟨rfl, -, hx⟩
    · exact .inl hx.2
    · exact .inr ⟨rfl, Option.some.inj (hx.symm.trans hw)⟩
  exact h.gain hF hr hsub h.nodup (h.kernel_store ht hv) h.single

end SpaceOk

end Xv6.Vm
