import Xv6.UserAlloc
import Xv6.Isolation

/-!
# Freeing a sparse range

`deallocuvm` may be called with a range that has pages and tables missing. Where it finds no table it
goes on 1024 pages further, from wherever it stands; unless it stands at the first page of the
missing table, it enters the next table behind its first slots. The pages in these slots are the only
ones it misses.
-/

namespace Xv6.Vm

open Resumption ByteLayout Custody Function

/-- From `m` to `m'`, no page of directory `d` from virtual page `lo` to address `size` is left, each
one is put on the free list once, and the other translations are the same. -/
structure FreesRange (d lo size : ℕ) (m m' : Mem) : Prop where
  gone : ∀ u, lo ≤ u → u * PGSIZE < size → m'.pte d u = none
  once : m'.doubleFree = false ∧ ∃ l, m'.freelist = l ++ m.freelist ∧ l.Nodup ∧
    ∀ pg, pg ∈ l ↔ ∃ u, lo ≤ u ∧ u * PGSIZE < size ∧ (m.pte d u).map PTE_ADDR = some pg
  others : ∀ u, ¬ (lo ≤ u ∧ u * PGSIZE < size) → m'.pte d u = m.pte d u

/-- No page of the range is present where the loop of `deallocuvm` steps over it. -/
def Mem.NoneSkipped (m : Mem) (d lo size : ℕ) : Prop :=
  ∀ u, lo ≤ u → u * PGSIZE < size → m.Skipped d lo u → m.pte d u = none

variable [Link] {m m' : Mem} {d lo size : ℕ} {F : Set ℕ}

theorem Sweeps.freesRange (hs : Sweeps d F (m.Visited d lo size) m m')
    (hno : m.NoneSkipped d lo size) : FreesRange d lo size m m' := by
  have hs' : Sweeps d F { u | lo ≤ u ∧ u * PGSIZE < size } m m' := by
    refine hs.congr fun u hu => ⟨fun hv => ⟨hv.1, hv.2.1⟩, fun ⟨hle, hus⟩ => ⟨hle, hus, ?_⟩⟩
    exact fun hskip => hu (hno u hle hus hskip)
  obtain ⟨l, hl, hmem⟩ := hs'.freed
  have hnodup : (l ++ m.freelist).Nodup := hl ▸ hs.ok.nodup
  refine ⟨fun u hle hus => hs'.gone u ⟨hle, hus⟩, ⟨hs.ok.single, l, hl, ?_, fun pg => ?_⟩,
    fun u hu => hs'.left u hu⟩
  · exact (List.nodup_append.mp hnodup).1
  · rw [hmem]
    simp only [Set.mem_ofPred_eq, and_assoc]

theorem Sweeps.skipped_left {u : ℕ} (hs : Sweeps d F (m.Visited d lo size) m m')
    (hskip : m.Skipped d lo u) : m'.pte d u = m.pte d u :=
  hs.left u fun hv => hv.2.2 hskip

theorem deallocuvm_frees_range_iff {oldsz newsz : UInt32} (h : SpaceOk m d F)
    (hold : oldsz.toNat ≤ KERNBASE) (hlt : newsz < oldsz) :
    ∃ m', deallocuvm d oldsz newsz m = .ok newsz m' ∧
      (FreesRange d (pagesOf newsz) oldsz.toNat m m' ↔
        m.NoneSkipped d (pagesOf newsz) oldsz.toNat) := by
  obtain ⟨r, m', hrun, rfl, hs⟩ := wp_exists_ok (wp_deallocuvm_sparse h hold hlt)
  refine ⟨m', hrun, fun hfrees u hle hus hskip => ?_, hs.freesRange⟩
  rw [← hs.skipped_left hskip]
  exact hfrees.gone u hle hus

/-! ## A page that is missed -/

/-- Memory without free pages; page 300 is an empty directory. -/
def blank : Mem := ⟨fun _ => .zero, [], 0, fun _ => false, false⟩

/-- The directory gets one table, page 301, for the second 4 MB. -/
def withTable : Mem := blank.setWord 300 1 (mkPte 301 (PTE_W ||| PTE_U ||| PTE_P))

/-- One user page is mapped, page 302 at 4 MB. -/
def secondTable : Mem :=
  withTable.setWord 301 (1024 % NPTENTRIES) (mkPte 302 (PTE_W ||| PTE_U ||| PTE_P))

omit [Link] in
theorem blank_tab : blank.tab 300 = fun _ => none := by
  funext i
  unfold Mem.tab
  rw [blank, Buffer.word_zero]
  rfl

omit [Link] in
theorem blank_pte : blank.pte 300 = fun _ => none :=
  funext fun _ => Mem.pte_of_tab_none (congrFun blank_tab _)

omit [Link] in
theorem blank_ok : @SpaceOk smallKernel blank 300 (insert 301 (insert 302 ∅)) := by
  have hdir : ∀ a pg, blank.Holds 300 a pg → a = some .dir ∧ pg = 300 := by
    rintro (_ | _ | _ | _) pg hp
    · cases hp
    · exact ⟨rfl, hp⟩
    · simp only [Mem.Holds, blank_tab] at hp
      cases hp
    · simp only [Mem.Holds, blank_pte] at hp
      cases hp.2
  refine @SpaceOk.mk smallKernel _ _ _ .nil ?_ ?_ ?_ ?_ rfl
  · intro a b pg ha hb
    rw [(hdir a pg ha).1, (hdir b pg hb).1]
  · intro a pg ha
    rw [(hdir a pg ha).2]
    simp
  · intro a pg ha
    rw [(hdir a pg ha).2]
    decide
  · intro v e _ he
    rw [blank_pte] at he
    cases he

omit [Link] in
theorem withTable_ok : @SpaceOk smallKernel withTable 300 (insert 302 ∅) ∧
    withTable.tab 300 = update (fun _ => none) 1 (some 301) ∧
    withTable.pte 300 = fun _ => none := by
  have hset := @SpaceOk.setTable smallKernel _ _ 1 _ _ (mkPte 301 (PTE_W ||| PTE_U ||| PTE_P)) blank_ok
    (by simp) (by decide) (by decide) (congrFun blank_tab 1) (by decide) rfl
  rw [blank_tab, blank_pte] at hset
  exact hset

omit [Link] in
theorem secondTable_ok : @SpaceOk smallKernel secondTable 300 ∅ ∧
    secondTable.tab 300 = update (fun _ => none) 1 (some 301) ∧
    secondTable.pte 300 = update (fun _ => none) 1024
      (some (mkPte 302 (PTE_W ||| PTE_U ||| PTE_P))) := by
  obtain ⟨hok, htab, hpte⟩ := withTable_ok
  have ht : withTable.tab 300 (1024 / NPTENTRIES) = some 301 := by
    rw [htab]
    exact update_self ..
  refine ⟨@SpaceOk.storeUser smallKernel _ _ _ _ 1024 _ _ hok (by simp) (by decide) ht (by decide)
    (by decide), ?_, ?_⟩
  · exact (@SpaceOk.tab_store smallKernel _ _ _ 1024 _ _ hok ht).trans htab
  · refine (@SpaceOk.pte_store smallKernel _ _ _ 1024 _ _ hok ht).trans ?_
    rw [hpte]
    rfl

omit [Link] in
theorem deallocuvm_frees_range_iff_aligned : @SpaceOk smallKernel secondTable 300 ∅ ∧
    ∃ m', @deallocuvm smallKernel 300 0x401000 0 secondTable = .ok 0 m' ∧
      FreesRange 300 (pagesOf 0) 0x401000 secondTable m' := by
  obtain ⟨hok, -, -⟩ := secondTable_ok
  obtain ⟨m', hrun, hiff⟩ := @deallocuvm_frees_range_iff smallKernel _ _ _ 0x401000 0 hok
    (by decide) (by decide)
  refine ⟨hok, m', hrun, hiff.mpr fun u _ _ hskip => ?_⟩
  exact absurd hskip.2.2 (Nat.not_lt_zero _)

omit [Link] in
/-- From 4096 on the loop enters the second table at its second slot. -/
theorem deallocuvm_misses_page : @SpaceOk smallKernel secondTable 300 ∅ ∧
    ∃ m', @deallocuvm smallKernel 300 0x401000 0x1000 secondTable = .ok 0x1000 m' ∧
      ¬ FreesRange 300 (pagesOf 0x1000) 0x401000 secondTable m' := by
  obtain ⟨hok, htab, hpte⟩ := secondTable_ok
  obtain ⟨r, m', hrun, rfl, hs⟩ := wp_exists_ok
    (@wp_deallocuvm_sparse smallKernel _ _ _ _ 0x401000 0x1000 hok (by decide) (by decide))
  refine ⟨hok, m', hrun, fun hfrees => ?_⟩
  have hskip : secondTable.Skipped 300 (pagesOf 0x1000) 1024 := by
    refine ⟨by decide, fun i _ hi => ?_, by decide⟩
    rw [htab, update_of_ne (show i ≠ 1 from Nat.ne_of_lt hi)]
  have hgone := hfrees.gone 1024 (by decide) (by decide)
  rw [@Sweeps.skipped_left smallKernel _ _ _ _ _ _ _ hs hskip, hpte, update_self] at hgone
  cases hgone

end Xv6.Vm
