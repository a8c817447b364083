import Xv6.Isolation

/-!
# Copying to user pages

`copyout` on any directory that `setupkvm` and `allocuvm` build. It works through user pages only, as
long as there is a page table for every page it looks up. `uva2ka` does not test for a missing one and
reads the entry through a null pointer. To say that this does not happen, what the null pointer yields
is left open: `null` may be any word, or a trap.
-/

namespace Xv6.Vm

open Resumption ByteLayout Mem Option Nat

variable [Link] {m m' m₀ : Mem} {d va len v k : ℕ} {F : Set ℕ} {buf : Bytes} {E : Stop → Mem → Prop}
  {null : MemM UInt32}

/-! ## The null pointer as a parameter -/

def pteVia (null : MemM UInt32) (d v : ℕ) : MemM UInt32 := do
  match ← walkpgdir d v false with
  | none => null
  | some (t, i) => word t i

def uva2kaVia (null : MemM UInt32) (d v : ℕ) : MemM (Option ℕ) := do
  let pte ← pteVia null d v
  if pte &&& PTE_P = 0 then return none
  else if pte &&& PTE_U = 0 then return none
  else return some (PTE_ADDR pte)

def copyoutVia (null : MemM UInt32) (d va : ℕ) (buf : Bytes) (len : ℕ) : MemM Bool :=
  if len = 0 then return true
  else do
    match ← uva2kaVia null d (va / PGSIZE) with
    | none => return false
    | some pg =>
      if pg < Link.endPage ∨ PHYSTOP / PGSIZE ≤ pg then throw .overrun
      else
        let n := min len (PGSIZE - va % PGSIZE)
        modify fun m => m.setPage pg ((m.page pg).write (va % PGSIZE) n buf)
        copyoutVia null d ((va / PGSIZE + 1) * PGSIZE % 2 ^ 32) (fun i => buf (n + i)) (len - n)
termination_by len
decreasing_by
  have := Nat.mod_lt va (show 0 < PGSIZE by decide)
  omega

variable {pg : ℕ} {R : Option ℕ → Mem → Prop}

theorem copyout_eq_via (c d va : ℕ) (buf : Bytes) (len : ℕ) :
    copyout c d va buf len = copyoutVia (nullWord c) d va buf len := by
  induction len using Nat.strong_induction_on generalizing va buf with
  | h len ih =>
    rw [copyout, copyoutVia]
    by_cases hzero : len = 0
    · rw [if_pos hzero, if_pos hzero]
    rw [if_neg hzero, if_neg hzero]
    have hnext : len - min len (PGSIZE - va % PGSIZE) < len := by
      have := Nat.mod_lt va (show 0 < PGSIZE by decide)
      omega
    simp only [ih _ hnext]
    rfl

/-! ## User pages -/

/-- The page that the user reaches as page `v` of `d`. -/
def Mem.userPage (m : Mem) (d v : ℕ) : Option ℕ :=
  (m.pte d v).bind fun e => if e &&& PTE_U = 0 then none else some (PTE_ADDR e)

/-- The virtual page of the `k`-th byte from `va` on. -/
def pageAt (va k : ℕ) : ℕ := (va + k) % 2 ^ 32 / PGSIZE

/-- Every page of the range is present with `PTE_U`. -/
def AllUser (m : Mem) (d va len : ℕ) : Prop := ∀ k < len, m.userPage d (pageAt va k) ≠ none

/-- There is a page table for every page of the range up to the first that the user cannot reach. -/
def Tables (m : Mem) (d va len : ℕ) : Prop :=
  ∀ k < len, AllUser m d va k → m.tab d (pageAt va k / NPTENTRIES) ≠ none

/-- The range has the bytes of `buf`, and no other byte has changed. -/
structure Copied (d va len : ℕ) (buf : Bytes) (m m' : Mem) : Prop where
  pte : m'.pte d = m.pte d
  bytes : ∀ k < len, ∃ pg, m.userPage d (pageAt va k) = some pg ∧
    (m'.page pg).byte ((va + k) % PGSIZE) = buf k
  rest : ∀ pg i, (∀ k < len, m.userPage d (pageAt va k) = some pg → (va + k) % PGSIZE ≠ i) →
    (m'.page pg).byte i = (m.page pg).byte i

/-- What `copyout` should do. -/
def CopyoutPost (d va len : ℕ) (buf : Bytes) (m : Mem) (r : Bool) (m' : Mem) : Prop :=
  r = true ∧ AllUser m d va len ∧ Copied d va len buf m m' ∨
  r = false ∧ ¬ AllUser m d va len ∧ m'.pte d = m.pte d ∧
    ∀ pg, (∀ v, m.userPage d v ≠ some pg) → m'.page pg = m.page pg

omit [Link] in
theorem Mem.exists_of_userPage (h : m.userPage d v = some pg) :
    ∃ e, m.pte d v = some e ∧ e &&& PTE_U ≠ 0 ∧ PTE_ADDR e = pg := by
  unfold userPage at h
  cases he : m.pte d v with
  | none => simp [he] at h
  | some e =>
    rw [he, bind_some] at h
    split_ifs at h with hu
    exact ⟨e, rfl, hu, Option.some.inj h⟩

section

variable (h : SpaceOk m d F)
include h

section

variable (hv : m.userPage d v = some pg)
include hv

theorem SpaceOk.userPage_lt : v < 2 ^ 19 := by
  obtain ⟨e, he, hu, -⟩ := exists_of_userPage hv
  by_contra hge
  exact hu (h.kernel v e (by omega) he)

theorem SpaceOk.userPage_inj {u : ℕ} (hu : m.userPage d u = some pg) : v = u := by
  have hvlt := h.userPage_lt hv
  have hult := h.userPage_lt hu
  obtain ⟨e, he, -, hpg⟩ := exists_of_userPage hv
  obtain ⟨e', he', -, hpg'⟩ := exists_of_userPage hu
  have hheld : m.Holds d (some (.user v)) pg := ⟨hvlt, by rw [he, map_some, hpg]⟩
  have hheld' : m.Holds d (some (.user u)) pg := ⟨hult, by rw [he', map_some, hpg']⟩
  cases h.excl _ _ _ hheld hheld'
  rfl

theorem SpaceOk.userPage_range : ¬ (pg < Link.endPage ∨ PHYSTOP / PGSIZE ≤ pg) := by
  have hlt := h.userPage_lt hv
  obtain ⟨e, he, -, hpg⟩ := exists_of_userPage hv
  have hr := h.range (some (.user v)) pg ⟨hlt, by rw [he, map_some, hpg]⟩
  omega

theorem SpaceOk.userPage_store {x : Page} :
    SpaceOk (m.setPage pg x) d F ∧ (m.setPage pg x).tab d = m.tab d ∧
      (m.setPage pg x).pte d = m.pte d := by
  have hlt := h.userPage_lt hv
  obtain ⟨e, he, -, rfl⟩ := exists_of_userPage hv
  obtain ⟨-, hnd, hnt⟩ := h.user_page hlt he
  exact ⟨h.setPage hnd.symm hnt, tab_setPage hnd.symm, pte_setPage hnd.symm hnt⟩

end

end

omit [Link] in
theorem Mem.userPage_congr (h : m'.pte d = m.pte d) (v : ℕ) : m'.userPage d v = m.userPage d v := by
  rw [userPage, h, userPage]

/-! ## One page -/

omit [Link] in
theorem wp_uva2kaVia (hv : v < 2 ^ 20) (ht : m.tab d (v / NPTENTRIES) ≠ none) :
    wp (uva2kaVia null d v) R E m ↔ R (m.userPage d v) m := by
  obtain ⟨t, ht⟩ := ne_none_iff_exists'.mp ht
  have hwalk : walkpgdir d v false m = .ok (some (t, v % NPTENTRIES)) m := by
    have hw : wp (walkpgdir d v false) (fun r m' => r = some (t, v % NPTENTRIES) ∧ m' = m)
        (fun _ _ => False) m := wp_walkpgdir_read hv ⟨by rw [ht]; rfl, rfl⟩
    obtain ⟨r, m', hrun, rfl, rfl⟩ := wp_exists_ok hw
    exact hrun
  unfold uva2kaVia pteVia
  rw [wp_bind, wp_bind, wp_of_ok hwalk]
  simp only [word, wp_bind, wp_get, wp_pure]
  unfold userPage pte present
  rw [ht, bind_some]
  by_cases hp : (m.page t).word (v % NPTENTRIES) &&& PTE_P = 0
  · rw [if_pos hp, if_neg (not_not_intro hp)]
    exact Iff.rfl
  rw [if_neg hp, if_pos hp, bind_some]
  split_ifs <;> exact Iff.rfl

omit [Link] in
theorem wp_uva2kaVia_missing {e : Stop} (hv : v < 2 ^ 20)
    (ht : m.tab d (v / NPTENTRIES) = none) : wp (uva2kaVia (throw e) d v) R E m ↔ E e m := by
  have hwalk : walkpgdir d v false m = .ok none m := by
    have hw : wp (walkpgdir d v false) (fun r m' => r = none ∧ m' = m) (fun _ _ => False) m :=
      wp_walkpgdir_read hv ⟨by rw [ht]; rfl, rfl⟩
    obtain ⟨r, m', hrun, rfl, rfl⟩ := wp_exists_ok hw
    exact hrun
  unfold uva2kaVia pteVia
  rw [wp_bind, wp_bind, wp_of_ok hwalk]
  exact Iff.rfl

/-! ## The range page by page -/

def chunk (va len : ℕ) : ℕ := min len (PGSIZE - va % PGSIZE)

def nextPage (va : ℕ) : ℕ := (va / PGSIZE + 1) * PGSIZE % 2 ^ 32

omit [Link] in
theorem pageAt_chunk (hva : va < 2 ^ 32) (hk : k < chunk va len) :
    pageAt va k = va / PGSIZE ∧ (va + k) % PGSIZE = va % PGSIZE + k := by
  simp only [pageAt, chunk, PGSIZE] at *
  omega

omit [Link] in
theorem pageAt_nextPage (hk : k < len - chunk va len) :
    pageAt va (chunk va len + k) = pageAt (nextPage va) k ∧
      (va + (chunk va len + k)) % PGSIZE = (nextPage va + k) % PGSIZE := by
  simp only [pageAt, chunk, nextPage, PGSIZE] at *
  omega

omit [Link] in
theorem chunk_pos (va : ℕ) (hlen : len ≠ 0) : 0 < chunk va len := by
  have := mod_lt va (show 0 < PGSIZE by decide)
  unfold chunk
  omega

omit [Link] in
theorem allUser_iff (hva : va < 2 ^ 32) (hlen : len ≠ 0) :
    AllUser m d va len ↔
      m.userPage d (va / PGSIZE) ≠ none ∧ AllUser m d (nextPage va) (len - chunk va len) := by
  have hpos := chunk_pos va hlen
  constructor
  · intro h
    refine ⟨?_, fun k hk => ?_⟩
    · rw [← (pageAt_chunk hva hpos).1]
      exact h 0 (by omega)
    · rw [← (pageAt_nextPage hk).1]
      exact h _ (by omega)
  · rintro ⟨hfirst, hrest⟩ k hk
    by_cases hc : k < chunk va len
    · rw [(pageAt_chunk hva hc).1]
      exact hfirst
    · obtain ⟨j, rfl⟩ := Nat.exists_eq_add_of_le (not_lt.1 hc)
      have hj : j < len - chunk va len := by omega
      rw [(pageAt_nextPage hj).1]
      exact hrest j hj

omit [Link] in
theorem tables_iff (hva : va < 2 ^ 32) (hlen : len ≠ 0) :
    Tables m d va len ↔ m.tab d (va / PGSIZE / NPTENTRIES) ≠ none ∧
      (m.userPage d (va / PGSIZE) ≠ none → Tables m d (nextPage va) (len - chunk va len)) := by
  have hpos := chunk_pos va hlen
  -- a byte behind the first page is reached if this page and all between are user pages
  have hreach : ∀ j, j < len - chunk va len → (AllUser m d va (chunk va len + j) ↔
      m.userPage d (va / PGSIZE) ≠ none ∧ AllUser m d (nextPage va) j) := by
    intro j hj
    have hsame : chunk va (chunk va len + j) = chunk va len := by
      unfold chunk at *
      omega
    rw [allUser_iff hva (by omega), hsame, Nat.add_sub_cancel_left]
  constructor
  · intro h
    refine ⟨?_, fun hu j hj hbefore => ?_⟩
    · rw [← (pageAt_chunk hva hpos).1]
      exact h 0 (by omega) fun _ hk => absurd hk (Nat.not_lt_zero _)
    · rw [← (pageAt_nextPage hj).1]
      exact h _ (by omega) ((hreach j hj).2 ⟨hu, hbefore⟩)
  · rintro ⟨hfirst, hrest⟩ k hk hbefore
    by_cases hc : k < chunk va len
    · rw [(pageAt_chunk hva hc).1]
      exact hfirst
    · obtain ⟨j, rfl⟩ := Nat.exists_eq_add_of_le (not_lt.1 hc)
      have hj : j < len - chunk va len := by omega
      obtain ⟨hu, hbefore⟩ := (hreach j hj).1 hbefore
      rw [(pageAt_nextPage hj).1]
      exact hrest hu j hj hbefore

omit [Link] in
theorem nextPage_lt (va : ℕ) : nextPage va < 2 ^ 32 := Nat.mod_lt _ (by decide)

section

variable (h : SpaceOk m d F)
include h

theorem SpaceOk.pageAt_ne (hfirst : va / PGSIZE < 2 ^ 19)
    (hrest : AllUser m d (nextPage va) len) (hk : k < len) : pageAt (nextPage va) k ≠ va / PGSIZE := by
  intro heq
  have hj : 2 ^ 31 - nextPage va < len := by
    simp only [pageAt, nextPage, PGSIZE] at *
    omega
  obtain ⟨pg, hpg⟩ := ne_none_iff_exists'.mp (hrest _ hj)
  have hlt := h.userPage_lt hpg
  simp only [pageAt, nextPage, PGSIZE] at *
  omega

/-! ## The loop -/

theorem Copied.cons (hva : va < 2 ^ 32)
    (hpg : m.userPage d (va / PGSIZE) = some pg)
    (hrest : AllUser m d (nextPage va) (len - chunk va len))
    (hc : Copied d (nextPage va) (len - chunk va len) (fun i => buf (chunk va len + i))
      (m.setPage pg ((m.page pg).write (va % PGSIZE) (chunk va len) buf)) m') :
    Copied d va len buf m m' := by
  obtain ⟨-, -, hpte⟩ := h.userPage_store (x := (m.page pg).write (va % PGSIZE) (chunk va len) buf) hpg
  have huser := userPage_congr hpte
  have hfit : va % PGSIZE + chunk va len ≤ PGSIZE := by
    have := Nat.mod_lt va (show 0 < PGSIZE by decide)
    unfold chunk
    omega
  refine ⟨hc.pte.trans hpte, fun k hk => ?_, fun q i hq => ?_⟩
  · by_cases hin : k < chunk va len
    · obtain ⟨hpage, hoff⟩ := pageAt_chunk hva hin
      refine ⟨pg, hpage ▸ hpg, ?_⟩
      rw [hc.rest pg, setPage_page_self, hoff, Buffer.byte_write_inside hin (by omega)]
      intro j hj hjpg
      rw [huser] at hjpg
      exact absurd (h.userPage_inj hjpg hpg) (h.pageAt_ne (h.userPage_lt hpg) hrest hj)
    · obtain ⟨j, rfl⟩ := Nat.exists_eq_add_of_le (not_lt.1 hin)
      have hj : j < len - chunk va len := by omega
      obtain ⟨hpage, hoff⟩ := pageAt_nextPage hj
      obtain ⟨q, hq, hbyte⟩ := hc.bytes j hj
      rw [huser] at hq
      exact ⟨q, hpage ▸ hq, hoff ▸ hbyte⟩
  · rw [hc.rest q i]
    · by_cases hqpg : q = pg
      · subst hqpg
        rw [setPage_page_self]
        apply Buffer.byte_write_outside
        by_contra hin
        have hk : i - va % PGSIZE < chunk va len := by omega
        obtain ⟨hpage, hoff⟩ := pageAt_chunk hva hk
        exact hq _ (by unfold chunk at hk; omega) (hpage ▸ hpg) (by omega)
      · rw [setPage_page_ne hqpg]
    · intro j hj hjq
      rw [huser] at hjq
      obtain ⟨hpage, hoff⟩ := pageAt_nextPage hj
      rw [← hoff]
      exact hq _ (by omega) (hpage ▸ hjq)

theorem wp_copyoutVia (hva : va < 2 ^ 32) (ht : Tables m d va len) :
    wp (copyoutVia null d va buf len) (CopyoutPost d va len buf m) E m := by
  induction len using Nat.strong_induction_on generalizing m va buf with
  | h len ih =>
    rw [copyoutVia]
    by_cases hzero : len = 0
    · subst hzero
      rw [if_pos rfl, wp_pure]
      exact .inl ⟨rfl, nofun, rfl, nofun, fun _ _ _ => rfl⟩
    have hv : va / PGSIZE < 2 ^ 20 := by
      simp only [PGSIZE]
      omega
    obtain ⟨htab, hnext⟩ := (tables_iff hva hzero).1 ht
    rw [if_neg hzero, wp_bind, wp_uva2kaVia hv htab]
    cases hpg : m.userPage d (va / PGSIZE) with
    | none =>
      refine .inr ⟨rfl, fun hall => ?_, rfl, fun _ _ => rfl⟩
      exact ((allUser_iff hva hzero).1 hall).1 hpg
    | some pg =>
      simp only
      rw [if_neg (h.userPage_range hpg), wp_bind, wp_modify]
      obtain ⟨hok, htab', hpte⟩ :=
        h.userPage_store (x := (m.page pg).write (va % PGSIZE) (chunk va len) buf) hpg
      have huser := userPage_congr hpte
      have hall : ∀ n, AllUser (m.setPage pg ((m.page pg).write (va % PGSIZE) (chunk va len) buf)) d
          (nextPage va) n ↔ AllUser m d (nextPage va) n := by
        intro n
        unfold AllUser
        simp only [huser]
      have hstep : len - chunk va len < len := by
        have := chunk_pos va hzero
        omega
      have htables : Tables (m.setPage pg ((m.page pg).write (va % PGSIZE) (chunk va len) buf)) d
          (nextPage va) (len - chunk va len) := by
        intro k hk hbefore
        rw [htab']
        exact hnext (by rw [hpg]; exact some_ne_none pg) k hk ((hall k).1 hbefore)
      refine wp_post (ih _ hstep hok (nextPage_lt va) htables) ?_
      rintro r m' (⟨rfl, hrest, hc⟩ | ⟨rfl, hno, hsame, hothers⟩)
      · replace hrest := (hall _).1 hrest
        refine .inl ⟨rfl, (allUser_iff hva hzero).2 ⟨by rw [hpg]; exact some_ne_none pg, hrest⟩, ?_⟩
        exact Copied.cons h hva hpg hrest hc
      · refine .inr ⟨rfl, fun hyes => ?_, hsame.trans hpte, fun q hq => ?_⟩
        · exact hno ((hall _).2 ((allUser_iff hva hzero).1 hyes).2)
        · rw [hothers q fun v hv => hq v ((huser v).symm.trans hv)]
          exact setPage_page_ne fun heq => hq _ (heq ▸ hpg)

theorem tables_of_wp {R : Bool → Mem → Prop} (hva : va < 2 ^ 32)
    (hw : wp (copyoutVia (throw .overrun) d va buf len) R (fun _ _ => False) m) : Tables m d va len := by
  induction len using Nat.strong_induction_on generalizing m va buf with
  | h len ih =>
    by_cases hzero : len = 0
    · subst hzero
      exact nofun
    have hv : va / PGSIZE < 2 ^ 20 := by
      simp only [PGSIZE]
      omega
    rw [copyoutVia, if_neg hzero, wp_bind] at hw
    rw [tables_iff hva hzero]
    by_cases htab : m.tab d (va / PGSIZE / NPTENTRIES) = none
    · rw [wp_uva2kaVia_missing hv htab] at hw
      exact hw.elim
    refine ⟨htab, fun hu => ?_⟩
    obtain ⟨pg, hpg⟩ := ne_none_iff_exists'.mp hu
    rw [wp_uva2kaVia hv htab, hpg] at hw
    simp only at hw
    rw [if_neg (h.userPage_range hpg), wp_bind, wp_modify] at hw
    obtain ⟨hok, htab', hpte⟩ :=
      h.userPage_store (x := (m.page pg).write (va % PGSIZE) (chunk va len) buf) hpg
    have huser := userPage_congr hpte
    have hstep : len - chunk va len < len := by
      have := chunk_pos va hzero
      omega
    have hnext := ih _ hstep hok (nextPage_lt va) hw
    intro k hk hbefore
    have hmiss := hnext k hk fun j hj => by rw [huser]; exact hbefore j hj
    rwa [htab'] at hmiss

end

/-! ## Directories that are built by setupkvm and allocuvm -/

/-- Starting from `m₀`, `setupkvm` has returned `d`, and `allocuvm` has grown it to size `sz`, with the
guard pages that `exec` makes with `clearpteu`. -/
inductive Made (m₀ : Mem) (d : ℕ) : UInt32 → Mem → Prop
  | setupkvm {m : Mem} (h : setupkvm m₀ = .ok (some d) m) : Made m₀ d 0 m
  | allocuvm {m m' : Mem} {sz newsz r : UInt32} (hm : Made m₀ d sz m)
      (h : allocuvm d sz newsz m = .ok r m') : Made m₀ d (if r = 0 then sz else r) m'
  | clearpteu {m m' : Mem} {sz : UInt32} {v : ℕ} (hm : Made m₀ d sz m) (hv : v < pagesOf sz)
      (h : clearpteu d v m = .ok () m') : Made m₀ d sz m'

theorem Made.image {sz : UInt32} (hpool : PoolOk m₀ F) (h : Made m₀ d sz m) : Image F d sz m₀ m := by
  induction h with
  | setupkvm h =>
    have hw : wp Vm.setupkvm (fun r m' => ∀ d, r = some d → Image F d 0 m₀ m') (fun _ _ => True) m₀ :=
      wp_setupkvm hpool (fun _ _ hr => nomatch hr) (fun _ _ _ _ hr => nomatch hr)
        fun d m' hb d' hr => Option.some.inj hr ▸ hb.image
    exact wp_ok hw h d rfl
  | @allocuvm m m' sz newsz r hm h ih =>
    have hw : wp (Vm.allocuvm d sz newsz) _ (fun _ _ => True) m :=
      wp_allocuvm ih.opened.ok ih.shape.size ih.shape.none_above
    rcases wp_ok hw h with ⟨rfl, hr, -⟩ | ⟨hlt, rfl, rfl⟩ | ⟨hle, hsize, rfl, hg⟩
    · rw [if_pos rfl]
      exact ⟨hr.toKeeps.opened ih.opened, hr.shape ih.shape, hr.refuse.trans ih.refuse⟩
    · by_cases hr : r = 0
      · rwa [if_pos hr]
      · rwa [if_neg hr]
    · have himg : Image F d r m₀ m' :=
        ⟨hg.toKeeps.opened ih.opened, hg.shape ih.shape hsize hle, hg.refuse.trans ih.refuse⟩
      by_cases hr : r = 0
      · subst hr
        obtain rfl : sz = 0 := by
          have := UInt32.le_iff_toNat_le.mp hle
          exact UInt32.toNat_inj.mp (le_zero.mp this)
        rwa [if_pos rfl]
      · rwa [if_neg hr]
  | clearpteu hm hv h ih => exact (wp_ok (wp_clearpteu (E := fun _ _ => True) ih hv) h).1

/-- `copyout` never goes through a missing table, and does what it should whatever a null pointer would
yield, just if there are tables for all pages that it looks up. -/
theorem copyout_user_only_iff {sz : UInt32} (hpool : PoolOk m₀ F) (hmade : Made m₀ d sz m)
    (hva : va < 2 ^ 32) (buf : Bytes) :
    (∀ null : MemM UInt32,
      wp (copyoutVia null d va buf len) (CopyoutPost d va len buf m) (fun _ _ => False) m) ↔
    Tables m d va len := by
  have hok := (hmade.image hpool).opened.ok
  exact ⟨fun h => tables_of_wp hok hva (h (throw .overrun)), fun h null => wp_copyoutVia hok hva h⟩

theorem Mem.Ample.made (ha : m₀.Ample 65) (hpool : PoolOk m₀ F) :
    ∃ d m, Made m₀ d 0 m ∧ ∀ i, (m.tab d i).isSome ↔ i ∈ kernelSlots := by
  have hw : wp setupkvm (fun r m => ∃ d, r = some d ∧ Built F d m₀ m) (fun _ _ => False) m₀ := by
    refine wp_setupkvm hpool ?_ ?_ ?_
    · intro hr
      exact (ha.not_refuses (by omega) hr).elim
    · intro d m hl
      exact (hl.paid.grants ha hl.last hl.refused).elim
    · intro d m hb
      exact ⟨d, rfl, hb⟩
  obtain ⟨_, m, hrun, d, rfl, hb⟩ := wp_exists_ok hw
  exact ⟨d, m, .setupkvm hrun, hb.tables⟩

omit [Link] in
theorem tables_kernel (htab : ∀ i, (m.tab d i).isSome ↔ i ∈ kernelSlots) : Tables m d KERNBASE 1 := by
  intro k hk _
  obtain rfl : k = 0 := by omega
  have hslot : pageAt KERNBASE 0 / NPTENTRIES = 512 := by decide
  rw [hslot]
  exact isSome_iff_ne_none.1 ((htab 512).2 (mem_kernelSlots.2 (.inl ⟨le_rfl, by omega⟩)))

omit [Link] in
theorem not_tables_user (htab : ∀ i, (m.tab d i).isSome ↔ i ∈ kernelSlots) : ¬ Tables m d 0 1 := by
  intro h
  have hsome := isSome_iff_ne_none.2 (h 0 (by omega) nofun)
  rcases mem_kernelSlots.1 ((htab _).1 hsome) with h | h
  · exact absurd h.1 (by decide)
  · exact absurd h.1 (by decide)

/-- Just the pages that `setupkvm` needs. -/
def freshPool : Mem := ⟨fun _ => .zero, List.range' 400 65, 0, fun _ => false, false⟩

omit [Link] in
theorem freshPool_ok : @PoolOk smallKernel freshPool ∅ := by
  refine @PoolOk.mk smallKernel freshPool ∅ (List.nodup_range' ..) (fun _ _ => id) ?_ rfl
  intro pg hpg
  obtain ⟨i, hi, rfl⟩ := List.mem_range'.mp hpg
  exact ⟨by show 300 ≤ _; omega, by simp only [PHYSTOP, PGSIZE]; omega⟩

omit [Link] in
theorem freshPool_ample : freshPool.Ample 65 := ⟨rfl, List.length_range'.ge⟩

omit [Link] in
theorem copyout_user_only_iff_kernel : ∃ d m, @Made smallKernel freshPool d 0 m ∧
    ∀ null : MemM UInt32, wp (@copyoutVia smallKernel null d KERNBASE (fun _ => 0) 1)
      (CopyoutPost d KERNBASE 1 (fun _ => 0) m) (fun _ _ => False) m := by
  obtain ⟨d, m, hmade, htab⟩ := @Mem.Ample.made smallKernel _ _ freshPool_ample freshPool_ok
  exact ⟨d, m, hmade, (@copyout_user_only_iff smallKernel _ _ _ _ _ _ _ freshPool_ok hmade (by decide) _).2
    (tables_kernel htab)⟩

omit [Link] in
/-- Nothing is mapped at address 0 of a new directory, not even a table. -/
theorem copyout_missing_table : ∃ d m, @Made smallKernel freshPool d 0 m ∧
    ¬ ∀ null : MemM UInt32, wp (@copyoutVia smallKernel null d 0 (fun _ => 0) 1)
      (CopyoutPost d 0 1 (fun _ => 0) m) (fun _ _ => False) m := by
  obtain ⟨d, m, hmade, htab⟩ := @Mem.Ample.made smallKernel _ _ freshPool_ample freshPool_ok
  refine ⟨d, m, hmade, fun hgood => ?_⟩
  have himage := @Made.image smallKernel _ _ _ _ _ freshPool_ok hmade
  have hok := @Opened.ok smallKernel _ _ _ _ (@Image.opened smallKernel _ _ _ _ _ himage)
  exact not_tables_user htab (@tables_of_wp smallKernel _ _ _ _ _ _ hok _ (by decide) (hgood (throw .overrun)))

end Xv6.Vm
