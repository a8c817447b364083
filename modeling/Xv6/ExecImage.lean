import Xv6.UserCopy

/-!
# The image that exec builds

`exec` fills a new directory page by page: it is always a directory of the shape that its size says,
and the only other pages that are written are its own user pages. The exception is `uva2ka` with an
address for which there is no table. Below the size of the image all tables exist, and above the
kernel's devices too; a string that is shorter than the device space cannot be pushed to anything
in between.
-/

namespace Xv6.Vm

open Resumption ByteLayout Custody Function UInt32 Option Nat Mem

variable [Link] {m m' m₁ m₂ : Mem} {c d v : ℕ} {sz : UInt32} {F : Set ℕ} {E : Stop → Mem → Prop}

/-! ## Shape -/

/-- Directory `d` maps the user pages below `sz` and the kernel half as `setupkvm` does. -/
structure Shape (m : Mem) (d : ℕ) (sz : UInt32) : Prop where
  size : sz.toNat < KERNBASE
  user : ∀ v < 2 ^ 19, m.pte d v ≠ none ↔ v < pagesOf sz
  kernel : ∀ v, 2 ^ 19 ≤ v → m.pte d v = kernelPte v

variable {newsz e sp : UInt32} {va len : ℕ} {buf elf : Bytes} {argv : List (List UInt8)}
  {f : ElfFile}

omit [Link] in
theorem pagesOf_le (h : sz.toNat < KERNBASE) : pagesOf sz ≤ 2 ^ 19 := by
  unfold pagesOf
  simp only [PGSIZE, KERNBASE] at *
  omega

/-- An image on the way from `m`: made of the free pages of `m`, of shape `sz`. -/
structure Image (F : Set ℕ) (d : ℕ) (sz : UInt32) (m m' : Mem) : Prop where
  opened : Opened F d m m'
  shape : Shape m' d sz
  refuse : m'.refuse = m.refuse

theorem Shape.none_above (h : Shape m d sz) :
    ∀ u, pagesOf sz ≤ u → u < 2 ^ 19 → m.pte d u = none := by
  intro u hu hlt
  by_contra hp
  have := (h.user u hlt).mp hp
  omega

theorem Shape.segment (h : Shape m d sz) : m.Segment d 0 := by
  intro a b _ hab ha hpa
  have := (h.user a ha).mp hpa
  exact (h.user b (by omega)).mpr (by omega)

theorem Built.image (h : Built F d m m') : Image F d 0 m m' := by
  refine ⟨h.opened, ⟨by decide, ?_, fun v _ => h.pte v⟩, h.paid.refuse⟩
  intro v hv
  have hzero : pagesOf 0 = 0 := rfl
  rw [h.pte, kernelPte_low hv, hzero]
  simp

theorem Gains.shape {New : ℕ → UInt32 → Page → Prop} (h : Shape m d sz)
    (hsize : newsz.toNat < KERNBASE) (hle : sz ≤ newsz)
    (hg : Gains New d F (pagesOf sz) (pagesOf newsz) m m') : Shape m' d newsz := by
  have hle' : sz.toNat ≤ newsz.toNat := le_iff_toNat_le.mp hle
  have hpages : pagesOf sz ≤ pagesOf newsz := by
    unfold pagesOf
    simp only [PGSIZE]
    omega
  have hlim := pagesOf_le hsize
  refine ⟨hsize, ?_, ?_⟩
  · intro v hv
    by_cases hin : pagesOf sz ≤ v ∧ v < pagesOf newsz
    · exact ⟨fun _ => hin.2, fun _ => hg.pte_new hin.1 hin.2⟩
    · rw [hg.same v hin, h.user v hv]
      omega
  · intro v hv
    rw [hg.same v (by omega), h.kernel v hv]

theorem Restored.shape (h : Shape m d sz) (hr : Restored d F m m') : Shape m' d sz :=
  ⟨h.size, fun v hv => by rw [hr.pte, h.user v hv], fun v hv => by rw [hr.pte, h.kernel v hv]⟩

theorem Keeps.opened (ho : Opened F d m m₁) (hk : Keeps d F m₁ m₂) : Opened F d m m₂ := by
  refine ⟨ho.head, hk.ok, ?_, hk.stock.trans ho.stock⟩
  intro pg hpg
  have hst : pg ∉ m₁.Stock d := by
    rw [ho.stock]
    exact hpg
  rw [hk.contents pg hst, ho.contents pg hpg]

theorem wp_allocuvm_image (h : Image F d sz m m₁) :
    wp (allocuvm d sz newsz) (fun r m' => ∃ sz', Image F d sz' m m' ∧
      (r = 0 ∨ r = sz' ∧ sz ≤ r ∧ newsz ≤ r)) E m₁ := by
  refine wp_post (wp_allocuvm h.opened.ok h.shape.size h.shape.none_above) ?_
  rintro r m' (⟨rfl, hr, -⟩ | ⟨hlt, rfl, rfl⟩ | ⟨hle, hsize, rfl, hg⟩)
  · exact ⟨sz, ⟨hr.toKeeps.opened h.opened, hr.shape h.shape, hr.refuse.trans h.refuse⟩, .inl rfl⟩
  · exact ⟨r, h, .inr ⟨rfl, UInt32.le_refl r, UInt32.le_of_lt hlt⟩⟩
  · exact ⟨r, ⟨hg.toKeeps.opened h.opened, hg.shape h.shape hsize hle, hg.refuse.trans h.refuse⟩,
      .inr ⟨rfl, hle, UInt32.le_refl r⟩⟩

/-! ## Writing to user pages -/

theorem Image.write {x : Page} (h : Image F d sz m m₁) (hv : v < 2 ^ 19)
    (he : m₁.pte d v = some e) : Image F d sz m (m₁.setPage (PTE_ADDR e) x) := by
  obtain ⟨-, hnd, hnt⟩ := h.opened.ok.user_page hv he
  have htab : (m₁.setPage (PTE_ADDR e) x).tab d = m₁.tab d := tab_setPage (Ne.symm hnd)
  have hpte : (m₁.setPage (PTE_ADDR e) x).pte d = m₁.pte d := pte_setPage (Ne.symm hnd) hnt
  have hfree : (m₁.setPage (PTE_ADDR e) x).freelist = m₁.freelist := rfl
  have hpg : PTE_ADDR e ∈ m.freelist := by
    have hst : PTE_ADDR e ∈ m₁.Stock d := ⟨some (.user v), hv, by rw [he]; rfl⟩
    rw [h.opened.stock] at hst
    exact hst
  refine ⟨⟨h.opened.head, h.opened.ok.setPage (Ne.symm hnd) hnt, ?_, ?_⟩, ⟨h.shape.size, ?_, ?_⟩,
    h.refuse⟩
  · intro pg hno
    have hne : pg ≠ PTE_ADDR e := by
      rintro rfl
      exact hno hpg
    rw [setPage_page_ne hne]
    exact h.opened.contents pg hno
  · rw [stock_congr hfree htab fun v _ => congrFun hpte v]
    exact h.opened.stock
  · rw [hpte]
    exact h.shape.user
  · rw [hpte]
    exact h.shape.kernel

/-- What holds of the image of size `sz` while `exec` loads the segments. -/
structure ImageInv (F : Set ℕ) (d : ℕ) (m : Mem) (E : Stop → Mem → Prop) (P : UInt32 → Mem → Prop) :
    Prop where
  image : ∀ {sz m₁}, P sz m₁ → Image F d sz m m₁
  write : ∀ {sz m₁ v e k} (src : Bytes), P sz m₁ → v < 2 ^ 19 → m₁.pte d v = some e → k ≤ PGSIZE →
    P sz (m₁.setPage (PTE_ADDR e) ((m₁.page (PTE_ADDR e)).write 0 k src))
  alloc : ∀ {sz m₁} (newsz : UInt32), P sz m₁ → wp (allocuvm d sz newsz) (fun r m' => ∃ sz', P sz' m' ∧
    (r = 0 ∨ r = sz' ∧ sz ≤ r ∧ newsz ≤ r)) E m₁

theorem Image.inv : ImageInv F d m E fun sz m₁ => Image F d sz m m₁ :=
  ⟨fun h => h, fun _ h hv he _ => h.write hv he, fun _ h => wp_allocuvm_image h⟩

/-! ## loaduvm -/

section

variable {P : UInt32 → Mem → Prop} (hinv : ImageInv F d m E P)

include hinv

variable {f : ElfFile} {addr offset : UInt32} {n i : ℕ}

theorem wp_loadLoop (h : P sz m₁) (hend : addr.toNat + n ≤ sz.toNat) :
    wp (loadLoop f d addr offset n i) (fun _ m' => P sz m') E m₁ := by
  have hsize := (hinv.image h).shape.size
  simp only [KERNBASE] at hsize
  generalize hk : n - i = k
  induction k using Nat.strong_induction_on generalizing m₁ i with
  | h k ih =>
    rw [loadLoop]
    by_cases hi : i < n
    · have hv : (addr.toNat + i) / PGSIZE < 2 ^ 19 := by
        simp only [PGSIZE]
        omega
      have hpres : m₁.pte d ((addr.toNat + i) / PGSIZE) ≠ none := by
        rw [(hinv.image h).shape.user _ hv]
        unfold pagesOf
        simp only [PGSIZE]
        omega
      obtain ⟨e, he⟩ := ne_none_iff_exists'.mp hpres
      obtain ⟨t, ht, hword, -⟩ := Mem.pte_eq_some he
      rw [if_pos hi, wp_bind]
      apply wp_walkpgdir_read (by omega)
      rw [ht]
      simp only [map_some, word, wp_bind, wp_get, wp_pure]
      rw [← hword]
      cases f.read (offset + UInt32.ofNat i) (UInt32.ofNat (min (n - i) PGSIZE)) with
      | none => exact h
      | some l =>
        simp only [wp_bind, wp_modify]
        have hw := hinv.write (k := min l.length (min (n - i) PGSIZE)) (fun b => l.getD b 0) h hv he
          (by omega)
        rw [wp_ite]
        refine ⟨fun _ => hw, fun _ => ?_⟩
        refine ih _ ?_ hw rfl
        simp only [PGSIZE]
        omega
    · rw [if_neg hi, wp_pure]
      exact h

theorem wp_loaduvm {n : UInt32} (h : P sz m₁)
    (halign : addr.toNat % PGSIZE = 0) (hend : addr.toNat + n.toNat ≤ sz.toNat) :
    wp (loaduvm f d addr offset n) (fun _ m' => P sz m') E m₁ := by
  unfold loaduvm
  rw [if_neg (not_not.mpr halign)]
  exact wp_loadLoop hinv h hend

theorem wp_loadSegments {phoff : UInt32} (h : P sz m₁) :
    wp (loadSegments f d phoff n i sz) (fun r m' => ∃ sz', P sz' m' ∧
      (r = none ∨ r = some sz')) E m₁ := by
  induction n generalizing m₁ i sz with
  | zero => exact ⟨sz, h, .inr rfl⟩
  | succ n ih =>
    rw [loadSegments]
    cases f.read (phoff + UInt32.ofNat (PROGHDRSIZE * i)) (UInt32.ofNat PROGHDRSIZE) with
    | none => exact ⟨sz, h, .inl rfl⟩
    | some l =>
      simp only
      generalize (fun j => l.getD j 0 : Bytes) = ph
      by_cases hlen : l.length ≠ PROGHDRSIZE
      · rw [if_pos hlen]
        exact ⟨sz, h, .inl rfl⟩
      rw [if_neg hlen]
      by_cases htype : get32 ph 0 ≠ ELF_PROG_LOAD
      · rw [if_pos htype]
        exact ih h
      rw [if_neg htype]
      by_cases hmem : get32 ph 20 < get32 ph 16
      · rw [if_pos hmem]
        exact ⟨sz, h, .inl rfl⟩
      rw [if_neg hmem]
      by_cases hwrap : get32 ph 8 + get32 ph 20 < get32 ph 8
      · rw [if_pos hwrap]
        exact ⟨sz, h, .inl rfl⟩
      rw [if_neg hwrap, wp_bind]
      refine wp_post (hinv.alloc _ h) ?_
      rintro r m' ⟨sz', himg, hr⟩
      by_cases hzero : r = 0
      · rw [if_pos hzero]
        exact ⟨sz', himg, .inl rfl⟩
      obtain ⟨rfl, hle, hnew⟩ := hr.resolve_left hzero
      rw [if_neg hzero]
      by_cases halign : (get32 ph 8).toNat % PGSIZE ≠ 0
      · rw [if_pos halign]
        exact ⟨r, himg, .inl rfl⟩
      rw [if_neg halign, wp_bind]
      refine wp_post (wp_loaduvm hinv himg (not_not.mp halign) ?_) ?_
      · have h₁ := toNat_add_of_not_lt hwrap
        have h₂ : (get32 ph 8 + get32 ph 20).toNat ≤ r.toNat := UInt32.le_iff_toNat_le.mp hnew
        have h₃ : (get32 ph 16).toNat ≤ (get32 ph 20).toNat :=
          UInt32.le_iff_toNat_le.mp (UInt32.not_lt.mp hmem)
        omega
      · intro b m'' himg'
        cases b with
        | true => exact ih himg'
        | false => exact ⟨r, himg', .inl rfl⟩

end

/-! ## The stack -/

omit [Link] in
theorem present_clear (he : e &&& PTE_P ≠ 0) :
    present (e &&& ~~~PTE_U) = some (e &&& ~~~PTE_U) ∧ PTE_ADDR (e &&& ~~~PTE_U) = PTE_ADDR e := by
  constructor
  · unfold present
    have hmask : ~~~PTE_U &&& PTE_P = PTE_P := by decide
    rw [UInt32.and_assoc, hmask, if_pos he]
  · unfold PTE_ADDR
    have hmask : (~~~PTE_U).toNat >>> 12 = 2 ^ 20 - 1 := by decide
    rw [UInt32.toNat_and, show PGSIZE = 2 ^ 12 from rfl, ← Nat.shiftRight_eq_div_pow,
      ← Nat.shiftRight_eq_div_pow, Nat.shiftRight_and_distrib, hmask,
      Nat.and_two_pow_sub_one_eq_mod, Nat.shiftRight_eq_div_pow]
    have := e.toNat_lt
    omega

theorem wp_clearpteu (h : Image F d sz m m₁) (hv : v < pagesOf sz) :
    wp (clearpteu d v) (fun _ m' => Image F d sz m m' ∧ m'.tab d = m₁.tab d ∧
      (∃ e, m₁.pte d v = some e ∧
        m'.pte d = update (m₁.pte d) v (some (e &&& ~~~PTE_U))) ∧
      ∀ pg, (∀ i, m₁.tab d i ≠ some pg) → m'.page pg = m₁.page pg) E m₁ := by
  have hlim := pagesOf_le h.shape.size
  obtain ⟨e, he⟩ := ne_none_iff_exists'.mp ((h.shape.user v (by omega)).mpr hv)
  obtain ⟨t, ht, hword, hp⟩ := pte_eq_some he
  obtain ⟨hpres, haddr⟩ := present_clear hp
  unfold clearpteu
  rw [wp_bind]
  apply wp_walkpgdir_read (by omega)
  rw [ht]
  simp only [map_some, word, setWord, wp_bind, wp_get, wp_pure, wp_modify]
  rw [← hword]
  have hok := h.opened.ok.storeFlags ht (by omega) he (by rw [hpres, map_some, haddr])
  have htab := h.opened.ok.tab_store ht (w := e &&& ~~~PTE_U)
  have hpte := h.opened.ok.pte_store ht (w := e &&& ~~~PTE_U)
  rw [hpres] at hpte
  have hfree : (m₁.setWord t (v % NPTENTRIES) (e &&& ~~~PTE_U)).freelist = m₁.freelist := rfl
  have hrefuse : (m₁.setWord t (v % NPTENTRIES) (e &&& ~~~PTE_U)).refuse = m₁.refuse := rfl
  have hpage : ∀ pg, pg ≠ t →
      (m₁.setWord t (v % NPTENTRIES) (e &&& ~~~PTE_U)).page pg = m₁.page pg :=
    fun pg hpg => setPage_page_ne hpg
  generalize m₁.setWord t (v % NPTENTRIES) (e &&& ~~~PTE_U) = m₂ at *
  refine ⟨⟨⟨h.opened.head, hok, ?_, ?_⟩, ⟨h.shape.size, ?_, ?_⟩, hrefuse.trans h.refuse⟩, htab,
    ⟨e, he, hpte⟩, fun pg hpg => hpage pg fun heq => hpg _ (heq ▸ ht)⟩
  · intro pg hpg
    have hne : pg ≠ t := by
      rintro rfl
      have hst : pg ∈ m₁.Stock d := ⟨some (.tab _), ht⟩
      rw [h.opened.stock] at hst
      exact hpg hst
    rw [hpage pg hne]
    exact h.opened.contents pg hpg
  · rw [← h.opened.stock]
    ext pg
    rw [mem_stock, mem_stock, hfree, htab]
    have huser : (∃ u < 2 ^ 19, (m₂.pte d u).map PTE_ADDR = some pg) ↔
        ∃ u < 2 ^ 19, (m₁.pte d u).map PTE_ADDR = some pg := by
      apply exists_congr
      intro u
      rw [hpte]
      by_cases huv : u = v
      · rw [huv, update_self, map_some, haddr, he, map_some]
      · rw [update_of_ne huv]
    rw [huser]
  · intro u hu
    rw [hpte]
    by_cases huv : u = v
    · rw [huv, update_self]
      simp [hv]
    · rw [update_of_ne huv, h.shape.user u hu]
  · intro u hu
    rw [hpte, update_of_ne (by omega), h.shape.kernel u hu]

omit [Link] in
theorem wp_uva2ka {R : Option ℕ → Mem → Prop} (hv : v < 2 ^ 20)
    (ht : m₁.tab d (v / NPTENTRIES) ≠ none) (hnone : R none m₁)
    (hsome : ∀ e, m₁.pte d v = some e → e &&& PTE_U ≠ 0 → R (some (PTE_ADDR e)) m₁) :
    wp (uva2ka c d v) R E m₁ := by
  obtain ⟨t, ht⟩ := ne_none_iff_exists'.mp ht
  unfold uva2ka pteWord
  rw [wp_bind, wp_bind]
  apply wp_walkpgdir_read hv
  rw [ht]
  simp only [map_some, word, wp_bind, wp_get, wp_pure]
  by_cases hp : (m₁.page t).word (v % NPTENTRIES) &&& PTE_P = 0
  · rw [if_pos hp]
    exact hnone
  rw [if_neg hp]
  by_cases hu : (m₁.page t).word (v % NPTENTRIES) &&& PTE_U = 0
  · rw [if_pos hu]
    exact hnone
  rw [if_neg hu]
  refine hsome _ ?_ hu
  unfold pte present
  rw [ht, bind_some, if_pos hp]

section

variable (h : Image F d sz m m₁)
include h

theorem wp_copyout (hend : va + len ≤ pagesOf sz * PGSIZE) :
    wp (copyout c d va buf len) (fun _ m' => Image F d sz m m') E m₁ := by
  have hlim := pagesOf_le h.shape.size
  induction len using Nat.strong_induction_on generalizing m₁ va buf with
  | h len ih =>
    rw [copyout]
    by_cases hzero : len = 0
    · rw [if_pos hzero, wp_pure]
      exact h
    have hva : va / PGSIZE < pagesOf sz := by
      simp only [PGSIZE] at hend ⊢
      omega
    rw [if_neg hzero, wp_bind]
    apply wp_uva2ka (by omega)
    · intro hno
      refine (h.shape.user (va / PGSIZE) (by omega)).mpr hva ?_
      unfold Mem.pte
      rw [hno]
      rfl
    · exact h
    intro e he _
    have hr := h.opened.ok.range (some (.user (va / PGSIZE))) (PTE_ADDR e)
      ⟨by omega, by rw [he]; rfl⟩
    simp only
    rw [if_neg (by omega), wp_bind, wp_modify]
    refine ih _ ?_ (h.write (by omega) he) ?_
    · have := Nat.mod_lt va (show 0 < PGSIZE by decide)
      omega
    · simp only [PGSIZE] at hend hlim ⊢
      omega

theorem wp_copyout_devices (hlen : 0 < len) (hlo : DEVSPACE ≤ va) (hhi : va < 2 ^ 32) :
    wp (copyout c d va buf len) (fun r m' => r = false ∧ m' = m₁) E m₁ := by
  have hv : va / PGSIZE < 2 ^ 20 := by
    simp only [PGSIZE]
    omega
  have hpte : m₁.pte d (va / PGSIZE) = some (mkPte (va / PGSIZE) (PTE_W ||| PTE_P)) := by
    have hend := Link.data_le
    have hlim := Link.end_lt
    simp only [DEVSPACE] at hlo
    rw [h.shape.kernel _ (by simp only [PGSIZE]; omega)]
    unfold kernelPte
    simp only [PGSIZE]
    rw [if_neg (by omega), if_neg (by omega), if_neg (by omega), if_pos (by omega)]
  rw [copyout, if_neg (by omega), wp_bind]
  apply wp_uva2ka hv
  · intro hno
    unfold pte at hpte
    rw [hno] at hpte
    cases hpte
  · exact ⟨rfl, rfl⟩
  · intro e he hu
    refine (hu (h.opened.ok.kernel _ e ?_ he)).elim
    simp only [DEVSPACE, PGSIZE] at hlo ⊢
    omega

/-- `copyout` of `len` bytes below `sp`, where `va` is `sp - len` up to rounding: it stays in the image
or ends in the device space. -/
theorem wp_copyout_below {sp : ℕ}
    (hsp : sp ≤ pagesOf sz * PGSIZE) (hlen : 0 < len) (hshort : len + 3 ≤ 2 ^ 32 - DEVSPACE)
    (hva : len ≤ sp ∧ va + len ≤ sp ∨ sp < len ∧ va < 2 ^ 32 ∧ 2 ^ 32 ≤ va + len + 3) :
    wp (copyout c d va buf len) (fun r m' => Image F d sz m m' ∧ (r = true → va ≤ sp)) E m₁ := by
  rcases hva with ⟨h₁, h₂⟩ | ⟨h₁, h₂, h₃⟩
  · refine wp_post (wp_copyout h (by omega)) ?_
    exact fun r m' himg => ⟨himg, fun _ => by omega⟩
  · refine wp_post (wp_copyout_devices h hlen ?_ h₂) ?_
    · simp only [DEVSPACE] at hshort ⊢
      omega
    · rintro r m' ⟨rfl, rfl⟩
      exact ⟨h, nofun⟩

end

/-- No argument is as long as the device space. -/
def ShortArgs (argv : List (List UInt8)) : Prop := ∀ s ∈ argv, s.length + 4 ≤ 2 ^ 32 - DEVSPACE

omit [Link] in
theorem toNat_sub_cases (sp : UInt32) (hlen : len < 2 ^ 32) :
    len ≤ sp.toNat ∧ (sp - UInt32.ofNat len).toNat + len = sp.toNat ∨
      sp.toNat < len ∧ (sp - UInt32.ofNat len).toNat + len = 2 ^ 32 + sp.toNat := by
  have hsp := sp.toNat_lt
  rw [UInt32.toNat_sub, UInt32.toNat_ofNat', Nat.mod_eq_of_lt hlen]
  omega

omit [Link] in
theorem toNat_round (x : UInt32) : (x &&& ~~~3).toNat = x.toNat / 4 * 4 := by
  rw [UInt32.toNat_and]
  exact and_high (show 2 ≤ 32 by decide) x.toNat_lt

omit [Link] in
theorem toNat_sub_round (hlen : len < 2 ^ 32) :
    len ≤ sp.toNat ∧ ((sp - UInt32.ofNat len) &&& ~~~3).toNat + len ≤ sp.toNat ∨
      sp.toNat < len ∧ ((sp - UInt32.ofNat len) &&& ~~~3).toNat < 2 ^ 32 ∧
        2 ^ 32 ≤ ((sp - UInt32.ofNat len) &&& ~~~3).toNat + len + 3 := by
  have hsub := toNat_sub_cases sp hlen
  have hlt := (sp - ofNat len).toNat_lt
  rw [toNat_round]
  omega

theorem wp_pushArgs {ptrs : List UInt32} (h : Image F d sz m m₁) (hargs : ShortArgs argv)
    (hsp : sp.toNat ≤ pagesOf sz * PGSIZE) (hptrs : ptrs.length ≤ MAXARG) :
    wp (pushArgs c d argv sp ptrs) (fun r m' => Image F d sz m m' ∧
      ∀ x, r = some x → x.1.toNat ≤ pagesOf sz * PGSIZE ∧ x.2.length ≤ MAXARG) E m₁ := by
  induction argv generalizing m₁ sp ptrs with
  | nil =>
    refine ⟨h, ?_⟩
    rintro x ⟨⟩
    exact ⟨hsp, hptrs⟩
  | cons s ss ih =>
    have hs := hargs s List.mem_cons_self
    rw [pushArgs]
    by_cases hmax : ptrs.length ≥ MAXARG
    · rw [if_pos hmax]
      exact ⟨h, nofun⟩
    have hlen : s.length + 1 < 2 ^ 32 := by
      simp only [DEVSPACE] at hs
      omega
    rw [if_neg hmax, wp_bind]
    refine wp_post (wp_copyout_below h hsp (by omega) (by omega) (toNat_sub_round hlen)) ?_
    rintro r m' ⟨himg, hr⟩
    cases r with
    | false => exact ⟨himg, nofun⟩
    | true =>
      rw [if_pos rfl]
      apply ih himg (fun s' hs' => hargs s' (List.mem_cons_of_mem _ hs'))
      · exact (hr rfl).trans hsp
      · rw [List.length_append, List.length_singleton]
        omega

omit [Link] in
theorem pagesOf_PGROUNDUP (h : sz.toNat < KERNBASE) : pagesOf (PGROUNDUP sz) = pagesOf sz := by
  simp only [KERNBASE] at h
  have hround : (PGROUNDUP sz).toNat = pagesOf sz * PGSIZE := toNat_PGROUNDUP (by omega)
  rw [pagesOf, hround]
  simp only [PGSIZE]
  omega

theorem Image.roundup (h : Image F d sz m m₁) (hlt : (PGROUNDUP sz).toNat < KERNBASE) :
    Image F d (PGROUNDUP sz) m m₁ := by
  refine ⟨h.opened, ⟨hlt, ?_, h.shape.kernel⟩, h.refuse⟩
  rw [pagesOf_PGROUNDUP h.shape.size]
  exact h.shape.user

omit [Link] in
theorem le_pagesOf_mul (sz : UInt32) : sz.toNat ≤ pagesOf sz * PGSIZE := by
  unfold pagesOf
  simp only [PGSIZE]
  omega

theorem wp_buildStack (h : Image F d sz m m₁) (hargs : ShortArgs argv) :
    wp (buildStack c d sz argv) (fun r m' => ∃ sz', Image F d sz' m m' ∧
      ∀ x, r = some x → x.1 = sz') E m₁ := by
  have hsize := h.shape.size
  simp only [KERNBASE] at hsize
  have hround : (PGROUNDUP sz).toNat = pagesOf sz * PGSIZE := toNat_PGROUNDUP (by omega)
  have hlim := pagesOf_le h.shape.size
  have hnew : (PGROUNDUP sz + UInt32.ofNat (2 * PGSIZE)).toNat = (PGROUNDUP sz).toNat + 8192 := by
    rw [UInt32.toNat_add]
    change ((PGROUNDUP sz).toNat + 8192) % 2 ^ 32 = _
    rw [hround]
    simp only [PGSIZE]
    omega
  unfold buildStack
  rw [wp_bind]
  generalize PGROUNDUP sz + UInt32.ofNat (2 * PGSIZE) = newsz at *
  by_cases hbig : newsz.toNat ≥ KERNBASE
  · unfold allocuvm
    rw [if_pos hbig, wp_pure, if_pos rfl]
    exact ⟨sz, h, nofun⟩
  have himg₀ : Image F d (PGROUNDUP sz) m m₁ := h.roundup (by omega)
  refine wp_post (wp_allocuvm_image himg₀) ?_
  rintro r m₂ ⟨sz', himg, hr⟩
  by_cases hzero : r = 0
  · rw [if_pos hzero]
    exact ⟨sz', himg, nofun⟩
  obtain ⟨rfl, -, hle⟩ := hr.resolve_left hzero
  have hle' : newsz.toNat ≤ r.toNat := UInt32.le_iff_toNat_le.mp hle
  have hguard : (r.toNat - 2 * PGSIZE) / PGSIZE < pagesOf r := by
    unfold pagesOf
    simp only [PGSIZE]
    omega
  rw [if_neg hzero, wp_bind]
  refine wp_post (wp_clearpteu himg hguard) ?_
  rintro _ m₃ ⟨himg₃, -⟩
  rw [wp_bind]
  refine wp_post (wp_pushArgs himg₃ hargs (le_pagesOf_mul r) (by simp)) ?_
  rintro x m₄ ⟨himg₄, hx⟩
  cases x with
  | none => exact ⟨r, himg₄, nofun⟩
  | some x =>
    obtain ⟨sp, ptrs⟩ := x
    have hsp : sp.toNat ≤ pagesOf r * PGSIZE := (hx _ rfl).1
    have hptrs : ptrs.length ≤ 32 := (hx _ rfl).2
    have hsub := toNat_sub_cases sp (show (3 + ptrs.length + 1) * 4 < 2 ^ 32 by omega)
    have hlt := (sp - UInt32.ofNat ((3 + ptrs.length + 1) * 4)).toNat_lt
    simp only [wp_bind]
    refine wp_post (wp_copyout_below himg₄ hsp (by omega) (by simp only [DEVSPACE]; omega) ?_) ?_
    · omega
    rintro b m₅ ⟨himg₅, -⟩
    cases b with
    | false => exact ⟨r, himg₅, nofun⟩
    | true =>
      refine ⟨r, himg₅, ?_⟩
      rintro x ⟨⟩
      rfl

/-! ## newImage -/

attribute [local irreducible] buildStack

theorem wp_loadImage (h : Image F d 0 m m₁) (hargs : ShortArgs argv) :
    wp (loadImage f c d elf argv) (fun r m' => ∃ sz', Image F d sz' m m' ∧
      ∀ x, r = some x → x.1 = sz') E m₁ := by
  unfold loadImage
  rw [wp_bind]
  refine wp_post (wp_loadSegments Image.inv h) ?_
  rintro r m₂ ⟨sz, himg, rfl | rfl⟩
  · exact ⟨sz, himg, nofun⟩
  · exact wp_buildStack himg hargs

theorem wp_newImage (h : PoolOk m F) (hargs : ShortArgs argv) :
    wp (newImage f c elf argv) (fun r m' =>
      match r with
      | none => (∃ k, k < 65 ∧ Declined F (SetupLoses k) k m m') ∨
          ∃ d m₁ m₂, Built F d m m₁ ∧ Opened F d m m₂ ∧ Freed d F m₂ m'
      | some x => (∃ m₁, Built F x.1 m m₁) ∧ Image F x.1 x.2.1 m m') E m := by
  unfold newImage
  rw [wp_bind]
  apply wp_setupkvm h
  · intro hr
    rw [wp_pure]
    refine .inl ⟨0, by omega, .dir h hr ?_⟩
    rintro ⟨h₁, -⟩
    omega
  · intro d m₁ hl
    rw [wp_pure]
    have h₁ := hl.first
    have h₂ := hl.last
    exact .inl ⟨_, by omega, hl.declined ⟨by omega, by omega⟩⟩
  · intro d m₁ hb
    rw [wp_bind]
    refine wp_post (wp_loadImage hb.image hargs) ?_
    rintro r m₂ ⟨sz, himg, hr⟩
    cases r with
    | none =>
      rw [wp_bind]
      refine wp_post (wp_freevm himg.opened.ok himg.shape.segment) ?_
      intro _ m' hf
      rw [wp_pure]
      exact .inr ⟨d, m₁, m₂, hb, himg.opened, hf⟩
    | some x =>
      obtain ⟨sz', sp⟩ := x
      obtain rfl := hr _ rfl
      exact ⟨⟨m₁, hb⟩, himg⟩

end Xv6.Vm
