import Xv6.ForkCopy

/-!
# The program that a file describes

The memory of a process as a function from addresses to bytes. Loading a file with `exec` starts from
empty memory and writes the segments over it in the order of the program headers; all the checks of
the header fields are made on the way.
-/

namespace Xv6.Vm

open Resumption ByteLayout Custody List UInt32 Mem Option Nat

/-! ## Memory as bytes -/

/-- The byte of the user half at an address; 0 where nothing is mapped. -/
def Mem.bytes (m : Mem) (d : ℕ) : Bytes := fun a =>
  if a < KERNBASE then ((m.view d (a / PGSIZE)).map fun x => x.byte (a % PGSIZE)).getD 0 else 0

variable {m : Mem} {d a o n lo hi i : ℕ} {e phoff sz' : UInt32} {x : List UInt8}

theorem Mem.bytes_low (ha : a < KERNBASE) : m.bytes d a =
    ((m.pte d (a / PGSIZE)).map fun e => (m.page (PTE_ADDR e)).byte (a % PGSIZE)).getD 0 := by
  unfold bytes view
  rw [if_pos ha, Option.map_map]
  rfl

theorem Mem.bytes_high (ha : ¬ a < KERNBASE) : m.bytes d a = 0 := if_neg ha

variable [Link] {m m' m₀ m₁ : Mem} {c d v : ℕ} {sz newsz : UInt32} {F : Set ℕ} {img : Bytes}
  {E : Stop → Mem → Prop} {l stale : List UInt8}

omit [Link] in
theorem Mem.bytes_congr (h : ∀ u < 2 ^ 19, m'.view d u = m.view d u) : m'.bytes d = m.bytes d := by
  funext a
  unfold bytes
  split_ifs with ha
  · rw [h (a / PGSIZE) (by simp only [KERNBASE, PGSIZE] at *; omega)]
  · rfl

theorem SpaceOk.bytes_write {src : Bytes} (h : SpaceOk m d F)
    (hv : v < 2 ^ 19) (he : m.pte d v = some e) (hn : o + n ≤ PGSIZE) :
    (m.setPage (PTE_ADDR e) ((m.page (PTE_ADDR e)).write o n src)).bytes d =
      blit (m.bytes d) (v * PGSIZE + o) n src := by
  obtain ⟨-, hnd, hnt⟩ := h.user_page hv he
  have hpte : (m.setPage (PTE_ADDR e) ((m.page (PTE_ADDR e)).write o n src)).pte d = m.pte d :=
    pte_setPage hnd.symm hnt
  have hheld : m.Holds d (some (.user v)) (PTE_ADDR e) := ⟨hv, by rw [he]; rfl⟩
  funext a
  unfold blit
  by_cases ha : a < KERNBASE
  · have hav : a / PGSIZE < 2 ^ 19 := by
      simp only [KERNBASE, PGSIZE] at *
      omega
    rw [bytes_low ha, bytes_low ha, hpte]
    by_cases hpage : a / PGSIZE = v
    · rw [hpage, he]
      simp only [map_some, getD_some, setPage_page_self]
      by_cases hin : v * PGSIZE + o ≤ a ∧ a < v * PGSIZE + o + n
      · rw [if_pos hin]
        have hoff : a % PGSIZE = o + (a - (v * PGSIZE + o)) := by
          simp only [PGSIZE] at *
          omega
        rw [hoff, Buffer.byte_write_inside (by omega) (by omega)]
      · rw [if_neg hin, Buffer.byte_write_outside]
        simp only [PGSIZE] at *
        omega
    · rw [if_neg (by simp only [PGSIZE] at *; omega)]
      cases hu : m.pte d (a / PGSIZE) with
      | none => rfl
      | some e' =>
        have hne : PTE_ADDR e' ≠ PTE_ADDR e := by
          intro heq
          have := h.excl (some (.user (a / PGSIZE))) (some (.user v)) (PTE_ADDR e)
            ⟨hav, by rw [hu, map_some, heq]⟩ hheld
          cases this
          exact hpage rfl
        simp only [map_some, setPage_page_ne hne]
  · rw [bytes_high ha, bytes_high ha, if_neg (by simp only [KERNBASE, PGSIZE] at *; omega)]

theorem Gains.bytes (h : SpaceOk m d F) (hg : Gains FreshPage d F lo hi m m')
    (hnone : ∀ u, lo ≤ u → u < hi → m.pte d u = none) : m'.bytes d = m.bytes d := by
  funext a
  unfold Mem.bytes
  split_ifs with ha
  · have hav : a / PGSIZE < 2 ^ 19 := by
      simp only [KERNBASE, PGSIZE] at *
      omega
    by_cases hin : lo ≤ a / PGSIZE ∧ a / PGSIZE < hi
    · have hold : m.view d (a / PGSIZE) = none := by
        unfold Mem.view
        rw [hnone _ hin.1 hin.2, map_none]
      rw [hg.view_new hin.1 hin.2, hold]
      simp
    · rw [hg.view_old h hav hin]
  · rfl

/-! ## An image with contents -/

/-- The image `d` of shape `sz` has the bytes `img`, and the user can reach all its pages. -/
structure Loaded (F : Set ℕ) (d : ℕ) (sz : UInt32) (img : Bytes) (m₀ m : Mem) : Prop
    extends Image F d sz m₀ m where
  bytes : m.bytes d = img
  user : ∀ v < pagesOf sz, m.userPage d v ≠ none

theorem Built.loaded (h : Built F d m₀ m) : Loaded F d 0 (fun _ => 0) m₀ m := by
  refine ⟨h.image, ?_, fun v hv => absurd hv (not_lt_zero v)⟩
  funext a
  unfold bytes view
  split_ifs with ha
  · rw [h.pte, kernelPte_low (by simp only [KERNBASE, PGSIZE] at *; omega)]
    rfl
  · rfl

omit [Link] in
theorem Mem.userPage_of_pte (he : m.pte d v = some e) (hu : e &&& PTE_U ≠ 0) :
    m.userPage d v ≠ none := by
  unfold userPage
  rw [he, bind_some, if_neg hu]
  simp

theorem Gains.userPage_new (hg : Gains FreshPage d F lo hi m m') (hlo : lo ≤ v)
    (hhi : v < hi) (hv : v < 2 ^ 19) : m'.userPage d v ≠ none := by
  obtain ⟨pg, perm, he, haddr, rfl, -⟩ := hg.new v hlo hhi
  have hpg := (hg.ok.range (some (.user v)) pg ⟨hv, by rw [he, map_some, haddr]⟩).2
  refine userPage_of_pte he ?_
  rw [mkPte_flag (hpg.trans (by decide)) (by decide) (by decide)]
  decide

section

variable (h : Loaded F d sz img m₀ m)
include h

theorem Loaded.congr (himg : Image F d sz m₀ m') (hpte : m'.pte d = m.pte d)
    (hpage : ∀ pg, pg ∉ m.freelist → pg ≠ d → (∀ i, m.tab d i ≠ some pg) → m'.page pg = m.page pg) :
    Loaded F d sz img m₀ m' := by
  refine ⟨himg, ?_, fun v hv => ?_⟩
  · rw [bytes_congr fun u hu => view_congr h.opened.ok hu (congrFun hpte u) hpage]
    exact h.bytes
  · rw [userPage_congr hpte]
    exact h.user v hv

theorem wp_allocuvm_loaded :
    wp (allocuvm d sz newsz) (fun r m' => ∃ sz', Loaded F d sz' img m₀ m' ∧
      (r = 0 ∨ r = sz' ∧ r.toNat = max sz.toNat newsz.toNat)) E m := by
  refine wp_post (wp_allocuvm h.opened.ok h.shape.size h.shape.none_above) ?_
  rintro r m' (⟨rfl, hr, -⟩ | ⟨hlt, rfl, rfl⟩ | ⟨hle, hsize, rfl, hg⟩)
  · refine ⟨sz, h.congr ?_ (funext hr.pte) hr.user, .inl rfl⟩
    exact ⟨hr.toKeeps.opened h.opened, hr.shape h.shape, hr.refuse.trans h.refuse⟩
  · have hlt' := lt_iff_toNat_lt.mp hlt
    exact ⟨r, h, .inr ⟨rfl, by omega⟩⟩
  · have hle' := le_iff_toNat_le.mp hle
    have hlim := pagesOf_le hsize
    have himg : Image F d r m₀ m' :=
      ⟨hg.toKeeps.opened h.opened, hg.shape h.shape hsize hle, hg.refuse.trans h.refuse⟩
    refine ⟨r, ⟨himg, ?_, ?_⟩, .inr ⟨rfl, by omega⟩⟩
    · rw [hg.bytes h.opened.ok fun u h₁ h₂ => h.shape.none_above u h₁ (by omega)]
      exact h.bytes
    · intro v hv
      by_cases hin : pagesOf sz ≤ v
      · exact hg.userPage_new hin hv (by omega)
      · unfold userPage
        rw [hg.same v (by omega)]
        exact h.user v (by omega)

theorem Loaded.write (src : Bytes) (hv : v < 2 ^ 19) (he : m.pte d v = some e) (hn : n ≤ PGSIZE) :
    Loaded F d sz (blit img (v * PGSIZE) n src) m₀
      (m.setPage (PTE_ADDR e) ((m.page (PTE_ADDR e)).write 0 n src)) := by
  obtain ⟨-, hnd, hnt⟩ := h.opened.ok.user_page hv he
  refine ⟨h.toImage.write hv he, ?_, fun u hu => ?_⟩
  · rw [h.opened.ok.bytes_write hv he (by omega), add_zero, h.bytes]
  · rw [userPage_congr (pte_setPage hnd.symm hnt)]
    exact h.user u hu

end

theorem Loaded.inv : ImageInv F d m₀ E fun sz m => ∃ img, Loaded F d sz img m₀ m := by
  refine ⟨?_, ?_, ?_⟩
  · rintro sz m ⟨img, h⟩
    exact h.toImage
  · rintro sz m v e k src ⟨img, h⟩ hv he hk
    exact ⟨_, h.write src hv he hk⟩
  · rintro sz m newsz ⟨img, h⟩
    refine wp_post (wp_allocuvm_loaded h) ?_
    rintro r m' ⟨sz', h', hr⟩
    refine ⟨sz', ⟨img, h'⟩, hr.imp_right ?_⟩
    rintro ⟨rfl, hsz⟩
    exact ⟨rfl, le_iff_toNat_le.mpr (by omega), le_iff_toNat_le.mpr (by omega)⟩

/-! ## The file -/

/-- A regular file with the bytes `l`: `readi` fails from behind its end on, and returns what there is
up to the end. -/
def contentsFile (l stale : List UInt8) : ElfFile where
  read off n :=
    if l.length < off.toNat ∨ 2 ^ 32 ≤ off.toNat + n.toNat then none
    else some ((l.drop off.toNat).take n.toNat)
  stale := stale

/-- The bytes of the file from `o` on. -/
def fileBytes (l : List UInt8) (o : ℕ) : Bytes := fun i => l.getD (o + i) 0

omit [Link] in
theorem contentsFile_full {off n : UInt32}
    (hx : (contentsFile l stale).read off n = some x) (hlen : x.length = n.toNat) :
    off.toNat + n.toNat ≤ l.length ∧ ∀ i < n.toNat, x.getD i 0 = fileBytes l off.toNat i := by
  unfold contentsFile at hx
  simp only at hx
  split_ifs at hx with hout
  have hxl := Option.some.inj hx
  subst hxl
  rw [length_take, length_drop] at hlen
  refine ⟨by omega, fun i hi => ?_⟩
  unfold fileBytes
  rw [getD_eq_getElem?_getD, getD_eq_getElem?_getD, List.getElem?_take_of_lt hi,
    List.getElem?_drop]

omit [Link] in
theorem toNat_add_ofNat {a : UInt32} {b : ℕ} (hb : a.toNat + b < 2 ^ 32) :
    (a + UInt32.ofNat b).toNat = a.toNat + b := by
  rw [UInt32.toNat_add, UInt32.toNat_ofNat', Nat.mod_eq_of_lt (show b < 2 ^ 32 by omega),
    Nat.mod_eq_of_lt hb]

/-- The loop of `loaduvm` copies the file to the pages of the image, `i` bytes so far. A read that
comes to its end has not wrapped around. -/
theorem wp_loadLoop_contents {addr offset : UInt32} (hl : l.length < 2 ^ 32)
    (h : Loaded F d sz (blit img addr.toNat (min i n) (fileBytes l offset.toNat)) m₀ m)
    (halign : addr.toNat % PGSIZE = 0) (hi : i % PGSIZE = 0)
    (hoff : min i n = 0 ∨ offset.toNat + min i n ≤ l.length) (hend : addr.toNat + n ≤ sz.toNat) :
    wp (loadLoop (contentsFile l stale) d addr offset n i) (fun r m' => Image F d sz m₀ m' ∧
      (r = true → (n = 0 ∨ offset.toNat + n ≤ l.length) ∧
        Loaded F d sz (blit img addr.toNat n (fileBytes l offset.toNat)) m₀ m')) E m := by
  have hsize := h.shape.size
  simp only [KERNBASE] at hsize
  generalize hk : n - i = k
  induction k using Nat.strong_induction_on generalizing m i with
  | h k ih =>
    rw [loadLoop]
    by_cases hin : i < n
    · have hv : (addr.toNat + i) / PGSIZE < 2 ^ 19 := by
        simp only [PGSIZE]
        omega
      have hpres : m.pte d ((addr.toNat + i) / PGSIZE) ≠ none := by
        rw [h.shape.user _ hv]
        unfold pagesOf
        simp only [PGSIZE]
        omega
      obtain ⟨e, he⟩ := ne_none_iff_exists'.mp hpres
      obtain ⟨t, ht, hword, -⟩ := pte_eq_some he
      rw [if_pos hin, wp_bind]
      apply wp_walkpgdir_read (by omega)
      rw [ht]
      simp only [map_some, word, wp_bind, wp_get, wp_pure]
      rw [← hword]
      have hpg : min (n - i) PGSIZE ≤ PGSIZE := min_le_right _ _
      have hlen : (UInt32.ofNat (min (n - i) PGSIZE)).toNat = min (n - i) PGSIZE := by
        rw [toNat_ofNat', Nat.mod_eq_of_lt (hpg.trans_lt (by decide))]
      have hmin : min i n = i := by omega
      rw [hmin] at h hoff
      have hpos : (offset + UInt32.ofNat i).toNat = offset.toNat + i := by
        have := offset.toNat_lt
        exact toNat_add_ofNat (by omega)
      cases hread : (contentsFile l stale).read (offset + UInt32.ofNat i)
          (UInt32.ofNat (min (n - i) PGSIZE)) with
      | none => exact ⟨h.toImage, (by simp)⟩
      | some x =>
        simp only [wp_bind, wp_modify]
        have hw := h.write (n := min x.length (min (n - i) PGSIZE)) (fun b => x.getD b 0) hv he
          (by omega)
        rw [wp_ite]
        refine ⟨fun _ => ⟨hw.toImage, (by simp)⟩, fun hfull => ?_⟩
        have hfull : x.length = min (n - i) PGSIZE := not_not.mp hfull
        obtain ⟨hfile, hbytes⟩ := contentsFile_full hread (hfull.trans hlen.symm)
        rw [hlen, hpos] at hfile hbytes
        have hnext : min (i + PGSIZE) n = i + min (n - i) PGSIZE := by omega
        have hva : (addr.toNat + i) / PGSIZE * PGSIZE = addr.toNat + i := by
          simp only [PGSIZE] at *
          omega
        have hsrc : ∀ b < min (n - i) PGSIZE, x.getD b 0 = fileBytes l offset.toNat (i + b) := by
          intro b hb
          rw [hbytes b hb, fileBytes, fileBytes, Nat.add_assoc]
        rw [hfull, min_self, hva, blit_congr hsrc, blit_append, ← hnext] at hw
        rw [hfull, min_self]
        refine ih _ ?_ hw ?_ (.inr (by omega)) rfl
        · simp only [PGSIZE]
          omega
        · simp only [PGSIZE] at hi ⊢
          omega
    · have hmin : min i n = n := by omega
      rw [hmin] at h hoff
      rw [if_neg hin, wp_pure]
      exact ⟨h.toImage, fun _ => ⟨hoff, h⟩⟩

/-! ## Segments -/

/-- What a program header says about a segment. -/
structure Segment where
  offset : UInt32
  vaddr : UInt32
  filesz : UInt32
  memsz : UInt32

def Segment.ofHeader (ph : Bytes) : Segment := ⟨get32 ph 4, get32 ph 8, get32 ph 16, get32 ph 20⟩

def Segment.top (g : Segment) : ℕ := g.vaddr.toNat + g.memsz.toNat

/-- The checks that a segment of the file `l` has to pass. -/
structure Segment.Ok (l : List UInt8) (g : Segment) : Prop where
  filesz : g.filesz.toNat ≤ g.memsz.toNat
  aligned : g.vaddr.toNat % PGSIZE = 0
  below : g.top < KERNBASE
  inFile : g.filesz.toNat = 0 ∨ g.offset.toNat + g.filesz.toNat ≤ l.length

/-- Memory with the bytes of the file over it. -/
def Segment.load (l : List UInt8) (img : Bytes) (g : Segment) : Bytes :=
  blit img g.vaddr.toNat g.filesz.toNat (fileBytes l g.offset.toNat)

/-- Where program header `i` is in the file. -/
def headerAt (phoff : UInt32) (i : ℕ) : ℕ := (phoff + UInt32.ofNat (PROGHDRSIZE * i)).toNat

/-- The segments to load among the `n` program headers from number `i` on. -/
def segments (l : List UInt8) (phoff : UInt32) (i n : ℕ) : List Segment :=
  (((List.range' i n).map fun j => fileBytes l (headerAt phoff j)).filter fun ph =>
    get32 ph 0 = ELF_PROG_LOAD).map Segment.ofHeader

omit [Link] in
theorem segments_succ : segments l phoff i (n + 1) =
    if get32 (fileBytes l (headerAt phoff i)) 0 = ELF_PROG_LOAD then
      Segment.ofHeader (fileBytes l (headerAt phoff i)) :: segments l phoff (i + 1) n
    else segments l phoff (i + 1) n := by
  unfold segments
  rw [List.range'_succ, map_cons]
  split_ifs with hload
  · rw [filter_cons_of_pos (by simpa using hload), map_cons]
  · rw [filter_cons_of_neg (by simpa using hload)]

/-- The size of an image that has all segments. -/
def topOf (top : ℕ) (gs : List Segment) : ℕ := gs.foldl (fun t g => max t g.top) top

/-- The result of the loop over the program headers: all of them are in the file, the segments pass
the checks and the image consists of them. -/
structure SegmentsLoaded (F : Set ℕ) (d : ℕ) (l : List UInt8) (phoff : UInt32) (i n : ℕ) (img : Bytes)
    (sz sz' : UInt32) (m₀ m : Mem) : Prop where
  headers : ∀ j, i ≤ j → j < i + n → headerAt phoff j + PROGHDRSIZE ≤ l.length
  segments : ∀ g ∈ segments l phoff i n, g.Ok l
  size : sz'.toNat = topOf sz.toNat (Vm.segments l phoff i n)
  image : Loaded F d sz' ((Vm.segments l phoff i n).foldl (Segment.load l) img) m₀ m

theorem SegmentsLoaded.skip (h : SegmentsLoaded F d l phoff (i + 1) n img sz sz' m₀ m)
    (hhead : headerAt phoff i + PROGHDRSIZE ≤ l.length)
    (htype : get32 (fileBytes l (headerAt phoff i)) 0 ≠ ELF_PROG_LOAD) :
    SegmentsLoaded F d l phoff i (n + 1) img sz sz' m₀ m := by
  have hsegs : Vm.segments l phoff i (n + 1) = Vm.segments l phoff (i + 1) n := by
    rw [segments_succ, if_neg htype]
  refine ⟨fun j hj hlt => ?_, ?_, ?_, ?_⟩
  · by_cases hji : j = i
    · rw [hji]
      exact hhead
    · exact h.headers j (by omega) (by omega)
  · rw [hsegs]
    exact h.segments
  · rw [hsegs]
    exact h.size
  · rw [hsegs]
    exact h.image

theorem SegmentsLoaded.cons {sz₁ : UInt32} {g : Segment}
    (h : SegmentsLoaded F d l phoff (i + 1) n (g.load l img) sz₁ sz' m₀ m)
    (hhead : headerAt phoff i + PROGHDRSIZE ≤ l.length)
    (htype : get32 (fileBytes l (headerAt phoff i)) 0 = ELF_PROG_LOAD)
    (hg : Segment.ofHeader (fileBytes l (headerAt phoff i)) = g) (hok : g.Ok l)
    (hsz : sz₁.toNat = max sz.toNat g.top) :
    SegmentsLoaded F d l phoff i (n + 1) img sz sz' m₀ m := by
  have hsegs : Vm.segments l phoff i (n + 1) = g :: Vm.segments l phoff (i + 1) n := by
    rw [segments_succ, if_pos htype, hg]
  refine ⟨fun j hj hlt => ?_, ?_, ?_, ?_⟩
  · by_cases hji : j = i
    · rw [hji]
      exact hhead
    · exact h.headers j (by omega) (by omega)
  · rw [hsegs]
    exact forall_mem_cons.mpr ⟨hok, h.segments⟩
  · rw [hsegs, topOf, foldl_cons, ← hsz]
    exact h.size
  · rw [hsegs, foldl_cons]
    exact h.image

omit [Link] in
theorem header_congr (h : ∀ i < PROGHDRSIZE, x.getD i 0 = fileBytes l o i) :
    ∀ k, k + 4 ≤ PROGHDRSIZE → get32 (fun j => x.getD j 0) k = get32 (fileBytes l o) k :=
  fun _ hk => get32_congr fun i hi => h _ (by omega)

theorem wp_loadSegments_contents (hl : l.length < 2 ^ 32) (h : Loaded F d sz img m₀ m) :
    wp (loadSegments (contentsFile l stale) d phoff n i sz) (fun r m' =>
      (∃ sz', Image F d sz' m₀ m') ∧
        ∀ sz', r = some sz' → SegmentsLoaded F d l phoff i n img sz sz' m₀ m') E m := by
  induction n generalizing m i sz img with
  | zero =>
    refine ⟨⟨sz, h.toImage⟩, ?_⟩
    rintro sz' ⟨⟩
    exact ⟨fun j _ _ => by omega, fun g hg => absurd hg List.not_mem_nil, rfl, h⟩
  | succ n ih =>
    have hbad : ∀ {m' : Mem} {sz₁ : UInt32}, Image F d sz₁ m₀ m' → (∃ sz', Image F d sz' m₀ m') ∧
        ∀ sz', none = some sz' → SegmentsLoaded F d l phoff i (n + 1) img sz sz' m₀ m' :=
      fun himg => ⟨⟨_, himg⟩, nofun⟩
    rw [loadSegments]
    cases hread : (contentsFile l stale).read (phoff + UInt32.ofNat (PROGHDRSIZE * i))
        (UInt32.ofNat PROGHDRSIZE) with
    | none => exact hbad h.toImage
    | some x =>
      simp only
      by_cases hlen : x.length ≠ PROGHDRSIZE
      · rw [if_pos hlen]
        exact hbad h.toImage
      rw [if_neg hlen]
      obtain ⟨hhead, hbytes⟩ := contentsFile_full hread (not_not.mp hlen)
      change headerAt phoff i + PROGHDRSIZE ≤ l.length at hhead
      change ∀ j < PROGHDRSIZE, x.getD j 0 = fileBytes l (headerAt phoff i) j at hbytes
      have hfield := header_congr hbytes
      rw [hfield 0 (by decide), hfield 4 (by decide), hfield 8 (by decide), hfield 16 (by decide),
        hfield 20 (by decide)]
      clear hfield hbytes hread hlen
      by_cases htype : get32 (fileBytes l (headerAt phoff i)) 0 ≠ ELF_PROG_LOAD
      · rw [if_pos htype]
        refine wp_post (ih h) ?_
        rintro r m' ⟨himg, hr⟩
        exact ⟨himg, fun sz' hsz' => (hr sz' hsz').skip hhead htype⟩
      rw [if_neg htype]
      generalize hg : Segment.ofHeader (fileBytes l (headerAt phoff i)) = g
      have hofs : get32 (fileBytes l (headerAt phoff i)) 4 = g.offset := by rw [← hg]; rfl
      have hva : get32 (fileBytes l (headerAt phoff i)) 8 = g.vaddr := by rw [← hg]; rfl
      have hfs : get32 (fileBytes l (headerAt phoff i)) 16 = g.filesz := by rw [← hg]; rfl
      have hms : get32 (fileBytes l (headerAt phoff i)) 20 = g.memsz := by rw [← hg]; rfl
      rw [hofs, hva, hfs, hms]
      by_cases hmem : g.memsz < g.filesz
      · rw [if_pos hmem]
        exact hbad h.toImage
      rw [if_neg hmem]
      by_cases hwrap : g.vaddr + g.memsz < g.vaddr
      · rw [if_pos hwrap]
        exact hbad h.toImage
      have htop : (g.vaddr + g.memsz).toNat = g.top := toNat_add_of_not_lt hwrap
      rw [if_neg hwrap, wp_bind]
      refine wp_post (wp_allocuvm_loaded h) ?_
      rintro sz₁ m₁ ⟨sz₂, hloaded, hr⟩
      by_cases hzero : sz₁ = 0
      · rw [if_pos hzero]
        exact hbad hloaded.toImage
      obtain ⟨rfl, hsz⟩ := hr.resolve_left hzero
      rw [htop] at hsz
      rw [if_neg hzero]
      by_cases halign : g.vaddr.toNat % PGSIZE ≠ 0
      · rw [if_pos halign]
        exact hbad hloaded.toImage
      have halign : g.vaddr.toNat % PGSIZE = 0 := not_not.mp halign
      have hle : g.filesz.toNat ≤ g.memsz.toNat := UInt32.le_iff_toNat_le.mp (UInt32.not_lt.mp hmem)
      have hend : g.vaddr.toNat + g.filesz.toNat ≤ sz₁.toNat := by
        unfold Segment.top at hsz
        omega
      rw [if_neg (not_not.mpr halign), wp_bind, loaduvm, if_neg (not_not.mpr halign)]
      rw [← blit_none img (fileBytes l g.offset.toNat) g.vaddr.toNat, ← Nat.zero_min g.filesz.toNat]
        at hloaded
      refine wp_post (wp_loadLoop_contents hl hloaded halign (Nat.zero_mod _) (.inl (Nat.zero_min _))
        hend) ?_
      rintro r m₂ ⟨himg, hr⟩
      cases r with
      | false => exact hbad himg
      | true =>
        obtain ⟨hin, hdone⟩ := hr rfl
        have hok : g.Ok l := ⟨hle, halign, by have := hdone.shape.size; omega, hin⟩
        rw [if_pos rfl]
        refine wp_post (ih hdone) ?_
        rintro r m₃ ⟨himg, hr⟩
        exact ⟨himg, fun sz' hsz' => (hr sz' hsz').cons hhead (not_not.mp htype) hg hok hsz⟩

end Xv6.Vm
