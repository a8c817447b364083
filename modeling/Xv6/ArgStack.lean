import Xv6.ProgramImage

/-!
# The arguments on the stack of a new image

`exec` pushes the strings of `argv` one below the other from the end of the image on, each at a
multiple of four, and the words for `main` below them. Of the two stack pages the user can reach only
the upper one. What is pushed ends within three bytes of what is there already, so a block that is too
long for the page comes to the guard page, and `copyout` fails there before the image is used.
-/

namespace Xv6.Vm

open Resumption ByteLayout Custody Function List

/-! ## The layout -/

/-- The bytes that a string takes: with its NUL, rounded up to words. -/
def argRoom (s : List UInt8) : ℕ := (s.length + 1 + 3) / 4 * 4

def argRooms (argv : List (List UInt8)) : ℕ := (argv.map argRoom).sum

/-- The whole block: the strings and the words. -/
def argBlock (argv : List (List UInt8)) : ℕ := argRooms argv + 4 * (4 + argv.length)

def argPtrs : ℕ → List (List UInt8) → List ℕ
  | _, [] => []
  | sp, s :: ss => (sp - argRoom s) :: argPtrs (sp - argRoom s) ss

def pushBytes : Bytes → ℕ → List (List UInt8) → Bytes
  | img, _, [] => img
  | img, sp, s :: ss =>
    pushBytes (blit img (sp - argRoom s) (s.length + 1) fun i => s.getD i 0) (sp - argRoom s) ss

def argImage (img : Bytes) (top : ℕ) (argv : List (List UInt8)) : Bytes :=
  blit (pushBytes img top argv) (top - argBlock argv) (4 * (4 + argv.length))
    (wordBytes (ustack (UInt32.ofNat (top - argRooms argv)) ((argPtrs top argv).map UInt32.ofNat)))

/-- The address of string `i` in the array that begins at `esp + 12`. -/
def argvPtr (mem : Bytes) (esp i : ℕ) : ℕ := (get32 mem (esp + 12 + 4 * i)).toNat

/-- What `main` finds at `esp`: the words and, between them and `top`, the strings. -/
structure ArgStack (argv : List (List UInt8)) (top esp : ℕ) (mem : Bytes) : Prop where
  ret : get32 mem esp = 0xFFFFFFFF
  argc : (get32 mem (esp + 4)).toNat = argv.length
  array : (get32 mem (esp + 8)).toNat = esp + 12
  last : get32 mem (esp + 12 + 4 * argv.length) = 0
  aligned : ∀ i < argv.length, argvPtr mem esp i % 4 = 0
  copies : ∀ i < argv.length, ∀ j ≤ (argv.getD i []).length,
    mem (argvPtr mem esp i + j) = (argv.getD i []).getD j 0
  ordered : ∀ i j, i < j → j < argv.length →
    argvPtr mem esp j + (argv.getD j []).length + 1 ≤ argvPtr mem esp i
  above : ∀ i < argv.length, esp + 4 * (4 + argv.length) ≤ argvPtr mem esp i
  inside : ∀ i < argv.length, argvPtr mem esp i + (argv.getD i []).length + 1 ≤ top

section

variable {img : Bytes} {s : List UInt8} {argv : List (List UInt8)} {top sp i a : ℕ}

theorem argRoom_bounds (s : List UInt8) :
    s.length + 1 ≤ argRoom s ∧ argRoom s ≤ s.length + 4 ∧ argRoom s % 4 = 0 := by
  unfold argRoom
  omega

@[simp] theorem argRooms_nil : argRooms [] = 0 := rfl

@[simp] theorem argRooms_cons (s : List UInt8) (argv : List (List UInt8)) :
    argRooms (s :: argv) = argRoom s + argRooms argv := by
  unfold argRooms
  rw [map_cons, sum_cons]

theorem argRooms_mod (argv : List (List UInt8)) : argRooms argv % 4 = 0 := by
  induction argv with
  | nil => rfl
  | cons s ss ih =>
    have := argRoom_bounds s
    rw [argRooms_cons]
    omega

@[simp] theorem length_argPtrs : (argPtrs sp argv).length = argv.length := by
  induction argv generalizing sp with
  | nil => rfl
  | cons s ss ih => rw [argPtrs, length_cons, ih, length_cons]

theorem argPtrs_getD (hi : i < argv.length) :
    (argPtrs sp argv).getD i 0 = sp - argRooms (argv.take (i + 1)) := by
  induction argv generalizing sp i with
  | nil => exact absurd hi (Nat.not_lt_zero i)
  | cons s ss ih =>
    cases i with
    | zero => simp [argPtrs]
    | succ i =>
      rw [argPtrs, getD_cons_succ, ih (by simpa using hi), take_succ_cons, argRooms_cons,
        Nat.sub_sub]

theorem argRooms_take_succ (hi : i < argv.length) :
    argRooms (argv.take (i + 1)) = argRooms (argv.take i) + argRoom (argv.getD i []) := by
  induction argv generalizing i with
  | nil => exact absurd hi (Nat.not_lt_zero i)
  | cons s ss ih =>
    cases i with
    | zero => simp
    | succ i =>
      rw [take_succ_cons, argRooms_cons, ih (by simpa using hi), take_succ_cons,
        argRooms_cons, getD_cons_succ, Nat.add_assoc]

theorem argRooms_take_le (argv : List (List UInt8)) {i j : ℕ} (hij : i ≤ j) :
    argRooms (argv.take i) ≤ argRooms (argv.take j) := by
  induction argv generalizing i j with
  | nil => simp
  | cons s ss ih =>
    cases i with
    | zero => simp
    | succ i =>
      cases j with
      | zero => omega
      | succ j =>
        rw [take_succ_cons, take_succ_cons, argRooms_cons, argRooms_cons]
        exact Nat.add_le_add_left (ih (by omega)) _

theorem argRooms_take_all (argv : List (List UInt8)) (i : ℕ) :
    argRooms (argv.take i) ≤ argRooms argv := by
  have h := argRooms_take_le argv (show i ≤ max i argv.length by omega)
  rwa [take_of_length_le (show argv.length ≤ max i argv.length by omega)] at h

/-! ### What has been pushed -/

section

variable (hroom : argRooms argv ≤ sp)
include hroom

theorem pushBytes_above (ha : sp ≤ a) : pushBytes img sp argv a = img a := by
  induction argv generalizing img sp with
  | nil => rfl
  | cons s ss ih =>
    rw [argRooms_cons] at hroom
    have := argRoom_bounds s
    rw [pushBytes, ih (by omega) (by omega), blit_outside (by omega)]

theorem pushBytes_below (ha : a < sp - argRooms argv) : pushBytes img sp argv a = img a := by
  induction argv generalizing img sp with
  | nil => rfl
  | cons s ss ih =>
    rw [argRooms_cons] at hroom ha
    rw [pushBytes, ih (by omega) (by omega), blit_outside (by omega)]

theorem pushBytes_copy {j : ℕ} (hi : i < argv.length) (hj : j ≤ (argv.getD i []).length) :
    pushBytes img sp argv (sp - argRooms (argv.take (i + 1)) + j) = (argv.getD i []).getD j 0 := by
  induction argv generalizing img sp i with
  | nil => exact absurd hi (Nat.not_lt_zero i)
  | cons s ss ih =>
    rw [argRooms_cons] at hroom
    rw [pushBytes]
    cases i with
    | zero =>
      rw [getD_cons_zero] at hj ⊢
      have hfirst : sp - argRooms ((s :: ss).take (0 + 1)) = sp - argRoom s := by simp
      rw [hfirst, pushBytes_above (by omega) (by omega), blit_inside (by omega)]
    | succ i =>
      rw [getD_cons_succ] at hj ⊢
      rw [take_succ_cons, argRooms_cons, ← Nat.sub_sub]
      exact ih (by omega) (by simpa using hi) hj

end

/-! ### The words -/

theorem get32_wordBytes (ws : List UInt32) (k : ℕ) : get32 (wordBytes ws) (4 * k) = ws.getD k 0 := by
  rw [← get32_leByte (ws.getD k 0)]
  apply get32_congr
  intro i hi
  have h₁ : (4 * k + i) / 4 = k := by omega
  have h₂ : (4 * k + i) % 4 = 0 + i := by omega
  simp only [wordBytes, h₁, h₂]

theorem ustack_getD (sp : UInt32) (ptrs : List UInt32) (k : ℕ) :
    (ustack sp ptrs).getD (k + 3) 0 = ptrs.getD k 0 := by
  unfold ustack
  rw [append_assoc, cons_append, cons_append, cons_append, nil_append,
    getD_cons_succ, getD_cons_succ, getD_cons_succ]
  by_cases hk : k < ptrs.length
  · rw [getD_append _ _ _ _ hk]
  · rw [getD_append_right _ _ _ _ (by omega), getD_eq_default ptrs _ (by omega)]
    cases k - ptrs.length <;> rfl

theorem argImage_word {k : ℕ} (hk : k < 4 + argv.length) :
    get32 (argImage img top argv) (top - argBlock argv + 4 * k) =
      (ustack (UInt32.ofNat (top - argRooms argv)) ((argPtrs top argv).map UInt32.ofNat)).getD k 0 := by
  rw [← get32_wordBytes]
  apply get32_congr
  intro i hi
  rw [argImage, Nat.add_assoc, blit_inside (by omega)]

theorem argImage_below (hblock : argBlock argv ≤ top) (ha : a < top - argBlock argv) :
    argImage img top argv a = img a := by
  unfold argBlock at *
  rw [argImage, blit_outside (.inl (by unfold argBlock; omega)),
    pushBytes_below (by omega) (by omega)]

theorem argvPtr_argImage (htop : top < 2 ^ 32) (hi : i < argv.length) :
    argvPtr (argImage img top argv) (top - argBlock argv) i =
      top - argRooms (argv.take (i + 1)) := by
  have hpos : top - argBlock argv + 12 + 4 * i = top - argBlock argv + 4 * (i + 3) := by omega
  unfold argvPtr
  rw [hpos, argImage_word (by omega), ustack_getD]
  change (((argPtrs top argv).map UInt32.ofNat).getD i (UInt32.ofNat 0)).toNat = _
  rw [getD_map, argPtrs_getD hi, UInt32.toNat_ofNat', Nat.mod_eq_of_lt (by omega)]

theorem argImage_stack (hblock : argBlock argv ≤ top) (htop : top < 2 ^ 32) (hmod : top % 4 = 0) :
    ArgStack argv top (top - argBlock argv) (argImage img top argv) := by
  have hsum : argBlock argv = argRooms argv + 4 * (4 + argv.length) := rfl
  have hptr : ∀ i < argv.length, argvPtr (argImage img top argv) (top - argBlock argv) i =
      top - argRooms (argv.take (i + 1)) := fun i hi => argvPtr_argImage htop hi
  have hle : ∀ i, argRooms (argv.take i) ≤ argRooms argv := argRooms_take_all argv
  have hword : ∀ k < 4 + argv.length, get32 (argImage img top argv) (top - argBlock argv + 4 * k) =
      (ustack (UInt32.ofNat (top - argRooms argv)) ((argPtrs top argv).map UInt32.ofNat)).getD k 0 :=
    fun k hk => argImage_word hk
  refine ⟨?_, ?_, ?_, ?_, fun i hi => ?_, fun i hi j hj => ?_, fun i j hij hj => ?_, fun i hi => ?_,
    fun i hi => ?_⟩
  · exact hword 0 (by omega)
  · have hone := hword 1 (by omega)
    rw [show 4 * 1 = 4 from rfl] at hone
    rw [hone]
    change (UInt32.ofNat ((argPtrs top argv).map UInt32.ofNat).length).toNat = _
    rw [length_map, length_argPtrs, UInt32.toNat_ofNat', Nat.mod_eq_of_lt (by omega)]
  · have htwo := hword 2 (by omega)
    rw [show 4 * 2 = 8 from rfl] at htwo
    rw [htwo]
    change (UInt32.ofNat (top - argRooms argv) -
      UInt32.ofNat ((((argPtrs top argv).map UInt32.ofNat).length + 1) * 4)).toNat = _
    rw [length_map, length_argPtrs, UInt32.toNat_sub, UInt32.toNat_ofNat', UInt32.toNat_ofNat']
    omega
  · have hlast := hword (argv.length + 3) (by omega)
    rw [ustack_getD, getD_eq_default _ _ (by rw [length_map, length_argPtrs])] at hlast
    rw [← hlast]
    congr 1
    omega
  · rw [hptr i hi]
    have := argRooms_mod (argv.take (i + 1))
    have := hle (i + 1)
    omega
  · rw [hptr i hi, argImage, blit_outside, pushBytes_copy (by omega) hi hj]
    have := hle (i + 1)
    omega
  · rw [hptr i (by omega), hptr j hj]
    have h₁ := argRooms_take_succ hj
    have h₂ := argRooms_take_le argv (show i + 1 ≤ j by omega)
    have h₃ := hle (j + 1)
    have h₄ := argRoom_bounds (argv.getD j [])
    omega
  · rw [hptr i hi]
    have := hle (i + 1)
    omega
  · rw [hptr i hi]
    have h₁ := argRooms_take_succ hi
    have h₃ := hle (i + 1)
    have h₄ := argRoom_bounds (argv.getD i [])
    omega

end

variable [Link] {m m' m₀ m₁ : Mem} {c d v va len : ℕ} {sz sp : UInt32} {F : Set ℕ} {img buf : Bytes}
  {E : Stop → Mem → Prop} {s : List UInt8} {argv : List (List UInt8)} {ptrs : List UInt32}

/-! ## copyout to an image -/

theorem Copied.bytes_eq (h : SpaceOk m d F) (hc : Copied d va len buf m m')
    (hend : va + len ≤ KERNBASE) : m'.bytes d = blit (m.bytes d) va len buf := by
  have hpage : ∀ k < len, pageAt va k = (va + k) / PGSIZE := by
    intro k hk
    simp only [KERNBASE] at hend
    unfold pageAt
    rw [Nat.mod_eq_of_lt (by omega)]
  funext a
  unfold blit
  by_cases ha : a < KERNBASE
  · rw [Mem.bytes_low ha, hc.pte]
    by_cases hin : va ≤ a ∧ a < va + len
    · obtain ⟨pg, hpg, hbyte⟩ := hc.bytes (a - va) (by omega)
      have hak : va + (a - va) = a := by omega
      rw [hpage _ (by omega), hak] at hpg
      rw [hak] at hbyte
      obtain ⟨e, he, -, rfl⟩ := Mem.exists_of_userPage hpg
      rw [if_pos hin, he, Option.map_some, Option.getD_some, hbyte]
    · rw [if_neg hin, Mem.bytes_low ha]
      cases he : m.pte d (a / PGSIZE) with
      | none => rfl
      | some e =>
        rw [Option.map_some, Option.map_some, Option.getD_some, Option.getD_some]
        apply hc.rest
        intro k hk huser hoff
        rw [hpage k hk] at huser
        have hlt := h.userPage_lt huser
        obtain ⟨e', he', -, haddr⟩ := Mem.exists_of_userPage huser
        have hav : a / PGSIZE < 2 ^ 19 := by
          simp only [KERNBASE, PGSIZE] at *
          omega
        have hsame := h.excl (some (.user ((va + k) / PGSIZE))) (some (.user (a / PGSIZE))) (PTE_ADDR e)
          ⟨hlt, by rw [he', Option.map_some, haddr]⟩ ⟨hav, by rw [he, Option.map_some]⟩
        injection hsame with hsame
        injection hsame with hsame
        simp only [PGSIZE] at hsame hoff
        omega
  · rw [Mem.bytes_high ha, if_neg (by omega), Mem.bytes_high ha]

/-- An image with its stack: of its last two pages the user cannot reach the lower one. -/
structure Stacked (F : Set ℕ) (d : ℕ) (sz : UInt32) (img : Bytes) (m₀ m : Mem) : Prop
    extends Image F d sz m₀ m where
  whole : sz.toNat % PGSIZE = 0
  two : 2 * PGSIZE ≤ sz.toNat
  bytes : m.bytes d = img
  user : ∀ v < pagesOf sz, m.userPage d v ≠ none ↔ v ≠ sz.toNat / PGSIZE - 2

section

variable (h : Stacked F d sz img m₀ m)
include h

theorem Stacked.pages : pagesOf sz = sz.toNat / PGSIZE := by
  have := h.whole
  unfold pagesOf
  simp only [PGSIZE] at *
  omega

theorem Stacked.tables (hend : va + len ≤ sz.toNat) : Tables m d va len := by
  intro k hk _ hno
  have hsize := h.shape.size
  have hpages := h.pages
  have hlt : pageAt va k < pagesOf sz := by
    rw [hpages]
    have := h.whole
    simp only [pageAt, PGSIZE, KERNBASE] at *
    omega
  have hlim := pagesOf_le hsize
  refine (h.shape.user (pageAt va k) (by omega)).mpr hlt ?_
  unfold Mem.pte
  rw [hno]
  rfl

theorem Stacked.allUser_iff (hlen : 0 < len) (hend : va + len ≤ sz.toNat)
    (hup : sz.toNat - PGSIZE ≤ va + len + 3) : AllUser m d va len ↔ sz.toNat - PGSIZE ≤ va := by
  have hsize := h.shape.size
  have hpages := h.pages
  have hwhole := h.whole
  have htwo := h.two
  simp only [KERNBASE] at hsize
  have hpage : ∀ k < len, pageAt va k = (va + k) / PGSIZE := by
    intro k hk
    unfold pageAt
    rw [Nat.mod_eq_of_lt (by omega)]
  have hin : ∀ k < len, (va + k) / PGSIZE < pagesOf sz := by
    intro k hk
    rw [hpages]
    simp only [PGSIZE] at *
    omega
  constructor
  · intro hall
    by_contra hlt
    -- the byte of the range that lies in the guard page
    obtain ⟨k, hk, hguard⟩ : ∃ k < len, (va + k) / PGSIZE = sz.toNat / PGSIZE - 2 := by
      by_cases hva : sz.toNat - 2 * PGSIZE ≤ va
      · refine ⟨0, hlen, ?_⟩
        simp only [PGSIZE] at *
        omega
      · refine ⟨sz.toNat - 2 * PGSIZE - va, ?_, ?_⟩
        · simp only [PGSIZE] at *
          omega
        · simp only [PGSIZE] at *
          omega
    have := hall k hk
    rw [hpage k hk] at this
    exact (h.user _ (hin k hk)).mp this hguard
  · intro hva k hk
    rw [hpage k hk]
    refine (h.user _ (hin k hk)).mpr ?_
    simp only [PGSIZE] at *
    omega

theorem wp_copyout_stack (hlen : 0 < len) (hend : va + len ≤ sz.toNat)
    (hup : sz.toNat - PGSIZE ≤ va + len + 3) :
    wp (copyout c d va buf len) (fun r m' =>
      r = true ∧ sz.toNat - PGSIZE ≤ va ∧ Stacked F d sz (blit img va len buf) m₀ m' ∨
      r = false ∧ va < sz.toNat - PGSIZE ∧ Image F d sz m₀ m') E m := by
  have hsize := h.shape.size
  have hkern : va + len ≤ KERNBASE := by omega
  have hpost : wp (copyout c d va buf len) (CopyoutPost d va len buf m) E m := by
    rw [copyout_eq_via]
    refine wp_copyoutVia h.opened.ok ?_ (h.tables hend)
    simp only [KERNBASE] at hkern
    omega
  have himage : wp (copyout c d va buf len) (fun _ m' => Image F d sz m₀ m') E m :=
    wp_copyout h.toImage (hend.trans (le_pagesOf_mul sz))
  refine wp_mono (wp_and himage hpost) ?_ (fun _ _ he => he.1)
  rintro r m' ⟨himg, ⟨rfl, hall, hc⟩ | ⟨rfl, hall, -, -⟩⟩
  · refine .inl ⟨rfl, (h.allUser_iff hlen hend hup).mp hall, himg, h.whole, h.two, ?_, fun v hv => ?_⟩
    · rw [hc.bytes_eq h.opened.ok hkern, h.bytes]
    · rw [Mem.userPage_congr hc.pte]
      exact h.user v hv
  · rw [h.allUser_iff hlen hend hup] at hall
    exact .inr ⟨rfl, by omega, himg⟩

end

/-! ## The strings -/

omit [Link] in
theorem toNat_push (hsp : sp.toNat % 4 = 0) (hs : argRoom s ≤ sp.toNat) :
    ((sp - UInt32.ofNat (s.length + 1)) &&& ~~~3).toNat = sp.toNat - argRoom s := by
  unfold argRoom at *
  have hlt := sp.toNat_lt
  have hsub := toNat_sub_cases sp (show s.length + 1 < 2 ^ 32 by omega)
  rw [toNat_round]
  omega

/-- How the loop over the strings ends: with all of them pushed, or because there are too many or
they are too long for the stack page. -/
def PushPost (F : Set ℕ) (d : ℕ) (sz : UInt32) (img : Bytes) (m₀ : Mem) (argv : List (List UInt8))
    (sp : UInt32) (ptrs : List UInt32) : Option (UInt32 × List UInt32) → Mem → Prop
  | none, m' => Image F d sz m₀ m' ∧
      (MAXARG < ptrs.length + argv.length ∨ sp.toNat < sz.toNat - PGSIZE + argRooms argv)
  | some x, m' => x.1.toNat = sp.toNat - argRooms argv ∧
      sz.toNat - PGSIZE + argRooms argv ≤ sp.toNat ∧
      x.2 = ptrs ++ (argPtrs sp.toNat argv).map UInt32.ofNat ∧
      Stacked F d sz (pushBytes img sp.toNat argv) m₀ m'

theorem wp_pushArgs_stack (h : Stacked F d sz img m₀ m) (hmod : sp.toNat % 4 = 0)
    (hlo : sz.toNat - PGSIZE ≤ sp.toNat) (hhi : sp.toNat ≤ sz.toNat) (hroom : argRooms argv ≤ sp.toNat) :
    wp (pushArgs c d argv sp ptrs) (PushPost F d sz img m₀ argv sp ptrs) E m := by
  induction argv generalizing m sp ptrs img with
  | nil =>
    rw [pushArgs, wp_pure]
    refine ⟨(Nat.sub_zero _).symm, ?_, (append_nil _).symm, h⟩
    rw [argRooms_nil, Nat.add_zero]
    exact hlo
  | cons s ss ih =>
    have hbounds := argRoom_bounds s
    rw [argRooms_cons] at hroom
    rw [pushArgs]
    by_cases hmax : ptrs.length ≥ MAXARG
    · rw [if_pos hmax]
      refine ⟨h.toImage, .inl ?_⟩
      rw [length_cons]
      omega
    have hnext := toNat_push hmod (show argRoom s ≤ sp.toNat by omega)
    rw [if_neg hmax, wp_bind]
    generalize (sp - UInt32.ofNat (s.length + 1)) &&& ~~~3 = sp₁ at hnext ⊢
    refine wp_post (wp_copyout_stack h (by omega) (by omega) (by omega)) ?_
    rintro r m' (⟨rfl, hle, hst⟩ | ⟨rfl, hlt, himg⟩)
    · rw [if_pos rfl]
      refine wp_post (ih hst (by omega) hle (by omega) (by omega)) ?_
      rintro (_ | ⟨sp', ptrs'⟩) m'' hpost
      · obtain ⟨himg, hwhy⟩ := hpost
        refine ⟨himg, ?_⟩
        rw [length_append, length_singleton] at hwhy
        rw [length_cons, argRooms_cons]
        omega
      · obtain ⟨hsp', hle', rfl, hst'⟩ := hpost
        rw [hnext] at hst'
        refine ⟨?_, ?_, ?_, hst'⟩
        · rw [argRooms_cons]
          omega
        · rw [argRooms_cons]
          omega
        · rw [argPtrs, map_cons, ← hnext, UInt32.ofNat_toNat, append_assoc,
            singleton_append]
    · rw [if_neg Bool.false_ne_true]
      refine ⟨himg, .inr ?_⟩
      rw [argRooms_cons]
      omega

/-! ## The stack pages -/

section

variable (h : Loaded F d sz img m₀ m)
include h

theorem Loaded.roundup (hlt : (PGROUNDUP sz).toNat < KERNBASE) :
    Loaded F d (PGROUNDUP sz) img m₀ m := by
  refine ⟨h.toImage.roundup hlt, h.bytes, ?_⟩
  rw [pagesOf_PGROUNDUP h.shape.size]
  exact h.user

theorem wp_clearpteu_stacked (hwhole : sz.toNat % PGSIZE = 0) (htwo : 2 * PGSIZE ≤ sz.toNat) :
    wp (clearpteu d ((sz.toNat - 2 * PGSIZE) / PGSIZE)) (fun _ m' => Stacked F d sz img m₀ m') E m := by
  have hsize := h.shape.size
  have hlim := pagesOf_le hsize
  have hguard : (sz.toNat - 2 * PGSIZE) / PGSIZE = sz.toNat / PGSIZE - 2 := by
    simp only [PGSIZE] at *
    omega
  have hlt : sz.toNat / PGSIZE - 2 < pagesOf sz := by
    unfold pagesOf
    simp only [PGSIZE] at *
    omega
  rw [hguard]
  refine wp_post (wp_clearpteu h.toImage hlt) ?_
  rintro _ m' ⟨himg, -, ⟨e, he, hpte⟩, hpage⟩
  have haddr : PTE_ADDR (e &&& ~~~PTE_U) = PTE_ADDR e := by
    obtain ⟨t, -, -, hp⟩ := Mem.pte_eq_some he
    exact (present_clear hp).2
  refine ⟨himg, hwhole, htwo, ?_, fun v hv => ?_⟩
  · rw [Mem.bytes_congr, h.bytes]
    intro u hu
    unfold Mem.view
    rw [hpte]
    by_cases huv : u = sz.toNat / PGSIZE - 2
    · subst huv
      rw [update_self, he, Option.map_some, Option.map_some, haddr,
        hpage _ (h.opened.ok.user_page hu he).2.2]
    · rw [update_of_ne huv]
      cases hu' : m.pte d u with
      | none => rfl
      | some e' => rw [Option.map_some, Option.map_some, hpage _ (h.opened.ok.user_page hu hu').2.2]
  · unfold Mem.userPage
    rw [hpte]
    by_cases huv : v = sz.toNat / PGSIZE - 2
    · have hclear : e &&& ~~~PTE_U &&& PTE_U = 0 := by
        rw [UInt32.and_assoc, show ~~~PTE_U &&& PTE_U = 0 by decide, UInt32.and_zero]
      subst huv
      rw [update_self, Option.bind_some, if_pos hclear]
      simp
    · rw [update_of_ne huv]
      exact ⟨fun _ => huv, fun _ => h.user v hv⟩

theorem wp_allocuvm_stack {newsz : UInt32} (hn : PGROUNDUP sz + UInt32.ofNat (2 * PGSIZE) = newsz) :
    wp (allocuvm d (PGROUNDUP sz) newsz) (fun r m' => ∃ sz', Loaded F d sz' img m₀ m' ∧
      (r = 0 ∨ r = sz' ∧ r.toNat = pagesOf sz * PGSIZE + 2 * PGSIZE)) E m := by
  have hsize := h.shape.size
  have hlim := pagesOf_le hsize
  have hround : (PGROUNDUP sz).toNat = pagesOf sz * PGSIZE :=
    toNat_PGROUNDUP (by simp only [KERNBASE] at hsize; omega)
  have hnew : newsz.toNat = pagesOf sz * PGSIZE + 2 * PGSIZE := by
    rw [← hn, toNat_add_ofNat, hround]
    rw [hround]
    simp only [PGSIZE]
    omega
  by_cases hbig : newsz.toNat ≥ KERNBASE
  · unfold allocuvm
    rw [if_pos hbig, wp_pure]
    exact ⟨sz, h, .inl rfl⟩
  refine wp_post (wp_allocuvm_loaded (h.roundup (by omega))) ?_
  rintro r m' ⟨sz', himg, hr⟩
  refine ⟨sz', himg, hr.imp_right fun hr => ⟨hr.1, ?_⟩⟩
  rw [hr.2, hnew, hround, max_eq_right (Nat.le_add_right _ _)]

end

/-- How the stack is built: with the whole block in its upper page, or not at all because memory is
short, there are too many strings or the block is too long. -/
def StackPost (F : Set ℕ) (d : ℕ) (sz : UInt32) (img : Bytes) (m₀ m : Mem) (argv : List (List UInt8)) :
    Option (UInt32 × UInt32) → Mem → Prop
  | none, m' => (∃ sz', Image F d sz' m₀ m') ∧
      ((∃ m₁, allocuvm d (PGROUNDUP sz) (PGROUNDUP sz + UInt32.ofNat (2 * PGSIZE)) m = .ok 0 m₁) ∨
        MAXARG < argv.length ∨ PGSIZE < argBlock argv)
  | some x, m' => x.1.toNat = pagesOf sz * PGSIZE + 2 * PGSIZE ∧ argBlock argv ≤ PGSIZE ∧
      x.2.toNat = x.1.toNat - argBlock argv ∧ Stacked F d x.1 (argImage img x.1.toNat argv) m₀ m'

theorem wp_buildStack_args (h : Loaded F d sz img m₀ m)
    (hblock : argBlock argv ≤ pagesOf sz * PGSIZE + 2 * PGSIZE) :
    wp (buildStack c d sz argv) (StackPost F d sz img m₀ m argv) E m := by
  unfold buildStack
  rw [wp_bind]
  generalize hn : PGROUNDUP sz + UInt32.ofNat (2 * PGSIZE) = newsz
  refine wp_post (wp_ran (wp_allocuvm_stack h hn)) ?_
  rintro r m₂ ⟨hrun, sz', himg, hr⟩
  by_cases hzero : r = 0
  · rw [if_pos hzero]
    exact ⟨⟨sz', himg.toImage⟩, .inl ⟨m₂, by rw [hn, hrun, hzero]⟩⟩
  obtain ⟨rfl, htop⟩ := hr.resolve_left hzero
  have hwhole : r.toNat % PGSIZE = 0 := by
    rw [htop]
    simp only [PGSIZE]
    omega
  have htwo : 2 * PGSIZE ≤ r.toNat := by omega
  have hsum : argBlock argv = argRooms argv + 4 * (4 + argv.length) := rfl
  have hmod : r.toNat % 4 = 0 := by
    simp only [PGSIZE] at hwhole
    omega
  have hrlt := r.toNat_lt
  rw [if_neg hzero, wp_bind]
  refine wp_post (wp_clearpteu_stacked himg hwhole htwo) ?_
  intro _ m₃ hst
  rw [wp_bind]
  refine wp_post (wp_pushArgs_stack hst hmod (Nat.sub_le _ _) le_rfl (by omega)) ?_
  rintro (_ | ⟨sp, ptrs⟩) m₄ hpost
  · obtain ⟨himg', hwhy⟩ := hpost
    refine ⟨⟨r, himg'⟩, .inr ?_⟩
    rw [length_nil, Nat.zero_add] at hwhy
    omega
  · obtain ⟨hsp, hle, hptrs, hst'⟩ := hpost
    have hptrs : ptrs = (argPtrs r.toNat argv).map UInt32.ofNat := hptrs
    have hlen : ptrs.length = argv.length := by rw [hptrs, length_map, length_argPtrs]
    have hsp : sp.toNat = r.toNat - argRooms argv := hsp
    have hle : r.toNat - PGSIZE + argRooms argv ≤ r.toNat := hle
    have hwords : (3 + ptrs.length + 1) * 4 = 4 * (4 + argv.length) := by omega
    simp only [wp_bind]
    rw [hwords]
    have hesp : (sp - UInt32.ofNat (4 * (4 + argv.length))).toNat = r.toNat - argBlock argv := by
      have := toNat_sub_cases sp (show 4 * (4 + argv.length) < 2 ^ 32 by omega)
      omega
    generalize sp - UInt32.ofNat (4 * (4 + argv.length)) = esp at hesp ⊢
    refine wp_post (wp_copyout_stack hst' (by omega) (by omega) (by omega)) ?_
    rintro b m₅ (⟨rfl, hfit, hdone⟩ | ⟨rfl, hlong, himg'⟩)
    · rw [if_pos rfl]
      refine ⟨htop, by omega, hesp, ?_⟩
      rw [hesp, hptrs, ← UInt32.ofNat_toNat (x := sp), hsp] at hdone
      exact hdone
    · rw [if_neg Bool.false_ne_true]
      exact ⟨⟨r, himg'⟩, .inr (.inr (by omega))⟩

end Xv6.Vm
