import Xv6.HeapCalls

/-!
# Runs of a program on its heap

Every call of `malloc` and `free` in a run returns, keeps the heap in order and does not touch the blocks
of the program.
-/

namespace Xv6.Umalloc

open ByteLayout Blk PointerChain Heap List

variable {base n : ℕ} {h h' : Heap} {ns lv lv' : List Blk} {b c x : Blk} {w : World} {nbytes : UInt32}
  {sbrk : List (Option ℕ)}

/-- Before the first call of `malloc` there is no heap; then the free blocks are a ring. -/
def WorldOk (base : ℕ) (w : World) : Prop :=
  (w.heap.freep = 0 ∧ w.heap.core = [] ∧ w.live = []) ∨ ∃ ns, Rep base w.heap ns w.live

theorem Gives.unique {α : Type} {f : ℕ → Option α} {a a' : α} (ha : Gives f a) (ha' : Gives f a') : a = a' := by
  obtain ⟨N, hN⟩ := ha
  obtain ⟨N', hN'⟩ := ha'
  exact Option.some.inj ((hN _ (le_max_left N N')).symm.trans (hN' _ (le_max_right N N')))

/-! ## The heap as the program sees it -/

section

variable (r : Rep base h ns lv)
include r

theorem Rep.perm (hp : lv.Perm lv') : Rep base h ns lv' := by
  have hmem : ∀ x, x ∈ ns ++ lv' ↔ x ∈ ns ++ lv := fun x => (hp.append_left ns).mem_iff.symm
  refine ⟨r.head, r.ring, r.freep, fun x hx => r.size x ((hmem x).1 hx), r.sorted,
    fun x hx => r.live_pos x (hp.mem_iff.2 hx), fun x hx c hc => r.apart x hx c (hp.mem_iff.2 hc), ?_,
    fun c hc => r.low c (hp.mem_iff.2 hc), fun x hx => r.high x ((hmem x).1 hx), fun a => ?_⟩
  · exact (hp.pairwise_iff fun hxy => Apart.symm hxy).1 r.live_apart
  · exact (exists_congr fun x => and_congr_left fun _ => hmem x).trans (r.cover a)

theorem Rep.congr (hfreep : h'.freep = h.freep) (hcore : h'.core = h.core)
    (hmem : ∀ x ∈ ns ++ lv, ∀ a, x.addr ≤ a → a < x.addr + 8 → h'.mem a = h.mem a) : Rep base h' ns lv := by
  refine ⟨r.head, r.ring.congr fun p hp => ?_, by rw [hfreep]; exact r.freep, fun x hx => ?_, r.sorted,
    r.live_pos, r.apart, r.live_apart, r.low, r.high, by rw [hcore]; exact r.cover⟩
  · obtain ⟨x, hx, rfl⟩ := mem_map.1 hp
    exact congrArg UInt32.toNat (get32_congr fun i hi =>
      hmem x (mem_append_left lv hx) _ (by omega) (by omega))
  · rw [← r.size x hx]
    exact congrArg UInt32.toNat (get32_congr fun i hi => hmem x hx _ (by omega) (by omega))

theorem Rep.store (hb : b ∈ lv) {a : ℕ} (ha : b.addr + HDR ≤ a ∧ a < b.fin) (v : UInt8) :
    Rep base { h with mem := Function.update h.mem a v } ns lv := by
  refine r.congr rfl rfl fun x hx a' h₁ h₂ => ?_
  refine Function.update_of_ne ?_ _ _
  rintro rfl
  have hHDR : HDR = 8 := rfl
  by_cases hxb : x = b
  · rw [hxb] at h₂
    omega
  · have hapart : Apart x b := by
      rcases mem_append.1 hx with hx | hx
      · exact r.apart x hx b hb
      · have : Std.Symm Apart := ⟨fun _ _ hxy => hxy.symm⟩
        exact r.live_apart.forall hx hb hxb
    have := hapart.outside (a := a') ⟨by omega, ha.2⟩
    omega

end

theorem Rep.freep_pos (hbase : 0 < base) (r : Rep base h ns lv) : h.freep ≠ 0 := by
  obtain ⟨x, hx, hxa⟩ := mem_map.1 r.freep
  have := r.base_le hx
  omega

theorem rep_init (hlow : base + HDR < KERNBASE) (hcore : h.core = []) :
    Rep base { (h.setPtr base base).setSize base 0 with freep := base } [⟨base, 0⟩] [] := by
  unfold HDR KERNBASE at hlow
  refine ⟨⟨[], rfl, nofun⟩, ⟨rfl, ?_⟩, by simp, ?_, pairwise_singleton _ _, nofun, fun _ _ _ => nofun,
    List.Pairwise.nil, nofun, ?_, fun a => ?_⟩
  · show ((h.setPtr base base).setSize base 0).ptr base = base
    rw [ptr_setSize (.inl rfl), ptr_setPtr (by omega)]
  · intro x hx
    obtain rfl : x = ⟨base, 0⟩ := by simpa using hx
    exact size_setSize (by omega)
  · intro x hx
    obtain rfl : x = ⟨base, 0⟩ := by simpa using hx
    exact hlow
  · show _ ↔ ∃ r ∈ h.core, r.Has a
    rw [hcore]
    simp only [append_nil, mem_singleton, exists_eq_left, not_mem_nil, false_and, exists_false,
      iff_false, Has, fin_eq]
    omega

/-! ## Calls -/

theorem nunits_pos (nbytes : UInt32) : 0 < nunits nbytes := Nat.succ_pos _

theorem Rep.malloc (hbase : 0 < base) (r : Rep base h ns lv) (hask : Asks base h nbytes sbrk) :
    ∃ q h', Gives (fun n => malloc base n nbytes sbrk h) (q, h') ∧
      Outcome base h ns lv (nunits nbytes) sbrk q h' := by
  unfold Umalloc.malloc
  rw [if_neg (r.freep_pos hbase)]
  exact r.scan_outcome (nunits_pos nbytes) hask.2

theorem WorldOk.malloc (hbase : 0 < base) (hlow : base + HDR < KERNBASE) (hw : WorldOk base w)
    (hask : Asks base w.heap nbytes sbrk) :
    ∃ q h' h₀ ns, Gives (fun n => malloc base n nbytes sbrk w.heap) (q, h') ∧
      Outcome base h₀ ns w.live (nunits nbytes) sbrk q h' ∧ Rep base h₀ ns w.live ∧
      (w.heap.freep ≠ 0 → h₀ = w.heap) := by
  rcases hw with ⟨hfreep, hcore, hlive⟩ | ⟨ns, r⟩
  · have r₀ := rep_init (h := w.heap) hlow hcore
    rw [← hlive] at r₀
    obtain ⟨q, h', hgives, hout⟩ := r₀.scan_outcome (nunits_pos nbytes) fun p rest hp => hask.2 p rest hp
    refine ⟨q, h', _, _, ?_, hout, r₀, fun hne => (hne hfreep).elim⟩
    unfold Umalloc.malloc
    rw [if_pos hfreep]
    exact hgives
  · obtain ⟨q, h', hgives, hout⟩ := r.malloc hbase hask
    exact ⟨q, h', w.heap, ns, hgives, hout, r, fun _ => rfl⟩

theorem WorldOk.free (hw : WorldOk base w) (hb : b ∈ w.live) :
    ∃ h', Gives (fun n => free n (b.addr + HDR) w.heap) h' ∧ (∃ ns, Rep base h' ns (w.live.erase b)) ∧
      ∀ c ∈ w.live.erase b, ∀ a, c.Has a → h'.mem a = w.heap.mem a := by
  rcases hw with ⟨-, -, hlive⟩ | ⟨ns, r⟩
  · rw [hlive] at hb
    cases hb
  · have r' := r.perm (perm_cons_erase hb)
    obtain ⟨A, t, l, hp⟩ := r'.exists_place
    obtain ⟨r'', htouch⟩ := r'.freed hp
    refine ⟨freedHeap w.heap b t, ⟨ns.length + 1, fun n hn => hp.free r' hn⟩, ⟨_, r''⟩, fun c hc a ha => ?_⟩
    refine htouch a fun q hq => ?_
    rcases mem_cons.1 hq with rfl | hq
    · exact ((pairwise_cons.1 r'.live_apart).1 c hc).outside ha
    · rw [mem_singleton.1 hq]
      exact (r'.apart t (by rw [hp.eq]; simp) c (mem_cons_of_mem b hc)).outside ha

theorem Run.ok (hbase : 0 < base) (hlow : base + HDR < KERNBASE) (hw : Run base w) : WorldOk base w := by
  induction hw with
  | start mem => exact .inl ⟨rfl, rfl, rfl⟩
  | store v hw hb ha ih =>
    rcases ih with ⟨-, -, hlive⟩ | ⟨ns, r⟩
    · rw [hlive] at hb
      cases hb
    · exact .inr ⟨ns, r.store hb ha v⟩
  | @malloc w nbytes sbrk q h hw hask hm ih =>
    obtain ⟨q', h', h₀, ns, hgives, hout, r₀, -⟩ := ih.malloc hbase hlow hask
    obtain ⟨rfl, rfl⟩ := Prod.mk.inj (hm.unique hgives)
    cases hout with
    | fails hsmall hsbrk =>
      rw [if_pos rfl]
      exact .inr ⟨ns, r₀⟩
    | @gives a ns' _ hrep hframe =>
      rw [if_neg (show a + HDR ≠ 0 by simp), Nat.add_sub_cancel,
        hrep.size ⟨a, nunits nbytes⟩ (mem_append_right ns' mem_cons_self)]
      exact .inr ⟨ns', hrep⟩
  | @free w b h hw hb hf ih =>
    obtain ⟨h', hgives, hrep, -⟩ := ih.free hb
    obtain rfl := hf.unique hgives
    exact .inr hrep

theorem nunits_enough (nbytes : UInt32) :
    nbytes.toNat + HDR ≤ HDR * nunits nbytes ↔ nbytes.toNat + 7 < 2 ^ 32 := by
  have := nbytes.toNat_lt
  unfold nunits HDR
  rw [UInt32.toNat_add, show (7 : UInt32).toNat = 7 from rfl]
  omega

/-- The heap of a program is in order along every run, all calls return, and they do not change the
blocks of the program. A block is as large as it was asked for exactly if the request does not wrap. -/
theorem heap_sound (hbase : 0 < base) (hlow : base + HDR < KERNBASE) (hw : Run base w) :
    WorldOk base w ∧
    (∀ nbytes sbrk, Asks base w.heap nbytes sbrk →
      ∃ r h', Gives (fun n => malloc base n nbytes sbrk w.heap) (r, h') ∧
        (∀ c ∈ w.live, ∀ a, c.Has a → h'.mem a = w.heap.mem a) ∧
        (r = 0 → (∀ ns, Rep base w.heap ns w.live → ∀ x ∈ ns, x.size < nunits nbytes) ∧
          ∀ p rest, sbrk ≠ some p :: rest) ∧
        (r ≠ 0 → (∀ c ∈ w.live, Apart ⟨r - HDR, h'.size (r - HDR)⟩ c) ∧
          (nbytes.toNat + HDR ≤ HDR * h'.size (r - HDR) ↔ nbytes.toNat + 7 < 2 ^ 32))) ∧
    ∀ b ∈ w.live, ∃ h', Gives (fun n => free n (b.addr + HDR) w.heap) h' ∧
      ∀ c ∈ w.live.erase b, ∀ a, c.Has a → h'.mem a = w.heap.mem a := by
  have hok := hw.ok hbase hlow
  refine ⟨hok, fun nbytes sbrk hask => ?_, fun b hb => ?_⟩
  · obtain ⟨q, h', h₀, ns, hgives, hout, r₀, hsame⟩ := hok.malloc hbase hlow hask
    refine ⟨q, h', hgives, fun c hc a ha => ?_, fun hq => ?_, fun hq => ?_⟩
    · have hinit : w.heap.freep ≠ 0 := by
        rcases hok with ⟨-, -, hlive⟩ | ⟨ns, r⟩
        · rw [hlive] at hc
          cases hc
        · exact r.freep_pos hbase
      rw [← hsame hinit]
      cases hout with
      | fails hsmall hsbrk => rfl
      | gives hrep hframe => exact hframe c hc a ha
    · cases hout with
      | gives hrep hframe => exact absurd hq (by simp)
      | fails hsmall hsbrk =>
        refine ⟨fun ns' r => ?_, hsbrk⟩
        -- the answer does not depend on which list the ring is described by
        obtain ⟨q', h', hgives', hout'⟩ := r.malloc hbase hask
        obtain ⟨hq', -⟩ := Prod.mk.inj (hgives.unique hgives')
        cases hout' with
        | fails hsmall' _ => exact hsmall'
        | gives hrep' hframe' => exact absurd hq' (by simp)
    · cases hout with
      | fails hsmall hsbrk => exact (hq rfl).elim
      | @gives a ns' _ hrep hframe =>
        rw [Nat.add_sub_cancel,
          hrep.size ⟨a, nunits nbytes⟩ (mem_append_right ns' mem_cons_self)]
        exact ⟨(pairwise_cons.1 hrep.live_apart).1, nunits_enough nbytes⟩
  · obtain ⟨h', hgives, -, hframe⟩ := hok.free hb
    exact ⟨h', hgives, hframe⟩

/-- A program asks for 100 bytes first. -/
theorem heap_sound_first : ∃ r h', Gives (fun n => malloc 4096 n 100 [some 8192] ⟨fun _ => 0, 0, []⟩) (r, h') ∧
    r ≠ 0 ∧ 100 + HDR ≤ HDR * h'.size (r - HDR) := by
  have hask : Asks 4096 ⟨fun _ => 0, 0, []⟩ 100 [some 8192] := by
    refine ⟨by decide, ?_⟩
    rintro p rest ⟨⟩
    exact ⟨by decide, nofun, by decide⟩
  obtain ⟨r, h', hgives, -, hzero, hpos⟩ :=
    (heap_sound (by decide) (by decide) (Run.start (fun _ => 0) : Run 4096 _)).2.1 100 [some 8192] hask
  have hr : r ≠ 0 := fun hr => (hzero hr).2 8192 [] rfl
  exact ⟨r, h', hgives, hr, (hpos hr).2.2 (by decide)⟩

/-- The first call on a new heap gets its memory from `sbrk`. -/
theorem malloc_first (nbytes : UInt32) (hfresh : HDR * max (nunits nbytes) 4096 < 2 ^ 30) :
    ∃ r h', Asks 4096 ⟨fun _ => 0, 0, []⟩ nbytes [some 8192] ∧
      Gives (fun n => malloc 4096 n nbytes [some 8192] ⟨fun _ => 0, 0, []⟩) (r, h') ∧ r ≠ 0 ∧
      h'.size (r - HDR) = nunits nbytes := by
  have hask : Asks 4096 ⟨fun _ => 0, 0, []⟩ nbytes [some 8192] := by
    refine ⟨by omega, ?_⟩
    rintro p rest ⟨⟩
    refine ⟨by decide, nofun, ?_⟩
    simp only [KERNBASE]
    omega
  have hok : WorldOk 4096 ⟨⟨fun _ => 0, 0, []⟩, []⟩ := .inl ⟨rfl, rfl, rfl⟩
  obtain ⟨q, h', h₀, ns, hgives, hout, -, -⟩ := hok.malloc (by decide) (by decide) hask
  cases hout with
  | fails hsmall hsbrk => exact (hsbrk 8192 [] rfl).elim
  | @gives a ns' _ hrep hframe =>
    refine ⟨a + HDR, h', hask, hgives, by simp, ?_⟩
    rw [Nat.add_sub_cancel]
    exact hrep.size ⟨a, nunits nbytes⟩ (mem_append_right ns' mem_cons_self)

/-- For 2 ^ 32 - 1 bytes the number of units wraps around, and the block has no room for a single byte. -/
theorem malloc_wraps : ∃ r h', Asks 4096 ⟨fun _ => 0, 0, []⟩ 0xFFFFFFFF [some 8192] ∧
    Gives (fun n => malloc 4096 n 0xFFFFFFFF [some 8192] ⟨fun _ => 0, 0, []⟩) (r, h') ∧
    r ≠ 0 ∧ HDR * h'.size (r - HDR) = HDR := by
  obtain ⟨r, h', hask, hgives, hr, hsize⟩ := malloc_first 0xFFFFFFFF (by decide)
  exact ⟨r, h', hask, hgives, hr, by rw [hsize]; rfl⟩

end Xv6.Umalloc
