import Xv6.GrepModel

/-!
# The lines that grep prints

The bytes of the buffer that are not yet printed are a list of whole lines and the beginning of another.
A round prints the lines that match and carries the beginning to the next round, unless there is no whole
line in the buffer.
-/

namespace Xv6.Grep

open ByteLayout Function List Nat

abbrev newline : UInt8 := ch '\n'

/-- The lines with their newlines. -/
def unlines (ls : List (List UInt8)) : List UInt8 := ls.flatMap (· ++ [newline])

/-- The text of a line: without newline and NUL. -/
def Plain (l : List UInt8) : Prop := newline ∉ l ∧ 0 ∉ l

variable {z : List UInt8} {ls : List (List UInt8)} {c : UInt8} {n q : ℕ}

theorem unlines_cons (l : List UInt8) (ls : List (List UInt8)) :
    unlines (l :: ls) = l ++ newline :: unlines ls := by
  rw [unlines, flatMap_cons, append_assoc]
  rfl

theorem unlines_append (ls ls' : List (List UInt8)) : unlines (ls ++ ls') = unlines ls ++ unlines ls' :=
  flatMap_append

/-! ## Splitting at newlines -/

theorem exists_unlines (y : List UInt8) : ∃ ls tail, y = unlines ls ++ tail ∧ (∀ l ∈ ls, newline ∉ l) ∧
    newline ∉ tail := by
  induction y with
  | nil => exact ⟨[], [], rfl, nofun, not_mem_nil⟩
  | cons c y ih =>
    obtain ⟨ls, tail, rfl, hls, htail⟩ := ih
    by_cases hc : newline = c
    · refine ⟨[] :: ls, tail, ?_, ?_, htail⟩
      · rw [unlines_cons, hc]
        rfl
      · intro l hl
        rcases mem_cons.1 hl with rfl | hl
        · exact not_mem_nil
        · exact hls l hl
    · cases ls with
      | nil => exact ⟨[], c :: tail, rfl, nofun, not_mem_cons_of_ne_of_not_mem hc htail⟩
      | cons l ls =>
        refine ⟨(c :: l) :: ls, tail, ?_, ?_, htail⟩
        · rw [unlines_cons, unlines_cons]
          rfl
        · intro l' hl'
          rcases mem_cons.1 hl' with rfl | hl'
          · exact not_mem_cons_of_ne_of_not_mem hc (hls l mem_cons_self)
          · exact hls l' (mem_cons_of_mem l hl')

theorem append_newline_inj {l l' z' : List UInt8} (hl : newline ∉ l) (hl' : newline ∉ l')
    (h : l ++ newline :: z = l' ++ newline :: z') : l = l' ∧ z = z' := by
  induction l generalizing l' with
  | nil =>
    cases l' with
    | nil => exact ⟨rfl, (List.cons.inj h).2⟩
    | cons c l' => exact absurd (List.cons.inj h).1 (ne_of_not_mem_cons hl')
  | cons c l ih =>
    cases l' with
    | nil => exact absurd (List.cons.inj h).1.symm (ne_of_not_mem_cons hl)
    | cons c' l' =>
      obtain ⟨rfl, hrest⟩ := List.cons.inj h
      obtain ⟨rfl, hz⟩ := ih (not_mem_of_not_mem_cons hl) (not_mem_of_not_mem_cons hl') hrest
      exact ⟨rfl, hz⟩

theorem unlines_beginning {ls₁ : List (List UInt8)} (hls : ∀ l ∈ ls, newline ∉ l)
    (hls₁ : ∀ l ∈ ls₁, newline ∉ l) (h : unlines ls₁ ++ z = unlines ls) :
    ∃ ls₂, ls = ls₁ ++ ls₂ ∧ z = unlines ls₂ := by
  induction ls₁ generalizing ls with
  | nil => exact ⟨ls, rfl, h⟩
  | cons l₁ ls₁ ih =>
    rw [unlines_cons, append_assoc, cons_append] at h
    cases ls with
    | nil => exact absurd h (by simp [unlines])
    | cons l ls =>
      rw [unlines_cons] at h
      obtain ⟨rfl, hrest⟩ := append_newline_inj (hls₁ l₁ mem_cons_self) (hls l mem_cons_self) h
      obtain ⟨ls₂, rfl, hz⟩ := ih (fun l hl => hls l (mem_cons_of_mem _ hl))
        (fun l hl => hls₁ l (mem_cons_of_mem _ hl)) hrest
      exact ⟨ls₂, rfl, hz⟩

/-! ## The buffer -/

structure StringAt (buf : Bytes) (p : ℕ) (x : List UInt8) : Prop where
  byte : ∀ i < x.length, buf (p + i) = x.getD i 0
  nul : buf (p + x.length) = 0
  fits : p + x.length < BUFSIZE

variable {buf : Bytes} {p : ℕ} {x l z : List UInt8} {pattern : List UInt8}

theorem StringAt.tail (h : StringAt buf p (c :: x)) : StringAt buf (p + 1) x := by
  refine ⟨fun i hi => ?_, ?_, ?_⟩
  · have := h.byte (i + 1) (succ_lt_succ hi)
    rwa [getD_cons_succ, add_comm i 1, ← add_assoc] at this
  · have := h.nul
    rwa [length_cons, add_comm x.length 1, ← add_assoc] at this
  · have := h.fits
    rw [length_cons] at this
    omega

theorem StringAt.head (h : StringAt buf p (c :: x)) : buf p = c := h.byte 0 (Nat.succ_pos _)

theorem StringAt.drop (h : StringAt buf p (l ++ x)) : StringAt buf (p + l.length) x := by
  induction l generalizing p with
  | nil => exact h
  | cons c l ih =>
    have := ih h.tail
    rwa [add_assoc, add_comm 1, ← length_cons] at this

theorem strchr_none (h : StringAt buf p x) (hx : newline ∉ x) : strchr buf newline n p = none := by
  induction x generalizing p n with
  | nil =>
    cases n with
    | zero => rfl
    | succ n => exact if_pos h.nul
  | cons c x ih =>
    cases n with
    | zero => rfl
    | succ n =>
      rw [strchr, h.head, if_neg (ne_of_not_mem_cons hx).symm, ih h.tail (not_mem_of_not_mem_cons hx)]
      exact ite_self _

theorem strchr_newline (h : StringAt buf p (l ++ newline :: z)) (hl : Plain l) (hn : l.length < n) :
    strchr buf newline n p = some (p + l.length) := by
  induction l generalizing p n with
  | nil =>
    obtain ⟨n, rfl⟩ := exists_eq_succ_of_ne_zero (ne_of_gt hn)
    have hhead : buf p = newline := h.head
    rw [strchr, hhead, if_neg (by decide), if_pos rfl]
    rfl
  | cons c l ih =>
    obtain ⟨n, rfl⟩ := exists_eq_succ_of_ne_zero (ne_zero_of_lt hn)
    have hhead : buf p = c := h.head
    have hrest := ih h.tail ⟨not_mem_of_not_mem_cons hl.1, not_mem_of_not_mem_cons hl.2⟩
      (lt_of_succ_lt_succ hn)
    rw [strchr, hhead, if_neg (ne_of_not_mem_cons hl.2).symm, if_neg (ne_of_not_mem_cons hl.1).symm, hrest,
      length_cons, add_assoc, add_comm 1]

section

variable (h : StringAt buf p x)
include h

theorem StringAt.bytes (hn : n ≤ x.length) :
    (List.range n).map (fun i => buf (p + i)) = x.take n := by
  refine ext_getElem (by simp [hn]) fun i hi hi' => ?_
  rw [length_map, length_range] at hi
  rw [getElem_map, getElem_range, h.byte i (by omega), getElem_take,
    getD_eq_getElem _ _ (by omega)]

theorem cstring_eq (hx : 0 ∉ x) : cstring buf p = x := by
  obtain ⟨k, hk⟩ : ∃ k, BUFSIZE - p = x.length + (1 + k) := ⟨BUFSIZE - p - x.length - 1, by have := h.fits; omega⟩
  have hpos : ∀ c ∈ x, decide (c ≠ 0) = true := by
    intro c hc
    refine decide_eq_true fun h0 => hx ?_
    rwa [h0] at hc
  rw [cstring, hk, range_add, map_append, h.bytes le_rfl, take_length,
    takeWhile_append_of_pos hpos]
  rw [add_comm 1 k, range_succ_eq_map, map_cons, map_cons, add_zero, h.nul]
  simp

/-! ## Rounds -/

theorem StringAt.store (hq : q < p) (v : UInt8) : StringAt (update buf q v) p x := by
  refine ⟨fun i hi => ?_, ?_, h.fits⟩
  · rw [update_of_ne (by omega), h.byte i hi]
  · rw [update_of_ne (by omega), h.nul]

end

theorem StringAt.cut (h : StringAt buf p (l ++ newline :: z)) :
    StringAt (update buf (p + l.length) 0) p l := by
  have hlen : (l ++ newline :: z).length = l.length + (z.length + 1) := length_append
  refine ⟨fun i hi => ?_, update_self .., by have := h.fits; omega⟩
  rw [update_of_ne (by omega), h.byte i (by omega), getD_append _ _ _ _ hi]

theorem printLines_none (h : strchr buf newline (BUFSIZE - p) p = none) : printLines pattern buf p = ([], buf, p) := by
  rw [printLines]
  split
  · rfl
  · rename_i q hq
    rw [h] at hq
    cases hq

theorem printLines_some (h : strchr buf newline (BUFSIZE - p) p = some q) :
    printLines pattern buf p =
      if «match» pattern (cstring (update buf q 0) p) then
        ((List.range (q + 1 - p)).map (fun i => update (update buf q 0) q newline (p + i)) ++
          (printLines pattern (update (update buf q 0) q newline) (q + 1)).1,
          (printLines pattern (update (update buf q 0) q newline) (q + 1)).2)
      else printLines pattern (update buf q 0) (q + 1) := by
  rw [printLines]
  split
  · rename_i hq
    rw [h] at hq
    cases hq
  · rename_i q' hq
    obtain rfl : q = q' := Option.some.inj (h.symm.trans hq)
    rfl

theorem printLines_eq (pattern : List UInt8) (h : StringAt buf p (unlines ls ++ z)) (hls : ∀ l ∈ ls, Plain l)
    (hz : newline ∉ z) : ∃ buf', printLines pattern buf p =
      (unlines (ls.filter («match» pattern)), buf', p + (unlines ls).length) ∧
      StringAt buf' (p + (unlines ls).length) z := by
  induction ls generalizing buf p with
  | nil =>
    refine ⟨buf, ?_, h⟩
    rw [printLines_none (strchr_none h hz)]
    rfl
  | cons l ls ih =>
    rw [unlines_cons, append_assoc, cons_append] at h
    have hl := hls l mem_cons_self
    have hfind := strchr_newline (n := BUFSIZE - p) h hl (by
      have hlen : (l ++ newline :: (unlines ls ++ z)).length = l.length + ((unlines ls ++ z).length + 1) :=
        length_append
      have := h.fits
      omega)
    have htext : cstring (update buf (p + l.length) 0) p = l := cstring_eq h.cut hl.2
    have hnext : StringAt buf (p + l.length + 1) (unlines ls ++ z) := h.drop.tail
    have hend : p + (unlines (l :: ls)).length = p + l.length + 1 + (unlines ls).length := by
      rw [unlines_cons, length_append, length_cons]
      omega
    have hback : update (update buf (p + l.length) 0) (p + l.length) newline = buf := by
      rw [update_idem, ← h.drop.head, update_eq_self]
    have hls' : ∀ l ∈ ls, Plain l := fun l hl => hls l (mem_cons_of_mem _ hl)
    rw [printLines_some hfind, htext, hback, hend]
    by_cases hmatch : «match» pattern l = true
    · obtain ⟨buf', hrest, hbuf'⟩ := ih hnext hls'
      refine ⟨buf', ?_, hbuf'⟩
      have hlen : p + l.length + 1 - p = l.length + 1 := by omega
      have hline : (l ++ newline :: (unlines ls ++ z)).take (l.length + 1) = l ++ [newline] := by
        rw [take_append, take_of_length_le (Nat.le_succ _), Nat.add_sub_cancel_left]
        rfl
      rw [if_pos hmatch, hrest, hlen, h.bytes (by rw [length_append, length_cons]; omega), hline,
        filter_cons_of_pos hmatch, unlines_cons, append_assoc]
      rfl
    · obtain ⟨buf', hrest, hbuf'⟩ := ih (hnext.store (Nat.lt_succ_self _) 0) hls'
      refine ⟨buf', ?_, hbuf'⟩
      rw [if_neg hmatch, hrest, filter_cons_of_neg hmatch]

/-- The state between two rounds: `x` is the beginning of a line that is carried over. -/
structure Carries (s : State) (x : List UInt8) : Prop where
  m : s.m = x.length
  byte : ∀ i < x.length, s.buf i = x.getD i 0

variable {s : State} {chunk tail : List UInt8} {ls : List (List UInt8)}

theorem Carries.filled (h : Carries s x) (hfit : (x ++ chunk).length < BUFSIZE) :
    StringAt (update (blit s.buf s.m chunk.length fun i => chunk.getD i 0) (s.m + chunk.length) 0) 0
      (x ++ chunk) := by
  have hm := h.m
  have hlen : (x ++ chunk).length = s.m + chunk.length := by rw [length_append, h.m]
  refine ⟨fun i hi => ?_, ?_, by omega⟩
  · rw [Nat.zero_add, update_of_ne (by omega)]
    by_cases hx : i < x.length
    · rw [blit_outside (.inl (by rw [h.m]; exact hx)), h.byte i hx, getD_append _ _ _ _ hx]
    · obtain ⟨j, rfl⟩ := Nat.exists_eq_add_of_le (Nat.le_of_not_lt hx)
      rw [← h.m, blit_inside (by omega), getD_append_right _ _ _ _ (by rw [h.m]; omega), h.m,
        Nat.add_sub_cancel_left]
  · rw [Nat.zero_add, hlen, update_self]

theorem round_spec (pattern : List UInt8) (h : Carries s x) (hsplit : x ++ chunk = unlines ls ++ tail) (hls : ∀ l ∈ ls, Plain l)
    (htail : newline ∉ tail) (hfit : (x ++ chunk).length < BUFSIZE) :
    (s.round pattern chunk).out = s.out ++ unlines (ls.filter («match» pattern)) ∧
      Carries (s.round pattern chunk) (if ls = [] then [] else tail) := by
  have hbuf := h.filled hfit
  have hlen : s.m + chunk.length = (unlines ls).length + tail.length := by
    rw [h.m, ← length_append, hsplit, length_append]
  rw [hsplit] at hbuf
  obtain ⟨buf', hprint, hrest⟩ := printLines_eq pattern hbuf hls htail
  rw [Nat.zero_add] at hprint hrest
  cases ls with
  | nil =>
    have hround : s.round pattern chunk = ⟨buf', 0, s.out ++ []⟩ := by
      unfold State.round
      dsimp only
      rw [hprint]
      rfl
    rw [hround, if_pos rfl]
    exact ⟨rfl, rfl, nofun⟩
  | cons l ls =>
    have hpos : 0 < (unlines (l :: ls)).length := by
      rw [unlines_cons, length_append, length_cons]
      omega
    have hround : s.round pattern chunk = ⟨blit buf' 0 tail.length (fun i => buf' ((unlines (l :: ls)).length + i)),
        tail.length, s.out ++ unlines ((l :: ls).filter («match» pattern))⟩ := by
      unfold State.round
      dsimp only
      rw [hprint]
      dsimp only
      rw [if_neg (Nat.ne_of_gt hpos), if_pos (by omega), hlen, Nat.add_sub_cancel_left, Nat.cast_add,
        add_sub_cancel_left]
      have hmove : Ulib.memmove buf' 0 (unlines (l :: ls)).length (tail.length : ℤ) =
          blit buf' 0 tail.length fun i => buf' ((unlines (l :: ls)).length + i) :=
        copyUp_eq fun hc => absurd hc.1 (Nat.not_lt_zero _)
      rw [hmove]
    rw [hround, if_neg (cons_ne_nil l ls)]
    refine ⟨rfl, rfl, fun i hi => ?_⟩
    have hat : blit buf' 0 tail.length (fun i => buf' ((unlines (l :: ls)).length + i)) (0 + i) =
        buf' ((unlines (l :: ls)).length + i) := blit_inside hi
    rw [Nat.zero_add] at hat
    exact hat.trans (hrest.byte i hi)

/-! ## The whole input -/

theorem foldl_round {chunks : List (List UInt8)} (h : Carries s x) (hx : newline ∉ x)
    (hin : x ++ chunks.flatten = unlines ls) (hls : ∀ l ∈ ls, Plain l) (hread : Delivers pattern s chunks)
    (hline : ∀ c ∈ chunks, newline ∈ c) :
    (chunks.foldl (State.round pattern) s).out = s.out ++ unlines (ls.filter («match» pattern)) := by
  induction chunks generalizing s x ls with
  | nil =>
    cases ls with
    | nil => exact (append_nil _).symm
    | cons l ls =>
      rw [flatten_nil, append_nil, unlines_cons] at hin
      exact absurd (hin ▸ mem_append_right l mem_cons_self) hx
  | cons chunk chunks ih =>
    obtain ⟨hne, hfit, hread⟩ := hread
    obtain ⟨ls₁, tail, hsplit, hls₁, htail⟩ := exists_unlines (x ++ chunk)
    rw [flatten_cons, ← append_assoc, hsplit, append_assoc] at hin
    obtain ⟨ls₂, rfl, hrest⟩ := unlines_beginning (fun l hl => (hls l hl).1) hls₁ hin
    have hplain₁ : ∀ l ∈ ls₁, Plain l := fun l hl => hls l (mem_append_left ls₂ hl)
    have hsome : ls₁ ≠ [] := by
      rintro rfl
      have hmem : newline ∈ x ++ chunk := mem_append_right x (hline chunk mem_cons_self)
      rw [hsplit] at hmem
      exact htail hmem
    obtain ⟨hout, hcarry⟩ := round_spec pattern h hsplit hplain₁ htail (by
      rw [length_append, ← h.m]
      omega)
    rw [if_neg hsome] at hcarry
    rw [foldl_cons, ih hcarry htail hrest (fun l hl => hls l (mem_append_right ls₁ hl)) hread
      (fun c hc => hline c (mem_cons_of_mem chunk hc)), hout, filter_append, unlines_append,
      append_assoc]

end Xv6.Grep
