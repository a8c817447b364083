import Xv6.FileData
import Xv6.SyscallModel

/-!
# Directories as lists of entries

The contents of a directory, decoded. Names are compared on `DIRSIZ` bytes up to a NUL, a loop over the
entries finds the first one with a property, and a `writei` of one record changes one entry or appends one.
-/

namespace Xv6.Fs

open Resumption ByteLayout FreeMap List

/-! ## Names -/

/-- What a directory entry keeps of a name. -/
def canon (name : Name) : Name := (name.take DIRSIZ).takeWhile (· ≠ 0)

variable {msg : String} {b : ℕ} {R : ℕ × Option Dirent → FsState → Prop} {p : Dirent → Bool}

theorem takeWhile_take_succ (p : Name) (n : ℕ) : (p.take (n + 1)).takeWhile (· ≠ 0) =
    if p.headD 0 = 0 then [] else p.headD 0 :: (p.tail.take n).takeWhile (· ≠ 0) := by
  cases p with
  | nil => rfl
  | cons c p =>
    rw [take_succ_cons, headD_cons, tail_cons]
    by_cases hc : c = 0
    · rw [if_pos hc, takeWhile_cons_of_neg (by simpa using hc)]
    · rw [if_neg hc, takeWhile_cons_of_pos (by simpa using hc)]

theorem strncmp_eq_zero_iff (n : ℕ) (p q : Name) :
    strncmp n p q = 0 ↔ (p.take n).takeWhile (· ≠ 0) = (q.take n).takeWhile (· ≠ 0) := by
  induction n generalizing p q with
  | zero => simp [strncmp]
  | succ n ih =>
    rw [strncmp, takeWhile_take_succ, takeWhile_take_succ]
    by_cases hc : p.headD 0 ≠ 0 ∧ p.headD 0 = q.headD 0
    · rw [if_pos hc, if_neg hc.1, if_neg (hc.2 ▸ hc.1), ih, hc.2, cons_inj_right]
    · rw [if_neg hc, sub_eq_zero, Nat.cast_inj, UInt8.toNat_inj]
      constructor
      · intro heq
        have hp : p.headD 0 = 0 := by
          by_contra hne
          exact hc ⟨hne, heq⟩
        rw [if_pos hp, if_pos (heq ▸ hp)]
      · intro heq
        split_ifs at heq with hp hq hq
        · rw [hp, hq]
        · exact head_eq_of_cons_eq heq

theorem namecmp_eq_zero_iff (s t : Name) : namecmp s t = 0 ↔ canon s = canon t := strncmp_eq_zero_iff ..

theorem takeWhile_append_zeros (p : Name) (n : ℕ) :
    (p ++ List.replicate n 0).takeWhile (· ≠ 0) = p.takeWhile (· ≠ 0) := by
  induction p with
  | nil => cases n <;> simp [replicate_succ]
  | cons c p ih =>
    rw [cons_append, takeWhile_cons, takeWhile_cons, ih]

theorem ofBytes_bytes_canon (de : Dirent) : Dirent.ofBytes de.bytes = ⟨de.inum, canon de.name⟩ := by
  ext1
  · change get16 de.bytes 0 = de.inum
    rw [← get16_leByte de.inum]
    apply get16_congr
    intro i hi
    simp [Dirent.bytes, hi]
  · have hbytes : ((List.range DIRSIZ).map fun i => de.bytes (2 + i)) =
        de.name.take DIRSIZ ++ List.replicate (DIRSIZ - de.name.length) 0 := by
      apply ext_getElem
      · simp only [length_map, length_range, length_append, length_take, length_replicate]
        omega
      · intro i h₁ h₂
        simp only [length_map, length_range] at h₁
        have hlow : ¬ 2 + i < 2 := by omega
        have hhigh : 2 + i < DIRENTSIZE := by
          simp only [DIRSIZ, DIRENTSIZE] at *
          omega
        simp only [getElem_map, getElem_range, Dirent.bytes, if_neg hlow, if_pos hhigh,
          Nat.add_sub_cancel_left]
        by_cases hi : i < de.name.length
        · rw [getElem_append_left (by rw [length_take]; omega), getElem_take]
          simp [hi]
        · rw [getElem_append_right (by rw [length_take]; omega)]
          simp [hi]
    change (((List.range DIRSIZ).map fun i => de.bytes (2 + i)).takeWhile (· ≠ 0)) = _
    rw [hbytes, takeWhile_append_zeros, canon]

/-! ## Entries -/

/-- Entry `j` of a directory with contents `l`. -/
def entryAt (l : List UInt8) (j : ℕ) : Dirent := .ofBytes fun i => l.getD (DIRENTSIZE * j + i) 0

variable {s s' : FsState} {k : Fin NINODE} {E : Stop → FsState → Prop} {l : List UInt8} {c j : ℕ}

/-- The contents of the inode in cache entry `k`. -/
abbrev FsState.bytes (s : FsState) (k : Fin NINODE) : List UInt8 := (s.volWith k).contents (s.inode k).inum

theorem length_bytes (s : FsState) (k : Fin NINODE) : (s.bytes k).length = (s.inode k).node.size.toNat := by
  rw [length_contents, FsState.volWith_node_self]

theorem wp_readDirent {R : Dirent → FsState → Prop}
    (h : Readable (s.volWith k) (s.inode k).inum b) (hb : DIRENTSIZE * j + DIRENTSIZE ≤ b * BSIZE) (hj : DIRENTSIZE * j + DIRENTSIZE ≤ (s.bytes k).length) (hR : R (entryAt (s.bytes k) j) s) :
    wp (readDirent k msg (DIRENTSIZE * j)) R E s := by
  have hlen := length_bytes s k
  have hlt := (s.inode k).node.size.toNat_lt
  have hoff : (UInt32.ofNat (DIRENTSIZE * j)).toNat = DIRENTSIZE * j := by
    rw [UInt32.toNat_ofNat', Nat.mod_eq_of_lt (by omega)]
  have hn : (UInt32.ofNat DIRENTSIZE).toNat = DIRENTSIZE := rfl
  unfold readDirent
  rw [wp_bind]
  refine wp_readData_within h (fun _ => ?_) (fun hbad => ?_) fun _ _ => ?_
  · rw [hoff, hn]
    omega
  · rw [hoff, hn] at hbad
    omega
  · rw [hoff, hn]
    have hfull : (((s.bytes k).drop (DIRENTSIZE * j)).take DIRENTSIZE).length = DIRENTSIZE := by
      rw [length_take, length_drop]
      omega
    dsimp only
    rw [if_pos hfull, wp_pure]
    convert hR using 1
    refine Dirent.ofBytes_congr fun i hi => ?_
    rw [getD_eq_getElem?_getD, getD_eq_getElem?_getD, List.getElem?_take, if_pos hi, List.getElem?_drop]

theorem wp_scanDir_within {d : ℕ}
    (h : Readable (s.volWith k) (s.inode k).inum b) (hb : DIRENTSIZE * d ≤ b * BSIZE)
    (hlen : (s.bytes k).length = DIRENTSIZE * c) (hd : d ≤ c) (hj : j ≤ d)
    (hfound : ∀ t, j ≤ t → t < d → p (entryAt (s.bytes k) t) = true →
      (∀ u, j ≤ u → u < t → p (entryAt (s.bytes k) u) = false) → R (DIRENTSIZE * t, some (entryAt (s.bytes k) t)) s)
    (hrest : (∀ u, j ≤ u → u < d → p (entryAt (s.bytes k) u) = false) →
      wp (scanDir k msg p (DIRENTSIZE * c) (DIRENTSIZE * d)) R E s) :
    wp (scanDir k msg p (DIRENTSIZE * c) (DIRENTSIZE * j)) R E s := by
  induction hn : d - j generalizing j with
  | zero =>
    obtain rfl : j = d := by omega
    exact hrest fun u hu hc => absurd hu (by omega)
  | succ n ih =>
    have hlt : DIRENTSIZE * j < DIRENTSIZE * c := Nat.mul_lt_mul_of_pos_left (by omega) (by decide)
    have hnext : DIRENTSIZE * j + DIRENTSIZE ≤ DIRENTSIZE * d := by
      rw [← Nat.mul_succ]
      exact Nat.mul_le_mul_left _ (by omega)
    rw [scanDir, if_pos hlt, wp_bind]
    refine wp_readDirent h (hnext.trans hb) ?_ ?_
    · rw [hlen]
      exact hnext.trans (Nat.mul_le_mul_left _ hd)
    · simp only [wp_ite, wp_pure]
      refine ⟨fun hp => hfound j le_rfl (by omega) hp fun u hu hc => absurd hu (by omega), fun hp => ?_⟩
      rw [← Nat.mul_succ]
      have hp' : p (entryAt (s.bytes k) j) = false := Bool.eq_false_iff.2 hp
      refine ih (j := j + 1) (by omega) (fun t ht htc hpt hbefore => ?_) (fun hall => ?_) (by omega)
      · refine hfound t (by omega) htc hpt fun u hu hut => ?_
        rcases Nat.lt_or_ge j u with hju | hju
        · exact hbefore u hju hut
        · rwa [show u = j by omega]
      · refine hrest fun u hu huc => ?_
        rcases Nat.lt_or_ge j u with hju | hju
        · exact hall u hju huc
        · rwa [show u = j by omega]

theorem wp_scanDir (h : ReadableFile s k)
    (hlen : (s.bytes k).length = DIRENTSIZE * c) (hj : j ≤ c)
    (hfound : ∀ t, j ≤ t → t < c → p (entryAt (s.bytes k) t) = true →
      (∀ u, j ≤ u → u < t → p (entryAt (s.bytes k) u) = false) → R (DIRENTSIZE * t, some (entryAt (s.bytes k) t)) s)
    (hnone : (∀ u, j ≤ u → u < c → p (entryAt (s.bytes k) u) = false) → R (DIRENTSIZE * c, none) s) :
    wp (scanDir k msg p (DIRENTSIZE * c) (DIRENTSIZE * j)) R E s := by
  refine wp_scanDir_within h ?_ hlen le_rfl hj hfound fun hall => ?_
  · rw [← hlen, length_bytes]
    exact size_le_blocks _
  · rw [scanDir, if_neg (lt_irrefl _), wp_pure]
    exact hnone hall

theorem entryAt_overwrite {t : ℕ} (src : Bytes) (hl : l.length = DIRENTSIZE * c) (ht : t ≤ c) :
    (overwrite l (DIRENTSIZE * t) DIRENTSIZE src).length = DIRENTSIZE * max c (t + 1) ∧
      ∀ j, j < max c (t + 1) → entryAt (overwrite l (DIRENTSIZE * t) DIRENTSIZE src) j =
        if j = t then Dirent.ofBytes src else entryAt l j := by
  have hlen : (overwrite l (DIRENTSIZE * t) DIRENTSIZE src).length = DIRENTSIZE * max c (t + 1) := by
    rw [overwrite, length_map, length_range, hl]
    simp only [DIRENTSIZE]
    omega
  refine ⟨hlen, fun j hj => ?_⟩
  have hget : ∀ o, o < DIRENTSIZE * max c (t + 1) → (overwrite l (DIRENTSIZE * t) DIRENTSIZE src).getD o 0 =
      if DIRENTSIZE * t ≤ o ∧ o < DIRENTSIZE * t + DIRENTSIZE then src (o - DIRENTSIZE * t) else l.getD o 0 := by
    intro o ho
    rw [← hlen] at ho
    rw [getD_eq_getElem _ _ ho]
    simp only [overwrite, getElem_map, getElem_range]
  have hin : ∀ i < DIRENTSIZE, DIRENTSIZE * j + i < DIRENTSIZE * max c (t + 1) := by
    intro i hi
    simp only [DIRENTSIZE] at *
    omega
  by_cases hjt : j = t
  · subst hjt
    rw [if_pos rfl]
    refine Dirent.ofBytes_congr fun i hi => ?_
    rw [hget _ (hin i hi), if_pos ⟨by omega, by omega⟩, Nat.add_sub_cancel_left]
  · rw [if_neg hjt]
    refine Dirent.ofBytes_congr fun i hi => ?_
    rw [hget _ (hin i hi), if_neg]
    simp only [DIRENTSIZE] at *
    omega

end Xv6.Fs
