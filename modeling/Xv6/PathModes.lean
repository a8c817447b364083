import Xv6.PathModel

/-!
# The two modes of `namex`

`namei` resolves a path to its end, and `nameiparent` stops before the last element, so that the caller
can look it up. Without interference both ways come to the same.
-/

namespace Xv6.Fs

open Resumption LawfulMonad

variable {s t : FsState} {k : Fin NINODE}

/-- What a caller does with the result of `nameiparent` to get the inode. -/
def lookupLast : Option (Fin NINODE × Name) → FsProg (Option (Fin NINODE))
  | none => return none
  | some (dp, name) => do
    Prog.atom (ilock dp)
    let r ← Prog.atom (dirlookup dp name)
    iunlockput dp
    return r.map Prod.fst

/-- `nameiparent` has unlocked the directory; locking it again changes nothing. -/
theorem relock {β : Type} {K : Unit → M β} (h : ilock k s = .ok () t) :
    (iunlock k >>= fun _ => ilock k >>= K) t = K () t := by
  have hw : wp (ilock k) (fun _ t => wp (do iunlock k; ilock k) (fun _ u => u = t) (fun _ _ => False) t)
      (fun _ _ => True) s := by
    unfold ilock iunlock
    simp only [wp_bind, wp_get]
    split_ifs <;> simp_all [FsState.setInode]
  obtain ⟨_, u, hu, rfl⟩ := wp_exists_ok ((wp_of_ok h).mp hw)
  rw [← bind_assoc, bind_of_ok hu]

theorem namexLoop_modes (ip : Fin NINODE) (name : Name) (rest : List Name) :
    (do return (← (namexLoop false ip (name :: rest)).run).map Prod.fst) =
      (do (lookupLast (← (namexLoop true ip (name :: rest)).run)).run) := by
  induction rest generalizing ip name with
  | nil =>
    simp only [namexLoop, Bool.false_eq_true, false_and, and_self, if_true, if_false, Prog.run_bind,
      Prog.run_atom, bind_assoc]
    refine bind_congr_of_ok fun s t _ hlock => ?_
    have hnode : getNode ip t = .ok (t.inode ip).node t := rfl
    rw [bind_of_ok hnode, bind_of_ok hnode]
    split_ifs
    · simp [lookupLast]
    · -- only `namei` still has the lock
      simp only [lookupLast, Prog.run_bind, Prog.run_atom, Prog.pure_eq, Prog.run_ret, bind_assoc, pure_bind]
      rw [relock hlock]
      refine congrFun (bind_congr fun r => ?_) t
      rcases r with _ | ⟨next, off⟩
      · simp
      · simp
  | cons name' rest ih =>
    rw [namexLoop, namexLoop]
    simp only [Bool.false_eq_true, and_false, reduceCtorEq, if_false, Prog.run_bind, Prog.run_atom,
      bind_assoc]
    refine bind_congr fun _ => bind_congr fun node => ?_
    split_ifs
    · simp [lookupLast]
    · simp only [Prog.run_bind, Prog.run_atom, bind_assoc]
      refine bind_congr fun r => ?_
      rcases r with _ | ⟨next, off⟩
      · simp [lookupLast]
      · simp only [Prog.run_bind, bind_assoc]
        exact bind_congr fun _ => ih next name'

/-- The whole path at once, or its last element on its own. -/
theorem namei_eq_nameiparent {path : List UInt8} (h : elements path ≠ []) :
    (namei path).run = (nameiparent path >>= lookupLast).run := by
  obtain ⟨name, rest, hpath⟩ := List.exists_cons_of_ne_nil h
  unfold namei nameiparent namex
  simp only [hpath, Prog.run_bind]
  split_ifs
  · simp only [Prog.run_bind, bind_assoc]
    exact bind_congr fun ip => namexLoop_modes ip name rest
  · simp only [Prog.run_bind, bind_assoc]
    exact bind_congr fun ip => namexLoop_modes ip name rest

/-- The path "/a/b". -/
theorem namei_eq_nameiparent_nested : elements [47, 97, 47, 98] ≠ [] ∧
    (namei [47, 97, 47, 98]).run = (nameiparent [47, 97, 47, 98] >>= lookupLast).run := by
  have h : elements [47, 97, 47, 98] ≠ [] := by
    unfold elements
    split
    · simp_all [skipelem, slash]
    · simp
  exact ⟨h, namei_eq_nameiparent h⟩

end Xv6.Fs
