import Xv6.InodeModel

/-!
# Directories and path names

The second half of `fs.c`: directory entries are fixed-size records in the content of an inode, and
`namex` walks a path by locking one directory at a time.
-/

namespace Xv6.Fs

open Resumption ByteLayout

/-! ## Directories -/

/-- `strncmp` of `string.c`, on strings given by their bytes before the NUL. -/
def strncmp : ℕ → Name → Name → ℤ
  | 0, _, _ => 0
  | n + 1, p, q =>
    if p.headD 0 ≠ 0 ∧ p.headD 0 = q.headD 0 then strncmp n p.tail q.tail
    else (p.headD 0).toNat - (q.headD 0).toNat

def namecmp (s t : Name) : ℤ := strncmp DIRSIZ s t

/-- Read one entry, with the panic that the calling loop has for a short read. -/
def readDirent (k : Fin NINODE) (msg : String) (off : ℕ) : M Dirent := do
  match ← readData k (UInt32.ofNat off) (UInt32.ofNat DIRENTSIZE) with
  | some l =>
    if l.length = DIRENTSIZE then return .ofBytes fun i => l.getD i 0
    else throw (.panic msg)
  | none => throw (.panic msg)

/-- The loop over the entries of a directory of `size` bytes: stop at the first one from `off` on
for which `p` holds. -/
def scanDir (k : Fin NINODE) (msg : String) (p : Dirent → Bool) (size off : ℕ) :
    M (ℕ × Option Dirent) :=
  if off < size then do
    let de ← readDirent k msg off
    if p de then return (off, some de) else scanDir k msg p size (off + DIRENTSIZE)
  else return (off, none)
termination_by size - off
decreasing_by simp only [DIRENTSIZE]; omega

def dirlookup (dp : Fin NINODE) (name : Name) : M (Option (Fin NINODE × ℕ)) := do
  let ip ← getNode dp
  if ip.type ≠ T_DIR then throw (.panic "dirlookup not DIR")
  else
    match ← scanDir dp "dirlink read"
        (fun de => de.inum ≠ 0 ∧ namecmp name de.name = 0) ip.size.toNat 0 with
    | (off, some de) =>
      let k ← iget ((← get).inode dp).dev de.inum.toNat
      return some (k, off)
    | (_, none) => return none

/-- `dirlink` after its check that the name is not present: store the entry in the first empty
slot, or at the end. -/
def dirlinkStore (dp : Fin NINODE) (name : Name) (inum : ℕ) : M Unit := do
  let size := (← getNode dp).size.toNat
  let (off, _) ← scanDir dp "dirlink read" (fun de => de.inum = 0) size 0
  let de : Dirent := ⟨UInt16.ofNat inum, name⟩
  match ← writeData dp de.bytes (UInt32.ofNat off) (UInt32.ofNat DIRENTSIZE) with
  | some n => if n ≠ UInt32.ofNat DIRENTSIZE then throw (.panic "dirlink")
  | none => throw (.panic "dirlink")

/-- `false` stands for the result -1. -/
def dirlink (dp : Fin NINODE) (name : Name) (inum : ℕ) : FsProg Bool := do
  match ← Prog.atom (dirlookup dp name) with
  | some (ip, _) =>
    iput ip
    return false
  | none =>
    Prog.atom (dirlinkStore dp name inum)
    return true

/-! ## Paths -/

def slash : UInt8 := 47

/-- Copy the next path element from `path`; the rest of the path has no leading slashes. -/
def skipelem (path : List UInt8) : Option (Name × List UInt8) :=
  match path.dropWhile (· = slash) with
  | [] => none
  | c :: cs => some (((c :: cs).takeWhile (· ≠ slash)).take DIRSIZ,
      ((c :: cs).dropWhile (· ≠ slash)).dropWhile (· = slash))

theorem skipelem_length {path rest : List UInt8} {name : Name}
    (h : skipelem path = some (name, rest)) : rest.length < path.length := by
  unfold skipelem at h
  cases hp : path.dropWhile (· = slash) with
  | nil => simp [hp] at h
  | cons c cs =>
    rw [hp] at h
    simp only [Option.some.injEq, Prod.mk.injEq] at h
    have hc : ¬ c = slash := by
      have := List.head_dropWhile_not (l := path) (· = slash) (by simp [hp])
      simpa [hp] using this
    have h₁ : (c :: cs).length ≤ path.length := hp ▸ (List.dropWhile_sublist _).length_le
    have h₂ : ((c :: cs).dropWhile (· ≠ slash)).length ≤ cs.length := by
      rw [List.dropWhile_cons_of_pos (by simpa using hc)]
      exact (List.dropWhile_sublist _).length_le
    have h₃ : rest.length ≤ ((c :: cs).dropWhile (· ≠ slash)).length := by
      rw [← h.2]
      exact (List.dropWhile_sublist _).length_le
    simp only [List.length_cons] at h₁
    omega

/-- What successive calls of `skipelem` copy out of a path. -/
def elements (path : List UInt8) : List Name :=
  match _h : skipelem path with
  | none => []
  | some (name, rest) => name :: elements rest
termination_by path.length
decreasing_by exact skipelem_length _h

/-- The loop of `namex`. With `parent` it stops one element early and returns that element. -/
def namexLoop (parent : Bool) (ip : Fin NINODE) : List Name → FsProg (Option (Fin NINODE × Name))
  | [] => do
    if parent then
      iput ip
      return none
    else return some (ip, [])
  | name :: rest => do
    Prog.atom (ilock ip)
    let node ← Prog.atom (getNode ip)
    if node.type ≠ T_DIR then
      iunlockput ip
      return none
    else if parent ∧ rest = [] then
      Prog.atom (iunlock ip)
      return some (ip, name)
    else
      match ← Prog.atom (dirlookup ip name) with
      | none =>
        iunlockput ip
        return none
      | some (next, _) =>
        iunlockput ip
        namexLoop parent next rest

/-- `idup(proc->cwd)` -/
def idupCwd : M (Fin NINODE) := do
  let s ← get
  match (s.proc s.cur).cwd with
  | some k => idup k
  | none => throw .overrun

def namex (parent : Bool) (path : List UInt8) : FsProg (Option (Fin NINODE × Name)) := do
  let ip ← if path.head? = some slash then Prog.atom (iget ROOTDEV ROOTINO) else Prog.atom idupCwd
  namexLoop parent ip (elements path)

def namei (path : List UInt8) : FsProg (Option (Fin NINODE)) := do
  return (← namex false path).map Prod.fst

def nameiparent (path : List UInt8) : FsProg (Option (Fin NINODE × Name)) := namex true path

end Xv6.Fs
