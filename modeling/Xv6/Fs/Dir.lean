import Xv6.Fs.Inode

open bytes

namespace xv6.fs

/-- `strncmp(p, q, n) == 0` for strings given up to their terminating NUL. -/
def strncmp : Nat → List UInt8 → List UInt8 → Bool
  | 0, _, _ => true
  | n + 1, p, q =>
    if p.headD 0 ≠ 0 ∧ p.headD 0 = q.headD 0 then strncmp n p.tail q.tail else p.headD 0 == q.headD 0

/-- `namecmp(s, t) == 0` -/
def namecmp (s t : List UInt8) : Bool := strncmp DIRSIZ s t

/-- The `n` bytes that `strncpy(s, t, n)` stores. -/
def strncpy : Nat → List UInt8 → List UInt8
  | 0, _ => []
  | n + 1, t => if t.headD 0 = 0 then List.replicate (n + 1) 0 else t.headD 0 :: strncpy n t.tail

/-- The bytes of a `struct dirent`, and the fields read back from them. -/
def dirent (inum : Nat) (name : List UInt8) : List UInt8 :=
  UInt8.ofNat inum :: UInt8.ofNat (inum / 2 ^ 8) :: strncpy DIRSIZ name

def direntInum (de : List UInt8) : Nat := (de.getD 0 0).toNat + 2 ^ 8 * (de.getD 1 0).toNat

def direntName (de : List UInt8) : List UInt8 := (de.drop 2).take DIRSIZ

/-- `sizeof(struct dirent)` -/
abbrev DIRENT : Nat := 16

/-- The values of `off` in `for(off = first; off < size; off += sizeof(de))`. -/
def direntOffs (first size : Nat) : List Nat :=
  (List.range ((size - first + (DIRENT - 1)) / DIRENT)).map fun k => first + DIRENT * k

/-- Read the directory entry at an offset. -/
def readDirent (dp : Fin NINODE) (off : Nat) (msg : String) : FsM (List UInt8) := do
  match ← readi dp off DIRENT with
  | some de => if de.length ≠ DIRENT then throw msg else return de
  | none => throw msg

def dirlookup.loop (dp : Fin NINODE) (name : List UInt8) : List Nat → FsM (Option (Fin NINODE × Nat))
  | [] => return none
  | off :: offs => do
    let de ← readDirent dp off "dirlookup read"
    if direntInum de ≠ 0 ∧ namecmp name (direntName de) then
      return some (← iget (direntInum de), off)
    else
      dirlookup.loop dp name offs

/-- Look for a directory entry in a directory; the result has the inode and the
byte offset of the entry. -/
def dirlookup (dp : Fin NINODE) (name : List UInt8) : FsM (Option (Fin NINODE × Nat)) := do
  let e ← readInode dp
  if e.din.type ≠ T_DIR then
    throw "dirlookup not DIR"
  dirlookup.loop dp name (direntOffs 0 e.din.size)

/-- The offset of the first empty entry of a directory, or else where `off` ends up. -/
def dirlink.loop (dp : Fin NINODE) (stop : Nat) : List Nat → FsM Nat
  | [] => return stop
  | off :: offs => do
    let de ← readDirent dp off "dirlink read"
    if direntInum de = 0 then
      return off
    else
      dirlink.loop dp stop offs

/-- Write a new directory entry (name, inum) into the directory `dp`; the
result says whether it succeeded. -/
def dirlink (dp : Fin NINODE) (name : List UInt8) (inum : Nat) : FsM Bool := do
  match ← dirlookup dp name with
  | some (ip, _) =>
    iput ip
    return false
  | none =>
    let e ← readInode dp
    let offs := direntOffs 0 e.din.size
    let off ← dirlink.loop dp (DIRENT * offs.length) offs
    if (← writei dp (dirent inum name) off) ≠ some DIRENT then
      throw "dirlink"
    return true

abbrev slash : UInt8 := 47

/-- Copy the next path element from a path: the element and the path that
follows it, without leading slashes. -/
def skipelem (path : List UInt8) : Option (List UInt8 × List UInt8) :=
  let path := path.dropWhile (· == slash)
  if path.headD 0 = 0 then
    none
  else
    let name := path.takeWhile fun c => c != slash && c != 0
    let rest := path.dropWhile fun c => c != slash && c != 0
    some (name.take DIRSIZ, rest.dropWhile (· == slash))

/-- The loop of `namex` at the inode `ip`. The name that is returned with an
inode is the last path element copied. -/
def namex.loop (nameiparent : Bool) :
    Nat → List UInt8 → Fin NINODE → List UInt8 → FsM (Option (Fin NINODE × List UInt8))
  | 0, _, _, _ => throw "namex: fuel"
  | fuel + 1, path, ip, name => do
    match skipelem path with
    | some (name, path) =>
      ilock ip
      if (← readInode ip).din.type ≠ T_DIR then
        iunlockput ip
        return none
      else if nameiparent ∧ path.headD 0 = 0 then
        iunlock ip
        return some (ip, name)
      else
        match ← dirlookup ip name with
        | some (next, _) =>
          iunlockput ip
          namex.loop nameiparent fuel path next name
        | none =>
          iunlockput ip
          return none
    | none =>
      if nameiparent then
        iput ip
        return none
      else
        return some (ip, name)

/-- Look up the inode for a path name, starting at the root or at the current
directory `cwd`. -/
def namex (cwd : Fin NINODE) (path : List UInt8) (nameiparent : Bool) :
    FsM (Option (Fin NINODE × List UInt8)) := do
  let ip ← if path.headD 0 = slash then iget ROOTINO else idup cwd
  namex.loop nameiparent (path.length + 1) path ip []

def namei (cwd : Fin NINODE) (path : List UInt8) : FsM (Option (Fin NINODE)) := do
  return (← namex cwd path false).map Prod.fst

def nameiparent (cwd : Fin NINODE) (path : List UInt8) : FsM (Option (Fin NINODE × List UInt8)) :=
  namex cwd path true

end xv6.fs
