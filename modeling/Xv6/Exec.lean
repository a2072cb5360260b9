import Xv6.Proc
import Xv6.Vm.Access

open bytes

namespace xv6

/-- The contents of a regular file or directory, as an inode gives access to it. -/
structure Inode where
  size : Nat
  byte : Nat → UInt8

/-- Read up to `n` bytes from offset `off`; `none` stands for -1. -/
def readi (ip : Inode) (off n : Nat) : Option (List UInt8) :=
  if off > ip.size ∨ u32 (off + n) < off then
    none
  else
    let n := if u32 (off + n) > ip.size then ip.size - off else n
    some (slice ip.byte off n)

/-- A little-endian field of `n` bytes at offset `off` of a structure. -/
def field (bytes : List UInt8) (off n : Nat) : Nat :=
  ((List.range n).map fun i => (bytes.getD (off + i) 0).toNat * 2 ^ (8 * i)).sum

abbrev ELF_MAGIC : Nat := 0x464C457F
abbrev ELF_PROG_LOAD : Nat := 1
abbrev sizeofElfhdr : Nat := 52
abbrev sizeofProghdr : Nat := 32

structure Proghdr where
  type : Nat
  off : Nat
  vaddr : Nat
  filesz : Nat
  memsz : Nat

def Proghdr.ofBytes (b : List UInt8) : Proghdr :=
  { type := field b 0 4, off := field b 4 4, vaddr := field b 8 4, filesz := field b 16 4,
    memsz := field b 20 4 }

def loaduvm.loop (pgdir addr : Nat) (ip : Inode) (offset sz : Nat) : Nat → Nat → KernelM Int
  | 0, _ => throw .hang
  | fuel + 1, i =>
    if i < sz then do
      let pte ← walkpgdir pgdir (u32 (addr + i)) false
      if pte = 0 then
        panic "loaduvm: address should exist"
      else
        let e ← readWord pte
        let n := if sz - i < PGSIZE then sz - i else PGSIZE
        match readi ip (u32 (offset + i)) n with
        | none => return -1
        | some bytes =>
          writeBytes (P2V (PTE_ADDR e)) bytes
          if bytes.length ≠ n then
            return -1
          else
            loaduvm.loop pgdir addr ip offset sz fuel (u32 (i + PGSIZE))
    else
      return 0

def loaduvm (pgdir addr : Nat) (ip : Inode) (offset sz : Nat) : KernelM Int :=
  if addr % PGSIZE ≠ 0 then
    panic "loaduvm: addr must be page aligned"
  else
    loaduvm.loop pgdir addr ip offset sz (2 ^ 20 + 1) 0

/-- The loop over the program headers, `n` of them left; `none` stands for `goto bad`. -/
def exec.load (pgdir : Nat) (ip : Inode) : Nat → Nat → Nat → KernelM (Option Nat)
  | 0, _, sz => return some sz
  | n + 1, off, sz =>
    match readi ip off sizeofProghdr with
    | none => return none
    | some bytes =>
      let ph := Proghdr.ofBytes bytes
      if bytes.length ≠ sizeofProghdr then
        return none
      else if ph.type ≠ ELF_PROG_LOAD then
        exec.load pgdir ip n (u32 (off + sizeofProghdr)) sz
      else if ph.memsz < ph.filesz then
        return none
      else if u32 (ph.vaddr + ph.memsz) < ph.vaddr then
        return none
      else do
        let sz ← allocuvm pgdir sz (u32 (ph.vaddr + ph.memsz))
        if sz = 0 then
          return none
        else if ph.vaddr % PGSIZE ≠ 0 then
          return none
        else if (← loaduvm pgdir ph.vaddr ip ph.off ph.filesz) < 0 then
          return none
        else
          exec.load pgdir ip n (u32 (off + sizeofProghdr)) sz

/-- Little-endian bytes of a list of words. -/
def wordBytes (words : List Nat) : List UInt8 :=
  words.flatMap fun w =>
    [UInt8.ofNat w, UInt8.ofNat (w / 2 ^ 8), UInt8.ofNat (w / 2 ^ 16), UInt8.ofNat (w / 2 ^ 24)]

/-- The loop that pushes the argument strings. Returns the stack pointer and the
pointers pushed so far, or `none` for `goto bad`. -/
def exec.push (pgdir : Nat) : List (List UInt8) → Nat → List Nat → KernelM (Option (Nat × List Nat))
  | [], sp, ustack => return some (sp, ustack)
  | arg :: rest, sp, ustack =>
    if ustack.length ≥ MAXARG then
      return none
    else do
      let sp := u32 (sp + (2 ^ 32 - (arg.length + 1) % 2 ^ 32)) / 4 * 4
      if (← copyout pgdir sp (arg ++ [0])) < 0 then
        return none
      else
        exec.push pgdir rest sp (ustack ++ [sp])

/-- Everything `exec` does between `setupkvm` and the commit: load the segments,
add the guard page and the stack and push the arguments. The result is the size
and the initial stack pointer of the new image, or `none` for `goto bad`. -/
def exec.build (pgdir : Nat) (ip : Inode) (phoff phnum : Nat) (argv : List (List UInt8)) :
    KernelM (Option (Nat × Nat)) := do
  match ← exec.load pgdir ip phnum phoff 0 with
  | none => return none
  | some sz =>
    let sz := PGROUNDUP sz
    let sz ← allocuvm pgdir sz (u32 (sz + 2 * PGSIZE))
    if sz = 0 then
      return none
    else
      clearpteu pgdir (u32 (sz + (2 ^ 32 - 2 * PGSIZE)))
      match ← exec.push pgdir argv sz [] with
      | none => return none
      | some (sp, ustack) =>
        let argc := ustack.length
        let words := [0xffffffff, argc, u32 (sp + (2 ^ 32 - (argc + 1) * 4))] ++ ustack ++ [0]
        let sp := u32 (sp + (2 ^ 32 - (3 + argc + 1) * 4))
        if (← copyout pgdir sp (wordBytes words)) < 0 then
          return none
        else
          return some (sz, sp)

/-- The last element of a path, which becomes the process name. -/
def lastElem (path : List UInt8) : List UInt8 :=
  (path.reverse.takeWhile fun c => c ≠ '/'.toUInt8).reverse

/-- `exec` of the inode that `namei(path)` found, if any. -/
def exec (p : Fin NPROC) (path : List UInt8) (ip : Option Inode) (argv : List (List UInt8)) :
    KernelM Int := do
  match ip with
  | none => return -1
  | some ip =>
    match readi ip 0 sizeofElfhdr with
    | none => return -1
    | some elf =>
      if elf.length ≠ sizeofElfhdr then
        return -1
      else if field elf 0 4 ≠ ELF_MAGIC then
        return -1
      else
        let pgdir ← setupkvm
        if pgdir = 0 then
          return -1
        else
          match ← exec.build pgdir ip (field elf 28 4) (field elf 44 2) argv with
          | none =>
            freevm pgdir
            return -1
          | some (sz, sp) =>
            let s ← get
            let oldpgdir := (s.proc p).pgdir
            updateProc p fun proc =>
              { proc with
                name := (lastElem path).take 15
                pgdir
                sz
                tf := { proc.tf with eip := field elf 24 4, esp := sp }
                hugesz := 0 }
            switchuvm p
            freevm oldpgdir
            return 0

end xv6
