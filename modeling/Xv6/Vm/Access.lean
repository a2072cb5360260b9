import Xv6.Vm.Space

open bytes

namespace xv6

/-- A translation made by the memory management unit: the physical address, the
page size, the flags of the entry that maps the page, and whether the access may
write and may come from user mode. -/
structure Translation where
  pa : Nat
  huge : Bool
  flags : Nat
  writable : Bool
  user : Bool
  deriving DecidableEq

/-- The two-level walk of the hardware from the directory at physical address
`dir`; an entry with `PTE_PS` maps a 4MB page. -/
def translate (m : Mem) (dir va : Nat) : Option Translation :=
  let e := load32 m (dir + 4 * PDX va)
  if hasFlag e PTE_P then
    if hasFlag e PTE_PS then
      some ⟨e / 0x400000 * 0x400000 + va % 0x400000, true, PTE_FLAGS e, hasFlag e PTE_W, hasFlag e PTE_U⟩
    else
      let e' := load32 m (PTE_ADDR e + 4 * PTX va)
      if hasFlag e' PTE_P then
        some ⟨PTE_ADDR e' + va % 4096, false, PTE_FLAGS e', hasFlag e PTE_W && hasFlag e' PTE_W,
          hasFlag e PTE_U && hasFlag e' PTE_U⟩
      else
        none
  else
    none

/-- A kernel access to a user address goes through the loaded directory; one to
an unmapped address traps in kernel mode. -/
def userPhys (va : Nat) : KernelM Nat := do
  let s ← get
  match translate s.mem s.cr3 va with
  | some t => return t.pa
  | none => panic "trap"

def readUserByte (va : Nat) : KernelM UInt8 := do
  let pa ← userPhys va
  let s ← get
  return s.mem pa

def readUserWord (va : Nat) : KernelM Nat := do
  let b0 ← readUserByte va
  let b1 ← readUserByte (u32 (va + 1))
  let b2 ← readUserByte (u32 (va + 2))
  let b3 ← readUserByte (u32 (va + 3))
  return b0.toNat + 2 ^ 8 * b1.toNat + 2 ^ 16 * b2.toNat + 2 ^ 24 * b3.toNat

/-- `CR0_WP` is set, so that kernel stores respect the write permission. -/
def writeUserByte (va : Nat) (v : UInt8) : KernelM Unit := do
  let s ← get
  match translate s.mem s.cr3 va with
  | some t => if t.writable then set { s with mem := store8 s.mem t.pa v } else panic "trap"
  | none => panic "trap"

def writeUserWord (va v : Nat) : KernelM Unit := do
  writeUserByte va (UInt8.ofNat v)
  writeUserByte (u32 (va + 1)) (UInt8.ofNat (v / 2 ^ 8))
  writeUserByte (u32 (va + 2)) (UInt8.ofNat (v / 2 ^ 16))
  writeUserByte (u32 (va + 3)) (UInt8.ofNat (v / 2 ^ 24))

/-- A store by user code: the hardware checks the write and user permissions. -/
def userStore (va : Nat) (v : UInt8) : KernelM Unit :=
  modify fun s =>
    match translate s.mem s.cr3 va with
    | some t => if t.writable && t.user then { s with mem := store8 s.mem t.pa v } else s
    | none => s

/-- Map a user virtual address to a kernel address. `walkpgdir` may return the null pointer, which is dereferenced
without a check: as the null pointer is no object, the compiler makes that branch a trap. -/
def uva2ka (pgdir uva : Nat) : KernelM Nat := do
  let pte ← walkpgdir pgdir uva false
  let e ← if pte = 0 then panic "trap" else readWord pte
  if !hasFlag e PTE_P then
    return 0
  else if !hasFlag e PTE_U then
    return 0
  else
    return P2V (PTE_ADDR e)

def copyout.loop (pgdir : Nat) : Nat → Nat → List UInt8 → KernelM Int
  | 0, _, _ => throw .hang
  | fuel + 1, va, buf =>
    if buf.length > 0 then do
      let va0 := PGROUNDDOWN va
      let pa0 ← uva2ka pgdir va0
      if pa0 = 0 then
        return -1
      else
        let n := min (PGSIZE - (va - va0)) buf.length
        writeBytes (pa0 + (va - va0)) (buf.take n)
        copyout.loop pgdir fuel (u32 (va0 + PGSIZE)) (buf.drop n)
    else
      return 0

/-- Copy the bytes `buf` to user address `va` of `pgdir`. -/
def copyout (pgdir va : Nat) (buf : List UInt8) : KernelM Int :=
  copyout.loop pgdir (buf.length + 1) va buf

end xv6
