import Xv6.Kalloc

open bytes

namespace xv6

/-- The address of the entry for `va`; creates the page table when `alloc` is set. -/
def walkpgdir (pgdir va : Nat) (alloc : Bool) : KernelM Nat := do
  let pde := pgdir + 4 * PDX va
  let e ← readWord pde
  if hasFlag e PTE_P then
    return P2V (PTE_ADDR e) + 4 * PTX va
  else if alloc = false then
    return 0
  else
    let pgtab ← kalloc
    if pgtab = 0 then
      return 0
    else
      -- Make sure all those PTE_P bits are zero.
      memset pgtab 0 PGSIZE
      writeWord pde (V2P pgtab ||| PTE_P ||| PTE_W ||| PTE_U)
      return pgtab + 4 * PTX va

def mappages.hugeLoop (pgdir last perm : Nat) : Nat → Nat → Nat → KernelM Int
  | 0, _, _ => throw .hang
  | fuel + 1, a, pa => do
    writeWord (pgdir + 4 * PDX a) (pa ||| perm ||| PTE_P ||| PTE_PS)
    if a = last then
      return 0
    else
      mappages.hugeLoop pgdir last perm fuel (u32 (a + HUGE_PAGE_SIZE)) (u32 (pa + HUGE_PAGE_SIZE))

def mappages.baseLoop (pgdir last perm : Nat) : Nat → Nat → Nat → KernelM Int
  | 0, _, _ => throw .hang
  | fuel + 1, a, pa => do
    let pte ← walkpgdir pgdir a true
    if pte = 0 then
      return -1
    else
      let e ← readWord pte
      if hasFlag e PTE_P then
        panic "remap"
      else
        writeWord pte (pa ||| perm ||| PTE_P)
        if a = last then
          return 0
        else
          mappages.baseLoop pgdir last perm fuel (u32 (a + PGSIZE)) (u32 (pa + PGSIZE))

/-- Map `size` bytes from `va` to `pa`. The physical address alone decides
between 4MB directory entries and 4KB table entries. -/
def mappages (pgdir va size pa perm : Nat) : KernelM Int :=
  if HUGE_PAGE_START ≤ pa ∧ pa < HUGE_PAGE_END then
    mappages.hugeLoop pgdir (HUGEPGROUNDDOWN (u32 (va + size + (2 ^ 32 - 1)))) perm
      (2 ^ 10) (HUGEPGROUNDDOWN va) pa
  else
    mappages.baseLoop pgdir (PGROUNDDOWN (u32 (va + size + (2 ^ 32 - 1)))) perm
      (2 ^ 20) (PGROUNDDOWN va) pa

/-- One iteration of the loop of `deallocuvm`; returns the next address. -/
def deallocuvm.step (pgdir a : Nat) : KernelM Nat := do
  let e ← readWord (pgdir + 4 * PDX a)
  if hasFlag e PTE_PS then
    let pte ← walkpgdir pgdir a false
    if pte = 0 then
      return u32 (u32 (PGADDR (PDX a + 1) 0 0 + (2 ^ 32 - HUGE_PAGE_SIZE)) + HUGE_PAGE_SIZE)
    else
      let w ← readWord pte
      if hasFlag w PTE_P then
        let pa := PTE_ADDR w
        if pa = 0 then
          panic "khugefree"
        else
          khugefree (P2V pa)
          writeWord pte 0
      return u32 (a + HUGE_PAGE_SIZE)
  else
    let pte ← walkpgdir pgdir a false
    if pte = 0 then
      return u32 (u32 (PGADDR (PDX a + 1) 0 0 + (2 ^ 32 - PGSIZE)) + PGSIZE)
    else
      let w ← readWord pte
      if hasFlag w PTE_P then
        let pa := PTE_ADDR w
        if pa = 0 then
          panic "kfree"
        else
          kfree (P2V pa)
          writeWord pte 0
      return u32 (a + PGSIZE)

def deallocuvm.loop (pgdir oldsz : Nat) : Nat → Nat → KernelM Unit
  | 0, _ => throw .hang
  | fuel + 1, a =>
    if a < oldsz then do
      let a' ← deallocuvm.step pgdir a
      deallocuvm.loop pgdir oldsz fuel a'
    else
      return

def deallocuvm (pgdir oldsz newsz : Nat) : KernelM Nat :=
  if newsz ≥ oldsz then
    return oldsz
  else do
    let e ← readWord (pgdir + 4 * PDX newsz)
    let a := if hasFlag e PTE_PS then HUGEPGROUNDUP newsz else PGROUNDUP newsz
    deallocuvm.loop pgdir oldsz (2 ^ 20 + 1) a
    return newsz

def allocuvm.loop (pgdir oldsz newsz : Nat) : Nat → Nat → KernelM Nat
  | 0, _ => throw .hang
  | fuel + 1, a =>
    if a < newsz then do
      let mem ← kalloc
      if mem = 0 then
        let _ ← deallocuvm pgdir newsz oldsz
        return 0
      else
        memset mem 0 PGSIZE
        if (← mappages pgdir a PGSIZE (V2P mem) (PTE_W ||| PTE_U)) < 0 then
          let _ ← deallocuvm pgdir newsz oldsz
          kfree mem
          return 0
        else
          allocuvm.loop pgdir oldsz newsz fuel (u32 (a + PGSIZE))
    else
      return newsz

def allocuvm (pgdir oldsz newsz : Nat) : KernelM Nat :=
  if newsz ≥ KERNBASE then
    return 0
  else if newsz < oldsz then
    return oldsz
  else
    allocuvm.loop pgdir oldsz newsz (2 ^ 20 + 1) (PGROUNDUP oldsz)

def allochugeuvm.loop (pgdir oldsz newsz : Nat) : Nat → Nat → KernelM Nat
  | 0, _ => throw .hang
  | fuel + 1, a =>
    if a < newsz then do
      let mem ← khugealloc
      if mem = 0 then
        let _ ← deallocuvm pgdir newsz oldsz
        return 0
      else
        memset mem 0 HUGE_PAGE_SIZE
        if (← mappages pgdir a HUGE_PAGE_SIZE (V2P mem) (PTE_PS ||| PTE_W ||| PTE_U)) < 0 then
          let _ ← deallocuvm pgdir newsz oldsz
          kfree mem
          return 0
        else
          allochugeuvm.loop pgdir oldsz newsz fuel (u32 (a + HUGE_PAGE_SIZE))
    else
      return newsz

def allochugeuvm (pgdir oldsz newsz : Nat) : KernelM Nat :=
  if newsz < oldsz then
    return oldsz
  else
    allochugeuvm.loop pgdir oldsz newsz (2 ^ 10 + 1) (HUGEPGROUNDUP oldsz)

/-- The sweep of `freevm` over the directory slots from `i` on, `n` of them left. -/
def freevm.sweep (pgdir : Nat) : Nat → Nat → KernelM Unit
  | 0, _ => return
  | n + 1, i => do
    let e ← readWord (pgdir + 4 * i)
    if hasFlag e PTE_P then
      if hasFlag e PTE_PS then
        pure ()
      else
        kfree (P2V (PTE_ADDR e))
    freevm.sweep pgdir n (i + 1)

def freevm (pgdir : Nat) : KernelM Unit :=
  if pgdir = 0 then
    panic "freevm: no pgdir"
  else do
    let _ ← deallocuvm pgdir KERNBASE 0
    freevm.sweep pgdir NPDENTRIES 0
    kfree pgdir

end xv6
