import Xv6.Vm

open bytes

namespace xv6

/-- A row of the table of kernel mappings. -/
structure KMap where
  virt : Nat
  phys_start : Nat
  phys_end : Nat
  perm : Nat

def kmap : List KMap :=
  [ ⟨KERNBASE, 0, EXTMEM, PTE_W⟩,
    ⟨KERNLINK, V2P KERNLINK, V2P data, 0⟩,
    ⟨data, V2P data, PHYSTOP, PTE_W⟩,
    ⟨DEVSPACE, DEVSPACE, 0, PTE_W⟩,
    ⟨P2V HUGE_PAGE_START, HUGE_PAGE_START, HUGE_PAGE_END, PTE_W ||| PTE_PS⟩ ]

def setupkvm.loop (pgdir : Nat) : List KMap → KernelM Nat
  | [] => return pgdir
  | k :: rest => do
    if (← mappages pgdir k.virt (u32 (k.phys_end + (2 ^ 32 - k.phys_start))) k.phys_start k.perm) < 0 then
      freevm pgdir
      return 0
    else
      setupkvm.loop pgdir rest

def setupkvm : KernelM Nat := do
  let pgdir ← kalloc
  if pgdir = 0 then
    return 0
  else
    memset pgdir 0 PGSIZE
    if P2V PHYSTOP > DEVSPACE then
      panic "PHYSTOP too high"
    else
      setupkvm.loop pgdir kmap

def switchkvm : KernelM Unit :=
  modify fun s => { s with cr3 := V2P s.kpgdir }

def kvmalloc : KernelM Unit := do
  let pgdir ← setupkvm
  modify fun s => { s with kpgdir := pgdir }
  switchkvm

def switchuvm (p : Fin NPROC) : KernelM Unit := do
  let s ← get
  if (s.proc p).kstack = 0 then
    panic "switchuvm: no kstack"
  else if (s.proc p).pgdir = 0 then
    panic "switchuvm: no pgdir"
  else
    modify fun s => { s with cr3 := V2P (s.proc p).pgdir }

/-- Load the initcode into address 0 of pgdir. -/
def inituvm (pgdir : Nat) (init : List UInt8) : KernelM Unit :=
  if init.length ≥ PGSIZE then
    panic "inituvm: more than a page"
  else do
    let mem ← kalloc
    memset mem 0 PGSIZE
    let _ ← mappages pgdir 0 PGSIZE (V2P mem) (PTE_W ||| PTE_U)
    writeBytes mem init

def clearpteu (pgdir uva : Nat) : KernelM Unit := do
  let pte ← walkpgdir pgdir uva false
  if pte = 0 then
    panic "clearpteu"
  else
    let e ← readWord pte
    writeWord pte (if hasFlag e PTE_U then e - PTE_U else e)

/-- The loop over the parent's base pages; `false` stands for `goto bad`. -/
def copyuvm.baseLoop (pgdir d sz : Nat) : Nat → Nat → KernelM Bool
  | 0, _ => throw .hang
  | fuel + 1, i =>
    if i < sz then do
      let pte ← walkpgdir pgdir i false
      if pte = 0 then
        panic "copyuvm: pte should exist"
      else
        let e ← readWord pte
        if !hasFlag e PTE_P then
          panic "copyuvm: page not present"
        else
          let mem ← kalloc
          if mem = 0 then
            return false
          else
            memmove mem (P2V (PTE_ADDR e)) PGSIZE
            if (← mappages d i PGSIZE (V2P mem) (PTE_FLAGS e)) < 0 then
              kfree mem
              return false
            else
              copyuvm.baseLoop pgdir d sz fuel (u32 (i + PGSIZE))
    else
      return true

/-- The loop over the parent's huge pages; `false` stands for `goto bad`. -/
def copyuvm.hugeLoop (pgdir d stop : Nat) : Nat → Nat → KernelM Bool
  | 0, _ => throw .hang
  | fuel + 1, i =>
    if i < stop then do
      let e ← readWord (pgdir + 4 * PDX i)
      let mem ← khugealloc
      if mem = 0 then
        return false
      else
        memmove mem (P2V (PTE_ADDR e)) HUGE_PAGE_SIZE
        if (← mappages d i HUGE_PAGE_SIZE (V2P mem) (PTE_FLAGS e)) < 0 then
          khugefree mem
          return false
        else
          copyuvm.hugeLoop pgdir d stop fuel (u32 (i + HUGE_PAGE_SIZE))
    else
      return true

def copyuvm (pgdir sz hugesz : Nat) : KernelM Nat := do
  let d ← setupkvm
  if d = 0 then
    return 0
  else if (← copyuvm.baseLoop pgdir d sz (2 ^ 20 + 1) 0) then
    if (← copyuvm.hugeLoop pgdir d (u32 (HUGE_VA_OFFSET + hugesz)) (2 ^ 10 + 1) HUGE_VA_OFFSET) then
      return d
    else
      freevm d
      return 0
  else
    freevm d
    return 0

end xv6
