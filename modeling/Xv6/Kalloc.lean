import Xv6.Machine

open bytes

namespace xv6

def kfree (v : Nat) : KernelM Unit := do
  modify fun s => { s with frees := s.frees ++ [.kfree v] }
  if v % PGSIZE ≠ 0 ∨ v < kernelEnd ∨ V2P v ≥ PHYSTOP then
    panic "kfree"
  else
    -- Fill with junk to catch dangling refs.
    memset v 1 PGSIZE
    let s ← get
    writeWord v s.freelist
    modify fun s => { s with freelist := v }

def khugefree (v : Nat) : KernelM Unit := do
  modify fun s => { s with frees := s.frees ++ [.khugefree v] }
  if v % HUGE_PAGE_SIZE ≠ 0 ∨ V2P v < HUGE_PAGE_START ∨ V2P v ≥ HUGE_PAGE_END then
    panic "khugefree"
  else
    memset v 1 HUGE_PAGE_SIZE
    let s ← get
    writeWord v s.freehugelist
    modify fun s => { s with freehugelist := v }

def kalloc : KernelM Nat := do
  let s ← get
  let r := s.freelist
  if r ≠ 0 then
    let next ← readWord r
    modify fun s => { s with freelist := next }
  return r

def khugealloc : KernelM Nat := do
  let s ← get
  let r := s.freehugelist
  if r ≠ 0 then
    let next ← readWord r
    modify fun s => { s with freehugelist := next }
  return r

/-- The loops of `freerange` and `freehugerange`: free every frame of the given
size that fits below `vend`. -/
def freeLoop (free : Nat → KernelM Unit) (size vend : Nat) : Nat → Nat → KernelM Unit
  | 0, _ => throw .hang
  | fuel + 1, p =>
    if u32 (p + size) ≤ vend then do
      free p
      freeLoop free size vend fuel (u32 (p + size))
    else
      return

def freerange (vstart vend : Nat) : KernelM Unit :=
  freeLoop kfree PGSIZE vend (2 ^ 20) (PGROUNDUP vstart)

def freehugerange (vstart vend : Nat) : KernelM Unit :=
  freeLoop khugefree HUGE_PAGE_SIZE vend (2 ^ 10) (HUGEPGROUNDUP vstart)

def kinit1 (vstart vend : Nat) : KernelM Unit := freerange vstart vend

def kinit2 (vstart vend : Nat) : KernelM Unit := freerange vstart vend

def khugeinit (vstart vend : Nat) : KernelM Unit := freehugerange vstart vend

end xv6
