import Xv6.Proc

open bytes

namespace xv6

/-- An entry of the process table before its first use. -/
def Proc.zero : Proc where
  sz := 0
  hugesz := 0
  pgdir := 0
  kstack := 0
  state := .UNUSED
  pid := 0
  parent := none
  tf := { eax := 0, eip := 0, esp := 0 }
  killed := false
  ofile _ := none
  name := []

/-- The machine when `main` is entered: the tables of the kernel are zero, and
nothing is known about the memory outside the kernel image. -/
def Machine.reset (mem : Mem) : Machine where
  mem := mem
  freelist := 0
  freehugelist := 0
  kpgdir := 0
  cr3 := 0
  proc _ := .zero
  initproc := 0
  nextpid := 1
  file _ := { type := .FD_NONE, ref := 0, readable := false, writable := false, pipe := 0 }
  cpustack := []
  frees := []

/-- Start `n` more processors. Of what each of them finds below its entry code
at 0x7000, only the stack is modelled. -/
def startothers : Nat → KernelM Unit
  | 0 => return
  | n + 1 => do
    let stack ← kalloc
    writeWord (P2V (0x7000 - 4)) (u32 (stack + KSTACKSIZE))
    modify fun s => { s with cpustack := stack :: s.cpustack }
    startothers n

/-- The part of `main` that concerns memory and processes, on a machine with `ncpu` processors. -/
def main (ncpu : Nat) (initcode : List UInt8) : KernelM Unit := do
  kinit1 kernelEnd (P2V (4 * 1024 * 1024))
  kvmalloc
  startothers (ncpu - 1)
  kinit2 (P2V (4 * 1024 * 1024)) (P2V PHYSTOP)
  khugeinit (P2V HUGE_PAGE_START) (P2V HUGE_PAGE_END)
  userinit initcode

end xv6
