import Xv6.Exec

open bytes

namespace xv6

/-- Fetch the word at a user address; `none` stands for -1. -/
def fetchint (p : Fin NPROC) (addr : Nat) : KernelM (Option Nat) := do
  let s ← get
  if addr ≥ (s.proc p).sz ∨ u32 (addr + 4) > (s.proc p).sz then
    return none
  else
    let w ← readUserWord addr
    return some w

def fetchstr.loop (ep start : Nat) : Nat → Nat → KernelM (Option Nat)
  | 0, _ => throw .hang
  | fuel + 1, a =>
    if a < ep then do
      let c ← readUserByte a
      if c = 0 then
        return some (a - start)
      else
        fetchstr.loop ep start fuel (u32 (a + 1))
    else
      return none

/-- The length of the string at a user address, if it ends below `sz`. -/
def fetchstr (p : Fin NPROC) (addr : Nat) : KernelM (Option Nat) := do
  let s ← get
  if addr ≥ (s.proc p).sz then
    return none
  else
    fetchstr.loop (s.proc p).sz addr ((s.proc p).sz - addr + 1) addr

def argint (p : Fin NPROC) (n : Nat) : KernelM (Option Nat) := do
  let s ← get
  fetchint p (u32 ((s.proc p).tf.esp + 4 + 4 * n))

/-- Fetch the nth argument as a pointer to a block of `size` bytes. -/
def argptr (p : Fin NPROC) (n : Nat) (size : Int) : KernelM (Option Nat) := do
  match ← argint p n with
  | none => return none
  | some i =>
    let s ← get
    if size < 0 ∨ i ≥ (s.proc p).sz ∨ addInt i size > (s.proc p).sz then
      return none
    else
      return some i

def argstr (p : Fin NPROC) (n : Nat) : KernelM (Option Nat) := do
  match ← argint p n with
  | none => return none
  | some addr => fetchstr p addr

/-- The system calls after `argint` has fetched their argument. -/
def sys_sbrk (p : Fin NPROC) (n : Int) : KernelM Int := do
  let s ← get
  let addr := (s.proc p).sz
  if (← growproc p n) < 0 then
    return -1
  else
    return addr

def sys_shugebrk (p : Fin NPROC) (n : Int) : KernelM Int := do
  let s ← get
  let addr := u32 ((s.proc p).hugesz + HUGE_VA_OFFSET)
  if (← growhugeproc p n) < 0 then
    return -1
  else
    return addr

def sys_close (p : Fin NPROC) (fd : Int) : KernelM Int := do
  let s ← get
  if h : 0 ≤ fd ∧ fd.toNat < NOFILE then
    match (s.proc p).ofile ⟨fd.toNat, h.2⟩ with
    | none => return -1
    | some f =>
      updateProc p fun proc => { proc with ofile := Function.update proc.ofile ⟨fd.toNat, h.2⟩ none }
      fileclose f
      return 0
  else
    return -1

def sys_pipe (p : Fin NPROC) : KernelM Int := do
  match ← argptr p 0 8 with
  | none => return -1
  | some fd =>
    match ← pipealloc with
    | none => return -1
    | some (rf, wf) =>
      match ← fdalloc p rf with
      | none =>
        fileclose rf
        fileclose wf
        return -1
      | some fd0 =>
        match ← fdalloc p wf with
        | none =>
          updateProc p fun proc => { proc with ofile := Function.update proc.ofile fd0 none }
          fileclose rf
          fileclose wf
          return -1
        | some fd1 =>
          writeUserWord fd fd0
          writeUserWord (u32 (fd + 4)) fd1
          return 0

/-- The inner loop of `sys_procpgdirinfo` over the slots `j` of a page table. -/
def sys_procpgdirinfo.table (pgtab : Nat) : List Nat → Nat → KernelM Nat
  | [], base_cnt => return base_cnt
  | j :: js, base_cnt => do
    let e ← readWord (pgtab + 4 * j)
    sys_procpgdirinfo.table pgtab js (if hasFlag e PTE_U && hasFlag e PTE_P then base_cnt + 1 else base_cnt)

/-- The loop of `sys_procpgdirinfo` over the slots `i` of the directory. -/
def sys_procpgdirinfo.count (pgdir : Nat) : List Nat → Nat → Nat → KernelM (Nat × Nat)
  | [], base_cnt, huge_cnt => return (base_cnt, huge_cnt)
  | i :: is, base_cnt, huge_cnt => do
    let e ← readWord (pgdir + 4 * i)
    let huge_cnt := if hasFlag e PTE_PS && hasFlag e PTE_U && hasFlag e PTE_P then huge_cnt + 1 else huge_cnt
    let base_cnt ←
      if hasFlag e PTE_U && hasFlag e PTE_P && !hasFlag e PTE_PS then
        sys_procpgdirinfo.table (P2V (PTE_ADDR e)) (List.range NPTENTRIES) base_cnt
      else
        pure base_cnt
    sys_procpgdirinfo.count pgdir is base_cnt huge_cnt

def sys_procpgdirinfo (p : Fin NPROC) : KernelM Int := do
  match ← argptr p 0 8 with
  | none => return -1
  | some buf =>
    let s ← get
    let (base_cnt, huge_cnt) ← sys_procpgdirinfo.count (s.proc p).pgdir (List.range NPDENTRIES) 0 0
    writeUserWord buf base_cnt
    writeUserWord (u32 (buf + 4)) huge_cnt
    return 0

end xv6
