import Xv6.File
import Xv6.Vm.Space

open bytes

namespace xv6

/-- Find an unused slot and give it a kernel stack. The context and trap frame
that the kernel builds on that stack are kept in the process record. -/
def allocproc : KernelM (Option (Fin NPROC)) := do
  let s ← get
  match findSlot fun p => decide ((s.proc p).state = .UNUSED) with
  | none => return none
  | some p =>
    updateProc p fun proc => { proc with state := .EMBRYO, pid := s.nextpid }
    modify fun s => { s with nextpid := s.nextpid + 1 }
    let kstack ← kalloc
    updateProc p fun proc => { proc with kstack }
    if kstack = 0 then
      updateProc p fun proc => { proc with state := .UNUSED }
      return none
    else
      return some p

def userinit (initcode : List UInt8) : KernelM Unit := do
  match ← allocproc with
  | none => panic "trap"
  | some p =>
    modify fun s => { s with initproc := p }
    let pgdir ← setupkvm
    updateProc p fun proc => { proc with pgdir }
    if pgdir = 0 then
      panic "userinit: out of memory?"
    else
      inituvm pgdir initcode
      updateProc p fun proc =>
        { proc with
          sz := PGSIZE
          tf := { eax := 0, eip := 0, esp := PGSIZE }
          name := "initcode".toUTF8.toList
          state := .RUNNABLE }

def growproc (p : Fin NPROC) (n : Int) : KernelM Int := do
  let s ← get
  let sz := (s.proc p).sz
  let pgdir := (s.proc p).pgdir
  if n > 0 then
    let sz ← allocuvm pgdir sz (addInt sz n)
    if sz = 0 then
      return -1
    else
      updateProc p fun proc => { proc with sz }
      switchuvm p
      return 0
  else if n < 0 then
    let sz ← deallocuvm pgdir sz (addInt sz n)
    if sz = 0 then
      return -1
    else
      updateProc p fun proc => { proc with sz }
      switchuvm p
      return 0
  else
    updateProc p fun proc => { proc with sz }
    switchuvm p
    return 0

/-- The offset is added for growth only; the shrinking branch passes the bare
`hugesz`, and every branch subtracts the offset from the result. -/
def growhugeproc (p : Fin NPROC) (n : Int) : KernelM Int := do
  let s ← get
  let sz := (s.proc p).hugesz
  let pgdir := (s.proc p).pgdir
  if n > 0 then
    let sz ← allochugeuvm pgdir (u32 (sz + HUGE_VA_OFFSET)) (u32 (addInt sz n + HUGE_VA_OFFSET))
    if sz = 0 then
      return -1
    else
      updateProc p fun proc => { proc with hugesz := u32 (sz + (2 ^ 32 - HUGE_VA_OFFSET)) }
      switchuvm p
      return 0
  else if n < 0 then
    let sz ← deallocuvm pgdir sz (addInt sz n)
    if sz = 0 then
      return -1
    else
      updateProc p fun proc => { proc with hugesz := u32 (sz + (2 ^ 32 - HUGE_VA_OFFSET)) }
      switchuvm p
      return 0
  else
    updateProc p fun proc => { proc with hugesz := u32 (sz + (2 ^ 32 - HUGE_VA_OFFSET)) }
    switchuvm p
    return 0

/-- The loop of `fork` that duplicates the open files. -/
def fork.dup (p np : Fin NPROC) : List (Fin NOFILE) → KernelM Unit
  | [] => return
  | fd :: rest => do
    let s ← get
    match (s.proc p).ofile fd with
    | some f =>
      let f ← filedup f
      updateProc np fun proc => { proc with ofile := Function.update proc.ofile fd (some f) }
    | none => pure ()
    fork.dup p np rest

def fork (p : Fin NPROC) : KernelM Int := do
  match ← allocproc with
  | none => return -1
  | some np =>
    let s ← get
    let pgdir ← copyuvm (s.proc p).pgdir (s.proc p).sz (s.proc p).hugesz
    updateProc np fun proc => { proc with pgdir }
    if pgdir = 0 then
      let s ← get
      kfree (s.proc np).kstack
      updateProc np fun proc => { proc with kstack := 0, state := .UNUSED }
      return -1
    else
      let s ← get
      updateProc np fun proc =>
        { proc with
          sz := (s.proc p).sz
          hugesz := (s.proc p).hugesz
          parent := some p
          tf := { (s.proc p).tf with eax := 0 } }
      fork.dup p np (List.finRange NOFILE)
      updateProc np fun proc => { proc with name := (s.proc p).name }
      let s ← get
      let pid := (s.proc np).pid
      updateProc np fun proc => { proc with state := .RUNNABLE }
      return pid

/-- The loop of `exit` that closes the open files. -/
def exit.close (p : Fin NPROC) : List (Fin NOFILE) → KernelM Unit
  | [] => return
  | fd :: rest => do
    let s ← get
    match (s.proc p).ofile fd with
    | some f =>
      fileclose f
      updateProc p fun proc => { proc with ofile := Function.update proc.ofile fd none }
    | none => pure ()
    exit.close p rest

/-- Sleeping processes are woken through the scheduler only, so that the wakeups
of `exit` do not show in this model. -/
def exit (p : Fin NPROC) : KernelM Unit := do
  let s ← get
  if p = s.initproc then
    panic "init exiting"
  else
    exit.close p (List.finRange NOFILE)
    modify fun s =>
      { s with proc := fun q =>
          if (s.proc q).parent = some p then { s.proc q with parent := some s.initproc }
          else s.proc q }
    updateProc p fun proc => { proc with state := .ZOMBIE }

/-- One scan of `wait`: reap the first zombie child, or report that there is no
child; `none` means that the caller sleeps. -/
def wait (p : Fin NPROC) : KernelM (Option Int) := do
  let s ← get
  match findSlot fun q =>
      decide ((s.proc q).parent = some p) && decide ((s.proc q).state = .ZOMBIE) with
  | some q =>
    let pid := (s.proc q).pid
    kfree (s.proc q).kstack
    updateProc q fun proc => { proc with kstack := 0 }
    freevm (s.proc q).pgdir
    updateProc q fun proc =>
      { proc with pid := 0, parent := none, name := [], killed := false, state := .UNUSED }
    return some pid
  | none =>
    let havekids := (List.finRange NPROC).any fun q => decide ((s.proc q).parent = some p)
    if !havekids || (s.proc p).killed then
      return some (-1)
    else
      return none

end xv6
