import Xv6.Kalloc

open bytes

namespace xv6

/-- The first index at which a test succeeds, in table order. -/
def findSlot {n : Nat} (test : Fin n → Bool) : Option (Fin n) := (List.finRange n).find? test

def filealloc : KernelM (Option (Fin NFILE)) := do
  let s ← get
  match findSlot fun f => (s.file f).ref == 0 with
  | some f =>
    updateFile f fun file => { file with ref := 1 }
    return some f
  | none => return none

def filedup (f : Fin NFILE) : KernelM (Fin NFILE) := do
  let s ← get
  if (s.file f).ref < 1 then
    panic "filedup"
  else
    updateFile f fun file => { file with ref := file.ref + 1 }
    return f

/-- Offsets of the fields of `struct pipe` that decide when its page is freed. -/
abbrev pipe.nread : Nat := 564
abbrev pipe.nwrite : Nat := 568
abbrev pipe.readopen : Nat := 572
abbrev pipe.writeopen : Nat := 576

def pipeclose (p : Nat) (writable : Bool) : KernelM Unit := do
  if writable then
    writeWord (p + pipe.writeopen) 0
  else
    writeWord (p + pipe.readopen) 0
  let r ← readWord (p + pipe.readopen)
  let w ← readWord (p + pipe.writeopen)
  if r = 0 ∧ w = 0 then
    kfree p

/-- Closing the last reference to an inode ends in `iput`, which is part of the
file system and touches no frame. -/
def fileclose (f : Fin NFILE) : KernelM Unit := do
  let s ← get
  if (s.file f).ref < 1 then
    panic "fileclose"
  else if (s.file f).ref - 1 > 0 then
    updateFile f fun file => { file with ref := file.ref - 1 }
  else
    let ff := s.file f
    updateFile f fun file => { file with ref := 0, type := .FD_NONE }
    if ff.type = .FD_PIPE then
      pipeclose ff.pipe ff.writable

/-- The label `bad` of `pipealloc`. -/
def pipealloc.bad (p : Nat) (f0 f1 : Option (Fin NFILE)) :
    KernelM (Option (Fin NFILE × Fin NFILE)) := do
  if p ≠ 0 then
    kfree p
  match f0 with
  | some f => fileclose f
  | none => pure ()
  match f1 with
  | some f => fileclose f
  | none => pure ()
  return none

def pipealloc : KernelM (Option (Fin NFILE × Fin NFILE)) := do
  match ← filealloc with
  | none => pipealloc.bad 0 none none
  | some f0 =>
    match ← filealloc with
    | none => pipealloc.bad 0 (some f0) none
    | some f1 =>
      let p ← kalloc
      if p = 0 then
        pipealloc.bad 0 (some f0) (some f1)
      else
        writeWord (p + pipe.readopen) 1
        writeWord (p + pipe.writeopen) 1
        writeWord (p + pipe.nwrite) 0
        writeWord (p + pipe.nread) 0
        updateFile f0 fun file =>
          { file with type := .FD_PIPE, readable := true, writable := false, pipe := p }
        updateFile f1 fun file =>
          { file with type := .FD_PIPE, readable := false, writable := true, pipe := p }
        return some (f0, f1)

def fdalloc (p : Fin NPROC) (f : Fin NFILE) : KernelM (Option (Fin NOFILE)) := do
  let s ← get
  match findSlot fun fd => ((s.proc p).ofile fd).isNone with
  | some fd =>
    updateProc p fun proc => { proc with ofile := Function.update proc.ofile fd (some f) }
    return some fd
  | none => return none

end xv6
