import Xv6.Fs.Dir

open bytes

namespace xv6.fs

/-! ### file.c -/

def updateFile (f : Fin NFILE) (g : File → File) : FsM Unit :=
  modify fun s => { s with ftable := Function.update s.ftable f (g (s.ftable f)) }

def filealloc : FsM (Option (Fin NFILE)) := do
  let s ← get
  match (List.finRange NFILE).find? fun f => (s.ftable f).ref == 0 with
  | some f =>
    updateFile f fun file => { file with ref := 1 }
    return some f
  | none => return none

def filedup (f : Fin NFILE) : FsM Unit := do
  if ((← get).ftable f).ref < 1 then
    throw "filedup"
  updateFile f fun file => { file with ref := file.ref + 1 }

def kalloc : FsM (Option Nat) := do
  let s ← get
  match s.pages.free with
  | [] => return none
  | pg :: free =>
    set { s with pages := { s.pages with free, made := Function.update s.pages.made pg (s.pages.made pg + 1) } }
    return some pg

def kfree (pg : Nat) : FsM Unit :=
  modify fun s => { s with pages := { s.pages with
    free := pg :: s.pages.free
    pipe := Function.update s.pages.pipe pg junk
    freed := Function.update s.pages.freed pg (s.pages.freed pg + 1) } }

def updatePipe (pg : Nat) (g : Pipe → Pipe) : FsM Unit :=
  modify fun s => { s with pages := { s.pages with
    pipe := Function.update s.pages.pipe pg (g (s.pages.pipe pg)) } }

def pipeclose (pg : Nat) (writable : Bool) : FsM Unit := do
  updatePipe pg fun p => p.close writable
  let p := (← get).pages.pipe pg
  if p.readopen = false ∧ p.writeopen = false then
    kfree pg

def fileclose (f : Fin NFILE) : FsM Unit := do
  let s ← get
  let ff := s.ftable f
  if ff.ref < 1 then
    throw "fileclose"
  else if ff.ref - 1 > 0 then
    updateFile f fun file => { file with ref := file.ref - 1 }
  else
    updateFile f fun file => { file with ref := 0, type := .FD_NONE }
    if ff.type = .FD_PIPE then
      pipeclose ff.pipe ff.writable
    else if ff.type = .FD_INODE then
      begin_op
      iput ff.ip
      end_op

/-- The label `bad` of `pipealloc`. -/
def pipealloc.bad (p : Option Nat) (f0 f1 : Option (Fin NFILE)) : FsM (Option (Fin NFILE × Fin NFILE)) := do
  p.forM kfree
  f0.forM fileclose
  f1.forM fileclose
  return none

def pipealloc : FsM (Option (Fin NFILE × Fin NFILE)) := do
  match ← filealloc with
  | none => pipealloc.bad none none none
  | some f0 =>
    match ← filealloc with
    | none => pipealloc.bad none (some f0) none
    | some f1 =>
      match ← kalloc with
      | none => pipealloc.bad none (some f0) (some f1)
      | some p =>
        updatePipe p fun p => { p with readopen := true, writeopen := true, nwrite := 0, nread := 0 }
        updateFile f0 fun file => { file with type := .FD_PIPE, readable := true, writable := false, pipe := p }
        updateFile f1 fun file => { file with type := .FD_PIPE, readable := false, writable := true, pipe := p }
        return some (f0, f1)

/-- The loop of `pipewrite`, as long as there is room. -/
def pipewrite.loop : List UInt8 → Pipe → List UInt8 × Pipe
  | [], p => ([], p)
  | b :: addr, p => if p.full then (b :: addr, p) else pipewrite.loop addr (p.put b)

/-- How calls that sleep interleave is the subject of `Xv6.Pipe`. -/
def pipewrite (pg : Nat) (addr : List UInt8) : FsM (Option Nat) := do
  let p := (← get).pages.pipe pg
  let (rest, p') := pipewrite.loop addr p
  updatePipe pg fun _ => p'
  if rest = [] then
    return some addr.length
  else if p.readopen = false then
    return none
  else
    throw "sleep"

/-- The second loop of `piperead`. -/
def piperead.loop : Nat → Pipe → List UInt8 × Pipe
  | 0, p => ([], p)
  | n + 1, p =>
    if p.empty then ([], p)
    else
      let (addr, p') := piperead.loop n { p with nread := p.nread + 1 }
      (p.head :: addr, p')

def piperead (pg n : Nat) : FsM (Option (List UInt8)) := do
  let p := (← get).pages.pipe pg
  if p.empty ∧ p.writeopen then
    throw "sleep"
  else
    let (addr, p') := piperead.loop n p
    updatePipe pg fun _ => p'
    return some addr

/-- Get metadata about a file: the fields that `stati` copies. -/
def filestat (f : Fin NFILE) : FsM (Option Inode) := do
  let ff := (← get).ftable f
  if ff.type = .FD_INODE then
    ilock ff.ip
    let e ← readInode ff.ip
    iunlock ff.ip
    return some e
  else
    return none

def fileread (f : Fin NFILE) (n : Nat) : FsM (Option (List UInt8)) := do
  let ff := (← get).ftable f
  if ff.readable = false then
    return none
  else if ff.type = .FD_PIPE then
    piperead ff.pipe n
  else if ff.type = .FD_INODE then
    ilock ff.ip
    let r ← readi ff.ip ff.off n
    updateFile f fun file => { file with off := u32 (file.off + (r.getD []).length) }
    iunlock ff.ip
    return r
  else
    throw "fileread"

/-- The loop of `filewrite` over the bytes that are left: a few blocks at a
time, each part in a transaction of its own. -/
def filewrite.loop (f : Fin NFILE) : Nat → List UInt8 → FsM Bool
  | 0, _ => return true
  | fuel + 1, addr => do
    if addr = [] then
      return true
    let part := addr.take (((MAXOPBLOCKS - 1 - 1 - 2) / 2) * 512)
    let ff := (← get).ftable f
    begin_op
    ilock ff.ip
    let r ← writei ff.ip part ff.off
    updateFile f fun file => { file with off := u32 (file.off + r.getD 0) }
    iunlock ff.ip
    end_op
    match r with
    | none => return false
    | some n1 =>
      if n1 ≠ part.length then
        throw "short filewrite"
      filewrite.loop f fuel (addr.drop n1)

def filewrite (f : Fin NFILE) (addr : List UInt8) : FsM (Option Nat) := do
  let ff := (← get).ftable f
  if ff.writable = false then
    return none
  else if ff.type = .FD_PIPE then
    pipewrite ff.pipe addr
  else if ff.type = .FD_INODE then
    return if ← filewrite.loop f addr.length addr then some addr.length else none
  else
    throw "filewrite"

/-! ### sysfile.c

A system call is given by its arguments as fetched from the user's stack, and
returns -1, 0 or a descriptor. -/

def readProc (p : Fin NPROC) : FsM Proc := do
  match (← get).proc p with
  | some proc => return proc
  | none => throw "no process"

def updateProc (p : Fin NPROC) (g : Proc → Proc) : FsM Unit :=
  modify fun s => { s with proc := Function.update s.proc p ((s.proc p).map g) }

/-- The open file that descriptor `fd` of process `p` stands for. -/
def argfd (p : Fin NPROC) (fd : Nat) : FsM (Option (Fin NOFILE × Fin NFILE)) := do
  let proc ← readProc p
  if h : fd < NOFILE then
    return (proc.ofile ⟨fd, h⟩).map fun f => (⟨fd, h⟩, f)
  else
    return none

def fdalloc (p : Fin NPROC) (f : Fin NFILE) : FsM (Option (Fin NOFILE)) := do
  let proc ← readProc p
  match (List.finRange NOFILE).find? fun fd => (proc.ofile fd).isNone with
  | some fd =>
    updateProc p fun proc => { proc with ofile := Function.update proc.ofile fd (some f) }
    return some fd
  | none => return none

def sys_dup (p : Fin NPROC) (fd : Nat) : FsM Int := do
  match ← argfd p fd with
  | none => return -1
  | some (_, f) =>
    match ← fdalloc p f with
    | none => return -1
    | some fd =>
      filedup f
      return fd

def sys_read (p : Fin NPROC) (fd n : Nat) : FsM Int := do
  match ← argfd p fd with
  | none => return -1
  | some (_, f) =>
    match ← fileread f n with
    | some data => return data.length
    | none => return -1

def sys_write (p : Fin NPROC) (fd : Nat) (addr : List UInt8) : FsM Int := do
  match ← argfd p fd with
  | none => return -1
  | some (_, f) =>
    match ← filewrite f addr with
    | some n => return n
    | none => return -1

def sys_close (p : Fin NPROC) (fd : Nat) : FsM Int := do
  match ← argfd p fd with
  | none => return -1
  | some (fd, f) =>
    updateProc p fun proc => { proc with ofile := Function.update proc.ofile fd none }
    fileclose f
    return 0

def sys_fstat (p : Fin NPROC) (fd : Nat) : FsM Int := do
  match ← argfd p fd with
  | none => return -1
  | some (_, f) =>
    match ← filestat f with
    | some _ => return 0
    | none => return -1

/-- The label `bad` of `sys_link`. -/
def sys_link.bad (ip : Fin NINODE) : FsM Int := do
  ilock ip
  updateDin ip fun d => { d with nlink := (d.nlink + (2 ^ 16 - 1)) % 2 ^ 16 }
  iupdate ip
  iunlockput ip
  end_op
  return -1

/-- Create the path `new` as a link to the same inode as `old`. -/
def sys_link (p : Fin NPROC) (old new : List UInt8) : FsM Int := do
  let proc ← readProc p
  begin_op
  match ← namei proc.cwd old with
  | none =>
    end_op
    return -1
  | some ip =>
    ilock ip
    if (← readInode ip).din.type = T_DIR then
      iunlockput ip
      end_op
      return -1
    else
      updateDin ip fun d => { d with nlink := (d.nlink + 1) % 2 ^ 16 }
      iupdate ip
      iunlock ip
      match ← nameiparent proc.cwd new with
      | none => sys_link.bad ip
      | some (dp, name) =>
        ilock dp
        if ← dirlink dp name (← readInode ip).inum then
          iunlockput dp
          iput ip
          end_op
          return 0
        else
          iunlockput dp
          sys_link.bad ip

def isdirempty.loop (dp : Fin NINODE) : List Nat → FsM Bool
  | [] => return true
  | off :: offs => do
    let de ← readDirent dp off "isdirempty: readi"
    if direntInum de ≠ 0 then
      return false
    else
      isdirempty.loop dp offs

/-- Is the directory `dp` empty except for `.` and `..`? -/
def isdirempty (dp : Fin NINODE) : FsM Bool := do
  let e ← readInode dp
  isdirempty.loop dp (direntOffs (2 * DIRENT) e.din.size)

abbrev dot : List UInt8 := [46]
abbrev dotdot : List UInt8 := [46, 46]

/-- The label `bad` of `sys_unlink`. -/
def sys_unlink.bad (dp : Fin NINODE) : FsM Int := do
  iunlockput dp
  end_op
  return -1

def sys_unlink (p : Fin NPROC) (path : List UInt8) : FsM Int := do
  let proc ← readProc p
  begin_op
  match ← nameiparent proc.cwd path with
  | none =>
    end_op
    return -1
  | some (dp, name) =>
    ilock dp
    if namecmp name dot ∨ namecmp name dotdot then
      sys_unlink.bad dp
    else
      match ← dirlookup dp name with
      | none => sys_unlink.bad dp
      | some (ip, off) =>
        ilock ip
        let e ← readInode ip
        -- `nlink` is signed
        if e.din.nlink < 1 ∨ e.din.nlink ≥ 2 ^ 15 then
          throw "unlink: nlink < 1"
        let full ← if e.din.type = T_DIR then not <$> isdirempty ip else pure false
        if full then
          iunlockput ip
          sys_unlink.bad dp
        else
          if (← writei dp (List.replicate DIRENT 0) off) ≠ some DIRENT then
            throw "unlink: writei"
          if e.din.type = T_DIR then
            updateDin dp fun d => { d with nlink := (d.nlink + (2 ^ 16 - 1)) % 2 ^ 16 }
            iupdate dp
          iunlockput dp
          updateDin ip fun d => { d with nlink := (d.nlink + (2 ^ 16 - 1)) % 2 ^ 16 }
          iupdate ip
          iunlockput ip
          end_op
          return 0

def create (cwd : Fin NINODE) (path : List UInt8) (type major minor : Nat) : FsM (Option (Fin NINODE)) := do
  match ← nameiparent cwd path with
  | none => return none
  | some (dp, name) =>
    ilock dp
    match ← dirlookup dp name with
    | some (ip, _) =>
      iunlockput dp
      ilock ip
      if type = T_FILE ∧ (← readInode ip).din.type = T_FILE then
        return some ip
      else
        iunlockput ip
        return none
    | none =>
      let ip ← ialloc type
      ilock ip
      updateDin ip fun d => { d with major := major % 2 ^ 16, minor := minor % 2 ^ 16, nlink := 1 }
      iupdate ip
      if type = T_DIR then
        updateDin dp fun d => { d with nlink := (d.nlink + 1) % 2 ^ 16 }
        iupdate dp
        unless ← dirlink ip dot (← readInode ip).inum do
          throw "create dots"
        unless ← dirlink ip dotdot (← readInode dp).inum do
          throw "create dots"
      unless ← dirlink dp name (← readInode ip).inum do
        throw "create: dirlink"
      iunlockput dp
      return some ip

abbrev O_RDONLY : Nat := 0x000
abbrev O_WRONLY : Nat := 0x001
abbrev O_RDWR : Nat := 0x002
abbrev O_CREATE : Nat := 0x200

/-- The part of `sys_open` that returns a locked inode. -/
def sys_open.inode (cwd : Fin NINODE) (path : List UInt8) (omode : Nat) : FsM (Option (Fin NINODE)) := do
  if hasFlag omode O_CREATE then
    create cwd path T_FILE 0 0
  else
    match ← namei cwd path with
    | none => return none
    | some ip =>
      ilock ip
      if (← readInode ip).din.type = T_DIR ∧ omode ≠ O_RDONLY then
        iunlockput ip
        return none
      else
        return some ip

def sys_open (p : Fin NPROC) (path : List UInt8) (omode : Nat) : FsM Int := do
  let proc ← readProc p
  begin_op
  match ← sys_open.inode proc.cwd path omode with
  | none =>
    end_op
    return -1
  | some ip =>
    match ← filealloc with
    | none =>
      iunlockput ip
      end_op
      return -1
    | some f =>
      match ← fdalloc p f with
      | none =>
        fileclose f
        iunlockput ip
        end_op
        return -1
      | some fd =>
        iunlock ip
        end_op
        updateFile f fun file => { file with
          type := .FD_INODE
          ip := ip
          off := 0
          readable := !hasFlag omode O_WRONLY
          writable := hasFlag omode O_WRONLY || hasFlag omode O_RDWR }
        return fd

/-- `sys_mkdir` and `sys_mknod` differ in what they create. -/
def sys_make (p : Fin NPROC) (path : List UInt8) (type major minor : Nat) : FsM Int := do
  let proc ← readProc p
  begin_op
  match ← create proc.cwd path type major minor with
  | none =>
    end_op
    return -1
  | some ip =>
    iunlockput ip
    end_op
    return 0

def sys_mkdir (p : Fin NPROC) (path : List UInt8) : FsM Int := sys_make p path T_DIR 0 0

def sys_mknod (p : Fin NPROC) (path : List UInt8) (major minor : Nat) : FsM Int :=
  sys_make p path T_DEV major minor

def sys_chdir (p : Fin NPROC) (path : List UInt8) : FsM Int := do
  let proc ← readProc p
  begin_op
  match ← namei proc.cwd path with
  | none =>
    end_op
    return -1
  | some ip =>
    ilock ip
    if (← readInode ip).din.type ≠ T_DIR then
      iunlockput ip
      end_op
      return -1
    else
      iunlock ip
      iput proc.cwd
      end_op
      updateProc p fun proc => { proc with cwd := ip }
      return 0

/-- The descriptors that `sys_pipe` stores for the user; `none` is the result -1. -/
def sys_pipe (p : Fin NPROC) : FsM (Option (Fin NOFILE × Fin NOFILE)) := do
  match ← pipealloc with
  | none => return none
  | some (rf, wf) =>
    match ← fdalloc p rf with
    | none =>
      fileclose rf
      fileclose wf
      return none
    | some fd0 =>
      match ← fdalloc p wf with
      | none =>
        updateProc p fun proc => { proc with ofile := Function.update proc.ofile fd0 none }
        fileclose rf
        fileclose wf
        return none
      | some fd1 => return some (fd0, fd1)

/-- What `exec` does to the file system: it reads parts of the file, the
program headers deciding which. -/
def exec (p : Fin NPROC) (path : List UInt8) (parts : List (Nat × Nat)) : FsM Int := do
  let proc ← readProc p
  begin_op
  match ← namei proc.cwd path with
  | none =>
    end_op
    return -1
  | some ip =>
    ilock ip
    parts.forM fun part => discard (readi ip part.1 part.2)
    iunlockput ip
    end_op
    return 0

/-! ### proc.c -/

/-- The files that `fork` shares between process `p` and its child `np`. There
is no child when `allocproc` or `copyuvm` fail. -/
def fork (p : Fin NPROC) (np : Option (Fin NPROC)) : FsM Unit := do
  let proc ← readProc p
  match np with
  | none => return
  | some np =>
    (List.finRange NOFILE).forM fun fd =>
      match proc.ofile fd with
      | some f => filedup f
      | none => return
    let cwd ← idup proc.cwd
    modify fun s => { s with proc := Function.update s.proc np (some { cwd := cwd, ofile := proc.ofile }) }

/-- The first process. -/
abbrev initproc : Fin NPROC := 0

/-- How `exit` gives up the files of process `p`. -/
def exit (p : Fin NPROC) : FsM Unit := do
  if p = initproc then
    throw "init exiting"
  (List.finRange NOFILE).forM fun fd => do
    let proc ← readProc p
    match proc.ofile fd with
    | some f =>
      fileclose f
      updateProc p fun proc => { proc with ofile := Function.update proc.ofile fd none }
    | none => return
  let proc ← readProc p
  begin_op
  iput proc.cwd
  end_op
  modify fun s => { s with proc := Function.update s.proc p none }

/-- The operations on the file system. -/
inductive Op where
  | dup (fd : Nat)
  | read (fd n : Nat)
  | write (fd : Nat) (addr : List UInt8)
  | close (fd : Nat)
  | fstat (fd : Nat)
  | link (old new : List UInt8)
  | unlink (path : List UInt8)
  | opens (path : List UInt8) (omode : Nat)
  | mkdir (path : List UInt8)
  | mknod (path : List UInt8) (major minor : Nat)
  | chdir (path : List UInt8)
  | pipe
  | exec (path : List UInt8) (parts : List (Nat × Nat))

def syscall (p : Fin NPROC) : Op → FsM Int
  | .dup fd => sys_dup p fd
  | .read fd n => sys_read p fd n
  | .write fd addr => sys_write p fd addr
  | .close fd => sys_close p fd
  | .fstat fd => sys_fstat p fd
  | .link old new => sys_link p old new
  | .unlink path => sys_unlink p path
  | .opens path omode => sys_open p path omode
  | .mkdir path => sys_mkdir p path
  | .mknod path major minor => sys_mknod p path major minor
  | .chdir path => sys_chdir p path
  | .pipe => do return if (← sys_pipe p).isSome then 0 else -1
  | .exec path parts => exec p path parts

/-- One operation of the running kernel, done as a whole. In a step `memory` the
rest of the kernel takes and gives back pages and writes to its own, and bytes
move through the pipes. -/
inductive Step : Fs → Fs → Prop
  | syscall {s s' : Fs} (p : Fin NPROC) (op : Op) (r : Int) :
      (syscall p op).run s = .ok r s' → Step s s'
  | fork {s s' : Fs} (p : Fin NPROC) (np : Option (Fin NPROC)) :
      (∀ q ∈ np, s.proc q = none) → (fork p np).run s = .ok () s' → Step s s'
  | exit {s s' : Fs} (p : Fin NPROC) : (exit p).run s = .ok () s' → Step s s'
  | typed (s : Fs) (input : List UInt8) : Step s { s with console := s.console ++ input }
  | memory (s : Fs) (free held : List Nat) (pipe : Nat → Pipe) :
      (free ++ held).Perm (s.pages.free ++ s.pages.held) →
      (∀ pg, pg ∉ s.pages.free ++ s.pages.held →
        (pipe pg).readopen = (s.pages.pipe pg).readopen ∧ (pipe pg).writeopen = (s.pages.pipe pg).writeopen) →
      Step s { s with pages := { s.pages with free, held, pipe } }

end xv6.fs
