import Xv6.Syscall

open bytes

namespace xv6

/-- The files that `namei` finds; the file system itself is not part of the machine. -/
abbrev Files := List UInt8 → Option Inode

/-- The `n` bytes at a user address. -/
def readUser : Nat → Nat → KernelM (List UInt8)
  | _, 0 => return []
  | addr, n + 1 => do
    let c ← readUserByte addr
    let rest ← readUser (u32 (addr + 1)) n
    return c :: rest

/-- The nul-terminated string at a user address. `fetchstr` returns a pointer to it,
through which `exec` reads its bytes. -/
def userString (p : Fin NPROC) (addr : Nat) : KernelM (Option (List UInt8)) := do
  match ← fetchstr p addr with
  | none => return none
  | some n =>
    let str ← readUser addr n
    return some str

/-- The loop of `sys_exec` over the argument vector, with the number of places left
in `argv`. -/
def sys_exec.args (p : Fin NPROC) (uargv : Nat) : Nat → Nat → KernelM (Option (List (List UInt8)))
  | 0, _ => return none
  | left + 1, i => do
    match ← fetchint p (u32 (uargv + 4 * i)) with
    | none => return none
    | some uarg =>
      if uarg = 0 then
        return some []
      else
        match ← userString p uarg with
        | none => return none
        | some arg =>
          match ← sys_exec.args p uargv left (i + 1) with
          | none => return none
          | some rest => return some (arg :: rest)

def sys_exec (files : Files) (p : Fin NPROC) : KernelM Int := do
  match ← argint p 0 with
  | none => return -1
  | some addr =>
    match ← userString p addr with
    | none => return -1
    | some path =>
      match ← argint p 1 with
      | none => return -1
      | some uargv =>
        match ← sys_exec.args p uargv MAXARG 0 with
        | none => return -1
        | some argv => exec p path (files path) argv

/-- The file behind the descriptor that the nth argument names. -/
def argfd (p : Fin NPROC) (n : Nat) : KernelM (Option (Fin NFILE)) := do
  match ← argint p n with
  | none => return none
  | some fd =>
    let s ← get
    if h : fd < NOFILE then
      return (s.proc p).ofile ⟨fd, h⟩
    else
      return none

/-- The descriptor is filled before the reference is counted. -/
def sys_dup (p : Fin NPROC) : KernelM Int := do
  match ← argfd p 0 with
  | none => return -1
  | some f =>
    match ← fdalloc p f with
    | none => return -1
    | some fd =>
      let _ ← filedup f
      return fd

def kill (pid : Nat) : KernelM Int := do
  let s ← get
  match findSlot fun q => decide (u32 (s.proc q).pid = pid) with
  | none => return -1
  | some q =>
    updateProc q fun proc =>
      { proc with killed := true, state := if proc.state = .SLEEPING then .RUNNABLE else proc.state }
    return 0

/-- A call with one argument word. -/
def withArg (p : Fin NPROC) (call : Nat → KernelM Int) : KernelM Int := do
  match ← argint p 0 with
  | none => return -1
  | some n => call n

/-- The calls of the table `syscalls` that manage memory, processes, pipes and descriptors. -/
inductive Sysno where
  | fork | exit | wait | pipe | kill | exec | dup | getpid | sbrk | close | procpgdirinfo | shugebrk
  deriving DecidableEq

def Sysno.num : Sysno → Nat
  | .fork => 1
  | .exit => 2
  | .wait => 3
  | .pipe => 4
  | .kill => 6
  | .exec => 7
  | .dup => 10
  | .getpid => 11
  | .sbrk => 12
  | .close => 21
  | .procpgdirinfo => 23
  | .shugebrk => 24

def Sysno.all : List Sysno :=
  [.fork, .exit, .wait, .pipe, .kill, .exec, .dup, .getpid, .sbrk, .close, .procpgdirinfo, .shugebrk]

def Sysno.lookup (n : Nat) : Option Sysno := Sysno.all.find? fun c => c.num == n

/-- The function in the table for a call. The result is `none` if the caller does not go on: `exit`
does not return, and a `wait` that has to sleep scans the table again when it is woken. -/
def Sysno.call (files : Files) (p : Fin NPROC) : Sysno → KernelM (Option Int)
  | .fork => do return some (← xv6.fork p)
  | .exit => do xv6.exit p; return none
  | .wait => xv6.wait p
  | .pipe => do return some (← sys_pipe p)
  | .kill => do return some (← withArg p xv6.kill)
  | .exec => do return some (← sys_exec files p)
  | .dup => do return some (← sys_dup p)
  | .getpid => do return some ((← get).proc p).pid
  | .sbrk => do return some (← withArg p fun n => sys_sbrk p (toInt n))
  | .close => do return some (← withArg p fun n => sys_close p (toInt n))
  | .procpgdirinfo => do return some (← sys_procpgdirinfo p)
  | .shugebrk => do return some (← withArg p fun n => sys_shugebrk p (toInt n))

/-- The number of the call is in %eax, which gets its result. -/
def syscall (files : Files) (p : Fin NPROC) : KernelM Bool := do
  let s ← get
  match Sysno.lookup (s.proc p).tf.eax with
  | some num =>
    match ← num.call files p with
    | some r =>
      updateProc p fun proc => { proc with tf := { proc.tf with eax := addInt 0 r } }
      return true
    | none => return false
  | none =>
    updateProc p fun proc => { proc with tf := { proc.tf with eax := addInt 0 (-1) } }
    return true

/-- The check on the way back to user space. -/
def trap.leave (p : Fin NPROC) : KernelM Unit := do
  let s ← get
  if (s.proc p).killed then
    exit p

/-- The trap of a system call, with the registers that it saves. -/
def trap (files : Files) (p : Fin NPROC) (tf : TrapFrame) : KernelM Unit := do
  let s ← get
  if (s.proc p).killed then
    exit p
  else
    updateProc p fun proc => { proc with tf }
    if ← syscall files p then
      trap.leave p

/-- A trap that no handler is there for, from user space. -/
def trap.fault (p : Fin NPROC) : KernelM Unit := do
  updateProc p fun proc => { proc with killed := true }
  exit p

/-- What a process does while it has the processor: it stores a byte, makes a system call with
some contents of its registers, or runs into a fault. -/
inductive Event where
  | store (va : Nat) (v : UInt8)
  | syscall (tf : TrapFrame)
  | fault

/-- The scheduler switches to the memory of process `p`, which runs to its next event. A system call
runs to its end. -/
def Event.run (files : Files) (p : Fin NPROC) : Event → KernelM Unit
  | .store va v => do
    switchuvm p
    userStore va v
  | .syscall tf => do
    switchuvm p
    trap files p tf
  | .fault => do
    switchuvm p
    trap.fault p

end xv6
