import Xv6.Lib.Ring
import Xv6.Lib.Run

open ring

namespace xv6

abbrev NBUF : Nat := 30

namespace bio

/-- The device and the number of a block. -/
abbrev Key : Type := UInt32 × UInt32

/-- `struct buf`, its links apart. `lock` is the holder of the sleep-lock. -/
structure Buf (C D : Type) where
  valid : Bool
  dirty : Bool
  dev : UInt32
  blockno : UInt32
  lock : Option C
  refcnt : Nat
  data : D

/-- Where a caller stands between its call of `bread` for block `k` and the end
of `brelse`. A process that works on several buffers at once is several callers. -/
inductive Pc where
  | user
  | acquiresleep (k : Key) (b : Fin NBUF)
  | locked (k : Key) (b : Fin NBUF)
  | reading (k : Key) (b : Fin NBUF)
  | held (k : Key) (b : Fin NBUF)
  | writing (k : Key) (b : Fin NBUF)
  | released (k : Key) (b : Fin NBUF)
  deriving DecidableEq

/-- The buffer cache, the disks and the callers. `given` records the last data
given to `bwrite` or marked with `log_write` for each block. -/
structure Sys (C D : Type) where
  links : Links (Fin NBUF)
  buf : Fin NBUF → Buf C D
  disk : Key → D
  pc : C → Pc
  given : Key → Option D

variable {C D : Type}

def Buf.key (b : Buf C D) : Key := (b.dev, b.blockno)

/-- The cache after `binit`: the buffers are zero and pushed on the list one by one. -/
def binit (zero : D) (disk : Key → D) : Sys C D where
  links := (List.finRange NBUF).foldl Links.push Links.empty
  buf _ := { valid := false, dirty := false, dev := 0, blockno := 0, lock := none, refcnt := 0, data := zero }
  disk := disk
  pc _ := .user
  given _ := none

def Sys.update (s : Sys C D) (b : Fin NBUF) (f : Buf C D → Buf C D) : Sys C D :=
  { s with buf := Function.update s.buf b (f (s.buf b)) }

def Sys.give (s : Sys C D) (k : Key) (d : D) : Sys C D := { s with given := Function.update s.given k (some d) }

/-- `bget` up to the sleep-lock: the buffer that holds the block, from the front of
the list, or else an unused one, from the back. Without one the kernel panics. -/
def bget (s : Sys C D) (k : Key) : Option (Fin NBUF × Sys C D) :=
  match search s.links.next (fun b => decide ((s.buf b).key = k)) NBUF (s.links.next none) with
  | some b => some (b, s.update b fun buf => { buf with refcnt := buf.refcnt + 1 })
  | none =>
    match search s.links.prev (fun b => decide ((s.buf b).refcnt = 0) && !(s.buf b).dirty) NBUF (s.links.prev none) with
    | some b =>
      some (b, s.update b fun buf =>
        { buf with dev := k.1, blockno := k.2, valid := false, dirty := false, refcnt := 1 })
    | none => none

/-- The disk has done what `iderw` asked for: a dirty buffer is written, another one is read. -/
def iderw (s : Sys C D) (b : Fin NBUF) : Sys C D :=
  if (s.buf b).dirty then
    { s with disk := Function.update s.disk (s.buf b).key (s.buf b).data }.update b fun buf =>
      { buf with valid := true, dirty := false }
  else
    s.update b fun buf => { buf with data := s.disk buf.key, valid := true, dirty := false }

/-- The part of `brelse` under the lock of the cache. -/
def brelse (s : Sys C D) (b : Fin NBUF) : Sys C D :=
  let s := s.update b fun buf => { buf with refcnt := buf.refcnt - 1 }
  if (s.buf b).refcnt = 0 then { s with links := (s.links.unlink b).push b } else s

/-- What a caller does next. -/
inductive Action (C D : Type) where
  | bread (c : C) (k : Key)
  | acquiresleep (c : C)
  | test (c : C)
  | ideintr (c : C)
  | bwrite (c : C) (d : D)
  | log_write (c : C) (d : D)
  | releasesleep (c : C)
  | brelse (c : C)

variable [DecidableEq C]

def Sys.goto (s : Sys C D) (c : C) (pc : Pc) : Sys C D := { s with pc := Function.update s.pc c pc }

/-- One action, if it is possible. -/
def exec (s : Sys C D) : Action C D → Option (Sys C D)
  | .bread c k =>
    match s.pc c, bget s k with
    | .user, some (b, s) => some (s.goto c (.acquiresleep k b))
    | _, _ => none
  | .acquiresleep c =>
    match s.pc c with
    | .acquiresleep k b =>
      if (s.buf b).lock = none then
        some ((s.update b fun buf => { buf with lock := some c }).goto c (.locked k b))
      else
        none
    | _ => none
  | .test c =>
    match s.pc c with
    | .locked k b => some (s.goto c (if (s.buf b).valid then .held k b else .reading k b))
    | _ => none
  | .ideintr c =>
    match s.pc c with
    | .reading k b | .writing k b => some ((iderw s b).goto c (.held k b))
    | _ => none
  | .bwrite c d =>
    match s.pc c with
    | .held k b =>
      some (((s.update b fun buf => { buf with data := d, dirty := true }).give k d).goto c (.writing k b))
    | _ => none
  | .log_write c d =>
    match s.pc c with
    | .held k b => some ((s.update b fun buf => { buf with data := d, dirty := true }).give k d)
    | _ => none
  | .releasesleep c =>
    match s.pc c with
    | .held k b => some ((s.update b fun buf => { buf with lock := none }).goto c (.released k b))
    | _ => none
  | .brelse c =>
    match s.pc c with
    | .released _ b => some ((brelse s b).goto c .user)
    | _ => none

def Step (s s' : Sys C D) : Prop := ∃ a, exec s a = some s'

/-- The state after `binit`, whatever the disks hold. -/
def Started (s : Sys C D) : Prop := ∃ zero disk, s = binit zero disk

end bio

end xv6
