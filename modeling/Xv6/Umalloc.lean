import Xv6.Layout
import Xv6.Lib.Bytes

open bytes Function

namespace xv6.umalloc

/-- The two pools of the allocator, kept in the variables `base`, `freep` and
`hugebase`, `hugefreep`. -/
inductive Pool where
  | base
  | huge
  deriving DecidableEq

abbrev VMALLOC_SIZE_BASE : Nat := 0
abbrev VMALLOC_SIZE_HUGE : Nat := 1

/-- `sizeof(Header)`. -/
abbrev headerSize : Nat := 8

/-- The fields `s.ptr` and `s.size` of the header at an address. -/
def ptr (m : Mem) (p : Nat) : Nat := load32 m p
def size (m : Mem) (p : Nat) : Nat := load32 m (p + 4)
def setPtr (m : Mem) (p v : Nat) : Mem := store32 m p v
def setSize (m : Mem) (p v : Nat) : Mem := store32 m (p + 4) v

/-- `p + n` for a header pointer `p`. -/
def addHeaders (p n : Nat) : Nat := u32 (p + headerSize * n)

/-- How a program is laid out: the addresses of `base` and `hugebase` and the end
of the program, where its heap starts. -/
structure Image where
  header : Pool → Nat
  start : Nat
  header_pos : ∀ pool, 0 < header pool
  header_le : ∀ pool, header pool + headerSize ≤ start
  apart : header .base + headerSize ≤ header .huge ∨ header .huge + headerSize ≤ header .base
  aligned : start % headerSize = 0

/-- A process that uses the allocator: its memory, the variables `freep` and
`hugefreep`, and what the kernel keeps for it, namely `sz`, `hugesz` and `GLOBAL_THP`.
`grants n` says whether the kernel has the memory for the `n`-th request; `requests`
lists the arguments of the calls of `sbrk` and `shugebrk` so far, latest first. -/
structure Heap where
  image : Image
  mem : Mem
  freep : Pool → Nat
  sz : Nat
  hugesz : Nat
  thp : Int
  grants : Nat → Bool
  requests : List (Pool × Int)

/-- The header `base` or `hugebase`. -/
def Heap.header (s : Heap) (pool : Pool) : Nat := s.image.header pool

/-- Where the memory of a pool starts and ends. -/
def Heap.start (s : Heap) : Pool → Nat
  | .base => s.image.start
  | .huge => HUGE_VA_OFFSET

def Heap.brk (s : Heap) : Pool → Nat
  | .base => s.sz
  | .huge => HUGE_VA_OFFSET + s.hugesz

/-- `(char*)-1`. -/
abbrev failed : Nat := 0xFFFFFFFF

/-- What `growproc` makes of `sz`. An increase needs frames below `PHYSTOP`. -/
def growproc (granted : Bool) (sz : Nat) (n : Int) : Option Nat :=
  if n > 0 then
    if granted ∧ (sz : Int) + n ≤ PHYSTOP then some (addInt sz n) else none
  else if n < 0 then
    let newsz := if addInt sz n ≥ sz then sz else addInt sz n
    if newsz = 0 then none else some newsz
  else
    some sz

/-- What `growhugeproc` makes of `hugesz`. An increase needs frames of the huge region. -/
def growhugeproc (granted : Bool) (hugesz : Nat) (n : Int) : Option Nat :=
  if n > 0 then
    if granted ∧ (hugesz : Int) + n ≤ (HUGE_PAGE_END - HUGE_PAGE_START : Nat) then some (addInt hugesz n) else none
  else if n < 0 then
    let newsz := if addInt hugesz n ≥ hugesz then hugesz else addInt hugesz n
    if newsz = 0 then none else some (addInt newsz (-HUGE_VA_OFFSET))
  else
    some (addInt hugesz (-HUGE_VA_OFFSET))

/-- The system calls `sbrk` and `shugebrk`. -/
def sbrk (pool : Pool) (n : Int) (s : Heap) : Nat × Heap :=
  let granted := s.grants s.requests.length
  let s' := { s with requests := (pool, n) :: s.requests }
  match pool with
  | .base =>
    match growproc granted s.sz n with
    | some sz => (s.sz, { s' with sz := sz })
    | none => (failed, s')
  | .huge =>
    match growhugeproc granted s.hugesz n with
    | some hugesz => (u32 (s.hugesz + HUGE_VA_OFFSET), { s' with hugesz := hugesz })
    | none => (failed, s')

/-- The loop of `vfree` that looks for the place of `bp`; `none` if the fuel runs out. -/
def vfree.find (m : Mem) (bp : Nat) : Nat → Nat → Option Nat
  | 0, _ => none
  | fuel + 1, p =>
    if bp > p ∧ bp < ptr m p then some p
    else if p ≥ ptr m p ∧ (bp > p ∨ bp < ptr m p) then some p
    else vfree.find m bp fuel (ptr m p)

/-- `vfree` joins `bp` to the block above it, or links it to that block. -/
def vfree.joinUpper (m : Mem) (bp p : Nat) : Mem :=
  if addHeaders bp (size m bp) = ptr m p then
    let m := setSize m bp (u32 (size m bp + size m (ptr m p)))
    setPtr m bp (ptr m (ptr m p))
  else
    setPtr m bp (ptr m p)

/-- `vfree` joins `bp` to the block `p` below it, or links that block to it. -/
def vfree.joinLower (m : Mem) (bp p : Nat) : Mem :=
  if addHeaders p (size m p) = bp then
    let m := setSize m p (u32 (size m p + size m bp))
    setPtr m p (ptr m bp)
  else
    setPtr m p bp

/-- Put a block on the free list of its pool. -/
def vfree (fuel : Nat) (s : Heap) (ap : Nat) : Option Heap := do
  let pool := if ap ≥ HUGE_PAGE_START then Pool.huge else Pool.base
  let bp := u32 (ap + (2 ^ 32 - headerSize))
  let p ← vfree.find s.mem bp fuel (s.freep pool)
  return { s with
    mem := vfree.joinLower (vfree.joinUpper s.mem bp p) bp p
    freep := update s.freep pool p }

def free (fuel : Nat) (s : Heap) (ap : Nat) : Option Heap := vfree fuel s ap

/-- The least number of units that `morecore` and `morehugecore` ask for. -/
def leastUnits : Pool → Nat
  | .base => 4096
  | .huge => HUGE_PAGE_SIZE / headerSize

/-- The number of units that `morecore` and `morehugecore` ask for. -/
def moreUnits (pool : Pool) (nu : Nat) : Nat := if nu < leastUnits pool then leastUnits pool else nu

/-- The argument that `morecore` and `morehugecore` pass to `sbrk` and `shugebrk`. -/
def request (pool : Pool) (nu : Nat) : Int := toInt (u32 (moreUnits pool nu * headerSize))

/-- `morecore` and `morehugecore`: ask for memory and free it. -/
def morecore (pool : Pool) (fuel nu : Nat) (s : Heap) : Option (Nat × Heap) :=
  match sbrk pool (request pool nu) s with
  | (p, s) =>
    if p = failed then
      some (0, s)
    else do
      let s ← vfree fuel { s with mem := setSize s.mem p (moreUnits pool nu) } (addHeaders p 1)
      return (s.freep pool, s)

/-- The loop of `malloc` and of `vmalloc`. -/
def malloc.search (pool : Pool) (nunits : Nat) : Nat → Nat → Nat → Heap → Option (Nat × Heap)
  | 0, _, _, _ => none
  | fuel + 1, prevp, p, s =>
    if size s.mem p ≥ nunits then
      if size s.mem p = nunits then
        some (addHeaders p 1, { s with mem := setPtr s.mem prevp (ptr s.mem p), freep := update s.freep pool prevp })
      else
        let m := setSize s.mem p (size s.mem p - nunits)
        let q := addHeaders p (size m p)
        some (addHeaders q 1, { s with mem := setSize m q nunits, freep := update s.freep pool prevp })
    else if p = s.freep pool then do
      let (q, s) ← morecore pool fuel nunits s
      if q = 0 then some (0, s) else malloc.search pool nunits fuel q (ptr s.mem q) s
    else
      malloc.search pool nunits fuel p (ptr s.mem p) s

/-- The number of units that `malloc` and `vmalloc` compute for a request. -/
def units (nbytes : Nat) : Nat := u32 (nbytes + headerSize - 1) / headerSize + 1

/-- The list of a pool is set up on its first use. -/
def malloc.prepare (pool : Pool) (s : Heap) : Heap :=
  if s.freep pool = 0 then
    { s with
      mem := setSize (setPtr s.mem (s.header pool) (s.header pool)) (s.header pool) 0
      freep := update s.freep pool (s.header pool) }
  else
    s

/-- The common part of `malloc` and `vmalloc`. -/
def malloc.body (pool : Pool) (fuel nbytes : Nat) (s : Heap) : Option (Nat × Heap) :=
  let s := malloc.prepare pool s
  malloc.search pool (units nbytes) fuel (s.freep pool) (ptr s.mem (s.freep pool)) s

/-- Large requests go to `vmalloc(nbytes, VMALLOC_SIZE_HUGE)` while transparent huge
pages are on. -/
def malloc (fuel nbytes : Nat) (s : Heap) : Option (Nat × Heap) :=
  if nbytes > 1000000 ∧ s.thp ≠ 0 then
    malloc.body .huge fuel nbytes s
  else
    malloc.body .base fuel nbytes s

def vmalloc (fuel nbytes flag : Nat) (s : Heap) : Option (Nat × Heap) :=
  if flag = VMALLOC_SIZE_BASE then
    malloc fuel nbytes s
  else
    malloc.body .huge fuel nbytes s

/-- The requests that a program can make. -/
inductive Call where
  | malloc (nbytes : Nat)
  | vmalloc (nbytes flag : Nat)

def Call.nbytes : Call → Nat
  | .malloc nbytes => nbytes
  | .vmalloc nbytes _ => nbytes

def Call.run (fuel : Nat) (s : Heap) : Call → Option (Nat × Heap)
  | .malloc nbytes => umalloc.malloc fuel nbytes s
  | .vmalloc nbytes flag => umalloc.vmalloc fuel nbytes flag s

/-- The call returns `r` and leaves `s'`, given enough fuel. -/
def Call.Returns (c : Call) (s : Heap) (r : Nat) (s' : Heap) : Prop :=
  ∃ n, ∀ fuel, n ≤ fuel → c.run fuel s = some (r, s')

/-- The pool that a request is served from. -/
def Call.pool (s : Heap) : Call → Pool
  | .malloc nbytes => if nbytes > 1000000 ∧ s.thp ≠ 0 then .huge else .base
  | .vmalloc nbytes flag =>
    if flag = VMALLOC_SIZE_BASE then if nbytes > 1000000 ∧ s.thp ≠ 0 then .huge else .base else .huge

/-- A program that has just been started. -/
def Heap.initial (image : Image) (mem : Mem) (thp : Int) (grants : Nat → Bool) : Heap where
  image := image
  mem := mem
  freep _ := 0
  sz := image.start
  hugesz := 0
  thp := thp
  grants := grants
  requests := []

end xv6.umalloc
