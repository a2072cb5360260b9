import Mathlib.Algebra.Group.Int.Defs
import Mathlib.Algebra.GroupWithZero.Nat
import Mathlib.Tactic.Common

namespace xv6

abbrev EXTMEM : Nat := 0x100000
abbrev PHYSTOP : Nat := 0xE000000
abbrev DEVSPACE : Nat := 0xFE000000
abbrev KERNBASE : Nat := 0x80000000
abbrev KERNLINK : Nat := KERNBASE + EXTMEM
abbrev HUGE_PAGE_START : Nat := 0x1E000000
abbrev HUGE_PAGE_END : Nat := 0x3E000000
abbrev HUGE_PAGE_SIZE : Nat := 0x400000
abbrev HUGE_VA_OFFSET : Nat := 0x1E000000

abbrev PGSIZE : Nat := 4096
abbrev NPDENTRIES : Nat := 1024
abbrev NPTENTRIES : Nat := 1024

abbrev PTE_P : Nat := 0x001
abbrev PTE_W : Nat := 0x002
abbrev PTE_U : Nat := 0x004
abbrev PTE_PS : Nat := 0x080

abbrev NPROC : Nat := 64
abbrev KSTACKSIZE : Nat := 4096
abbrev NCPU : Nat := 8
abbrev NOFILE : Nat := 16
abbrev NFILE : Nat := 100
abbrev MAXARG : Nat := 32

instance : NeZero NPROC := ⟨by decide⟩

/-- Start of the kernel's data section and first address after the kernel
image, both placed by the linker script (values of `kernel.sym`). -/
abbrev data : Nat := 0x80109000
abbrev kernelEnd : Nat := 0x80116630

/-- Truncation to an `uint`. -/
def u32 (n : Nat) : Nat := n % 2 ^ 32

/-- An `uint` plus a signed `int`, reduced modulo 2^32 as C converts it. -/
def addInt (a : Nat) (n : Int) : Nat := (((a : Int) + n) % 2 ^ 32).toNat

/-- An `uint` taken as an `int`. -/
def toInt (n : Nat) : Int := if n < 2 ^ 31 then n else (n : Int) - 2 ^ 32

def V2P (a : Nat) : Nat := (a + (2 ^ 32 - KERNBASE)) % 2 ^ 32
def P2V (a : Nat) : Nat := (a + KERNBASE) % 2 ^ 32

/-- Page directory and page table index of a virtual address. -/
def PDX (va : Nat) : Nat := va / 0x400000 % 1024
def PTX (va : Nat) : Nat := va / 4096 % 1024

def PGADDR (d t o : Nat) : Nat := u32 (d * 0x400000 + t * 4096 + o)

def PGROUNDUP (sz : Nat) : Nat := u32 (sz + PGSIZE - 1) / PGSIZE * PGSIZE
def PGROUNDDOWN (a : Nat) : Nat := a / PGSIZE * PGSIZE
def HUGEPGROUNDUP (sz : Nat) : Nat := u32 (sz + 0x400000 - 1) / 0x400000 * 0x400000
def HUGEPGROUNDDOWN (a : Nat) : Nat := a / 0x400000 * 0x400000

/-- Address and flag parts of a page table or directory entry. -/
def PTE_ADDR (e : Nat) : Nat := e / 4096 * 4096
def PTE_FLAGS (e : Nat) : Nat := e % 4096

/-- The test `e & flag` for a single-bit flag. -/
def hasFlag (e flag : Nat) : Bool := e / flag % 2 == 1

end xv6
