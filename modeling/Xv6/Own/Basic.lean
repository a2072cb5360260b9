import Xv6.Machine
import Xv6.Lib.Chain
import Mathlib.Data.Finset.Card

open bytes chain

namespace xv6

/-- Frames handed to `kalloc`: the pages between the kernel image and `PHYSTOP`. -/
def IsFrame (f : Nat) : Prop := f % 4096 = 0 ∧ 0x117000 ≤ f ∧ f < 0xE000000

/-- Frames handed to `khugealloc`. -/
def IsHuge (f : Nat) : Prop := f % 0x400000 = 0 ∧ 0x1E000000 ≤ f ∧ f < 0x3E000000

/-- Who holds a page directory. One that is being built or torn down is `temp`. -/
inductive DirOwner where
  | kernel
  | proc (p : Fin NPROC)
  | temp
  deriving DecidableEq

/-- The one place a base frame is in. A frame between `kalloc` and its use, or
between its last use and `kfree`, is `temp`. -/
inductive Role where
  | free
  | temp
  | dir (o : DirOwner)
  | table (d i : Nat)
  | page (d i j : Nat)
  | kstack (p : Fin NPROC)
  | pipe
  | stack
  deriving DecidableEq

/-- The one place a huge frame is in. -/
inductive HugeRole where
  | free
  | temp
  | page (d i : Nat)
  deriving DecidableEq

/-- The assignment of frames to places that goes with a machine state. -/
structure Ghost where
  own : Nat → Role
  hown : Nat → HugeRole
  free : List Nat
  hfree : List Nat

/-- Entry `i` of the directory or table in frame `f`. -/
def entry (m : Mem) (f i : Nat) : Nat := load32 m (f + 4 * i)

/-- A directory slot is empty, refers to a page table of this directory, maps a
huge frame of this directory or is one of the kernel's own 4MB mappings. -/
def PdeOK (m : Mem) (g : Ghost) (d i : Nat) : Prop :=
  entry m d i = 0 ∨
  (∃ t, IsFrame t ∧ g.own t = .table d i ∧ entry m d i = t + 7) ∨
  (i < 512 ∧ ∃ f, IsHuge f ∧ g.hown f = .page d i ∧ entry m d i = f + 0x87) ∨
  (632 ≤ i ∧ i < 760 ∧ entry m d i = (i - 512) * 0x400000 + 0x83)

/-- A slot of a user page table is empty or maps a frame of this directory. -/
def PteOK (m : Mem) (g : Ghost) (t d i j : Nat) : Prop :=
  entry m t j = 0 ∨
  ∃ f fl, IsFrame f ∧ g.own f = .page d i j ∧ fl < 4096 ∧ fl % 2 = 1 ∧ entry m t j = f + fl

/-- Memory and the assignment of frames agree. -/
structure Sys (s : Machine) (g : Ghost) : Prop where
  chain : Chain (load32 s.mem) P2V s.freelist g.free
  nodup : g.free.Nodup
  mem_free : ∀ f, f ∈ g.free ↔ IsFrame f ∧ g.own f = .free
  hchain : Chain (load32 s.mem) P2V s.freehugelist g.hfree
  hnodup : g.hfree.Nodup
  mem_hfree : ∀ f, f ∈ g.hfree ↔ IsHuge f ∧ g.hown f = .free
  pde : ∀ d o, IsFrame d → g.own d = .dir o → ∀ i < 1024, PdeOK s.mem g d i
  pte : ∀ t d i, IsFrame t → g.own t = .table d i → i < 512 → ∀ j < 1024, PteOK s.mem g t d i j
  table_up : ∀ t d i, IsFrame t → g.own t = .table d i →
    IsFrame d ∧ i < 1024 ∧ entry s.mem d i = t + 7 ∧ ∃ o, g.own d = .dir o
  page_up : ∀ f d i j, IsFrame f → g.own f = .page d i j →
    i < 512 ∧ j < 1024 ∧ ∃ t fl, IsFrame t ∧ g.own t = .table d i ∧ fl < 4096 ∧ fl % 2 = 1 ∧
      entry s.mem t j = f + fl
  huge_up : ∀ f d i, IsHuge f → g.hown f = .page d i →
    IsFrame d ∧ i < 512 ∧ entry s.mem d i = f + 0x87 ∧ ∃ o, g.own d = .dir o

theorem IsFrame.lt {f : Nat} (h : IsFrame f) : f + 4096 ≤ 0xE000000 := by
  obtain ⟨halign, _, hhi⟩ := h
  omega

theorem IsHuge.lt {f : Nat} (h : IsHuge f) : f + 0x400000 ≤ 0x3E000000 := by
  obtain ⟨halign, _, hhi⟩ := h
  omega

/-- Two different frames share no byte. -/
theorem IsFrame.apart {f f' : Nat} (h : IsFrame f) (h' : IsFrame f') (hne : f ≠ f') :
    f + 4096 ≤ f' ∨ f' + 4096 ≤ f := by
  obtain ⟨halign, _, _⟩ := h
  obtain ⟨halign', _, _⟩ := h'
  omega

theorem IsHuge.apart {f f' : Nat} (h : IsHuge f) (h' : IsHuge f') (hne : f ≠ f') :
    f + 0x400000 ≤ f' ∨ f' + 0x400000 ≤ f := by
  obtain ⟨halign, _, _⟩ := h
  obtain ⟨halign', _, _⟩ := h'
  omega

theorem IsFrame.apart_huge {f h : Nat} (hf : IsFrame f) (hh : IsHuge h) : f + 4096 ≤ h := by
  have hlt := hf.lt
  obtain ⟨_, hlo, _⟩ := hh
  omega

theorem entry_eq_of_sameOn {m m' : Mem} {f i : Nat} (h : SameOn m m' f 4096) (hi : i < 1024) :
    entry m' f i = entry m f i := h.load32_eq (by omega) (by omega)

theorem entry_lt (m : Mem) (f i : Nat) : entry m f i < 2 ^ 32 := load32_lt m _

end xv6
