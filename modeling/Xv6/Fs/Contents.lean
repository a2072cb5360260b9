import Xv6.Fs.Blocks

open bytes owner

namespace xv6.fs

/-- The slot for block number `bn` of a file. -/
def slotOf (bn : Nat) : Slot :=
  if h : bn < NDIRECT then .addr ⟨bn, Nat.lt_succ_of_lt h⟩
  else .entry ⟨(bn - NDIRECT) % NINDIRECT, Nat.mod_lt _ (by decide)⟩

theorem slotOf_inj {bn bn' : Nat} (h : bn < MAXFILE) (h' : bn' < MAXFILE) (heq : slotOf bn = slotOf bn') :
    bn = bn' := by
  have h : bn < 140 := h
  have h' : bn' < 140 := h'
  simp only [slotOf, NDIRECT, NINDIRECT] at heq
  split at heq <;> split at heq <;> simp at heq <;> omega

theorem slotOf_ne_ind (bn : Nat) : slotOf bn ≠ .addr (Fin.last NDIRECT) := by
  simp only [slotOf]
  split
  · rename_i h
    intro heq
    have hval := congrArg Fin.val (Slot.addr.inj heq)
    simp at hval
    omega
  · exact Slot.noConfusion

/-- The address of block number `bn` of a file, 0 if there is none. -/
def Dinode.block (m : Mem) (d : Dinode) (bn : Nat) : Nat := d.ref m (slotOf bn)

/-- The byte at offset `o` of a file. A block that is missing reads as zeros. -/
def Dinode.byte (m : Mem) (d : Dinode) (o : Nat) : UInt8 :=
  if MAXFILE * BSIZE ≤ o ∨ d.block m (o / BSIZE) = 0 then 0 else m (d.block m (o / BSIZE) * BSIZE + o % BSIZE)

/-- An inode as its users see it: without the addresses of its blocks, but with
their bytes. -/
@[ext] structure Node where
  type : Nat
  major : Nat
  minor : Nat
  nlink : Nat
  size : Nat
  data : Nat → UInt8

def Dinode.node (m : Mem) (d : Dinode) : Node where
  type := d.type
  major := d.major
  minor := d.minor
  nlink := d.nlink
  size := d.size
  data := fun o => if o < d.size then d.byte m o else 0

/-- The bytes from offset `off` on, at most `n`. -/
def Node.read (f : Node) (off n : Nat) : List UInt8 := slice f.data off (min n (f.size - off))

/-- Put the bytes `src` at offset `off`, growing the file if it ends before their end. -/
def Node.write (f : Node) (off : Nat) (src : List UInt8) : Node :=
  { f with size := max f.size (off + src.length), data := blit f.data off src }

/-- What has been written reads back. -/
theorem Node.read_write (f : Node) (off : Nat) (src : List UInt8) : (f.write off src).read off src.length = src := by
  have hcount : min src.length ((f.write off src).size - off) = src.length := by
    simp only [Node.write]
    omega
  rw [Node.read, hcount]
  exact slice_blit _ off src

variable {m m' : Mem}

theorem Untouched.block_eq {d : Dinode} (h : Untouched m m' d) (bn : Nat) : d.block m' bn = d.block m bn :=
  h.ref_eq (slotOf bn)

theorem Dinode.block_congr {d d' : Dinode} (h : d'.addrs = d.addrs) (bn : Nat) : d'.block m bn = d.block m bn :=
  congrFun (Dinode.ref_congr h) _

/-- The bytes of a block that is there. -/
theorem Dinode.byte_eq {d : Dinode} {bn o : Nat} (hbn : bn < MAXFILE) (hb : d.block m bn ≠ 0) (ho : o < BSIZE) :
    d.byte m (bn * BSIZE + o) = m (d.block m bn * BSIZE + o) := by
  have hdiv : (bn * BSIZE + o) / BSIZE = bn := by
    simp only [BSIZE] at ho ⊢
    omega
  have hmod : (bn * BSIZE + o) % BSIZE = o := by
    simp only [BSIZE] at ho ⊢
    omega
  rw [Dinode.byte, hdiv, hmod, if_neg]
  rintro (hlarge | h0)
  · simp only [MAXFILE, NDIRECT, NINDIRECT, BSIZE] at hlarge ho hbn
    omega
  · exact hb h0

/-- A byte of a file depends on the block that holds it only. -/
theorem Dinode.byte_congr {d d' : Dinode} {o : Nat} (hblock : d'.block m' (o / BSIZE) = d.block m (o / BSIZE))
    (hsame : d.block m (o / BSIZE) ≠ 0 → SameBlock m m' (d.block m (o / BSIZE))) : d'.byte m' o = d.byte m o := by
  simp only [Dinode.byte, hblock]
  split
  · rfl
  next hb => exact (hsame fun h0 => hb (.inr h0)).apply (Nat.mod_lt _ (by decide))

theorem Untouched.byte_eq {d : Dinode} (h : Untouched m m' d) (o : Nat) : d.byte m' o = d.byte m o :=
  Dinode.byte_congr (h.block_eq _) (h _)

/-- What an inode's users see depends on its own blocks only. -/
theorem Untouched.node_eq {d : Dinode} (h : Untouched m m' d) : d.node m' = d.node m := by
  simp only [Dinode.node, h.byte_eq]

end xv6.fs
