import Mathlib.Algebra.Group.Int.Defs
import Mathlib.Algebra.GroupWithZero.Nat
import Mathlib.Data.List.GetD
import Mathlib.Tactic.Common

namespace bytes

/-- A byte-addressed memory. -/
abbrev Mem := Nat → UInt8

/-- The little-endian 32-bit word at an address. -/
def load32 (m : Mem) (a : Nat) : Nat :=
  (m a).toNat + 2 ^ 8 * (m (a + 1)).toNat + 2 ^ 16 * (m (a + 2)).toNat + 2 ^ 24 * (m (a + 3)).toNat

/-- The little-endian 16-bit word at an address. -/
def load16 (m : Mem) (a : Nat) : Nat := (m a).toNat + 2 ^ 8 * (m (a + 1)).toNat

/-- Overwrite the four bytes of the word at an address. -/
def store32 (m : Mem) (a v : Nat) : Mem := fun b =>
  if a ≤ b ∧ b < a + 4 then UInt8.ofNat (v / 2 ^ (8 * (b - a))) else m b

/-- Overwrite one byte. -/
def store8 (m : Mem) (a : Nat) (v : UInt8) : Mem := fun b => if b = a then v else m b

/-- Overwrite `n` consecutive 32-bit words. -/
def storeWords (m : Mem) (a n : Nat) (w : Nat → Nat) : Mem := fun b =>
  if a ≤ b ∧ b < a + 4 * n then UInt8.ofNat (w ((b - a) / 4) / 2 ^ (8 * ((b - a) % 4))) else m b

/-- Fill `n` bytes with one value. -/
def fill (m : Mem) (a : Nat) (c : UInt8) (n : Nat) : Mem := fun b =>
  if a ≤ b ∧ b < a + n then c else m b

/-- Overwrite consecutive bytes by the entries of a list. -/
def blit (m : Mem) (a : Nat) (data : List UInt8) : Mem := fun b =>
  if a ≤ b ∧ b < a + data.length then data.getD (b - a) 0 else m b

/-- The `n` bytes stored from an address on. -/
def slice (m : Mem) (a n : Nat) : List UInt8 := (List.range n).map fun i => m (a + i)

/-- Two memories hold the same `n` bytes from an address on. -/
def SameOn (m m' : Mem) (a n : Nat) : Prop := ∀ b, a ≤ b → b < a + n → m' b = m b

theorem SameOn.refl (m : Mem) (a n : Nat) : SameOn m m a n := fun _ _ _ => rfl

theorem SameOn.trans {m m' m'' : Mem} {a n : Nat} (h : SameOn m m' a n) (h' : SameOn m' m'' a n) :
    SameOn m m'' a n := fun b hlo hhi => (h' b hlo hhi).trans (h b hlo hhi)

theorem SameOn.mono {m m' : Mem} {a n b k : Nat} (h : SameOn m m' a n)
    (hlo : a ≤ b) (hhi : b + k ≤ a + n) : SameOn m m' b k :=
  fun c hc hc' => h c (by omega) (by omega)

theorem load32_lt (m : Mem) (a : Nat) : load32 m a < 2 ^ 32 := by
  have h0 := (m a).toNat_lt
  have h1 := (m (a + 1)).toNat_lt
  have h2 := (m (a + 2)).toNat_lt
  have h3 := (m (a + 3)).toNat_lt
  simp only [load32]
  omega

theorem SameOn.load32_eq {m m' : Mem} {a n b : Nat} (h : SameOn m m' a n)
    (hlo : a ≤ b) (hhi : b + 4 ≤ a + n) : load32 m' b = load32 m b := by
  simp only [load32, h b hlo (by omega), h (b + 1) (by omega) (by omega),
    h (b + 2) (by omega) (by omega), h (b + 3) (by omega) (by omega)]

@[simp] theorem load32_store32_same (m : Mem) (a : Nat) {v : Nat} (hv : v < 2 ^ 32) :
    load32 (store32 m a v) a = v := by
  simp only [load32, store32]
  simp
  omega

theorem store32_sameOn (m : Mem) {a v b n : Nat} (h : a + 4 ≤ b ∨ b + n ≤ a) :
    SameOn m (store32 m a v) b n := by
  intro c hlo hhi
  simp only [store32]
  rw [if_neg (by omega)]

theorem load32_store32_ne (m : Mem) {a b v : Nat} (h : a + 4 ≤ b ∨ b + 4 ≤ a) :
    load32 (store32 m a v) b = load32 m b :=
  (store32_sameOn m (v := v) (n := 4) h).load32_eq (Nat.le_refl _) (Nat.le_refl _)

theorem fill_sameOn (m : Mem) {a n b k : Nat} {c : UInt8} (h : a + n ≤ b ∨ b + k ≤ a) :
    SameOn m (fill m a c n) b k := by
  intro d hlo hhi
  simp only [fill]
  rw [if_neg (by omega)]

theorem load32_zero {m : Mem} {a : Nat} (h : ∀ b, a ≤ b → b < a + 4 → m b = 0) : load32 m a = 0 := by
  simp [load32, h a (by omega) (by omega), h (a + 1) (by omega) (by omega), h (a + 2) (by omega) (by omega),
    h (a + 3) (by omega) (by omega)]

theorem load32_fill_zero (m : Mem) {a n b : Nat} (hlo : a ≤ b) (hhi : b + 4 ≤ a + n) :
    load32 (fill m a 0 n) b = 0 :=
  load32_zero fun _ _ _ => if_pos (by omega)

theorem blit_sameOn (m : Mem) {a b n : Nat} {data : List UInt8}
    (h : a + data.length ≤ b ∨ b + n ≤ a) : SameOn m (blit m a data) b n := by
  intro c hlo hhi
  simp only [blit]
  rw [if_neg (by omega)]

@[simp] theorem blit_nil (m : Mem) (a : Nat) : blit m a [] = m := by
  funext b
  simp only [blit, List.length_nil]
  rw [if_neg (by omega)]

/-- Two pieces that follow each other are written as one. -/
theorem blit_append (m : Mem) (a : Nat) (xs ys : List UInt8) :
    blit (blit m a xs) (a + xs.length) ys = blit m a (xs ++ ys) := by
  funext b
  simp only [blit, List.length_append]
  by_cases hy : a + xs.length ≤ b ∧ b < a + xs.length + ys.length
  · have hidx : xs.length ≤ b - a := by omega
    rw [if_pos hy, if_pos (by omega), List.getD_append_right _ _ _ _ hidx]
    congr 1
    omega
  · rw [if_neg hy]
    by_cases hx : a ≤ b ∧ b < a + xs.length
    · rw [if_pos hx, if_pos (by omega), List.getD_append _ _ _ _ (by omega)]
    · rw [if_neg hx, if_neg (by omega)]

@[simp] theorem slice_length (m : Mem) (a n : Nat) : (slice m a n).length = n := by simp [slice]

theorem blit_slice_apply (m m' : Mem) {a b n c : Nat} (hlo : a ≤ c) (hhi : c < a + n) :
    blit m a (slice m' b n) c = m' (b + (c - a)) := by
  simp only [blit, slice_length]
  rw [if_pos ⟨hlo, hhi⟩]
  have hc : c - a < n := by omega
  simp [slice, hc]

theorem slice_append (m : Mem) (a n k : Nat) : slice m a (n + k) = slice m a n ++ slice m (a + n) k := by
  simp only [slice, List.range_add, List.map_append, List.map_map, Function.comp_def, Nat.add_assoc]

theorem slice_congr {m m' : Mem} {a b n : Nat} (h : ∀ k < n, m (a + k) = m' (b + k)) : slice m a n = slice m' b n :=
  List.map_congr_left fun k hk => h k (List.mem_range.1 hk)

/-- What has been written reads back. -/
theorem slice_blit (m : Mem) (a : Nat) (xs : List UInt8) : slice (blit m a xs) a xs.length = xs := by
  refine List.ext_getElem (by simp) fun k hk hk' => ?_
  simp [slice, blit, hk']

theorem store8_sameOn (m : Mem) {a b n : Nat} {v : UInt8} (h : a < b ∨ b + n ≤ a) :
    SameOn m (store8 m a v) b n := by
  intro c hlo hhi
  simp only [store8]
  rw [if_neg (by omega)]

theorem load16_lt (m : Mem) (a : Nat) : load16 m a < 2 ^ 16 := by
  have h0 := (m a).toNat_lt
  have h1 := (m (a + 1)).toNat_lt
  simp only [load16]
  omega

theorem SameOn.load16_eq {m m' : Mem} {a n b : Nat} (h : SameOn m m' a n)
    (hlo : a ≤ b) (hhi : b + 2 ≤ a + n) : load16 m' b = load16 m b := by
  simp only [load16, h b hlo (by omega), h (b + 1) (by omega) (by omega)]

theorem storeWords_sameOn (m : Mem) {a n b k : Nat} {w : Nat → Nat} (h : a + 4 * n ≤ b ∨ b + k ≤ a) :
    SameOn m (storeWords m a n w) b k := by
  intro c hlo hhi
  simp only [storeWords]
  rw [if_neg (by omega)]

theorem storeWords_apply (m : Mem) (a : Nat) {n k j : Nat} (w : Nat → Nat) (hk : k < n) (hj : j < 4) :
    storeWords m a n w (a + 4 * k + j) = UInt8.ofNat (w k / 2 ^ (8 * j)) := by
  simp only [storeWords]
  rw [if_pos (by omega), show (a + 4 * k + j - a) / 4 = k by omega, show (a + 4 * k + j - a) % 4 = j by omega]

theorem load32_storeWords (m : Mem) {a b n k : Nat} {w : Nat → Nat} (hk : k < n) (hb : b = a + 4 * k)
    (hw : w k < 2 ^ 32) : load32 (storeWords m a n w) b = w k := by
  have h0 := storeWords_apply m a w hk (j := 0) (by omega)
  have h1 := storeWords_apply m a w hk (j := 1) (by omega)
  have h2 := storeWords_apply m a w hk (j := 2) (by omega)
  have h3 := storeWords_apply m a w hk (j := 3) (by omega)
  rw [Nat.add_zero] at h0
  subst hb
  simp only [load32, h0, h1, h2, h3, UInt8.toNat_ofNat']
  omega

theorem load16_storeWords_lower (m : Mem) {a b n k : Nat} {w : Nat → Nat} (hk : k < n) (hb : b = a + 4 * k) :
    load16 (storeWords m a n w) b = w k % 2 ^ 16 := by
  have h0 := storeWords_apply m a w hk (j := 0) (by omega)
  have h1 := storeWords_apply m a w hk (j := 1) (by omega)
  rw [Nat.add_zero] at h0
  subst hb
  simp only [load16, h0, h1, UInt8.toNat_ofNat']
  omega

theorem load16_storeWords_upper (m : Mem) {a b n k : Nat} {w : Nat → Nat} (hk : k < n)
    (hb : b = a + 4 * k + 2) : load16 (storeWords m a n w) b = w k / 2 ^ 16 % 2 ^ 16 := by
  have h2 := storeWords_apply m a w hk (j := 2) (by omega)
  have h3 : storeWords m a n w (a + 4 * k + 2 + 1) = _ := storeWords_apply m a w hk (j := 3) (by omega)
  subst hb
  simp only [load16, h2, h3, UInt8.toNat_ofNat']
  omega

end bytes
