import Xv6.Machine

open bytes

namespace xv6

/-- `while(n-- > 0) *d++ = *s++;` -/
def copyUp : Nat → Nat → Nat → Mem → Mem
  | 0, _, _, m => m
  | n + 1, d, s, m => copyUp n (u32 (d + 1)) (u32 (s + 1)) (store8 m d (m s))

/-- `while(n-- > 0) *--d = *--s;` -/
def copyDown : Nat → Nat → Nat → Mem → Mem
  | 0, _, _, m => m
  | n + 1, d, s, m =>
    let d := u32 (d + (2 ^ 32 - 1))
    let s := u32 (s + (2 ^ 32 - 1))
    copyDown n d s (store8 m d (m s))

/-- The kernel's `memmove`: the pointer it returns and the memory it leaves. -/
def string.memmove (dst src n : Nat) (m : Mem) : Nat × Mem :=
  if src < dst ∧ dst < u32 (src + n) then (dst, copyDown n (u32 (dst + n)) (u32 (src + n)) m)
  else (dst, copyUp n dst src m)

/-- The `memmove` of the user library, whose `n` is an `int`. -/
def ulib.memmove (vdst vsrc : Nat) (n : Int) (m : Mem) : Nat × Mem := (vdst, copyUp n.toNat vdst vsrc m)

/-- From `m` to `m'`, the `n` bytes at `src` have moved to `dst`. -/
structure Moved (dst src n : Nat) (m m' : Mem) : Prop where
  copied : ∀ i < n, m' (dst + i) = m (src + i)
  rest : ∀ a, a < dst ∨ dst + n ≤ a → m' a = m a

theorem Moved.eq_blit {dst src n : Nat} {m m' : Mem} (h : Moved dst src n m m') :
    m' = blit m dst (slice m src n) := by
  funext a
  by_cases ha : dst ≤ a ∧ a < dst + n
  · obtain ⟨i, rfl⟩ := Nat.exists_eq_add_of_le ha.1
    rw [blit_slice_apply m m ha.1 ha.2, h.copied i (by omega), Nat.add_sub_cancel_left]
  · have hrest : SameOn m (blit m dst (slice m src n)) a 1 := blit_sameOn m (by rw [slice_length]; omega)
    rw [h.rest a (by omega), hrest a (Nat.le_refl a) (Nat.lt_succ_self a)]

section
variable {n d s i a : Nat}

/-- One round of the upward loop. Only the pointers that are not used again may have wrapped around. -/
theorem copyUp_succ (hd : d + (n + 1) ≤ 2 ^ 32) (hs : s + (n + 1) ≤ 2 ^ 32) (m : Mem) :
    copyUp (n + 1) d s m = copyUp n (d + 1) (s + 1) (store8 m d (m s)) := by
  cases n with
  | zero => rfl
  | succ n =>
    have hd' : u32 (d + 1) = d + 1 := Nat.mod_eq_of_lt (by omega)
    have hs' : u32 (s + 1) = s + 1 := Nat.mod_eq_of_lt (by omega)
    rw [copyUp, hd', hs']

theorem copyDown_succ (hd : d + (n + 1) ≤ 2 ^ 32) (hs : s + (n + 1) ≤ 2 ^ 32) (m : Mem) :
    copyDown (n + 1) (u32 (d + (n + 1))) (u32 (s + (n + 1))) m =
      copyDown n (u32 (d + n)) (u32 (s + n)) (store8 m (d + n) (m (s + n))) := by
  have hd' : u32 (u32 (d + (n + 1)) + (2 ^ 32 - 1)) = d + n := by simp only [u32]; omega
  have hs' : u32 (u32 (s + (n + 1)) + (2 ^ 32 - 1)) = s + n := by simp only [u32]; omega
  have hlt : d + n < 2 ^ 32 ∧ s + n < 2 ^ 32 := by omega
  simp only [copyDown, hd', hs']
  rw [u32, u32, Nat.mod_eq_of_lt hlt.1, Nat.mod_eq_of_lt hlt.2]

theorem copyUp_rest (hd : d + n ≤ 2 ^ 32) (hs : s + n ≤ 2 ^ 32) (ha : a < d ∨ d + n ≤ a) (m : Mem) :
    copyUp n d s m a = m a := by
  induction n generalizing d s m with
  | zero => rfl
  | succ n ih =>
    rw [copyUp_succ hd hs, ih (by omega) (by omega) (by omega), store8, if_neg (by omega)]

theorem copyDown_rest (hd : d + n ≤ 2 ^ 32) (hs : s + n ≤ 2 ^ 32) (ha : a < d ∨ d + n ≤ a) (m : Mem) :
    copyDown n (u32 (d + n)) (u32 (s + n)) m a = m a := by
  induction n generalizing m with
  | zero => rfl
  | succ n ih =>
    rw [copyDown_succ hd hs, ih (by omega) (by omega) (by omega), store8, if_neg (by omega)]

/-- Going up, a source that does not start below the destination is read before it is overwritten. -/
theorem copyUp_of_le (hd : d + n ≤ 2 ^ 32) (hs : s + n ≤ 2 ^ 32) (hle : d ≤ s) (hi : i < n) (m : Mem) :
    copyUp n d s m (d + i) = m (s + i) := by
  induction n generalizing d s i m with
  | zero => omega
  | succ n ih =>
    rw [copyUp_succ hd hs]
    cases i with
    | zero => rw [copyUp_rest (by omega) (by omega) (by omega), store8, if_pos (by omega), Nat.add_zero]
    | succ i =>
      have hnext := ih (d := d + 1) (s := s + 1) (i := i) (by omega) (by omega) (by omega) (by omega) (store8 m d (m s))
      rw [← Nat.add_assoc, Nat.add_right_comm d, hnext, store8, if_neg (by omega), Nat.add_right_comm s, Nat.add_assoc]

/-- Going up, the bytes between a source and a destination above it are repeated. -/
theorem copyUp_of_lt (hd : d + n ≤ 2 ^ 32) (hs : s + n ≤ 2 ^ 32) (hlt : s < d) (hi : i < n) (m : Mem) :
    copyUp n d s m (d + i) = m (s + i % (d - s)) := by
  induction n generalizing d s i m with
  | zero => omega
  | succ n ih =>
    rw [copyUp_succ hd hs]
    cases i with
    | zero =>
      rw [copyUp_rest (by omega) (by omega) (by omega), store8, if_pos (by omega), Nat.zero_mod, Nat.add_zero]
    | succ i =>
      have hnext := ih (d := d + 1) (s := s + 1) (i := i) (by omega) (by omega) (by omega) (by omega) (store8 m d (m s))
      rw [← Nat.add_assoc, Nat.add_right_comm d, hnext, Nat.add_sub_add_right, store8]
      have hmod : i % (d - s) < d - s := Nat.mod_lt _ (by omega)
      have hsucc : (i + 1) % (d - s) = (i % (d - s) + 1) % (d - s) := (Nat.mod_add_mod i (d - s) 1).symm
      -- The byte just written is read again once a period is complete.
      by_cases hlast : i % (d - s) + 1 = d - s
      · rw [if_pos (by omega), hsucc, hlast, Nat.mod_self, Nat.add_zero]
      · have hstay : (i % (d - s) + 1) % (d - s) = i % (d - s) + 1 := Nat.mod_eq_of_lt (by omega)
        rw [if_neg (by omega), hsucc, hstay, Nat.add_right_comm, Nat.add_assoc]

/-- Going down, a source below the destination is read before it is overwritten. -/
theorem copyDown_of_lt (hd : d + n ≤ 2 ^ 32) (hs : s + n ≤ 2 ^ 32) (hlt : s < d) (hi : i < n) (m : Mem) :
    copyDown n (u32 (d + n)) (u32 (s + n)) m (d + i) = m (s + i) := by
  induction n generalizing i m with
  | zero => omega
  | succ n ih =>
    rw [copyDown_succ hd hs]
    by_cases hin : i = n
    · subst hin
      rw [copyDown_rest (by omega) (by omega) (by omega), store8, if_pos rfl]
    · rw [ih (by omega) (by omega) (by omega), store8, if_neg (by omega)]

end

variable {dst src n : Nat} {m : Mem}

/-- The kernel's `memmove` handles every overlap. -/
theorem string.memmove_moved (hd : dst + n ≤ 2 ^ 32) (hs : src + n ≤ 2 ^ 32) (m : Mem) :
    Moved dst src n m (string.memmove dst src n m).2 := by
  unfold string.memmove
  split
  · next h => exact ⟨fun i hi => copyDown_of_lt hd hs h.1 hi m, fun a ha => copyDown_rest hd hs ha m⟩
  · next h =>
    refine ⟨fun i hi => ?_, fun a ha => copyUp_rest hd hs ha m⟩
    rcases Nat.lt_or_ge src dst with hlt | hle
    · -- The destination starts behind the source, so that not even one period is complete.
      have hapart : src + n ≤ dst := by
        simp only [u32] at h
        omega
      exact (copyUp_of_lt hd hs hlt hi m).trans (by rw [Nat.mod_eq_of_lt (by omega)])
    · exact copyUp_of_le hd hs hle hi m

/-- The machine's `memmove`, on physical memory, is the kernel's on the addresses at which the kernel
reaches that memory. -/
theorem memmove_refines (hdst : KERNBASE ≤ dst) (hsrc : KERNBASE ≤ src) (hd : dst + n ≤ 2 ^ 32) (hs : src + n ≤ 2 ^ 32)
    (s : Machine) :
    ∃ s', (memmove dst src n).run s = .ok () s' ∧
      ∀ a, KERNBASE ≤ a → a < 2 ^ 32 →
        s'.mem (V2P a) = (string.memmove dst src n fun a => s.mem (V2P a)).2 a := by
  refine ⟨{ s with mem := blit s.mem (V2P dst) (slice s.mem (V2P src) n) }, rfl, fun a hlo hhi => ?_⟩
  have hmoved := string.memmove_moved hd hs fun a => s.mem (V2P a)
  have hV2P (b : Nat) (h : KERNBASE ≤ b) (h' : b ≤ 2 ^ 32) : V2P b = b - KERNBASE := by
    simp only [V2P, KERNBASE] at h ⊢
    omega
  dsimp only
  rw [hV2P dst hdst (by omega), hV2P src hsrc (by omega), hV2P a hlo (by omega)]
  by_cases ha : dst ≤ a ∧ a < dst + n
  · obtain ⟨i, rfl⟩ := Nat.exists_eq_add_of_le ha.1
    rw [hmoved.copied i (by omega), hV2P (src + i) (by omega) (by omega), blit_slice_apply _ _ (by omega) (by omega)]
    exact congrArg s.mem (by omega)
  · rw [hmoved.rest a (by omega), hV2P a hlo (by omega)]
    have hrest : SameOn s.mem (blit s.mem (dst - KERNBASE) (slice s.mem (src - KERNBASE) n)) (a - KERNBASE) 1 :=
      blit_sameOn s.mem (by rw [slice_length]; omega)
    exact hrest _ (Nat.le_refl _) (Nat.lt_succ_self _)

/-- The bytes that the user's `memmove` reads after it has written them are already those that it
writes. Taken as an `int`, an `n` from 2^31 on is negative and nothing is moved. -/
def Repeats (dst src n : Nat) (m : Mem) : Prop :=
  if n < 2 ^ 31 then src < dst → ∀ i, dst + i < src + n → m (dst + i) = m (src + i)
  else ∀ i < n, m (dst + i) = m (src + i)

/-- Bytes that repeat with a period are determined by the first period. -/
theorem periodic_iff {k : Nat} (hk : 0 < k) :
    (∀ i < n, m (src + i % k) = m (src + i)) ↔ ∀ i, k + i < n → m (src + (k + i)) = m (src + i) := by
  constructor
  · intro h i hi
    rw [← h (k + i) hi, Nat.add_mod_left, h i (by omega)]
  · intro h i
    induction i using Nat.strongRecOn with
    | ind i ih =>
      intro hi
      rcases Nat.lt_or_ge i k with hlt | hge
      · rw [Nat.mod_eq_of_lt hlt]
      · obtain ⟨j, rfl⟩ := Nat.exists_eq_add_of_le hge
        rw [Nat.add_mod_left, h j hi, ih j (by omega) (by omega)]

theorem copyUp_moved_iff (hd : dst + n ≤ 2 ^ 32) (hs : src + n ≤ 2 ^ 32) :
    Moved dst src n m (copyUp n dst src m) ↔
      (src < dst → ∀ i, dst + i < src + n → m (dst + i) = m (src + i)) := by
  rcases Nat.lt_or_ge src dst with hlt | hle
  · obtain ⟨k, rfl⟩ := Nat.exists_eq_add_of_le (Nat.le_of_lt hlt)
    have hk : 0 < k := by omega
    have hcopy (i : Nat) (hi : i < n) : copyUp n (src + k) src m (src + k + i) = m (src + i % k) := by
      rw [copyUp_of_lt hd hs hlt hi, Nat.add_sub_cancel_left]
    have hmoved : Moved (src + k) src n m (copyUp n (src + k) src m) ↔ ∀ i < n, m (src + i % k) = m (src + i) :=
      ⟨fun h i hi => (hcopy i hi).symm.trans (h.copied i hi),
        fun h => ⟨fun i hi => (hcopy i hi).trans (h i hi), fun a ha => copyUp_rest hd hs ha m⟩⟩
    rw [hmoved, periodic_iff hk]
    simp only [hlt, forall_const, Nat.add_assoc, Nat.add_lt_add_iff_left]
  · exact ⟨fun _ h => absurd h (by omega), fun _ =>
      ⟨fun i hi => copyUp_of_le hd hs hle hi m, fun a ha => copyUp_rest hd hs ha m⟩⟩

theorem ulib.memmove_moved_iff (hn : n < 2 ^ 32) (hd : dst + n ≤ 2 ^ 32) (hs : src + n ≤ 2 ^ 32) :
    Moved dst src n m (ulib.memmove dst src (toInt n) m).2 ↔ Repeats dst src n m := by
  unfold Repeats ulib.memmove toInt
  split
  · exact copyUp_moved_iff hd hs
  · have hneg : ((n : Int) - 2 ^ 32).toNat = 0 := by omega
    rw [hneg]
    exact ⟨fun h => h.copied, fun h => ⟨h, fun _ _ => rfl⟩⟩

/-- Both implementations move the bytes, and they agree. -/
def BothMove (dst src n : Nat) (m : Mem) : Prop :=
  Moved dst src n m (string.memmove dst src n m).2 ∧
    Moved dst src n m (ulib.memmove dst src (toInt n) m).2 ∧
    string.memmove dst src n m = ulib.memmove dst src (toInt n) m

/-- The kernel's `memmove` is right on every range that does not wrap around; the user library's,
which always goes up, is right, and agrees with it, exactly on memories that repeat in the overlap. -/
theorem memmove_moves_iff (hn : n < 2 ^ 32) (hd : dst + n ≤ 2 ^ 32) (hs : src + n ≤ 2 ^ 32) (m : Mem) :
    Moved dst src n m (string.memmove dst src n m).2 ∧ (BothMove dst src n m ↔ Repeats dst src n m) := by
  have hkernel := string.memmove_moved hd hs m
  refine ⟨hkernel, fun h => (ulib.memmove_moved_iff hn hd hs).1 h.2.1, fun h => ?_⟩
  have huser := (ulib.memmove_moved_iff hn hd hs).2 h
  refine ⟨hkernel, huser, Prod.ext ?_ (hkernel.eq_blit.trans huser.eq_blit.symm)⟩
  unfold string.memmove
  split <;> rfl

/-- Ranges that overlap with the destination below the source. -/
theorem memmove_moves_down :
    let m : Mem := fun a => UInt8.ofNat a
    BothMove 0x1000 0x1001 8 m :=
  (memmove_moves_iff (by decide) (by decide) (by decide) _).2.2 (by
    unfold Repeats
    rw [if_pos (by decide)]
    exact fun h => absurd h (by decide))

/-- Two bytes moved up by one: the user library writes the first of them twice. -/
theorem memmove_user_smears :
    let m : Mem := fun a => UInt8.ofNat a
    Moved 0x1001 0x1000 2 m (string.memmove 0x1001 0x1000 2 m).2 ∧
      (ulib.memmove 0x1001 0x1000 2 m).2 0x1002 = m 0x1000 ∧ m 0x1001 ≠ m 0x1000 ∧
      ¬ BothMove 0x1001 0x1000 2 m := by
  refine ⟨string.memmove_moved (by decide) (by decide) _, by decide, by decide, fun h => ?_⟩
  exact absurd (h.2.1.copied 1 (by decide)) (by decide)

end xv6
