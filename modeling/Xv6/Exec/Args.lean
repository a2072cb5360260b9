import Xv6.Exec.Stack

open bytes outcome Function

namespace xv6

/-- A user of directory `d` reads the bytes `data` from address `va` on. -/
def ReadsAt (m : Mem) (d va : Nat) (data : List UInt8) : Prop :=
  ∀ i < data.length, ∃ pa, userAccess m d (va + i) = some pa ∧ m pa = data.getD i 0

/-- What a user of directory `d` can reach is the same, and memory has changed only
where the user reaches it at the addresses from `lo` up to `hi`. -/
structure Wrote (d lo hi : Nat) (m m' : Mem) : Prop where
  view : ∀ va < 2 ^ 32, userAccess m' d va = userAccess m d va
  rest : ∀ a, (∀ va, lo ≤ va → va < hi → userAccess m d va ≠ some a) → m' a = m a

/-- The strings `args`, each with its terminating NUL, lie at the word addresses `ptrs`
one below the other, from below `top` down to `bot`. -/
def Strings (m : Mem) (d : Nat) : Nat → List (List UInt8) → List Nat → Nat → Prop
  | top, [], [], bot => bot = top
  | top, arg :: args, p :: ptrs, bot =>
    ReadsAt m d p (arg ++ [0]) ∧ p % 4 = 0 ∧ p + (arg.length + 1) ≤ top ∧ Strings m d p args ptrs bot
  | _, _, _, _ => False

/-- No argument is so long that the stack pointer, taken below address 0, wraps around
to a place that no page table covers. -/
def ArgsOK (argv : List (List UInt8)) : Prop := ∀ arg ∈ argv, arg.length + 4 ≤ 0x2000000

instance : DecidablePred ArgsOK := fun argv => inferInstanceAs (Decidable (∀ arg ∈ argv, arg.length + 4 ≤ 0x2000000))

theorem wordBytes_length (words : List Nat) : (wordBytes words).length = 4 * words.length := by
  simp [wordBytes, List.length_flatMap, Nat.mul_comm]

section wrote

variable {m m' m'' : Mem} {d lo mid hi va : Nat} {data : List UInt8}

theorem Wrote.refl (d lo hi : Nat) (m : Mem) : Wrote d lo hi m m := ⟨fun _ _ => rfl, fun _ _ => rfl⟩

theorem Wrote.trans (h : Wrote d lo hi m m') (h' : Wrote d lo hi m' m'') (hhi : hi ≤ 2 ^ 32) : Wrote d lo hi m m'' where
  view va hva := (h'.view va hva).trans (h.view va hva)
  rest a ha := by
    rw [h'.rest a, h.rest a ha]
    intro va hlo hlt
    rw [h.view va (by omega)]
    exact ha va hlo hlt

theorem Wrote.mono {lo' hi' : Nat} (h : Wrote d lo hi m m') (hlo : lo' ≤ lo) (hhi : hi ≤ hi') : Wrote d lo' hi' m m' where
  view := h.view
  rest a ha := h.rest a fun va hva hlt => ha va (by omega) (by omega)

end wrote

section stacked

variable {s₀ s s' : Machine} {g₀ g : Ghost} {d sz sp va va' pa : Nat} {buf data : List UInt8}

/-- Bytes outside the range that was written read as before. -/
theorem ReadsAt.keep {lo hi : Nat} (hr : ReadsAt s.mem d va data) (h : Image d sz s₀ g₀ s g)
    (hw : Wrote d lo hi s.mem s'.mem) (hva : va + data.length ≤ 2 ^ 32) (hhi : hi ≤ 2 ^ 32)
    (hapart : va + data.length ≤ lo ∨ hi ≤ va) : ReadsAt s'.mem d va data := by
  intro i hi'
  obtain ⟨pa, hpa, hbyte⟩ := hr i hi'
  refine ⟨pa, (hw.view _ (by omega)).trans hpa, ?_⟩
  rw [hw.rest pa, hbyte]
  intro va' hlo hlt hpa'
  have := h.access_inj (by omega) (by omega) hpa hpa'
  omega

theorem Strings.le {m : Mem} {args : List (List UInt8)} {ptrs : List Nat} {top bot : Nat} (h : Strings m d top args ptrs bot) :
    bot ≤ top := by
  induction args generalizing top ptrs with
  | nil =>
    cases ptrs with
    | nil => exact Nat.le_of_eq h
    | cons p ptrs => exact h.elim
  | cons arg args ih =>
    cases ptrs with
    | nil => exact h.elim
    | cons p ptrs =>
      have := ih h.2.2.2
      have := h.2.2.1
      omega

theorem Strings.keep {lo hi : Nat} (h : Image d sz s₀ g₀ s g) (hw : Wrote d lo hi s.mem s'.mem) (hhi : hi ≤ 2 ^ 32)
    {args : List (List UInt8)} {ptrs : List Nat} {top bot : Nat} (htop : top ≤ 2 ^ 32) (hbot : hi ≤ bot)
    (hst : Strings s.mem d top args ptrs bot) : Strings s'.mem d top args ptrs bot := by
  induction args generalizing top ptrs with
  | nil =>
    cases ptrs with
    | nil => exact hst
    | cons p ptrs => exact hst.elim
  | cons arg args ih =>
    cases ptrs with
    | nil => exact hst.elim
    | cons p ptrs =>
      obtain ⟨hread, halign, hle, hrest⟩ := hst
      have hbot' := hrest.le
      have hlen : (arg ++ [0]).length = arg.length + 1 := by simp
      exact ⟨hread.keep h hw (by omega) hhi (.inr (by omega)), halign, hle, ih (show p ≤ 2 ^ 32 by omega) hrest⟩

/-- Nothing of the page below the stack is reached by a user. -/
theorem Stacked.guard_none (h : Stacked d sz s₀ g₀ s g) (hlo : sz - 8192 ≤ va) (hhi : va < sz - 4096) :
    userAccess s.mem d va = none := by
  have hsz := h.sz_le
  have halign := h.align
  have hroom := h.room
  cases hacc : userAccess s.mem d va with
  | none => rfl
  | some pa =>
    obtain ⟨f, fl, hf, -, hfl, -, hu, hlook, -⟩ :=
      h.sys.userAccess_page h.frame h.dir (by omega) (h.hugeAt_eq _ (by omega)) hacc
    have hguard := h.guard
    have hal := hf.1
    rw [show sz / 4096 - 2 = va / 4096 by omega, hlook] at hguard
    omega

/-- The invariant of the pushes survives a step that keeps the entries of the directory. -/
theorem Stacked.keep (h : Stacked d sz s₀ g₀ s g) (hstep : UserStep d (fun _ => False) s g s' g) (hs' : Sys s' g)
    (hlook : ∀ k < 2 ^ 20, lookup s'.mem d k = lookup s.mem d k) (hentry : ∀ i < 1024, entry s'.mem d i = entry s.mem d i) :
    Stacked d sz s₀ g₀ s' g where
  toImage := h.toImage.step hstep hs' (h.layout.congr hlook hentry) (fun k hk => by
    have hsz := h.sz_le
    rw [hlook k (by omega)]
    exact h.writable k hk) rfl
  align := h.align
  room := h.room
  guard := by
    have hsz := h.sz_le
    rw [hlook _ (by omega)]
    exact h.guard
  stack := by
    have hsz := h.sz_le
    rw [hlook _ (by omega)]
    exact h.stack

/-- Both kinds of ranges that `exec` copies to are covered by page tables as far as they are accessible. -/
theorem Stacked.inTables (h : Stacked d sz s₀ g₀ s g) (hva : va < 2 ^ 32)
    (hplace : va + buf.length ≤ sz ∨ 0xFE000000 ≤ va) : InTables s.mem d va buf.length := by
  have hsz := h.sz_le
  intro i hi hbefore
  rcases hplace with hle | hhigh
  · have hu : u32 (va + i) = va + i := Nat.mod_eq_of_lt (by omega)
    rw [hu]
    exact h.hasTable (by omega)
  · have hu : u32 (va + 0) = va := Nat.mod_eq_of_lt hva
    rcases Nat.eq_zero_or_pos i with rfl | hpos
    · rw [hu]
      refine h.sys.hasTable h.frame h.dir hva ?_
      rw [h.kern.lookup_eq _ (by omega) (by omega), kpte]
      split_ifs <;> omega
    · refine absurd ?_ (hbefore 0 hpos)
      rw [hu]
      exact h.kern.userAccess_eq_none h.sys h.frame h.dir (by omega) hva

/-- `copyout` to a place that reaches up to the last word of the stack in use. When it succeeds the
bytes lie in the stack page: the guard page stops every copy that would reach below. -/
theorem Stacked.copyout (h : Stacked d sz s₀ g₀ s g) (hbuf : buf ≠ []) (hva : va < 2 ^ 32)
    (hplace : va + buf.length ≤ sz ∧ sz ≤ va + buf.length + 4100 ∨ 0xFE000000 ≤ va) :
    ∃ r s', (copyout (P2V d) va buf).run s = .ok r s' ∧ Stacked d sz s₀ g₀ s' g ∧
      (r < 0 ∨ ¬ r < 0 ∧ va + buf.length ≤ sz ∧ sz - 4096 ≤ va ∧ ReadsAt s'.mem d va buf ∧
        Wrote d va (va + buf.length) s.mem s'.mem) := by
  have hsz := h.sz_le
  have hroom := h.room
  have halign := h.align
  have hpos : 0 < buf.length := List.length_pos_iff.2 hbuf
  obtain ⟨k, s', hrun, hdel⟩ := copyout_loop h.frame h.dir (buf.length + 1) h.sys h.kern hva
    (h.inTables hva (hplace.imp And.left id)) (Nat.lt_succ_self _)
  have h' := h.keep hdel.step hdel.sys hdel.lookup_eq hdel.entry_eq
  refine ⟨_, s', hrun, h', ?_⟩
  by_cases hk : k = buf.length
  swap
  · exact .inl (by rw [if_neg hk]; decide)
  right
  have htake : buf.take k = buf := List.take_of_length_le hk.ge
  have hstored := hdel.stored
  rw [htake] at hstored
  have hacc (i : Nat) (hi : i < buf.length) : userAccess s.mem d (u32 (va + i)) ≠ none := by
    obtain ⟨pa, hpa, -⟩ := hstored.bytes i hi
    simp [hpa]
  have hlow := h.kern.lt_of_accessible h.sys h.frame h.dir hva (i := buf.length - 1) fun j hj => hacc j (by omega)
  have hplace' : va + buf.length ≤ sz ∧ sz ≤ va + buf.length + 4100 := by
    rcases hplace with hplace | hhigh
    · exact hplace
    · omega
  have hu (i : Nat) (hi : i < buf.length) : u32 (va + i) = va + i := Nat.mod_eq_of_lt (by omega)
  have hview (x : Nat) (hx : x < 2 ^ 32) : userAccess s'.mem d x = userAccess s.mem d x :=
    userAccess_congr h.sys hdel.sys h.frame h.dir hdel.lookup_eq hdel.entry_eq hx
  refine ⟨by rw [if_pos hk]; decide, hplace'.1, ?_, fun i hi => ?_, hview, fun a ha => ?_⟩
  · by_contra hbelow
    -- The last byte below the stack page that the copy would have written lies in the guard page.
    have hbyte := hacc (min (va + (buf.length - 1)) (sz - 4097) - va) (by omega)
    rw [hu _ (by omega)] at hbyte
    exact hbyte (h.guard_none (by omega) (by omega))
  · obtain ⟨pa, hpa, hbyte⟩ := hstored.bytes i hi
    rw [hu i hi] at hpa
    exact ⟨pa, (hview _ (by omega)).trans hpa, hbyte⟩
  · refine hstored.rest a fun i hi => ?_
    rw [hu i hi]
    exact ha _ (by omega) (by omega)

/-- The stack pointer of the next argument. -/
theorem pushed_sp {len : Nat} (hsp : sp < 0x80000000) (hroom : 4 ≤ sp) (hlen : len + 4 ≤ 0x2000000) :
    ∃ sp', u32 (sp + (2 ^ 32 - (len + 1) % 2 ^ 32)) / 4 * 4 = sp' ∧ sp' < 2 ^ 32 ∧ sp' % 4 = 0 ∧
      (sp' + (len + 1) ≤ sp ∧ sp ≤ sp' + (len + 1) + 3 ∨ 0xFE000000 ≤ sp') := by
  refine ⟨_, rfl, ?_⟩
  simp only [u32]
  omega

/-- The loop of `exec` that pushes the arguments. -/
theorem Stacked.push (args : List (List UInt8)) (hargs : ArgsOK args) : ∀ sp ustack s, Stacked d sz s₀ g₀ s g →
    sz - 4096 ≤ sp → sp ≤ sz → sp % 4 = 0 → ustack.length ≤ MAXARG →
    ∃ r s', (exec.push (P2V d) args sp ustack).run s = .ok r s' ∧ Stacked d sz s₀ g₀ s' g ∧
      ∀ sp' us, r = some (sp', us) → ∃ ptrs, us = ustack ++ ptrs ∧ us.length ≤ MAXARG ∧ sz - 4096 ≤ sp' ∧ sp' ≤ sp ∧
        sp' % 4 = 0 ∧ Strings s'.mem d sp args ptrs sp' ∧ Wrote d sp' sp s.mem s'.mem := by
  induction args with
  | nil =>
    intro sp ustack s h hlo hhi halign hmax
    refine ⟨some (sp, ustack), s, rfl, h, fun sp' us heq => ?_⟩
    obtain ⟨rfl, rfl⟩ := Prod.mk.inj (Option.some.inj heq)
    exact ⟨[], (List.append_nil _).symm, hmax, hlo, le_rfl, halign, rfl, .refl _ _ _ _⟩
  | cons arg args ih =>
    intro sp ustack s h hlo hhi halign hmax
    have hsz := h.sz_le
    have hroom := h.room
    have hszal := h.align
    rw [exec.push]
    by_cases hfull : ustack.length ≥ MAXARG
    · rw [if_pos hfull]
      exact ⟨none, s, rfl, h, fun sp' us heq => by cases heq⟩
    rw [if_neg hfull]
    obtain ⟨sp₁, hsp₁, hlt₁, halign₁, hplace₁⟩ :=
      pushed_sp (show sp < 0x80000000 by omega) (by omega) (hargs arg List.mem_cons_self)
    have hlen : (arg ++ [0]).length = arg.length + 1 := by simp
    simp only [hsp₁]
    obtain ⟨r, s₁, hrun, h₁, hres⟩ := h.copyout (show arg ++ [0] ≠ [] by simp) hlt₁ (by rw [hlen]; omega)
    rw [bind_ok hrun]
    rcases hres with hneg | ⟨hneg, hle₁, hlo₁, hread, hw⟩
    · rw [if_pos hneg]
      exact ⟨none, s₁, rfl, h₁, fun sp' us heq => by cases heq⟩
    rw [if_neg hneg]
    rw [hlen] at hw hle₁
    obtain ⟨r', s', hrun', h', hres'⟩ := ih (fun a ha => hargs a (List.mem_cons_of_mem _ ha)) sp₁ (ustack ++ [sp₁]) s₁ h₁
      hlo₁ (by omega) halign₁ (by rw [List.length_append, List.length_singleton]; omega)
    refine ⟨r', s', hrun', h', fun sp' us heq => ?_⟩
    obtain ⟨ptrs, hus, hmax', hlo', hhi', halign', hstr, hw'⟩ := hres' sp' us heq
    refine ⟨sp₁ :: ptrs, by rw [hus, List.append_assoc, List.singleton_append], hmax', hlo', by omega, halign',
      ⟨hread.keep h₁.toImage hw' (by omega) (by omega) (.inr le_rfl), halign₁, by omega, hstr⟩, ?_⟩
    exact (hw.mono hhi' (by omega)).trans (hw'.mono le_rfl (by omega)) (by omega)

end stacked

end xv6
