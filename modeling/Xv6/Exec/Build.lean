import Xv6.Exec.Args

open bytes outcome Function

namespace xv6

/-- The stack on which a new program starts: from `esp` on a return address that cannot be
returned to, the number of arguments, a pointer to the vector and the vector, and above them
the strings. Below the stack page no user access succeeds. -/
structure ArgStack (m : Mem) (d sz esp : Nat) (argv : List (List UInt8)) : Prop where
  low : sz - 4096 ≤ esp
  align : esp % 4 = 0
  args : ∃ ptrs, Strings m d sz argv ptrs (esp + 4 * (argv.length + 4)) ∧
    ReadsAt m d esp (wordBytes ([0xffffffff, argv.length, esp + 12] ++ ptrs ++ [0]))
  guard : ∀ va, sz - 8192 ≤ va → va < sz - 4096 → userAccess m d va = none

section build

variable {s₀ s s' : Machine} {g₀ g : Ghost} {d sz sp va : Nat} {c : Nat → UInt8} {argv : List (List UInt8)}

theorem readsAt_singleton {m : Mem} {b : UInt8} :
    ReadsAt m d va [b] ↔ ∃ pa, userAccess m d va = some pa ∧ m pa = b := by
  constructor
  · intro h
    exact h 0 (Nat.lt_succ_self 0)
  · intro h i hi
    obtain rfl : i = 0 := Nat.lt_one_iff.1 hi
    exact h

theorem Strings.length_eq {m : Mem} {args : List (List UInt8)} {ptrs : List Nat} {top bot : Nat}
    (h : Strings m d top args ptrs bot) : ptrs.length = args.length := by
  induction args generalizing top ptrs with
  | nil =>
    cases ptrs with
    | nil => rfl
    | cons p ptrs => exact h.elim
  | cons arg args ih =>
    cases ptrs with
    | nil => exact h.elim
    | cons p ptrs => rw [List.length_cons, List.length_cons, ih h.2.2.2]

theorem PGROUNDUP_eq (hsz : sz ≤ 4096 * 57065) : PGROUNDUP sz = (sz + 4095) / 4096 * 4096 := by
  simp only [PGROUNDUP, u32, PGSIZE]
  omega

/-- The two pages on top leave the program below as it was loaded. -/
theorem Program.stacked (h : Program d sz c s₀ g₀ s g) :
    (∃ s₁ s₂ g₂,
      (xv6.allocuvm (P2V d) (PGROUNDUP sz) (u32 (PGROUNDUP sz + 2 * PGSIZE))).run s = .ok (PGROUNDUP sz + 8192) s₁ ∧
      (xv6.clearpteu (P2V d) (u32 (PGROUNDUP sz + 8192 + (2 ^ 32 - 2 * PGSIZE)))).run s₁ = .ok () s₂ ∧
      Stacked d (PGROUNDUP sz + 8192) s₀ g₀ s₂ g₂ ∧ ∀ va < PGROUNDUP sz, ReadsAt s₂.mem d va [c va]) ∨
    ∃ s₁ g₁, (xv6.allocuvm (P2V d) (PGROUNDUP sz) (u32 (PGROUNDUP sz + 2 * PGSIZE))).run s = .ok 0 s₁ ∧
      Image d (PGROUNDUP sz) s₀ g₀ s₁ g₁ := by
  have hsz := h.sz_le
  have hround := PGROUNDUP_eq hsz
  rcases h.toImage.stacked with ⟨s₁, s₂, g₂, halloc, hclear, h₂, hlook, hsame⟩ | hfail
  swap
  · exact .inr hfail
  refine .inl ⟨s₁, s₂, g₂, halloc, hclear, h₂, fun va hva => readsAt_singleton.2 ?_⟩
  obtain ⟨pa, hpa, hbyte⟩ := h.bytes va (by omega)
  obtain ⟨f, fl, hf, hpage, hfl, hodd, hu, hpte, rfl⟩ :=
    h.sys.userAccess_page h.frame h.dir (by omega) (h.hugeAt_eq _ (by omega)) hpa
  refine ⟨f + va % 4096, ?_, ?_⟩
  · rw [h₂.access_eq (by omega) hf.1 hfl hodd ((hlook _ (by omega)).trans hpte), if_pos hu]
  · rw [hsame f _ _ hf hpage _ (by omega) (by omega), hbyte]

/-- Pushing the vector below the strings completes the stack. -/
theorem Stacked.words {ptrs : List Nat} (h : Stacked d sz s₀ g₀ s g) (hlo : sz - 4096 ≤ sp) (hhi : sp ≤ sz)
    (halign : sp % 4 = 0) (hmax : ptrs.length ≤ MAXARG) (hstr : Strings s.mem d sz argv ptrs sp) :
    ∃ r s', (xv6.copyout (P2V d) (u32 (sp + (2 ^ 32 - (3 + ptrs.length + 1) * 4)))
        (wordBytes ([0xffffffff, ptrs.length, u32 (sp + (2 ^ 32 - (ptrs.length + 1) * 4))] ++ ptrs ++ [0]))).run s = .ok r s' ∧
      Stacked d sz s₀ g₀ s' g ∧
      (r < 0 ∨ ¬ r < 0 ∧ ArgStack s'.mem d sz (u32 (sp + (2 ^ 32 - (3 + ptrs.length + 1) * 4))) argv ∧
        Wrote d (sz - 4096) sz s.mem s'.mem) := by
  have hsz := h.sz_le
  have hroom := h.room
  have hszal := h.align
  have hcount := hstr.length_eq
  simp only [MAXARG] at hmax
  obtain ⟨esp, hesp, hspe⟩ : ∃ esp, u32 (sp + (2 ^ 32 - (3 + ptrs.length + 1) * 4)) = esp ∧
      sp = esp + 4 * (argv.length + 4) := by
    refine ⟨_, rfl, ?_⟩
    simp only [u32]
    omega
  have hvec : u32 (sp + (2 ^ 32 - (ptrs.length + 1) * 4)) = esp + 12 := by
    simp only [u32] at hesp ⊢
    omega
  rw [hesp, hvec]
  generalize hwords : [0xffffffff, ptrs.length, esp + 12] ++ ptrs ++ [0] = words
  have hlen : (wordBytes words).length = 4 * (argv.length + 4) := by
    rw [wordBytes_length, ← hwords]
    simp only [List.length_append, List.length_cons, List.length_nil, hcount]
    omega
  obtain ⟨r, s', hrun, h', hres⟩ := h.copyout
    (show wordBytes words ≠ [] from List.ne_nil_of_length_pos (by omega)) (show esp < 2 ^ 32 by omega)
    (.inl ⟨by omega, by omega⟩)
  refine ⟨r, s', hrun, h', ?_⟩
  rcases hres with hneg | ⟨hneg, hle, hlow, hread, hw⟩
  · exact .inl hneg
  rw [hlen] at hle hw
  have hstr' := Strings.keep h.toImage hw (by omega) (by omega) (by omega) hstr
  rw [← hwords, hcount] at hread
  exact .inr ⟨hneg, ⟨hlow, by omega, ⟨ptrs, hspe ▸ hstr', hread⟩, fun _ hlo hhi => h'.guard_none hlo hhi⟩,
    hw.mono hlow hle⟩

/-- Everything `exec` does to a new directory before the commit. -/
theorem Program.build (h : Program d 0 c s₀ g₀ s g) (hargs : ArgsOK argv) (ip : Inode) (phoff phnum : Nat) :
    (∃ s' g' sz, (exec.build (P2V d) ip phoff phnum argv).run s = .ok none s' ∧ Image d sz s₀ g₀ s' g') ∨
    ∃ s' g' sz sp, (exec.build (P2V d) ip phoff phnum argv).run s = .ok (some (sz, sp)) s' ∧ Stacked d sz s₀ g₀ s' g' ∧
      ArgStack s'.mem d sz sp argv ∧ sz = PGROUNDUP (exec.extent ip phnum phoff 0) + 8192 ∧
      (ip.size < 2 ^ 32 → ∀ va < PGROUNDUP (exec.extent ip phnum phoff 0),
        ReadsAt s'.mem d va [exec.contents ip phnum phoff c va]) := by
  unfold exec.build
  rcases Program.load ip phnum phoff 0 c s g h with ⟨s₁, g₁, sz, hload, h₁⟩ | ⟨s₁, g₁, x, c₁, hload, h₁, hext, hcont⟩
  · rw [bind_ok hload]
    exact .inl ⟨s₁, g₁, sz, rfl, h₁⟩
  rw [bind_ok hload, ← hext]
  simp only []
  have hx := h₁.sz_le
  have hround := PGROUNDUP_eq hx
  rcases h₁.stacked with ⟨s₂, s₃, g₃, halloc, hclear, h₃, hbytes₃⟩ | ⟨s₂, g₂, halloc, h₂⟩
  swap
  · rw [bind_ok halloc, if_pos rfl]
    exact .inl ⟨s₂, g₂, _, rfl, h₂⟩
  rw [bind_ok halloc, if_neg (by omega), bind_ok hclear]
  generalize PGROUNDUP x = b at hround halloc hclear h₃ hbytes₃ ⊢
  have hb := h₃.sz_le
  obtain ⟨r, s₄, hpush, h₄, hpushed⟩ := Stacked.push argv hargs (b + 8192) [] s₃ h₃ (by omega) le_rfl (by omega) (by simp)
  rw [bind_ok hpush]
  cases r with
  | none => exact .inl ⟨s₄, g₃, _, rfl, h₄.toImage⟩
  | some q =>
    obtain ⟨sp, ustack⟩ := q
    obtain ⟨ptrs, hus, hmax, hlo, hhi, halign, hstr, hw₄⟩ := hpushed sp ustack rfl
    rw [List.nil_append] at hus
    subst hus
    simp only []
    obtain ⟨r, s₅, hwords, h₅, hres⟩ := h₄.words hlo hhi halign hmax hstr
    rw [bind_ok hwords]
    rcases hres with hneg | ⟨hneg, hstack, hw₅⟩
    · rw [if_pos hneg]
      exact .inl ⟨s₅, g₃, _, rfl, h₅.toImage⟩
    rw [if_neg hneg]
    refine .inr ⟨s₅, g₃, b + 8192, _, rfl, h₅, hstack, rfl, fun hsize va hva => ?_⟩
    have hlen : [c₁ va].length = 1 := rfl
    have h₄' := (hbytes₃ va hva).keep h₃.toImage hw₄ (by omega) (by omega) (.inl (by omega))
    have h₅' := h₄'.keep h₄.toImage hw₅ (by omega) (by omega) (.inl (by omega))
    rwa [hcont hsize] at h₅'

end build

end xv6
