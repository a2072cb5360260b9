import Xv6.Exec.Image

open bytes outcome Function

namespace xv6

/-- Memory changes only where directory `d` maps the addresses from `lo` up to `hi`. -/
def Loaded (m m' : Mem) (d lo hi : Nat) : Prop :=
  ∀ a, m' a ≠ m a → ∃ va, lo ≤ va ∧ va < hi ∧ (translate m d va).map Translation.pa = some a

/-- The contents `c` with `n` bytes of a file, from offset `off` on, laid over them at address `va`. -/
def overlay (c : Nat → UInt8) (ip : Inode) (va off n : Nat) : Nat → UInt8 := fun a =>
  if va ≤ a ∧ a < va + n then ip.byte (off + (a - va)) else c a

/-- What the segments of a program put into memory: each one over those before it. -/
def exec.contents (ip : Inode) : Nat → Nat → (Nat → UInt8) → Nat → UInt8
  | 0, _, c => c
  | n + 1, off, c =>
    match readi ip off sizeofProghdr with
    | none => c
    | some bytes =>
      let ph := Proghdr.ofBytes bytes
      exec.contents ip n (u32 (off + sizeofProghdr))
        (if ph.type = ELF_PROG_LOAD then overlay c ip ph.vaddr ph.off ph.filesz else c)

/-- The end of the last segment of a program. -/
def exec.extent (ip : Inode) : Nat → Nat → Nat → Nat
  | 0, _, sz => sz
  | n + 1, off, sz =>
    match readi ip off sizeofProghdr with
    | none => sz
    | some bytes =>
      let ph := Proghdr.ofBytes bytes
      exec.extent ip n (u32 (off + sizeofProghdr))
        (if ph.type = ELF_PROG_LOAD then max sz (ph.vaddr + ph.memsz) else sz)

/-- An image whose pages a user can access and finds the bytes `c` in. -/
structure Program (d sz : Nat) (c : Nat → UInt8) (s₀ : Machine) (g₀ : Ghost) (s : Machine) (g : Ghost) : Prop
    extends Image d sz s₀ g₀ s g where
  bytes : ∀ va, va / 4096 * 4096 < sz → ∃ pa, userAccess s.mem d va = some pa ∧ s.mem pa = c va
  rest : ∀ va, sz ≤ va / 4096 * 4096 → c va = 0

section readi

variable {ip : Inode} {off n : Nat} {data : List UInt8}

theorem readi_length (hn : n < 2 ^ 32) (h : readi ip off n = some data) : data.length ≤ n := by
  unfold readi at h
  split_ifs at h with hbad hlong
  · rw [Option.some.injEq] at h
    rw [← h, slice_length]
    simp only [u32] at hbad hlong
    omega
  · rw [Option.some.injEq] at h
    rw [← h, slice_length]

/-- A read that is not cut short lies within the file. -/
theorem readi_full (hsize : ip.size < 2 ^ 32) (hn : n < 2 ^ 32) (h : readi ip off n = some data) (hlen : data.length = n) :
    off + n ≤ ip.size ∧ data = slice ip.byte off n := by
  unfold readi at h
  split_ifs at h with hbad hlong
  · rw [Option.some.injEq] at h
    rw [← h, slice_length] at hlen
    simp only [u32] at hbad hlong
    omega
  · rw [Option.some.injEq] at h
    simp only [u32] at hbad hlong
    exact ⟨by omega, h.symm⟩

theorem overlay_zero (c : Nat → UInt8) (ip : Inode) (va off : Nat) : overlay c ip va off 0 = c := by
  funext a
  exact if_neg (by omega)

theorem overlay_add (c : Nat → UInt8) (ip : Inode) (va off n k : Nat) :
    overlay (overlay c ip va off n) ip (va + n) (off + n) k = overlay c ip va off (n + k) := by
  funext a
  simp only [overlay]
  split_ifs with h h'
  · rw [show off + n + (a - (va + n)) = off + (a - va) by omega]
  · omega
  · rfl
  · omega
  · omega
  · rfl

end readi

section load

variable {s₀ s s' : Machine} {g₀ g g' : Ghost} {d sz addr offset n lo hi va : Nat} {ip : Inode} {c : Nat → UInt8}

/-- The physical address of a user access to a page of the image. -/
theorem Image.access_eq (h : Image d sz s₀ g₀ s g) (hva : va < 0x80000000) {f fl : Nat} (hf : f % 4096 = 0)
    (hfl : fl < 4096) (hodd : fl % 2 = 1) (hlook : lookup s.mem d (va / 4096) = f + fl) :
    userAccess s.mem d va = if fl / 4 % 2 = 1 then some (f + va % 4096) else none := by
  have hflags : (hasFlag (f + fl) PTE_P && hasFlag (f + fl) PTE_U) = true ↔ fl / 4 % 2 = 1 := by
    rw [Bool.and_eq_true, hasFlag_P, hasFlag_U]
    omega
  rw [h.sys.userAccess_table h.frame h.dir (by omega) (h.hugeAt_eq _ (by omega)), hlook, PTE_ADDR_add hf hfl]
  split_ifs <;> tauto

/-- Translation depends on the entries of the directory only. -/
theorem Image.translate_congr (h : Image d sz s₀ g₀ s g) (h' : Image d sz s₀ g₀ s' g)
    (hlook : ∀ k < 2 ^ 20, lookup s'.mem d k = lookup s.mem d k) (hentry : ∀ i < 1024, entry s'.mem d i = entry s.mem d i)
    (hva : va < 2 ^ 32) : translate s'.mem d va = translate s.mem d va := by
  rw [h.sys.translate_eq h.frame h.dir hva, h'.sys.translate_eq h'.frame h'.dir hva, hlook _ (by omega),
    hugeAt_congr (hentry _ (by omega))]

/-- A new directory maps nothing. -/
theorem NewDir.program (h : NewDir d s g s' g') (hs' : Sys s' g') : Program d 0 (fun _ => 0) s g s' g' where
  toImage := h.image hs'
  bytes _ hva := absurd hva (Nat.not_lt_zero _)
  rest _ _ := rfl

/-- Growing the image adds zeros. -/
theorem Program.allocuvm (h : Program d sz c s₀ g₀ s g) (newsz : Nat) :
    (∃ s' g', (xv6.allocuvm (P2V d) sz newsz).run s = .ok (max sz newsz) s' ∧ Program d (max sz newsz) c s₀ g₀ s' g') ∨
    ∃ s' g', (xv6.allocuvm (P2V d) sz newsz).run s = .ok 0 s' ∧ Image d sz s₀ g₀ s' g' := by
  have hsz : sz ≤ 233738240 := h.sz_le
  rcases h.toImage.allocuvm newsz with ⟨s', g', hrun, h', hext⟩ | hfail
  swap
  · exact .inr hfail
  have hsz' : newsz ≤ 233738240 := (le_max_right _ _).trans h'.sz_le
  refine .inl ⟨s', g', hrun, h', fun va hva => ?_, fun va hva => h.rest va (by omega)⟩
  by_cases hold : va / 4096 * 4096 < sz
  · obtain ⟨pa, hpa, hbyte⟩ := h.bytes va hold
    obtain ⟨f, fl, hf, hpage, hfl, hodd, hu, hlook, rfl⟩ :=
      h.sys.userAccess_page h.frame h.dir (by omega) (h.hugeAt_eq _ (by omega)) hpa
    refine ⟨f + va % 4096, ?_, ?_⟩
    · rw [h'.access_eq (by omega) hf.1 hfl hodd ((hext.lookup_eq _ (by omega) (by omega)).trans hlook), if_pos hu]
    · rw [(hext.pages f _ _ hf hpage).2 _ (by omega) (by omega), hbyte]
  · have hmapped := hext.mapped (va / 4096) (by omega) (by omega)
    obtain ⟨t, f, fl, -, hf, -, -, hfl, hodd, -, -, hlook, -⟩ := h'.page (show va / 4096 * 4096 < max sz newsz from hva)
    have hal := hf.1
    rw [show va / 4096 * 4096 / 4096 = va / 4096 by omega] at hlook
    obtain rfl : fl = 7 := by omega
    rw [max_eq_right (by omega)] at hrun
    refine ⟨f + va % 4096, by rw [h'.access_eq (by omega) hf.1 hfl hodd hlook, if_pos (by omega)], ?_⟩
    rw [h.rest va (by omega)]
    exact allocuvm_zeroed h.sys h.frame h.dir (by omega) (h.layout.dense (by omega)) (by omega) hrun (va / 4096) (by omega)
      (by omega) f hf hlook _ (by omega) (by omega)

theorem translate_of_access {m : Mem} {pa : Nat} (h : userAccess m d va = some pa) :
    (translate m d va).map Translation.pa = some pa := by
  unfold userAccess at h
  cases htrans : translate m d va with
  | none =>
    rw [htrans] at h
    cases h
  | some t =>
    rw [htrans] at h
    simp only [Option.ite_none_right_eq_some] at h
    rw [Option.map_some, h.2]

/-- The frame of a page of the program, and how `loaduvm` finds it. -/
theorem Program.page (h : Program d sz c s₀ g₀ s g) (hva : va < sz) (halign : va % 4096 = 0) :
    ∃ t f, IsFrame t ∧ IsFrame f ∧ g.own f = .page d (va / 0x400000) (va / 4096 % 1024) ∧
      (walkpgdir (P2V d) va false).run s = .ok (P2V t + 4 * (va / 4096 % 1024)) s ∧
      PTE_ADDR (entry s.mem t (va / 4096 % 1024)) = f ∧ ∀ i < 4096, userAccess s.mem d (va + i) = some (f + i) := by
  have hsz := h.sz_le
  obtain ⟨t, f, fl, ht, hf, -, hpage, hfl, hodd, hwalk, hpte, hlook, -⟩ := h.toImage.page hva
  have hu : fl / 4 % 2 = 1 := by
    obtain ⟨pa, hpa, -⟩ := h.bytes va (by omega)
    by_contra hu
    rw [h.access_eq (by omega) hf.1 hfl hodd hlook, if_neg hu] at hpa
    cases hpa
  refine ⟨t, f, ht, hf, hpage, hwalk, by rw [hpte, PTE_ADDR_add hf.1 hfl], fun i hi => ?_⟩
  rw [h.access_eq (by omega) hf.1 hfl hodd (by rwa [show (va + i) / 4096 = va / 4096 by omega]), if_pos hu,
    show (va + i) % 4096 = i by omega]

/-- Storing bytes into the frame of a page of the program. -/
theorem Program.store {f i j : Nat} (h : Program d sz c s₀ g₀ s g) (hf : IsFrame f)
    (hpage : g.own f = .page d i j) (hin : ∀ i < 4096, userAccess s.mem d (va + i) = some (f + i)) (data : List UInt8)
    (hlen : data.length ≤ 4096) (hle : va + data.length ≤ sz) :
    Program d sz (blit c va data) s₀ g₀ { s with mem := blit s.mem f data } g ∧
      ∀ va' < 2 ^ 32, translate (blit s.mem f data) d va' = translate s.mem d va' := by
  have hsz := h.sz_le
  obtain ⟨hs', hstep, hlook', hentry'⟩ := blit_page data h.sys h.frame h.dir hf hpage
    (show 0 + data.length ≤ 4096 by omega)
  rw [Nat.add_zero] at hs' hstep hlook' hentry'
  have h' : Image d sz s₀ g₀ { s with mem := blit s.mem f data } g :=
    h.toImage.step hstep hs' (h.layout.congr hlook' hentry')
      (fun k hk => by rw [hlook' k (by omega)]; exact h.writable k hk) rfl
  refine ⟨⟨h', fun va' hva' => ?_, fun va' hva' => ?_⟩, fun va' hva' => ?_⟩
  · obtain ⟨pa', hpa', hbyte⟩ := h.bytes va' hva'
    have hview := userAccess_congr h.sys hs' h.frame h.dir hlook' hentry' (show va' < 2 ^ 32 by omega)
    refine ⟨pa', hview.trans hpa', ?_⟩
    simp only [blit]
    by_cases hcover : va ≤ va' ∧ va' < va + data.length
    · have hsame := hin (va' - va) (by omega)
      rw [Nat.add_sub_cancel' hcover.1, hpa', Option.some.injEq] at hsame
      rw [hsame, if_pos (by omega), if_pos hcover, Nat.add_sub_cancel_left]
    · rw [if_neg hcover, if_neg, hbyte]
      intro hcover'
      have hsame := hin (pa' - f) (by omega)
      rw [Nat.add_sub_cancel' hcover'.1] at hsame
      have := h.access_inj (by omega) (by omega) hpa' hsame
      omega
  · rw [blit, if_neg (by omega), h.rest va' hva']
  · have htrans := h.toImage.translate_congr h' hlook' hentry' hva'
    exact htrans

/-- Storing bytes into a frame that a user reaches from address `va` on. -/
theorem loaded_blit {f : Nat} {m : Mem} {data : List UInt8} (hin : ∀ i < 4096, userAccess m d (va + i) = some (f + i))
    (hlen : data.length ≤ 4096) : Loaded m (blit m f data) d va (va + data.length) := by
  intro a ha
  have hcover : f ≤ a ∧ a < f + data.length := by
    by_contra hout
    exact ha (if_neg hout)
  refine ⟨va + (a - f), by omega, by omega, ?_⟩
  rw [translate_of_access (hin _ (by omega)), Nat.add_sub_cancel' hcover.1]

theorem Loaded.mono {m m' : Mem} {lo' hi' : Nat} (h : Loaded m m' d lo hi) (hlo : lo' ≤ lo) (hhi : hi ≤ hi') :
    Loaded m m' d lo' hi' := by
  intro a ha
  obtain ⟨va, hle, hlt, hpa⟩ := h a ha
  exact ⟨va, by omega, by omega, hpa⟩

theorem blit_eq_overlay (c : Nat → UInt8) (ip : Inode) (va off n : Nat) :
    blit c va (slice ip.byte off n) = overlay c ip va off n := by
  funext a
  by_cases hin : va ≤ a ∧ a < va + n
  · rw [blit_slice_apply _ _ hin.1 hin.2, overlay, if_pos hin]
  · rw [blit, slice_length, overlay, if_neg hin, if_neg hin]

/-- The rounds of `loaduvm` from page `j` on. All pages of the segment are there,
so that the loop ends with the segment loaded or after a short read. -/
theorem Program.loaduvm_loop (ip : Inode) (offset : Nat) (haddr : addr % 4096 = 0) (hle : addr + n ≤ sz) (fuel : Nat) :
    ∀ j s c, Program d sz c s₀ g₀ s g → j ≤ (n + 4095) / 4096 → (n + 4095) / 4096 < fuel + j →
      ∃ r s' c', (loaduvm.loop (P2V d) addr ip offset n fuel (4096 * j)).run s = .ok r s' ∧ Program d sz c' s₀ g₀ s' g ∧
        Loaded s.mem s'.mem d addr (addr + n) ∧
        (ip.size < 2 ^ 32 → (4096 * j < n → offset + 4096 * j < 2 ^ 32) → ¬ r < 0 →
          c' = overlay c ip (addr + 4096 * j) (offset + 4096 * j) (n - 4096 * j)) := by
  induction fuel with
  | zero =>
    intro j s c _ hj hfuel
    omega
  | succ fuel ih =>
    intro j s c h hj hfuel
    have hsz := h.sz_le
    by_cases hlt : 4096 * j < n
    swap
    · refine ⟨0, s, c, ?_, h, fun a ha => absurd rfl ha, fun _ _ _ => ?_⟩
      · rw [loaduvm.loop, if_neg hlt, EStateM.run_pure]
      · rw [show n - 4096 * j = 0 by omega, overlay_zero]
    have haddr' : u32 (addr + 4096 * j) = addr + 4096 * j := Nat.mod_eq_of_lt (by omega)
    have hnext : u32 (4096 * j + PGSIZE) = 4096 * (j + 1) := by
      simp only [u32, PGSIZE]
      omega
    generalize hm : (if n - 4096 * j < PGSIZE then n - 4096 * j else PGSIZE) = m
    have hmeq : m = min 4096 (n - 4096 * j) := by
      rw [← hm]
      split_ifs <;> simp only [PGSIZE] at * <;> omega
    have hne {t : Nat} (ht : IsFrame t) : ¬ P2V t + 4 * ((addr + 4096 * j) / 4096 % 1024) = 0 := by
      have htlt := ht.lt
      have := P2V_ne_zero (show t < 0x80000000 by omega)
      omega
    cases hread : readi ip (u32 (offset + 4096 * j)) m with
    | none =>
      obtain ⟨t, -, ht, -, -, hwalk, -⟩ := h.page (show addr + 4096 * j < sz by omega) (by omega)
      have htlt := ht.lt
      refine ⟨-1, s, c, ?_, h, fun a ha => absurd rfl ha, fun _ _ hr => absurd (by decide) hr⟩
      rw [loaduvm.loop, if_pos hlt, haddr', bind_ok hwalk, if_neg (hne ht), readWord_entry_bind (by omega) (by omega)]
      simp only [hm, hread]
      rfl
    | some data =>
      have hdata := readi_length (by omega) hread
      obtain ⟨t, f, ht, hf, hpage, hwalk, hpte, hin⟩ := h.page (show addr + 4096 * j < sz by omega) (by omega)
      obtain ⟨h', htrans⟩ := h.store hf hpage hin data (by omega) (by omega)
      have htlt := ht.lt
      have hflt := hf.lt
      have hload' := (loaded_blit hin (show data.length ≤ 4096 by omega)).mono (show addr ≤ addr + 4096 * j by omega)
        (show _ ≤ addr + n by omega)
      have hrun : (loaduvm.loop (P2V d) addr ip offset n (fuel + 1) (4096 * j)).run s =
          (if data.length ≠ m then pure (-1) else
            loaduvm.loop (P2V d) addr ip offset n fuel (4096 * (j + 1))).run { s with mem := blit s.mem f data } := by
        rw [loaduvm.loop, if_pos hlt, haddr', bind_ok hwalk, if_neg (hne ht), readWord_entry_bind (by omega) (by omega),
          hpte, hnext]
        simp only [hm, hread]
        rw [writeBytes_bind, hf.phys]
      rw [hrun]
      by_cases hshort : data.length ≠ m
      · rw [if_pos hshort]
        exact ⟨-1, _, _, rfl, h', hload', fun _ _ hr => absurd (by decide) hr⟩
      · rw [if_neg hshort]
        obtain ⟨r, s', c', hrest, h'', hload'', hcont⟩ := ih (j + 1) _ _ h' (by omega) (by omega)
        refine ⟨r, s', c', hrest, h'', fun a ha => ?_, fun hsize hoff hr => ?_⟩
        · by_cases hsame : s'.mem a = blit s.mem f data a
          · exact hload' a (by rwa [← hsame])
          · obtain ⟨va, hlo, hhi, hpa⟩ := hload'' a hsame
            rw [htrans va (by omega)] at hpa
            exact ⟨va, hlo, hhi, hpa⟩
        · have hu : u32 (offset + 4096 * j) = offset + 4096 * j := Nat.mod_eq_of_lt (hoff hlt)
          rw [hu] at hread
          obtain ⟨hend, hslice⟩ := readi_full hsize (by omega) hread (not_not.1 hshort)
          rw [hcont hsize (by omega) hr, hslice, blit_eq_overlay]
          by_cases hlast : n - 4096 * j ≤ 4096
          · rw [show n - 4096 * (j + 1) = 0 by omega, overlay_zero, show m = n - 4096 * j by omega]
          · rw [show 4096 * (j + 1) = 4096 * j + 4096 by omega, show m = 4096 by omega, ← Nat.add_assoc, ← Nat.add_assoc,
              overlay_add, show 4096 + (n - (4096 * j + 4096)) = n - 4096 * j by omega]

/-- `loaduvm` of a segment that lies within the image. -/
theorem Program.loaduvm (h : Program d sz c s₀ g₀ s g) (haddr : addr % 4096 = 0) (hle : addr + n ≤ sz) :
    ∃ r s' c', (xv6.loaduvm (P2V d) addr ip offset n).run s = .ok r s' ∧ Program d sz c' s₀ g₀ s' g ∧
      Loaded s.mem s'.mem d addr (addr + n) ∧
      (ip.size < 2 ^ 32 → offset < 2 ^ 32 → ¬ r < 0 → c' = overlay c ip addr offset n) := by
  have hsz := h.sz_le
  unfold xv6.loaduvm
  rw [if_neg (show ¬ addr % PGSIZE ≠ 0 from fun hne => hne haddr)]
  obtain ⟨r, s', c', hrun, h', hload, hcont⟩ :=
    Program.loaduvm_loop ip offset haddr hle (2 ^ 20 + 1) 0 s c h (by omega) (by omega)
  exact ⟨r, s', c', hrun, h', hload, fun hsize hoff hr => hcont hsize (fun _ => by omega) hr⟩

theorem field_lt (b : List UInt8) (off n : Nat) : field b off n < 2 ^ (8 * n) := by
  induction n with
  | zero => simp [field]
  | succ n ih =>
    have hbyte : (b.getD (off + n) 0).toNat ≤ 255 := Nat.le_of_lt_succ (UInt8.toNat_lt _)
    have hmul := Nat.mul_le_mul_right (2 ^ (8 * n)) hbyte
    have hpow : 2 ^ (8 * (n + 1)) = 256 * 2 ^ (8 * n) := by
      rw [Nat.mul_add, pow_add, Nat.mul_comm]
      rfl
    rw [field] at ih ⊢
    rw [List.range_succ, List.map_append, List.sum_append, List.map_singleton, List.sum_singleton, hpow]
    omega

/-- The header at offset `off` is that of a segment `ph` which `exec` accepts, and the image
has been grown to `sz'` bytes for it. -/
structure exec.Segment (pgdir : Nat) (ip : Inode) (off sz : Nat) (s : Machine) (ph : Proghdr) (sz' : Nat)
    (s' : Machine) : Prop where
  header : ∃ bytes, readi ip off sizeofProghdr = some bytes ∧ bytes.length = sizeofProghdr ∧ ph = Proghdr.ofBytes bytes
  type : ph.type = ELF_PROG_LOAD
  memsz : ph.filesz ≤ ph.memsz
  fits : ph.vaddr ≤ u32 (ph.vaddr + ph.memsz)
  alloc : (allocuvm pgdir sz (u32 (ph.vaddr + ph.memsz))).run s = .ok sz' s'
  ne : sz' ≠ 0
  align : ph.vaddr % PGSIZE = 0

/-- The loop of `exec` over the program headers, started with `n` headers to go at offset
`off`, calls `loaduvm` for the segment `ph` in state `s'`, when the image has `sz'` bytes. -/
inductive exec.Loads (pgdir : Nat) (ip : Inode) : Nat → Nat → Nat → Machine → Proghdr → Nat → Machine → Prop
  | here {n off sz sz' : Nat} {s s' : Machine} {ph : Proghdr} (h : exec.Segment pgdir ip off sz s ph sz' s') :
      Loads pgdir ip (n + 1) off sz s ph sz' s'
  | skip {n off sz sz' : Nat} {bytes : List UInt8} {s s' : Machine} {ph : Proghdr}
      (hread : readi ip off sizeofProghdr = some bytes) (hlen : bytes.length = sizeofProghdr)
      (htype : (Proghdr.ofBytes bytes).type ≠ ELF_PROG_LOAD)
      (hrest : Loads pgdir ip n (u32 (off + sizeofProghdr)) sz s ph sz' s') : Loads pgdir ip (n + 1) off sz s ph sz' s'
  | next {n off sz sz₁ sz' : Nat} {s s₁ s₂ s' : Machine} {ph₁ ph : Proghdr} {r : Int}
      (h : exec.Segment pgdir ip off sz s ph₁ sz₁ s₁)
      (hload : (loaduvm pgdir ph₁.vaddr ip ph₁.off ph₁.filesz).run s₁ = .ok r s₂) (hr : ¬ r < 0)
      (hrest : Loads pgdir ip n (u32 (off + sizeofProghdr)) sz₁ s₂ ph sz' s') : Loads pgdir ip (n + 1) off sz s ph sz' s'

/-- The image reaches to the end of an accepted segment, whatever its place. -/
theorem exec.Segment.program {off sz' : Nat} {ph : Proghdr} (hseg : exec.Segment (P2V d) ip off sz s ph sz' s')
    (h : Program d sz c s₀ g₀ s g) :
    ∃ g', Program d sz' c s₀ g₀ s' g' ∧ sz' = max sz (ph.vaddr + ph.memsz) ∧ ph.vaddr + ph.filesz ≤ sz' := by
  obtain ⟨bytes, -, -, hph⟩ := hseg.header
  have hmem := hseg.memsz
  have hmemsz : ph.memsz < 2 ^ 32 := by
    rw [hph]
    exact field_lt _ _ 4
  have hfits := hseg.fits
  have hend : u32 (ph.vaddr + ph.memsz) = ph.vaddr + ph.memsz := by
    simp only [u32] at hfits ⊢
    omega
  have halloc := hseg.alloc
  rw [hend] at halloc
  rcases h.allocuvm (ph.vaddr + ph.memsz) with ⟨s'', g', hrun, h'⟩ | ⟨s'', g', hrun, -⟩
  · rw [hrun, EStateM.Result.ok.injEq] at halloc
    obtain ⟨rfl, rfl⟩ := halloc
    exact ⟨g', h', rfl, by omega⟩
  · rw [hrun, EStateM.Result.ok.injEq] at halloc
    exact absurd halloc.1.symm hseg.ne

/-- Every call of `loaduvm` finds its segment inside the image. -/
theorem exec.Loads.program {off sz' : Nat} {ph : Proghdr} (hl : exec.Loads (P2V d) ip n off sz s ph sz' s')
    (h : Program d sz c s₀ g₀ s g) :
    ∃ g' c', Program d sz' c' s₀ g₀ s' g' ∧ ph.vaddr % 4096 = 0 ∧ ph.vaddr + ph.filesz ≤ sz' := by
  induction hl generalizing g c with
  | here hseg =>
    obtain ⟨g', h', -, hend⟩ := hseg.program h
    exact ⟨g', c, h', hseg.align, hend⟩
  | skip _ _ _ _ ih => exact ih h
  | next hseg hload _ _ ih =>
    obtain ⟨g₁, h₁, -, hend⟩ := hseg.program h
    obtain ⟨r, s₂, c₂, hrun, h₂, -⟩ := h₁.loaduvm hseg.align hend
    rw [hrun, EStateM.Result.ok.injEq] at hload
    obtain ⟨rfl, rfl⟩ := hload
    exact ih h₂

/-- The loop over the program headers fails and leaves some image, or it ends with the segments
of the program loaded. -/
theorem Program.load (ip : Inode) (n : Nat) : ∀ off sz c s g, Program d sz c s₀ g₀ s g →
    (∃ s' g' sz', (exec.load (P2V d) ip n off sz).run s = .ok none s' ∧ Image d sz' s₀ g₀ s' g') ∨
    ∃ s' g' sz' c', (exec.load (P2V d) ip n off sz).run s = .ok (some sz') s' ∧ Program d sz' c' s₀ g₀ s' g' ∧
      sz' = exec.extent ip n off sz ∧ (ip.size < 2 ^ 32 → c' = exec.contents ip n off c) := by
  induction n with
  | zero =>
    intro off sz c s g h
    exact .inr ⟨s, g, sz, c, rfl, h, rfl, fun _ => rfl⟩
  | succ n ih =>
    intro off sz c s g h
    rw [exec.load, exec.extent, exec.contents]
    cases hread : readi ip off sizeofProghdr with
    | none => exact .inl ⟨s, g, sz, rfl, h.toImage⟩
    | some bytes =>
      simp only []
      generalize hph : Proghdr.ofBytes bytes = ph
      by_cases hlen : bytes.length ≠ sizeofProghdr
      · rw [if_pos hlen]
        exact .inl ⟨s, g, sz, rfl, h.toImage⟩
      rw [if_neg hlen]
      by_cases htype : ph.type ≠ ELF_PROG_LOAD
      · rw [if_pos htype, if_neg htype, if_neg htype]
        exact ih _ _ _ _ _ h
      rw [if_neg htype, if_pos (not_not.1 htype), if_pos (not_not.1 htype)]
      by_cases hmem : ph.memsz < ph.filesz
      · rw [if_pos hmem]
        exact .inl ⟨s, g, sz, rfl, h.toImage⟩
      rw [if_neg hmem]
      by_cases hover : u32 (ph.vaddr + ph.memsz) < ph.vaddr
      · rw [if_pos hover]
        exact .inl ⟨s, g, sz, rfl, h.toImage⟩
      rw [if_neg hover]
      obtain ⟨sz₁, s₁, halloc, sz', g', himage⟩ : ∃ sz₁ s₁,
          (xv6.allocuvm (P2V d) sz (u32 (ph.vaddr + ph.memsz))).run s = .ok sz₁ s₁ ∧ ∃ sz' g', Image d sz' s₀ g₀ s₁ g' := by
        rcases h.toImage.allocuvm (u32 (ph.vaddr + ph.memsz)) with ⟨s₁, g₁, hrun, h₁, -⟩ | ⟨s₁, g₁, hrun, h₁⟩
        · exact ⟨_, s₁, hrun, _, g₁, h₁⟩
        · exact ⟨_, s₁, hrun, _, g₁, h₁⟩
      rw [bind_ok halloc]
      by_cases hz : sz₁ = 0
      · rw [if_pos hz]
        exact .inl ⟨s₁, g', sz', rfl, himage⟩
      rw [if_neg hz]
      by_cases halign : ph.vaddr % PGSIZE ≠ 0
      · rw [if_pos halign]
        exact .inl ⟨s₁, g', sz', rfl, himage⟩
      rw [if_neg halign]
      have hseg : exec.Segment (P2V d) ip off sz s ph sz₁ s₁ :=
        ⟨⟨bytes, hread, not_not.1 hlen, hph.symm⟩, not_not.1 htype, by omega, by omega, halloc, hz, not_not.1 halign⟩
      obtain ⟨g₁, h₁, hsz₁, hend⟩ := hseg.program h
      obtain ⟨r, s₂, c₂, hload, h₂, -, hcont⟩ := h₁.loaduvm hseg.align hend
      rw [bind_ok hload]
      by_cases hr : r < 0
      · rw [if_pos hr]
        exact .inl ⟨s₂, g₁, sz₁, rfl, h₂.toImage⟩
      rw [if_neg hr]
      have hoff : ph.off < 2 ^ 32 := by
        rw [← hph]
        exact field_lt _ _ 4
      rcases ih (u32 (off + sizeofProghdr)) sz₁ c₂ s₂ g₁ h₂ with hfail | ⟨s', g', sz', c', hrun, h', hextent, hcont'⟩
      · exact .inl hfail
      · exact .inr ⟨s', g', sz', c', hrun, h', by rw [hextent, hsz₁], fun hsize => by
          rw [hcont' hsize, hcont hsize hoff hr]⟩

end load

end xv6
