import Xv6.System.GrowExact

open bytes outcome

namespace xv6

/-- What is expected of `copyout`: it meets no missing page table, and it returns -1 or has stored exactly
the bytes where a user reads them. -/
def CopyoutRight (s : Machine) (d va : Nat) (buf : List UInt8) : Prop :=
  NoMissing s d va buf ∧ ∃ r s', (copyout (P2V d) va buf).run s = .ok r s' ∧
    (r = -1 ∨ r = 0 ∧ Stored s.mem s'.mem d va buf)

section

variable {s : Machine} {g : Ghost} {d : Nat} {o : DirOwner}

/-- The software walk agrees with the hardware exactly where a directory entry is there and is not that of a 4MB page
(or the word of its data reads as the entry), and `copyout` is right over every range that keeps to page tables up to the
first address that a user cannot reach. -/
theorem walk_right (hs : Sys s g) (hd : IsFrame d) (hdir : g.own d = .dir o) (hk : KernOK s.mem d) :
    (∀ va < 2 ^ 32, Agrees s d va ↔ Translates s.mem d va) ∧
      ∀ va buf, va < 2 ^ 32 → InTables s.mem d va buf.length → CopyoutRight s d va buf := by
  refine ⟨fun va hva => agrees_iff hs hd hdir hva, fun va buf hva htab => ?_⟩
  obtain ⟨k, s', hrun, hdel⟩ := copyout_loop hd hdir (buf.length + 1) hs hk hva htab (Nat.lt_succ_self _)
  refine ⟨hdel.noMissing, _, s', hrun, ?_⟩
  split_ifs with hall
  · right
    have hstored := hdel.stored
    rw [hall, List.take_length] at hstored
    exact ⟨rfl, hstored⟩
  · exact .inl rfl

end

/-- A process with one base page and one huge page, at the start of which stand the bytes `w`. -/
theorem huge_process (w : List UInt8) (hw : w.length ≤ 4096) : ∃ s g d f, Sys s g ∧ IsFrame d ∧
    g.own d = .dir (.proc 0) ∧ KernOK s.mem d ∧ Layout s.mem d 4096 0x400000 ∧ IsHuge f ∧ entry s.mem d 120 = f + 0x87 ∧
    ∀ i < w.length, s.mem (f + i) = w.getD i 0 := by
  obtain ⟨-, s, g, d, k, -, -, h⟩ := boot_grown
  have hs := h.sound.sys
  have hd := h.holds.toProcDir
  have hlayout := hd.layout
  rw [h.sz, h.hugesz] at hlayout
  obtain ⟨f, hf, hpage, hpde, -⟩ := (hs.hugeAt_user hd.frame hd.role (show 120 < 512 by omega)).resolve_left
    ((hlayout.huge 120 (by omega)).2 (by omega))
  have hsame (x : Nat) (hx : IsFrame x) : SameOn s.mem (blit s.mem f w) x 4096 :=
    blit_sameOn _ (by have := hx.apart_huge hf; omega)
  have hview := hs.view_congr hd.frame hd.role (hsame d hd.frame) fun t _ ht _ => hsame t ht
  have hentry (i : Nat) (hi : i < 1024) : entry (blit s.mem f w) d i = entry s.mem d i :=
    entry_eq_of_sameOn (hsame d hd.frame) hi
  refine ⟨{ s with mem := blit s.mem f w }, g, d, f, hs.congr rfl rfl (fun x hx _ => hsame x hx) fun x hx hfree => ?_,
    hd.frame, hd.role, hd.kern.congr (fun k _ hk => hview.1 k hk) fun i _ hi => hview.2 i hi, hlayout.congr hview.1 hentry,
    hf, (hentry 120 (by omega)).trans hpde, fun i hi => ?_⟩
  · have hne : f ≠ x := by
      rintro rfl
      simp [hpage] at hfree
    exact blit_sameOn _ (by have := hf.apart hx hne; omega)
  · show blit s.mem f w (f + i) = _
    rw [blit, if_pos (by omega), Nat.add_sub_cancel_left]

/-- Three bytes at the start of the memory of the process. -/
theorem walk_right_first : ∃ s d, Agrees s d 0 ∧ CopyoutRight s d 0 [1, 2, 3] := by
  obtain ⟨s, g, d, f, hs, hd, hdir, hk, hlayout, -⟩ := huge_process [] (by decide)
  obtain ⟨hagrees, hcopy⟩ := walk_right hs hd hdir hk
  have htable (va : Nat) (hva : va < 4096) : HasTable s.mem d va := by
    have hpdx : PDX va = 0 := by
      simp only [PDX]
      omega
    have hlook : lookup s.mem d 0 ≠ 0 := (hlayout.base 0 (by omega)).2 (by omega)
    rw [HasTable, hpdx]
    rcases (hs.pde d _ hd hdir 0 (by omega)).shape with h | h | ⟨t, ht, -, h⟩
    · exact absurd (lookup_of_absent (k := 0) h) hlook
    · exact absurd (lookup_of_huge (k := 0) h) hlook
    · have halign := ht.1
      omega
  have hfirst := htable 0 (by omega)
  refine ⟨s, d, (hagrees 0 (by omega)).2 ⟨fun h0 => ?_, fun hps => ?_⟩, hcopy 0 [1, 2, 3] (by omega) fun i hi _ => ?_⟩
  · rw [HasTable, h0] at hfirst
    omega
  · rw [HasTable] at hfirst
    omega
  · have hi : i < 3 := hi
    have hu : u32 (0 + i) = i := by
      simp only [u32]
      omega
    rw [hu]
    exact htable i (by omega)

/-- A process that has 0x107007 as the first word of its huge page. `uva2ka` takes the word for the page table entry of
address 0x1E000000, and `copyout` stores a byte in the page of the kernel at 0x107000 instead of the huge page. And for
address 0x10000000, which has no page table, `copyout` traps. -/
theorem walk_huge_page : ∃ s g d f, Sys s g ∧ IsFrame d ∧ g.own d = .dir (.proc 0) ∧ KernOK s.mem d ∧
    userAccess s.mem d 0x1E000000 = some f ∧ IsHuge f ∧ (uva2ka (P2V d) 0x1E000000).run s = .ok (P2V 0x107000) s ∧
    (copyout (P2V d) 0x1E000000 [1]).run s = .ok 0 { s with mem := blit s.mem 0x107000 [1] } ∧
    ¬ CopyoutRight s d 0x1E000000 [1] ∧ (copyout (P2V d) 0x10000000 [1]).run s = .error (.panic "trap") s := by
  obtain ⟨s, g, d, f, hs, hd, hdir, hk, hlayout, hf, hpde, hword⟩ :=
    huge_process [0x07, 0x70, 0x10, 0x00] (by decide)
  have halign := hf.1
  have hlo := hf.2.1
  have hlt := hf.lt
  have hentry : entry s.mem d (PDX 0x1E000000) = f + 0x87 := hpde
  have haccess : userAccess s.mem d 0x1E000000 = some f := by
    rw [userAccess_huge (by omega) (by omega), hentry, if_pos (by omega), Option.some.injEq]
    omega
  have hdata : entry s.mem f (PTX 0x1E000000) = 0x107007 := by
    have h0 := hword 0 (by decide)
    have h1 := hword 1 (by decide)
    have h2 := hword 2 (by decide)
    have h3 := hword 3 (by decide)
    simp only [entry, load32, PTX, Nat.reduceDiv, Nat.reduceMod, Nat.mul_zero, Nat.add_zero] at *
    rw [h0, h1, h2, h3]
    rfl
  have hwalk := walkpgdir_present (s := s) hd false (show f % 4096 = 0 by omega) (show 0x87 < 4096 by omega) rfl hentry
  have huva : (uva2ka (P2V d) 0x1E000000).run s = .ok (P2V 0x107000) s := by
    rw [uva2ka_of_pte hwalk (by omega), hdata]
    rfl
  have hrun : (copyout (P2V d) 0x1E000000 [1]).run s = .ok 0 { s with mem := blit s.mem 0x107000 [1] } := by
    have hround : PGROUNDDOWN 0x1E000000 = 0x1E000000 := by decide
    rw [copyout, List.length_singleton, copyout.loop, if_pos (by decide), hround, bind_ok huva, if_neg (by decide),
      writeBytes_bind, copyout.loop, if_neg (by decide)]
    rfl
  refine ⟨s, g, d, f, hs, hd, hdir, hk, haccess, hf, huva, hrun, ?_, ?_⟩
  · rintro ⟨-, r, s', hrun', hres⟩
    rw [hrun, EStateM.Result.ok.injEq] at hrun'
    obtain ⟨rfl, rfl⟩ := hrun'
    obtain ⟨pa, hpa, hbyte⟩ := (hres.resolve_left (by decide)).2.bytes 0 (by decide)
    obtain rfl : f = pa := Option.some.inj (haccess.symm.trans hpa)
    have hkept : blit s.mem 0x107000 [1] f = s.mem f := by
      rw [blit]
      exact if_neg (by simp only [List.length_singleton]; omega)
    have hfirst : s.mem f = 7 := hword 0 (by decide)
    rw [show ({ s with mem := blit s.mem 0x107000 [1] } : Machine).mem f = blit s.mem 0x107000 [1] f from rfl, hkept,
      hfirst] at hbyte
    exact absurd hbyte (by decide)
  · have hnone : hugeAt s.mem d 64 = 0 := by
      by_contra hne
      have := (hlayout.huge 64 (by omega)).1 hne
      omega
    have habsent := walkpgdir_absent (s := s) (a := 0x10000000) hd (hlayout.high 64 (by omega) (by omega) hnone)
    have hround : PGROUNDDOWN 0x10000000 = 0x10000000 := by decide
    have htrap : (uva2ka (P2V d) 0x10000000).run s = .error (.panic "trap") s := by
      rw [uva2ka, bind_ok habsent, if_pos rfl]
      rfl
    rw [copyout, List.length_singleton, copyout.loop, if_pos (by decide), hround]
    exact bind_error htrap

end xv6
