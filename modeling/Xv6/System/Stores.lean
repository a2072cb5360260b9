import Xv6.System.HugeGrowth
import Xv6.System.Space

open bytes outcome Function

namespace xv6

section store

variable {s : Machine} {g : Ghost} {p : Fin NPROC} {d va : Nat} {o : DirOwner} {t : Translation}

/-- A store through the user half of directory `d` changes a byte of a page of that directory. -/
theorem store_own (hs : Sys s g) (hd : IsFrame d) (hdir : g.own d = .dir o) (hva : va < 0x80000000)
    (htrans : translate s.mem d va = some t) (v : UInt8) :
    Sys { s with mem := store8 s.mem t.pa v } g ∧ UserStep d (HugeArea d) s g { s with mem := store8 s.mem t.pa v } g ∧
      (∀ k < 2 ^ 20, lookup (store8 s.mem t.pa v) d k = lookup s.mem d k) ∧
      ∀ i < 1024, entry (store8 s.mem t.pa v) d i = entry s.mem d i := by
  obtain ⟨hsame, hhsame⟩ : (∀ x, IsFrame x → (∀ i j, g.own x ≠ .page d i j) → SameOn s.mem (store8 s.mem t.pa v) x 4096) ∧
      ∀ x, IsHuge x → (∀ i, g.hown x ≠ .page d i) → SameOn s.mem (store8 s.mem t.pa v) x 0x400000 := by
    rcases hs.translate_user hd hdir hva with ⟨hnone, -⟩ | ⟨f, fl, hf, hpage, -, -, -, -, hsome⟩ | ⟨f, hf, hpage, -, -, hsome⟩
    · rw [hnone] at htrans
      cases htrans
    · rw [hsome, Option.some.injEq] at htrans
      rw [← htrans]
      refine ⟨fun x hx hr a hlo hhi => if_neg ?_, fun x hx _ a hlo hhi => if_neg ?_⟩
      · have hne : f ≠ x := by
          rintro rfl
          exact hr _ _ hpage
        have := hf.apart hx hne
        simp only []
        omega
      · have := hf.apart_huge hx
        simp only []
        omega
    · rw [hsome, Option.some.injEq] at htrans
      rw [← htrans]
      refine ⟨fun x hx _ a hlo hhi => if_neg ?_, fun x hx hr a hlo hhi => if_neg ?_⟩
      · have := hx.apart_huge hf
        simp only []
        omega
      · have hne : f ≠ x := by
          rintro rfl
          exact hr _ hpage
        have := hf.apart hx hne
        simp only []
        omega
  have hentry (i : Nat) (hi : i < 1024) : entry (store8 s.mem t.pa v) d i = entry s.mem d i :=
    entry_eq_of_sameOn (hsame d hd (by simp [hdir])) hi
  refine ⟨hs.congr rfl rfl (fun x hx hstruct => hsame x hx fun i j h => ?_) fun x hx hfree => ?_,
    ⟨⟨fun _ _ => .inr rfl, fun x hx hout => hsame x hx fun i j h => hout (.inr (.inr (.inr ⟨i, j, h⟩))),
      fun _ _ => .inr rfl, fun x hx hout => hhsame x hx fun i h => hout (.inr ⟨i, h⟩), rfl⟩, rfl, fun i _ hi => hentry i hi⟩,
    (hs.view_congr hd hdir (hsame d hd (by simp [hdir])) fun t i ht htable => hsame t ht (by simp [htable])).1, hentry⟩
  · simp [h, Role.structural] at hstruct
  · exact (hhsame x hx (by simp [hfree])).mono le_rfl (by omega)

/-- The effect of a store to the memory of process `p`. -/
structure Poked (p : Fin NPROC) (s : Machine) (g : Ghost) (s' : Machine) : Prop where
  adjusted : Adjusted p s g s' g
  writable : Writable s' p
  same : s'.proc = s.proc
  cr3 : s'.cr3 = s.cr3

theorem Poked.trans {s' s'' : Machine} (h : Poked p s g s') (h' : Poked p s' g s'') : Poked p s g s'' :=
  ⟨h.adjusted.trans h'.adjusted, h'.writable, h'.same.trans h.same, h'.cr3.trans h.cr3⟩

theorem Sound.store (h : Sound s g) (hlive : (s.proc p).state ≠ .UNUSED) (hw : Writable s p) (hva : va < 0x80000000)
    (htrans : translate s.mem (V2P (s.proc p).pgdir) va = some t) (v : UInt8) :
    Poked p s g { s with mem := store8 s.mem t.pa v } := by
  obtain ⟨d, hd⟩ := (h.proc p).dir hlive
  rw [hd.phys] at htrans
  obtain ⟨hs', hstep, hlook, hentry⟩ := store_own h.sys hd.frame hd.role hva htrans v
  have hflags := (writable_iff h.sys hd).1 hw
  have hsz := hd.low h.sys
  obtain ⟨hadj, hw'⟩ := h.resize_writable hlive hd hstep hs' (hd.layout.congr hlook hentry) (fun k hk => by
    rw [hlook k (by omega)]
    exact hflags k hk) rfl (fun _ _ => rfl) rfl
  exact ⟨hadj, hw', rfl, rfl⟩

/-- What user code stores ends up in its own memory, if anywhere. -/
theorem userStore_spec (h : Sound s g) (hlive : (s.proc p).state ≠ .UNUSED) (hw : Writable s p)
    (hcr3 : s.cr3 = V2P (s.proc p).pgdir) (hva : va < 2 ^ 32) (v : UInt8) :
    ∃ s', (userStore va v).run s = .ok () s' ∧ Poked p s g s' := by
  obtain ⟨d, hd⟩ := (h.proc p).dir hlive
  have hkern : s.cr3 = d := hcr3.trans hd.phys
  have hsame : Poked p s g s := ⟨.refl h, hw, rfl, rfl⟩
  cases htrans : translate s.mem s.cr3 va with
  | none =>
    refine ⟨s, ?_, hsame⟩
    simp only [userStore, EStateM.run_modify, htrans]
  | some t =>
    by_cases hok : (t.writable && t.user) = true
    swap
    · refine ⟨s, ?_, hsame⟩
      simp only [userStore, EStateM.run_modify, htrans, if_neg hok]
    have hlow : va < 0x80000000 := by
      by_contra hhigh
      have hnone := hd.kern.userAccess_eq_none h.sys hd.frame hd.role (by omega) hva
      rw [userAccess, ← hkern, htrans] at hnone
      simp_all
    refine ⟨_, ?_, h.store hlive hw hlow (hcr3 ▸ htrans) v⟩
    simp only [userStore, EStateM.run_modify, htrans, if_pos hok]

/-- The state in which the kernel handles a call of process `p`. -/
structure Serving (p : Fin NPROC) (s : Machine) (g : Ghost) : Prop where
  sound : Sound s g
  live : (s.proc p).state ≠ .UNUSED
  writable : Writable s p
  cr3 : s.cr3 = V2P (s.proc p).pgdir

theorem Serving.poked {s' : Machine} (h : Serving p s g) (hp : Poked p s g s') : Serving p s' g :=
  ⟨hp.adjusted.sound, by rw [hp.same]; exact h.live, hp.writable, by rw [hp.cr3, hp.same, h.cr3]⟩

theorem writeUserByte_spec (h : Serving p s g) (hva : va < (s.proc p).sz) (v : UInt8) :
    ∃ s', (writeUserByte va v).run s = .ok () s' ∧ Poked p s g s' := by
  obtain ⟨d, hd⟩ := (h.sound.proc p).dir h.live
  have hsz := hd.low h.sound.sys
  obtain ⟨t, ht, htw⟩ := h.writable va hva
  refine ⟨_, ?_, h.sound.store h.live h.writable (by omega) ht v⟩
  rw [← h.cr3] at ht
  unfold writeUserByte
  rw [get_bind]
  simp only [ht, htw, if_true]
  rfl

theorem writeUserWord_spec (h : Serving p s g) (hva : va + 4 ≤ (s.proc p).sz) (v : Nat) :
    ∃ s', (writeUserWord va v).run s = .ok () s' ∧ Poked p s g s' := by
  obtain ⟨d, hd⟩ := (h.sound.proc p).dir h.live
  have hsz := hd.low h.sound.sys
  have hu (i : Nat) (hi : i < 4) : u32 (va + i) = va + i := Nat.mod_eq_of_lt (by omega)
  obtain ⟨s₁, hrun₁, hp₁⟩ := writeUserByte_spec h (show va < (s.proc p).sz by omega) (UInt8.ofNat v)
  obtain ⟨s₂, hrun₂, hp₂⟩ := writeUserByte_spec (h.poked hp₁) (show va + 1 < (s₁.proc p).sz by rw [hp₁.same]; omega)
    (UInt8.ofNat (v / 2 ^ 8))
  have hp₂ := hp₁.trans hp₂
  obtain ⟨s₃, hrun₃, hp₃⟩ := writeUserByte_spec (h.poked hp₂) (show va + 2 < (s₂.proc p).sz by rw [hp₂.same]; omega)
    (UInt8.ofNat (v / 2 ^ 16))
  have hp₃ := hp₂.trans hp₃
  obtain ⟨s₄, hrun₄, hp₄⟩ := writeUserByte_spec (h.poked hp₃) (show va + 3 < (s₃.proc p).sz by rw [hp₃.same]; omega)
    (UInt8.ofNat (v / 2 ^ 24))
  refine ⟨s₄, ?_, hp₃.trans hp₄⟩
  unfold writeUserWord
  rw [bind_ok hrun₁, hu 1 (by omega), bind_ok hrun₂, hu 2 (by omega), bind_ok hrun₃, hu 3 (by omega), hrun₄]

theorem readUserByte_spec (h : Serving p s g) (hva : va < (s.proc p).sz) : ∃ b, (readUserByte va).run s = .ok b s := by
  obtain ⟨t, ht, -⟩ := h.writable va hva
  rw [← h.cr3] at ht
  have hphys : (userPhys va).run s = .ok t.pa s := by
    unfold userPhys
    rw [get_bind]
    simp only [ht]
    rfl
  unfold readUserByte
  rw [bind_ok hphys]
  exact ⟨_, rfl⟩

theorem readUserWord_spec (h : Serving p s g) (hva : va + 4 ≤ (s.proc p).sz) :
    ∃ w < 2 ^ 32, (readUserWord va).run s = .ok w s := by
  obtain ⟨d, hd⟩ := (h.sound.proc p).dir h.live
  have hsz := hd.low h.sound.sys
  have hu (i : Nat) (hi : i < 4) : u32 (va + i) = va + i := Nat.mod_eq_of_lt (by omega)
  obtain ⟨b₀, hrun₀⟩ := readUserByte_spec h (show va < (s.proc p).sz by omega)
  obtain ⟨b₁, hrun₁⟩ := readUserByte_spec h (show va + 1 < (s.proc p).sz by omega)
  obtain ⟨b₂, hrun₂⟩ := readUserByte_spec h (show va + 2 < (s.proc p).sz by omega)
  obtain ⟨b₃, hrun₃⟩ := readUserByte_spec h (show va + 3 < (s.proc p).sz by omega)
  unfold readUserWord
  rw [bind_ok hrun₀, hu 1 (by omega), bind_ok hrun₁, hu 2 (by omega), bind_ok hrun₂, hu 3 (by omega), bind_ok hrun₃]
  have h₀ := b₀.toNat_lt
  have h₁ := b₁.toNat_lt
  have h₂ := b₂.toNat_lt
  have h₃ := b₃.toNat_lt
  exact ⟨_, by omega, rfl⟩

theorem fetchint_spec (h : Serving p s g) (addr : Nat) :
    ∃ r, (fetchint p addr).run s = .ok r s ∧ ∀ w, r = some w → w < 2 ^ 32 := by
  obtain ⟨d, hd⟩ := (h.sound.proc p).dir h.live
  have hsz := hd.low h.sound.sys
  unfold fetchint
  rw [get_bind]
  split_ifs with hout
  · exact ⟨none, rfl, by simp⟩
  · rw [not_or, not_le, not_lt, u32, Nat.mod_eq_of_lt (by omega)] at hout
    obtain ⟨w, hlt, hrun⟩ := readUserWord_spec h hout.2
    rw [bind_ok hrun]
    exact ⟨some w, rfl, fun v hv => Option.some.inj hv ▸ hlt⟩

theorem argint_spec (h : Serving p s g) (n : Nat) :
    ∃ r, (argint p n).run s = .ok r s ∧ ∀ w, r = some w → w < 2 ^ 32 := by
  obtain ⟨r, hrun, hlt⟩ := fetchint_spec h (u32 ((s.proc p).tf.esp + 4 + 4 * n))
  refine ⟨r, ?_, hlt⟩
  unfold argint
  rw [get_bind, hrun]

/-- A pointer that `argptr` accepts lies with its block below the size of the process. -/
theorem argptr_spec (h : Serving p s g) (n : Nat) {size : Int} (hlo : 0 ≤ size) (hhi : size < 2 ^ 31) :
    ∃ r, (argptr p n size).run s = .ok r s ∧ ∀ i, r = some i → i + size ≤ (s.proc p).sz := by
  obtain ⟨d, hd⟩ := (h.sound.proc p).dir h.live
  have hsz := hd.low h.sound.sys
  obtain ⟨a, hint, -⟩ := argint_spec h n
  unfold argptr
  rw [bind_ok hint]
  cases a with
  | none => exact ⟨none, rfl, by simp⟩
  | some i =>
    simp only []
    rw [get_bind]
    split_ifs with hout
    · exact ⟨none, rfl, by simp⟩
    · refine ⟨some i, rfl, fun j hj => ?_⟩
      obtain rfl := Option.some.inj hj
      rw [not_or, not_or, not_le, not_lt] at hout
      have hadd := addInt_eq (a := i) (n := size) (by omega) (by omega)
      omega

theorem Serving.calm {s' : Machine} {g' : Ghost} (h : Serving p s g) (hcalm : Calm s g s' g') : Serving p s' g' where
  sound := hcalm.sound
  live := by
    rw [(hcalm.slot p).state]
    exact h.live
  writable := (hcalm.kept (A := fun _ => False)).writable h.sound id h.live h.writable
  cr3 := by rw [hcalm.cr3, (hcalm.slot p).pgdir, h.cr3]

/-- `sys_pipe` gives its process both ends of a new pipe, or leaves the files as they were. -/
theorem sys_pipe_spec {e : Fin NFILE → Nat} (h : Serving p s g) (hopen : (s.proc p).state ≠ .ZOMBIE) (hc : Counted s e) :
    ∃ r s' g', (sys_pipe p).run s = .ok r s' ∧ Kept (· = p) s g s' g' ∧ Saved g g' ∧ Counted s' e ∧ Serving p s' g' ∧
      SameSlot (s.proc p) (s'.proc p) := by
  -- Every way out but the last one ends in a state that differs in the files alone.
  have hdone {r : Int} {s' : Machine} {g' : Ghost} (hcalm : Calm s g s' g') (hc' : Counted s' e) :
      ∃ r' s'' g'', (pure r : KernelM Int).run s' = .ok r' s'' ∧ Kept (· = p) s g s'' g'' ∧ Saved g g'' ∧ Counted s'' e ∧
        Serving p s'' g'' ∧ SameSlot (s.proc p) (s''.proc p) :=
    ⟨r, s', g', rfl, hcalm.kept, hcalm.saved, hc', h.calm hcalm, hcalm.slot p⟩
  obtain ⟨fd, hfd, hin⟩ := argptr_spec h 0 (show (0 : Int) ≤ 8 by omega) (by omega)
  unfold sys_pipe
  rw [bind_ok hfd]
  cases fd with
  | none => exact hdone (.refl h.sound) hc
  | some fd =>
    have hin := hin fd rfl
    simp only []
    rcases pipealloc_spec h.sound hc with ⟨s₁, g₁, hrun, ht⟩ | ⟨rf, wf, s₁, g₁, hrun, ht⟩
    · rw [bind_ok hrun]
      exact hdone ht.toCalm ht.counted
    rw [bind_ok hrun]
    simp only []
    have hstate (q : Fin NPROC) : (s₁.proc q).state = (s.proc q).state := by rw [ht.proc]
    rcases fdalloc_run s₁ p rf with hrun₁ | ⟨fd0, hfd0, hrun₁⟩
    · obtain ⟨s₂, g₂, hclose₂, ht₂⟩ := fileclose_spec ht.sound ht.counted
      obtain ⟨s₃, g₃, hclose₃, ht₃⟩ := fileclose_spec ht₂.sound ht₂.counted
      rw [bind_ok hrun₁]
      simp only []
      rw [bind_ok hclose₂, bind_ok hclose₃]
      exact hdone ((ht.trans ht₂).trans ht₃).toCalm ht₃.counted
    rw [bind_ok hrun₁]
    simp only []
    have hcalm₁ := ht.sound.setFile p fd0 (some rf)
    have hslot₁ := setFile_proc s₁ p fd0 (some rf) p
    have hc₁ := ht.counted.take ⟨hstate p ▸ h.live, hstate p ▸ hopen⟩ hfd0
    rcases fdalloc_run (s₁.setFile p fd0 (some rf)) p wf with hrun₂ | ⟨fd1, hfd1, hrun₂⟩
    · rw [bind_ok hrun₂]
      simp only []
      have hset : ((s₁.setFile p fd0 (some rf)).proc p).ofile fd0 = some rf := by simp [Machine.setFile]
      have hcalm₂ := hcalm₁.sound.setFile p fd0 none
      obtain ⟨s₃, g₃, hclose₃, ht₃⟩ := fileclose_spec hcalm₂.sound (hc₁.drop hset)
      obtain ⟨s₄, g₄, hclose₄, ht₄⟩ := fileclose_spec ht₃.sound ht₃.counted
      rw [bind_ok (updateProc_setFile _ p fd0 none), bind_ok hclose₃, bind_ok hclose₄]
      exact hdone (((ht.toCalm.trans hcalm₁).trans hcalm₂).trans (ht₃.trans ht₄).toCalm) ht₄.counted
    rw [bind_ok hrun₂]
    simp only []
    have hcalm₂ := (ht.toCalm.trans hcalm₁).trans (hcalm₁.sound.setFile p fd1 (some wf))
    have hc₂ := hc₁.take ⟨hslot₁.state ▸ hstate p ▸ h.live, hslot₁.state ▸ hstate p ▸ hopen⟩ hfd1
    have hserve := h.calm hcalm₂
    have hsz := (hcalm₂.slot p).sz
    obtain ⟨d, hd⟩ := (h.sound.proc p).dir h.live
    have hlow := hd.low h.sound.sys
    obtain ⟨s₃, hstore₃, hp₃⟩ := writeUserWord_spec hserve (show fd + 4 ≤ _ by rw [hsz]; omega) fd0
    obtain ⟨s₄, hstore₄, hp₄⟩ := writeUserWord_spec (hserve.poked hp₃) (show fd + 4 + 4 ≤ _ by rw [hp₃.same, hsz]; omega) fd1
    have hp := hp₃.trans hp₄
    rw [bind_ok hstore₃, u32, Nat.mod_eq_of_lt (show fd + 4 < 2 ^ 32 by omega), bind_ok hstore₄]
    refine ⟨0, s₄, g₁, rfl, hcalm₂.kept.trans hp.adjusted.toKept, hcalm₂.saved.trans hp.adjusted.saved,
      hp.adjusted.counted hc₂, hserve.poked hp, ?_⟩
    rw [hp.same]
    exact hcalm₂.slot p

theorem sys_procpgdirinfo_spec (h : Serving p s g) : ∃ r s', (sys_procpgdirinfo p).run s = .ok r s' ∧ Poked p s g s' := by
  obtain ⟨d, hd⟩ := (h.sound.proc p).dir h.live
  have hlow := hd.low h.sound.sys
  obtain ⟨buf, hbuf, hin⟩ := argptr_spec h 0 (show (0 : Int) ≤ 8 by omega) (by omega)
  unfold sys_procpgdirinfo
  rw [bind_ok hbuf]
  cases buf with
  | none => exact ⟨-1, s, rfl, .refl h.sound, h.writable, rfl, rfl⟩
  | some buf =>
    have hin := hin buf rfl
    simp only []
    obtain ⟨base, hcount⟩ := procpgdirinfo_count (s := s) hd.frame (List.range NPDENTRIES)
      (fun i hi => List.mem_range.1 hi) 0 0
    obtain ⟨s₁, hstore₁, hp₁⟩ := writeUserWord_spec h (show buf + 4 ≤ _ by omega) base
    obtain ⟨s₂, hstore₂, hp₂⟩ := writeUserWord_spec (h.poked hp₁) (show buf + 4 + 4 ≤ _ by rw [hp₁.same]; omega)
      (0 + (List.range NPDENTRIES).countP fun i => userHuge (entry s.mem d i))
    refine ⟨0, s₂, ?_, hp₁.trans hp₂⟩
    rw [get_bind, hd.pgdir, bind_ok hcount]
    simp only []
    rw [bind_ok hstore₁, u32, Nat.mod_eq_of_lt (show buf + 4 < 2 ^ 32 by omega), bind_ok hstore₂, EStateM.run_pure]

end store

end xv6
