import Xv6.Pipe

open Function run

namespace xv6.Pipe

/-- Why a process would sleep on `c`. -/
def blocked (pipe : Pipe) : Chan → Prop
  | .nread => pipe.empty ∧ pipe.writeopen
  | .nwrite => pipe.full ∧ pipe.readopen

/-- The places at which a process holds the lock of the pipe. -/
def Pc.locked : Pc → Prop
  | .user | .wAcquire _ | .wSlept .. | .wWoken .. | .rAcquire _ | .rSlept _ | .rWoken _ | .cAcquire _ => False
  | _ => True

/-- The channel of a process in the middle of `sleep`. -/
def Pc.slept : Pc → Option Chan
  | .wSlept .. => some .nwrite
  | .rSlept _ => some .nread
  | _ => none

/-- The places from which a process goes on to `wakeup` before it releases the
lock, unless it is a writer that returns early. -/
def Pc.wakes : Pc → Chan → Prop
  | .wFor .., .nread | .wWhile .., .nread | .wCheck .., .nread | .wWakeup .., .nread | .wDone _, .nread => True
  | .rFor .., .nwrite | .rDone _, .nwrite => True
  | .cWakeup true, .nread | .cWakeup false, .nwrite => True
  | _, _ => False

/-- What the tests made so far under the lock have shown. -/
def Pc.knows (pipe : Pipe) : Pc → Prop
  | .wCheck .. => pipe.full
  | .wWakeup .. | .wSleep .. => pipe.blocked .nwrite
  | .rCheck _ | .rSleep _ => pipe.blocked .nread
  | _ => True

variable {P : Type} {s s' : Sys P} {p q : P} {c : Chan} {pc : Pc}

/-- Process `p` sleeps on `c` or is about to. -/
def Sys.waits (s : Sys P) (p : P) (c : Chan) : Prop := s.chan p = some c ∨ (s.pc p).slept = some c

/-- Whoever sleeps has a reason to, or the holder of the lock will wake them. -/
def Sys.Waking (s : Sys P) : Prop :=
  ∀ p c, s.waits p c → s.pipe.blocked c ∨ ∃ q, s.lock = some q ∧ (s.pc q).wakes c

/-- The invariant of a pipe and its users. -/
structure Inv (s : Sys P) : Prop where
  lock : ∀ p, s.lock = some p ↔ (s.pc p).locked
  ptable : ∀ p, (s.pc p).slept.isSome → s.ptable = some p
  knows : ∀ p, (s.pc p).knows s.pipe
  waking : s.Waking

theorem Pc.knows_of_not_locked {pipe : Pipe} (h : ¬ pc.locked) : pc.knows pipe := by
  cases pc <;> simp_all [Pc.knows, Pc.locked]

/-- A writer that returns early, its byte not stored. -/
def Early (s : Sys P) (p : P) : Prop :=
  ∃ n b addr, s.pc p = .wCheck n b addr ∧ (s.pipe.readopen = false ∨ s.killed p)

/-- A writer may return early only when no reader sleeps. -/
def Reported (s : Sys P) (p : P) : Prop := Early s p → ∀ q, ¬ s.waits q .nread

theorem Inv.of_allocated (h : Allocated s) : Inv s := by
  obtain ⟨data, killed, rfl⟩ := h
  refine ⟨fun p => ?_, fun p hp => ?_, fun p => trivial, fun p c hw => ?_⟩
  · simp [pipealloc, Pc.locked]
  · simp [pipealloc, Pc.slept] at hp
  · simp [Sys.waits, pipealloc, Pc.slept] at hw

variable [DecidableEq P]

@[simp, grind =] theorem pc_goto : (s.goto p pc).pc q = if q = p then pc else s.pc q := update_apply ..

/-- What every action of `p` has in common: the other processes stay where they
are, and the pipe changes under the lock only. -/
theorem Inv.move (h : Inv s) (p : P) (pc : Pc) (hpc : ∀ q, s'.pc q = if q = p then pc else s.pc q) (hlock : s'.lock = some p ↔ pc.locked)
    (hlocks : ∀ q, q ≠ p → (s'.lock = some q ↔ s.lock = some q)) (hptable : pc.slept.isSome → s'.ptable = some p)
    (hptables : ∀ q, q ≠ p → s.ptable = some q → s'.ptable = some q)
    (hpipe : s'.pipe = s.pipe ∨ (s.pc p).locked) (hknows : pc.knows s'.pipe) (hwaking : s'.Waking) : Inv s' := by
  obtain ⟨hheld, htable, hknown, -⟩ := h
  refine ⟨by grind, by grind, fun q => ?_, hwaking⟩
  rcases hpipe with hsame | hheld'
  · grind
  · -- Only `p` holds the lock, so another process has tested nothing.
    have hunlocked (hq : q ≠ p) : ¬ (s.pc q).locked := by grind
    by_cases hq : q = p
    · grind
    · rw [hpc, if_neg hq]
      exact Pc.knows_of_not_locked (hunlocked hq)

theorem Pc.slept_eq_none (h : pc.locked) : pc.slept = none := by
  cases pc <;> simp_all [Pc.locked, Pc.slept]

theorem waits_goto (hw : s'.waits q c) (hpc : ∀ q, s'.pc q = if q = p then pc else s.pc q) (hnew : pc.slept = none)
    (hchan : s'.chan q = some c → s.chan q = some c) : s.waits q c := by
  unfold Sys.waits at hw ⊢
  grind

/-- An action under the lock, after which those who wait still have a reason to or will be woken. -/
theorem Inv.under (h : Inv s) (hpc : ∀ q, s'.pc q = if q = p then pc else s.pc q) (hold : (s.pc p).locked) (hnew : pc.locked)
    (hlock : s'.lock = s.lock) (hptable : s'.ptable = s.ptable) (hchan : s'.chan = s.chan)
    (hknows : pc.knows s'.pipe)
    (hwaits : ∀ q c, s.waits q c → s.pipe.blocked c ∨ (s.pc p).wakes c → s'.pipe.blocked c ∨ pc.wakes c) :
    Inv s' := by
  have hp := (h.lock p).2 hold
  refine h.move p pc hpc (by grind) (by grind) (by simp [Pc.slept_eq_none hnew]) (by grind) (.inr hold) hknows
    fun q c hw => ?_
  have hw' := waits_goto hw hpc (Pc.slept_eq_none hnew) (by simp [hchan])
  have hwas : s.pipe.blocked c ∨ (s.pc p).wakes c := (h.waking q c hw').imp id (by grind)
  exact (hwaits q c hw' hwas).imp id fun hwakes => ⟨p, by grind⟩

theorem Inv.acquire (h : Inv s) (hexec : acquire s p pc = some s') (hnew : pc.locked) (hknows : pc.knows s.pipe) :
    Inv s' := by
  unfold Pipe.acquire at hexec
  split_ifs at hexec with hfree
  cases hexec
  refine h.move p pc (fun _ => pc_goto) (iff_of_true rfl hnew) (fun q hq => ?_) (by simp [Pc.slept_eq_none hnew])
    (fun q _ hq => hq) (.inl rfl) hknows fun q c hw => .inl ?_
  · simp [Sys.goto, hfree, hq.symm]
  · refine (h.waking q c (waits_goto hw (fun _ => pc_goto) (Pc.slept_eq_none hnew) id)).resolve_right ?_
    simp [hfree]

theorem Inv.release (h : Inv s) (hold : (s.pc p).locked) (hquiet : ∀ c, ¬ (s.pc p).wakes c) :
    Inv (release s p .user) := by
  have hp := (h.lock p).2 hold
  refine h.move p .user (fun _ => pc_goto) (by simp [Pipe.release, Sys.goto, Pc.locked]) (fun q hq => ?_)
    (by simp [Pc.slept]) (fun q _ hq => hq) (.inl rfl) trivial fun q c hw => .inl ?_
  · simp [Pipe.release, Sys.goto, hp, hq.symm]
  · exact (h.waking q c (waits_goto hw (fun _ => pc_goto) rfl id)).resolve_right (by grind)

theorem Inv.wakeup (h : Inv s) (hexec : wakeup s p c pc = some s') (hold : (s.pc p).locked) (hnew : pc.locked)
    (honly : ∀ c', (s.pc p).wakes c' → c' = c) (hknows : pc.knows s.pipe) : Inv s' := by
  unfold Pipe.wakeup at hexec
  split_ifs at hexec with hfree
  cases hexec
  have hp := (h.lock p).2 hold
  have hslept := Pc.slept_eq_none hnew
  refine h.move p pc (fun _ => pc_goto) (iff_of_true hp hnew) (fun q _ => Iff.rfl) (by simp [hslept]) (fun q _ hq => hq)
    (.inl rfl) hknows fun q c' hw => .inl ?_
  have hchan (hq : (s.wakeup c).chan q = some c') : s.chan q = some c' ∧ c' ≠ c := by
    grind [Sys.wakeup]
  refine (h.waking q c' (waits_goto hw (fun _ => pc_goto) hslept fun hq => (hchan hq).1)).resolve_right ?_
  -- Nobody is in the middle of `sleep`, since the lock of the process table is free.
  have hnot : ((s.goto p pc).pc q).slept = none := by
    have htable := h.ptable q
    rw [pc_goto]
    split_ifs with hqp
    · exact hslept
    · simpa [hfree] using htable
  have hne := (hchan (hw.resolve_right fun hq => by cases hnot.symm.trans hq)).2
  grind

theorem Inv.sleep (h : Inv s) (hexec : sleep s p pc = some s') (hold : (s.pc p).locked)
    (hquiet : ∀ c, ¬ (s.pc p).wakes c) (hnew : pc.slept = some c) (hblocked : s.pipe.blocked c) : Inv s' := by
  unfold Pipe.sleep at hexec
  split_ifs at hexec with hfree
  cases hexec
  have hp := (h.lock p).2 hold
  have hunlocked : ¬ pc.locked := fun hl => by simp [Pc.slept_eq_none hl] at hnew
  refine h.move p pc (fun _ => pc_goto) (by simp [Sys.goto, hunlocked]) (fun q hq => ?_) (fun _ => rfl)
    (by simp [hfree]) (.inl rfl) (Pc.knows_of_not_locked hunlocked) fun q c' hw => .inl ?_
  · simp [Sys.goto, hp, hq.symm]
  · have hw' : s.waits q c' ∨ c' = c := by
      rcases hw with hw | hw
      · exact .inl (.inl hw)
      · grind [Sys.waits]
    rcases hw' with hw' | rfl
    · exact (h.waking q c' hw').resolve_right (by grind)
    · exact hblocked

theorem Inv.sched (h : Inv s) (hold : (s.pc p).slept = some c) (hunlocked : ¬ pc.locked) (hnew : pc.slept = none) :
    Inv (sched s p c pc) := by
  have htable := h.ptable p (by simp [hold])
  have hunheld : ¬ (s.pc p).locked := fun hl => by simp [Pc.slept_eq_none hl] at hold
  have hlock := h.lock
  refine h.move p pc (fun _ => pc_goto) (iff_of_false (fun hp => hunheld ((hlock p).1 hp)) hunlocked) (fun q _ => Iff.rfl)
    (by simp [hnew]) (by grind) (.inl rfl) (Pc.knows_of_not_locked hunlocked) fun q c' hw => ?_
  have hw' : s.waits q c' := by
    simp only [Sys.waits, Pipe.sched, Sys.goto, update_apply] at hw ⊢
    grind
  exact (h.waking q c' hw').imp id fun ⟨r, hr, hwakes⟩ => ⟨r, hr, by simp only [Pipe.sched, pc_goto]; grind⟩

/-- Going on under the lock without touching the pipe. -/
theorem Inv.goto (h : Inv s) (hold : (s.pc p).locked) (hnew : pc.locked) (hknows : pc.knows s.pipe)
    (hwakes : ∀ c, (s.pc p).wakes c → pc.wakes c) : Inv (s.goto p pc) :=
  h.under (fun _ => pc_goto) hold hnew rfl rfl rfl hknows fun _ c _ hwas => hwas.imp id (hwakes c)

/-- Every action keeps the invariant, provided a writer that returns early leaves no reader asleep. -/
theorem Inv.exec (h : Inv s) (hreported : Reported s p) (hexec : exec s p = some s') : Inv s' := by
  have hk := h.knows p
  revert hexec
  fun_cases Pipe.exec s p <;> intro hexec
  case case1 => cases hexec
  case case2 | case12 | case15 | case22 | case27 => exact h.acquire hexec trivial trivial
  case case9 n b addr hpc =>
    rw [hpc] at hk
    exact h.wakeup hexec (by simp [hpc, Pc.locked]) trivial (fun c hw => by cases c <;> simp_all [Pc.wakes]) hk
  case case13 hpc | case25 hpc =>
    exact h.wakeup hexec (by simp [hpc, Pc.locked]) trivial (fun c hw => by cases c <;> simp_all [Pc.wakes]) trivial
  case case29 writable hpc =>
    refine h.wakeup hexec (by simp [hpc, Pc.locked]) trivial (fun c hw => ?_) trivial
    cases c <;> cases writable <;> simp_all [Pc.wakes]
  case case10 hpc | case20 hpc =>
    rw [hpc] at hk
    exact h.sleep hexec (by simp [hpc, Pc.locked]) (fun c => by cases c <;> simp [hpc, Pc.wakes]) rfl hk
  all_goals
    cases hexec
  case case11 hpc | case21 hpc => exact h.sched (by simp [hpc, Pc.slept]) (by simp [Pc.locked]) rfl
  case case14 hpc | case26 hpc | case30 hpc =>
    exact h.release (by simp [hpc, Pc.locked]) fun c => by cases c <;> simp [hpc, Pc.wakes]
  case case6 n b addr hpc hfull =>
    refine h.under (p := p) (fun _ => pc_goto) (by simp [hpc, Pc.locked]) trivial rfl rfl rfl trivial fun q c hw hwas => ?_
    cases c with
    | nread => exact .inr trivial
    | nwrite => simp [hpc, Pc.wakes, blocked, hfull] at hwas
  case case7 n b addr hpc hearly =>
    have hnone := hreported ⟨n, b, addr, hpc, hearly⟩
    refine h.under (p := p) (fun _ => pc_goto) (by simp [hpc, Pc.locked]) trivial rfl rfl rfl trivial fun q c hw hwas => ?_
    cases c with
    | nread => exact absurd hw (hnone q)
    | nwrite => exact hwas.imp id (by simp [hpc, Pc.wakes])
  case case8 n b addr hpc hearly =>
    rw [hpc] at hk
    exact h.goto (by simp [hpc, Pc.locked]) trivial ⟨hk, by simp_all⟩ fun c hw => by cases c <;> simp_all [Pc.wakes]
  case case19 n hpc hkilled =>
    rw [hpc] at hk
    exact h.goto (by simp [hpc, Pc.locked]) trivial hk fun c hw => by cases c <;> simp_all [Pc.wakes]
  case case23 n got hpc hmore =>
    refine h.under (p := p) (fun _ => pc_goto) (by simp [hpc, Pc.locked]) trivial rfl rfl rfl trivial fun q c hw hwas => ?_
    cases c with
    | nread => simp [hpc, Pc.wakes, blocked, hmore.2] at hwas
    | nwrite => exact .inr trivial
  case case28 writable hpc =>
    refine h.under (p := p) (fun _ => pc_goto) (by simp [hpc, Pc.locked]) trivial rfl rfl rfl trivial fun q c hw hwas => ?_
    cases c <;> cases writable <;> simp_all [Pc.wakes, blocked, close, Sys.goto, empty, full]
  -- The others go on under the lock and leave the pipe as it is.
  all_goals
    rename_i hpc _
    exact h.goto (by simp_all [Pc.locked]) trivial (by first | assumption | trivial) fun c hw => by
      cases c <;> simp_all [Pc.wakes]

theorem Inv.kill (h : Inv s) : Inv (kill s p) where
  lock := h.lock
  ptable := h.ptable
  knows := h.knows
  waking q c hw := by
    refine h.waking q c (hw.imp (fun hchan => ?_) id)
    simp only [Pipe.kill, update_apply] at hchan
    split_ifs at hchan
    exact hchan

theorem Inv.call (h : Inv s) (huser : s.pc p = .user) (hcall : pc.isCall) : Inv (s.goto p pc) := by
  have hpc : ¬ pc.locked ∧ pc.slept = none := by
    cases pc <;> simp_all [Pc.isCall, Pc.locked, Pc.slept]
  have hp : s.lock ≠ some p := fun hp => by simpa [huser, Pc.locked] using (h.lock p).1 hp
  refine h.move p pc (fun _ => pc_goto) (iff_of_false hp hpc.1) (fun q _ => Iff.rfl) (by simp [hpc.2])
    (fun q _ hq => hq) (.inl rfl) (Pc.knows_of_not_locked hpc.1) fun q c hw => ?_
  exact (h.waking q c (waits_goto hw (fun _ => pc_goto) hpc.2 id)).imp id fun ⟨r, hr, hwakes⟩ => ⟨r, hr, by grind⟩

theorem Inv.step (h : Inv s) (hst : Step Reported s s') : Inv s' := by
  cases hst with
  | call p pc huser hcall => exact h.call huser hcall
  | exec p _ hreported hexec => exact h.exec hreported hexec
  | kill p _ => exact h.kill

/-- In every run in which a writer returns early only when no reader sleeps, a
process sleeps at a free pipe only while it has a reason to. -/
theorem no_lost_wakeup (h : Reachable Allocated (Step Reported) s) (hfree : s.lock = none) (p : P) :
    (s.chan p = some .nread → s.pipe.nread = s.pipe.nwrite ∧ s.pipe.writeopen) ∧
    (s.chan p = some .nwrite → s.pipe.nwrite = s.pipe.nread + 512 ∧ s.pipe.readopen) := by
  have hi : Inv s := h.inv (fun _ => Inv.of_allocated) fun _ _ hi hst => hi.step hst
  have hblocked (c : Chan) (hc : s.chan p = some c) : s.pipe.blocked c := by
    refine (hi.waking p c (.inl hc)).resolve_right ?_
    simp [hfree]
  exact ⟨hblocked .nread, hblocked .nwrite⟩

/-- A run in which a reader calls `piperead` on the new pipe and falls asleep. -/
theorem reader_sleeps {E : Sys Bool → Bool → Prop} (hE : ∀ s, ¬ Early s false → E s false) :
    ∃ s, Reachable Allocated (Step E) s ∧ s.chan = update (fun _ => none) false (some .nread) ∧ s.pc true = .user ∧
      s.lock = none ∧ s.ptable = none ∧ s.pipe.nread = 0 ∧ s.pipe.nwrite = 0 := by
  have hstart : Reachable Allocated (Step E) (pipealloc (fun _ => 0) fun _ => false : Sys Bool) := .start ⟨_, _, rfl⟩
  have hcall := hstart.next (.call false (.rAcquire 1) rfl trivial)
  have hacquire := hcall.next (.exec false rfl (hE _ (by simp [Early, Sys.goto])) rfl)
  have hwhile := hacquire.next (.exec false rfl (hE _ (by simp [Early, Sys.goto])) rfl)
  have hcheck := hwhile.next (.exec false rfl (hE _ (by simp [Early, Sys.goto])) rfl)
  have hsleep := hcheck.next (.exec false rfl (hE _ (by simp [Early, Sys.goto])) rfl)
  have hsched := hsleep.next (.exec false rfl (hE _ (by simp [Early, Sys.goto])) rfl)
  exact ⟨_, hsched, rfl, rfl, rfl, rfl, rfl, rfl⟩

theorem no_lost_wakeup_reader :
    ∃ s : Sys Bool, s.chan false = some .nread ∧ s.pipe.nread = s.pipe.nwrite ∧ s.pipe.writeopen := by
  obtain ⟨s, hreach, hchan, -, hlock, -⟩ := reader_sleeps (E := Reported) fun s hnot hearly => absurd hearly hnot
  have hasleep : s.chan false = some .nread := by rw [hchan, update_self]
  exact ⟨s, hasleep, (no_lost_wakeup hreach hlock false).1 hasleep⟩

/-- A writer stores as many bytes as there is room for. -/
theorem writer_stores {n k j : Nat} {b : UInt8} (addr : List UInt8) (hreach : Reachable Allocated (Step fun _ _ => True) s)
    (hpc : s.pc p = .wFor n (List.replicate k b ++ addr)) (hp : s.chan p = none) (hread : s.pipe.nread = 0)
    (hwrite : s.pipe.nwrite = UInt32.ofNat j) (hroom : j + k ≤ 512) :
    ∃ s', Reachable Allocated (Step fun _ _ => True) s' ∧ s'.pc p = .wFor n addr ∧ s'.chan = s.chan ∧
      s'.ptable = s.ptable ∧ s'.pipe.nread = 0 ∧ s'.pipe.nwrite = UInt32.ofNat (j + k) := by
  induction k generalizing s j with
  | zero => exact ⟨s, hreach, hpc, rfl, rfl, hread, hwrite⟩
  | succ k ih =>
    have hfor : exec s p = some (s.goto p (.wWhile n b (List.replicate k b ++ addr))) := by
      simp [exec, hpc, List.replicate_succ]
    have hfull : ¬ s.pipe.full := by
      intro hfull
      have hnat := congrArg UInt32.toNat (hwrite.symm.trans hfull)
      rw [hread, UInt32.toNat_ofNat'] at hnat
      simp at hnat
      omega
    have hput : exec (s.goto p (.wWhile n b (List.replicate k b ++ addr))) p =
        some ({ s with pipe := s.pipe.put b, stored := s.stored ++ [b] }.goto p
          (.wFor n (List.replicate k b ++ addr))) := by
      simp [exec, Sys.goto, hfull]
    have hnext := (hreach.next (.exec p hp trivial hfor)).next (.exec p hp trivial hput)
    have hwrite' : (s.pipe.put b).nwrite = UInt32.ofNat (j + 1) := by
      simp [put, hwrite, UInt32.ofNat_add]
    obtain ⟨s', hreach', hrest⟩ := ih hnext (by simp [Sys.goto]) hp hread hwrite' (by omega)
    rw [show j + (k + 1) = j + 1 + k by omega]
    exact ⟨s', hreach', hrest⟩

/-- A reader sleeps, a writer fills the buffer, is killed and returns without waking the reader. -/
theorem killed_writer_leaves_reader :
    ∃ s : Sys Bool, Reachable Allocated (Step fun _ _ => True) s ∧ s.lock = none ∧ s.chan false = some .nread ∧
      s.pipe.nread ≠ s.pipe.nwrite := by
  obtain ⟨s, hreach, hchan, hpc, hlock, htable, hread, hwrite⟩ := reader_sleeps (E := fun _ _ => True) fun _ _ => trivial
  have hawake : s.chan true = none := by simp [hchan]
  obtain ⟨addr, haddr⟩ : ∃ addr : List UInt8, addr = List.replicate 512 0 ++ [0] := ⟨_, rfl⟩
  have hcall := hreach.next (.call true (.wAcquire addr) hpc trivial)
  have hacquire := hcall.next (.exec true hawake trivial (by simp [exec, Sys.goto, acquire, hlock]; rfl))
  obtain ⟨s', hreach', hpc', hchan', htable', hread', hwrite'⟩ := writer_stores (p := true) (b := 0)
    (k := 512) (j := 0) [0] hacquire (by rw [← haddr]; rfl) hawake hread hwrite (by decide)
  have hfull : s'.pipe.full := by
    simp [full, hread', hwrite']
  have hkill := hreach'.next (.kill true (htable'.trans htable))
  have hfor := hkill.next (.exec true rfl trivial (by simp [exec, kill, hpc']; rfl))
  have hwhile := hfor.next (.exec true rfl trivial (by simp [exec, Sys.goto, hfull]; rfl))
  have hcheck := hwhile.next (.exec true rfl trivial (by simp [exec]; rfl))
  have hrelease := hcheck.next (.exec true rfl trivial (by simp [exec]; rfl))
  refine ⟨_, hrelease, rfl, ?_, ?_⟩
  · simp [release, Sys.goto, hchan', hchan]
  · simp [release, Sys.goto, hread', hwrite']

end xv6.Pipe
