import Xv6.Proc.TableSteps

open Function run

namespace xv6.ptable

variable {C : Type} {t t' : Table C} {c : C} {p q np : Fin NPROC}

theorem kind_running {s : ProcState} (h : s = .RUNNING) : kind s = .active := by
  rw [h]
  rfl

theorem CpuInv.active (h : CpuInv t) (hc : t.cpu c = some p) : kind (t.slot p).state = .active :=
  kind_running (h.running c p hc)

theorem Inv.gentle {o : Option (Fin NPROC)} (h : Inv t) (hg : Gentle o t t')
    (ho : ∀ p, o = some p → t.pc p = .user) : Inv t' :=
  ⟨hg.pidInv h.pid, hg.familyInv h.family ho, hg.cpuInv h.cpu⟩

@[simp, grind =] theorem slot_goto {pc : Pc} : (t.goto p pc).slot q = t.slot q := rfl

@[simp, grind =] theorem slot_log {e : Event} : (t.log e).slot q = t.slot q := rfl

/-- A slot that changes without entering or leaving a CPU. -/
theorem CpuInv.change (h : CpuInv t) (np : Fin NPROC) (hcpu : t'.cpu = t.cpu) (hother : ∀ q, q ≠ np → t'.slot q = t.slot q)
    (hold : (t.slot np).state ≠ .RUNNING) (hnew : (t'.slot np).state ≠ .RUNNING) : CpuInv t' := by
  exact h.same hcpu (by grind)

/-- Process `p` moves on in `fork` and the pid of its slot does not change. -/
theorem Inv.fork {pc : Pc} (h : Inv t) (hchild : (t.pc p).child = some np) (hpc : ∀ q, t'.pc q = if q = p then pc else t.pc q)
    (hother : ∀ q, q ≠ np → t'.slot q = t.slot q) (hpid : (t'.slot np).pid = (t.slot np).pid)
    (hinit : t'.initproc = t.initproc) (hnext : t'.nextpid = t.nextpid) (hcreated : t'.created = t.created)
    (htrace : t'.trace = t.trace) (hcpu : t'.cpu = t.cpu)
    (hnew : (t'.slot np).state = .EMBRYO ∧ pc.child = some np ∧ (pc = .runnable np → (t'.slot np).parent = some p) ∨
      pc = .user ∧ (t'.slot np).state = .RUNNABLE ∧ (t'.slot np).parent = some p) : Inv t' := by
  obtain ⟨hembryo, _⟩ := h.family.child p np hchild
  have hlive : kind (t'.slot np).state = .embryo ∨ kind (t'.slot np).state = .active := by grind [kind]
  refine ⟨h.pid.congr ?_ ?_ ?_ hnext hcreated htrace, h.family.fork hchild hpc hother hinit ?_,
    h.cpu.change _ hcpu hother ?_ ?_⟩ <;> grind [kind]

/-- Process `p` leaves `fork` without a child. -/
theorem Inv.giveUp {l : List Event} (h : Inv t) (hchild : (t.pc p).child = some np)
    (hpc : ∀ q, t'.pc q = if q = p then .user else t.pc q) (hother : ∀ q, q ≠ np → t'.slot q = t.slot q)
    (hunused : (t'.slot np).state = .UNUSED)
    (hinit : t'.initproc = t.initproc) (hnext : t'.nextpid = t.nextpid) (hcreated : t'.created = t.created)
    (htrace : t'.trace = t.trace ++ l) (hl : l = [] ∨ l = [.kfree (t.slot np).pid]) (hcpu : t'.cpu = t.cpu) :
    Inv t' := by
  obtain ⟨hembryo, _⟩ := h.family.child p np hchild
  have hkind : kind (t'.slot np).state = .unused := kind_eq_unused.2 hunused
  refine ⟨h.pid.release (by simp [hembryo]) hkind hother hnext hcreated htrace ?_ ?_ ?_ ?_,
    h.family.fork hchild hpc hother hinit (.inr ⟨rfl, .inl hkind⟩), h.cpu.change _ hcpu hother ?_ ?_⟩
  all_goals grind [Event.pid, kind]

theorem allocproc_some (h : allocproc t = some (np, t')) :
    (t.slot np).state = .UNUSED ∧
      t' = { t.update np fun s => { s with state := .EMBRYO, pid := t.nextpid } with
        nextpid := u32 (t.nextpid + 1), created := t.created + 1 } := by
  unfold allocproc at h
  split at h
  · cases h
  · next p hfind =>
    cases h
    exact ⟨by simpa using findSlot_some hfind, rfl⟩

/-- A zombie's slot is freed by the process that waits for it. -/
theorem Inv.reap (h : Inv t) (hz : (t.slot q).state = .ZOMBIE) : Inv (wait.reap t q) := by
  have hother (r : Fin NPROC) (hr : r ≠ q) : (wait.reap t q).slot r = t.slot r := by
    simp [wait.reap, Table.log, hr]
  have hunused : ((wait.reap t q).slot q).state = .UNUSED := by simp [wait.reap]
  have hpc (r : Fin NPROC) : (wait.reap t q).pc r = t.pc r := rfl
  have htrace : (wait.reap t q).trace =
      t.trace ++ [.kfree (t.slot q).pid, .freevm (t.slot q).pid, .reap (t.slot q).pid] := by
    simp [wait.reap, Table.log, Table.update]
  have hinit := h.family.init
  have hchild := h.family.child
  have hparented := h.family.parented
  refine ⟨h.pid.release ?_ (kind_eq_unused.2 hunused) hother rfl rfl htrace ?_ ?_ ?_ ?_,
    h.family.change hother rfl ?_ ?_ ?_ ?_ h.family.child_inj ?_, h.cpu.change q rfl hother ?_ ?_⟩
  all_goals grind [kind, Event.pid, Pc.child]

/-- The states in which a run begins. -/
def Booted (t : Table C) : Prop := ∃ p, t = userinit p

theorem inv_userinit (p : Fin NPROC) : Inv (userinit p : Table C) := by
  refine ⟨?_, ?_, ?_⟩
  all_goals constructor <;> grind [userinit, kind, Pc.child]

section steps

variable [DecidableEq C]

/-- A process changes its state on its way to or from a CPU. -/
theorem Inv.switch {o : Option (Fin NPROC)} (h : Inv t) (hpid : (t'.slot p).pid = (t.slot p).pid)
    (hparent : (t'.slot p).parent = (t.slot p).parent) (hother : ∀ q, q ≠ p → t'.slot q = t.slot q)
    (hinit : t'.initproc = t.initproc) (hnext : t'.nextpid = t.nextpid) (hcreated : t'.created = t.created)
    (htrace : t'.trace = t.trace) (hpc : t'.pc = t.pc) (hcpu : ∀ c', t'.cpu c' = if c' = c then o else t.cpu c')
    (hactive : kind (t.slot p).state = .active) (hactive' : kind (t'.slot p).state = .active)
    (hmove : o = none ∧ t.cpu c = some p ∧ (t'.slot p).state ≠ .RUNNING ∨
      o = some p ∧ t.cpu c = none ∧ (t.slot p).state ≠ .RUNNING ∧ (t'.slot p).state = .RUNNING) : Inv t' := by
  have hk : SameKinds t t' := ⟨by grind, by grind, hnext, hinit, hcreated, htrace⟩
  refine ⟨h.pid.same hk, h.family.same hk hpc (by grind), ?_⟩
  rcases hmove with ⟨rfl, hc, hp⟩ | ⟨rfl, hc, hold, hp⟩
  · exact h.cpu.leave hc hcpu hp fun q hq => by rw [hother q hq]
  · exact h.cpu.enter hc hcpu hold hp fun q hq => by rw [hother q hq]

theorem Inv.sleep {chan : Chan} (h : Inv t) (hc : t.cpu c = some p) : Inv (sleep t c p chan) :=
  h.switch (p := p) (by simp [ptable.sleep]) (by simp [ptable.sleep]) (fun q hq => by simp [ptable.sleep, hq])
    rfl rfl rfl rfl rfl (fun _ => update_apply ..) (h.cpu.active hc) (by simp [ptable.sleep, kind])
    (.inl ⟨rfl, hc, by simp [ptable.sleep]⟩)

/-- `exit` hands the children on before its own slot becomes a zombie. -/
theorem exit_eq (hne : p ≠ t.initproc) :
    ∃ t₂, Gentle (some p) t t₂ ∧ (∀ q, (t₂.slot q).parent ≠ some p) ∧
      exit t c p = { (t₂.update p fun s => { s with state := .ZOMBIE }).log (.zombie (t₂.slot p).pid) with
        cpu := update t₂.cpu c none } := by
  have hwake : Gentle (some p) t (wakeup1 t ((t.slot p).parent.map .proc)) := wakeup1_gentle _
  obtain ⟨hloop, halone⟩ := abandon_all (t := wakeup1 t ((t.slot p).parent.map .proc)) (p := p) hne (List.finRange NPROC)
  refine ⟨_, hwake.trans hloop, fun q => halone q (List.mem_finRange q), ?_⟩
  simp only [ptable.exit, Table.log, Table.update]

theorem Inv.exit (h : Inv t) (hc : t.cpu c = some p) (huser : t.pc p = .user) (hne : p ≠ t.initproc) :
    Inv (exit t c p) := by
  obtain ⟨t₂, hg, halone, heq⟩ := exit_eq (c := c) hne
  rw [heq]
  have hi : Inv t₂ := h.gentle hg fun _ heq => by cases heq; exact huser
  have hc₂ : t₂.cpu c = some p := by rw [hg.cpu, hc]
  have hactive := hi.cpu.active hc₂
  refine ⟨hi.pid.exit (p := p) hactive ?_ ?_ ?_ rfl rfl rfl,
    hi.family.exit (p := p) (by rwa [hg.initproc]) (by rwa [hg.pc]) halone hactive ?_ ?_ ?_ rfl rfl,
    hi.cpu.leave (p := p) hc₂ (fun _ => update_apply ..) ?_ ?_⟩
  all_goals
    unfold Table.log
    grind [kind]

/-- Every step keeps the invariant, as long as the counter of pids does not wrap. -/
theorem Inv.step (h : Inv t) (hst : Step t t') (hbound : t'.created < 2 ^ 31 - 1) : Inv t' := by
  cases hst with
  | scheduler c p hc hp =>
    unfold ptable.scheduler
    refine h.switch (p := p) ?_ ?_ ?_ rfl rfl rfl rfl rfl (fun _ => update_apply ..) ?_ ?_ ?_
    all_goals grind [kind]
  | yield c p hc =>
    have hrun := h.cpu.running c p hc
    unfold ptable.yield
    refine h.switch (p := p) ?_ ?_ ?_ rfl rfl rfl rfl rfl (fun _ => update_apply ..) ?_ ?_ ?_
    all_goals grind [kind]
  | sleep c p chan hc huser => exact h.sleep hc
  | wakeup chan => exact h.gentle (o := none) (wakeup1_gentle _) (by simp)
  | kill pid => exact h.gentle (o := none) (kill_gentle pid) (by simp)
  | fork c p np hc huser halloc =>
    obtain ⟨hfree, rfl⟩ := allocproc_some halloc
    have hnext := h.pid.nextpid
    have hnextpid : u32 (t.nextpid + 1) = t.nextpid + 1 := Nat.mod_eq_of_lt (by dsimp only [Table.goto] at hbound; omega)
    refine ⟨h.pid.alloc (kind_eq_unused.2 hfree) ?_ ?_ hnextpid rfl rfl,
      h.family.alloc (h.cpu.active hc) (kind_eq_unused.2 hfree) ?_ ?_ rfl fun _ => update_apply ..,
      h.cpu.change np rfl ?_ (by simp [hfree]) ?_⟩
    all_goals
      dsimp only [Table.goto]
      grind [kind]
  | kalloc c p np ok hc hpc =>
    have hchild : (t.pc p).child = some np := by rw [hpc]; rfl
    have hembryo := kind_eq_embryo.1 (h.family.child p np hchild).1
    cases ok with
    | true =>
      refine h.fork hchild (fun _ => update_apply ..) ?_ ?_ rfl rfl rfl rfl rfl ?_
      all_goals grind [allocproc.kstack, kind, Pc.child]
    | false =>
      refine h.giveUp hchild (fun _ => update_apply ..) ?_ ?_ rfl rfl rfl (List.append_nil _).symm (.inl rfl) rfl
      all_goals grind [allocproc.kstack]
  | copyuvm c p np ok hc hpc =>
    have hchild : (t.pc p).child = some np := by rw [hpc]; rfl
    have hembryo := kind_eq_embryo.1 (h.family.child p np hchild).1
    cases ok with
    | true =>
      exact h.fork hchild (fun _ => update_apply ..) (fun _ _ => rfl) rfl rfl rfl rfl rfl rfl
        (.inl ⟨hembryo, rfl, by simp⟩)
    | false =>
      refine h.giveUp hchild (fun _ => update_apply ..) ?_ ?_ rfl rfl rfl rfl (.inr rfl) rfl
      all_goals grind [fork.fail]
  | parent c p np hc hpc =>
    have hchild : (t.pc p).child = some np := by rw [hpc]; rfl
    have hembryo := kind_eq_embryo.1 (h.family.child p np hchild).1
    refine h.fork hchild (fun _ => update_apply ..) ?_ ?_ rfl rfl rfl rfl rfl ?_
    all_goals grind [fork.parent, kind, Pc.child]
  | runnable c p np hc hpc =>
    have hchild : (t.pc p).child = some np := by rw [hpc]; rfl
    have hparented := h.family.parented p np hpc
    refine h.fork hchild (fun _ => update_apply ..) ?_ ?_ rfl rfl rfl rfl rfl ?_
    all_goals grind [fork.runnable]
  | exit c p hc huser hne => exact h.exit hc huser hne
  | wait c p hc huser =>
    unfold ptable.wait
    split
    · next q hfind => exact h.reap (by simpa using (Bool.and_eq_true_iff.1 (findSlot_some hfind)).2)
    · split_ifs
      · exact h
      · exact h.sleep hc

theorem Step.created_le (hst : Step t t') : t.created ≤ t'.created := by
  cases hst with
  | fork c p np hc huser halloc =>
    obtain ⟨_, rfl⟩ := allocproc_some halloc
    exact Nat.le_succ _
  | kill pid => exact Nat.le_of_eq (kill_gentle (o := none) pid).created.symm
  | kalloc c p np ok => cases ok <;> exact Nat.le_refl _
  | copyuvm c p np ok => cases ok <;> exact Nat.le_refl _
  | exit c p hc huser hne =>
    obtain ⟨t₂, hg, _, heq⟩ := exit_eq (c := c) hne
    rw [heq]
    exact Nat.le_of_eq hg.created.symm
  | wait c p =>
    unfold ptable.wait
    split
    · exact Nat.le_refl _
    · split_ifs <;> exact Nat.le_refl _
  | _ => exact Nat.le_refl _

theorem Inv.run (h : Reachable Booted Step t) : t.created < 2 ^ 31 - 1 → Inv t := by
  refine h.inv (I := fun t => t.created < 2 ^ 31 - 1 → Inv t) (fun s hs _ => ?_) fun s s' ih hst hbound => ?_
  · obtain ⟨p, rfl⟩ := hs
    exact inv_userinit p
  · exact (ih (Nat.lt_of_le_of_lt hst.created_le hbound)).step hst hbound

/-- What a step records, and about which slot. -/
theorem Step.trace (h : Inv t) (hst : Step t t') :
    t'.trace = t.trace ∨ (∃ pid, t'.trace = t.trace ++ [.zombie pid]) ∨
    (∃ np, (t.slot np).state = .EMBRYO ∧ t'.trace = t.trace ++ [.kfree (t.slot np).pid]) ∨
    ∃ c p q, t.cpu c = some p ∧ (t.slot q).parent = some p ∧ (t.slot q).state = .ZOMBIE ∧
      (t'.slot q).state = .UNUSED ∧
      t'.trace = t.trace ++ [.kfree (t.slot q).pid, .freevm (t.slot q).pid, .reap (t.slot q).pid] := by
  cases hst with
  | fork c p np hc huser halloc =>
    obtain ⟨_, rfl⟩ := allocproc_some halloc
    exact .inl rfl
  | kill pid => exact .inl (kill_gentle (o := none) pid).trace
  | kalloc c p np ok => cases ok <;> exact .inl rfl
  | copyuvm c p np ok hc hpc =>
    cases ok with
    | true => exact .inl rfl
    | false =>
      have hembryo := (h.family.child p np (by rw [hpc]; rfl)).1
      exact .inr (.inr (.inl ⟨np, kind_eq_embryo.1 hembryo, rfl⟩))
  | exit c p hc huser hne =>
    obtain ⟨t₂, hg, _, heq⟩ := exit_eq (c := c) hne
    refine .inr (.inl ⟨(t₂.slot p).pid, ?_⟩)
    rw [heq, ← hg.trace]
    rfl
  | wait c p hc huser =>
    unfold ptable.wait
    split
    · next q hfind =>
      obtain ⟨hpar, hz⟩ := Bool.and_eq_true_iff.1 (findSlot_some hfind)
      refine .inr (.inr (.inr ⟨c, p, q, hc, by simpa using hpar, by simpa using hz, by simp [wait.reap], ?_⟩))
      simp [wait.reap, Table.log, Table.update]
    · split_ifs <;> exact .inl rfl
  | _ => exact .inl rfl

/-- In every run in which fewer than 2^31 - 1 processes are created, pids are
distinct, every process but `initproc` has a parent that can wait for it, a
running process is on one CPU, and a process that became a zombie is freed once,
when its parent reaps it, and not while it runs. -/
theorem ptable_safe (h : Reachable Booted Step t) (hbound : t.created < 2 ^ 31 - 1) :
    (∀ p q, (t.slot p).state ≠ .UNUSED → (t.slot q).state ≠ .UNUSED → (t.slot p).pid = (t.slot q).pid → p = q) ∧
    (∀ p, (t.slot p).state ∈ [ProcState.SLEEPING, .RUNNABLE, .RUNNING, .ZOMBIE] → p ≠ t.initproc →
      ∃ q, (t.slot p).parent = some q ∧ (t.slot q).state ≠ .UNUSED ∧ (t.slot q).state ≠ .ZOMBIE) ∧
    (∀ p, (t.slot p).state = .RUNNING → ∃! c, t.cpu c = some p) ∧
    (∀ p, (t.slot p).state = .ZOMBIE → .zombie (t.slot p).pid ∈ t.trace) ∧
    (∀ pid, .zombie pid ∈ t.trace →
      t.trace.count (.reap pid) = (if ∃ p, (t.slot p).state = .ZOMBIE ∧ (t.slot p).pid = pid then 0 else 1) ∧
      t.trace.count (.kfree pid) = t.trace.count (.reap pid) ∧
      t.trace.count (.freevm pid) = t.trace.count (.reap pid)) ∧
    ∀ t' pid, Step t t' →
      (t'.trace.count (.reap pid) ≠ t.trace.count (.reap pid) → ∃ c p q, t.cpu c = some p ∧
        (t.slot q).pid = pid ∧ (t.slot q).state = .ZOMBIE ∧ (t.slot q).parent = some p ∧ (t'.slot q).state = .UNUSED) ∧
      (t'.trace.count (.kfree pid) ≠ t.trace.count (.kfree pid) ∨
        t'.trace.count (.freevm pid) ≠ t.trace.count (.freevm pid) →
        ∃ q, (t.slot q).pid = pid ∧ ((t.slot q).state = .EMBRYO ∨ (t.slot q).state = .ZOMBIE) ∧
          ∀ c, t.cpu c ≠ some q) := by
  have hi := Inv.run h hbound
  have hidle (q : Fin NPROC) (hq : (t.slot q).state ≠ .RUNNING) (c : C) : t.cpu c ≠ some q :=
    fun hc => hq (hi.cpu.running c q hc)
  refine ⟨fun p q hp hq => hi.pid.inj p q (by simpa using hp) (by simpa using hq), fun p hp hne => ?_, fun p hp => ?_,
    fun p hp => ?_, fun pid hz => ?_, fun t' pid hst => ?_⟩
  · obtain ⟨q, hpar, hactive⟩ := hi.family.parent p hne (by grind [kind])
    exact ⟨q, hpar, by grind [kind]⟩
  · obtain ⟨c, hc⟩ := hi.cpu.cpu p hp
    exact ⟨c, hc, fun c' hc' => hi.cpu.inj c' c p hc' hc⟩
  · have hcount := hi.pid.zombie p (by simp [hp])
    rw [if_pos (kind_eq_zombie.2 hp)] at hcount
    exact List.count_pos_iff.1 (by omega)
  · have hpos : 0 < t.trace.count (.zombie pid) := List.count_pos_iff.2 hz
    refine ⟨?_, (hi.pid.once pid).2 hpos⟩
    split_ifs with hin
    · obtain ⟨p, hp, rfl⟩ := hin
      exact hi.pid.unfreed p (by simp [hp]) _ rfl (by simp)
    · refine (hi.pid.reaped pid hpos).resolve_left ?_
      rintro ⟨p, hp, heq⟩
      exact hin ⟨p, kind_eq_zombie.1 hp, heq⟩
  · rcases hst.trace hi with heq | ⟨_, heq⟩ | ⟨np, hembryo, heq⟩ | ⟨c, p, q, hc, hpar, hz, hfree, heq⟩
    · simp [heq]
    · simp [heq]
    · have hnp := hidle np (by simp [hembryo])
      grind
    · have hq := hidle q (by simp [hz])
      grind

set_option maxRecDepth 4000 in
/-- Process 1 forks process 2 on CPU 0 and waits for it; process 2 exits on CPU 1. -/
theorem ptable_safe_reaped : ∃ t : Table (Fin 2), Reachable Booted Step t ∧ .zombie 2 ∈ t.trace ∧
    t.trace.count (.reap 2) = 1 ∧ t.trace.count (.kfree 2) = t.trace.count (.reap 2) ∧
    t.trace.count (.freevm 2) = t.trace.count (.reap 2) := by
  have hinit : Reachable Booted Step (userinit 0 : Table (Fin 2)) := .start ⟨0, rfl⟩
  have hfork := (hinit.next (.scheduler 0 0 rfl rfl)).next (.fork 0 0 1 rfl rfl rfl)
  have hcopy := (hfork.next (.kalloc 0 0 1 true rfl rfl)).next (.copyuvm 0 0 1 true rfl rfl)
  have hchild := (hcopy.next (.parent 0 0 1 rfl rfl)).next (.runnable 0 0 1 rfl rfl)
  have hrun := (hchild.next (.wait 0 0 rfl rfl)).next (.scheduler 1 1 rfl rfl)
  have hexit := hrun.next (.exit 1 1 rfl rfl (by decide))
  have hreap := (hexit.next (.scheduler 0 0 rfl rfl)).next (.wait 0 0 rfl rfl)
  obtain ⟨hcount, hfreed⟩ := (ptable_safe hreap (by decide)).2.2.2.2.1 2 (by decide)
  exact ⟨_, hreap, by decide, hcount.trans (if_neg (by decide)), hfreed⟩

end steps

end xv6.ptable
