import Xv6.Proc.TableRun

open Function run

namespace xv6.ptable

variable {C : Type} {t t' : Table C} {c : C} {p q np : Fin NPROC} {pid : Nat} {l l' : List Nat}

/-- A whole call of `fork` by process `p`; `kalloc` and `copyuvm` say whether
these succeed, and no result stands for -1. -/
def fork (t : Table C) (p : Fin NPROC) (kalloc copyuvm : Bool) : Option Nat × Table C :=
  match allocproc t with
  | none => (none, t)
  | some (np, t) =>
    let t := allocproc.kstack t np kalloc
    if kalloc then
      if copyuvm then
        let t := fork.runnable (fork.parent t p np) np
        (some (t.slot np).pid, t)
      else
        (none, fork.fail t np)
    else
      (none, t)

/-- The pid that a call of `fork` leaves behind if it fails after `allocproc` has taken a slot. -/
def fork.failed (t : Table C) (kalloc copyuvm : Bool) : List Nat :=
  if (allocproc t).isSome ∧ ¬ (kalloc ∧ copyuvm) then [t.nextpid] else []

/-- One call of `fork`, `exit`, `wait` or `kill`, or what lets another process run, with the pids of the calls of
`fork` that have failed. `K` says which calls of `kill` a run may make. -/
inductive Call [DecidableEq C] (K : List Nat → Nat → Prop) : Table C × List Nat → Table C × List Nat → Prop
  | scheduler {t : Table C} {l : List Nat} (c : C) (p : Fin NPROC) : t.cpu c = none → (t.slot p).state = .RUNNABLE →
      Call K (t, l) (scheduler t c p, l)
  | yield {t : Table C} {l : List Nat} (c : C) (p : Fin NPROC) : t.cpu c = some p → Call K (t, l) (yield t c p, l)
  | sleep {t : Table C} {l : List Nat} (c : C) (p : Fin NPROC) (chan : Chan) : t.cpu c = some p →
      Call K (t, l) (sleep t c p chan, l)
  | wakeup {t : Table C} {l : List Nat} (chan : Chan) : Call K (t, l) (wakeup1 t (some chan), l)
  | fork {t : Table C} {l : List Nat} (c : C) (p : Fin NPROC) (kalloc copyuvm : Bool) : t.cpu c = some p →
      Call K (t, l) ((fork t p kalloc copyuvm).2, fork.failed t kalloc copyuvm ++ l)
  | exit {t : Table C} {l : List Nat} (c : C) (p : Fin NPROC) : t.cpu c = some p → p ≠ t.initproc →
      Call K (t, l) (exit t c p, l)
  | wait {t : Table C} {l : List Nat} (c : C) (p : Fin NPROC) : t.cpu c = some p → Call K (t, l) (wait t c p, l)
  | kill {t : Table C} {l : List Nat} (pid : Nat) : K l pid → Call K (t, l) ((kill t pid).2, l)

/-- The system after boot. -/
def Started (r : Table C × List Nat) : Prop := Booted r.1 ∧ r.2 = []

/-- A pid other than 0 and than those that failed calls of `fork` have left. -/
def Spared (l : List Nat) (pid : Nat) : Prop := pid ≠ 0 ∧ pid ∉ l

/-- An unused slot does not hold a `killed` that its next process would find, and its pid is 0 or that of a call of
`fork` that failed: `wait` resets both fields, the failing paths of `fork` keep the pid. -/
def Clean (t : Table C) (l : List Nat) : Prop :=
  ∀ p, (t.slot p).state = .UNUSED → (t.slot p).killed = false ∧ ((t.slot p).pid = 0 ∨ (t.slot p).pid ∈ l)

theorem Clean.change (h : Clean t l) (hl : l ⊆ l') (hother : ∀ q, q ≠ p → t'.slot q = t.slot q)
    (hp : (t'.slot p).state = .UNUSED → (t'.slot p).killed = false ∧ ((t'.slot p).pid = 0 ∨ (t'.slot p).pid ∈ l')) :
    Clean t' l' := by
  grind [Clean]

/-- A process in use changes its own slot. -/
theorem Clean.used (h : Clean t l) (hother : ∀ q, q ≠ p → t'.slot q = t.slot q) (hp : (t'.slot p).state ≠ .UNUSED) :
    Clean t' l := by
  grind [Clean]

theorem Clean.wakeup1 (h : Clean t l) (chan : Option Chan) : Clean (wakeup1 t chan) l := by
  intro q hq
  have := h q
  grind [ptable.wakeup1, Slot.wakeup]

theorem Clean.abandon (h : Clean t l) (qs : List (Fin NPROC)) : Clean (qs.foldl (exit.abandon p) t) l := by
  induction qs generalizing t with
  | nil => exact h
  | cons q qs ih =>
    refine ih ?_
    have hparent : Clean (t.update q fun s => { s with parent := some t.initproc }) l :=
      h.change (p := q) (List.Subset.refl l) (fun r hr => by simp [hr]) (by simpa using h q)
    unfold exit.abandon
    simp only []
    split_ifs
    · exact hparent.wakeup1 _
    · exact hparent
    · exact h

/-- `fork` takes an unused slot and leaves its `killed` as it was. If it fails then, its pid stays in the slot. -/
theorem fork_spec (p : Fin NPROC) (kalloc copyuvm : Bool) :
    (fork t p kalloc copyuvm = (none, t)) ∨
    ∃ np, (t.slot np).state = .UNUSED ∧ (∀ q, q ≠ np → (fork t p kalloc copyuvm).2.slot q = t.slot q) ∧
      ((fork t p kalloc copyuvm).2.slot np).killed = (t.slot np).killed ∧
      ((fork t p kalloc copyuvm).1 = none ∧
          ((fork t p kalloc copyuvm).2.slot np).pid ∈ fork.failed t kalloc copyuvm ∨
        (fork t p kalloc copyuvm).1 = some ((fork t p kalloc copyuvm).2.slot np).pid ∧
        ((fork t p kalloc copyuvm).2.slot np).state = .RUNNABLE) := by
  cases halloc : allocproc t with
  | none => exact .inl (by simp [fork, halloc])
  | some r =>
    obtain ⟨np, t₁⟩ := r
    obtain ⟨hfree, rfl⟩ := allocproc_some halloc
    refine .inr ⟨np, hfree, ?_⟩
    cases kalloc with
    | false => simp +contextual [fork, fork.failed, halloc, allocproc.kstack]
    | true =>
      cases copyuvm with
      | false => simp +contextual [fork, fork.failed, halloc, allocproc.kstack, fork.fail, Table.log]
      | true => simp +contextual [fork, halloc, allocproc.kstack, fork.runnable, fork.parent]

/-- A `kill` that is spared hits a slot in use. -/
theorem Clean.kill_slot (h : Clean t l) (hpid : Spared l pid)
    (hfind : (findSlot fun p => decide ((t.slot p).pid = pid)) = some p) :
    (t.slot p).state ≠ .UNUSED ∧ (t.slot p).pid = pid := by
  have heq : (t.slot p).pid = pid := by simpa using findSlot_some hfind
  grind [Clean, Spared]

section calls

variable [DecidableEq C] {r r' : Table C × List Nat}

/-- A call keeps unused slots clean unless it is a `kill` that hits one. -/
theorem Clean.call (h : Clean r.1 r.2) (hcall : Call Spared r r') : Clean r'.1 r'.2 := by
  cases hcall with
  | scheduler c p hc hp =>
    exact h.used (p := p) (fun q hq => by simp [ptable.scheduler, hq]) (by simp [ptable.scheduler])
  | yield c p hc => exact h.used (p := p) (fun q hq => by simp [ptable.yield, hq]) (by simp [ptable.yield])
  | sleep c p chan hc => exact h.used (p := p) (fun q hq => by simp [ptable.sleep, hq]) (by simp [ptable.sleep])
  | wakeup chan => exact h.wakeup1 _
  | @fork t l c p kalloc copyuvm hc =>
    have hl : l ⊆ fork.failed t kalloc copyuvm ++ l := List.subset_append_right ..
    rcases fork_spec (t := t) p kalloc copyuvm with heq | ⟨np, hfree, hother, hkilled, hpid⟩
    · grind [Clean]
    · exact h.change hl hother (by grind [Clean])
  | @exit t l c p hc hne =>
    have hrest := (h.wakeup1 ((t.slot p).parent.map .proc)).abandon (p := p) (List.finRange NPROC)
    simp only [ptable.exit]
    exact hrest.used (p := p) (fun q hq => by simp [Table.log, hq]) (by simp [Table.log])
  | @wait t l c p hc =>
    simp only [ptable.wait]
    split
    · next q _ =>
      exact h.change (p := q) (List.Subset.refl l) (fun r hr => by simp [wait.reap, Table.log, hr]) (by simp [wait.reap])
    · split_ifs
      · exact h
      · exact h.used (p := p) (fun q hq => by simp [ptable.sleep, hq]) (by simp [ptable.sleep])
  | @kill t l pid hspared =>
    simp only [ptable.kill]
    split
    · exact h
    · next q hfind =>
      refine h.used (p := q) (fun r hr => by simp [hr]) ?_
      have := (h.kill_slot hspared hfind).1
      simp only [slot_update, if_true]
      split_ifs
      · simp
      · exact this

theorem reachable_clean (h : Reachable Started (Call Spared) r) : Clean r.1 r.2 := by
  refine h.inv (I := fun r => Clean r.1 r.2) ?_ fun s s' hs hcall => hs.call hcall
  rintro ⟨t, l⟩ ⟨⟨p, rfl⟩, rfl⟩ q hq
  simp only [userinit] at hq ⊢
  split_ifs at hq ⊢
  exact ⟨rfl, .inl rfl⟩

/-- In every run of whole calls in which `kill` is called neither with 0 nor with the pid of a call of `fork` that has
failed, `kill` of such a pid succeeds only on a process that exists, and a new process is not killed. -/
theorem kill_named (h : Reachable Started (Call Spared) (t, l)) :
    (∀ pid, Spared l pid → (kill t pid).1 = 0 → ∃ p, (t.slot p).state ≠ .UNUSED ∧ (t.slot p).pid = pid) ∧
    (∀ p kalloc copyuvm pid, (fork t p kalloc copyuvm).1 = some pid →
      ∃ np, (t.slot np).state = .UNUSED ∧ ((fork t p kalloc copyuvm).2.slot np).pid = pid ∧
        ((fork t p kalloc copyuvm).2.slot np).state = .RUNNABLE ∧
        ((fork t p kalloc copyuvm).2.slot np).killed = false) ∧
    ∀ p, ((userinit p : Table C).slot p).killed = false := by
  have hclean : Clean t l := reachable_clean h
  refine ⟨fun pid hspared hzero => ?_, fun p kalloc copyuvm pid hpid => ?_, fun p => by simp [userinit]⟩
  · unfold ptable.kill at hzero
    split at hzero
    · cases hzero
    · next p hfind => exact ⟨p, hclean.kill_slot hspared hfind⟩
  · rcases fork_spec (t := t) p kalloc copyuvm with heq | ⟨np, hfree, _, hkilled, ⟨hnone, -⟩ | ⟨hsome, hrun⟩⟩
    · rw [heq] at hpid
      cases hpid
    · rw [hnone] at hpid
      cases hpid
    · rw [hsome] at hpid
      cases hpid
      exact ⟨np, hfree, rfl, hrun, hkilled.trans (hclean np hfree).1⟩

set_option maxRecDepth 4000 in
/-- A `fork` fails and leaves pid 2; the next child, pid 3, is killed, exits and is reaped; the one after that takes
the same slot. -/
theorem kill_named_reused : ∃ t : Table Unit, Reachable Started (Call Spared) (t, [2]) ∧
    ((kill t 3).1 = 0 → ∃ p, (t.slot p).state ≠ .UNUSED ∧ (t.slot p).pid = 3) ∧
    ∃ np, (t.slot np).state = .UNUSED ∧ ((fork t 0 true true).2.slot np).pid = 4 ∧
      ((fork t 0 true true).2.slot np).state = .RUNNABLE ∧ ((fork t 0 true true).2.slot np).killed = false := by
  have hrun : Reachable Started (Call Spared) (((userinit 0 : Table Unit)), []) := .start ⟨⟨0, rfl⟩, rfl⟩
  have hkilled := (((hrun.next (.scheduler () 0 rfl rfl)).next (.fork () 0 true false rfl)).next
    (.fork () 0 true true rfl)).next (.kill 3 ⟨by decide, by decide⟩)
  have hreaped := ((((hkilled.next (.wait () 0 rfl)).next (.scheduler () 1 rfl rfl)).next
    (.exit () 1 rfl (by decide))).next (.scheduler () 0 rfl rfl)).next (.wait () 0 rfl)
  obtain ⟨hkill, hfork, -⟩ := kill_named hreaped
  exact ⟨_, hreaped, hkill 3 ⟨by decide, by decide⟩, hfork 0 true true 4 (by decide)⟩

/-- `kill(0)` finds a slot that was never used, and the next child is born killed; and `kill` of the pid that a failed
`fork` has left finds an unused slot, too. -/
theorem kill_zero_unused :
    (∃ t : Table Unit, Reachable Started (Call fun _ _ => True) (t, []) ∧ (kill t 0).1 = 0 ∧
      (∀ p, (t.slot p).pid = 0 → (t.slot p).state = .UNUSED) ∧
      Reachable Started (Call fun _ _ => True) ((kill t 0).2, []) ∧
      (fork (kill t 0).2 0 true true).1 = some 2 ∧ ((fork (kill t 0).2 0 true true).2.slot 1).pid = 2 ∧
      ((fork (kill t 0).2 0 true true).2.slot 1).killed = true) ∧
    ∃ t : Table Unit, Reachable Started (Call fun _ _ => True) (t, [2]) ∧ (kill t 2).1 = 0 ∧
      ∀ p, (t.slot p).pid = 2 → (t.slot p).state = .UNUSED := by
  have hrun : Reachable Started (Call fun _ _ => True) (scheduler (userinit 0 : Table Unit) () 0, []) :=
    .next (.start ⟨⟨0, rfl⟩, rfl⟩) (.scheduler () 0 rfl rfl)
  exact ⟨⟨_, hrun, by decide, by decide, hrun.next (.kill 0 trivial), by decide, by decide, by decide⟩,
    ⟨_, hrun.next (.fork () 0 true false rfl), by decide, by decide⟩⟩

end calls

end xv6.ptable
