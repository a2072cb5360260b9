import Xv6.Sleeplock

open Function run

namespace xv6.Sleeplock

/-- The places at which a process holds the spin-lock `lk`. -/
def Pc.spins : Pc → Prop
  | .aWhile | .aSleep | .aSet | .aRelease | .rClear | .rWakeup | .rRelease => True
  | _ => False

/-- The places from `locked = 1` in `acquiresleep` to `locked = 0` in `releasesleep`. -/
def Pc.owns : Pc → Prop
  | .aRelease | .held | .rAcquire | .rClear => True
  | _ => False

/-- The places inside `releasesleep`. -/
def Pc.releasing : Pc → Prop
  | .rAcquire | .rClear | .rWakeup | .rRelease => True
  | _ => False

/-- What the test of `acquiresleep` under `lk` has shown. -/
def Pc.knows (locked : Bool) : Pc → Prop
  | .aSleep => locked = true
  | .aSet => locked = false
  | _ => True

variable {P : Type} {s s' : Sys P} {p q : P} {pc : Pc}

/-- Process `p` sleeps on the lock or is about to. -/
def Sys.waits (s : Sys P) (p : P) : Prop := s.sleeping p = true ∨ s.pc p = .aSlept

/-- The invariant of a sleep-lock: the lock belongs to the process that has set
it, and whoever waits for it will be woken. -/
structure Inv (s : Sys P) : Prop where
  lk : ∀ p, s.lk = some p ↔ (s.pc p).spins
  ptable : ∀ p, s.pc p = .aSlept → s.ptable = some p
  knows : ∀ p, (s.pc p).knows s.lock.locked
  owner : ∀ p, (s.pc p).owns ↔ s.lock.locked = true ∧ s.lock.pid = some p
  free : s.lock.locked = false → ∀ p, s.waits p → ∃ q, s.pc q = .rWakeup

theorem Pc.knows_of_not_spins {locked : Bool} (h : ¬ pc.spins) : pc.knows locked := by
  cases pc <;> simp_all [Pc.knows, Pc.spins]

theorem Inv.of_initial (h : Initial s) : Inv s := by
  obtain ⟨killed, rfl⟩ := h
  refine ⟨fun p => ?_, fun p hp => ?_, fun p => trivial, fun p => ?_, fun _ p hp => ?_⟩
  · simp [initsleeplock, Pc.spins]
  · simp [initsleeplock] at hp
  · simp [initsleeplock, Pc.owns]
  · simp [Sys.waits, initsleeplock] at hp

variable [DecidableEq P]

section exec

variable (hexec : exec s p = some s')
include hexec

theorem exec_lk (hlk : ∀ p, s.lk = some p ↔ (s.pc p).spins) (q : P) : s'.lk = some q ↔ (s'.pc q).spins := by
  unfold exec acquire sleep wakeup release sched at hexec
  split at hexec <;> (try split_ifs at hexec) <;> cases hexec <;> simp only [Sys.goto, update_apply] <;>
    grind [Pc.spins]

theorem exec_ptable (htable : ∀ p, s.pc p = .aSlept → s.ptable = some p) (q : P) (hq : s'.pc q = .aSlept) :
    s'.ptable = some q := by
  unfold exec acquire sleep wakeup release sched at hexec
  split at hexec <;> (try split_ifs at hexec) <;> cases hexec <;> simp only [Sys.goto, update_apply] at hq ⊢ <;> grind

/-- A process that does not hold `lk` has tested nothing. -/
theorem exec_knows (hlk : ∀ p, s.lk = some p ↔ (s.pc p).spins) (hknows : ∀ p, (s.pc p).knows s.lock.locked) (q : P) :
    (s'.pc q).knows s'.lock.locked := by
  have hq := hlk q
  have hp := hlk p
  have hold := hknows q
  have hunlocked (hq : ¬ (s.pc q).spins) (locked : Bool) : (s.pc q).knows locked := Pc.knows_of_not_spins hq
  clear hlk hknows
  unfold exec acquire sleep wakeup release sched at hexec
  split at hexec <;> (try split_ifs at hexec) <;> cases hexec <;> simp only [Sys.goto, update_apply] <;>
    grind [Pc.spins, Pc.knows]

theorem exec_owner (hknows : (s.pc p).knows s.lock.locked)
    (howner : ∀ p, (s.pc p).owns ↔ s.lock.locked = true ∧ s.lock.pid = some p) (q : P) :
    (s'.pc q).owns ↔ s'.lock.locked = true ∧ s'.lock.pid = some q := by
  unfold exec acquire sleep wakeup release sched at hexec
  split at hexec <;> (try split_ifs at hexec) <;> cases hexec <;> simp only [Sys.goto, update_apply] <;>
    grind [Pc.owns, Pc.knows]

/-- While a process wakes the sleepers nobody is in the middle of `sleep`, since the lock of the process table is free. -/
theorem exec_free (htable : ∀ p, s.pc p = .aSlept → s.ptable = some p) (hknows : (s.pc p).knows s.lock.locked)
    (hfree : s.lock.locked = false → ∀ p, s.waits p → ∃ q, s.pc q = .rWakeup) (hlocked : s'.lock.locked = false)
    (q : P) (hq : s'.waits q) : ∃ r, s'.pc r = .rWakeup := by
  unfold Sys.waits at hfree hq
  unfold exec acquire sleep wakeup release sched at hexec
  split at hexec <;> (try split_ifs at hexec) <;> cases hexec <;> simp only [Sys.goto, update_apply] at hq hlocked ⊢ <;>
    grind [Pc.knows]

end exec

/-- Every action keeps the invariant. -/
theorem Inv.exec (h : Inv s) (hexec : exec s p = some s') : Inv s' where
  lk := exec_lk hexec h.lk
  ptable := exec_ptable hexec h.ptable
  knows := exec_knows hexec h.lk h.knows
  owner := exec_owner hexec (h.knows p) h.owner
  free := exec_free hexec h.ptable (h.knows p) h.free

theorem Inv.kill (h : Inv s) : Inv (kill s p) := by
  refine ⟨h.lk, h.ptable, h.knows, h.owner, fun hfree q hq => h.free hfree q ?_⟩
  refine hq.imp (fun hs => ?_) id
  simp only [Sleeplock.kill, update_apply] at hs
  split_ifs at hs
  exact hs

theorem Inv.step (h : Inv s) (hstep : Step s s') : Inv s' := by
  cases hstep with
  | acquiresleep p hpc | releasesleep p hpc =>
    obtain ⟨hlk, htable, hknows, howner, hfree⟩ := h
    unfold Sys.waits at hfree
    constructor <;> simp only [Sys.waits, Sys.goto, update_apply] <;> grind [Pc.spins, Pc.owns, Pc.knows]
  | exec p _ hexec => exact h.exec hexec
  | kill p _ => exact h.kill

/-- A sleep-lock excludes and loses no wakeup: at most one process is between
its store of `locked = 1` in `acquiresleep` and that of `locked = 0` in
`releasesleep`, that process and no other is the one `holdingsleep` finds, and
no process is left sleeping on a free lock while nobody is in `releasesleep`. -/
theorem sleeplock_safe {s : Sys P} (h : Reachable Initial Step s) :
    (∀ p q, (s.pc p).owns → (s.pc q).owns → p = q) ∧
      (∀ p, (s.pc p).owns → ∀ q, holdingsleep s q = true ↔ q = p) ∧
      ¬ (s.lock.locked = false ∧ (∀ q, ¬ (s.pc q).releasing) ∧ ∃ p, s.sleeping p = true) := by
  have hinv : Inv s := h.inv (fun _ => Inv.of_initial) fun _ _ hi hstep => hi.step hstep
  refine ⟨fun p q hp hq => ?_, fun p hp q => ?_, ?_⟩
  · exact Option.some.inj (((hinv.owner p).1 hp).2.symm.trans ((hinv.owner q).1 hq).2)
  · obtain ⟨hlocked, hpid⟩ := (hinv.owner p).1 hp
    simp only [holdingsleep, hlocked, hpid, Bool.true_and, beq_iff_eq, Option.some.injEq]
    exact eq_comm
  · rintro ⟨hfree, hquiet, p, hp⟩
    obtain ⟨q, hq⟩ := hinv.free hfree p (.inl hp)
    exact hquiet q (by rw [hq]; trivial)

/-- Process `false` can hold the lock while process `true` sleeps on it. -/
theorem contended_reachable :
    ∃ s : Sys Bool, Reachable Initial Step s ∧ s.sleeping true = true ∧ s.pc false = .held := by
  have hstart : Reachable Initial Step (initsleeplock fun _ => false : Sys Bool) := .start ⟨_, rfl⟩
  have hcall := hstart.next (.acquiresleep false rfl)
  have hacquire := hcall.next (.exec false rfl rfl)
  have hwhile := hacquire.next (.exec false rfl rfl)
  have hset := hwhile.next (.exec false rfl rfl)
  have hheld := hset.next (.exec false rfl rfl)
  have hcall' := hheld.next (.acquiresleep true rfl)
  have hacquire' := hcall'.next (.exec true rfl rfl)
  have hwhile' := hacquire'.next (.exec true rfl rfl)
  have hsleep := hwhile'.next (.exec true rfl rfl)
  have hsched := hsleep.next (.exec true rfl rfl)
  exact ⟨_, hsched, rfl, rfl⟩

theorem sleeplock_safe_contended :
    ∃ s : Sys Bool, s.sleeping true = true ∧ (s.pc false).owns ∧ ¬ (s.pc true).owns ∧ holdingsleep s false = true := by
  obtain ⟨s, hreach, hsleeping, hheld⟩ := contended_reachable
  obtain ⟨honly, hholding, -⟩ := sleeplock_safe hreach
  have howns : (s.pc false).owns := by rw [hheld]; trivial
  exact ⟨s, hsleeping, howns, fun htrue => Bool.noConfusion (honly _ _ howns htrue), (hholding false howns false).2 rfl⟩

end xv6.Sleeplock
