import Xv6.Proc.TableInv

open Function run

namespace xv6.ptable

variable {C : Type} {t t' : Table C} {c : C} {p q np : Fin NPROC}

/-- The invariant of the process table. -/
structure Inv (t : Table C) : Prop where
  pid : PidInv t
  family : FamilyInv t
  cpu : CpuInv t

/-- A slot is given back, and what is recorded with it concerns its process only. -/
theorem PidInv.release {l : List Event} (h : PidInv t) (hq : kind (t.slot q).state ≠ .unused)
    (hfree : kind (t'.slot q).state = .unused) (hother : ∀ r, r ≠ q → t'.slot r = t.slot r)
    (hnext : t'.nextpid = t.nextpid) (hcreated : t'.created = t.created) (htrace : t'.trace = t.trace ++ l)
    (hl : ∀ e ∈ l, e.pid = (t.slot q).pid) (hzombie : l.count (.zombie (t.slot q).pid) = 0)
    (hreap : l.count (.reap (t.slot q).pid) ≤ 1)
    (honce : kind (t.slot q).state = .zombie → l.count (.kfree (t.slot q).pid) = 1 ∧
      l.count (.freevm (t.slot q).pid) = 1 ∧ l.count (.reap (t.slot q).pid) = 1) : PidInv t' := by
  have hcount (e : Event) : t'.trace.count e = t.trace.count e + l.count e := by rw [htrace, List.count_append]
  have hnone (e : Event) (he : e.pid ≠ (t.slot q).pid) : l.count e = 0 :=
    List.count_eq_zero_of_not_mem fun hmem => he (hl e hmem)
  clear hl htrace
  obtain ⟨hnextpid, hlt, hinj, hfuture, hunfreed, hz, hone, hreaped⟩ := h
  constructor <;> grind [Event.pid]

/-- A process becomes a zombie. -/
theorem PidInv.exit (h : PidInv t) (hp : kind (t.slot p).state = .active) (hz : kind (t'.slot p).state = .zombie)
    (hpid : ∀ q, (t'.slot q).pid = (t.slot q).pid) (hother : ∀ q, q ≠ p → t'.slot q = t.slot q)
    (hnext : t'.nextpid = t.nextpid) (hcreated : t'.created = t.created)
    (htrace : t'.trace = t.trace ++ [.zombie (t.slot p).pid]) : PidInv t' := by
  have hcount (e : Event) : t'.trace.count e = t.trace.count e + if e = .zombie (t.slot p).pid then 1 else 0 := by
    rw [htrace, List.count_append, List.count_singleton]
    grind
  clear htrace
  obtain ⟨hnextpid, hlt, hinj, hfuture, hunfreed, hzombie, hone, hreaped⟩ := h
  constructor <;> grind [Event.pid]

/-- A slot is taken with the next pid. -/
theorem PidInv.alloc (h : PidInv t) (hfree : kind (t.slot np).state = .unused)
    (hnp : (t'.slot np).state = .EMBRYO ∧ (t'.slot np).pid = t.nextpid)
    (hother : ∀ q, q ≠ np → t'.slot q = t.slot q) (hnext : t'.nextpid = t.nextpid + 1)
    (hcreated : t'.created = t.created + 1) (htrace : t'.trace = t.trace) : PidInv t' := by
  obtain ⟨hnextpid, hlt, hinj, hfuture, hunfreed, hzombie, hone, hreaped⟩ := h
  have hkind : kind (t'.slot np).state = .embryo := by simp [hnp.1]
  constructor <;> grind [Event.pid]

/-- A slot that nobody calls parent changes; its new state keeps it out of the
families, or its parent can wait for it. -/
theorem FamilyInv.change (h : FamilyInv t) (hother : ∀ q, q ≠ np → t'.slot q = t.slot q)
    (hinit : t'.initproc = t.initproc) (hnp : np ≠ t.initproc) (hold : kind (t.slot np).state ≠ .active)
    (hnew : kind (t'.slot np).state = .active ∨ kind (t'.slot np).state = .zombie →
      ∃ q, q ≠ np ∧ (t'.slot np).parent = some q ∧ kind (t.slot q).state = .active)
    (hchild : ∀ q r, (t'.pc q).child = some r → q ≠ np ∧ kind (t'.slot r).state = .embryo ∧
      kind (t.slot q).state = .active)
    (hinj : ∀ q q' r, (t'.pc q).child = some r → (t'.pc q').child = some r → q = q')
    (hparented : ∀ q r, t'.pc q = .runnable r → (t'.slot r).parent = some q) : FamilyInv t' := by
  obtain ⟨hactive, hparents, -, -, -⟩ := h
  refine ⟨by grind, by grind, fun q r hqr => ?_, hinj, hparented⟩
  obtain ⟨hq, hembryo, hkind⟩ := hchild q r hqr
  exact ⟨hembryo, by rw [hother q hq, hkind]⟩

theorem FamilyInv.child_ne (h : FamilyInv t) (hchild : (t.pc p).child = some np) : np ≠ p ∧ np ≠ t.initproc := by
  obtain ⟨hembryo, hactive⟩ := h.child p np hchild
  refine ⟨?_, ?_⟩
  · rintro rfl
    simp [hembryo] at hactive
  · rintro rfl
    simp [h.init] at hembryo

/-- A process inside `fork` moves on, and the slot it fills stays with it, is
given back, or becomes its child. -/
theorem FamilyInv.fork {pc : Pc} (h : FamilyInv t) (hchild : (t.pc p).child = some np)
    (hpc : ∀ q, t'.pc q = if q = p then pc else t.pc q) (hother : ∀ q, q ≠ np → t'.slot q = t.slot q) (hinit : t'.initproc = t.initproc)
    (hnew : (kind (t'.slot np).state = .embryo ∧ pc.child = some np ∧
        (pc = .runnable np → (t'.slot np).parent = some p)) ∨
      pc = .user ∧ (kind (t'.slot np).state = .unused ∨
        kind (t'.slot np).state = .active ∧ (t'.slot np).parent = some p)) : FamilyInv t' := by
  obtain ⟨hnp, hni⟩ := h.child_ne hchild
  obtain ⟨hactive, hparents, hchilds, hinj, hparented⟩ := h
  have hrun (r : Fin NPROC) : (Pc.runnable r).child = some r := rfl
  constructor <;> grind [Pc.child]

/-- A childless process becomes a zombie. -/
theorem FamilyInv.exit (h : FamilyInv t) (hne : p ≠ t.initproc) (huser : t.pc p = .user)
    (halone : ∀ q, (t.slot q).parent ≠ some p) (hp : kind (t.slot p).state = .active)
    (hz : kind (t'.slot p).state = .zombie) (hparent : ∀ q, (t'.slot q).parent = (t.slot q).parent)
    (hother : ∀ q, q ≠ p → t'.slot q = t.slot q) (hinit : t'.initproc = t.initproc) (hpc : t'.pc = t.pc) :
    FamilyInv t' := by
  obtain ⟨hactive, hparents, hchilds, hinj, hparented⟩ := h
  replace hpc := congrFun hpc
  constructor <;> grind [Pc.child]

/-- A process enters `fork` with a slot of its own. -/
theorem FamilyInv.alloc (h : FamilyInv t) (hp : kind (t.slot p).state = .active)
    (hfree : kind (t.slot np).state = .unused) (hnew : kind (t'.slot np).state = .embryo)
    (hother : ∀ q, q ≠ np → t'.slot q = t.slot q) (hinit : t'.initproc = t.initproc)
    (hpc : ∀ q, t'.pc q = if q = p then .kalloc np else t.pc q) : FamilyInv t' := by
  obtain ⟨hactive, hparents, hchilds, hinj, hparented⟩ := h
  have hrun (r : Fin NPROC) : (Pc.runnable r).child = some r := rfl
  constructor <;> grind [Pc.child]

end xv6.ptable
