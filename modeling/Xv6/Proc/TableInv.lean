import Xv6.Proc.Table

open Function run

namespace xv6.ptable

/-- The states of a process that a table invariant can tell apart. -/
inductive Kind where
  | unused | embryo | active | zombie
  deriving DecidableEq

def kind : ProcState → Kind
  | .UNUSED => .unused
  | .EMBRYO => .embryo
  | .ZOMBIE => .zombie
  | _ => .active

/-- The slot that a process inside `fork` is filling. -/
def Pc.child : Pc → Option (Fin NPROC)
  | .user => none
  | .kalloc np | .copyuvm np | .parent np | .runnable np => some np

/-- The process that an event happens to. -/
def Event.pid : Event → Nat
  | .zombie pid | .reap pid | .kfree pid | .freevm pid => pid

variable {C : Type} {t t' : Table C} {c : C} {p q np : Fin NPROC}

/-- Pids are never used twice, and what happens to a process is recorded under its own. -/
structure PidInv (t : Table C) : Prop where
  nextpid : t.nextpid = t.created + 1
  lt : ∀ p, kind (t.slot p).state ≠ .unused → (t.slot p).pid < t.nextpid
  inj : ∀ p q, kind (t.slot p).state ≠ .unused → kind (t.slot q).state ≠ .unused →
    (t.slot p).pid = (t.slot q).pid → p = q
  future : ∀ e : Event, t.nextpid ≤ e.pid → t.trace.count e = 0
  unfreed : ∀ p, kind (t.slot p).state ≠ .unused →
    ∀ e : Event, e.pid = (t.slot p).pid → e ≠ .zombie (t.slot p).pid → t.trace.count e = 0
  zombie : ∀ p, kind (t.slot p).state ≠ .unused →
    t.trace.count (.zombie (t.slot p).pid) = if kind (t.slot p).state = .zombie then 1 else 0
  once : ∀ pid, t.trace.count (.reap pid) ≤ 1 ∧ (0 < t.trace.count (.zombie pid) →
    t.trace.count (.kfree pid) = t.trace.count (.reap pid) ∧ t.trace.count (.freevm pid) = t.trace.count (.reap pid))
  reaped : ∀ pid, 0 < t.trace.count (.zombie pid) →
    (∃ p, kind (t.slot p).state = .zombie ∧ (t.slot p).pid = pid) ∨ t.trace.count (.reap pid) = 1

/-- Every process has a parent that can wait for it. -/
structure FamilyInv (t : Table C) : Prop where
  init : kind (t.slot t.initproc).state = .active
  parent : ∀ p, p ≠ t.initproc → kind (t.slot p).state = .active ∨ kind (t.slot p).state = .zombie →
    ∃ q, (t.slot p).parent = some q ∧ kind (t.slot q).state = .active
  child : ∀ p np, (t.pc p).child = some np → kind (t.slot np).state = .embryo ∧ kind (t.slot p).state = .active
  child_inj : ∀ p q np, (t.pc p).child = some np → (t.pc q).child = some np → p = q
  parented : ∀ p np, t.pc p = .runnable np → (t.slot np).parent = some p

/-- The running processes are those of the CPUs. -/
structure CpuInv (t : Table C) : Prop where
  running : ∀ c p, t.cpu c = some p → (t.slot p).state = .RUNNING
  inj : ∀ c c' p, t.cpu c = some p → t.cpu c' = some p → c = c'
  cpu : ∀ p, (t.slot p).state = .RUNNING → ∃ c, t.cpu c = some p

@[simp, grind =] theorem slot_update (f : Slot → Slot) :
    (t.update p f).slot q = if q = p then f (t.slot p) else t.slot q := by
  simp [Table.update, update_apply]

@[simp, grind =] theorem pc_goto {pc : Pc} : (t.goto p pc).pc q = if q = p then pc else t.pc q := update_apply ..

@[simp] theorem kind_eq_unused {s : ProcState} : kind s = .unused ↔ s = .UNUSED := by
  cases s <;> simp [kind]

@[simp] theorem kind_eq_embryo {s : ProcState} : kind s = .embryo ↔ s = .EMBRYO := by
  cases s <;> simp [kind]

@[simp] theorem kind_eq_zombie {s : ProcState} : kind s = .zombie ↔ s = .ZOMBIE := by
  cases s <;> simp [kind]

theorem findSlot_some {n : Nat} {test : Fin n → Bool} {i : Fin n} (h : findSlot test = some i) : test i = true :=
  List.find?_some h

/-- A step that keeps pids and the kind of every slot. -/
structure SameKinds (t t' : Table C) : Prop where
  pid : ∀ q, (t'.slot q).pid = (t.slot q).pid
  kind : ∀ q, kind (t'.slot q).state = kind (t.slot q).state
  nextpid : t'.nextpid = t.nextpid
  initproc : t'.initproc = t.initproc
  created : t'.created = t.created
  trace : t'.trace = t.trace

theorem SameKinds.refl (t : Table C) : SameKinds t t := ⟨fun _ => rfl, fun _ => rfl, rfl, rfl, rfl, rfl⟩

theorem SameKinds.trans {t'' : Table C} (h : SameKinds t t') (h' : SameKinds t' t'') : SameKinds t t'' where
  pid q := (h'.pid q).trans (h.pid q)
  kind q := (h'.kind q).trans (h.kind q)
  nextpid := h'.nextpid.trans h.nextpid
  initproc := h'.initproc.trans h.initproc
  created := h'.created.trans h.created
  trace := h'.trace.trans h.trace

theorem PidInv.congr (h : PidInv t) (hpid : ∀ q, (t'.slot q).pid = (t.slot q).pid)
    (hunused : ∀ q, kind (t'.slot q).state = .unused ↔ kind (t.slot q).state = .unused)
    (hzombie : ∀ q, kind (t'.slot q).state = .zombie ↔ kind (t.slot q).state = .zombie)
    (hnext : t'.nextpid = t.nextpid) (hcreated : t'.created = t.created) (htrace : t'.trace = t.trace) : PidInv t' := by
  obtain ⟨hnextpid, hlt, hinj, hfuture, hunfreed, hz, honce, hreaped⟩ := h
  constructor <;> grind

theorem PidInv.same (h : PidInv t) (hk : SameKinds t t') : PidInv t' :=
  h.congr hk.pid (fun q => by rw [hk.kind]) (fun q => by rw [hk.kind]) hk.nextpid hk.created hk.trace

/-- Parents are kept, or the children of a process outside `fork` go to `initproc`. -/
theorem FamilyInv.same (h : FamilyInv t) (hk : SameKinds t t') (hpc : t'.pc = t.pc)
    (hparent : ∀ q, (t'.slot q).parent = (t.slot q).parent ∨
      ∃ p, t.pc p = .user ∧ (t.slot q).parent = some p ∧ (t'.slot q).parent = some t.initproc) : FamilyInv t' := by
  obtain ⟨-, hkind, -, hinit, -, -⟩ := hk
  obtain ⟨hactive, hparents, hchild, hinj, hparented⟩ := h
  replace hpc := congrFun hpc
  exact ⟨by grind, by grind, by clear hparent; grind, by clear hparents; grind, by grind⟩

theorem CpuInv.same (h : CpuInv t) (hcpu : t'.cpu = t.cpu)
    (hrun : ∀ q, (t'.slot q).state = .RUNNING ↔ (t.slot q).state = .RUNNING) : CpuInv t' := by
  obtain ⟨hrunning, hinj, hcpus⟩ := h
  replace hcpu := congrFun hcpu
  constructor <;> grind

section cpu

variable [DecidableEq C]

/-- Process `p` leaves CPU `c`. -/
theorem CpuInv.leave (h : CpuInv t) (hc : t.cpu c = some p) (hcpu : ∀ c', t'.cpu c' = if c' = c then none else t.cpu c')
    (hp : (t'.slot p).state ≠ .RUNNING)
    (hrun : ∀ q, q ≠ p → ((t'.slot q).state = .RUNNING ↔ (t.slot q).state = .RUNNING)) : CpuInv t' := by
  obtain ⟨hrunning, hinj, hcpus⟩ := h
  constructor <;> grind

/-- Process `p` enters the idle CPU `c`. -/
theorem CpuInv.enter (h : CpuInv t) (hc : t.cpu c = none) (hcpu : ∀ c', t'.cpu c' = if c' = c then some p else t.cpu c')
    (hidle : (t.slot p).state ≠ .RUNNING) (hp : (t'.slot p).state = .RUNNING)
    (hrun : ∀ q, q ≠ p → ((t'.slot q).state = .RUNNING ↔ (t.slot q).state = .RUNNING)) : CpuInv t' := by
  obtain ⟨hrunning, hinj, hcpus⟩ := h
  constructor <;> grind

end cpu

section wakeup

variable {s : Slot} {chan : Option Chan}

@[simp] theorem kind_wakeup : kind (s.wakeup chan).state = kind s.state := by
  unfold Slot.wakeup
  split_ifs with h
  · simp [h.1, kind]
  · rfl

@[simp] theorem running_wakeup : (s.wakeup chan).state = .RUNNING ↔ s.state = .RUNNING := by
  unfold Slot.wakeup
  split_ifs with h
  · simp [h.1]
  · rfl

@[simp] theorem pid_wakeup : (s.wakeup chan).pid = s.pid := by
  unfold Slot.wakeup
  split_ifs <;> rfl

@[simp] theorem parent_wakeup : (s.wakeup chan).parent = s.parent := by
  unfold Slot.wakeup
  split_ifs <;> rfl

end wakeup

/-- A step that only wakes processes, marks them killed and hands the children
of process `p` to `initproc`. -/
structure Gentle (p : Option (Fin NPROC)) (t t' : Table C) : Prop extends SameKinds t t' where
  pc : t'.pc = t.pc
  cpu : t'.cpu = t.cpu
  running : ∀ q, (t'.slot q).state = .RUNNING ↔ (t.slot q).state = .RUNNING
  parent : ∀ q, (t'.slot q).parent = (t.slot q).parent ∨
    p.isSome ∧ (t.slot q).parent = p ∧ (t'.slot q).parent = some t.initproc

section gentle

variable {o : Option (Fin NPROC)}

theorem Gentle.refl (o : Option (Fin NPROC)) (t : Table C) : Gentle o t t :=
  ⟨SameKinds.refl t, rfl, rfl, fun _ => Iff.rfl, fun _ => .inl rfl⟩

theorem Gentle.trans {t'' : Table C} (h : Gentle o t t') (h' : Gentle o t' t'') : Gentle o t t'' where
  toSameKinds := h.toSameKinds.trans h'.toSameKinds
  pc := h'.pc.trans h.pc
  cpu := h'.cpu.trans h.cpu
  running q := (h'.running q).trans (h.running q)
  parent q := by
    rcases h.parent q with heq | ⟨hs, hp, heq⟩ <;> rcases h'.parent q with heq' | ⟨hs', hp', heq'⟩
    · exact .inl (heq'.trans heq)
    · exact .inr ⟨hs', heq ▸ hp', h.initproc ▸ heq'⟩
    · exact .inr ⟨hs, hp, heq'.trans heq⟩
    · exact .inr ⟨hs, hp, h.initproc ▸ heq'⟩

theorem Gentle.pidInv (h : Gentle o t t') (hi : PidInv t) : PidInv t' := hi.same h.toSameKinds

theorem Gentle.familyInv (h : Gentle o t t') (hi : FamilyInv t) (ho : ∀ p, o = some p → t.pc p = .user) :
    FamilyInv t' := by
  refine hi.same h.toSameKinds h.pc fun q => (h.parent q).imp id fun ⟨hs, hp, heq⟩ => ?_
  obtain ⟨p, rfl⟩ := Option.isSome_iff_exists.1 hs
  exact ⟨p, ho p rfl, hp, heq⟩

theorem Gentle.cpuInv (h : Gentle o t t') (hi : CpuInv t) : CpuInv t' := hi.same h.cpu h.running

theorem wakeup1_gentle (chan : Option Chan) : Gentle o t (wakeup1 t chan) where
  pid q := by simp [wakeup1]
  kind q := by simp [wakeup1]
  nextpid := rfl
  initproc := rfl
  created := rfl
  trace := rfl
  pc := rfl
  cpu := rfl
  running q := by simp [wakeup1]
  parent q := .inl (by simp [wakeup1])

theorem kill_gentle (pid : Nat) : Gentle o t (kill t pid).2 := by
  unfold kill
  split
  · exact Gentle.refl o t
  · next p _ =>
    refine ⟨⟨fun q => ?_, fun q => ?_, rfl, rfl, rfl, rfl⟩, rfl, rfl, fun q => ?_, fun q => .inl ?_⟩
    all_goals
      simp only [slot_update]
      split_ifs <;> simp_all [kind]

theorem abandon_gentle (t : Table C) (q : Fin NPROC) : Gentle (some p) t (exit.abandon p t q) := by
  unfold exit.abandon
  split_ifs with hp
  · have hstep : Gentle (some p) t (t.update q fun s => { s with parent := some t.initproc }) := by
      refine ⟨⟨fun r => ?_, fun r => ?_, rfl, rfl, rfl, rfl⟩, rfl, rfl, fun r => ?_, fun r => ?_⟩
      all_goals
        simp only [slot_update]
        split_ifs with hr
        · simp [hr, hp]
        · simp
    simp only []
    split_ifs
    · exact hstep.trans (wakeup1_gentle _)
    · exact hstep
  · exact Gentle.refl _ t

theorem abandon_parent (t : Table C) (hne : p ≠ t.initproc) (q : Fin NPROC) :
    ((exit.abandon p t q).slot q).parent ≠ some p := by
  unfold exit.abandon
  split_ifs with hp
  · simp only []
    split_ifs <;> simp [wakeup1, hne.symm]
  · exact hp

/-- The loop of `exit` leaves the exiting process without children. -/
theorem abandon_all (hne : p ≠ t.initproc) (l : List (Fin NPROC)) :
    Gentle (some p) t (l.foldl (exit.abandon p) t) ∧
      ∀ q ∈ l, ((l.foldl (exit.abandon p) t).slot q).parent ≠ some p := by
  induction l generalizing t with
  | nil => exact ⟨Gentle.refl _ t, by simp⟩
  | cons q l ih =>
    have hstep := abandon_gentle (p := p) t q
    obtain ⟨hrest, hgone⟩ := ih (t := exit.abandon p t q) (by rwa [hstep.initproc])
    refine ⟨hstep.trans hrest, fun r hr => ?_⟩
    rcases List.mem_cons.1 hr with rfl | hr
    · rw [List.foldl_cons]
      rcases hrest.parent r with heq | ⟨_, _, heq⟩
      · rw [heq]
        exact abandon_parent t hne r
      · rw [heq, hstep.initproc]
        simpa using hne.symm
    · exact hgone r hr

end gentle

end xv6.ptable
