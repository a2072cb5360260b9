import Xv6.System.Inv
import Xv6.Proc

open bytes chain outcome Function

namespace xv6

section assign

variable {s : Machine} {g : Ghost} {f : Nat} {r : Role} {L : List Nat}

/-- A frame in transit gets a place that no page directory refers to. -/
theorem Sys.assign (hs : Sys s g) (htemp : g.own f = .temp) (hr : r.detached) (hfree : r ≠ .free) :
    Sys s { g with own := update g.own f r } := by
  refine hs.relabel (by simp [htemp, Role.detached]) hr hs.chain hs.nodup (fun x => ?_) hs.hchain
    fun _ _ _ => SameOn.refl _ _ _
  by_cases hx : x = f
  · subst hx
    rw [hs.mem_free, htemp, update_self]
    simp [hfree]
  · rw [update_of_ne hx, hs.mem_free]

/-- Taking a frame off the free list for such a place. -/
theorem Sys.take (hs : Sys s g) (hfree : g.free = f :: L) (hr : r.detached) (hne : r ≠ .free) :
    Sys { s with freelist := load32 s.mem f } { g with own := update g.own f r, free := L } := by
  have h := (hs.pop hfree).assign (f := f) (update_self _ _ _) hr hne
  simpa only [update_idem] using h

theorem within_take (s : Machine) (g : Ghost) (f n : Nat) (r : Role) (L : List Nat) :
    Within (WholeArea f) (fun _ => False) s g { s with freelist := n } { g with own := update g.own f r, free := L } := by
  refine Within.mono (A := fun x _ => x = f) (H := fun _ => False) ?_ (fun _ _ h => Or.inl h) fun _ h => h
  exact Within.frame (fun _ hx => update_of_ne hx _ _) rfl (fun _ _ _ => SameOn.refl _ _ _)
    (fun _ _ => SameOn.refl _ _ _) rfl

end assign

section slot

variable {s : Machine} {g : Ghost} {p : Fin NPROC}

theorem findSlot_some {n : Nat} {test : Fin n → Bool} {i : Fin n} (h : findSlot test = some i) : test i = true :=
  List.find?_some h

theorem findSlot_none {n : Nat} {test : Fin n → Bool} (h : findSlot test = none) (i : Fin n) : test i = false := by
  have := List.find?_eq_none.1 h i (List.mem_finRange i)
  simpa using this

/-- A slot of the process table that holds no frame. -/
structure Vacant (g : Ghost) (p : Fin NPROC) : Prop where
  dir : ∀ f, IsFrame f → g.own f ≠ .dir (.proc p)
  kstack : ∀ f, IsFrame f → g.own f ≠ .kstack p

theorem ProcInv.vacant (h : ProcInv s g p) (hp : (s.proc p).state = .UNUSED) : Vacant g p where
  dir f hf hrole := (h.dir_of f hf hrole).1 hp
  kstack f hf hrole := (h.kstack_of f hf hrole).1 hp

theorem Vacant.inv (h : Vacant g p) (hp : (s.proc p).state = .UNUSED) : ProcInv s g p where
  dir hlive := absurd hp hlive
  dir_of f hf hrole := absurd hrole (h.dir f hf)
  kstack hlive := absurd hp hlive
  kstack_of f hf hrole := absurd hrole (h.kstack f hf)
  embryo := by simp [hp]

/-- The machine after `allocproc` has given slot `p` the frame `f` as its kernel stack. -/
def Machine.embryo (s : Machine) (p : Fin NPROC) (f : Nat) : Machine :=
  { s with
    freelist := load32 s.mem f
    nextpid := s.nextpid + 1
    proc := update s.proc p { s.proc p with state := .EMBRYO, pid := s.nextpid, kstack := P2V f } }

/-- The assignment after `allocproc`. -/
def Ghost.embryo (g : Ghost) (p : Fin NPROC) (f : Nat) (L : List Nat) : Ghost :=
  { g with own := update g.own f (.kstack p), free := L }

/-- What `allocproc` leaves in slot `p` when there is no frame for its stack. -/
def Machine.stillborn (s : Machine) (p : Fin NPROC) : Machine :=
  { s with
    nextpid := s.nextpid + 1
    proc := update s.proc p { s.proc p with state := .UNUSED, pid := s.nextpid, kstack := 0 } }

theorem allocproc_none (h : (findSlot fun p => decide ((s.proc p).state = .UNUSED)) = none) :
    allocproc.run s = .ok none s := by
  unfold allocproc
  rw [get_bind]
  simp only [h]
  rfl

theorem allocproc_nil (hs : Sys s g) (h : (findSlot fun p => decide ((s.proc p).state = .UNUSED)) = some p)
    (hfree : g.free = []) : allocproc.run s = .ok none (s.stillborn p) := by
  have hzero : s.freelist = 0 := by simpa [hfree, Chain] using hs.chain
  unfold allocproc
  rw [get_bind]
  simp only [h]
  rw [updateProc_bind, modify_bind]
  have hk : kalloc.run { s with
      proc := update s.proc p { s.proc p with state := .EMBRYO, pid := s.nextpid }, nextpid := s.nextpid + 1 } =
      .ok 0 { s with
        proc := update s.proc p { s.proc p with state := .EMBRYO, pid := s.nextpid }, nextpid := s.nextpid + 1 } := by
    simp only [kalloc, get_bind, hzero, ne_eq, not_true_eq_false, if_false, EStateM.run_pure]
  rw [bind_ok hk, updateProc_bind, if_pos rfl, updateProc_bind, EStateM.run_pure]
  simp only [Machine.stillborn, update_self, update_idem]

theorem allocproc_cons {f : Nat} {L : List Nat} (hs : Sys s g)
    (h : (findSlot fun p => decide ((s.proc p).state = .UNUSED)) = some p) (hfree : g.free = f :: L) :
    allocproc.run s = .ok (some p) (s.embryo p f) := by
  obtain ⟨hf, _⟩ := (hs.mem_free f).1 (by simp [hfree])
  have hlt := hf.lt
  have hne : ¬ P2V f = 0 := P2V_ne_zero (by omega)
  have hchain := hs.chain
  rw [hfree] at hchain
  unfold allocproc
  rw [get_bind]
  simp only [h]
  rw [updateProc_bind, modify_bind]
  have hk : kalloc.run { s with
      proc := update s.proc p { s.proc p with state := .EMBRYO, pid := s.nextpid }, nextpid := s.nextpid + 1 } =
      .ok (P2V f) { s with
        proc := update s.proc p { s.proc p with state := .EMBRYO, pid := s.nextpid }, nextpid := s.nextpid + 1,
        freelist := load32 s.mem f } := by
    simp only [kalloc, get_bind, hchain.1, if_pos hne, readWord_bind, V2P_P2V (show f < 2 ^ 32 by omega), modify_bind,
      EStateM.run_pure]
  rw [bind_ok hk, updateProc_bind, if_neg hne, EStateM.run_pure]
  simp only [Machine.embryo, update_self, update_idem]

end slot

end xv6
