import Xv6.System.Fork

open bytes outcome Function

namespace xv6

section exit

variable {s s' : Machine} {g g' : Ghost} {e : Fin NFILE → Nat} {p q : Fin NPROC} {d k : Nat}

theorem Holds.congr (h : Holds s g p d k) (hmem : s'.mem = s.mem) (hpgdir : (s'.proc p).pgdir = (s.proc p).pgdir)
    (hsz : (s'.proc p).sz = (s.proc p).sz) (hhugesz : (s'.proc p).hugesz = (s.proc p).hugesz)
    (hkstack : (s'.proc p).kstack = (s.proc p).kstack) : Holds s' g p d k where
  frame := h.frame
  role := h.role
  pgdir := hpgdir.trans h.pgdir
  kern := hmem ▸ h.kern
  layout := by
    rw [hmem, hsz, hhugesz]
    exact h.layout
  dir_eq := h.dir_eq
  stack := h.stack
  kstack := hkstack.trans h.kstack
  kstack_iff := h.kstack_iff

/-- The machine after process `p` has ended. -/
def Machine.ended (s : Machine) (p : Fin NPROC) : Machine :=
  { s with proc := update s.proc p { s.proc p with state := .ZOMBIE } }

theorem Sound.ended (h : Sound s g) (hlive : (s.proc p).state ≠ .UNUSED) : Kept (· = p) s g (s.ended p) g := by
  obtain ⟨d, k, hh⟩ := h.holds hlive
  have hp : (s.ended p).proc p = { s.proc p with state := .ZOMBIE } := update_self _ _ _
  have haside : Aside p s g (s.ended p) g := (h.aside p).record rfl fun q hq => update_of_ne hq _ _
  have hholds : Holds (s.ended p) g p d k := hh.congr rfl (by rw [hp]) (by rw [hp]) (by rw [hp]) (by rw [hp])
  exact haside.kept (hholds.inv (by rw [hp]; simp) (by rw [hp]; simp))

/-- The machine after the children of process `p` have been handed over to the first process. -/
def Machine.orphaned (s : Machine) (p : Fin NPROC) : Machine :=
  { s with proc := fun q => if (s.proc q).parent = some p then { s.proc q with parent := some s.initproc } else s.proc q }

theorem orphaned_slot (s : Machine) (p q : Fin NPROC) :
    SameSlot (s.proc q) ((s.orphaned p).proc q) ∧ ((s.orphaned p).proc q).ofile = (s.proc q).ofile := by
  simp only [Machine.orphaned]
  split_ifs
  · exact ⟨⟨rfl, rfl, rfl, rfl, rfl⟩, rfl⟩
  · exact ⟨.refl _, rfl⟩

/-- `exit` ends its process, which keeps its memory until it is reaped. -/
theorem exit_spec (h : Sound s g) (hlive : (s.proc p).state ≠ .UNUSED) (hc : Counted s e) (hinit : p ≠ s.initproc) :
    ∃ s' g', (exit p).run s = .ok () s' ∧ Kept (· = p) s g s' g' ∧ Saved g g' ∧ Counted s' e ∧
      (s'.proc p).state = .ZOMBIE := by
  obtain ⟨s₁, g₁, hclose, hcalm₁, hc₁, hnone⟩ := exit_close (p := p) (List.finRange NOFILE) s g h hc
  have hcalm₂ : Calm s₁ g₁ (s₁.orphaned p) g₁ := hcalm₁.sound.reslot rfl fun q => (orphaned_slot s₁ p q).1
  have hcalm := hcalm₁.trans hcalm₂
  have hkept := hcalm.sound.ended (p := p) (by rwa [(hcalm.slot p).state])
  have hc₂ : Counted (s₁.orphaned p) e :=
    hc₁.congr rfl (fun q => (orphaned_slot s₁ p q).2) fun q hq => by rwa [(orphaned_slot s₁ p q).1.state] at hq
  have hp : ((s₁.orphaned p).ended p).proc p = { (s₁.orphaned p).proc p with state := .ZOMBIE } := update_self _ _ _
  refine ⟨(s₁.orphaned p).ended p, g₁, ?_, hcalm.kept.trans hkept, hcalm.saved, ⟨?_, fun q hq fd => ?_⟩, by rw [hp]⟩
  · unfold exit
    rw [get_bind, if_neg hinit, bind_ok hclose, modify_bind]
    rfl
  · have hdesc : descriptors ((s₁.orphaned p).ended p) = descriptors (s₁.orphaned p) := by
      funext x
      by_cases hx : x.1 = p
      · simp [descriptors, Machine.ended, hx]
      · simp [descriptors, Machine.ended, hx]
    rw [hdesc]
    exact hc₂.exact
  · by_cases hqp : q = p
    · rw [hqp, hp]
      simp only [(orphaned_slot s₁ p p).2]
      exact hnone fd (.inl (List.mem_finRange fd))
    · have hother : ((s₁.orphaned p).ended p).proc q = (s₁.orphaned p).proc q := update_of_ne hqp _ _
      rw [hother] at hq ⊢
      exact hc₂.shut q hq fd

end exit

section wait

variable {s s' : Machine} {g g' : Ghost} {e : Fin NFILE → Nat} {p q : Fin NPROC} {d k : Nat}

/-- Process `q` is a child of process `p` that has ended. -/
def Reapable (s : Machine) (p q : Fin NPROC) : Prop := (s.proc q).parent = some p ∧ (s.proc q).state = .ZOMBIE

/-- Both the stack and the memory of process `q` are given back. -/
theorem Sound.reap (h : Sound s g) (hh : Holds s g q d k) (hquiet : HugeQuiet s q) {u : Proc} (hu : u.state = .UNUSED)
    (v : Proc) :
    ∃ s₂ g', (freevm (P2V d)).run { s.freed k with proc := update s.proc q v } = .ok () s₂ ∧
      s₂.proc = update s.proc q v ∧ s₂.file = s.file ∧ Kept (· = q) s g { s₂ with proc := update s.proc q u } g' ∧
      ((s.proc q).hugesz = 0 → Saved g g') := by
  have hkrole := (hh.kstack_iff k hh.stack).2 rfl
  obtain ⟨g₁, hs₁, hw₁, hfree₁⟩ := h.sys.free_stack hh.stack hkrole
  have hfix : (g.own k).fixed ∨ g.own k = .free := .inl (by simp [hkrole, Role.fixed])
  have hdir₁ : g₁.own d = .dir (.proc q) := (hw₁.own_iff hh.frame hh.ne rfl).2 hh.role
  have hview := hw₁.view_eq h.sys hh.frame hh.role (.of_ne hh.ne hh.role hfix)
  have hquiet₁ : Quiet (s.freed k).mem d 0 (2 ^ 19) :=
    (hquiet.quiet hh.toProcDir).congr le_rfl hview.2 (fun f hf => hw₁.hsame f hf id) le_rfl (.inl rfl) (by omega)
  obtain ⟨s₁, hs₁eq⟩ : ∃ s₁ : Machine, s₁ = { s.freed k with proc := update s.proc q v } := ⟨_, rfl⟩
  have haside₁ : Aside q s g s₁ g₁ := ((h.aside q).step hw₁ hs₁ (by simp [hkrole, Role.Private]) (by simp [hfree₁, Role.Private])
    (by simp [hfree₁]) fun _ _ => False.elim).record (by rw [hs₁eq]) fun q' hq => by rw [hs₁eq]; exact update_of_ne hq _ _
  obtain ⟨s₂, g', hrun, haside₂, hdrop⟩ := haside₁.freevm hh.frame hdir₁ (by rw [hs₁eq]; exact hquiet₁)
  have hw₂ := hdrop.within
  have haside : Aside q s g { s₂ with proc := update s.proc q u } g' := haside₂.record rfl fun q' hq => update_of_ne hq _ _
  have hvacant : Vacant g' q := by
    have hback {x : Nat} (hx : IsFrame x) {r : Role} (hr : r.fixed) (hrole : g'.own x = r) : g.own x = r ∧ x ≠ d ∧ x ≠ k := by
      have hxd : x ≠ d := by
        rintro rfl
        rw [← hrole, hdrop.free] at hr
        cases hr
      rw [hw₂.own_iff hx hxd hr] at hrole
      have hxk : x ≠ k := by
        rintro rfl
        rw [← hrole, hfree₁] at hr
        cases hr
      exact ⟨(hw₁.own_iff hx hxk hr).1 hrole, hxd, hxk⟩
    refine ⟨fun x hx hrole => ?_, fun x hx hrole => ?_⟩
    · obtain ⟨hold, hxd, -⟩ := hback hx rfl hrole
      exact hxd (hh.dir_eq x hx hold)
    · obtain ⟨hold, -, hxk⟩ := hback hx rfl hrole
      exact hxk ((hh.kstack_iff x hx).1 hold)
  exact ⟨s₂, g', hs₁eq ▸ hrun, by rw [hw₂.rest, hs₁eq], by rw [hw₂.rest, hs₁eq]; rfl,
    haside.kept (hvacant.inv (by simp [hu])), hdrop.saved hw₁ h.sys hh.toProcDir⟩

/-- `wait` changes nothing, or it reaps a child that has ended. -/
theorem wait_spec (h : Sound s g) (hc : Counted s e) (hquiet : ∀ q, Reapable s p q → HugeQuiet s q) :
    (∃ r, (wait p).run s = .ok r s) ∨
    ∃ q s' g', Reapable s p q ∧ (wait p).run s = .ok (some (s.proc q).pid) s' ∧ Kept (· = q) s g s' g' ∧
      ((s.proc q).hugesz = 0 → Saved g g') ∧ Counted s' e ∧ (s'.proc q).state = .UNUSED := by
  unfold wait
  rw [get_bind]
  cases hslot : findSlot fun q => decide ((s.proc q).parent = some p) && decide ((s.proc q).state = .ZOMBIE) with
  | none =>
    simp only []
    split_ifs
    · exact .inl ⟨_, rfl⟩
    · exact .inl ⟨_, rfl⟩
  | some q =>
    have hreap : Reapable s p q := by
      have := findSlot_some hslot
      simpa [Reapable] using this
    obtain ⟨d, k, hh⟩ := h.holds (p := q) (by rw [hreap.2]; simp)
    simp only []
    rw [hh.kstack, bind_ok (kfree_run hh.stack s), updateProc_bind, hh.pgdir]
    obtain ⟨u, hu⟩ : ∃ u : Proc, u = { s.proc q with
      kstack := 0, pid := 0, parent := none, name := [], killed := false, state := .UNUSED } := ⟨_, rfl⟩
    obtain ⟨s₂, g', hfree, hproc, hfile, hkept, hsaved⟩ := h.reap hh (hquiet q hreap) (u := u) (by rw [hu])
      { s.proc q with kstack := 0 }
    have hfree' : (freevm (P2V d)).run { s.freed k with
        proc := update (s.freed k).proc q { (s.freed k).proc q with kstack := 0 } } = .ok () s₂ := hfree
    rw [bind_ok hfree', updateProc_bind, EStateM.run_pure]
    have hslot (q' : Fin NPROC) : (update s.proc q u q').ofile = (s.proc q').ofile := by
      by_cases hq : q' = q
      · rw [hq, update_self, hu]
      · rw [update_of_ne hq]
    refine .inr ⟨q, { s₂ with proc := update s.proc q u }, g', hreap, ?_, hkept, hsaved, hc.congr hfile hslot fun q' hq => ?_, ?_⟩
    · rw [hproc, update_idem, update_self, ← hu]
    · by_cases hqq : q' = q
      · rw [hqq]
        exact .inr hreap.2
      · simpa only [update_of_ne hqq] using hq
    · simp only [update_self, hu]

end wait

end xv6
