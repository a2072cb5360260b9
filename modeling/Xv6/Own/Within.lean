import Xv6.Own.Tables

open bytes Function

namespace xv6

/-- A step of the kernel that changes roles and contents only of the frames an
area admits, and nothing of the machine besides memory and the allocators. -/
structure Within (A : Nat → Role → Prop) (H : HugeRole → Prop) (s : Machine) (g : Ghost)
    (s' : Machine) (g' : Ghost) : Prop where
  role : ∀ f, IsFrame f → A f (g.own f) ∧ A f (g'.own f) ∨ g'.own f = g.own f
  same : ∀ f, IsFrame f → ¬ A f (g.own f) → SameOn s.mem s'.mem f 4096
  hrole : ∀ f, IsHuge f → H (g.hown f) ∧ H (g'.hown f) ∨ g'.hown f = g.hown f
  hsame : ∀ f, IsHuge f → ¬ H (g.hown f) → SameOn s.mem s'.mem f 0x400000
  rest : s' = { s with mem := s'.mem, freelist := s'.freelist, freehugelist := s'.freehugelist,
                       frees := s'.frees }

section within

variable {A B : Nat → Role → Prop} {H K : HugeRole → Prop} {s s' s'' : Machine} {g g' g'' : Ghost}

theorem Within.refl (A : Nat → Role → Prop) (H : HugeRole → Prop) (s : Machine) (g : Ghost) :
    Within A H s g s g :=
  ⟨fun _ _ => .inr rfl, fun _ _ _ => SameOn.refl _ _ _, fun _ _ => .inr rfl,
    fun _ _ _ => SameOn.refl _ _ _, rfl⟩

theorem Within.trans (h : Within A H s g s' g') (h' : Within A H s' g' s'' g'') :
    Within A H s g s'' g'' := by
  refine ⟨?_, ?_, ?_, ?_, ?_⟩
  · intro f hf
    rcases h.role f hf with ⟨ha, ha'⟩ | heq
    · rcases h'.role f hf with ⟨_, ha''⟩ | heq'
      · exact .inl ⟨ha, ha''⟩
      · exact .inl ⟨ha, heq' ▸ ha'⟩
    · rcases h'.role f hf with ⟨ha', ha''⟩ | heq'
      · exact .inl ⟨heq ▸ ha', ha''⟩
      · exact .inr (heq'.trans heq)
  · intro f hf hout
    have hout' : ¬ A f (g'.own f) := by
      rcases h.role f hf with ⟨ha, _⟩ | heq
      · exact absurd ha hout
      · rwa [heq]
    exact (h.same f hf hout).trans (h'.same f hf hout')
  · intro f hf
    rcases h.hrole f hf with ⟨ha, ha'⟩ | heq
    · rcases h'.hrole f hf with ⟨_, ha''⟩ | heq'
      · exact .inl ⟨ha, ha''⟩
      · exact .inl ⟨ha, heq' ▸ ha'⟩
    · rcases h'.hrole f hf with ⟨ha', ha''⟩ | heq'
      · exact .inl ⟨heq ▸ ha', ha''⟩
      · exact .inr (heq'.trans heq)
  · intro f hf hout
    have hout' : ¬ H (g'.hown f) := by
      rcases h.hrole f hf with ⟨ha, _⟩ | heq
      · exact absurd ha hout
      · rwa [heq]
    exact (h.hsame f hf hout).trans (h'.hsame f hf hout')
  · rw [h'.rest, h.rest]

theorem Within.mono (h : Within A H s g s' g') (hA : ∀ f r, A f r → B f r) (hH : ∀ r, H r → K r) :
    Within B K s g s' g' := by
  refine ⟨?_, ?_, ?_, ?_, h.rest⟩
  · intro f hf
    exact (h.role f hf).imp (fun ha => ⟨hA _ _ ha.1, hA _ _ ha.2⟩) id
  · exact fun f hf hout => h.same f hf fun ha => hout (hA _ _ ha)
  · intro f hf
    exact (h.hrole f hf).imp (fun ha => ⟨hH _ ha.1, hH _ ha.2⟩) id
  · exact fun f hf hout => h.hsame f hf fun ha => hout (hH _ ha)

/-- Machine `s` with the memory and the allocators of `t`. -/
def Machine.withMem (s t : Machine) : Machine :=
  { s with mem := t.mem, freelist := t.freelist, freehugelist := t.freehugelist, frees := t.frees }

/-- Only memory matters to the areas of a step. -/
theorem Within.withMem {t : Machine} (h : Within A H s g s' g') (hmem : t.mem = s.mem) :
    Within A H t g (t.withMem s') g' :=
  ⟨h.role, hmem ▸ h.same, h.hrole, hmem ▸ h.hsame, rfl⟩

/-- Only the frame `x` changes its role or its contents. -/
theorem Within.frame {x : Nat}
    (hown : ∀ f, f ≠ x → g'.own f = g.own f) (hhown : g'.hown = g.hown)
    (hsame : ∀ f, IsFrame f → f ≠ x → SameOn s.mem s'.mem f 4096)
    (hhsame : ∀ f, IsHuge f → SameOn s.mem s'.mem f 0x400000)
    (hrest : s' = { s with mem := s'.mem, freelist := s'.freelist, freehugelist := s'.freehugelist,
                           frees := s'.frees }) :
    Within (fun f _ => f = x) (fun _ => False) s g s' g' := by
  refine ⟨?_, ?_, ?_, ?_, hrest⟩
  · intro f _
    by_cases hf : f = x
    · exact .inl ⟨hf, hf⟩
    · exact .inr (hown f hf)
  · exact fun f hf hne => hsame f hf hne
  · exact fun f _ => .inr (by rw [hhown])
  · exact fun f hf _ => hhsame f hf

end within

/-- The frames that the user half of directory `d` may use. -/
def UserArea (d : Nat) (f : Nat) (r : Role) : Prop :=
  f = d ∨ r = .free ∨ (∃ i < 512, r = .table d i) ∨ ∃ i j, r = .page d i j

/-- The huge frames that directory `d` may use. -/
def HugeArea (d : Nat) (r : HugeRole) : Prop := r = .free ∨ ∃ i, r = .page d i

/-- A step on the user half of directory `d`. -/
structure UserStep (d : Nat) (H : HugeRole → Prop) (s : Machine) (g : Ghost) (s' : Machine)
    (g' : Ghost) : Prop extends Within (UserArea d) H s g s' g' where
  dir : g'.own d = g.own d
  kern : ∀ i, 512 ≤ i → i < 1024 → entry s'.mem d i = entry s.mem d i

theorem UserStep.refl (d : Nat) (H : HugeRole → Prop) (s : Machine) (g : Ghost) :
    UserStep d H s g s g := ⟨Within.refl _ _ _ _, rfl, fun _ _ _ => rfl⟩

theorem UserStep.trans {d : Nat} {H : HugeRole → Prop} {s s' s'' : Machine} {g g' g'' : Ghost}
    (h : UserStep d H s g s' g') (h' : UserStep d H s' g' s'' g'') : UserStep d H s g s'' g'' :=
  ⟨h.toWithin.trans h'.toWithin, h'.dir.trans h.dir,
    fun i hlo hhi => (h'.kern i hlo hhi).trans (h.kern i hlo hhi)⟩

theorem UserStep.mono {d : Nat} {H K : HugeRole → Prop} {s s' : Machine} {g g' : Ghost}
    (h : UserStep d H s g s' g') (hH : ∀ r, H r → K r) : UserStep d K s g s' g' :=
  ⟨h.toWithin.mono (fun _ _ h => h) hH, h.dir, h.kern⟩

end xv6
