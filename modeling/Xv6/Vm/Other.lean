import Xv6.Own.View

open bytes Function

namespace xv6

variable {s s' : Machine} {g g' : Ghost} {A : Nat → Role → Prop} {H : HugeRole → Prop} {p i j k f : Nat}
  {o : DirOwner}

/-- A directory none of whose frames lie in the area of a step. -/
structure Outside (A : Nat → Role → Prop) (g : Ghost) (p : Nat) : Prop where
  dir : ¬ A p (g.own p)
  table : ∀ t i, g.own t = .table p i → ¬ A t (g.own t)
  page : ∀ f i j, g.own f = .page p i j → ¬ A f (g.own f)

/-- The view of a directory outside the area of a step stays as it was. -/
theorem Within.view_eq (h : Within A H s g s' g') (hs : Sys s g) (hp : IsFrame p) (hdir : g.own p = .dir o)
    (hout : Outside A g p) :
    (∀ k < 2 ^ 20, lookup s'.mem p k = lookup s.mem p k) ∧
      ∀ i < 1024, entry s'.mem p i = entry s.mem p i := by
  have hsame := h.same p hp hout.dir
  exact ⟨(hs.view_congr hp hdir hsame fun t i ht htable => h.same t ht (hout.table t i htable)).1,
    fun i hi => entry_eq_of_sameOn hsame hi⟩

theorem Within.page_same (h : Within A H s g s' g') (hf : IsFrame f) (hpage : g.own f = .page p i j)
    (hout : Outside A g p) : SameOn s.mem s'.mem f 4096 := h.same f hf (hout.page f i j hpage)

/-- The frames that directory `d` may use, for a directory that is built or torn down. -/
def WholeArea (d : Nat) (f : Nat) (r : Role) : Prop :=
  f = d ∨ r = .free ∨ (∃ i, r = .table d i) ∨ ∃ i j, r = .page d i j

theorem UserArea.whole {d f : Nat} {r : Role} (h : UserArea d f r) : WholeArea d f r := by
  rcases h with h | h | ⟨i, _, h⟩ | h
  · exact .inl h
  · exact .inr (.inl h)
  · exact .inr (.inr (.inl ⟨i, h⟩))
  · exact .inr (.inr (.inr h))

theorem UserStep.whole {d : Nat} (h : UserStep d H s g s' g') : Within (WholeArea d) H s g s' g' :=
  h.toWithin.mono (fun _ _ h => h.whole) fun _ h => h

theorem HugeArea.of_false {d : Nat} (r : HugeRole) (h : False) : HugeArea d r := h.elim

theorem Outside.mono {B : Nat → Role → Prop} (h : Outside B g p) (hA : ∀ f r, A f r → B f r) :
    Outside A g p where
  dir ha := h.dir (hA _ _ ha)
  table t i htable ha := h.table t i htable (hA _ _ ha)
  page f i j hpage ha := h.page f i j hpage (hA _ _ ha)

/-- Every other directory is outside the area of directory `d`. -/
theorem Outside.whole {d : Nat} (hne : p ≠ d) (hdir : g.own p = .dir o)
    (hd : g.own d = .free ∨ ∃ o, g.own d = .dir o) : Outside (WholeArea d) g p where
  dir := by simp [WholeArea, hne, hdir]
  table t i htable := by
    rintro (rfl | h | ⟨i', h⟩ | ⟨i', j', h⟩)
    · rcases hd with h | ⟨o, h⟩ <;> simp [htable] at h
    · simp [htable] at h
    · rw [htable] at h
      simp only [Role.table.injEq] at h
      exact hne h.1
    · simp [htable] at h
  page f i j hpage := by
    rintro (rfl | h | ⟨i', h⟩ | ⟨i', j', h⟩)
    · rcases hd with h | ⟨o, h⟩ <;> simp [hpage] at h
    · simp [hpage] at h
    · simp [hpage] at h
    · rw [hpage] at h
      simp only [Role.page.injEq] at h
      exact hne h.1

theorem Outside.user {d : Nat} {o' : DirOwner} (hne : p ≠ d) (hdir : g.own p = .dir o)
    (hd : g.own d = .dir o') : Outside (UserArea d) g p :=
  (Outside.whole hne hdir (.inr ⟨o', hd⟩)).mono fun _ _ h => h.whole

end xv6
