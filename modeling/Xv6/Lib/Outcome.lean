import Mathlib.Order.Defs.Unbundled
import Mathlib.Tactic.Common

namespace outcome

variable {ε σ α β : Type}

/-- A sequenced computation succeeds exactly when both of its parts do. -/
theorem bind_eq_ok_iff {x : EStateM ε σ α} {f : α → EStateM ε σ β} {s s' : σ} {b : β} :
    (x >>= f).run s = .ok b s' ↔ ∃ a t, x.run s = .ok a t ∧ (f a).run t = .ok b s' := by
  rw [EStateM.run_bind]
  cases x.run s <;> simp

theorem bind_ok {x : EStateM ε σ α} {f : α → EStateM ε σ β} {s t : σ} {a : α}
    (h : x.run s = .ok a t) : (x >>= f).run s = (f a).run t := by
  rw [EStateM.run_bind, h]

theorem bind_error {x : EStateM ε σ α} {f : α → EStateM ε σ β} {s t : σ} {e : ε}
    (h : x.run s = .error e t) : (x >>= f).run s = .error e t := by
  rw [EStateM.run_bind, h]

theorem bind_congr_run {x y : EStateM ε σ α} {f : α → EStateM ε σ β} {s t : σ} (h : x.run s = y.run t) :
    (x >>= f).run s = (y >>= f).run t := by
  rw [EStateM.run_bind, EStateM.run_bind, h]

theorem get_bind {f : σ → EStateM ε σ β} {s : σ} : (get >>= f).run s = (f s).run s := bind_ok rfl

theorem set_bind {f : PUnit → EStateM ε σ β} {s t : σ} : (set t >>= f).run s = (f ()).run t :=
  bind_ok rfl

theorem modify_bind {f : PUnit → EStateM ε σ β} {h : σ → σ} {s : σ} :
    (modify h >>= f).run s = (f ()).run (h s) := bind_ok rfl

theorem ok_of_run' {x : EStateM ε σ α} {s : σ} {a : α} (h : x.run' s = some a) : ∃ t, x.run s = .ok a t := by
  unfold EStateM.run' at h
  split at h
  · next b t hrun =>
    cases h
    exact ⟨t, hrun⟩
  · cases h

/-- The state a computation leaves behind, whether or not it halted. -/
def final : EStateM.Result ε σ α → σ
  | .ok _ s => s
  | .error _ s => s

/-- A relation between states is kept by a computation started in `s` whatever its outcome. -/
def Keeps (R : σ → σ → Prop) (x : EStateM ε σ α) (s : σ) : Prop := R s (final (x.run s))

theorem Keeps.bind {R : σ → σ → Prop} (htrans : ∀ a b c, R a b → R b c → R a c)
    {x : EStateM ε σ α} {f : α → EStateM ε σ β} {s : σ} (hx : Keeps R x s)
    (hf : ∀ a t, x.run s = .ok a t → Keeps R (f a) t) : Keeps R (x >>= f) s := by
  unfold Keeps at hx ⊢
  cases h : x.run s with
  | ok a t =>
    rw [bind_ok h]
    rw [h] at hx
    exact htrans _ _ _ hx (hf a t h)
  | error e t =>
    rw [bind_error h]
    rwa [h] at hx

variable {E E' : ε → Prop} {x : EStateM ε σ α} {f : α → EStateM ε σ β} {s t : σ}
  {P Q : α → σ → Prop} {R : β → σ → Prop}

/-- Started in `s`, a computation returns a result and a state that satisfy `Q`, or it stops with an
error that `E` allows. -/
def Ensures (E : ε → Prop) (x : EStateM ε σ α) (s : σ) (Q : α → σ → Prop) : Prop :=
  match x.run s with
  | .ok a s' => Q a s'
  | .error e _ => E e

theorem ensures_of_ok {a : α} (h : x.run s = .ok a t) : Ensures E x s Q ↔ Q a t := by
  simp only [Ensures, h]

theorem ensures_of_error {e : ε} (h : x.run s = .error e t) : Ensures E x s Q ↔ E e := by
  simp only [Ensures, h]

theorem ensures_bind :
    Ensures E (x >>= f) s R ↔ Ensures E x s fun a t => Ensures E (f a) t R := by
  cases h : x.run s with
  | ok a t => rw [ensures_of_ok h, Ensures, bind_ok h, Ensures]
  | error e t => rw [ensures_of_error h, Ensures, bind_error h]

theorem Ensures.bind (hx : Ensures E x s P) (hf : ∀ a t, P a t → Ensures E (f a) t R) :
    Ensures E (x >>= f) s R := by
  rw [ensures_bind]
  cases h : x.run s with
  | ok a t => exact (ensures_of_ok h).2 (hf a t ((ensures_of_ok h).1 hx))
  | error e t => exact (ensures_of_error h).2 ((ensures_of_error h).1 hx)

theorem Ensures.mono (hx : Ensures E x s P) (hE : ∀ e, E e → E' e) (h : ∀ a t, P a t → Q a t) :
    Ensures E' x s Q := by
  cases hr : x.run s with
  | ok a t => exact (ensures_of_ok hr).2 (h a t ((ensures_of_ok hr).1 hx))
  | error e t => exact (ensures_of_error hr).2 (hE e ((ensures_of_error hr).1 hx))

theorem Ensures.imp (hx : Ensures E x s P) (h : ∀ a t, P a t → Q a t) : Ensures E x s Q :=
  hx.mono (fun _ he => he) h

@[simp] theorem ensures_pure {a : α} : Ensures E (pure a) s Q ↔ Q a s := Iff.rfl

@[simp] theorem ensures_throw {e : ε} : Ensures E (throw e) s Q ↔ E e := Iff.rfl

@[simp] theorem ensures_get {K : σ → σ → Prop} : Ensures E get s K ↔ K s s := Iff.rfl

@[simp] theorem ensures_set {K : PUnit → σ → Prop} : Ensures E (set t) s K ↔ K () t := Iff.rfl

@[simp] theorem ensures_modify {g : σ → σ} {K : PUnit → σ → Prop} :
    Ensures E (modify g) s K ↔ K () (g s) := Iff.rfl

@[simp] theorem ensures_map {g : α → β} : Ensures E (g <$> x) s R ↔ Ensures E x s fun a t => R (g a) t := by
  rw [map_eq_pure_bind, ensures_bind]
  exact Iff.rfl

theorem ensures_forM_cons {γ : Type} {g : γ → EStateM ε σ PUnit} {c : γ} {l : List γ} {K : PUnit → σ → Prop} :
    Ensures E ((c :: l).forM g) s K ↔ Ensures E (g c) s fun _ t => Ensures E (l.forM g) t K := ensures_bind

/-- From every state, a computation leads to one related by `R`, or stops with an error that `E` allows. -/
structure Always (E : ε → Prop) (R : σ → σ → Prop) (x : EStateM ε σ α) : Prop where
  ensures : ∀ s, Ensures E x s fun _ s' => R s s'

/-- Started in `s`, a computation stops with no errors but those that `E` allows. -/
def Fails (E : ε → Prop) (x : EStateM ε σ α) (s : σ) : Prop := ∀ e t, x.run s = .error e t → E e

theorem fails_bind_ok {a : α} (h : x.run s = .ok a t) : Fails E (x >>= f) s ↔ Fails E (f a) t := by
  rw [Fails, bind_ok h, Fails]

theorem Fails.bind (hx : Fails E x s) (hf : ∀ a t, x.run s = .ok a t → Fails E (f a) t) : Fails E (x >>= f) s := by
  intro e u h
  cases hr : x.run s with
  | ok a t =>
    rw [bind_ok hr] at h
    exact hf a t hr e u h
  | error e' t =>
    rw [bind_error hr, EStateM.Result.error.injEq] at h
    exact h.1 ▸ hx e' t hr

theorem Fails.pure (a : α) : Fails E (pure a : EStateM ε σ α) s := by
  intro e t h
  cases h

theorem Always.fails {R : σ → σ → Prop} (h : Always E R x) (s : σ) : Fails E x s := by
  intro e t hr
  exact (ensures_of_error hr).1 (h.ensures s)

section
variable {R : σ → σ → Prop}

theorem Always.throw {e : ε} (he : E e) : Always E R (throw e : EStateM ε σ α) := ⟨fun _ => he⟩

theorem Always.modify {g : σ → σ} (h : ∀ s, R s (g s)) : Always E R (modify g : EStateM ε σ PUnit) := ⟨h⟩

@[simp] theorem Always.map {g : α → β} (hx : Always E R x) : Always E R (g <$> x) :=
  ⟨fun s => ensures_map.2 (hx.ensures s)⟩

theorem Always.ite {c : Prop} [Decidable c] {y : EStateM ε σ α} (hx : Always E R x) (hy : Always E R y) :
    Always E R (if c then x else y) := by
  split
  · exact hx
  · exact hy

theorem Always.bind [IsTrans σ R] (hx : Always E R x) (hf : ∀ a, Always E R (f a)) : Always E R (x >>= f) :=
  ⟨fun s => (hx.ensures s).bind fun a t hst => ((hf a).ensures t).imp fun _ _ htu => IsTrans.trans _ _ _ hst htu⟩

/-- A conditional statement with more to follow. -/
theorem Always.when [IsTrans σ R] {c : Prop} [Decidable c] {x : EStateM ε σ PUnit} {f : PUnit → EStateM ε σ β}
    (hx : Always E R x) (hf : ∀ a, Always E R (f a)) : Always E R (if c then x >>= f else f ()) :=
  .ite (hx.bind hf) (hf ())

variable [Std.Refl R]

@[simp] theorem Always.pure (a : α) : Always E R (pure a : EStateM ε σ α) := ⟨fun s => Std.Refl.refl s⟩

@[simp] theorem Always.get : Always E R (get : EStateM ε σ σ) := ⟨fun s => Std.Refl.refl s⟩

@[simp] theorem Always.forM [IsTrans σ R] {γ : Type} {g : γ → EStateM ε σ PUnit} (hg : ∀ c, Always E R (g c)) (l : List γ) :
    Always E R (l.forM g) := by
  induction l with
  | nil => exact .pure _
  | cons c l ih => exact (hg c).bind fun _ => ih

end

end outcome
