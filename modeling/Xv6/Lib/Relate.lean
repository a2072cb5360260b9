import Xv6.Lib.Outcome

namespace outcome

variable {ε σ α β : Type} {R : σ → σ → Prop} {x : EStateM ε σ α} {f : α → EStateM ε σ β}

/-- A relation between states is kept by a computation from every state. -/
structure Stays (R : σ → σ → Prop) (x : EStateM ε σ α) : Prop where
  keeps : ∀ s, Keeps R x s

section stays

theorem Stays.modify {g : σ → σ} (h : ∀ s, R s (g s)) : Stays R (modify g : EStateM ε σ PUnit) := ⟨h⟩

theorem Stays.bind [IsTrans σ R] (hx : Stays R x) (hf : ∀ a, Stays R (f a)) : Stays R (x >>= f) :=
  ⟨fun s => (hx.keeps s).bind (fun _ _ _ => IsTrans.trans _ _ _) fun a t _ => (hf a).keeps t⟩

theorem Stays.ite {c : Prop} [Decidable c] {y : EStateM ε σ α} (hx : Stays R x) (hy : Stays R y) :
    Stays R (if c then x else y) := by
  split
  · exact hx
  · exact hy

variable [Std.Refl R]

theorem Stays.pure (a : α) : Stays R (pure a : EStateM ε σ α) := ⟨fun s => Std.Refl.refl s⟩

theorem Stays.throw (e : ε) : Stays R (throw e : EStateM ε σ α) := ⟨fun s => Std.Refl.refl s⟩

theorem Stays.get : Stays R (get : EStateM ε σ σ) := ⟨fun s => Std.Refl.refl s⟩

/-- What follows a computation starts from the state it leaves behind. -/
theorem Stays.after (hf : ∀ a, Stays R (f a)) (x : EStateM ε σ α) (s : σ) : R (final (x.run s)) (final ((x >>= f).run s)) := by
  cases h : x.run s with
  | ok a t =>
    rw [bind_ok h]
    exact (hf a).keeps t
  | error e t =>
    rw [bind_error h]
    exact Std.Refl.refl t

end stays

/-- Two runs end in the same way, in related states. -/
inductive Agree (R : σ → σ → Prop) : EStateM.Result ε σ α → EStateM.Result ε σ α → Prop
  | ok (a : α) {s t : σ} (h : R s t) : Agree R (.ok a s) (.ok a t)
  | error (e : ε) {s t : σ} (h : R s t) : Agree R (.error e s) (.error e t)

section agree

variable {r r' : EStateM.Result ε σ α} {s t : σ}

theorem Agree.final (h : Agree R r r') : R (final r) (final r') := by
  cases h with
  | ok _ h => exact h
  | error _ h => exact h

theorem Agree.error_iff (h : Agree R r r') : (∃ e s, r = .error e s) ↔ ∃ e s, r' = .error e s := by
  cases h with
  | ok => simp
  | error => simp

/-- Two runs of a sequence agree if those of its first part do, and those of the
second part from wherever the first run has come. -/
theorem Agree.bind (hx : Agree R (x.run s) (x.run t))
    (hf : ∀ a s' t', x.run s = .ok a s' → R s' t' → Agree R ((f a).run s') ((f a).run t')) :
    Agree R ((x >>= f).run s) ((x >>= f).run t) := by
  generalize hr : x.run s = r, hr' : x.run t = r' at hx
  cases hx with
  | ok a h =>
    rw [bind_ok hr, bind_ok hr']
    exact hf a _ _ hr h
  | error e h =>
    rw [bind_error hr, bind_error hr']
    exact .error e h

end agree

/-- From any two related states, two runs agree. -/
structure Lockstep (R : σ → σ → Prop) (x : EStateM ε σ α) : Prop where
  agree : ∀ s t, R s t → Agree R (x.run s) (x.run t)

theorem Lockstep.pure (a : α) : Lockstep R (pure a : EStateM ε σ α) := ⟨fun _ _ h => .ok a h⟩

theorem Lockstep.throw (e : ε) : Lockstep R (throw e : EStateM ε σ α) := ⟨fun _ _ h => .error e h⟩

theorem Lockstep.modify {g : σ → σ} (h : ∀ s t, R s t → R (g s) (g t)) : Lockstep R (modify g : EStateM ε σ PUnit) :=
  ⟨fun s t hR => .ok () (h s t hR)⟩

theorem Lockstep.bind (hx : Lockstep R x) (hf : ∀ a, Lockstep R (f a)) : Lockstep R (x >>= f) :=
  ⟨fun s t hR => (hx.agree s t hR).bind fun a s' t' _ hR' => (hf a).agree s' t' hR'⟩

/-- A part of the state that related states share can be read. -/
theorem Lockstep.read {γ : Type} {p : σ → γ} {h : γ → EStateM ε σ β} (hp : ∀ s t, R s t → p t = p s)
    (hf : ∀ c, Lockstep R (h c)) : Lockstep R (get >>= fun s => h (p s)) :=
  ⟨fun s t hR => by
    have hagree := (hf (p s)).agree s t hR
    change Agree R ((h (p s)).run s) ((h (p t)).run t)
    rwa [hp s t hR]⟩

theorem Lockstep.ite {c : Prop} [Decidable c] {y : EStateM ε σ α} (hx : Lockstep R x) (hy : Lockstep R y) :
    Lockstep R (if c then x else y) := by
  split
  · exact hx
  · exact hy

end outcome
