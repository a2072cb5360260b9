import Xv6.Lib.Outcome

namespace crash

variable {ε σ α β : Type} {C C' : ε → σ → Prop} {x : EStateM ε σ α} {f : α → EStateM ε σ β} {s t : σ}
  {P Q : α → σ → Prop} {R : β → σ → Prop}

/-- Started in `s`, a computation returns a result and a state that satisfy `Q`, or it is cut short
in a state that `C` allows. -/
def Safe (C : ε → σ → Prop) (x : EStateM ε σ α) (s : σ) (Q : α → σ → Prop) : Prop :=
  match x.run s with
  | .ok a s' => Q a s'
  | .error e s' => C e s'

theorem Safe.of_ok {a : α} (h : x.run s = .ok a t) (hq : Q a t) : Safe C x s Q := by
  simpa only [Safe, h] using hq

theorem Safe.of_error {e : ε} (h : x.run s = .error e t) (hc : C e t) : Safe C x s Q := by
  simpa only [Safe, h] using hc

theorem Safe.mono (hx : Safe C x s P) (hC : ∀ e t, C e t → C' e t) (h : ∀ a t, P a t → Q a t) : Safe C' x s Q := by
  unfold Safe at hx
  cases hr : x.run s with
  | ok a t =>
    rw [hr] at hx
    exact .of_ok hr (h a t hx)
  | error e t =>
    rw [hr] at hx
    exact .of_error hr (hC e t hx)

theorem Safe.imp (hx : Safe C x s P) (h : ∀ a t, P a t → Q a t) : Safe C x s Q := hx.mono (fun _ _ h => h) h

theorem Safe.bind (hx : Safe C x s P) (hf : ∀ a t, P a t → Safe C (f a) t R) : Safe C (x >>= f) s R := by
  unfold Safe at hx
  cases hr : x.run s with
  | ok a t =>
    rw [hr] at hx
    have hrest := hf a t hx
    unfold Safe at hrest ⊢
    rwa [outcome.bind_ok hr]
  | error e t =>
    rw [hr] at hx
    exact .of_error (outcome.bind_error hr) hx

/-- A computation whose outcome is known, with more to follow. -/
theorem Safe.bind_run {a : α} (hr : x.run s = .ok a t) (hf : Safe C (f a) t R) : Safe C (x >>= f) s R := by
  unfold Safe at hf ⊢
  rwa [outcome.bind_ok hr]

/-- A loop over the numbers below `n`, with its invariant. -/
theorem Safe.forM_range {g : Nat → EStateM ε σ PUnit} {I : Nat → σ → Prop} {n : Nat} (hinit : I 0 s)
    (hstep : ∀ i < n, ∀ t, I i t → Safe C (g i) t fun _ => I (i + 1)) :
    Safe C ((List.range n).forM g) s fun _ => I n := by
  -- the rounds from `i` on, when the invariant holds there
  have hrest (i k : Nat) (t : σ) (hk : i + k = n) (hI : I i t) :
      Safe C ((List.range' i k).forM g) t fun _ => I n := by
    induction k generalizing i t with
    | zero =>
      obtain rfl : i = n := by omega
      exact .of_ok rfl hI
    | succ k ih => exact (hstep i (by omega) t hI).bind fun _ t' hI' => ih (i + 1) t' (by omega) hI'
  rw [List.range_eq_range']
  exact hrest 0 n s (by omega) hinit

end crash
