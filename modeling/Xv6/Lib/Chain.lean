import Mathlib.Data.List.Nodup

namespace chain

/-- A null-terminated list threaded through memory: `head` is the pointer to the
first node, `next` reads the pointer stored in a node and `enc` is the pointer
to a node. -/
def Chain {α : Type} (next : α → Nat) (enc : α → Nat) : Nat → List α → Prop
  | head, [] => head = 0
  | head, x :: xs => head = enc x ∧ Chain next enc (next x) xs

variable {α : Type} {next next' enc : α → Nat}

/-- A chain survives every change that keeps the links of its own nodes. -/
theorem Chain.congr {head : Nat} {xs : List α} (h : Chain next enc head xs)
    (hsame : ∀ x ∈ xs, next' x = next x) : Chain next' enc head xs := by
  induction xs generalizing head with
  | nil => exact h
  | cons x xs ih =>
    obtain ⟨hhead, htail⟩ := h
    refine ⟨hhead, ?_⟩
    rw [hsame x (by simp)]
    exact ih htail fun y hy => hsame y (by simp [hy])

/-- Pushing a node that is not yet on the chain. -/
theorem Chain.push {head : Nat} {xs : List α} {x : α} (h : Chain next enc head xs)
    (hlink : next' x = head) (hsame : ∀ y ∈ xs, next' y = next y) :
    Chain next' enc (enc x) (x :: xs) := by
  refine ⟨rfl, ?_⟩
  rw [hlink]
  exact h.congr hsame

/-- Memory determines the chain, among lists of nodes that pointers tell apart. -/
theorem Chain.unique {N : α → Prop} (hinj : ∀ x y, N x → N y → enc x = enc y → x = y) (hne : ∀ x, N x → enc x ≠ 0)
    {head : Nat} {xs ys : List α} (h : Chain next enc head xs) (h' : Chain next enc head ys) (hxs : ∀ x ∈ xs, N x)
    (hys : ∀ y ∈ ys, N y) : xs = ys := by
  induction xs generalizing head ys with
  | nil =>
    cases ys with
    | nil => rfl
    | cons y ys => exact absurd (h'.1.symm.trans h) (hne y (hys y (by simp)))
  | cons x xs ih =>
    cases ys with
    | nil => exact absurd (h.1.symm.trans h') (hne x (hxs x (by simp)))
    | cons y ys =>
      obtain rfl := hinj x y (hxs x (by simp)) (hys y (by simp)) (h.1.symm.trans h'.1)
      rw [ih h.2 h'.2 (fun z hz => hxs z (by simp [hz])) fun z hz => hys z (by simp [hz])]

/-- From any node on, the chain goes on with the nodes after it. -/
theorem Chain.tail {head : Nat} {xs ys : List α} {x : α} (h : Chain next enc head (xs ++ x :: ys)) :
    Chain next enc (next x) ys := by
  induction xs generalizing head with
  | nil => exact h.2
  | cons y xs ih => exact ih h.2

/-- No node occurs twice: the chain would not end. -/
theorem Chain.notMem {N : α → Prop} (hinj : ∀ x y, N x → N y → enc x = enc y → x = y) (hne : ∀ x, N x → enc x ≠ 0)
    {head : Nat} {xs : List α} {x : α} (h : Chain next enc head (x :: xs)) (hxs : ∀ y ∈ xs, N y) : x ∉ xs := by
  intro hmem
  obtain ⟨ys, zs, rfl⟩ := List.append_of_mem hmem
  have heq := Chain.unique hinj hne h.2 (Chain.tail h.2) hxs fun y hy => hxs y (by simp [hy])
  have hlen := congrArg List.length heq
  simp only [List.length_append, List.length_cons] at hlen
  omega

end chain
