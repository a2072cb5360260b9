import Mathlib.Data.List.Nodup
import Mathlib.Logic.Function.Basic

open Function

namespace slist

variable {α : Type} {next next' : Option α → Option α} {x : Option α} {a : α} {l : List α}

/-- A singly linked list. The cell `none` holds the pointer to the first node
and `some a` is the link of node `a`: from cell `x` the links lead through `l`. -/
def Path (next : Option α → Option α) : Option α → List α → Prop
  | x, [] => next x = none
  | x, a :: l => next x = some a ∧ Path next (some a) l

/-- The cell with the null pointer, looked for from cell `x` on. -/
def tail (next : Option α → Option α) : Nat → Option α → Option α
  | 0, x => x
  | n + 1, x =>
    match next x with
    | none => x
    | some a => tail next n (some a)

theorem Path.congr (h : Path next x l) (hsame : ∀ y ∈ x :: l.map some, next' y = next y) : Path next' x l := by
  induction l generalizing x with
  | nil => exact (hsame x (by simp)).trans h
  | cons a l ih => exact ⟨(hsame x (by simp)).trans h.1, ih h.2 fun y hy => hsame y (List.mem_cons_of_mem _ hy)⟩

theorem Path.head_eq (h : Path next x l) : next x = l.head? := by
  cases l with
  | nil => exact h
  | cons a l => exact h.1

theorem Path.tail_mem (h : Path next x l) (n : Nat) : tail next n x ∈ x :: l.map some := by
  induction l generalizing x n with
  | nil => cases n <;> simp [tail, show next x = none from h]
  | cons a l ih =>
    cases n with
    | zero => simp [tail]
    | succ n =>
      rw [tail, h.1]
      exact List.mem_cons_of_mem _ (ih h.2 n)

variable [DecidableEq α]

/-- A node whose own link is null goes to the end of the list. -/
theorem Path.append (h : Path next x l) (hnodup : (x :: l.map some).Nodup) (ha : some a ∉ x :: l.map some)
    (hnull : next (some a) = none) {n : Nat} (hn : l.length ≤ n) :
    Path (update next (tail next n x) (some a)) x (l ++ [a]) := by
  induction l generalizing x n with
  | nil =>
    have hx : some a ≠ x := by simpa using ha
    have htail : tail next n x = x := by simpa using h.tail_mem n
    rw [htail]
    exact ⟨update_self _ _ _, (update_of_ne hx _ _).trans hnull⟩
  | cons b l ih =>
    obtain ⟨n, rfl⟩ : ∃ m, n = m + 1 := ⟨n - 1, by simp at hn; omega⟩
    obtain ⟨hx, hrest⟩ := List.nodup_cons.1 hnodup
    have htail : tail next (n + 1) x = tail next n (some b) := by rw [tail, h.1]
    have hne : x ≠ tail next n (some b) := fun heq => hx (heq ▸ h.2.tail_mem n)
    rw [htail]
    exact ⟨(update_of_ne hne _ _).trans h.1,
      ih h.2 hrest (fun hm => ha (List.mem_cons_of_mem _ hm)) (by simpa using hn)⟩

/-- The first node is taken off. -/
theorem Path.pop (h : Path next none (a :: l)) : Path (update next none (next (some a))) none l := by
  have hrest : ∀ y : Option α, y ≠ none → update next none (next (some a)) y = next y :=
    fun y hy => update_of_ne hy _ _
  cases l with
  | nil => exact (update_self _ _ _).trans h.2
  | cons b l => exact ⟨(update_self _ _ _).trans h.2.1, h.2.2.congr fun y hy => hrest y (by aesop)⟩

end slist
