import Mathlib.Data.List.Nodup
import Mathlib.Logic.Function.Basic

open Function

namespace ring

/-- The pointers of a doubly linked ring. The node `none` is the head. -/
structure Links (α : Type) where
  next : Option α → Option α
  prev : Option α → Option α

variable {α : Type} {k k' : Links α} {x y : Option α} {a b : α} {l l₁ l₂ : List α}

/-- From node `x` the links lead through `l` to the head and back. -/
def Linked (k : Links α) : Option α → List α → Prop
  | x, [] => k.next x = none ∧ k.prev none = x
  | x, a :: l => k.next x = some a ∧ k.prev (some a) = x ∧ Linked k (some a) l

/-- The links form a ring through the nodes of `l`. -/
structure Ring (k : Links α) (l : List α) : Prop where
  nodup : l.Nodup
  linked : Linked k none l

/-- The ring of the head alone. -/
def Links.empty : Links α where
  next _ := none
  prev _ := none

theorem Ring.empty : Ring (Links.empty : Links α) [] := ⟨List.nodup_nil, rfl, rfl⟩

/-- The first node on the way from `x` along `f` that passes a test. -/
def search (f : Option α → Option α) (test : α → Bool) : Nat → Option α → Option α
  | _, none => none
  | 0, some _ => none
  | n + 1, some a => if test a then some a else search f test n (f (some a))

theorem Linked.congr (h : Linked k x l) (hnext : ∀ y ∈ x :: l.map some, k'.next y = k.next y)
    (hprev : ∀ y ∈ none :: l.map some, k'.prev y = k.prev y) : Linked k' x l := by
  induction l generalizing x with
  | nil => exact ⟨(hnext x (by simp)).trans h.1, (hprev none (by simp)).trans h.2⟩
  | cons a l ih =>
    obtain ⟨hx, ha, hrest⟩ := h
    refine ⟨(hnext x (by simp)).trans hx, (hprev (some a) (by simp)).trans ha, ih hrest ?_ ?_⟩
    · exact fun y hy => hnext y (List.mem_cons_of_mem _ hy)
    · refine fun y hy => hprev y ?_
      rcases List.mem_cons.1 hy with rfl | hy
      · simp
      · exact List.mem_cons_of_mem _ (List.mem_cons_of_mem _ hy)

theorem Linked.prev_mem (h : Linked k x (l₁ ++ a :: l₂)) : k.prev (some a) ∈ x :: l₁.map some := by
  induction l₁ generalizing x with
  | nil => simp [h.2.1]
  | cons c l₁ ih => exact List.mem_cons_of_mem _ (ih h.2.2)

theorem Linked.next_mem (h : Linked k x (l₁ ++ a :: l₂)) : k.next (some a) ∈ none :: l₂.map some := by
  induction l₁ generalizing x with
  | nil =>
    cases l₂ with
    | nil => simp [h.2.2.1]
    | cons b l₂ => simp [h.2.2.1]
  | cons c l₁ ih => exact ih h.2.2

theorem Linked.search_next (h : Linked k x l) (test : α → Bool) {n : Nat} (hn : l.length ≤ n) :
    search k.next test n (k.next x) = l.find? test := by
  induction l generalizing x n with
  | nil =>
    rw [h.1]
    cases n <;> rfl
  | cons a l ih =>
    obtain ⟨n, rfl⟩ : ∃ m, n = m + 1 := ⟨n - 1, by simp at hn; omega⟩
    rw [h.1, search, ih h.2.2 (by simpa using hn), List.find?_cons]
    cases test a <;> rfl

/-- Backwards from the head, the nodes come in reverse. -/
theorem Linked.search_prev (h : Linked k x l) (test : α → Bool) {n : Nat} (hn : l.length ≤ n) :
    search k.prev test n (k.prev none) =
      (l.reverse.find? test).or (search k.prev test (n - l.length) x) := by
  induction l generalizing x n with
  | nil => simp [h.2]
  | cons a l ih =>
    simp only [List.length_cons] at hn
    obtain ⟨m, hm⟩ : ∃ m, n - l.length = m + 1 := ⟨n - l.length - 1, by omega⟩
    rw [ih h.2.2 (by omega), hm, search, h.2.1, List.reverse_cons, List.find?_append, List.find?_singleton,
      List.length_cons, show n - (l.length + 1) = m by omega]
    cases test a <;> simp

theorem Ring.find_next (h : Ring k l) (test : α → Bool) {n : Nat} (hn : l.length ≤ n) :
    search k.next test n (k.next none) = l.find? test := h.linked.search_next test hn

theorem Ring.find_prev (h : Ring k l) (test : α → Bool) {n : Nat} (hn : l.length ≤ n) :
    search k.prev test n (k.prev none) = l.reverse.find? test := by
  rw [h.linked.search_prev test hn]
  cases n - l.length <;> simp [search]

theorem Linked.next_head (h : Linked k x l) : k.next x = l.head? := by
  cases l with
  | nil => exact h.1
  | cons a l => exact h.1

theorem Linked.head_ne (h : Linked k none l) (ha : a ∉ l) : k.next none ≠ some a := by
  rw [h.next_head]
  intro heq
  exact ha (List.mem_of_head? heq)

variable [DecidableEq α]

/-- Take a node out of the ring. -/
def Links.unlink (k : Links α) (a : α) : Links α :=
  let k := { k with prev := update k.prev (k.next (some a)) (k.prev (some a)) }
  { k with next := update k.next (k.prev (some a)) (k.next (some a)) }

/-- Insert a node right after the head. -/
def Links.push (k : Links α) (a : α) : Links α :=
  let k := { k with next := update k.next (some a) (k.next none) }
  let k := { k with prev := update k.prev (some a) none }
  let k := { k with prev := update k.prev (k.next none) (some a) }
  { k with next := update k.next none (some a) }

theorem unlink_next (hself : k.next (some a) ≠ some a) :
    (k.unlink a).next = update k.next (k.prev (some a)) (k.next (some a)) := by
  simp only [Links.unlink, update_of_ne hself.symm]

theorem unlink_prev : (k.unlink a).prev = update k.prev (k.next (some a)) (k.prev (some a)) := rfl

theorem Linked.unlink (h : Linked k x (l₁ ++ a :: l₂)) (hnodup : (l₁ ++ a :: l₂).Nodup)
    (hx : x ∉ (l₁ ++ a :: l₂).map some) : Linked (k.unlink a) x (l₁ ++ l₂) := by
  have hnext := h.next_mem
  obtain ⟨hl₁, hal, hdisj⟩ := List.nodup_append.1 hnodup
  obtain ⟨hal₂, hl₂⟩ := List.nodup_cons.1 hal
  have hself : k.next (some a) ≠ some a := fun heq => by
    rw [heq] at hnext
    simp [hal₂] at hnext
  induction l₁ generalizing x with
  | nil =>
    obtain ⟨hxa, hax, hrest⟩ := h
    cases l₂ with
    | nil =>
      obtain ⟨hnone, hback⟩ := hrest
      refine ⟨?_, ?_⟩
      · rw [unlink_next hself, hax, hnone, update_self]
      · rw [unlink_prev, hax, hnone, update_self]
    | cons b l₂ =>
      obtain ⟨hab, hba, hrest⟩ := hrest
      obtain ⟨hbl₂, _⟩ := List.nodup_cons.1 hl₂
      simp only [List.nil_append, List.map_cons, List.mem_cons, not_or] at hx
      refine ⟨?_, ?_, hrest.congr (fun y hy => ?_) fun y hy => ?_⟩
      · rw [unlink_next hself, hax, hab, update_self]
      · rw [unlink_prev, hax, hab, update_self]
      · rw [unlink_next hself, hax]
        refine update_of_ne ?_ _ _
        rintro rfl
        rcases List.mem_cons.1 hy with heq | hy
        · exact hx.2.1 heq
        · exact hx.2.2 hy
      · rw [unlink_prev, hab]
        refine update_of_ne ?_ _ _
        rintro rfl
        simp [hbl₂] at hy
  | cons c l₁ ih =>
    obtain ⟨hxc, hcx, hrest⟩ := h
    obtain ⟨hcl, hnodup'⟩ := List.nodup_cons.1 hnodup
    simp only [List.cons_append, List.map_cons, List.mem_cons, not_or] at hx
    refine ⟨?_, ?_, ih hrest hnodup' (by simpa using hcl) (List.nodup_cons.1 hl₁).2
      fun u hu v hv => hdisj u (List.mem_cons_of_mem _ hu) v hv⟩
    · rw [unlink_next hself, ← hxc]
      refine update_of_ne ?_ _ _
      rintro rfl
      rcases List.mem_cons.1 hrest.prev_mem with heq | hmem
      · exact hx.1 heq
      · exact hx.2 (by rw [List.map_append]; exact List.mem_append_left _ hmem)
    · rw [unlink_prev]
      refine (update_of_ne ?_ _ _).trans hcx
      intro heq
      rw [← heq] at hnext
      have hcl₂ : c ∈ l₂ := by simpa using hnext
      exact hcl (by simp [hcl₂])

theorem Ring.unlink (h : Ring k l) (ha : a ∈ l) : Ring (k.unlink a) (l.erase a) := by
  obtain ⟨l₁, l₂, hal, rfl, herase⟩ := List.exists_erase_eq ha
  refine ⟨h.nodup.erase a, ?_⟩
  rw [herase]
  exact h.linked.unlink h.nodup (by simp)

theorem push_next : (k.push a).next y = if y = none then some a else if y = some a then k.next none else k.next y := by
  simp [Links.push, update_apply]

theorem push_prev : (k.push a).prev y = if y = k.next none then some a else if y = some a then none else k.prev y := by
  simp [Links.push, update_apply]

theorem Ring.push (h : Ring k l) (ha : a ∉ l) : Ring (k.push a) (a :: l) := by
  have hhead := h.linked.head_ne ha
  refine ⟨List.nodup_cons.2 ⟨ha, h.nodup⟩, ?_, ?_, ?_⟩
  · simp [push_next]
  · simp [push_prev, hhead.symm]
  · have hnodup := h.nodup
    have hlinked := h.linked
    cases l with
    | nil =>
      obtain ⟨hnone, hback⟩ := hlinked
      refine ⟨?_, ?_⟩
      · simp [push_next, hnone]
      · simp [push_prev, hnone]
    | cons b l =>
      obtain ⟨hb, hback, hrest⟩ := hlinked
      obtain ⟨hbl, _⟩ := List.nodup_cons.1 hnodup
      simp only [List.mem_cons, not_or] at ha
      refine ⟨?_, ?_, hrest.congr (fun y hy => ?_) fun y hy => ?_⟩
      · simp [push_next, hb]
      · simp [push_prev, hb]
      · have hy' : y ≠ none ∧ y ≠ some a := by
          refine ⟨?_, ?_⟩
          · rintro rfl
            simp at hy
          · rintro rfl
            simp [ha] at hy
        simp [push_next, hy']
      · have hy' : y ≠ some b ∧ y ≠ some a := by
          refine ⟨?_, ?_⟩
          · rintro rfl
            simp [hbl] at hy
          · rintro rfl
            simp [ha] at hy
        simp [push_prev, hb, hy']

/-- Nodes pushed one by one come in reverse. -/
theorem Ring.pushAll {as : List α} (h : Ring k l) (hnodup : as.Nodup) (hnew : ∀ a ∈ as, a ∉ l) :
    Ring (as.foldl Links.push k) (as.reverse ++ l) := by
  induction as generalizing k l with
  | nil => exact h
  | cons a as ih =>
    obtain ⟨ha, has⟩ := List.nodup_cons.1 hnodup
    have hrec := ih (h.push (hnew a (by simp))) has fun b hb => ?_
    · simpa using hrec
    · have hba : b ≠ a := by
        rintro rfl
        exact ha hb
      simp [hba, hnew b (by simp [hb])]

end ring
