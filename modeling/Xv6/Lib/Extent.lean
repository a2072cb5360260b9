import Mathlib.Algebra.BigOperators.Group.List.Basic
import Mathlib.Algebra.BigOperators.Intervals
import Mathlib.Algebra.GroupWithZero.Nat
import Mathlib.Data.List.Chain
import Mathlib.Tactic.Common

namespace extent

/-- A run of bytes. -/
structure Extent where
  addr : Nat
  len : Nat
  deriving DecidableEq

/-- The first address after the run. -/
def Extent.fin (x : Extent) : Nat := x.addr + x.len

@[simp] theorem Extent.fin_mk (a n : Nat) : Extent.fin ⟨a, n⟩ = a + n := rfl

theorem Extent.fin_eq (x : Extent) : x.fin = x.addr + x.len := rfl

/-- Two runs have no byte in common. -/
def Extent.Apart (x y : Extent) : Prop := x.fin ≤ y.addr ∨ y.fin ≤ x.addr

theorem Extent.Apart.symm {x y : Extent} (h : x.Apart y) : y.Apart x := Or.symm h

instance : Std.Symm Extent.Apart := ⟨fun _ _ => .symm⟩

/-- Two runs, the second of which starts where the first ends, as one. -/
def Extent.join (x y : Extent) : Extent := ⟨x.addr, x.len + y.len⟩

@[simp] theorem Extent.join_addr (x y : Extent) : (x.join y).addr = x.addr := rfl

@[simp] theorem Extent.join_len (x y : Extent) : (x.join y).len = x.len + y.len := rfl

/-- Runs in increasing order with a gap after each. -/
def Spaced (l : List Extent) : Prop := l.Pairwise fun x y => x.fin < y.addr

theorem Spaced.lt (l l' : List Extent) {x y : Extent} (h : Spaced (l ++ x :: l')) (hy : y ∈ l') : x.addr < y.addr := by
  have := (List.pairwise_cons.1 (List.pairwise_append.1 h).2.1).1 y hy
  simp only [Extent.fin_eq] at this
  omega

theorem Spaced.nodup {l : List Extent} (h : Spaced l) : l.Nodup :=
  h.imp fun {x y} hxy heq => by
    subst heq
    simp only [Extent.fin_eq] at hxy
    omega

/-- Put a run before those above it and unite it with the first of them if the two meet. -/
def placeUpper (x : Extent) : List Extent → List Extent
  | [] => [x]
  | y :: l => if x.fin = y.addr then x.join y :: l else x :: y :: l

/-- Put a run in its place and unite it with the neighbours that it meets. -/
def place (x : Extent) : List Extent → List Extent
  | [] => [x]
  | y :: l =>
    if x.addr < y.addr then placeUpper x (y :: l)
    else if y.fin = x.addr then placeUpper (y.join x) l
    else y :: place x l

variable {x y z : Extent} {l l₁ l₂ : List Extent} {P : Extent → Prop}

/-- What holds of all runs, and of the union of two that meet, holds of all runs after an insertion. -/
theorem placeUpper_forall (hx : P x) (hl : ∀ y ∈ l, P y)
    (hjoin : ∀ y z, P y → P z → y.fin = z.addr → P (y.join z)) : ∀ y ∈ placeUpper x l, P y := by
  cases l with
  | nil => simpa [placeUpper] using hx
  | cons y l =>
    simp only [List.forall_mem_cons] at hl
    simp only [placeUpper]
    split
    next hmeet => exact List.forall_mem_cons.2 ⟨hjoin x y hx hl.1 hmeet, hl.2⟩
    next => exact List.forall_mem_cons.2 ⟨hx, List.forall_mem_cons.2 hl⟩

@[inherit_doc placeUpper_forall]
theorem place_forall (hx : P x) (hl : ∀ y ∈ l, P y)
    (hjoin : ∀ y z, P y → P z → y.fin = z.addr → P (y.join z)) : ∀ y ∈ place x l, P y := by
  induction l with
  | nil => simpa [place] using hx
  | cons y l ih =>
    have hl' := List.forall_mem_cons.1 hl
    simp only [place]
    split_ifs with hlt hmeet
    · exact placeUpper_forall hx hl hjoin
    · exact placeUpper_forall (hjoin y x hl'.1 hx hmeet) hl'.2 hjoin
    · exact List.forall_mem_cons.2 ⟨hl'.1, ih hl'.2⟩

theorem placeUpper_length_le (x : Extent) (l : List Extent) : (placeUpper x l).length ≤ l.length + 1 := by
  cases l with
  | nil => rfl
  | cons y l =>
    simp only [placeUpper]
    split <;> simp

theorem place_length_le (x : Extent) (l : List Extent) : (place x l).length ≤ l.length + 1 := by
  induction l with
  | nil => rfl
  | cons y l ih =>
    simp only [place]
    split_ifs
    · exact placeUpper_length_le x _
    · have := placeUpper_length_le (y.join x) l
      simp only [List.length_cons]
      omega
    · simpa using ih

theorem placeUpper_len_le (x : Extent) (l : List Extent) : ∃ y ∈ placeUpper x l, x.len ≤ y.len := by
  cases l with
  | nil => exact ⟨x, by simp [placeUpper], le_rfl⟩
  | cons y l =>
    simp only [placeUpper]
    split
    · exact ⟨x.join y, by simp, Nat.le_add_right _ _⟩
    · exact ⟨x, by simp, le_rfl⟩

/-- The run that holds the one that was placed. -/
theorem place_len_le (x : Extent) (l : List Extent) : ∃ y ∈ place x l, x.len ≤ y.len := by
  induction l with
  | nil => exact ⟨x, by simp [place], le_rfl⟩
  | cons y l ih =>
    simp only [place]
    split_ifs
    · exact placeUpper_len_le x _
    · obtain ⟨z, hz, hle⟩ := placeUpper_len_le (y.join x) l
      exact ⟨z, hz, by simp only [Extent.join_len] at hle; omega⟩
    · obtain ⟨z, hz, hle⟩ := ih
      exact ⟨z, by simp [hz], hle⟩

theorem Spaced.placeUpper (hl : Spaced l) (hlen : ∀ y ∈ l, 0 < y.len) (hle : ∀ y ∈ l, x.fin ≤ y.addr) :
    Spaced (placeUpper x l) := by
  cases l with
  | nil => simp [extent.placeUpper, Spaced]
  | cons y l =>
    obtain ⟨hy, htail⟩ := List.pairwise_cons.1 hl
    simp only [extent.placeUpper]
    split
    next hmeet =>
      refine List.pairwise_cons.2 ⟨fun z hz => ?_, htail⟩
      have := hy z hz
      simp only [Extent.fin_eq, Extent.join_addr, Extent.join_len] at this hmeet ⊢
      omega
    next hmeet =>
      refine List.pairwise_cons.2 ⟨List.forall_mem_cons.2 ⟨?_, fun z hz => ?_⟩, hl⟩
      · have := hle y (by simp)
        omega
      · have hz' := hy z hz
        have := hle y (by simp)
        have := hlen y (by simp)
        simp only [Extent.fin_eq] at *
        omega

theorem Spaced.place (hl : Spaced l) (hx : 0 < x.len) (hlen : ∀ y ∈ l, 0 < y.len) (hapart : ∀ y ∈ l, x.Apart y) :
    Spaced (place x l) := by
  induction l with
  | nil => simp [extent.place, Spaced]
  | cons y l ih =>
    obtain ⟨hy, htail⟩ := List.pairwise_cons.1 hl
    obtain ⟨hylen, hlen'⟩ := List.forall_mem_cons.1 hlen
    obtain ⟨hxy, hapart'⟩ := List.forall_mem_cons.1 hapart
    have hbelow (hlt : x.fin < y.addr ∨ x.addr < y.addr) (z : Extent) (hz : z ∈ y :: l) : x.fin ≤ z.addr := by
      simp only [Extent.Apart, Extent.fin_eq] at hxy hlt ⊢
      rcases List.mem_cons.1 hz with rfl | hz
      · omega
      · have := hy z hz
        simp only [Extent.fin_eq] at this
        omega
    simp only [extent.place]
    split_ifs with hlt hmeet
    · exact hl.placeUpper hlen (hbelow (.inr hlt))
    · refine Spaced.placeUpper htail hlen' fun z hz => ?_
      have hyz := hy z hz
      have := hapart' z hz
      have := hlen' z hz
      simp only [Extent.Apart, Extent.fin_eq, Extent.join_addr, Extent.join_len] at *
      omega
    · refine List.pairwise_cons.2 ⟨place_forall ?_ hy ?_, ih htail hlen' hapart'⟩
      · simp only [Extent.Apart, Extent.fin_eq] at *
        omega
      · intro z w hz _ _
        exact hz

/-- An insertion between the runs below and those above. -/
theorem place_append (p : Extent) (hl : Spaced (l₁ ++ p :: l₂)) (hlow : p.addr < x.addr)
    (hupper : ∀ y ∈ l₂, x.addr < y.addr) :
    place x (l₁ ++ p :: l₂) =
      l₁ ++ if p.fin = x.addr then placeUpper (p.join x) l₂ else p :: placeUpper x l₂ := by
  induction l₁ with
  | nil =>
    rw [List.nil_append, place, if_neg (by omega), List.nil_append]
    congr 1
    cases l₂ with
    | nil => rfl
    | cons y l₂ => rw [place, if_pos (hupper y (by simp))]
  | cons y l₁ ih =>
    obtain ⟨hy, htail⟩ := List.pairwise_cons.1 hl
    have hyp := hy p (by simp)
    rw [List.cons_append, place, if_neg, if_neg, ih htail, List.cons_append]
    · simp only [Extent.fin_eq] at hyp ⊢
      omega
    · simp only [Extent.fin_eq] at hyp
      omega

/-- Where a run belongs among runs the first of which is below it. -/
theorem Spaced.split (h : Spaced (y :: l)) (hy : y.addr < x.addr) (hne : ∀ z ∈ l, z.addr ≠ x.addr) :
    ∃ l₁ p l₂, y :: l = l₁ ++ p :: l₂ ∧ p.addr < x.addr ∧ ∀ z ∈ l₂, x.addr < z.addr := by
  induction l generalizing y with
  | nil => exact ⟨[], y, [], rfl, hy, by simp⟩
  | cons z l ih =>
    obtain ⟨hyz, htail⟩ := List.pairwise_cons.1 h
    obtain ⟨hz, hl⟩ := List.forall_mem_cons.1 hne
    by_cases hlt : z.addr < x.addr
    · obtain ⟨l₁, p, l₂, heq, hp, hl₂⟩ := ih htail hlt hl
      exact ⟨y :: l₁, p, l₂, by rw [heq, List.cons_append], hp, hl₂⟩
    · refine ⟨[], y, z :: l, rfl, hy, List.forall_mem_cons.2 ⟨by omega, fun w hw => ?_⟩⟩
      have := (List.pairwise_cons.1 htail).1 w hw
      simp only [Extent.fin_eq] at this
      omega

theorem placeUpper_join {p q : Extent} (hmeet : p.fin = x.addr) (h : placeUpper x l = q :: l₂) :
    placeUpper (p.join x) l = p.join q :: l₂ := by
  have hfin : (p.join x).fin = x.fin := by
    simp only [Extent.fin_eq, Extent.join_addr, Extent.join_len] at hmeet ⊢
    omega
  cases l with
  | nil =>
    obtain ⟨rfl, rfl⟩ := List.cons.inj h
    rfl
  | cons y l =>
    simp only [placeUpper, hfin] at h ⊢
    split at h
    next hy =>
      obtain ⟨rfl, rfl⟩ := List.cons.inj h
      rw [if_pos hy]
      simp only [Extent.join, Nat.add_assoc]
    next hy =>
      obtain ⟨rfl, rfl⟩ := List.cons.inj h
      rw [if_neg hy]

theorem placeUpper_eq_cons (x : Extent) (l : List Extent) :
    ∃ q l₂, placeUpper x l = q :: l₂ ∧ q.addr = x.addr ∧ ∀ z ∈ l₂, z ∈ l := by
  cases l with
  | nil => exact ⟨x, [], rfl, rfl, by simp⟩
  | cons y l =>
    simp only [placeUpper]
    split
    · exact ⟨_, l, rfl, rfl, by simp +contextual⟩
    · exact ⟨x, _, rfl, rfl, fun z hz => hz⟩

/-- What is left of a run after its last `n` bytes have been taken. -/
def cut (x : Extent) (n : Nat) : List Extent := if x.len = n then [] else [⟨x.addr, x.len - n⟩]

/-- A run may be shortened at its end. -/
theorem Spaced.shorten (h : Spaced (l₁ ++ x :: l₂)) (haddr : y.addr = x.addr) (hlen : y.len ≤ x.len) :
    Spaced (l₁ ++ y :: l₂) := by
  obtain ⟨h₁, h₂, hcross⟩ := List.pairwise_append.1 h
  obtain ⟨hx, h₂⟩ := List.pairwise_cons.1 h₂
  refine List.pairwise_append.2 ⟨h₁, List.pairwise_cons.2 ⟨fun z hz => ?_, h₂⟩, fun w hw => ?_⟩
  · have := hx z hz
    simp only [Extent.fin_eq] at this ⊢
    omega
  · refine List.forall_mem_cons.2 ⟨haddr ▸ hcross w hw x (by simp), fun z hz => hcross w hw z (by simp [hz])⟩

/-- The run `x` is taken from the end of one of the runs `l`, which leaves `l'`. -/
def Carve (l : List Extent) (x : Extent) (l' : List Extent) : Prop :=
  ∃ l₁ y l₂, l = l₁ ++ y :: l₂ ∧ x.len ≤ y.len ∧ x.fin = y.fin ∧ l' = l₁ ++ (cut y x.len ++ l₂)

theorem Carve.within {l' : List Extent} (h : Carve l x l') : ∃ y ∈ l, y.addr ≤ x.addr ∧ x.fin = y.fin := by
  obtain ⟨l₁, y, l₂, rfl, hlen, hfin, -⟩ := h
  refine ⟨y, by simp, ?_, hfin⟩
  simp only [Extent.fin_eq] at hfin
  omega

/-- How many of the runs hold an address. -/
def cover (l : List Extent) (a : Nat) : Nat := l.countP fun x => x.addr ≤ a ∧ a < x.fin

theorem cover_cons (x : Extent) (l : List Extent) (a : Nat) :
    cover (x :: l) a = cover l a + if x.addr ≤ a ∧ a < x.fin then 1 else 0 := by
  simp [cover, List.countP_cons]

@[simp] theorem cover_append (l l' : List Extent) (a : Nat) : cover (l ++ l') a = cover l a + cover l' a :=
  List.countP_append

theorem cover_join (hmeet : x.fin = y.addr) (a : Nat) : cover (x.join y :: l) a = cover (x :: y :: l) a := by
  simp only [cover_cons, Extent.fin_eq, Extent.join_addr, Extent.join_len] at hmeet ⊢
  grind

theorem cover_placeUpper (x : Extent) (l : List Extent) (a : Nat) : cover (placeUpper x l) a = cover (x :: l) a := by
  cases l with
  | nil => rfl
  | cons y l =>
    simp only [placeUpper]
    split
    next hmeet => exact cover_join hmeet a
    next => rfl

/-- A run that is put in its place adds its own addresses. -/
theorem cover_place (x : Extent) (l : List Extent) (a : Nat) : cover (place x l) a = cover (x :: l) a := by
  induction l with
  | nil => rfl
  | cons y l ih =>
    simp only [place]
    split_ifs with hlt hmeet
    · exact cover_placeUpper x _ a
    · rw [cover_placeUpper, cover_join hmeet]
      simp only [cover_cons]
      omega
    · simp only [cover_cons] at ih ⊢
      omega

theorem Carve.cover {l' : List Extent} (h : Carve l x l') (a : Nat) : extent.cover (x :: l') a = extent.cover l a := by
  obtain ⟨l₁, y, l₂, rfl, hlen, hfin, rfl⟩ := h
  simp only [cut, Extent.fin_eq] at hlen hfin ⊢
  split <;> simp only [cover_cons, cover_append, List.nil_append, List.cons_append, Extent.fin_eq] <;> grind

/-- Runs of which no two hold the same address have no byte in common. -/
theorem pairwise_apart (hpos : ∀ x ∈ l, 0 < x.len) (h : ∀ a, cover l a ≤ 1) : l.Pairwise Extent.Apart := by
  induction l with
  | nil => exact .nil
  | cons x l ih =>
    obtain ⟨hx, hl⟩ := List.forall_mem_cons.1 hpos
    refine List.pairwise_cons.2 ⟨fun y hy => ?_, ih hl fun a => ?_⟩
    · have hy' := hl y hy
      by_contra hmeet
      -- the larger of the two addresses is in both
      have hboth (a : Nat) (ha : y.addr ≤ a ∧ a < y.fin) : 1 ≤ cover l a :=
        List.countP_pos_iff.2 ⟨y, hy, by simpa using ha⟩
      have := h (max x.addr y.addr)
      have := hboth (max x.addr y.addr)
      simp only [Extent.Apart, Extent.fin_eq, cover_cons] at *
      grind
    · have := h a
      rw [cover_cons] at this
      omega

theorem sum_cover {n : Nat} (h : ∀ x ∈ l, x.fin ≤ n) : ∑ a ∈ Finset.range n, cover l a = (l.map Extent.len).sum := by
  induction l with
  | nil => simp [cover]
  | cons x l ih =>
    obtain ⟨hx, hl⟩ := List.forall_mem_cons.1 h
    have hset : (Finset.range n).filter (fun a => x.addr ≤ a ∧ a < x.fin) = Finset.Ico x.addr x.fin := by
      ext a
      simp only [Finset.mem_filter, Finset.mem_range, Finset.mem_Ico]
      omega
    simp only [cover_cons, Finset.sum_add_distrib, ih hl, List.map_cons, List.sum_cons]
    rw [← Finset.card_filter, hset, Nat.card_Ico, Extent.fin_eq]
    omega

/-- The runs fill the addresses from `lo` to `hi`, each of them once. -/
def Tiles (l : List Extent) (lo hi : Nat) : Prop := ∀ a, cover l a = if lo ≤ a ∧ a < hi then 1 else 0

theorem Tiles.grow {lo hi : Nat} (h : Tiles l lo hi) (hle : lo ≤ hi) (n : Nat) : Tiles (⟨hi, n⟩ :: l) lo (hi + n) := by
  intro a
  rw [cover_cons, h a]
  simp only [Extent.fin_mk]
  grind

theorem Tiles.sum {lo hi : Nat} (h : Tiles l lo hi) (hle : ∀ x ∈ l, x.fin ≤ hi) :
    (l.map Extent.len).sum = hi - lo := by
  have hset : (Finset.range hi).filter (fun a => lo ≤ a ∧ a < hi) = Finset.Ico lo hi := by
    ext a
    simp only [Finset.mem_filter, Finset.mem_range, Finset.mem_Ico]
    omega
  rw [← sum_cover hle, Finset.sum_congr rfl fun a _ => h a, ← Finset.card_filter, hset, Nat.card_Ico]

end extent
