import Xv6.Lib.Owner
import Xv6.Fs.Views

open bytes owner

namespace xv6.fs

/-- Where an inode keeps a block address: one of `addrs`, the last of which is
the indirect block's, or an entry of the indirect block. -/
inductive Slot where
  | addr (k : Fin (NDIRECT + 1))
  | entry (j : Fin NINDIRECT)
  deriving DecidableEq

/-- The address of the indirect block. -/
abbrev Dinode.ind (d : Dinode) : Nat := d.addrs (Fin.last NDIRECT)

/-- The address in a slot, 0 if there is none. -/
def Dinode.ref (m : Mem) (d : Dinode) : Slot → Nat
  | .addr k => d.addrs k
  | .entry j => if d.ind = 0 then 0 else indirect m d.ind j

theorem Dinode.ref_congr {m : Mem} {d d' : Dinode} (h : d'.addrs = d.addrs) : d'.ref m = d.ref m := by
  funext r
  cases r <;> simp only [Dinode.ref, Dinode.ind, h]

/-- The block that a slot of an allocated inode refers to. -/
def blockRef (m : Mem) (D : Nat → Dinode) (x : Nat × Slot) : Option Nat :=
  if x.1 < ninode ∧ (D x.1).type ≠ 0 ∧ (D x.1).ref m x.2 ≠ 0 then some ((D x.1).ref m x.2) else none

/-- Ownership of the data blocks: `used` holds of exactly the blocks that the
inodes `D` refer to, each of them from one slot. -/
structure Blocks (m : Mem) (D : Nat → Dinode) (used : Nat → Prop) : Prop where
  owns : Owns (blockRef m D) used
  range : ∀ {b}, used b → nmeta ≤ b ∧ b < FSSIZE

variable {m m' : Mem} {D D' : Nat → Dinode} {used used' : Nat → Prop} {i b : Nat}

theorem blockRef_eq_some {x : Nat × Slot} :
    blockRef m D x = some b ↔ x.1 < ninode ∧ (D x.1).type ≠ 0 ∧ (D x.1).ref m x.2 = b ∧ b ≠ 0 := by
  simp only [blockRef]
  constructor
  · intro h
    split at h
    · rename_i hc
      obtain rfl := Option.some.inj h
      exact ⟨hc.1, hc.2.1, rfl, hc.2.2⟩
    · cases h
  · rintro ⟨hi, htype, rfl, hb⟩
    rw [if_pos ⟨hi, htype, hb⟩]

theorem blockRef_congr {x : Nat × Slot} (htype : (D' x.1).type ≠ 0 ↔ (D x.1).type ≠ 0)
    (href : (D x.1).type ≠ 0 → (D' x.1).ref m' x.2 = (D x.1).ref m x.2) :
    blockRef m' D' x = blockRef m D x := by
  simp only [blockRef]
  by_cases h : (D x.1).type ≠ 0
  · rw [href h, if_congr (and_congr_right fun _ => and_congr_left fun _ => htype) rfl rfl]
  · rw [if_neg fun h' => h (htype.1 h'.2.1), if_neg fun h' => h h'.2.1]

/-- An address that an allocated inode holds is that of a used data block. -/
theorem Blocks.used_ref (h : Blocks m D used) (hi : i < ninode) (htype : (D i).type ≠ 0) {r : Slot}
    (hr : (D i).ref m r ≠ 0) : used ((D i).ref m r) :=
  h.owns.used_of_ref (x := (i, r)) (blockRef_eq_some.2 ⟨hi, htype, rfl, hr⟩)

theorem Blocks.ref_inj (h : Blocks m D used) (r r' : Slot) {i j : Nat} (hi : i < ninode) (hj : j < ninode)
    (htype : (D i).type ≠ 0) (htype' : (D j).type ≠ 0) (hr : (D i).ref m r ≠ 0)
    (heq : (D i).ref m r = (D j).ref m r') : i = j ∧ r = r' := by
  have hx := h.owns.inj (x := (i, r)) (y := (j, r')) (blockRef_eq_some.2 ⟨hi, htype, rfl, hr⟩)
    (blockRef_eq_some.2 ⟨hj, htype', heq.symm, hr⟩)
  exact ⟨congrArg Prod.fst hx, congrArg Prod.snd hx⟩

/-- The blocks an inode refers to have not changed. -/
def Untouched (m m' : Mem) (d : Dinode) : Prop := ∀ r, d.ref m r ≠ 0 → SameBlock m m' (d.ref m r)

theorem Untouched.refl (m : Mem) (d : Dinode) : Untouched m m d := fun _ _ => SameBlock.refl m _

theorem Untouched.ref_eq {d : Dinode} (h : Untouched m m' d) (r : Slot) : d.ref m' r = d.ref m r := by
  cases r with
  | addr k => rfl
  | entry j =>
    simp only [Dinode.ref]
    by_cases hind : d.ind = 0
    · rw [if_pos hind, if_pos hind]
    · rw [if_neg hind, if_neg hind]
      exact (h (.addr (Fin.last NDIRECT)) hind).indirect_eq j.isLt

theorem Untouched.trans {m'' : Mem} {d : Dinode} (h : Untouched m m' d) (h' : Untouched m' m'' d) :
    Untouched m m'' d := by
  intro r hr
  have hr' := h.ref_eq r
  exact (h r hr).trans (hr' ▸ h' r (hr'.symm ▸ hr))

theorem Blocks.untouched (h : Blocks m D used) (hsame : ∀ c, used c → SameBlock m m' c) (hi : i < ninode)
    (htype : (D i).type ≠ 0) : Untouched m m' (D i) :=
  fun _ hr => hsame _ (h.used_ref hi htype hr)

/-- The blocks keep their owners when the inodes keep their addresses. -/
theorem Blocks.congr (h : Blocks m D used) (htype : ∀ i < ninode, (D' i).type = (D i).type)
    (href : ∀ i < ninode, (D i).type ≠ 0 → (D' i).ref m' = (D i).ref m)
    (hused : ∀ c, used' c ↔ used c) : Blocks m' D' used' := by
  refine ⟨?_, fun hb => h.range ((hused _).1 hb)⟩
  have hrefs : blockRef m' D' = blockRef m D := by
    funext x
    by_cases hi : x.1 < ninode
    · exact blockRef_congr (by rw [htype x.1 hi]) fun h0 => by rw [href x.1 hi h0]
    · simp only [blockRef]
      rw [if_neg fun hc => hi hc.1, if_neg fun hc => hi hc.1]
  rw [hrefs]
  exact h.owns.congr hused

/-- The addresses of an inode after one has been put into an empty slot of `addrs`. A new
indirect block has no entries. -/
theorem Untouched.ref_set_addr {d : Dinode} (h : Untouched m m' d) {k : Fin (NDIRECT + 1)} (hk : d.addrs k = 0)
    (hb : b ≠ 0) (hzero : ∀ j < NINDIRECT, indirect m' b j = 0) :
    Dinode.ref m' { d with addrs := Function.update d.addrs k b } = Function.update (d.ref m) (.addr k) b := by
  funext r
  by_cases hr : r = .addr k
  · subst hr
    rw [Function.update_self]
    exact Function.update_self ..
  · rw [Function.update_of_ne hr, ← h.ref_eq]
    cases r with
    | addr k' => exact Function.update_of_ne (fun hc => hr (congrArg Slot.addr hc)) ..
    | entry j =>
      simp only [Dinode.ref, Dinode.ind]
      by_cases hlast : k = Fin.last NDIRECT
      · subst hlast
        rw [Function.update_self, if_neg hb, if_pos hk, hzero j j.isLt]
      · rw [Function.update_of_ne (Ne.symm hlast)]

/-- The addresses of an inode after one has been put into its indirect block. -/
theorem Dinode.ref_set_entry {d : Dinode} {j : Fin NINDIRECT} (hind : d.ind ≠ 0)
    (hentry : ∀ j' : Fin NINDIRECT, indirect m' d.ind j' = if j' = j then b else indirect m d.ind j') :
    d.ref m' = Function.update (d.ref m) (.entry j) b := by
  funext r
  cases r with
  | addr k => rfl
  | entry j' =>
    simp only [Dinode.ref, Function.update_apply, Slot.entry.injEq]
    rw [if_neg hind, if_neg hind, hentry j']

/-- An unused block is put into an empty slot. -/
theorem Blocks.alloc (h : Blocks m D used) (hi : i < ninode) (htype : (D i).type ≠ 0) {r : Slot} {d : Dinode}
    (hr : (D i).ref m r = 0) (hb : ¬ used b) (hrange : nmeta ≤ b ∧ b < FSSIZE) (hd : d.type = (D i).type)
    (href : d.ref m' = Function.update ((D i).ref m) r b)
    (hothers : ∀ j < ninode, j ≠ i → (D j).type ≠ 0 → Untouched m m' (D j))
    (hused : ∀ c, used' c ↔ used c ∨ c = b) : Blocks m' (Function.update D i d) used' := by
  have hb0 : b ≠ 0 := Nat.pos_iff_ne_zero.1 (Nat.lt_of_lt_of_le (by decide) hrange.1)
  refine ⟨?_, ?_⟩
  · have hupdate : blockRef m' (Function.update D i d) = Function.update (blockRef m D) (i, r) (some b) := by
      funext ⟨j, r'⟩
      by_cases hj : j = i
      · subst hj
        by_cases hr' : r' = r
        · subst hr'
          rw [Function.update_self, blockRef_eq_some]
          simp only [Function.update_self, href]
          exact ⟨hi, hd ▸ htype, trivial, hb0⟩
        · have hne : (j, r') ≠ (j, r) := fun hc => hr' (congrArg Prod.snd hc)
          rw [Function.update_of_ne hne]
          refine blockRef_congr (by simp only [Function.update_self, hd]) fun _ => ?_
          simp only [Function.update_self, href]
          exact Function.update_of_ne hr' ..
      · have hne : (j, r') ≠ (i, r) := fun hc => hj (congrArg Prod.fst hc)
        rw [Function.update_of_ne hne]
        by_cases hlt : j < ninode
        · refine blockRef_congr ?_ fun htype' => ?_
          · simp only [Function.update_of_ne hj]
          · simp only [Function.update_of_ne hj] at htype' ⊢
            exact (hothers j hlt hj htype').ref_eq r'
        · simp only [blockRef]
          rw [if_neg fun hc => hlt hc.1, if_neg fun hc => hlt hc.1]
    rw [hupdate]
    refine h.owns.alloc ?_ hb hused
    simp only [blockRef]
    rw [if_neg fun hc => hc.2.2 hr]
  · intro c hc
    obtain hc | rfl := (hused c).1 hc
    · exact h.range hc
    · exact hrange

/-- The blocks of one inode are given up and its addresses erased. -/
theorem Blocks.release (h : Blocks m D used) {d : Dinode} (haddrs : ∀ k, d.addrs k = 0)
    (hsame : ∀ c, used c → SameBlock m m' c)
    (hused : ∀ c, used' c ↔ used c ∧ ∀ r, blockRef m D (i, r) ≠ some c) :
    Blocks m' (Function.update D i d) used' := by
  refine ⟨h.owns.release (S := fun x => x.1 = i) ?_ ?_ ?_, fun hc => h.range ((hused _).1 hc).1⟩
  · rintro ⟨j, r⟩ rfl
    simp only [blockRef, Function.update_self]
    rw [if_neg]
    rintro ⟨-, -, hr⟩
    cases r with
    | addr k => exact hr (haddrs k)
    | entry j' => exact hr (if_pos (haddrs _))
  · rintro ⟨j, r⟩ hj
    have hj : j ≠ i := hj
    by_cases hlt : j < ninode
    · refine blockRef_congr ?_ fun htype => ?_
      · simp only [Function.update_of_ne hj]
      · simp only [Function.update_of_ne hj]
        exact (h.untouched hsame hlt htype).ref_eq r
    · simp only [blockRef]
      rw [if_neg fun hc => hlt hc.1, if_neg fun hc => hlt hc.1]
  · intro c
    rw [hused c]
    constructor
    · rintro ⟨hc, hr⟩
      refine ⟨hc, ?_⟩
      rintro ⟨j, r⟩ rfl
      exact hr r
    · rintro ⟨hc, hr⟩
      exact ⟨hc, fun r => hr (i, r) rfl⟩

end xv6.fs
