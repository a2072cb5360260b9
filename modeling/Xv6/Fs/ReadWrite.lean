import Mathlib.Data.Finset.Union
import Xv6.Fs.Bmap

open bytes owner outcome

namespace xv6.fs

/-! ### A write to one block -/

section
variable {m : Mem} {D : Nat → Dinode} {i bn o : Nat} {N : Finset Slot} {l : List Nat} {data : List UInt8}

theorem InBlock.usedIn_iff {m' : Mem} {b : Nat} (h : InBlock m m' b) (c : Nat) : usedIn m' c ↔ usedIn m c := by
  refine and_congr_right fun _ => and_congr_right fun hlt => ?_
  rw [h.marks c (Nat.lt_trans hlt (by decide))]

theorem InBlock.freeBlocks_eq {m' : Mem} {b : Nat} (h : InBlock m m' b) : freeBlocks m' = freeBlocks m :=
  List.countP_congr fun c hc => by rw [h.marks c (Nat.lt_trans (List.mem_range.1 hc) (by decide))]

/-- Bytes written to a data block are bytes of the file that owns it, and nothing else. -/
theorem Owned.write (h : Owned m D) (hi : i < ninode) (htype : (D i).type ≠ 0) (hbn : bn < MAXFILE)
    (hN : slotOf bn ∈ N) (hb : (D i).block m bn ≠ 0) (ho : o + data.length ≤ BSIZE) {m' : Mem}
    (hm : m' = blit m ((D i).block m bn * BSIZE + o) data) :
    Grown D i N m l m' (D i) (absorb l ((D i).block m bn)) ∧ (D i).byte m' = blit ((D i).byte m) (bn * BSIZE + o) data := by
  have hused : usedIn m ((D i).block m bn) := h.blocks.used_ref hi htype hb
  have hin : InBlock m m' ((D i).block m bn) := hm ▸ blit_inBlock m hused.1 ho
  have href (j : Nat) (hj : j < ninode) (htype' : (D j).type ≠ 0) : (D j).ref m' = (D j).ref m := by
    funext r
    cases r with
    | addr k => rfl
    | entry e =>
      simp only [Dinode.ref]
      rw [(hin.other _ (h.block_ne_ind hi htype hb hj htype').symm).indirect_eq e.isLt]
  refine ⟨⟨⟨?_, ?_⟩, hin.inodes, rfl, fun r _ => ?_, ?_, fun l₀ hl => ?_, ?_⟩, ?_⟩
  · rw [Function.update_eq_self]
    exact h.blocks.congr (fun _ _ => rfl) href hin.usedIn_iff
  · intro c hc
    rw [hin.marks c (Nat.lt_trans hc (by decide)), h.reserved c hc]
  · rw [href i hi htype]
  · intro M _ hroom
    simp only [Room, href i hi htype, hin.freeBlocks_eq]
    exact hroom
  · rw [href i hi htype]
    exact hl.absorb (.inr ⟨hb, _, hN, rfl⟩)
  · intro j hj hne htype' r hr
    exact hin.other _ fun heq => hne (h.blocks.ref_inj r (slotOf bn) hj hi htype' htype hr heq).1
  · have hblock (c : Nat) : (D i).block m' c = (D i).block m c := congrFun (href i hi htype) _
    funext x
    by_cases hx : x / BSIZE = bn
    · obtain ⟨y, hy, rfl⟩ : ∃ y, y < BSIZE ∧ x = bn * BSIZE + y :=
        ⟨x % BSIZE, Nat.mod_lt _ (by decide), by rw [← hx]; exact (Nat.div_add_mod' x BSIZE).symm⟩
      rw [Dinode.byte_eq hbn ((hblock bn).symm ▸ hb) hy, hblock, hm, blit, blit, Dinode.byte_eq hbn hb hy]
      by_cases hin : o ≤ y ∧ y < o + data.length
      · rw [if_pos (by omega), if_pos (by omega), Nat.add_sub_add_left, Nat.add_sub_add_left]
      · rw [if_neg (by omega), if_neg (by omega)]
    · have hout : ¬ (bn * BSIZE + o ≤ x ∧ x < bn * BSIZE + o + data.length) := by
        simp only [BSIZE] at hx ho ⊢
        omega
      rw [blit, if_neg hout]
      by_cases hlarge : MAXFILE * BSIZE ≤ x
      · rw [Dinode.byte, Dinode.byte, if_pos (.inl hlarge), if_pos (.inl hlarge)]
      · refine Dinode.byte_congr (hblock _) fun h0 => hin.other _ fun heq => hx ?_
        have hlt : x / BSIZE < MAXFILE := by
          simp only [MAXFILE, NDIRECT, NINDIRECT, BSIZE] at hlarge ⊢
          omega
        exact slotOf_inj hlt hbn (h.blocks.ref_inj _ _ hi hi htype htype h0 heq).2

end

/-! ### The loops of `readi` and `writei` -/

/-- The block numbers below `MAXFILE` that the `n` bytes from offset `off` on lie in. -/
def touched (off n : Nat) : Finset Nat :=
  (Finset.range MAXFILE).filter fun bn => 0 < n ∧ bn * BSIZE < off + n ∧ off < (bn + 1) * BSIZE

/-- The slots that those blocks need. -/
def slots (off n : Nat) : Finset Slot := (touched off n).biUnion path

theorem mem_touched {off n bn : Nat} :
    bn ∈ touched off n ↔ bn < MAXFILE ∧ 0 < n ∧ bn * BSIZE < off + n ∧ off < (bn + 1) * BSIZE := by
  simp only [touched, Finset.mem_filter, Finset.mem_range]

theorem path_subset_slots {off n : Nat} (hn : 0 < n) (hlt : off < MAXFILE * BSIZE) : path (off / BSIZE) ⊆ slots off n := by
  refine Finset.subset_biUnion_of_mem path (mem_touched.2 ?_)
  simp only [MAXFILE, NDIRECT, NINDIRECT, BSIZE] at hlt ⊢
  omega

theorem slots_mono {off n off' n' : Nat} (hlo : off' ≤ off) (hhi : off + n ≤ off' + n') : slots off n ⊆ slots off' n' := by
  refine Finset.biUnion_subset_biUnion_of_subset_left path fun bn hbn => ?_
  rw [mem_touched] at hbn ⊢
  omega

/-- A range whose blocks are all there has no empty slots. -/
theorem ref_ne_zero_of_touched {m : Mem} {d : Dinode} {off n : Nat} (h : ∀ bn ∈ touched off n, d.block m bn ≠ 0)
    {r : Slot} (hr : r ∈ slots off n) : d.ref m r ≠ 0 := by
  obtain ⟨bn, hbn, hr⟩ := Finset.mem_biUnion.1 hr
  exact Dinode.path_ne_zero (h bn hbn) hr

section
variable {s : Fs} {ip : Fin NINODE} {D : Nat → Dinode} {i : Nat} {N : Finset Slot}

/-- One turn of the loop of `writei`. -/
theorem write_step (hown : Owned s.disk D) (hi : i < ninode) (hdin : (s.icache ip).din = D i) (htype : (D i).type ≠ 0)
    (hroom : Room s.disk (D i) N) (hfits : Fits s (D i) N) {off : Nat} {data : List UInt8}
    (hoff : off < MAXFILE * BSIZE) (hdata : off % BSIZE + data.length ≤ BSIZE) (hN : path (off / BSIZE) ⊆ N) {β : Type}
    (f : FsM β) :
    ∃ m' d' l', (do
        let b ← bmap ip (off / BSIZE)
        setDisk fun disk => blit disk (b * BSIZE + off % BSIZE) data
        log_write b
        f).run s = f.run (grownState s ip m' d' l') ∧ Grown D i N s.disk s.lh m' d' l' ∧
      d'.byte m' = blit ((D i).byte s.disk) off data ∧ d'.block m' (off / BSIZE) ≠ 0 := by
  have hbn : off / BSIZE < MAXFILE := by
    simp only [MAXFILE, NDIRECT, NINDIRECT, BSIZE] at hoff ⊢
    omega
  obtain ⟨m₁, d₁, l₁, hrun, hgrown, hbyte, hb⟩ := bmap_run hown hi hdin htype hroom (fun _ => hfits) hbn hN
  have hwrite := hgrown.owned.write (l := l₁) hi (hgrown.type_ne_zero htype) hbn (hN (slotOf_mem_path _))
    (by rwa [Function.update_self]) hdata rfl
  rw [Function.update_self, hbyte, Nat.div_add_mod' off BSIZE] at hwrite
  have hlt : l₁.length < LOGSIZE - 1 := (show Fits (grownState s ip _ _ _) _ _ from hgrown.fits hfits).length_lt
  refine ⟨_, d₁, _, ?_, hgrown.trans hwrite.1, hwrite.2, ?_⟩
  · rw [bind_ok hrun]
    exact setDisk_bind.trans (log_write_bind (by exact hfits.1) (by exact hlt))
  · have hkeep := hwrite.1.keep (slotOf (off / BSIZE))
    rw [Function.update_self] at hkeep
    exact (hkeep hb).trans_ne hb

theorem mem_touched_cases {off n k bn : Nat} (hk : k = min n (BSIZE - off % BSIZE)) (h : bn ∈ touched off n) :
    bn = off / BSIZE ∨ bn ∈ touched (off + k) (n - k) := by
  rw [mem_touched] at h ⊢
  simp only [BSIZE] at hk h ⊢
  omega

theorem writeLoop_nil (fuel off : Nat) : (writeLoop ip fuel off []).run s = .ok () s := by cases fuel <;> rfl

/-- The loop of `writei` stores the bytes. -/
theorem writeLoop_run (hown : Owned s.disk D) (hi : i < ninode) (hdin : (s.icache ip).din = D i)
    (htype : (D i).type ≠ 0) (hroom : Room s.disk (D i) N) (hfits : Fits s (D i) N) {fuel off : Nat} {src : List UInt8}
    (hfuel : src.length ≤ fuel) (hoff : off + src.length ≤ MAXFILE * BSIZE) (hN : slots off src.length ⊆ N) :
    ∃ m' d' l', (writeLoop ip fuel off src).run s = .ok () (grownState s ip m' d' l') ∧
      Grown D i N s.disk s.lh m' d' l' ∧ d'.byte m' = blit ((D i).byte s.disk) off src ∧ ∀ bn ∈ touched off src.length, d'.block m' bn ≠ 0 := by
  induction fuel generalizing s D off src with
  | zero =>
    obtain rfl := List.length_eq_zero_iff.1 (Nat.le_zero.1 hfuel)
    refine ⟨s.disk, D i, s.lh, ?_, Grown.refl hown, (blit_nil ..).symm, by simp [touched]⟩
    rw [← hdin, grownState_self, writeLoop_nil]
  | succ fuel ih =>
    by_cases hsrc : src = []
    · subst hsrc
      refine ⟨s.disk, D i, s.lh, ?_, Grown.refl hown, (blit_nil ..).symm, by simp [touched]⟩
      rw [← hdin, grownState_self, writeLoop_nil]
    · have hpos : 0 < src.length := List.length_pos_iff.2 hsrc
      generalize hk : min src.length (BSIZE - off % BSIZE) = k
      have hmod : off % BSIZE < BSIZE := Nat.mod_lt _ (by decide)
      have htake : (src.take k).length = k := by rw [List.length_take]; omega
      have hpath : path (off / BSIZE) ⊆ N := (path_subset_slots hpos (by omega)).trans hN
      have hdata : off % BSIZE + (src.take k).length ≤ BSIZE := by omega
      obtain ⟨m₁, d₁, l₁, hrun, hgrown, hbyte, hb⟩ := write_step hown hi hdin htype hroom hfits
        (by omega) hdata hpath (writeLoop ip fuel (off + k) (src.drop k))
      have hdrop : (src.drop k).length = src.length - k := List.length_drop
      have hoff' : off + k + (src.drop k).length ≤ MAXFILE * BSIZE := by omega
      have hN' : slots (off + k) (src.drop k).length ⊆ N := hdrop ▸ (slots_mono (by omega) (by omega)).trans hN
      obtain ⟨m₂, d₂, l₂, hrun', hgrown', hbyte', hblocks⟩ := ih (s := grownState s ip m₁ d₁ l₁) hgrown.owned
        (by simp) (hgrown.type_ne_zero htype) (by rw [Function.update_self]; exact hgrown.room (Finset.Subset.refl N) hroom)
        (hgrown.fits hfits) (by omega) hoff' hN'
      rw [Function.update_self, grownState_disk, hbyte] at hbyte'
      rw [hdrop] at hblocks
      refine ⟨m₂, d₂, l₂, ?_, hgrown.trans hgrown', ?_, ?_⟩
      · rw [writeLoop, if_neg hsrc, hk]
        simp only []
        rw [hrun, hrun', grownState_grownState]
      · have happend := blit_append ((D i).byte s.disk) off (src.take k) (src.drop k)
        rw [htake, List.take_append_drop] at happend
        rw [hbyte', happend]
      · intro bn hbn
        obtain rfl | hbn := mem_touched_cases hk.symm hbn
        · have hkeep := hgrown'.keep (slotOf (off / BSIZE))
          rw [Function.update_self] at hkeep
          exact (hkeep hb).trans_ne hb
        · exact hblocks bn hbn

theorem readLoop_zero (fuel off : Nat) : (readLoop ip fuel off 0).run s = .ok [] s := by cases fuel <;> rfl

/-- The loop of `readi` returns the bytes. -/
theorem readLoop_run (hown : Owned s.disk D) (hi : i < ninode) (hdin : (s.icache ip).din = D i)
    (htype : (D i).type ≠ 0) (hroom : Room s.disk (D i) N)
    (hout : (∃ r ∈ N, (D i).ref s.disk r = 0) → Fits s (D i) N) {fuel off n : Nat}
    (hfuel : n ≤ fuel) (hoff : off + n ≤ MAXFILE * BSIZE) (hN : slots off n ⊆ N) :
    ∃ m' d' l', (readLoop ip fuel off n).run s = .ok (slice ((D i).byte s.disk) off n) (grownState s ip m' d' l') ∧
      Grown D i N s.disk s.lh m' d' l' ∧ d'.byte m' = (D i).byte s.disk := by
  induction fuel generalizing s D off n with
  | zero =>
    obtain rfl := Nat.le_zero.1 hfuel
    refine ⟨s.disk, D i, s.lh, ?_, Grown.refl hown, rfl⟩
    rw [← hdin, grownState_self, readLoop_zero]
    rfl
  | succ fuel ih =>
    by_cases hn : n = 0
    · subst hn
      refine ⟨s.disk, D i, s.lh, ?_, Grown.refl hown, rfl⟩
      rw [← hdin, grownState_self, readLoop_zero]
      rfl
    · generalize hk : min n (BSIZE - off % BSIZE) = k
      have hmod : off % BSIZE < BSIZE := Nat.mod_lt _ (by decide)
      have hbn : off / BSIZE < MAXFILE := by
        simp only [MAXFILE, NDIRECT, NINDIRECT, BSIZE] at hoff ⊢
        omega
      have hpath : path (off / BSIZE) ⊆ N := (path_subset_slots (by omega) (by omega)).trans hN
      obtain ⟨m₁, d₁, l₁, hrun, hgrown, hbyte, hb⟩ := bmap_run hown hi hdin htype hroom hout hbn hpath
      have hoff' : off + k + (n - k) ≤ MAXFILE * BSIZE := by omega
      obtain ⟨m₂, d₂, l₂, hrun', hgrown', hbyte'⟩ := ih (s := grownState s ip m₁ d₁ l₁) hgrown.owned
        (by simp) (hgrown.type_ne_zero htype) (by rw [Function.update_self]; exact hgrown.room (Finset.Subset.refl N) hroom) (hgrown.out hout)
        (by omega) hoff' ((slots_mono (by omega) (by omega)).trans hN)
      rw [Function.update_self, grownState_disk, hbyte] at hrun' hbyte'
      refine ⟨m₂, d₂, l₂, ?_, hgrown.trans hgrown', hbyte'⟩
      have hslice : slice m₁ (d₁.block m₁ (off / BSIZE) * BSIZE + off % BSIZE) k = slice ((D i).byte s.disk) off k := by
        refine slice_congr fun x hx => ?_
        rw [Nat.add_assoc, ← Dinode.byte_eq hbn hb (by omega), hbyte, ← Nat.add_assoc, Nat.div_add_mod' off BSIZE]
      have hsplit := slice_append ((D i).byte s.disk) off k (n - k)
      rw [Nat.add_sub_cancel' (by omega)] at hsplit
      rw [readLoop, if_neg hn, bind_ok hrun, get_bind, hk, bind_ok hrun', grownState_grownState, hsplit, ← hslice]
      rfl

end

end xv6.fs
