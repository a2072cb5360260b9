import Xv6.Umalloc.History

open bytes extent Function run

namespace xv6.umalloc

variable {s s' : Heap} {pool : Pool} {l : List Extent}

/-- The pool, whose free blocks are `l`, or else the kernel, has the memory for a request of `nbytes` bytes. -/
def Available (s : Heap) (pool : Pool) (l : List Extent) (nbytes : Nat) : Prop :=
  (∃ x ∈ l, 8 * units nbytes ≤ x.len) ∨ (sbrk pool (request pool (units nbytes)) s).1 ≠ failed

theorem huge_iff {a : Nat} (hlo : s.start pool ≤ a) (hhi : a ≤ limit pool + 8) : HUGE_VA_OFFSET ≤ a ↔ pool = .huge := by
  cases pool with
  | base =>
    simp only [limit, PHYSTOP] at hhi
    simp only [HUGE_VA_OFFSET, reduceCtorEq, iff_false]
    omega
  | huge => exact iff_of_true hlo rfl

theorem Outcome.available {nbytes r : Nat} (hout : Outcome s pool l (units nbytes) r s') (h : PoolOK s pool l) (hs : Sizes s) :
    (r ≠ 0 ↔ Available s pool l nbytes) ∧ (r ≠ 0 → (HUGE_VA_OFFSET ≤ r ↔ pool = .huge)) := by
  have hs' : Sizes s' := by
    cases hout with
    | hit => exact hs.withList
    | refused => exact Sizes.withList ⟨hs.start_le, hs.sz_le, hs.sz_mod, hs.hugesz_le, hs.hugesz_mod⟩
    | granted hsmall hok hs' => exact hs'.withList
  refine ⟨?_, fun hne => ?_⟩
  · cases hout with
    | hit hgives hlen hframe =>
      obtain ⟨l₁, y, l₂, rfl, hle, -, -⟩ := hgives.carve
      exact iff_of_true (by omega) (.inl ⟨y, by simp, by omega⟩)
    | refused hsmall hfail hlist hf hframe =>
      refine iff_of_false (by simp) ?_
      rintro (⟨x, hx, hle⟩ | hne)
      · exact absurd (hsmall x hx) (by omega)
      · exact hne (by rw [hfail])
    | granted hsmall hok hs' hgives hlen hframe =>
      exact iff_of_true (by omega) (.inr (by rw [hok]; exact hs.brk_ne_failed pool))
  · obtain ⟨x, rfl, -, -, hw⟩ := (hout.block h hs (units_pos _)).resolve_left hne
    have := hw.lo_le
    have := hw.le_hi
    have := hw.pos
    have := hw.len
    have := hs'.brk_le pool
    have := x.fin_eq
    exact huge_iff (s := s) (by omega) (by omega)

/-- The region of the result of a request, of any size. -/
theorem run_region (c : Call) (hs : Sizes s) (h : PoolOK s (c.pool s) l) :
    ∃ r s', c.Returns s r s' ∧ (r ≠ 0 ↔ Available s (c.pool s) l c.nbytes) ∧
      (r ≠ 0 → (HUGE_VA_OFFSET ≤ r ↔ c.pool s = .huge)) := by
  by_cases hunits : units c.nbytes < 2 ^ 28
  · obtain ⟨r, s', hret, hout⟩ := run_outcome c hs h hunits
    exact ⟨r, s', hret, hout.available h hs⟩
  · have hrange : 2 ^ 28 ≤ units c.nbytes ∧ units c.nbytes ≤ 2 ^ 29 := by
      simp only [units, u32, headerSize] at hunits ⊢
      omega
    have hsmall := h.small hs hrange.1
    by_cases hfail : (sbrk (c.pool s) (request (c.pool s) (units c.nbytes)) s).1 = failed
    · obtain ⟨m, f, -, -, -, hrun⟩ := body_refused h hs hsmall hfail
      refine ⟨_, _, ⟨l.length + 1, fun fuel hfuel => (run_eq_body c fuel s).trans (hrun fuel (by omega))⟩,
        iff_of_false (by simp) ?_, fun hne => absurd rfl hne⟩
      rintro (⟨x, hx, hle⟩ | hne)
      · exact absurd (hsmall x hx) (by omega)
      · exact hne hfail
    · obtain ⟨m, p, hrun⟩ := body_overflow h hs hrange.1 hrange.2 hfail
      refine ⟨_, _, ⟨2 * l.length + 4, fun fuel hfuel => (run_eq_body c fuel s).trans (hrun fuel (by omega))⟩,
        iff_of_true (by omega) (.inr hfail), fun _ => ?_⟩
      have := hs.start_le_brk (c.pool s)
      have := hs.brk_le (c.pool s)
      exact huge_iff (s := s) (by omega) (by omega)

/-- The policy for the region of a result: that of the flag for `vmalloc`; for `malloc` the huge region for
requests of at least 1MB while transparent huge pages are on. -/
def InRegion (s : Heap) (r : Nat) : Call → Prop
  | .malloc nbytes => HUGE_VA_OFFSET ≤ r ↔ s.thp ≠ 0 ∧ 1048576 ≤ nbytes
  | .vmalloc _ flag => (flag = VMALLOC_SIZE_BASE → r < HUGE_VA_OFFSET) ∧ (flag = VMALLOC_SIZE_HUGE → HUGE_VA_OFFSET ≤ r)

/-- The requests that `malloc` sends to the wrong pool: those above 1000000 bytes while transparent huge pages are
on, if they are below 1MB or come from `vmalloc` for the base pool. -/
def Misrouted (s : Heap) : Call → Prop
  | .malloc nbytes => s.thp ≠ 0 ∧ 1000000 < nbytes ∧ nbytes < 1048576
  | .vmalloc nbytes flag => flag = VMALLOC_SIZE_BASE ∧ s.thp ≠ 0 ∧ 1000000 < nbytes

instance (s : Heap) (c : Call) : Decidable (Misrouted s c) :=
  match c with
  | .malloc _ => inferInstanceAs (Decidable (_ ∧ _ ∧ _))
  | .vmalloc _ _ => inferInstanceAs (Decidable (_ ∧ _ ∧ _))

theorem inRegion_iff (c : Call) {r : Nat} (hr : HUGE_VA_OFFSET ≤ r ↔ c.pool s = .huge) : InRegion s r c ↔ ¬ Misrouted s c := by
  cases c with
  | malloc nbytes =>
    simp only [InRegion, Misrouted, hr, Call.pool]
    split
    next h =>
      simp only [true_iff]
      omega
    next h =>
      simp only [reduceCtorEq, false_iff]
      omega
  | vmalloc nbytes flag =>
    simp only [InRegion, Misrouted, ← not_le, hr, Call.pool, VMALLOC_SIZE_BASE, VMALLOC_SIZE_HUGE]
    by_cases hflag : flag = 0
    · subst hflag
      split_ifs with h <;> simp <;> omega
    · simp [hflag]

/-- After every history of a program that stays within the bound, a request, of any size, has its result in the region
that the policy gives unless it is one of those that are sent to the huge pool against the policy and the memory for it
is there. -/
theorem policy_iff {t : Program} (ht : Reachable Started Step t) (c : Call) :
    (∀ r s', c.Returns t.heap r s' → r ≠ 0 → InRegion t.heap r c) ↔
      ¬ (Misrouted t.heap c ∧
        ∃ l, PoolOK t.heap (c.pool t.heap) l ∧ Available t.heap (c.pool t.heap) l c.nbytes) := by
  obtain ⟨free, hwf⟩ := reachable_wf ht
  constructor
  · rintro hall ⟨hmis, l, hpool, hav⟩
    obtain ⟨r, s', hret, havail, hregion⟩ := run_region c hwf.sizes hpool
    have hne := havail.2 hav
    exact (inRegion_iff c (hregion hne)).1 (hall r s' hret hne) hmis
  · intro hnot r₁ s₁ hret₁ hne
    obtain ⟨r, s', hret, havail, hregion⟩ := run_region c hwf.sizes (hwf.pools (c.pool t.heap))
    obtain ⟨rfl, rfl⟩ := hret₁.unique hret
    exact (inRegion_iff c (hregion hne)).2 fun hmis => hnot ⟨hmis, _, hwf.pools _, havail.1 hne⟩

/-- Both pools have free blocks, transparent huge pages are on: a small request, one of 1MB and one for each flag. -/
theorem policy_used : ∃ t, history 20 (.small 1) [.request (.malloc 100), .request (.vmalloc 5000 1),
      .request (.malloc 60), .free 49048] = some t ∧
    ∀ c ∈ [Call.malloc 1000, .malloc 1048576, .vmalloc 1000 VMALLOC_SIZE_BASE, .vmalloc 1000 VMALLOC_SIZE_HUGE],
      ∀ r s', c.Returns t.heap r s' → r ≠ 0 → InRegion t.heap r c := by
  obtain ⟨t, ht⟩ := Option.isSome_iff_exists.1 (show (history 20 (.small 1) [.request (.malloc 100),
    .request (.vmalloc 5000 1), .request (.malloc 60), .free 49048]).isSome by decide +kernel)
  have hthp : (some t).map (fun t => t.heap.thp) = some 1 := by
    rw [← ht]
    decide +kernel
  refine ⟨t, ht, fun c hc => (policy_iff (reachable_history (.start (started_small 1)) ht) c).2 fun h => ?_⟩
  simp only [List.mem_cons, List.not_mem_nil, or_false] at hc
  rcases hc with rfl | rfl | rfl | rfl <;> simp [Misrouted, Option.some.inj hthp] at h

/-- With transparent huge pages on, 2000000 bytes of the base pool and 1000001 bytes of `malloc` are huge memory. And
with transparent huge pages off, after a request for `0xE0000000` bytes, whose block is freed, so are `0xC1F0DC48`
bytes of `malloc`. -/
theorem policy_broken :
    (∃ r s', (Call.vmalloc 2000000 VMALLOC_SIZE_BASE).Returns (Program.small 1).heap r s' ∧ HUGE_VA_OFFSET ≤ r) ∧
    (∃ r s', (Call.malloc 1000001).Returns (Program.small 1).heap r s' ∧ HUGE_VA_OFFSET ≤ r) ∧
    ([Event.request (.vmalloc 100 1), .request (.malloc 40000), .request (.malloc 0xE0000000), .free 56400,
        .request (.malloc 0xC1F0DC48)].foldlM (Event.exec 20) (.small 0)).map (fun t => t.live.head?) =
      some (some (0x1E100008, 0xC1F0DC48)) := by
  obtain ⟨free, hwf⟩ := reachable_wf (.start (started_small 1))
  obtain ⟨r, s', hret, havail, hregion⟩ := run_region (.vmalloc 2000000 VMALLOC_SIZE_BASE) hwf.sizes (hwf.pools _)
  obtain ⟨r', t, hret', havail', hregion'⟩ := run_region (.malloc 1000001) hwf.sizes (hwf.pools _)
  exact ⟨⟨r, s', hret, (hregion (havail.2 (.inr (by decide)))).2 (by decide)⟩,
    ⟨r', t, hret', (hregion' (havail'.2 (.inr (by decide)))).2 (by decide)⟩, by decide +kernel⟩

end xv6.umalloc
