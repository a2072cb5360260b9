import Xv6.Lib.Count
import Xv6.Own.View

open bytes

namespace xv6

/-- All frames of the base allocator and of the huge allocator. -/
def frames : Finset Nat := (Finset.range 57065).image fun i => 4096 * (i + 0x117)

def hugeFrames : Finset Nat := (Finset.range 128).image fun i => 0x400000 * (i + 120)

theorem mem_frames {f : Nat} (h : IsFrame f) : f ∈ frames := by
  obtain ⟨halign, hlo, hhi⟩ := h
  refine Finset.mem_image.2 ⟨f / 4096 - 0x117, Finset.mem_range.2 (by omega), ?_⟩
  omega

theorem mem_hugeFrames {f : Nat} (h : IsHuge f) : f ∈ hugeFrames := by
  obtain ⟨halign, hlo, hhi⟩ := h
  refine Finset.mem_image.2 ⟨f / 0x400000 - 120, Finset.mem_range.2 (by omega), ?_⟩
  omega

theorem card_frames : frames.card ≤ 57065 :=
  Finset.card_image_le.trans (Finset.card_range 57065).le

theorem card_hugeFrames : hugeFrames.card ≤ 128 :=
  Finset.card_image_le.trans (Finset.card_range 128).le

section bounds

variable {s : Machine} {g : Ghost} {d n lo hi : Nat} {o : DirOwner}

/-- There are not more pages mapped without a gap than there are frames. -/
theorem Sys.pages_le (hs : Sys s g) (hd : IsFrame d) (hdir : g.own d = .dir o) (hn : n ≤ 2 ^ 19)
    (h : ∀ k < n, lookup s.mem d k ≠ 0) : n ≤ 57065 := by
  have hcard : (Finset.range n).card ≤ frames.card := by
    refine count.le_card_of_labels g.own (fun k => Role.page d (k / 1024) (k % 1024))
      (fun i _ j _ heq => ?_) fun k hk => ?_
    · simp only [Role.page.injEq] at heq
      omega
    · have hk' := Finset.mem_range.1 hk
      rcases hs.lookup_user hd hdir (show k < 2 ^ 19 by omega) with hz | ⟨f, _, hf, hrole, _⟩
      · exact absurd hz (h k hk')
      · exact ⟨f, mem_frames hf, hrole⟩
  rw [Finset.card_range] at hcard
  exact hcard.trans card_frames

/-- There are not more huge pages mapped than there are huge frames. -/
theorem Sys.huge_le (hs : Sys s g) (hd : IsFrame d) (hdir : g.own d = .dir o) (hhi : hi ≤ 512)
    (h : ∀ i, lo ≤ i → i < hi → hugeAt s.mem d i ≠ 0) : hi ≤ lo + 128 := by
  have hcard : (Finset.range (hi - lo)).card ≤ hugeFrames.card := by
    refine count.le_card_of_labels g.hown (fun i => HugeRole.page d (lo + i))
      (fun i _ j _ heq => ?_) fun i hi => ?_
    · simpa using heq
    · have hlt := Finset.mem_range.1 hi
      rcases hs.hugeAt_user hd hdir (show lo + i < 512 by omega) with hz | ⟨f, hf, hrole, _⟩
      · exact absurd hz (h _ (by omega) (by omega))
      · exact ⟨f, mem_hugeFrames hf, hrole⟩
  rw [Finset.card_range] at hcard
  have := hcard.trans card_hugeFrames
  omega

end bounds

end xv6
