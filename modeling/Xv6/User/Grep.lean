import Xv6.Lib.Bytes
import Xv6.User.Match

open bytes

namespace xv6.grep

/-- The first `c` in a string, as an offset from its start; the string ends before its NUL. -/
def strchr (c : UInt8) : List UInt8 → Option Nat
  | [] => none
  | x :: s => if x = 0 then none else if x = c then some 0 else (strchr c s).map (· + 1)

theorem strchr_lt {c : UInt8} {s : List UInt8} {i : Nat} (h : strchr c s = some i) : i < s.length := by
  induction s generalizing i with
  | nil => simp [strchr] at h
  | cons x s ih =>
    rw [strchr] at h
    split_ifs at h
    · rw [Option.some.injEq] at h
      rw [← h]
      exact Nat.succ_pos _
    · obtain ⟨j, hj, rfl⟩ := Option.map_eq_some_iff.1 h
      exact Nat.succ_lt_succ (ih hj)

/-- The size of the buffer `buf`. -/
abbrev bufSize : Nat := 1024

/-- The bytes of the buffer from `p` on. -/
def tail (buf : Mem) (p : Nat) : List UInt8 := slice buf p (bufSize - p)

/-- The C string at `p`. -/
def cstring (buf : Mem) (p : Nat) : List UInt8 := (tail buf p).takeWhile (· ≠ 0)

/-- The buffer, the number of its bytes that are in use, and what has been written to standard output. -/
structure State where
  buf : Mem
  m : Nat
  out : List (List UInt8)

/-- The inner loop: print the lines of the buffer from `p` on that match. The newline of a line is overwritten by a NUL,
and is restored only if the line matches. -/
def scan (pattern : List UInt8) (buf : Mem) (p : Nat) (out : List (List UInt8)) : Mem × Nat × List (List UInt8) :=
  match _h : strchr newline (tail buf p) with
  | none => (buf, p, out)
  | some i =>
    let q := p + i
    let buf := store8 buf q 0
    if match_ pattern (cstring buf p) then
      let buf := store8 buf q newline
      scan pattern buf (q + 1) (out ++ [slice buf p (q + 1 - p)])
    else
      scan pattern buf (q + 1) out
termination_by bufSize - p
decreasing_by
  all_goals
    have hlt := strchr_lt _h
    rw [tail, slice_length] at hlt
    omega

/-- One turn of the outer loop, in which `read` has returned `piece`. -/
def turn (pattern : List UInt8) (s : State) (piece : List UInt8) : State :=
  let m := s.m + piece.length
  let buf := store8 (blit s.buf s.m piece) m 0
  let (buf, p, out) := scan pattern buf 0 s.out
  let m := if p = 0 then 0 else m
  if m > 0 then
    { buf := blit buf 0 (slice buf p (m - p)), m := m - p, out }
  else
    { buf, m, out }

def State.start : State := { buf := fun _ => 0, m := 0, out := [] }

/-- What `grep` writes when `read` returns the given pieces one after the other and then 0. -/
def grep (pattern : List UInt8) (pieces : List (List UInt8)) : List (List UInt8) :=
  (pieces.foldl (turn pattern) .start).out

/-- No piece is empty or longer than `grep` has asked for. -/
def Allowed (pattern : List UInt8) : State → List (List UInt8) → Prop
  | _, [] => True
  | s, piece :: pieces => piece ≠ [] ∧ piece.length ≤ bufSize - s.m - 1 ∧ Allowed pattern (turn pattern s piece) pieces

/-! ### Lines -/

/-- The complete lines of a text, newlines included, and what is left after the last of them. -/
def splitLines : List UInt8 → List (List UInt8) × List UInt8
  | [] => ([], [])
  | c :: w =>
    if c = newline then
      ([c] :: (splitLines w).1, (splitLines w).2)
    else
      match (splitLines w).1 with
      | [] => ([], c :: (splitLines w).2)
      | l :: ls => ((c :: l) :: ls, (splitLines w).2)

section lines

variable {u v w : List UInt8}

theorem splitLines_of_not_mem (h : newline ∉ u) : splitLines u = ([], u) := by
  induction u with
  | nil => rfl
  | cons c u ih =>
    rw [List.mem_cons, not_or] at h
    rw [splitLines, if_neg (Ne.symm h.1), ih h.2]

theorem splitLines_line (v : List UInt8) (h : newline ∉ u) :
    splitLines (u ++ newline :: v) = ((u ++ [newline]) :: (splitLines v).1, (splitLines v).2) := by
  induction u with
  | nil => rw [List.nil_append, splitLines, if_pos rfl, List.nil_append]
  | cons c u ih =>
    rw [List.mem_cons, not_or] at h
    rw [List.cons_append, splitLines, if_neg (Ne.symm h.1), ih h.2, List.cons_append]

/-- A text has no newline, or a first line. -/
theorem newline_cases (w : List UInt8) : newline ∉ w ∨ ∃ u v, w = u ++ newline :: v ∧ newline ∉ u := by
  by_cases h : newline ∈ w
  · obtain ⟨u, v, heq, hu⟩ := List.eq_append_cons_of_mem h
    exact .inr ⟨u, v, heq, hu⟩
  · exact .inl h

/-- An induction over the lines of a text. -/
theorem line_induction {P : List UInt8 → Prop} (hlast : ∀ u, newline ∉ u → P u)
    (hline : ∀ u v, newline ∉ u → P v → P (u ++ newline :: v)) (w : List UInt8) : P w := by
  induction hn : w.length using Nat.strong_induction_on generalizing w with
  | _ n ih =>
    rcases newline_cases w with hno | ⟨u, v, rfl, hu⟩
    · exact hlast w hno
    · rw [List.length_append, List.length_cons] at hn
      exact hline u v hu (ih v.length (by omega) v rfl)

theorem splitLines_flatten (w : List UInt8) : (splitLines w).1.flatten ++ (splitLines w).2 = w := by
  induction w using line_induction with
  | hlast u hu => rw [splitLines_of_not_mem hu, List.flatten_nil, List.nil_append]
  | hline u v hu ih =>
    rw [splitLines_line v hu, List.flatten_cons, List.append_assoc, ih, List.append_assoc, List.singleton_append]

theorem newline_not_mem_rest (w : List UInt8) : newline ∉ (splitLines w).2 := by
  induction w using line_induction with
  | hlast u hu => rwa [splitLines_of_not_mem hu]
  | hline u v hu ih => rwa [splitLines_line v hu]

theorem splitLines_append (w x : List UInt8) : splitLines (w ++ x) =
    ((splitLines w).1 ++ (splitLines ((splitLines w).2 ++ x)).1, (splitLines ((splitLines w).2 ++ x)).2) := by
  induction w using line_induction with
  | hlast u hu => rw [splitLines_of_not_mem hu, List.nil_append]
  | hline u v hu ih =>
    rw [List.append_assoc, List.cons_append, splitLines_line _ hu, splitLines_line _ hu, ih, List.cons_append]

/-- A text with a newline is longer than what is left after its last line. -/
theorem length_rest_lt (h : newline ∈ w) : (splitLines w).2.length < w.length := by
  have hne : (splitLines w).2 ≠ w := fun heq => newline_not_mem_rest w (heq.symm ▸ h)
  have hflat := congrArg List.length (splitLines_flatten w)
  rw [List.length_append] at hflat
  by_contra hge
  have hzero : (splitLines w).1.flatten = [] := List.length_eq_zero_iff.1 (by omega)
  have hall := splitLines_flatten w
  rw [hzero, List.nil_append] at hall
  exact hne hall

end lines

/-- The lines that match, as `grep` should print them. -/
def matching (pattern : List UInt8) (ls : List (List UInt8)) : List (List UInt8) :=
  ls.filter fun l => match_ pattern l.dropLast

section scan

variable {buf : Mem} {p : Nat} {u v w : List UInt8}

theorem tail_eq {n : Nat} (h : p + n < bufSize) : tail buf p = slice buf p n ++ buf (p + n) :: tail buf (p + n + 1) := by
  have hlen : bufSize - p = n + (1 + (bufSize - (p + n + 1))) := by omega
  rw [tail, hlen, slice_append, slice_append]
  rfl

theorem strchr_none (rest : List UInt8) (hnul : 0 ∉ u) (h : newline ∉ u) : strchr newline (u ++ 0 :: rest) = none := by
  induction u with
  | nil => rfl
  | cons x u ih =>
    rw [List.mem_cons, not_or] at hnul h
    rw [List.cons_append, strchr, if_neg (Ne.symm hnul.1), if_neg (Ne.symm h.1), ih hnul.2 h.2]
    rfl

theorem strchr_some (rest : List UInt8) (hnul : 0 ∉ u) (h : newline ∉ u) :
    strchr newline (u ++ newline :: rest) = some u.length := by
  induction u with
  | nil => rfl
  | cons x u ih =>
    rw [List.mem_cons, not_or] at hnul h
    rw [List.cons_append, strchr, if_neg (Ne.symm hnul.1), if_neg (Ne.symm h.1), ih hnul.2 h.2]
    rfl

theorem takeWhile_nul (rest : List UInt8) (hnul : 0 ∉ u) : (u ++ 0 :: rest).takeWhile (· ≠ 0) = u := by
  have hall : ∀ x ∈ u, decide (x ≠ 0) = true := fun x hx => decide_eq_true fun h0 => hnul (h0 ▸ hx)
  rw [List.takeWhile_append_of_pos hall, List.takeWhile_cons_of_neg (by simp), List.append_nil]

/-- The inner loop prints the complete lines that match and stops at what is left after them. -/
theorem scan_spec (pattern : List UInt8) (out : List (List UInt8)) (hw : slice buf p w.length = w) (hend : buf (p + w.length) = 0)
    (hfit : p + w.length < bufSize) (hnul : 0 ∉ w) :
    ∃ buf' p', scan pattern buf p out = (buf', p', out ++ matching pattern (splitLines w).1) ∧
      p' + (splitLines w).2.length = p + w.length ∧ slice buf' p' (splitLines w).2.length = (splitLines w).2 := by
  induction hn : w.length using Nat.strong_induction_on generalizing w buf p out with
  | _ n ih =>
    rcases newline_cases w with hno | ⟨u, v, rfl, hu⟩
    · have hnone : strchr newline (tail buf p) = none := by
        rw [tail_eq hfit, hw, hend]
        exact strchr_none _ hnul hno
      refine ⟨buf, p, ?_, ?_⟩
      · rw [scan]
        split
        · rw [splitLines_of_not_mem hno, matching, List.filter_nil, List.append_nil]
        · next i hsome =>
          rw [hnone] at hsome
          cases hsome
      · rw [splitLines_of_not_mem hno, ← hn]
        exact ⟨rfl, hw⟩
    · rw [List.length_append, List.length_cons] at hw hend hfit hn
      rw [List.mem_append, List.mem_cons, not_or, not_or] at hnul
      obtain ⟨hnulu, -, hnulv⟩ := hnul
      have hsplit : slice buf p u.length = u ∧ buf (p + u.length) = newline ∧
          slice buf (p + u.length + 1) v.length = v := by
        rw [slice_append, Nat.add_comm v.length 1, slice_append] at hw
        obtain ⟨h₁, h₂⟩ := List.append_inj hw (slice_length _ _ _)
        have h₂' : buf (p + u.length) :: slice buf (p + u.length + 1) v.length = newline :: v := h₂
        rw [List.cons.injEq] at h₂'
        exact ⟨h₁, h₂'.1, h₂'.2⟩
      obtain ⟨hu', hq, hv⟩ := hsplit
      have hsome : strchr newline (tail buf p) = some u.length := by
        rw [tail_eq (n := u.length) (by omega), hu', hq]
        exact strchr_some _ hnulu hu
      have hstring : cstring (store8 buf (p + u.length) 0) p = u := by
        have hbefore : slice (store8 buf (p + u.length) 0) p u.length = u :=
          (slice_congr fun k hk => if_neg (by omega)).trans hu'
        have hat : store8 buf (p + u.length) 0 (p + u.length) = 0 := if_pos rfl
        rw [cstring, tail_eq (n := u.length) (by omega), hbefore, hat]
        exact takeWhile_nul _ hnulu
      -- What follows the newline is the same in every buffer that the loop goes on with.
      have hrest (b : Mem) (hb : ∀ a, p + u.length < a → b a = buf a) (out' : List (List UInt8)) :
          ∃ buf' p', scan pattern b (p + u.length + 1) out' = (buf', p', out' ++ matching pattern (splitLines v).1) ∧
            p' + (splitLines v).2.length = p + u.length + 1 + v.length ∧
            slice buf' p' (splitLines v).2.length = (splitLines v).2 := by
        refine ih v.length (by omega) out' ?_ ?_ (by omega) hnulv rfl
        · exact (slice_congr fun k hk => hb _ (by omega)).trans hv
        · rw [hb _ (by omega), ← hend]
          congr 1
          omega
      have hstep : scan pattern buf p out =
          if match_ pattern u then
            scan pattern (store8 (store8 buf (p + u.length) 0) (p + u.length) newline) (p + u.length + 1)
              (out ++ [u ++ [newline]])
          else scan pattern (store8 buf (p + u.length) 0) (p + u.length + 1) out := by
        have hline : slice (store8 (store8 buf (p + u.length) 0) (p + u.length) newline) p (p + u.length + 1 - p) =
            u ++ [newline] := by
          rw [show p + u.length + 1 - p = u.length + 1 by omega, slice_append]
          refine congrArg₂ (· ++ ·) ((slice_congr fun k hk => ?_).trans hu') ?_
          · rw [store8, if_neg (by omega), store8, if_neg (by omega)]
          · exact congrArg (· :: []) (if_pos rfl)
        rw [scan]
        split
        · next hnone =>
          rw [hsome] at hnone
          cases hnone
        · next i hi =>
          rw [hsome, Option.some.injEq] at hi
          subst hi
          simp only [hstring, hline]
      have hlines := splitLines_line v hu
      have hdrop : (u ++ [newline]).dropLast = u := List.dropLast_concat
      rw [hlines, hstep, matching, List.filter_cons, hdrop]
      split_ifs with hmatch
      · obtain ⟨buf', p', hrun, hlen, hslice⟩ := hrest (store8 (store8 buf (p + u.length) 0) (p + u.length) newline)
          (fun a ha => by rw [store8, if_neg (by omega), store8, if_neg (by omega)]) (out ++ [u ++ [newline]])
        refine ⟨buf', p', ?_, show p' + (splitLines v).2.length = p + n by omega, hslice⟩
        rw [hrun, matching, List.append_assoc, List.singleton_append]
      · obtain ⟨buf', p', hrun, hlen, hslice⟩ := hrest (store8 buf (p + u.length) 0)
          (fun a ha => by rw [store8, if_neg (by omega)]) out
        exact ⟨buf', p', hrun, show p' + (splitLines v).2.length = p + n by omega, hslice⟩

end scan

section turn

variable {s : State} {w piece : List UInt8} {pieces : List (List UInt8)}

/-- The buffer holds the beginning `w` of a line. -/
structure Carries (s : State) (w : List UInt8) : Prop where
  m_eq : s.m = w.length
  buf_eq : slice s.buf 0 w.length = w
  newline : newline ∉ w
  nul : 0 ∉ w

/-- One turn prints the lines that it completes. What is left after them is carried on, except that it is lost if
there was no newline at all. -/
theorem turn_spec (pattern : List UInt8) (h : Carries s w) (hlen : piece.length ≤ bufSize - s.m - 1) (hpos : piece ≠ []) (hnul : 0 ∉ piece) :
    (turn pattern s piece).out = s.out ++ matching pattern (splitLines (w ++ piece)).1 ∧
      Carries (turn pattern s piece) (if newline ∈ piece then (splitLines (w ++ piece)).2 else []) := by
  have hm := h.m_eq
  have hpos' : 0 < piece.length := List.length_pos_iff.2 hpos
  have htotal : (w ++ piece).length = s.m + piece.length := by rw [List.length_append, hm]
  have hnul' : 0 ∉ w ++ piece := by
    rw [List.mem_append, not_or]
    exact ⟨h.nul, hnul⟩
  have hmem : newline ∈ w ++ piece ↔ newline ∈ piece := by
    rw [List.mem_append]
    exact or_iff_right h.newline
  have hbuf : slice (store8 (blit s.buf s.m piece) (s.m + piece.length) 0) 0 (w ++ piece).length = w ++ piece := by
    rw [List.length_append, slice_append]
    refine congrArg₂ (· ++ ·) ((slice_congr fun k hk => ?_).trans h.buf_eq) ?_
    · rw [store8, if_neg (by omega), blit, if_neg (by omega)]
    · rw [← hm, Nat.zero_add]
      refine (slice_congr fun k hk => ?_).trans (slice_blit s.buf s.m piece)
      rw [store8, if_neg (by omega)]
  have hend : store8 (blit s.buf s.m piece) (s.m + piece.length) 0 (0 + (w ++ piece).length) = 0 := by
    rw [htotal, Nat.zero_add]
    exact if_pos rfl
  obtain ⟨buf', p', hrun, hp', hslice⟩ := scan_spec pattern s.out hbuf hend (by omega) hnul'
  have hturn : turn pattern s piece =
      if (if p' = 0 then 0 else s.m + piece.length) > 0 then
        { buf := blit buf' 0 (slice buf' p' ((if p' = 0 then 0 else s.m + piece.length) - p'))
          m := (if p' = 0 then 0 else s.m + piece.length) - p'
          out := s.out ++ matching pattern (splitLines (w ++ piece)).1 }
      else
        { buf := buf', m := if p' = 0 then 0 else s.m + piece.length,
          out := s.out ++ matching pattern (splitLines (w ++ piece)).1 } := by
    rw [turn]
    simp only [hrun]
  by_cases hnl : newline ∈ piece
  · have hlt := length_rest_lt (hmem.2 hnl)
    have hp0 : ¬ p' = 0 := by omega
    have hleft : s.m + piece.length - p' = (splitLines (w ++ piece)).2.length := by omega
    rw [if_neg hp0, if_pos (by omega), hleft, hslice] at hturn
    rw [hturn, if_pos hnl]
    refine ⟨rfl, rfl, ?_, newline_not_mem_rest _, fun h0 => hnul' ?_⟩
    · exact slice_blit buf' 0 _
    · rw [← splitLines_flatten (w ++ piece)]
      exact List.mem_append_right _ h0
  · have hrest := splitLines_of_not_mem (mt hmem.1 hnl)
    have hp0 : p' = 0 := by
      rw [hrest] at hp'
      change p' + (w ++ piece).length = _ at hp'
      omega
    rw [if_pos hp0, if_neg (by omega)] at hturn
    rw [hturn, if_neg hnl]
    exact ⟨rfl, rfl, rfl, by simp, by simp⟩

theorem splitLines_snd (h : w.getLast? = some newline) : (splitLines w).2 = [] := by
  by_contra hne
  have hlast : (splitLines w).2.getLast? = some newline := by
    rw [← h, ← List.getLast?_append_of_ne_nil (splitLines w).1.flatten hne, splitLines_flatten]
  exact newline_not_mem_rest w (List.mem_of_getLast? hlast)

/-- If every piece has a newline then nothing is lost. -/
theorem run_right {pattern : List UInt8} (hc : Carries s w) (hallowed : Allowed pattern s pieces) (hnul : ∀ piece ∈ pieces, 0 ∉ piece)
    (hnl : ∀ piece ∈ pieces, newline ∈ piece) :
    (pieces.foldl (turn pattern) s).out = s.out ++ matching pattern (splitLines (w ++ pieces.flatten)).1 := by
  induction pieces generalizing s w with
  | nil =>
    rw [List.flatten_nil, List.append_nil, splitLines_of_not_mem hc.newline, matching, List.filter_nil, List.append_nil]
    rfl
  | cons piece pieces ih =>
    obtain ⟨hpos, hlen, hrest⟩ := hallowed
    rw [List.forall_mem_cons] at hnul hnl
    obtain ⟨hout, hc'⟩ := turn_spec pattern hc hlen hpos hnul.1
    rw [if_pos hnl.1] at hc'
    rw [List.foldl_cons, ih hc' hrest hnul.2 hnl.2, hout, List.flatten_cons, ← List.append_assoc,
      splitLines_append (w ++ piece), matching, matching, matching, List.filter_append, List.append_assoc]

theorem match_nil (text : List UInt8) : match_ [] text = true := by
  rw [match_, if_neg (by simp)]
  cases text with
  | nil => rw [match_.loop, matchhere.eq_def]
  | cons t text => rw [match_.loop, matchhere.eq_def, if_pos rfl]

theorem matching_nil (ls : List (List UInt8)) : matching [] ls = ls :=
  List.filter_eq_self.2 fun l _ => match_nil l.dropLast

/-- What `grep` with the empty pattern has written and carries on is no more than it has read, and less if a piece had
no newline. -/
theorem run_le (hc : Carries s w) (hallowed : Allowed [] s pieces) (hnul : ∀ piece ∈ pieces, 0 ∉ piece) :
    (pieces.foldl (turn []) s).out.flatten.length ≤ s.out.flatten.length + w.length + pieces.flatten.length ∧
      ((∃ piece ∈ pieces, newline ∉ piece) →
        (pieces.foldl (turn []) s).out.flatten.length < s.out.flatten.length + w.length + pieces.flatten.length) := by
  induction pieces generalizing s w with
  | nil =>
    rw [List.foldl_nil, List.flatten_nil, List.length_nil]
    exact ⟨by omega, by simp⟩
  | cons piece pieces ih =>
    obtain ⟨hpos, hlen, hrest⟩ := hallowed
    rw [List.forall_mem_cons] at hnul
    have hpos' : 0 < piece.length := List.length_pos_iff.2 hpos
    obtain ⟨hout, hc'⟩ := turn_spec [] hc hlen hpos hnul.1
    obtain ⟨hle, hlt⟩ := ih hc' hrest hnul.2
    have hflat := congrArg List.length (splitLines_flatten (w ++ piece))
    rw [List.length_append, List.length_append] at hflat
    rw [hout, matching_nil, List.flatten_append, List.length_append] at hle hlt
    rw [List.foldl_cons, List.flatten_cons, List.length_append]
    by_cases hnl : newline ∈ piece
    · rw [if_pos hnl] at hle hlt
      refine ⟨by omega, fun hex => ?_⟩
      have := hlt (by simpa [hnl] using hex)
      omega
    · rw [if_neg hnl, List.length_nil] at hle
      have hzero : (splitLines (w ++ piece)).1 = [] := by
        rw [splitLines_of_not_mem]
        rw [List.mem_append, not_or]
        exact ⟨hc.newline, hnl⟩
      rw [hzero, List.flatten_nil, List.length_nil] at hle
      exact ⟨by omega, fun _ => by omega⟩

end turn

theorem carries_start : Carries .start [] := ⟨rfl, rfl, by simp, by simp⟩

/-- Whatever the pattern, `grep` prints the lines of its input that match, exactly when each piece that `read` returns
has a newline. -/
theorem grep_iff {stream : List UInt8} {pieces : List (List UInt8)} (hstream : pieces.flatten = stream)
    (hnul : 0 ∉ stream) (hend : stream.getLast? = some newline) (hallowed : ∀ pattern, Allowed pattern .start pieces) :
    (∀ pattern, grep pattern pieces = matching pattern (splitLines stream).1) ↔ ∀ piece ∈ pieces, newline ∈ piece := by
  have hnul' : ∀ piece ∈ pieces, 0 ∉ piece := fun piece hp h0 =>
    hnul (hstream ▸ List.mem_flatten.2 ⟨piece, hp, h0⟩)
  constructor
  · intro hright
    by_contra hno
    push Not at hno
    have hlt := (run_le carries_start (hallowed []) hnul').2 hno
    have hflat := splitLines_flatten stream
    rw [splitLines_snd hend, List.append_nil] at hflat
    have hout : (pieces.foldl (turn []) .start).out = (splitLines stream).1 := (hright []).trans (matching_nil _)
    rw [hout, hflat, hstream] at hlt
    simp [State.start] at hlt
  · intro hnl pattern
    have hrun := run_right carries_start (hallowed pattern) hnul' hnl
    rw [List.nil_append, hstream] at hrun
    exact hrun

theorem allowed_single (pattern piece : List UInt8) (hpos : piece ≠ []) (hlen : piece.length ≤ 1023) :
    Allowed pattern .start [piece] := ⟨hpos, hlen, trivial⟩

/-- One line, read at once. -/
theorem grep_one_line : (∀ piece ∈ [[97, 98, newline]], newline ∈ piece) ∧
    ∀ pattern, grep pattern [[97, 98, newline]] = matching pattern (splitLines [97, 98, newline]).1 :=
  ⟨by decide, (grep_iff rfl (by decide) rfl fun pattern => allowed_single pattern _ (by simp) (by decide)).2 (by decide)⟩

/-- The line `ab`, read in two pieces: the first is dropped, and the line does not match. -/
theorem grep_two_pieces : (∀ pattern, Allowed pattern .start [[97], [98, newline]]) ∧
    grep [97, 98] [[97], [98, newline]] = [] ∧
    matching [97, 98] (splitLines ([[97], [98, newline]] : List (List UInt8)).flatten).1 = [[97, 98, newline]] := by
  have hfirst (pattern : List UInt8) := turn_spec pattern carries_start
    (show [97].length ≤ bufSize - State.start.m - 1 by decide) (by simp) (show 0 ∉ [97] by decide)
  have hcarry (pattern : List UInt8) : Carries (turn pattern .start [97]) [] := (hfirst pattern).2
  have hlen (pattern : List UInt8) : [98, newline].length ≤ bufSize - (turn pattern .start [97]).m - 1 := by
    rw [(hcarry pattern).m_eq]
    decide
  have hsecond (pattern : List UInt8) := turn_spec pattern (hcarry pattern) (hlen pattern) (by simp)
    (show 0 ∉ [98, newline] by decide)
  refine ⟨fun pattern => ⟨by simp, by decide, by simp, hlen pattern, trivial⟩, ?_, ?_⟩
  · have hno : match_ [97, 98] [98] = false := by
      simp [match_, match_.loop, matchhere.eq_def, caret, dollar, dot, asterisk]
    have hlines : splitLines [97] = ([], [97]) ∧ splitLines [98, newline] = ([[98, newline]], []) := by decide
    rw [grep, List.foldl_cons, List.foldl_cons, List.foldl_nil, (hsecond _).1, (hfirst _).1, List.nil_append,
      List.nil_append, hlines.1, hlines.2]
    simp [matching, State.start, hno]
  · have hyes : match_ [97, 98] [97, 98] = true := by
      simp [match_, match_.loop, matchhere.eq_def, caret, dollar, dot, asterisk]
    have hlines : splitLines ([[97], [98, newline]] : List (List UInt8)).flatten = ([[97, 98, newline]], []) := by decide
    rw [hlines]
    simp [matching, hyes]

end xv6.grep
