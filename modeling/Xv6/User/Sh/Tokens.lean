import Mathlib.Data.List.GetD
import Mathlib.Data.List.TakeDrop
import Xv6.User.Sh

namespace xv6.sh

/-- The tokens of a line. -/
inductive Tok where
  | bar
  | lpar
  | rpar
  | semi
  | amp
  | lt
  | gt
  | gtgt
  | word (w : Word)
  deriving DecidableEq

def isSpace (c : UInt8) : Bool := strchr whitespace c
def isSymbol (c : UInt8) : Bool := strchr symbols c
def isWordChar (c : UInt8) : Bool := !isSpace c && !isSymbol c

/-- The token of a symbol other than `>`. -/
def symbolTok (c : UInt8) : Tok :=
  if c = sh.bar then .bar
  else if c = sh.lpar then .lpar
  else if c = sh.rpar then .rpar
  else if c = sh.semi then .semi
  else if c = sh.amp then .amp
  else .lt

/-- The tokens of the characters from offset `i` on: `>>` before `>`, and words as long as they go. -/
def tokenise (i : Nat) : List UInt8 → List Tok
  | [] => []
  | c :: cs =>
    if isSpace c then tokenise (i + 1) cs
    else if isWordChar c then
      .word ⟨i, i + 1 + (cs.takeWhile isWordChar).length⟩ ::
        tokenise (i + 1 + (cs.takeWhile isWordChar).length) (cs.dropWhile isWordChar)
    else if c = rangle then
      match cs with
      | [] => [.gt]
      | d :: ds => if d = rangle then .gtgt :: tokenise (i + 2) ds else .gt :: tokenise (i + 1) (d :: ds)
    else symbolTok c :: tokenise (i + 1) cs
termination_by cs => cs.length
decreasing_by
  all_goals simp only [List.length_cons]
  all_goals first | omega | exact Nat.lt_succ_of_le (List.dropWhile_suffix _).length_le

/-- What `gettoken` returns for a token. -/
def Tok.ret : Tok → UInt8
  | .bar => sh.bar
  | .lpar => sh.lpar
  | .rpar => sh.rpar
  | .semi => sh.semi
  | .amp => sh.amp
  | .lt => langle
  | .gt => rangle
  | .gtgt => plus
  | .word _ => letterA

/-- What `peek` sees of a token: the first character of a symbol. The first
character of a word is in none of the strings that `peek` is called with. -/
def Tok.first : Tok → UInt8
  | .gtgt => rangle
  | t => t.ret

variable {line : List UInt8} {s : Nat} {ts : List Tok} {t : Tok} {c : UInt8} {cs : List UInt8}

theorem advance_spec (test : UInt8 → Bool) (line : List UInt8) (s : Nat) :
    advance test line s = s + ((line.drop s).takeWhile test).length := by
  fun_induction advance with
  | case1 s h ih =>
    have hdrop : line.drop s = charAt line s :: line.drop (s + 1) := by
      rw [List.drop_eq_getElem_cons h.1]
      simp [charAt, h.1]
    rw [ih, hdrop, List.takeWhile_cons_of_pos h.2, List.length_cons]
    omega
  | case2 s h =>
    by_cases hs : s < line.length
    · have hdrop : line.drop s = charAt line s :: line.drop (s + 1) := by
        rw [List.drop_eq_getElem_cons hs]
        simp [charAt, hs]
      rw [hdrop, List.takeWhile_cons_of_neg fun ht => h ⟨hs, ht⟩]
      rfl
    · rw [List.drop_eq_nil_of_le (by omega)]
      rfl

theorem drop_advance (test : UInt8 → Bool) (line : List UInt8) (s : Nat) :
    line.drop (advance test line s) = (line.drop s).dropWhile test := by
  have hsplit := List.takeWhile_append_dropWhile (p := test) (l := line.drop s)
  rw [advance_spec, ← List.drop_drop]
  calc (line.drop s).drop ((line.drop s).takeWhile test).length
      = ((line.drop s).takeWhile test ++ (line.drop s).dropWhile test).drop ((line.drop s).takeWhile test).length := by
        rw [hsplit]
    _ = (line.drop s).dropWhile test := List.drop_left

theorem advance_le (test : UInt8 → Bool) (h : s ≤ line.length) : advance test line s ≤ line.length := by
  have hlen := (List.takeWhile_prefix (p := test) (l := line.drop s)).length_le
  rw [List.length_drop] at hlen
  rw [advance_spec]
  omega

@[simp] theorem tokenise_nil (i : Nat) : tokenise i [] = [] := by rw [tokenise.eq_def]

theorem tokenise_space_cons (i : Nat) (cs : List UInt8) (h : isSpace c = true) :
    tokenise i (c :: cs) = tokenise (i + 1) cs := by
  rw [tokenise.eq_def]
  exact if_pos h

theorem tokenise_word_cons (i : Nat) (cs : List UInt8) (h : isWordChar c = true) :
    tokenise i (c :: cs) = .word ⟨i, i + 1 + (cs.takeWhile isWordChar).length⟩ ::
      tokenise (i + 1 + (cs.takeWhile isWordChar).length) (cs.dropWhile isWordChar) := by
  have hspace : isSpace c = false := by
    rw [isWordChar, Bool.and_eq_true, Bool.not_eq_true'] at h
    exact h.1
  rw [tokenise.eq_def]
  simp only [hspace, h, if_true, Bool.false_eq_true, if_false]

theorem tokenise_gtgt (i : Nat) (cs : List UInt8) :
    tokenise i (rangle :: rangle :: cs) = .gtgt :: tokenise (i + 2) cs := by
  rw [tokenise.eq_def]
  rfl

theorem tokenise_gt (i : Nat) (h : cs.head? ≠ some rangle) :
    tokenise i (rangle :: cs) = .gt :: tokenise (i + 1) cs := by
  rw [tokenise.eq_def]
  cases cs with
  | nil => rw [tokenise_nil]; rfl
  | cons d ds =>
    have hd : d ≠ rangle := fun hd => h (by rw [hd]; rfl)
    exact if_neg hd

theorem tokenise_symbol (i : Nat) (cs : List UInt8) (hspace : isSpace c = false) (hsym : isSymbol c = true)
    (hgt : c ≠ rangle) : tokenise i (c :: cs) = symbolTok c :: tokenise (i + 1) cs := by
  have hword : isWordChar c = false := by simp [isWordChar, hsym]
  rw [tokenise.eq_def]
  simp only [hspace, hword, if_neg hgt, Bool.false_eq_true, if_false]

theorem tokenise_space (i : Nat) (l : List UInt8) :
    tokenise (i + (l.takeWhile isSpace).length) (l.dropWhile isSpace) = tokenise i l := by
  induction l generalizing i with
  | nil => rfl
  | cons c cs ih =>
    by_cases hc : isSpace c = true
    · rw [List.takeWhile_cons_of_pos hc, List.dropWhile_cons_of_pos hc, List.length_cons, ← Nat.add_assoc,
        Nat.add_right_comm, ih, tokenise_space_cons i cs hc]
    · rw [List.takeWhile_cons_of_neg hc, List.dropWhile_cons_of_neg hc]
      rfl

/-- What is left of the line at offset `s` has the tokens `ts`. -/
def At (line : List UInt8) (s : Nat) (ts : List Tok) : Prop := s ≤ line.length ∧ tokenise s (line.drop s) = ts

theorem At.skip (h : At line s ts) : At line (skipSpace line s) ts := by
  refine ⟨advance_le _ h.1, ?_⟩
  rw [skipSpace, drop_advance, advance_spec]
  exact (tokenise_space s _).trans h.2

/-- White space has been skipped at offset `q`, where `l` is left. -/
structure Skipped (line : List UInt8) (q : Nat) (l : List UInt8) : Prop where
  le : q ≤ line.length
  drop : line.drop q = l
  head : ∀ c ∈ l.head?, isSpace c = false

theorem skipped (h : s ≤ line.length) : Skipped line (skipSpace line s) ((line.drop s).dropWhile isSpace) := by
  refine ⟨advance_le _ h, drop_advance .., fun c hc => ?_⟩
  have hnot := List.head?_dropWhile_not isSpace (line.drop s)
  rw [Option.mem_def.1 hc] at hnot
  exact hnot

theorem Skipped.charAt_eq {q : Nat} {l : List UInt8} (h : Skipped line q l) : charAt line q = l.headD 0 := by
  rw [← h.drop, charAt, List.headD_eq_head?_getD, List.head?_drop, List.getD_eq_getElem?_getD]

theorem Skipped.charAt_succ {q : Nat} (h : Skipped line q (c :: cs)) : charAt line (q + 1) = cs.headD 0 := by
  have hdrop : line.drop (q + 1) = cs := by rw [← List.drop_drop, h.drop]; rfl
  rw [← hdrop, charAt, List.headD_eq_head?_getD, List.head?_drop, List.getD_eq_getElem?_getD]

theorem isSymbol_iff : isSymbol c = true ↔
    c = langle ∨ c = bar ∨ c = rangle ∨ c = amp ∨ c = semi ∨ c = lpar ∨ c = rpar := by
  simp [isSymbol, strchr, symbols]

/-- The symbols other than `>` are tokens of one character. -/
theorem symbolTok_spec (hsym : isSymbol c = true) (hgt : c ≠ rangle) :
    (symbolTok c).ret = c ∧ (symbolTok c).first = c ∧ (∀ w, symbolTok c ≠ .word w) ∧
      (c = bar ∨ c = lpar ∨ c = rpar ∨ c = semi ∨ c = amp ∨ c = langle) := by
  rcases isSymbol_iff.1 hsym with rfl | rfl | rfl | rfl | rfl | rfl | rfl
  all_goals first
    | exact absurd rfl hgt
    | exact ⟨rfl, rfl, fun w => by unfold symbolTok; split_ifs <;> simp, by simp⟩

/-- The first token after white space, by the characters it is made of. -/
theorem Skipped.cases {q : Nat} {l : List UInt8} (h : Skipped line q l) (hnul : 0 ∉ line) :
    l = [] ∨ ∃ c cs, l = c :: cs ∧ c ≠ 0 ∧
      (isWordChar c = true ∨ c = rangle ∨ isSpace c = false ∧ isSymbol c = true ∧ c ≠ rangle) := by
  cases l with
  | nil => exact .inl rfl
  | cons c cs =>
    have hspace : isSpace c = false := h.head c rfl
    have hc : c ≠ 0 := by
      rintro rfl
      exact hnul (List.mem_of_mem_drop (h.drop ▸ List.mem_cons_self))
    refine .inr ⟨c, cs, rfl, hc, ?_⟩
    by_cases hsym : isSymbol c = true
    · by_cases hgt : c = rangle
      · exact .inr (.inl hgt)
      · exact .inr (.inr ⟨hspace, hsym, hgt⟩)
    · exact .inl (by simp [isWordChar, hspace, hsym])

theorem peek_eq (line : List UInt8) (s : Nat) (toks : List UInt8) :
    peek line s toks = (charAt line (skipSpace line s) != 0 && strchr toks (charAt line (skipSpace line s)),
      skipSpace line s) := rfl

/-- `peek` looks at the next token. -/
theorem At.peek (h : At line s ts) (hnul : 0 ∉ line) {toks : List UInt8} (htoks : ∀ c ∈ toks, isSymbol c = true) :
    ∃ s', peek line s toks = (ts.head?.any fun t => strchr toks t.first, s') ∧ At line s' ts := by
  have hat := h.skip
  refine ⟨_, ?_, hat⟩
  have hsk := skipped h.1
  have hchar := hsk.charAt_eq
  rw [peek_eq, Prod.mk.injEq]
  refine ⟨?_, rfl⟩
  rw [← hat.2, hsk.drop]
  rcases hsk.cases hnul with hl | ⟨c, cs, hl, hc, hkind⟩
  · rw [hl] at hchar ⊢
    simp [hchar]
  · rw [hl] at hchar ⊢
    have hcb : (c != 0) = true := by simpa using hc
    rw [hchar, List.headD_cons, hcb, Bool.true_and]
    rcases hkind with hword | rfl | ⟨hspace, hsym, hgt⟩
    · have hnot : ∀ d, isSymbol d = false → strchr toks d = false := by
        intro d hd
        by_contra hmem
        have hmem : d ∈ toks := by simpa [strchr] using hmem
        rw [htoks d hmem] at hd
        cases hd
      have hsym : isSymbol c = false := by
        rw [isWordChar, Bool.and_eq_true, Bool.not_eq_true', Bool.not_eq_true'] at hword
        exact hword.2
      rw [tokenise_word_cons _ _ hword, hnot c hsym]
      exact (hnot letterA (by decide)).symm
    · by_cases hd : cs.head? = some rangle
      · obtain ⟨ds, rfl⟩ : ∃ ds, cs = rangle :: ds := by
          cases cs with
          | nil => simp at hd
          | cons d ds => exact ⟨ds, by simpa using hd⟩
        rw [tokenise_gtgt]
        rfl
      · rw [tokenise_gt _ hd]
        rfl
    · rw [tokenise_symbol _ _ hspace hsym hgt]
      simp [(symbolTok_spec hsym hgt).2.1]

/-- What `gettoken` finds where white space has been skipped. -/
theorem gettoken_cases {q : Nat} {l : List UInt8} (hq : skipSpace line s = q) (hsk : Skipped line q l) (hnul : 0 ∉ line) :
    (l = [] ∧ gettoken line s = ⟨0, q, q, skipSpace line q⟩) ∨
      ∃ t rest e, tokenise q l = t :: rest ∧ gettoken line s = ⟨t.ret, q, e, skipSpace line e⟩ ∧ At line e rest ∧
        ∀ w, t = .word w → w = ⟨q, e⟩ := by
  have hchar := hsk.charAt_eq
  rcases hsk.cases hnul with rfl | ⟨c, cs, rfl, hc, hkind⟩
  · refine .inl ⟨rfl, ?_⟩
    rw [List.headD_nil] at hchar
    simp only [gettoken, hq, hchar, if_true]
  have hlen : q + 1 + cs.length = line.length := by
    have hlen := congrArg List.length hsk.drop
    have hle := hsk.le
    simp only [List.length_drop, List.length_cons] at hlen
    omega
  have hnext : line.drop (q + 1) = cs := by rw [← List.drop_drop, hsk.drop]; rfl
  rw [List.headD_cons] at hchar
  refine .inr ?_
  rcases hkind with hword | rfl | ⟨hspace, hsym, hgt⟩
  · have hsym : ¬ isSymbol c = true := by
      rw [isWordChar, Bool.and_eq_true, Bool.not_eq_true', Bool.not_eq_true'] at hword
      simp [hword.2]
    have hnot : ¬ (c = bar ∨ c = lpar ∨ c = rpar ∨ c = semi ∨ c = amp ∨ c = langle) := fun h => hsym (isSymbol_iff.2 (by tauto))
    have hgt : c ≠ rangle := fun h => hsym (isSymbol_iff.2 (by tauto))
    have hadv : advance isWordChar line q = q + 1 + (cs.takeWhile isWordChar).length := by
      rw [advance_spec, hsk.drop, List.takeWhile_cons_of_pos hword, List.length_cons]
      omega
    refine ⟨_, _, advance isWordChar line q, tokenise_word_cons q cs hword, ?_, ⟨advance_le _ hsk.le, ?_⟩, ?_⟩
    · simp only [gettoken, hq, hchar, if_neg hc, if_neg hnot, if_neg hgt]
      rfl
    · rw [drop_advance, hsk.drop, List.dropWhile_cons_of_pos hword, hadv]
    · rintro w ⟨⟩
      rw [hadv]
  · have hnot : ¬ (rangle = bar ∨ rangle = lpar ∨ rangle = rpar ∨ rangle = semi ∨ rangle = amp ∨ rangle = langle) := by
      decide
    by_cases hd : cs.head? = some rangle
    · obtain ⟨ds, rfl⟩ : ∃ ds, cs = rangle :: ds := by
        cases cs with
        | nil => simp at hd
        | cons d ds => exact ⟨ds, by simpa using hd⟩
      have hchar' : charAt line (q + 1) = rangle := hsk.charAt_succ
      refine ⟨_, _, q + 2, tokenise_gtgt q ds, ?_, ⟨?_, ?_⟩, by simp⟩
      · simp only [gettoken, hq, hchar, hchar', if_neg hc, if_neg hnot, if_true]
        rfl
      · simp only [List.length_cons] at hlen
        omega
      · rw [← List.drop_drop, hsk.drop]
        rfl
    · have hchar' : charAt line (q + 1) ≠ rangle := by
        rw [hsk.charAt_succ]
        cases cs with
        | nil => decide
        | cons d ds => simpa using hd
      refine ⟨_, _, q + 1, tokenise_gt q hd, ?_, ⟨by omega, by rw [hnext]⟩, by simp⟩
      simp only [gettoken, hq, hchar, if_neg hchar', if_neg hc, if_neg hnot, if_true]
      rfl
  · obtain ⟨hret, -, hword, hor⟩ := symbolTok_spec hsym hgt
    refine ⟨_, _, q + 1, tokenise_symbol q cs hspace hsym hgt, ?_, ⟨by omega, by rw [hnext]⟩, fun w hw => absurd hw (hword w)⟩
    simp only [gettoken, hq, hchar, if_neg hc, if_pos hor, hret]

/-- `gettoken` at the end of the line. -/
theorem At.gettoken_nil (h : At line s []) (hnul : 0 ∉ line) :
    (gettoken line s).ret = 0 ∧ At line (gettoken line s).next [] := by
  have hat := h.skip
  have hsk := skipped h.1
  rcases gettoken_cases rfl hsk hnul with ⟨-, htok⟩ | ⟨t, rest, e, htoks, -, -, -⟩
  · rw [htok]
    exact ⟨rfl, hat.skip⟩
  · rw [← hsk.drop, hat.2] at htoks
    cases htoks

/-- `gettoken` returns the next token and goes on behind it. -/
theorem At.gettoken_cons (h : At line s (t :: ts)) (hnul : 0 ∉ line) :
    (gettoken line s).ret = t.ret ∧ At line (gettoken line s).next ts ∧
      ∀ w, t = .word w → w = ⟨(gettoken line s).q, (gettoken line s).eq⟩ := by
  have hat := h.skip
  have hsk := skipped h.1
  rcases gettoken_cases rfl hsk hnul with ⟨hl, -⟩ | ⟨t', rest, e, htoks, htok, hat', hword⟩
  · have hdrop := hat.2
    rw [hsk.drop, hl, tokenise_nil] at hdrop
    cases hdrop
  · rw [← hsk.drop, hat.2, List.cons.injEq] at htoks
    obtain ⟨rfl, rfl⟩ := htoks
    rw [htok]
    exact ⟨rfl, hat'.skip, hword⟩

/-- `peek(&s, es, "")` gets to the end of the line iff there are no more tokens. -/
theorem At.end_iff (h : At line s ts) (hnul : 0 ∉ line) : skipSpace line s = line.length ↔ ts = [] := by
  have hat := h.skip
  have hsk := skipped h.1
  constructor
  · intro hend
    rw [← hat.2, hend, List.drop_length, tokenise_nil]
  · intro hts
    have hle := hsk.le
    rcases gettoken_cases rfl hsk hnul with ⟨hl, -⟩ | ⟨t, rest, e, htoks, -, -, -⟩
    · have hdrop := List.drop_eq_nil_iff.1 (hsk.drop.trans hl)
      omega
    · rw [← hsk.drop, hat.2, hts] at htoks
      cases htoks

/-- What the tokens of a line say about it: a word is a run of characters that
are neither white space nor symbols, and does not go on where it ends. -/
structure WordAt (line : List UInt8) (w : Word) : Prop where
  lt : w.q < w.eq
  le : w.eq ≤ line.length
  inner : ∀ k, w.q ≤ k → k < w.eq → isWordChar (charAt line k) = true
  ends : w.eq < line.length → isWordChar (charAt line w.eq) = false

theorem tokenise_length_le (i : Nat) (l : List UInt8) : (tokenise i l).length ≤ l.length := by
  fun_induction tokenise i l with
  | case1 => exact Nat.le_refl _
  | case2 i c cs hspace ih => simp only [List.length_cons]; omega
  | case3 i c cs hspace hword ih =>
    have hle := (List.dropWhile_suffix (l := cs) isWordChar).length_le
    simp only [List.length_cons]
    omega
  | case4 => simp
  | case5 i hspace ds hword ih => simp only [List.length_cons]; omega
  | case6 i hspace d ds hword hd ih => simp only [List.length_cons] at ih ⊢; omega
  | case7 i c cs hspace hword hgt ih => simp only [List.length_cons]; omega

/-- The run of word characters at an offset is a word. -/
theorem wordAt_run {q : Nat} (hq : q ≤ line.length) (hword : 0 < ((line.drop q).takeWhile isWordChar).length) :
    WordAt line ⟨q, q + ((line.drop q).takeWhile isWordChar).length⟩ := by
  have hpre := List.takeWhile_prefix (l := line.drop q) isWordChar
  have hlen := hpre.length_le
  rw [List.length_drop] at hlen
  refine ⟨by simp only; omega, by simp only; omega, fun k hlo hhi => ?_, fun hlt => ?_⟩
  · simp only at hlo hhi
    have hk : k - q < ((line.drop q).takeWhile isWordChar).length := by omega
    have hget : ((line.drop q).takeWhile isWordChar)[k - q] = charAt line k := by
      rw [hpre.getElem hk, List.getElem_drop, charAt, List.getD_eq_getElem _ _ (by omega)]
      congr 1
      omega
    rw [← hget]
    exact List.all_eq_true.1 (List.all_takeWhile (l := line.drop q)) _ (List.getElem_mem hk)
  · have hnot := List.head?_dropWhile_not isWordChar (line.drop q)
    rw [← drop_advance, advance_spec, List.head?_drop, List.getElem?_eq_getElem hlt] at hnot
    simp only at hnot ⊢
    rw [charAt, List.getD_eq_getElem _ _ hlt]
    exact hnot

theorem wordAt_of_mem {i : Nat} {l : List UInt8} (hl : line.drop i = l) (hi : i ≤ line.length) {w : Word}
    (hw : .word w ∈ tokenise i l) : WordAt line w := by
  have hnext : ∀ {i c cs}, line.drop i = c :: cs → i + 1 ≤ line.length ∧ line.drop (i + 1) = cs := by
    intro i c cs h
    have hlen := congrArg List.length h
    simp only [List.length_drop, List.length_cons] at hlen
    exact ⟨by omega, by rw [← List.drop_drop, h]; rfl⟩
  fun_induction tokenise i l with
  | case1 => cases hw
  | case2 i c cs hspace ih => exact ih (hnext hl).2 (hnext hl).1 hw
  | case3 i c cs hspace hword ih =>
    have hrun : ((line.drop i).takeWhile isWordChar).length = 1 + (cs.takeWhile isWordChar).length := by
      rw [hl, List.takeWhile_cons_of_pos hword, List.length_cons, Nat.add_comm]
    have hat := wordAt_run hi (by omega)
    rw [hrun, ← Nat.add_assoc] at hat
    rcases List.mem_cons.1 hw with hw | hw
    · obtain rfl := Tok.word.inj hw
      exact hat
    · refine ih ?_ hat.le hw
      have hdrop := drop_advance isWordChar line i
      rw [advance_spec, hrun, ← Nat.add_assoc, hl, List.dropWhile_cons_of_pos hword] at hdrop
      exact hdrop
  | case4 => simp at hw
  | case5 i hspace ds hword ih =>
    obtain ⟨hle, hdrop⟩ := hnext hl
    exact ih (hnext hdrop).2 (hnext hdrop).1 (by simpa using hw)
  | case6 i hspace d ds hword hd ih => exact ih (hnext hl).2 (hnext hl).1 (by simpa using hw)
  | case7 i c cs hspace hword hgt ih =>
    refine ih (hnext hl).2 (hnext hl).1 ?_
    rcases List.mem_cons.1 hw with hw | hw
    · unfold symbolTok at hw
      split_ifs at hw
    · exact hw

end xv6.sh
