import Mathlib.Computability.Language
import Mathlib.Tactic.Common

namespace xv6.grep

-- `^`, `$`, `.`, `*` and the newline in ASCII
abbrev caret : UInt8 := 94
abbrev dollar : UInt8 := 36
abbrev dot : UInt8 := 46
abbrev asterisk : UInt8 := 42
abbrev newline : UInt8 := 10

-- A C string is the list of its bytes without the terminating NUL: `re[0] == '\0'` is `re = []`.
mutual

/-- Search for `re` at the beginning of `text`. -/
def matchhere (re text : List UInt8) : Bool :=
  match re with
  | [] => true
  | c :: re =>
    if re.head? = some asterisk then
      matchstar c re.tail text
    else if c = dollar ∧ re = [] then
      text.isEmpty
    else
      match text with
      | [] => false
      | t :: text => if c = dot ∨ c = t then matchhere re text else false
termination_by (re.length, text.length + 1)

/-- Search for `c*re` at the beginning of `text`. -/
def matchstar (c : UInt8) (re text : List UInt8) : Bool :=
  if matchhere re text then
    true
  else
    match text with
    | [] => false
    | t :: text => if t = c ∨ c = dot then matchstar c re text else false
termination_by (re.length, text.length + 2)

end

/-- The loop of `match` over the suffixes of the text. -/
def match_.loop (re : List UInt8) : List UInt8 → Bool
  | [] => matchhere re []
  | t :: text => if matchhere re (t :: text) then true else match_.loop re text

def match_ (re text : List UInt8) : Bool :=
  if re.head? = some caret then matchhere re.tail text else match_.loop re text

/-! ### The language of a pattern -/

/-- `c` of a pattern stands for the character `t`. -/
def Accepts (c t : UInt8) : Prop := c = dot ∨ c = t

/-- An item `c` or `c*` of a pattern. -/
inductive Item where
  | one (c : UInt8)
  | star (c : UInt8)
  deriving DecidableEq

/-- The items of a pattern, read from left to right. -/
def items : List UInt8 → List Item
  | [] => []
  | [c] => [.one c]
  | c :: d :: re => if d = asterisk then .star c :: items re else .one c :: items (d :: re)

/-- The words of one character that `c` stands for. -/
def letter (c : UInt8) : Language UInt8 := { w | ∃ t, w = [t] ∧ Accepts c t }

def Item.language : Item → Language UInt8
  | .one c => letter c
  | .star c => KStar.kstar (letter c)

/-- The concatenation of the languages of items. -/
def language (l : List Item) : Language UInt8 := (l.map Item.language).prod

/-- The last item is a `$` without a star, which stands for the end of the text. -/
def AtEnd (l : List Item) : Prop := l.getLast? = some (.one dollar)

instance (l : List Item) : Decidable (AtEnd l) := inferInstanceAs (Decidable (_ = _))

/-- The items that stand for characters. -/
def body (l : List Item) : List Item := if AtEnd l then l.dropLast else l

/-- The text starts with a word of the language of `l`, and is such a word if `l` ends with `$`. -/
def StartsWith (l : List Item) (text : List UInt8) : Prop :=
  ∃ mid post, text = mid ++ post ∧ mid ∈ language (body l) ∧ (AtEnd l → post = [])

/-- Some substring of the text is in the language of the pattern: a prefix if the pattern begins with `^`, a
suffix if it ends with `$`. -/
def Matches (re text : List UInt8) : Prop :=
  if re.head? = some caret then
    StartsWith (items re.tail) text
  else
    ∃ pre rest, text = pre ++ rest ∧ StartsWith (items re) rest

section language

variable {c : UInt8} {l : List Item} {text u v w : List UInt8}

theorem mem_language_nil : w ∈ language [] ↔ w = [] := Language.mem_one w

theorem mem_language_cons {x : Item} : w ∈ language (x :: l) ↔ ∃ u ∈ x.language, ∃ v ∈ language l, u ++ v = w := by
  rw [language, List.map_cons, List.prod_cons, Language.mem_mul]
  rfl

theorem mem_star : w ∈ (Item.star c).language ↔ ∀ t ∈ w, Accepts c t := by
  rw [Item.language, Language.mem_kstar]
  constructor
  · rintro ⟨L, rfl, hL⟩ t ht
    obtain ⟨y, hy, hty⟩ := List.mem_flatten.1 ht
    obtain ⟨t', rfl, hacc⟩ := hL y hy
    rwa [List.mem_singleton.1 hty]
  · intro h
    refine ⟨w.map fun t => [t], ?_, fun y hy => ?_⟩
    · induction w with
      | nil => rfl
      | cons t w ih =>
        rw [List.map_cons, List.flatten_cons, ← ih fun t ht => h t (List.mem_cons_of_mem _ ht)]
        rfl
    · obtain ⟨t, ht, rfl⟩ := List.mem_map.1 hy
      exact ⟨t, rfl, h t ht⟩

theorem AtEnd.cons_iff {x : Item} (hl : l ≠ []) : AtEnd (x :: l) ↔ AtEnd l := by
  rw [AtEnd, AtEnd, List.getLast?_cons, List.getLast?_eq_getLast_of_ne_nil hl, Option.getD_some]

theorem body_cons {x : Item} (hl : l ≠ []) : body (x :: l) = x :: body l := by
  rw [body, body]
  simp only [AtEnd.cons_iff hl]
  split_ifs
  · exact List.dropLast_cons_of_ne_nil hl
  · rfl

theorem startsWith_nil : StartsWith [] text :=
  ⟨[], text, rfl, mem_language_nil.2 rfl, fun h => by simp [AtEnd] at h⟩

theorem startsWith_end : StartsWith [.one dollar] text ↔ text = [] := by
  have hend : AtEnd [.one dollar] := rfl
  constructor
  · rintro ⟨mid, post, rfl, hmid, hpost⟩
    rw [body, if_pos hend] at hmid
    rw [mem_language_nil.1 hmid, hpost hend, List.append_nil]
  · rintro rfl
    refine ⟨[], [], rfl, ?_, fun _ => rfl⟩
    rw [body, if_pos hend]
    exact mem_language_nil.2 rfl

/-- A text that starts with an item and then the rest of the items. -/
theorem startsWith_cons {x : Item} (h : l = [] → x ≠ .one dollar) :
    StartsWith (x :: l) text ↔ ∃ u v, text = u ++ v ∧ u ∈ x.language ∧ StartsWith l v := by
  have hend : AtEnd (x :: l) ↔ AtEnd l := by
    by_cases hl : l = []
    · subst hl
      simp [AtEnd, h rfl]
    · exact AtEnd.cons_iff hl
  have hbody : body (x :: l) = x :: body l := by
    by_cases hl : l = []
    · subst hl
      rw [body, body, if_neg fun hlast => h rfl (by simpa [AtEnd] using hlast), if_neg (by simp [AtEnd])]
    · exact body_cons hl
  rw [StartsWith, hbody]
  constructor
  · rintro ⟨mid, post, rfl, hmid, hpost⟩
    obtain ⟨u, hu, v, hv, rfl⟩ := mem_language_cons.1 hmid
    exact ⟨u, v ++ post, List.append_assoc u v post, hu, v, post, rfl, hv, fun hlast => hpost (hend.2 hlast)⟩
  · rintro ⟨u, v, rfl, hu, mid, post, rfl, hmid, hpost⟩
    exact ⟨u ++ mid, post, (List.append_assoc u mid post).symm, mem_language_cons.2 ⟨u, hu, mid, hmid, rfl⟩,
      fun hlast => hpost (hend.1 hlast)⟩

end language

section matching

variable {c : UInt8} {re text : List UInt8}

theorem items_star (c : UInt8) (h : re.head? = some asterisk) : items (c :: re) = .star c :: items re.tail := by
  cases re with
  | nil => simp at h
  | cons d re =>
    rw [List.head?_cons, Option.some.injEq] at h
    rw [items, if_pos h, List.tail_cons]

theorem items_one (c : UInt8) (h : re.head? ≠ some asterisk) : items (c :: re) = .one c :: items re := by
  cases re with
  | nil => rfl
  | cons d re =>
    rw [List.head?_cons, ne_eq, Option.some.injEq] at h
    rw [items, if_neg h]

theorem items_eq_nil : items re = [] ↔ re = [] := by
  cases re with
  | nil => simp [items]
  | cons c re =>
    by_cases h : re.head? = some asterisk
    · simp [items_star c h]
    · simp [items_one c h]

/-- `matchstar` skips some characters that `c` stands for and goes on with the rest of the pattern. -/
theorem matchstar_iff (hrest : ∀ text, matchhere re text = true ↔ StartsWith (items re) text) :
    matchstar c re text = true ↔ StartsWith (.star c :: items re) text := by
  rw [startsWith_cons (by simp)]
  induction text with
  | nil =>
    have heq : matchstar c re [] = matchhere re [] := by
      rw [matchstar]
      cases matchhere re [] <;> rfl
    rw [heq, hrest]
    constructor
    · exact fun h => ⟨[], [], rfl, mem_star.2 (by simp), h⟩
    · rintro ⟨u, v, huv, -, hv⟩
      rwa [(List.append_eq_nil_iff.1 huv.symm).2] at hv
  | cons t text ih =>
    rw [matchstar]
    by_cases hhere : matchhere re (t :: text) = true
    · rw [if_pos hhere]
      exact iff_of_true rfl ⟨[], t :: text, rfl, mem_star.2 (by simp), (hrest _).1 hhere⟩
    · rw [if_neg hhere]
      by_cases hacc : t = c ∨ c = dot
      · simp only [if_pos hacc]
        rw [ih]
        constructor
        · rintro ⟨u, v, rfl, hu, hv⟩
          refine ⟨t :: u, v, rfl, mem_star.2 fun t' ht' => ?_, hv⟩
          rcases List.mem_cons.1 ht' with rfl | ht'
          · exact hacc.symm.imp_right Eq.symm
          · exact mem_star.1 hu t' ht'
        · rintro ⟨u, v, huv, hu, hv⟩
          cases u with
          | nil =>
            rw [List.nil_append] at huv
            rw [← huv] at hv
            exact absurd ((hrest _).2 hv) hhere
          | cons t' u =>
            rw [List.cons_append, List.cons.injEq] at huv
            exact ⟨u, v, huv.2, mem_star.2 fun x hx => mem_star.1 hu x (List.mem_cons_of_mem _ hx), hv⟩
      · simp only [if_neg hacc]
        refine iff_of_false Bool.false_ne_true ?_
        rintro ⟨u, v, huv, hu, hv⟩
        cases u with
        | nil =>
          rw [List.nil_append] at huv
          rw [← huv] at hv
          exact hhere ((hrest _).2 hv)
        | cons t' u =>
          rw [List.cons_append, List.cons.injEq] at huv
          have := mem_star.1 hu t' List.mem_cons_self
          rw [← huv.1] at this
          exact hacc (this.symm.imp_left Eq.symm)

/-- `matchhere` follows the items of the pattern. The induction is on the length of the pattern, since an item can take
two characters of it. -/
theorem matchhere_iff : matchhere re text = true ↔ StartsWith (items re) text := by
  induction hn : re.length using Nat.strong_induction_on generalizing re text with
  | _ n ih =>
    cases re with
    | nil =>
      rw [matchhere.eq_def]
      exact iff_of_true rfl startsWith_nil
    | cons c re =>
      rw [matchhere.eq_def]
      rw [List.length_cons] at hn
      have hrest {re' : List UInt8} (hle : re'.length ≤ re.length) (text : List UInt8) :
          matchhere re' text = true ↔ StartsWith (items re') text := ih re'.length (by omega) rfl
      by_cases hstar : re.head? = some asterisk
      · simp only [if_pos hstar]
        rw [items_star c hstar]
        exact matchstar_iff (hrest (by rw [List.length_tail]; omega))
      · simp only [if_neg hstar]
        rw [items_one c hstar]
        by_cases hend : c = dollar ∧ re = []
        · obtain ⟨rfl, rfl⟩ := hend
          simp only [and_self, if_true, items]
          rw [startsWith_end, List.isEmpty_iff]
        · simp only [if_neg hend]
          rw [startsWith_cons fun hnil => by
            intro hone
            rw [Item.one.injEq] at hone
            exact hend ⟨hone, items_eq_nil.1 hnil⟩]
          cases text with
          | nil =>
            refine iff_of_false Bool.false_ne_true ?_
            rintro ⟨u, v, huv, ⟨t, rfl, -⟩, -⟩
            simp at huv
          | cons t text =>
            constructor
            · intro h
              simp only [] at h
              split_ifs at h with hacc
              exact ⟨[t], text, rfl, ⟨t, rfl, hacc⟩, (hrest le_rfl text).1 h⟩
            · rintro ⟨u, v, huv, ⟨t', rfl, hacc⟩, hv⟩
              rw [List.singleton_append, List.cons.injEq] at huv
              obtain ⟨rfl, rfl⟩ := huv
              simp only []
              rw [if_pos (show c = dot ∨ c = t from hacc)]
              exact (hrest le_rfl _).2 hv

theorem loop_iff : match_.loop re text = true ↔ ∃ pre rest, text = pre ++ rest ∧ StartsWith (items re) rest := by
  induction text with
  | nil =>
    rw [match_.loop, matchhere_iff]
    constructor
    · exact fun h => ⟨[], [], rfl, h⟩
    · rintro ⟨pre, rest, heq, h⟩
      rwa [(List.append_eq_nil_iff.1 heq.symm).2] at h
  | cons t text ih =>
    rw [match_.loop]
    by_cases hhere : matchhere re (t :: text) = true
    · rw [if_pos hhere]
      exact iff_of_true rfl ⟨[], t :: text, rfl, matchhere_iff.1 hhere⟩
    · rw [if_neg hhere, ih]
      constructor
      · rintro ⟨pre, rest, rfl, h⟩
        exact ⟨t :: pre, rest, rfl, h⟩
      · rintro ⟨pre, rest, heq, h⟩
        cases pre with
        | nil =>
          rw [List.nil_append] at heq
          rw [← heq] at h
          exact absurd (matchhere_iff.2 h) hhere
        | cons t' pre =>
          rw [List.cons_append, List.cons.injEq] at heq
          exact ⟨pre, rest, heq.2, h⟩

/-- The matcher decides whether a substring of the text is in the language of the pattern. -/
theorem match_correct (re text : List UInt8) : match_ re text = true ↔ Matches re text := by
  rw [match_, Matches]
  split_ifs
  · exact matchhere_iff
  · exact loop_iff

end matching

end xv6.grep
