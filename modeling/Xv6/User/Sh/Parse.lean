import Xv6.User.Sh.Grammar

namespace xv6.sh

variable {line : List UInt8} {s : Nat} {t : Tok} {ts : List Tok}

theorem starts_cons (toks : List UInt8) : starts toks (t :: ts) = strchr toks t.first := rfl

theorem starts_redir_iff : starts [langle, rangle] (t :: ts) = true ↔ ∃ op : Op, t = op.tok := by
  rw [starts_cons]
  constructor
  · intro h
    cases t with
    | lt => exact ⟨.lt, rfl⟩
    | gt => exact ⟨.gt, rfl⟩
    | gtgt => exact ⟨.gtgt, rfl⟩
    | word w => exact absurd (show strchr [langle, rangle] letterA = true from h) (by decide)
    | _ => exact absurd h (by decide)
  · rintro ⟨op, rfl⟩
    cases op <;> decide

theorem ret_word_iff : t.ret = letterA ↔ ∃ w, t = .word w := by
  cases t with
  | word w => exact ⟨fun _ => ⟨w, rfl⟩, fun _ => rfl⟩
  | _ => exact ⟨fun h => absurd h (by decide), fun ⟨w, h⟩ => nomatch h⟩

theorem redirect_tok (op : Op) (cmd : Cmd) (w : Word) :
    redirect op.tok.ret cmd w.q w.eq = .redir cmd w op.mode op.fd := by
  cases op <;> rfl

/-- The symbols of one character are told apart by it. -/
theorem starts_iff {x : Tok} (hx : x ∈ [Tok.bar, .lpar, .rpar, .semi, .amp]) :
    starts [x.first] (t :: ts) = true ↔ t = x := by
  have hinj : t.first = x.first → t = x := by
    intro h
    simp only [List.mem_cons, List.not_mem_nil, or_false] at hx
    cases t with
    | word w =>
      replace h : letterA = x.first := h
      rcases hx with rfl | rfl | rfl | rfl | rfl <;> exact absurd h (by decide)
    | _ => rcases hx with rfl | rfl | rfl | rfl | rfl <;> first | rfl | exact absurd h (by decide)
  rw [starts_cons]
  constructor
  · intro h
    exact hinj (by simpa [strchr] using h)
  · rintro rfl
    simp [strchr]

/-- The tokens end here or go on with one of `toks`. -/
def Follows (toks : List UInt8) (ts : List Tok) : Prop := ts = [] ∨ starts toks ts = true

theorem Follows.not_starts {toks toks' : List UInt8} (h : Follows toks ts)
    (hdisj : toks.all (fun c => !strchr toks' c) = true) : starts toks' ts = false := by
  rcases h with rfl | h
  · rfl
  · cases ts with
    | nil => rfl
    | cons t ts =>
      rw [starts_cons]
      simpa using List.all_eq_true.1 hdisj t.first (by simpa [starts_cons, strchr] using h)

theorem Follows.mono {toks toks' : List UInt8} (h : Follows toks ts) (hsub : toks ⊆ toks') : Follows toks' ts := by
  rcases h with rfl | h
  · exact .inl rfl
  · cases ts with
    | nil => exact .inl rfl
    | cons t ts =>
      refine .inr ?_
      rw [starts_cons, strchr, List.contains_iff_mem] at h ⊢
      exact hsub h

theorem Follows.amps {toks : List UInt8} (h : Follows toks ts) (hamp : amp ∈ toks) (n : Nat) :
    Follows toks (List.replicate n .amp ++ ts) := by
  cases n with
  | zero => exact h
  | succ n => exact .inr (List.contains_iff_mem.2 hamp)

theorem starts_args {toks : List UInt8} {args : List Arg} (hts : starts toks ts = false) (hword : strchr toks letterA = false) :
    starts toks (argTokens args ++ ts) = false := by
  cases args with
  | nil => exact hts
  | cons x args => exact hword

theorem starts_lpar_redirs {rs : List Redir} (hts : starts [lpar] ts = false) :
    starts [lpar] (redirTokens rs ++ ts) = false := by
  cases rs with
  | nil => exact hts
  | cons r rs =>
    obtain ⟨op, file⟩ := r
    cases op <;> rfl

theorem ret_ne_zero : t.ret ≠ 0 := by
  cases t with
  | word w => exact (by decide : letterA ≠ 0)
  | _ => decide

theorem addArg_wrap (cmd : Cmd) (rs : List Redir) (w : Word) : (wrap cmd rs).addArg w = wrap (cmd.addArg w) rs := by
  induction rs generalizing cmd with
  | nil => rfl
  | cons r rs ih => exact ih _

theorem ok_bind {α β : Type} (x : α) (f : α → Except Stop β) : (Except.ok x >>= f) = f x := rfl

theorem wrap_append (cmd : Cmd) (rs rs' : List Redir) : wrap cmd (rs ++ rs') = wrap (wrap cmd rs) rs' := List.foldl_append

/-- The function of the parser for a nonterminal, the fuel it needs for `n` tokens, and the symbols that may follow. -/
def Nt.parse (line : List UInt8) : Nt → Nat → Nat → Except Stop (Cmd × Nat)
  | .line => parseline line
  | .pipe => parsepipe line
  | .exec => parseexec line

def Nt.fuel (n : Nat) : Nt → Nat
  | .line => 4 * n + 4
  | .pipe => 4 * n + 3
  | .exec => 4 * n + 2

/-- Every function of the parser has fuel for one more call. -/
theorem Nt.fuel_succ {nt : Nt} {n fuel : Nat} (h : nt.fuel n ≤ fuel) : ∃ m, fuel = m + 1 := by
  cases nt <;> exact ⟨fuel - 1, by simp only [Nt.fuel] at h; omega⟩

def Nt.follow : Nt → List UInt8
  | .line => [rpar]
  | .pipe => [rpar, amp, semi]
  | .exec => [bar, rpar, amp, semi]

/-- With `fuel` the function of `nt` parses what a derivation from `nt` says, when that is enough for the tokens. -/
def Sound (line : List UInt8) (nt : Nt) (fuel : Nat) : Prop :=
  ∀ s ts, At line s ts → nt.fuel ts.length ≤ fuel → Parsed line ts (Derives nt) (nt.parse line fuel s)

/-- The function of `nt` parses `used` to `c`, before anything that may follow. -/
def Complete (line : List UInt8) (nt : Nt) (used : List Tok) (c : Cmd) : Prop :=
  ∀ s ts fuel, At line s (used ++ ts) → Follows nt.follow ts → nt.fuel (used ++ ts).length ≤ fuel →
    ∃ s', nt.parse line fuel s = .ok (c, s') ∧ At line s' ts

section
variable (hnul : 0 ∉ line)
include hnul

theorem peek_starts (h : At line s ts) (toks : List UInt8) (htoks : toks.all isSymbol = true) :
    ∃ s', peek line s toks = (starts toks ts, s') ∧ At line s' ts := h.peek hnul (List.all_eq_true.1 htoks)

/-- A symbol of one character that is next: `peek` sees it and `gettoken` takes it. -/
theorem peek_taken {c : UInt8} (h : At line s (t :: ts)) (hc : t.first = c) (hsym : isSymbol c = true) :
    ∃ s', peek line s [c] = (true, s') ∧ At line (gettoken line s').next ts := by
  obtain ⟨s', hpeek, hat⟩ := peek_starts hnul h [c] (by simpa using hsym)
  rw [starts_cons, hc, show strchr [c] c = true from List.contains_iff_mem.2 (List.mem_singleton_self c)] at hpeek
  exact ⟨s', hpeek, (hat.gettoken_cons hnul).2.1⟩

theorem peek_passed {c : UInt8} (h : At line s ts) (hts : starts [c] ts = false) (hsym : isSymbol c = true) :
    ∃ s', peek line s [c] = (false, s') ∧ At line s' ts := by
  obtain ⟨s', hpeek, hat⟩ := peek_starts hnul h [c] (by simpa using hsym)
  rw [hts] at hpeek
  exact ⟨s', hpeek, hat⟩

/-- The two outcomes of the test for a symbol of one character. -/
theorem peek_symbol {x : Tok} {c : UInt8} (h : At line s ts) (hc : x.first = c)
    (hx : x ∈ [Tok.bar, .lpar, .rpar, .semi, .amp]) (hsym : isSymbol c = true) :
    (∃ s', peek line s [c] = (false, s') ∧ At line s' ts) ∨
    (∃ s' rest, ts = x :: rest ∧ peek line s [c] = (true, s') ∧ At line (gettoken line s').next rest) := by
  cases hstart : starts [c] ts with
  | false => exact .inl (peek_passed hnul h hstart hsym)
  | true =>
    cases ts with
    | nil => cases hstart
    | cons t ts =>
      subst hc
      obtain rfl := (starts_iff hx).1 hstart
      obtain ⟨s', hpeek, hat⟩ := peek_taken hnul h rfl hsym
      exact .inr ⟨s', ts, rfl, hpeek, hat⟩

/-! ### Soundness -/

theorem parseredirs_sound {fuel : Nat} {cmd : Cmd} (h : At line s ts) (hfuel : ts.length < fuel) :
    Parsed line ts (fun used c => ∃ rs, used = redirTokens rs ∧ c = wrap cmd rs) (parseredirs line fuel cmd s) := by
  induction fuel generalizing cmd s ts with
  | zero => omega
  | succ fuel ih =>
    obtain ⟨s₁, hpeek, hat₁⟩ := peek_starts hnul h [langle, rangle] (by decide)
    unfold parseredirs
    rw [hpeek]
    cases hstart : starts [langle, rangle] ts with
    | false => exact ⟨[], ts, rfl, ⟨[], rfl, rfl⟩, hat₁⟩
    | true =>
      dsimp only
      cases ts with
      | nil => cases hstart
      | cons t ts =>
        obtain ⟨op, rfl⟩ := starts_redir_iff.1 hstart
        obtain ⟨hret, hat₂, -⟩ := hat₁.gettoken_cons hnul
        cases ts with
        | nil =>
          have hend := (hat₂.gettoken_nil hnul).1
          rw [hend, if_pos (by decide)]
          trivial
        | cons t ts =>
          obtain ⟨hret', hat₃, hword⟩ := hat₂.gettoken_cons hnul
          by_cases hw : t.ret = letterA
          · obtain ⟨w, rfl⟩ := ret_word_iff.1 hw
            have hweq := hword w rfl
            rw [if_neg (by rw [hret', hw]; exact fun h => h rfl), hret]
            have hredir := redirect_tok op cmd w
            rw [hweq] at hredir
            dsimp only at hredir
            rw [hredir, ← hweq]
            refine Parsed.cons [op.tok, .word w] ((ih hat₃ (by simp at hfuel; omega)).imp ?_)
            rintro used c ⟨rs, rfl, rfl⟩
            exact ⟨⟨op, w⟩ :: rs, rfl, rfl⟩
          · rw [hret', if_pos hw]
            trivial

theorem parseargs_sound {fuel argc : Nat} (argv : List Word) (rs : List Redir) (h : At line s ts)
    (hfuel : ts.length < fuel) (hargc : argc = argv.length) (hmax : argc ≤ MAXARGS - 1) :
    Parsed line ts (fun used c => ∃ args, used = argTokens args ∧ argv.length + args.length ≤ MAXARGS - 1 ∧
        c = wrap (.exec (argv ++ args.map Arg.word)) (rs ++ args.flatMap Arg.redirs))
      (parseargs line fuel (wrap (.exec argv) rs) argc s) := by
  induction fuel generalizing argc argv rs s ts with
  | zero => omega
  | succ fuel ih =>
    have hdone : ∀ s', At line s' ts → Parsed line ts (fun used c => ∃ args, used = argTokens args ∧
        argv.length + args.length ≤ MAXARGS - 1 ∧
        c = wrap (.exec (argv ++ args.map Arg.word)) (rs ++ args.flatMap Arg.redirs))
        (.ok (wrap (.exec argv) rs, s')) := fun s' hat =>
      ⟨[], ts, rfl, ⟨[], rfl, by simpa [hargc] using hmax, by simp⟩, hat⟩
    obtain ⟨s₁, hpeek, hat₁⟩ := peek_starts hnul h [bar, rpar, amp, semi] (by decide)
    unfold parseargs
    rw [hpeek]
    cases hstart : starts [bar, rpar, amp, semi] ts with
    | true => exact hdone s₁ hat₁
    | false =>
      dsimp only
      cases ts with
      | nil =>
        obtain ⟨hret, hat₂⟩ := hat₁.gettoken_nil hnul
        rw [if_pos hret]
        exact hdone _ hat₂
      | cons t ts =>
        obtain ⟨hret, hat₂, hword⟩ := hat₁.gettoken_cons hnul
        rw [hret, if_neg ret_ne_zero]
        by_cases hw : t.ret = letterA
        · obtain ⟨w, rfl⟩ := ret_word_iff.1 hw
          rw [if_neg (fun h => h hw), ← hword w rfl, addArg_wrap]
          by_cases hargs : argc + 1 ≥ MAXARGS
          · rw [if_pos hargs]
            trivial
          · rw [if_neg hargs]
            have hlen : ts.length < fuel := by simpa using hfuel
            refine Parsed.cons [.word w] ((parseredirs_sound hnul hat₂ hlen).bind ?_)
            rintro used rest c s₃ hts ⟨rs', rfl, rfl⟩ hat₃
            rw [Cmd.addArg, ← wrap_append]
            have hrest : rest.length < fuel := by
              have := congrArg List.length hts
              simp only [List.length_append] at this
              omega
            refine (ih _ _ hat₃ hrest (by simp [hargc]) (by simp only [MAXARGS] at hargs ⊢; omega)).imp ?_
            rintro used' c ⟨args, rfl, hlen', rfl⟩
            refine ⟨⟨w, rs'⟩ :: args, by simp [argTokens], ?_, by simp⟩
            simp only [List.length_append, List.length_cons, List.length_nil] at hlen' ⊢
            omega
        · rw [if_pos hw]
          trivial

theorem parseback_sound {fuel : Nat} {cmd : Cmd} (h : At line s ts) (hfuel : ts.length < fuel) :
    Parsed line ts (fun used c => ∃ n, used = List.replicate n .amp ∧ c = backs n cmd) (parseback line fuel cmd s) := by
  induction fuel generalizing cmd s ts with
  | zero => omega
  | succ fuel ih =>
    unfold parseback
    rcases peek_symbol hnul h (x := .amp) (c := amp) rfl (by decide) rfl with ⟨s₁, hpeek, hat₁⟩ | ⟨s₁, rest, rfl, hpeek, hat₁⟩
    · rw [hpeek]
      exact ⟨[], ts, rfl, ⟨0, rfl, rfl⟩, hat₁⟩
    · rw [hpeek]
      refine Parsed.cons [.amp] ((ih hat₁ (by simpa using hfuel)).imp ?_)
      rintro used c ⟨n, rfl, rfl⟩
      exact ⟨n + 1, rfl, rfl⟩

theorem parseline_sound {fuel : Nat} (hpipe : Sound line .pipe fuel) (hline : Sound line .line fuel) :
    Sound line .line (fuel + 1) := by
  intro s ts h hfuel
  simp only [Nt.fuel] at hfuel
  show Parsed line ts _ (parseline line (fuel + 1) s)
  unfold parseline
  refine (hpipe s ts h (by simp only [Nt.fuel]; omega)).bind ?_
  rintro used rest c s₁ rfl hused hat₁
  rw [List.length_append] at hfuel
  refine (parseback_sound hnul hat₁ (by omega)).bind ?_
  rintro _ rest₂ _ s₂ rfl ⟨n, rfl, rfl⟩ hat₂
  rw [List.length_append] at hfuel
  dsimp only
  rcases peek_symbol hnul hat₂ (x := .semi) (c := semi) rfl (by decide) rfl with ⟨s₃, hpeek, hat₃⟩ | ⟨s₃, rest₃, rfl, hpeek, hat₃⟩
  · rw [hpeek]
    refine ⟨[], rest₂, rfl, ?_, hat₃⟩
    simpa using Derives.line n hused
  · rw [hpeek]
    rw [List.length_cons] at hfuel
    refine Parsed.cons [.semi] ((hline _ _ hat₃ (by simp only [Nt.fuel]; omega)).bind ?_)
    rintro used' rest' c' s' rfl hused' hat'
    refine ⟨[], rest', rfl, ?_, hat'⟩
    simpa using Derives.list n hused hused'

theorem parsepipe_sound {fuel : Nat} (hexec : Sound line .exec fuel) (hpipe : Sound line .pipe fuel) :
    Sound line .pipe (fuel + 1) := by
  intro s ts h hfuel
  simp only [Nt.fuel] at hfuel
  show Parsed line ts _ (parsepipe line (fuel + 1) s)
  unfold parsepipe
  refine (hexec s ts h (by simp only [Nt.fuel]; omega)).bind ?_
  rintro used rest c s₁ rfl hused hat₁
  rw [List.length_append] at hfuel
  dsimp only
  rcases peek_symbol hnul hat₁ (x := .bar) (c := bar) rfl (by decide) rfl with ⟨s₂, hpeek, hat₂⟩ | ⟨s₂, rest₂, rfl, hpeek, hat₂⟩
  · rw [hpeek]
    refine ⟨[], rest, rfl, ?_, hat₂⟩
    simpa using Derives.exec hused
  · rw [hpeek]
    rw [List.length_cons] at hfuel
    refine Parsed.cons [.bar] ((hpipe _ _ hat₂ (by simp only [Nt.fuel]; omega)).bind ?_)
    rintro used' rest' c' s' rfl hused' hat'
    refine ⟨[], rest', rfl, ?_, hat'⟩
    simpa using Derives.pipe hused hused'

theorem parseblock_sound {fuel : Nat} (hline : Sound line .line fuel) (h : At line s ts)
    (hfuel : 4 * ts.length ≤ fuel) : Parsed line ts (Derives .exec) (parseblock line (fuel + 1) s) := by
  unfold parseblock
  rcases peek_symbol hnul h (x := .lpar) (c := lpar) rfl (by decide) rfl with ⟨s₁, hpeek, -⟩ | ⟨s₁, rest, rfl, hpeek, hat₁⟩
  · rw [hpeek]
    trivial
  · rw [hpeek]
    rw [List.length_cons] at hfuel
    refine Parsed.cons [.lpar] ((hline _ _ hat₁ (by simp only [Nt.fuel]; omega)).bind ?_)
    rintro used rest₂ c s₂ rfl hused hat₂
    rw [List.length_append] at hfuel
    dsimp only
    rcases peek_symbol hnul hat₂ (x := .rpar) (c := rpar) rfl (by decide) rfl with ⟨s₃, hpeek, -⟩ | ⟨s₃, rest₃, rfl, hpeek, hat₃⟩
    · rw [hpeek]
      trivial
    · rw [hpeek]
      rw [List.length_cons] at hfuel
      refine Parsed.cons [.rpar] ((parseredirs_sound hnul hat₃ (by omega)).imp ?_)
      rintro _ _ ⟨rs, rfl, rfl⟩
      simpa using Derives.block rs hused

theorem parseexec_sound {fuel : Nat}
    (hblock : ∀ s ts, At line s ts → 4 * ts.length + 1 ≤ fuel → Parsed line ts (Derives .exec) (parseblock line fuel s)) :
    Sound line .exec (fuel + 1) := by
  intro s ts h hfuel
  simp only [Nt.fuel] at hfuel
  obtain ⟨s₁, hpeek, hat₁⟩ := peek_starts hnul h [lpar] (by decide)
  show Parsed line ts _ (parseexec line (fuel + 1) s)
  unfold parseexec
  rw [hpeek]
  cases starts [lpar] ts with
  | true => exact hblock s₁ ts hat₁ (by omega)
  | false =>
    refine (parseredirs_sound hnul hat₁ (by omega)).bind ?_
    rintro _ rest _ s₂ rfl ⟨rs, rfl, rfl⟩ hat₂
    rw [List.length_append] at hfuel
    refine (parseargs_sound hnul [] rs hat₂ (by omega) rfl (by decide)).imp ?_
    rintro used c ⟨args, rfl, hlen, rfl⟩
    exact .simple rs args (by simpa using hlen)

/-- The functions that call each other, by induction on the fuel. -/
theorem parse_sound (fuel : Nat) : (∀ nt, Sound line nt fuel) ∧
    ∀ s ts, At line s ts → 4 * ts.length + 1 ≤ fuel → Parsed line ts (Derives .exec) (parseblock line fuel s) := by
  induction fuel with
  | zero =>
    refine ⟨fun nt s ts _ hfuel => ?_, fun _ _ _ h => by omega⟩
    cases nt <;> simp [Nt.fuel] at hfuel
  | succ fuel ih =>
    obtain ⟨ih, hblock⟩ := ih
    refine ⟨fun nt => ?_, fun s ts h hfuel => parseblock_sound hnul (ih .line) h (by omega)⟩
    cases nt with
    | line => exact parseline_sound hnul (ih .pipe) (ih .line)
    | pipe => exact parsepipe_sound hnul (ih .exec) (ih .pipe)
    | exec => exact parseexec_sound hnul hblock

/-! ### Completeness -/

theorem parseredirs_complete (fuel : Nat) (cmd : Cmd) {rs : List Redir} (h : At line s (redirTokens rs ++ ts))
    (hts : starts [langle, rangle] ts = false) (hfuel : (redirTokens rs ++ ts).length < fuel) :
    ∃ s', parseredirs line fuel cmd s = .ok (wrap cmd rs, s') ∧ At line s' ts := by
  induction rs generalizing fuel cmd s with
  | nil =>
    obtain ⟨fuel, rfl⟩ : ∃ m, fuel = m + 1 := ⟨fuel - 1, by omega⟩
    obtain ⟨s₁, hpeek, hat₁⟩ := peek_starts hnul h [langle, rangle] (by decide)
    rw [show starts [langle, rangle] (redirTokens [] ++ ts) = false from hts] at hpeek
    unfold parseredirs
    rw [hpeek]
    exact ⟨s₁, rfl, hat₁⟩
  | cons r rs ih =>
    obtain ⟨fuel, rfl⟩ : ∃ m, fuel = m + 1 := ⟨fuel - 1, by omega⟩
    have htoks : redirTokens (r :: rs) ++ ts = r.op.tok :: .word r.file :: (redirTokens rs ++ ts) := rfl
    rw [htoks] at h hfuel
    obtain ⟨s₁, hpeek, hat₁⟩ := peek_starts hnul h [langle, rangle] (by decide)
    rw [starts_redir_iff.2 ⟨r.op, rfl⟩] at hpeek
    obtain ⟨hret, hat₂, -⟩ := hat₁.gettoken_cons hnul
    obtain ⟨hret', hat₃, hword⟩ := hat₂.gettoken_cons hnul
    have hredir := redirect_tok r.op cmd r.file
    rw [← hret, hword _ rfl] at hredir
    unfold parseredirs
    rw [hpeek]
    dsimp only at hredir ⊢
    rw [if_neg (by rw [hret']; exact fun h => h rfl), hredir, ← hword _ rfl]
    exact ih _ _ hat₃ (by simp only [List.length_cons] at hfuel; omega)

theorem parseargs_complete (fuel argc : Nat) (argv : List Word) (rs : List Redir) {args : List Arg}
    (h : At line s (argTokens args ++ ts)) (hts : Follows [bar, rpar, amp, semi] ts)
    (hfuel : (argTokens args ++ ts).length < fuel) (hargc : argc + args.length ≤ MAXARGS - 1) :
    ∃ s', parseargs line fuel (wrap (.exec argv) rs) argc s =
      .ok (wrap (.exec (argv ++ args.map Arg.word)) (rs ++ args.flatMap Arg.redirs), s') ∧ At line s' ts := by
  induction args generalizing fuel argc argv rs s with
  | nil =>
    obtain ⟨fuel, rfl⟩ : ∃ m, fuel = m + 1 := ⟨fuel - 1, by omega⟩
    obtain ⟨s₁, hpeek, hat₁⟩ := peek_starts hnul h [bar, rpar, amp, semi] (by decide)
    unfold parseargs
    rw [hpeek]
    simp only [List.map_nil, List.flatMap_nil, List.append_nil]
    rcases hts with rfl | hts
    · obtain ⟨hret, hat₂⟩ := hat₁.gettoken_nil hnul
      refine ⟨_, ?_, hat₂⟩
      exact if_pos hret
    · rw [show starts [bar, rpar, amp, semi] (argTokens [] ++ ts) = true from hts]
      exact ⟨s₁, rfl, hat₁⟩
  | cons x args ih =>
    obtain ⟨fuel, rfl⟩ : ∃ m, fuel = m + 1 := ⟨fuel - 1, by omega⟩
    have htoks : argTokens (x :: args) ++ ts = .word x.word :: (redirTokens x.redirs ++ (argTokens args ++ ts)) := by
      simp [argTokens]
    rw [htoks] at h hfuel
    obtain ⟨s₁, hpeek, hat₁⟩ := peek_starts hnul h [bar, rpar, amp, semi] (by decide)
    rw [show starts [bar, rpar, amp, semi] (.word x.word :: (redirTokens x.redirs ++ (argTokens args ++ ts))) = false from rfl]
      at hpeek
    obtain ⟨hret, hat₂, hword⟩ := hat₁.gettoken_cons hnul
    have hnext : starts [langle, rangle] (argTokens args ++ ts) = false := starts_args (hts.not_starts (by decide)) rfl
    simp only [List.length_cons] at hfuel hargc
    obtain ⟨s₃, hredirs, hat₃⟩ := parseredirs_complete hnul fuel (wrap (.exec (argv ++ [x.word])) rs) hat₂ hnext (by omega)
    unfold parseargs
    rw [hpeek]
    dsimp only
    rw [hret, if_neg ret_ne_zero, if_neg (by exact fun h => h rfl), if_neg (by simp only [MAXARGS] at hargc ⊢; omega),
      ← hword _ rfl, addArg_wrap, Cmd.addArg, hredirs]
    simp only [List.length_append] at hfuel
    obtain ⟨s', hargs, hat'⟩ := ih fuel (argc + 1) (argv ++ [x.word]) (rs ++ x.redirs) hat₃
      (by simp only [List.length_append]; omega) (by omega)
    refine ⟨s', ?_, hat'⟩
    rw [wrap_append] at hargs
    refine Eq.trans ?_ (hargs.trans ?_)
    · rfl
    · simp

theorem parseback_complete (fuel : Nat) {n : Nat} (cmd : Cmd) (h : At line s (List.replicate n .amp ++ ts))
    (hts : starts [amp] ts = false) (hfuel : (List.replicate n Tok.amp ++ ts).length < fuel) :
    ∃ s', parseback line fuel cmd s = .ok (backs n cmd, s') ∧ At line s' ts := by
  induction n generalizing fuel cmd s with
  | zero =>
    obtain ⟨fuel, rfl⟩ : ∃ m, fuel = m + 1 := ⟨fuel - 1, by omega⟩
    obtain ⟨s₁, hpeek, hat₁⟩ := peek_passed hnul (c := amp) h hts rfl
    unfold parseback
    rw [hpeek]
    exact ⟨s₁, rfl, hat₁⟩
  | succ n ih =>
    obtain ⟨fuel, rfl⟩ : ∃ m, fuel = m + 1 := ⟨fuel - 1, by omega⟩
    rw [List.replicate_succ, List.cons_append] at h hfuel
    obtain ⟨s₁, hpeek, hat₁⟩ := peek_taken hnul (c := amp) h rfl rfl
    unfold parseback
    rw [hpeek]
    exact ih _ _ hat₁ (by simpa using hfuel)

/-- `pipe '&'*`, when `parsepipe` parses the first part. -/
theorem parseback_after (fuel : Nat) {n : Nat} {used : List Tok} {c : Cmd} (hused : Complete line .pipe used c)
    (hat : At line s (used ++ (List.replicate n .amp ++ ts))) (hts : Follows [rpar, semi] ts)
    (hfuel : Nt.line.fuel (used ++ (List.replicate n Tok.amp ++ ts)).length ≤ fuel + 1) :
    ∃ s₁ s₂, parsepipe line fuel s = .ok (c, s₁) ∧ parseback line fuel c s₁ = .ok (backs n c, s₂) ∧ At line s₂ ts := by
  simp only [Nt.fuel] at hfuel
  have hfollow : Follows [rpar, amp, semi] ts := hts.mono (by decide)
  obtain ⟨s₁, hpipe, hat₁⟩ := hused s _ fuel hat (hfollow.amps (by decide) n) (by simp only [Nt.fuel]; omega)
  rw [List.length_append] at hfuel
  obtain ⟨s₂, hback, hat₂⟩ := parseback_complete hnul fuel c hat₁ (hts.not_starts (by decide)) (by omega)
  exact ⟨s₁, s₂, hpipe, hback, hat₂⟩

theorem complete_line {used : List Tok} {c : Cmd} (n : Nat) (hused : Complete line .pipe used c) :
    Complete line .line (used ++ List.replicate n .amp) (backs n c) := by
  intro s ts fuel hat hts hfuel
  obtain ⟨fuel, rfl⟩ := Nt.fuel_succ hfuel
  rw [List.append_assoc] at hat hfuel
  obtain ⟨s₁, s₂, hpipe, hback, hat₂⟩ := parseback_after hnul fuel hused hat (hts.mono (by decide)) hfuel
  obtain ⟨s₃, hpeek, hat₃⟩ := peek_passed hnul (c := semi) hat₂ (hts.not_starts (by decide)) rfl
  refine ⟨s₃, ?_, hat₃⟩
  show parseline line (fuel + 1) s = _
  unfold parseline
  rw [hpipe, ok_bind]
  dsimp only
  rw [hback, ok_bind]
  dsimp only
  rw [hpeek]

theorem complete_list {used used' : List Tok} {c c' : Cmd} (n : Nat) (hused : Complete line .pipe used c)
    (hused' : Complete line .line used' c') :
    Complete line .line (used ++ List.replicate n .amp ++ .semi :: used') (.list (backs n c) c') := by
  intro s ts fuel hat hts hfuel
  obtain ⟨fuel, rfl⟩ := Nt.fuel_succ hfuel
  have htoks : used ++ List.replicate n .amp ++ .semi :: used' ++ ts =
      used ++ (List.replicate n .amp ++ .semi :: (used' ++ ts)) := by simp
  rw [htoks] at hat hfuel
  obtain ⟨s₁, s₂, hpipe, hback, hat₂⟩ := parseback_after hnul fuel hused hat (.inr rfl) hfuel
  obtain ⟨s₃, hpeek, hat₃⟩ := peek_taken hnul (c := semi) hat₂ rfl rfl
  obtain ⟨s', hline, hat'⟩ := hused' _ ts fuel hat₃ hts
    (by simp only [Nt.fuel, List.length_append, List.length_cons] at hfuel ⊢; omega)
  refine ⟨s', ?_, hat'⟩
  show parseline line (fuel + 1) s = _
  unfold parseline
  rw [hpipe, ok_bind]
  dsimp only
  rw [hback, ok_bind]
  dsimp only
  rw [hpeek]
  show (Nt.line.parse line fuel (gettoken line s₃).next >>= _) = _
  rw [hline]
  rfl

theorem complete_exec {used : List Tok} {c : Cmd} (hused : Complete line .exec used c) : Complete line .pipe used c := by
  intro s ts fuel hat hts hfuel
  obtain ⟨fuel, rfl⟩ := Nt.fuel_succ hfuel
  obtain ⟨s₁, hexec, hat₁⟩ := hused s ts fuel hat (hts.mono (by decide)) (by simp only [Nt.fuel] at hfuel ⊢; omega)
  obtain ⟨s₂, hpeek, hat₂⟩ := peek_passed hnul (c := bar) hat₁ (hts.not_starts (by decide)) rfl
  refine ⟨s₂, ?_, hat₂⟩
  show parsepipe line (fuel + 1) s = _
  unfold parsepipe
  show (Nt.exec.parse line fuel s >>= _) = _
  rw [hexec, ok_bind]
  dsimp only
  rw [hpeek]

theorem complete_pipe {used used' : List Tok} {c c' : Cmd} (hused : Complete line .exec used c)
    (hused' : Complete line .pipe used' c') : Complete line .pipe (used ++ .bar :: used') (.pipe c c') := by
  intro s ts fuel hat hts hfuel
  obtain ⟨fuel, rfl⟩ := Nt.fuel_succ hfuel
  rw [List.append_assoc, List.cons_append] at hat hfuel
  obtain ⟨s₁, hexec, hat₁⟩ := hused s _ fuel hat (.inr rfl) (by simp only [Nt.fuel] at hfuel ⊢; omega)
  obtain ⟨s₂, hpeek, hat₂⟩ := peek_taken hnul (c := bar) hat₁ rfl rfl
  obtain ⟨s', hpipe, hat'⟩ := hused' _ ts fuel hat₂ hts
    (by simp only [Nt.fuel, List.length_append, List.length_cons] at hfuel ⊢; omega)
  refine ⟨s', ?_, hat'⟩
  show parsepipe line (fuel + 1) s = _
  unfold parsepipe
  show (Nt.exec.parse line fuel s >>= _) = _
  rw [hexec, ok_bind]
  dsimp only
  rw [hpeek]
  show (Nt.pipe.parse line fuel (gettoken line s₂).next >>= _) = _
  rw [hpipe]
  rfl

theorem complete_block {used : List Tok} {c : Cmd} (rs : List Redir) (hused : Complete line .line used c) :
    Complete line .exec (.lpar :: used ++ .rpar :: redirTokens rs) (wrap c rs) := by
  intro s ts fuel hat hts hfuel
  have htoks : .lpar :: used ++ .rpar :: redirTokens rs ++ ts =
      Tok.lpar :: (used ++ (.rpar :: (redirTokens rs ++ ts))) := by simp
  rw [htoks] at hat hfuel
  simp only [Nt.fuel, List.length_append, List.length_cons] at hfuel
  obtain ⟨fuel, rfl⟩ : ∃ m, fuel = m + 2 := ⟨fuel - 2, by omega⟩
  -- `parseexec` tests for the parenthesis and `parseblock` tests again
  obtain ⟨s₁, hpeek₁, hat₁⟩ := peek_starts hnul hat [lpar] (by decide)
  obtain ⟨s₂, hpeek₂, hat₂⟩ := peek_taken hnul (c := lpar) hat₁ rfl rfl
  obtain ⟨s₃, hline, hat₃⟩ := hused _ _ fuel hat₂ (.inr rfl)
    (by simp only [Nt.fuel, List.length_append, List.length_cons]; omega)
  obtain ⟨s₄, hpeek₄, hat₄⟩ := peek_taken hnul (c := rpar) hat₃ rfl rfl
  obtain ⟨s', hredirs, hat'⟩ := parseredirs_complete hnul fuel c hat₄ (hts.not_starts (by decide))
    (by simp only [List.length_append]; omega)
  refine ⟨s', ?_, hat'⟩
  show parseexec line (fuel + 2) s = _
  unfold parseexec
  rw [hpeek₁]
  show parseblock line (fuel + 1) s₁ = _
  unfold parseblock
  rw [hpeek₂]
  show (Nt.line.parse line fuel (gettoken line s₂).next >>= _) = _
  rw [hline, ok_bind]
  dsimp only
  rw [hpeek₄]
  exact hredirs

theorem complete_simple (rs : List Redir) (args : List Arg) (hargs : args.length ≤ MAXARGS - 1) :
    Complete line .exec (redirTokens rs ++ argTokens args) (wrap (.exec (args.map Arg.word)) (rs ++ args.flatMap Arg.redirs)) := by
  intro s ts fuel hat hts hfuel
  obtain ⟨fuel, rfl⟩ := Nt.fuel_succ hfuel
  rw [List.append_assoc] at hat hfuel
  simp only [Nt.fuel, List.length_append] at hfuel
  have hnext : starts [langle, rangle] (argTokens args ++ ts) = false := starts_args (hts.not_starts (by decide)) rfl
  have hlpar : starts [lpar] (redirTokens rs ++ (argTokens args ++ ts)) = false :=
    starts_lpar_redirs (starts_args (hts.not_starts (by decide)) rfl)
  obtain ⟨s₁, hpeek, hat₁⟩ := peek_passed hnul hat hlpar rfl
  obtain ⟨s₂, hredirs, hat₂⟩ := parseredirs_complete hnul fuel (.exec []) hat₁ hnext
    (by simp only [List.length_append]; omega)
  obtain ⟨s', hparse, hat'⟩ := parseargs_complete hnul fuel 0 [] rs hat₂ hts
    (by simp only [List.length_append]; omega) (by simpa using hargs)
  refine ⟨s', ?_, hat'⟩
  show parseexec line (fuel + 1) s = _
  unfold parseexec
  rw [hpeek]
  show (parseredirs line fuel (.exec []) s₁ >>= _) = _
  rw [hredirs]
  exact hparse

/-- Every line with a derivation is parsed, to the command of the derivation. -/
theorem parse_complete {nt : Nt} {used : List Tok} {c : Cmd} (h : Derives nt used c) : Complete line nt used c := by
  induction h with
  | line n _ ih => exact complete_line hnul n ih
  | list n _ _ ih ih' => exact complete_list hnul n ih ih'
  | exec _ ih => exact complete_exec hnul ih
  | pipe _ _ ih ih' => exact complete_pipe hnul ih ih'
  | block rs _ ih => exact complete_block hnul rs ih
  | simple rs args hargs => exact complete_simple hnul rs args hargs

end

end xv6.sh
