import Xv6.User.Sh.Parse

namespace xv6.sh

/-- The words that a command points to. -/
def Cmd.words : Cmd → List Word
  | .exec argv => argv
  | .redir cmd file _ _ => cmd.words ++ [file]
  | .pipe left right | .list left right => left.words ++ right.words
  | .back cmd => cmd.words

theorem words_backs (n : Nat) (cmd : Cmd) : (backs n cmd).words = cmd.words := by
  induction n generalizing cmd with
  | zero => rfl
  | succ n ih => exact ih (.back cmd)

theorem words_wrap (cmd : Cmd) (rs : List Redir) : (wrap cmd rs).words = cmd.words ++ rs.map Redir.file := by
  induction rs generalizing cmd with
  | nil => simp [wrap]
  | cons r rs ih =>
    show (wrap (.redir cmd r.file r.op.mode r.op.fd) rs).words = _
    rw [ih, Cmd.words, List.map_cons, List.append_assoc, List.singleton_append]

theorem mem_redirTokens {rs : List Redir} {r : Redir} (hr : r ∈ rs) : .word r.file ∈ redirTokens rs :=
  List.mem_flatMap.2 ⟨r, hr, by simp⟩

/-- The words of a command are among the tokens that it is derived from. -/
theorem Derives.words {nt : Nt} {used : List Tok} {c : Cmd} (h : Derives nt used c) {w : Word} (hw : w ∈ c.words) :
    .word w ∈ used := by
  induction h with
  | line n _ ih =>
    rw [words_backs] at hw
    exact List.mem_append_left _ (ih hw)
  | list n _ _ ih ih' =>
    rw [Cmd.words, words_backs, List.mem_append] at hw
    rcases hw with hw | hw
    · exact List.mem_append_left _ (List.mem_append_left _ (ih hw))
    · exact List.mem_append_right _ (List.mem_cons_of_mem _ (ih' hw))
  | exec _ ih => exact ih hw
  | pipe _ _ ih ih' =>
    rcases List.mem_append.1 hw with hw | hw
    · exact List.mem_append_left _ (ih hw)
    · exact List.mem_append_right _ (List.mem_cons_of_mem _ (ih' hw))
  | block rs _ ih =>
    rw [words_wrap, List.mem_append] at hw
    rcases hw with hw | hw
    · exact List.mem_append_left _ (List.mem_cons_of_mem _ (ih hw))
    · obtain ⟨r, hr, rfl⟩ := List.mem_map.1 hw
      exact List.mem_append_right _ (List.mem_cons_of_mem _ (mem_redirTokens hr))
  | simple rs args _ =>
    rw [words_wrap, List.mem_append, Cmd.words, List.map_append, List.mem_append] at hw
    rcases hw with hw | hw | hw
    · obtain ⟨x, hx, rfl⟩ := List.mem_map.1 hw
      exact List.mem_append_right _ (List.mem_flatMap.2 ⟨x, hx, List.mem_cons_self⟩)
    · obtain ⟨r, hr, rfl⟩ := List.mem_map.1 hw
      exact List.mem_append_left _ (mem_redirTokens hr)
    · obtain ⟨r, hr, rfl⟩ := List.mem_map.1 hw
      obtain ⟨x, hx, hrx⟩ := List.mem_flatMap.1 hr
      exact List.mem_append_right _ (List.mem_flatMap.2 ⟨x, hx, List.mem_cons_of_mem _ (mem_redirTokens hrx)⟩)

/-- `buf` with NULs stored at the ends of `ws`. -/
structure Ended (ws : List Word) (buf buf' : List UInt8) : Prop where
  length : buf'.length = buf.length
  nul : ∀ w ∈ ws, charAt buf' w.eq = 0
  same : ∀ k, (∀ w ∈ ws, w.eq ≠ k) → charAt buf' k = charAt buf k

theorem Ended.trans {ws ws' : List Word} {buf buf₁ buf₂ : List UInt8} (h : Ended ws buf buf₁)
    (h' : Ended ws' buf₁ buf₂) : Ended (ws ++ ws') buf buf₂ := by
  refine ⟨h'.length.trans h.length, fun w hw => ?_, fun k hk => ?_⟩
  · by_cases hlater : ∀ w' ∈ ws', w'.eq ≠ w.eq
    · rcases List.mem_append.1 hw with hw | hw
      · rw [h'.same _ hlater, h.nul w hw]
      · exact absurd rfl (hlater w hw)
    · push Not at hlater
      obtain ⟨w', hw', heq⟩ := hlater
      rw [← heq, h'.nul w' hw']
  · rw [h'.same k fun w hw => hk w (List.mem_append_right _ hw),
      h.same k fun w hw => hk w (List.mem_append_left _ hw)]

/-- `f` ends the words `ws` of a buffer that they lie in, and changes nothing else. -/
def Ends (ws : List Word) (f : List UInt8 → Except Stop (List UInt8)) : Prop :=
  ∀ buf : List UInt8, (∀ w ∈ ws, w.eq < buf.length) → ∃ buf', f buf = .ok buf' ∧ Ended ws buf buf'

theorem Ends.seq {ws ws' : List Word} {f g : List UInt8 → Except Stop (List UInt8)} (hf : Ends ws f)
    (hg : Ends ws' g) : Ends (ws ++ ws') fun buf => f buf >>= g := by
  intro buf hin
  obtain ⟨buf₁, hrun, hended⟩ := hf buf fun w hw => hin w (List.mem_append_left _ hw)
  obtain ⟨buf₂, hrun', hended'⟩ := hg buf₁ fun w hw => by
    rw [hended.length]
    exact hin w (List.mem_append_right _ hw)
  refine ⟨buf₂, ?_, hended.trans hended'⟩
  show (f buf >>= g) = _
  rw [hrun, ok_bind, hrun']

theorem storeNul_ends (w : Word) : Ends [w] fun buf => storeNul buf w.eq := by
  intro buf hin
  have hw : w.eq < buf.length := hin w (List.mem_singleton.2 rfl)
  refine ⟨_, if_pos hw, List.length_set, fun w' hw' => ?_, fun k hk => ?_⟩
  · obtain rfl := List.mem_singleton.1 hw'
    simp [charAt, hw]
  · simp [charAt, List.getElem?_set_ne (hk w (List.mem_singleton.2 rfl))]

theorem storeNuls_ends (argv : List Word) : Ends argv fun buf => argv.foldlM (fun buf w => storeNul buf w.eq) buf := by
  induction argv with
  | nil => exact fun buf _ => ⟨buf, rfl, rfl, by simp, fun _ _ => rfl⟩
  | cons w argv ih => exact (storeNul_ends w).seq ih

theorem nulterminate_ends (c : Cmd) : Ends c.words (nulterminate c) := by
  induction c with
  | exec argv => exact storeNuls_ends argv
  | redir cmd file mode fd ih => exact ih.seq (storeNul_ends file)
  | pipe left right ihl ihr => exact ihl.seq ihr
  | list left right ihl ihr => exact ihl.seq ihr
  | back cmd ih => exact ih

variable {line : List UInt8}

theorem at_start (line : List UInt8) : At line 0 (tokenise 0 line) := ⟨Nat.zero_le _, rfl⟩

/-- The words of a command that is derived from the line lie in its buffer. -/
theorem Derives.ended {c : Cmd} (h : Derives .line (tokenise 0 line) c) :
    ∃ buf, nulterminate c (line ++ [0]) = .ok buf ∧ Ended c.words (line ++ [0]) buf := by
  refine nulterminate_ends c _ fun w hw => ?_
  have hle := (wordAt_of_mem rfl (Nat.zero_le _) (h.words hw)).le
  rw [List.length_append, List.length_singleton]
  omega

theorem parsecmd_sound (hnul : 0 ∉ line) :
    (∃ c buf, parsecmd line = .ok (c, buf) ∧ Derives .line (tokenise 0 line) c ∧ Ended c.words (line ++ [0]) buf) ∨
      ∃ msg, parsecmd line = .error (.panic msg) := by
  have hlen := tokenise_length_le 0 line
  have hparsed : Parsed line (tokenise 0 line) (Derives .line) (parseline line (5 * line.length + 5) 0) :=
    (parse_sound hnul (5 * line.length + 5)).1 .line 0 _ (at_start line) (by simp only [Nt.fuel]; omega)
  unfold parsecmd
  rcases hparsed.cases with ⟨msg, hrun⟩ | ⟨c, s, used, rest, hrun, hts, hder, hat⟩
  · exact .inr ⟨msg, by rw [hrun]; rfl⟩
  · rw [hrun, ok_bind]
    by_cases hend : skipSpace line s = line.length
    · obtain rfl := (hat.end_iff hnul).1 hend
      rw [List.append_nil] at hts
      rw [← hts] at hder
      obtain ⟨buf, hbuf, hended⟩ := hder.ended
      refine .inl ⟨c, buf, ?_, hder, hended⟩
      show (if skipSpace line s ≠ line.length then _ else _) = _
      rw [if_neg (not_not_intro hend), hbuf]
      rfl
    · exact .inr ⟨"syntax", if_pos hend⟩

theorem parsecmd_complete (hnul : 0 ∉ line) {c : Cmd} (h : Derives .line (tokenise 0 line) c) :
    ∃ buf, parsecmd line = .ok (c, buf) := by
  have hlen := tokenise_length_le 0 line
  have hat : At line 0 (tokenise 0 line ++ []) := by
    rw [List.append_nil]
    exact at_start line
  obtain ⟨s, hparse, hat'⟩ := parse_complete hnul h 0 [] (5 * line.length + 5) hat (.inl rfl) (by
    rw [List.append_nil, Nt.fuel]
    omega)
  have hparse : parseline line (5 * line.length + 5) 0 = .ok (c, s) := hparse
  obtain ⟨buf, hbuf, -⟩ := h.ended
  refine ⟨buf, ?_⟩
  unfold parsecmd
  rw [hparse, ok_bind]
  show (if skipSpace line s ≠ line.length then _ else _) = _
  rw [if_neg (not_not_intro ((hat'.end_iff hnul).2 rfl)), hbuf]
  rfl

/-- The shell accepts the lines of its grammar and returns the command of the
derivation, which is the only one; every other line ends in `panic`. -/
theorem parsecmd_grammar (hnul : 0 ∉ line) :
    (∀ c, (∃ buf, parsecmd line = .ok (c, buf)) ↔ Derives .line (tokenise 0 line) c) ∧
      (∀ c c', Derives .line (tokenise 0 line) c → Derives .line (tokenise 0 line) c' → c = c') ∧
      ((∃ c buf, parsecmd line = .ok (c, buf)) ∨ ∃ msg, parsecmd line = .error (.panic msg)) := by
  refine ⟨fun c => ⟨?_, parsecmd_complete hnul⟩, fun c c' h h' => ?_, ?_⟩
  · rintro ⟨buf, hok⟩
    rcases parsecmd_sound hnul with ⟨c', buf', hok', hder, -⟩ | ⟨msg, herr⟩
    · rw [hok] at hok'
      cases hok'
      exact hder
    · rw [hok] at herr
      cases herr
  · obtain ⟨buf, hok⟩ := parsecmd_complete hnul h
    obtain ⟨buf', hok'⟩ := parsecmd_complete hnul h'
    rw [hok] at hok'
    cases hok'
    rfl
  · rcases parsecmd_sound hnul with ⟨c, buf, hok, -⟩ | herr
    · exact .inl ⟨c, buf, hok⟩
    · exact .inr herr

/-- `a>b|c` -/
def piped : List UInt8 := [97, rangle, 98, bar, 99]

def pipedCmd : Cmd := .pipe (.redir (.exec [⟨0, 1⟩]) ⟨2, 3⟩ (O_WRONLY ||| O_CREATE) 1) (.exec [⟨4, 5⟩])

theorem tokenise_piped : tokenise 0 piped = [.word ⟨0, 1⟩, .gt, .word ⟨2, 3⟩, .bar, .word ⟨4, 5⟩] := by
  simp +decide [piped, tokenise, symbolTok]

theorem derives_piped : Derives .line (tokenise 0 piped) pipedCmd := by
  rw [tokenise_piped]
  exact .line 0 (.pipe (.simple [] [⟨⟨0, 1⟩, [⟨.gt, ⟨2, 3⟩⟩]⟩] (by decide)) (.exec (.simple [] [⟨⟨4, 5⟩, []⟩] (by decide))))

theorem parsecmd_piped : ∃ buf, parsecmd piped = .ok (pipedCmd, buf) :=
  ((parsecmd_grammar (show 0 ∉ piped by decide)).1 pipedCmd).2 derives_piped

/-- The bytes of a C string. -/
def cstring (buf : List UInt8) (p : Nat) : List UInt8 := (buf.drop p).takeWhile (· ≠ 0)

/-- The text of a word of the line. -/
def Word.text (line : List UInt8) (w : Word) : List UInt8 := (line.drop w.q).take (w.eq - w.q)

theorem cstring_eq {buf : List UInt8} {p e : Nat} (hpe : p ≤ e) (he : e < buf.length)
    (hchars : ∀ k, p ≤ k → k < e → charAt buf k ≠ 0) (hnul : charAt buf e = 0) :
    cstring buf p = (buf.drop p).take (e - p) := by
  have hrest : (buf.drop p).drop (e - p) = 0 :: buf.drop (e + 1) := by
    rw [List.drop_drop, Nat.add_sub_cancel' hpe, List.drop_eq_getElem_cons he, ← hnul, charAt,
      List.getD_eq_getElem _ _ he]
  have hsplit := List.take_append_drop (e - p) (buf.drop p)
  rw [hrest] at hsplit
  rw [cstring, ← hsplit, List.takeWhile_append_of_pos, List.takeWhile_cons_of_neg (by simp), List.append_nil, hsplit]
  intro c hc
  obtain ⟨k, hk, rfl⟩ := List.mem_take_iff_getElem.1 hc
  rw [List.length_drop] at hk
  have hne := hchars (p + k) (by omega) (by omega)
  rw [charAt, List.getD_eq_getElem _ _ (by omega)] at hne
  rw [List.getElem_drop]
  exact decide_eq_true hne

/-- Storing the ends of words leaves the bytes of every word: each end is the
end of the line or a character that no word has. -/
theorem Ended.inside {ws : List Word} {buf : List UInt8} (h : Ended ws (line ++ [0]) buf)
    (hws : ∀ w ∈ ws, WordAt line w) {w : Word} (hw : WordAt line w) {k : Nat} (hlo : w.q ≤ k) (hhi : k < w.eq) :
    charAt buf k = charAt line k := by
  have hk : k < line.length := Nat.lt_of_lt_of_le hhi hw.le
  rw [h.same k, charAt, charAt, List.getD_append _ _ _ _ hk]
  rintro w' hw' rfl
  have hout := (hws w' hw').ends hk
  rw [hw.inner _ hlo hhi] at hout
  cases hout

/-- `nulterminate` writes inside of the buffer of the line, and every word of
the command is then the C string of a word of the line. -/
theorem nulterminate_words (hnul : 0 ∉ line) :
    parsecmd line ≠ .error .wild ∧
      ∀ c buf, parsecmd line = .ok (c, buf) → buf.length = line.length + 1 ∧
        ∀ w ∈ c.words, .word w ∈ tokenise 0 line ∧ cstring buf w.q = w.text line := by
  rcases parsecmd_sound hnul with ⟨c, buf, hok, hder, hended⟩ | ⟨msg, herr⟩
  · refine ⟨by rw [hok]; simp, fun c' buf' hok' => ?_⟩
    rw [hok] at hok'
    cases hok'
    have hlen : buf.length = line.length + 1 := by rw [hended.length, List.length_append, List.length_singleton]
    have hwords : ∀ w ∈ c.words, WordAt line w := fun w hw => wordAt_of_mem rfl (Nat.zero_le _) (hder.words hw)
    refine ⟨hlen, fun w hw => ⟨hder.words hw, ?_⟩⟩
    have hat := hwords w hw
    have hle := hat.le
    have hlt := hat.lt
    rw [cstring_eq (e := w.eq) (by omega) (by omega) ?_ (hended.nul w hw)]
    · unfold Word.text
      refine List.ext_getElem (by simp only [List.length_take, List.length_drop]; omega) fun k hk hk' => ?_
      simp only [List.length_take, List.length_drop] at hk
      have hsame := hended.inside hwords hat (k := w.q + k) (by omega) (by omega)
      rw [charAt, charAt, List.getD_eq_getElem _ _ (by omega), List.getD_eq_getElem _ _ (by omega)] at hsame
      simpa using hsame
    · intro k hlo hhi
      rw [hended.inside hwords hat hlo hhi, charAt, List.getD_eq_getElem _ _ (by omega)]
      exact fun h => hnul (h ▸ List.getElem_mem _)
  · exact ⟨by rw [herr]; simp, fun c buf hok => by rw [hok] at herr; cases herr⟩

theorem nulterminate_piped :
    ∃ buf, parsecmd piped = .ok (pipedCmd, buf) ∧ cstring buf 0 = [97] ∧ cstring buf 2 = [98] ∧ cstring buf 4 = [99] := by
  obtain ⟨buf, hok⟩ := parsecmd_complete (by decide) derives_piped
  obtain ⟨-, hwords⟩ := (nulterminate_words (show 0 ∉ piped by decide)).2 _ _ hok
  exact ⟨buf, hok, (hwords ⟨0, 1⟩ (by simp [pipedCmd, Cmd.words])).2, (hwords ⟨2, 3⟩ (by simp [pipedCmd, Cmd.words])).2,
    (hwords ⟨4, 5⟩ (by simp [pipedCmd, Cmd.words])).2⟩

end xv6.sh
