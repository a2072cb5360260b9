import Xv6.User.Sh.Tokens

namespace xv6.sh

/-- The operators of redirections. -/
inductive Op where
  | lt
  | gt
  | gtgt

def Op.tok : Op → Tok
  | .lt => .lt
  | .gt => .gt
  | .gtgt => .gtgt

def Op.mode : Op → Nat
  | .lt => O_RDONLY
  | .gt | .gtgt => O_WRONLY ||| O_CREATE

def Op.fd : Op → Nat
  | .lt => 0
  | .gt | .gtgt => 1

/-- `redir ::= ('<' | '>' | '>>') word` -/
structure Redir where
  op : Op
  file : Word

def redirTokens (rs : List Redir) : List Tok := rs.flatMap fun r => [r.op.tok, .word r.file]

/-- The redirections of a command are put around it one after the other. -/
def wrap (cmd : Cmd) (rs : List Redir) : Cmd := rs.foldl (fun cmd r => .redir cmd r.file r.op.mode r.op.fd) cmd

/-- A word of a command and the redirections that follow it. -/
structure Arg where
  word : Word
  redirs : List Redir

def argTokens (args : List Arg) : List Tok := args.flatMap fun x => .word x.word :: redirTokens x.redirs

def backs (n : Nat) (cmd : Cmd) : Cmd := Cmd.back^[n] cmd

/-- The nonterminals of the grammar. -/
inductive Nt where
  | line
  | pipe
  | exec

/-- The grammar of the shell, with the command that each derivation gives:
`line ::= pipe '&'* [';' line]`, `pipe ::= exec ['|' pipe]`, and
`exec ::= '(' line ')' redir* | redir* (word redir*)*`. -/
inductive Derives : Nt → List Tok → Cmd → Prop
  | line {ts : List Tok} {c : Cmd} (n : Nat) : Derives .pipe ts c →
      Derives .line (ts ++ List.replicate n .amp) (backs n c)
  | list {ts ts' : List Tok} {c c' : Cmd} (n : Nat) : Derives .pipe ts c → Derives .line ts' c' →
      Derives .line (ts ++ List.replicate n .amp ++ .semi :: ts') (.list (backs n c) c')
  | exec {ts : List Tok} {c : Cmd} : Derives .exec ts c → Derives .pipe ts c
  | pipe {ts ts' : List Tok} {c c' : Cmd} : Derives .exec ts c → Derives .pipe ts' c' →
      Derives .pipe (ts ++ .bar :: ts') (.pipe c c')
  | block {ts : List Tok} {c : Cmd} (rs : List Redir) : Derives .line ts c →
      Derives .exec (.lpar :: ts ++ .rpar :: redirTokens rs) (wrap c rs)
  | simple (rs : List Redir) (args : List Arg) : args.length ≤ MAXARGS - 1 →
      Derives .exec (redirTokens rs ++ argTokens args) (wrap (.exec (args.map Arg.word)) (rs ++ args.flatMap Arg.redirs))

/-- The outcome of a function of the parser at the tokens `ts`: it has gone
past tokens that `D` derives, or the line is refused. -/
def Parsed (line : List UInt8) (ts : List Tok) (D : List Tok → Cmd → Prop) : Except Stop (Cmd × Nat) → Prop
  | .ok (c, s) => ∃ used rest, ts = used ++ rest ∧ D used c ∧ At line s rest
  | .error (.panic _) => True
  | .error _ => False

variable {line : List UInt8} {ts : List Tok} {D D' : List Tok → Cmd → Prop} {r : Except Stop (Cmd × Nat)}

theorem Parsed.cases (h : Parsed line ts D r) : (∃ msg, r = .error (.panic msg)) ∨
    ∃ c s used rest, r = .ok (c, s) ∧ ts = used ++ rest ∧ D used c ∧ At line s rest := by
  match r, h with
  | .error (.panic msg), _ => exact .inl ⟨msg, rfl⟩
  | .ok (c, s), ⟨used, rest, h⟩ => exact .inr ⟨c, s, used, rest, rfl, h⟩

theorem Parsed.imp (h : Parsed line ts D r) (hD : ∀ used c, D used c → D' used c) : Parsed line ts D' r := by
  match r, h with
  | .ok (c, s), ⟨used, rest, hts, hd, hat⟩ => exact ⟨used, rest, hts, hD used c hd, hat⟩
  | .error (.panic _), _ => trivial

/-- Two functions of the parser one after the other. -/
theorem Parsed.bind {f : Cmd × Nat → Except Stop (Cmd × Nat)} (h : Parsed line ts D r)
    (hf : ∀ used rest c s, ts = used ++ rest → D used c → At line s rest →
      Parsed line rest (fun used' c' => D' (used ++ used') c') (f (c, s))) : Parsed line ts D' (r >>= f) := by
  match r, h with
  | .ok (c, s), ⟨used, rest, hts, hd, hat⟩ =>
    have hrest := hf used rest c s hts hd hat
    show Parsed line ts D' (f (c, s))
    match f (c, s), hrest with
    | .ok (c', s'), ⟨used', rest', hts', hd', hat'⟩ =>
      exact ⟨used ++ used', rest', by rw [hts, hts', List.append_assoc], hd', hat'⟩
    | .error (.panic _), _ => trivial
  | .error (.panic _), _ => trivial

/-- A token is read before the rest is parsed. -/
theorem Parsed.cons (pre : List Tok) (h : Parsed line ts (fun used c => D (pre ++ used) c) r) :
    Parsed line (pre ++ ts) D r := by
  match r, h with
  | .ok (c, s), ⟨used, rest, hts, hd, hat⟩ => exact ⟨pre ++ used, rest, by rw [hts, List.append_assoc], hd, hat⟩
  | .error (.panic _), _ => trivial

/-- Whether the next token begins with one of `toks`. -/
def starts (toks : List UInt8) (ts : List Tok) : Bool := ts.head?.any fun t => strchr toks t.first

end xv6.sh
