import Mathlib.Tactic.Common

namespace xv6.sh

abbrev MAXARGS : Nat := 10

abbrev O_RDONLY : Nat := 0x000
abbrev O_WRONLY : Nat := 0x001
abbrev O_CREATE : Nat := 0x200

/-- The characters that `gettoken` returns for `<`, `|`, `>`, `&`, `;`, `(`, `)`, for `>>` and for a word. -/
abbrev langle : UInt8 := 60
abbrev bar : UInt8 := 124
abbrev rangle : UInt8 := 62
abbrev amp : UInt8 := 38
abbrev semi : UInt8 := 59
abbrev lpar : UInt8 := 40
abbrev rpar : UInt8 := 41
abbrev plus : UInt8 := 43
abbrev letterA : UInt8 := 97

/-- `" \t\r\n\v"` -/
def whitespace : List UInt8 := [32, 9, 13, 10, 11]
/-- `"<|>&;()"` -/
def symbols : List UInt8 := [langle, bar, rangle, amp, semi, lpar, rpar]

def strchr (s : List UInt8) (c : UInt8) : Bool := s.contains c

/-- A piece of the line: `q` is the offset of its first character and `eq` the one after its last. -/
structure Word where
  q : Nat
  eq : Nat
  deriving DecidableEq

/-- `struct cmd`. The arrays `argv` and `eargv` hold the words of a command. -/
inductive Cmd where
  | exec (argv : List Word)
  | redir (cmd : Cmd) (file : Word) (mode fd : Nat)
  | pipe (left right : Cmd)
  | list (left right : Cmd)
  | back (cmd : Cmd)
  deriving DecidableEq

/-- How the parser stops: in `panic`, by a write outside the line, or because the recursion is not done in `fuel` calls. -/
inductive Stop where
  | panic (msg : String)
  | wild
  | fuel
  deriving DecidableEq

/-- `*s`; at `es` it is the NUL that ends the line. -/
def charAt (line : List UInt8) (s : Nat) : UInt8 := line.getD s 0

/-- `while(s < es && test(*s)) s++` -/
def advance (test : UInt8 → Bool) (line : List UInt8) (s : Nat) : Nat :=
  if s < line.length ∧ test (charAt line s) = true then advance test line (s + 1) else s
termination_by line.length - s

def skipSpace (line : List UInt8) (s : Nat) : Nat := advance (strchr whitespace) line s

/-- What `gettoken` returns and stores to `*q`, `*eq` and `*ps`. -/
structure Token where
  ret : UInt8
  q : Nat
  eq : Nat
  next : Nat

def gettoken (line : List UInt8) (s : Nat) : Token :=
  let q := skipSpace line s
  let c := charAt line q
  let (ret, s) :=
    if c = 0 then (c, q)
    else if c = bar ∨ c = lpar ∨ c = rpar ∨ c = semi ∨ c = amp ∨ c = langle then (c, q + 1)
    else if c = rangle then
      if charAt line (q + 1) = rangle then (plus, q + 2) else (c, q + 1)
    else (letterA, advance (fun c => !strchr whitespace c && !strchr symbols c) line q)
  { ret := ret, q := q, eq := s, next := skipSpace line s }

def peek (line : List UInt8) (s : Nat) (toks : List UInt8) : Bool × Nat :=
  let s := skipSpace line s
  (charAt line s != 0 && strchr toks (charAt line s), s)

def redircmd (subcmd : Cmd) (file efile mode fd : Nat) : Cmd := .redir subcmd ⟨file, efile⟩ mode fd

/-- The command that `switch(tok)` makes in `parseredirs`. -/
def redirect (tok : UInt8) (cmd : Cmd) (q eq : Nat) : Cmd :=
  if tok = langle then redircmd cmd q eq O_RDONLY 0
  else if tok = rangle then redircmd cmd q eq (O_WRONLY ||| O_CREATE) 1
  else if tok = plus then redircmd cmd q eq (O_WRONLY ||| O_CREATE) 1
  else cmd

def parseredirs (line : List UInt8) : Nat → Cmd → Nat → Except Stop (Cmd × Nat)
  | 0, _, _ => .error .fuel
  | fuel + 1, cmd, s =>
    match peek line s [langle, rangle] with
    | (false, s) => .ok (cmd, s)
    | (true, s) =>
      let tok := gettoken line s
      let file := gettoken line tok.next
      if file.ret ≠ letterA then .error (.panic "missing file for redirection")
      else parseredirs line fuel (redirect tok.ret cmd file.q file.eq) file.next

/-- `cmd->argv[argc] = q; cmd->eargv[argc] = eq` in `parseexec`, where `cmd` is
the node that the redirections have been put around. -/
def Cmd.addArg (w : Word) : Cmd → Cmd
  | .exec argv => .exec (argv ++ [w])
  | .redir cmd file mode fd => .redir (cmd.addArg w) file mode fd
  | cmd => cmd

/-- The loop of `parseexec`. -/
def parseargs (line : List UInt8) : Nat → Cmd → Nat → Nat → Except Stop (Cmd × Nat)
  | 0, _, _, _ => .error .fuel
  | fuel + 1, ret, argc, s =>
    match peek line s [bar, rpar, amp, semi] with
    | (true, s) => .ok (ret, s)
    | (false, s) =>
      let tok := gettoken line s
      if tok.ret = 0 then .ok (ret, tok.next)
      else if tok.ret ≠ letterA then .error (.panic "syntax")
      else
        let ret := ret.addArg ⟨tok.q, tok.eq⟩
        if argc + 1 ≥ MAXARGS then .error (.panic "too many args")
        else do
          let (ret, s) ← parseredirs line fuel ret tok.next
          parseargs line fuel ret (argc + 1) s

/-- `while(peek(ps, es, "&"))` in `parseline`. -/
def parseback (line : List UInt8) : Nat → Cmd → Nat → Except Stop (Cmd × Nat)
  | 0, _, _ => .error .fuel
  | fuel + 1, cmd, s =>
    match peek line s [amp] with
    | (false, s) => .ok (cmd, s)
    | (true, s) => parseback line fuel (.back cmd) (gettoken line s).next

mutual

def parseline (line : List UInt8) : Nat → Nat → Except Stop (Cmd × Nat)
  | 0, _ => .error .fuel
  | fuel + 1, s => do
    let (cmd, s) ← parsepipe line fuel s
    let (cmd, s) ← parseback line fuel cmd s
    match peek line s [semi] with
    | (false, s) => .ok (cmd, s)
    | (true, s) =>
      let (right, s) ← parseline line fuel (gettoken line s).next
      .ok (.list cmd right, s)

def parsepipe (line : List UInt8) : Nat → Nat → Except Stop (Cmd × Nat)
  | 0, _ => .error .fuel
  | fuel + 1, s => do
    let (cmd, s) ← parseexec line fuel s
    match peek line s [bar] with
    | (false, s) => .ok (cmd, s)
    | (true, s) =>
      let (right, s) ← parsepipe line fuel (gettoken line s).next
      .ok (.pipe cmd right, s)

def parseblock (line : List UInt8) : Nat → Nat → Except Stop (Cmd × Nat)
  | 0, _ => .error .fuel
  | fuel + 1, s =>
    match peek line s [lpar] with
    | (false, _) => .error (.panic "parseblock")
    | (true, s) => do
      let (cmd, s) ← parseline line fuel (gettoken line s).next
      match peek line s [rpar] with
      | (false, _) => .error (.panic "syntax - missing )")
      | (true, s) => parseredirs line fuel cmd (gettoken line s).next

def parseexec (line : List UInt8) : Nat → Nat → Except Stop (Cmd × Nat)
  | 0, _ => .error .fuel
  | fuel + 1, s =>
    match peek line s [lpar] with
    | (true, s) => parseblock line fuel s
    | (false, s) => do
      let (ret, s) ← parseredirs line fuel (.exec []) s
      parseargs line fuel ret 0 s

end

/-- `*p = 0` in the buffer of the line. -/
def storeNul (buf : List UInt8) (p : Nat) : Except Stop (List UInt8) :=
  if p < buf.length then .ok (buf.set p 0) else .error .wild

def nulterminate : Cmd → List UInt8 → Except Stop (List UInt8)
  | .exec argv, buf => argv.foldlM (fun buf w => storeNul buf w.eq) buf
  | .redir cmd file _ _, buf => do
    let buf ← nulterminate cmd buf
    storeNul buf file.eq
  | .pipe left right, buf | .list left right, buf => do
    let buf ← nulterminate left buf
    nulterminate right buf
  | .back cmd, buf => nulterminate cmd buf

/-- The parser on a line with its NUL: the command and the buffer that its words point into. -/
def parsecmd (line : List UInt8) : Except Stop (Cmd × List UInt8) := do
  let (cmd, s) ← parseline line (5 * line.length + 5) 0
  let (_, s) := peek line s []
  if s ≠ line.length then
    .error (.panic "syntax")
  else
    let buf ← nulterminate cmd (line ++ [0])
    .ok (cmd, buf)

end xv6.sh
