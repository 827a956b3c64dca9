import Mathlib.Data.List.Basic

/-!
# Shell/Parse — the parser of the shell

`parsecmd` (sh.c:331) reads a line in the buffer it was typed into.  Its nodes point into the buffer, each
string by where it begins and where it ends, and `nulterminate` writes a NUL at the ends when the whole
line has been read:

    buf    l s   <   f i l e   |   w c \0
           ▴   ▴     ▴       ▴     ▴   ▴
           q   eq    q      eq     q   eq

A read or a write behind the NUL of the line is a fault here, as is a `panic`.  The recursion and the
loops over tokens run on fuel.
-/

namespace Xv6.Shell

def MAXARGS : Nat := 10

def O_RDONLY : Nat := 0x000
def O_WRONLY : Nat := 0x001
def O_CREATE : Nat := 0x200

/-- How the parser can fail. -/
inductive Fault
  | panic (msg : String)
  | overrun
  | fuel
  deriving DecidableEq, Repr

/-- `struct redircmd`, without the command it is about. -/
structure Redir where
  file : Nat
  efile : Nat
  mode : Nat
  fd : Nat
  deriving DecidableEq, Repr

/-- `struct cmd` and what is behind it.  An `execcmd` has its `argv` up to the null pointer, each with
its `eargv`. -/
inductive Node
  | exec (argv : List (Nat × Nat))
  | redir (cmd : Node) (r : Redir)
  | pipe (left right : Node)
  | list (left right : Node)
  | back (cmd : Node)
  deriving Repr

/-- Redirections put around a command, the first innermost. -/
def Node.wrap (cmd : Node) (rs : List Redir) : Node := rs.foldl .redir cmd

/-! ## Tokens -/

def whitespace : List Char := [' ', '\t', '\r', '\n', '\x0b']

def symbols : List Char := ['<', '|', '>', '&', ';', '(', ')']

/-- `strchr`, as a test. -/
def strchr (s : List Char) (c : Char) : Bool := s.contains c

/-- `*s`. -/
def read (buf : List Char) (s : Nat) : Except Fault Char :=
  match buf[s]? with
  | some c => .ok c
  | none => .error .overrun

/-- `while(s < es && p(*s)) s++`, with `n` places left to `es`. -/
def scanFrom (p : Char → Bool) (buf : List Char) : Nat → Nat → Except Fault Nat
  | 0, s => .ok s
  | n + 1, s => do
    let c ← read buf s
    if p c then scanFrom p buf n (s + 1) else .ok s

def scan (p : Char → Bool) (buf : List Char) (es s : Nat) : Except Fault Nat := scanFrom p buf (es - s) s

/-- The `switch` of `gettoken`: the kind of the token that begins at `q` with `c`, and where it ends. -/
def tokenAt (buf : List Char) (es q : Nat) (c : Char) : Except Fault (Char × Nat) :=
  match c with
  | '\x00' => .ok (c, q)
  | '|' | '(' | ')' | ';' | '&' | '<' => .ok (c, q + 1)
  | '>' => do
    let d ← read buf (q + 1)
    if d = '>' then .ok ('+', q + 2) else .ok (c, q + 1)
  | _ => do
    let eq ← scan (fun c => !strchr whitespace c && !strchr symbols c) buf es q
    .ok ('a', eq)

/-- `gettoken` (sh.c:269): the kind of the token, where it begins and ends, and the new `*ps`. -/
def gettoken (buf : List Char) (es s : Nat) : Except Fault (Char × Nat × Nat × Nat) := do
  let q ← scan (strchr whitespace) buf es s
  let c ← read buf q
  let (ret, eq) ← tokenAt buf es q c
  let s ← scan (strchr whitespace) buf es eq
  .ok (ret, q, eq, s)

/-- `peek` (sh.c:314): whether a token begins with one of `toks`, and the new `*ps`. -/
def peek (buf : List Char) (es s : Nat) (toks : List Char) : Except Fault (Bool × Nat) := do
  let s ← scan (strchr whitespace) buf es s
  let c ← read buf s
  .ok (c ≠ '\x00' && strchr toks c, s)

/-! ## The grammar -/

section Grammar

variable (buf : List Char) (es : Nat)

/-- `parseredirs` (sh.c:378), with the redirections found so far. -/
def parseredirs : Nat → List Redir → Nat → Except Fault (List Redir × Nat)
  | 0, _, _ => .error .fuel
  | n + 1, rs, s => do
    let (more, s) ← peek buf es s ['<', '>']
    if more then
      let (tok, _, _, s) ← gettoken buf es s
      let (kind, q, eq, s) ← gettoken buf es s
      if kind ≠ 'a' then .error (.panic "missing file for redirection")
      else
        match tok with
        | '<' => parseredirs n (rs ++ [⟨q, eq, O_RDONLY, 0⟩]) s
        | '>' => parseredirs n (rs ++ [⟨q, eq, O_WRONLY ||| O_CREATE, 1⟩]) s
        | '+' => parseredirs n (rs ++ [⟨q, eq, O_WRONLY ||| O_CREATE, 1⟩]) s
        | _ => parseredirs n rs s
    else .ok (rs, s)

/-- The loop of `parseexec` over the arguments.  The `execcmd` stays innermost when redirections are put
around it, so the arguments and the redirections are kept apart. -/
def parseargs : Nat → List (Nat × Nat) → List Redir → Nat →
    Except Fault (List (Nat × Nat) × List Redir × Nat)
  | 0, _, _, _ => .error .fuel
  | n + 1, argv, rs, s => do
    let (stop, s) ← peek buf es s ['|', ')', '&', ';']
    if stop then .ok (argv, rs, s)
    else
      let (tok, q, eq, s) ← gettoken buf es s
      if tok = '\x00' then .ok (argv, rs, s)
      else if tok ≠ 'a' then .error (.panic "syntax")
      else if argv.length + 1 ≥ MAXARGS then .error (.panic "too many args")
      else do
        let (rs, s) ← parseredirs buf es n rs s
        parseargs n (argv ++ [(q, eq)]) rs s

/-- The loop of `parseline` over `&`. -/
def parsebacks : Nat → Node → Nat → Except Fault (Node × Nat)
  | 0, _, _ => .error .fuel
  | n + 1, cmd, s => do
    let (more, s) ← peek buf es s ['&']
    if more then
      let (_, _, _, s) ← gettoken buf es s
      parsebacks n (.back cmd) s
    else .ok (cmd, s)

mutual

/-- `parseline` (sh.c:348). -/
def parseline : Nat → Nat → Except Fault (Node × Nat)
  | 0, _ => .error .fuel
  | n + 1, s => do
    let (cmd, s) ← parsepipe n s
    let (cmd, s) ← parsebacks buf es n cmd s
    let (more, s) ← peek buf es s [';']
    if more then
      let (_, _, _, s) ← gettoken buf es s
      let (right, s) ← parseline n s
      .ok (.list cmd right, s)
    else .ok (cmd, s)

/-- `parsepipe` (sh.c:365). -/
def parsepipe : Nat → Nat → Except Fault (Node × Nat)
  | 0, _ => .error .fuel
  | n + 1, s => do
    let (cmd, s) ← parseexec n s
    let (more, s) ← peek buf es s ['|']
    if more then
      let (_, _, _, s) ← gettoken buf es s
      let (right, s) ← parsepipe n s
      .ok (.pipe cmd right, s)
    else .ok (cmd, s)

/-- `parseexec` (sh.c:419). -/
def parseexec : Nat → Nat → Except Fault (Node × Nat)
  | 0, _ => .error .fuel
  | n + 1, s => do
    let (block, s) ← peek buf es s ['(']
    if block then parseblock n s
    else
      let (rs, s) ← parseredirs buf es n [] s
      let (argv, rs, s) ← parseargs buf es n [] rs s
      .ok ((Node.exec argv).wrap rs, s)

/-- `parseblock` (sh.c:403). -/
def parseblock : Nat → Nat → Except Fault (Node × Nat)
  | 0, _ => .error .fuel
  | n + 1, s => do
    let (opens, s) ← peek buf es s ['(']
    if !opens then .error (.panic "parseblock")
    else
      let (_, _, _, s) ← gettoken buf es s
      let (cmd, s) ← parseline n s
      let (closes, s) ← peek buf es s [')']
      if !closes then .error (.panic "syntax - missing )")
      else
        let (_, _, _, s) ← gettoken buf es s
        let (rs, s) ← parseredirs buf es n [] s
        .ok (cmd.wrap rs, s)

end

end Grammar

/-! ## The ends of the strings -/

/-- `*p = 0`. -/
def poke (p : Nat) (buf : List Char) : Except Fault (List Char) :=
  if p < buf.length then .ok (buf.set p '\x00') else .error .overrun

/-- `nulterminate` (sh.c:453). -/
def nulterminate : Node → List Char → Except Fault (List Char)
  | .exec argv, buf => argv.foldlM (fun buf arg => poke arg.2 buf) buf
  | .redir cmd r, buf => do
    let buf ← nulterminate cmd buf
    poke r.efile buf
  | .pipe left right, buf => do
    let buf ← nulterminate left buf
    nulterminate right buf
  | .list left right, buf => do
    let buf ← nulterminate left buf
    nulterminate right buf
  | .back cmd, buf => nulterminate cmd buf

/-- `strlen`. -/
def strlen (buf : List Char) : Nat := (buf.takeWhile (· ≠ '\x00')).length

/-- `parsecmd` (sh.c:331): the tree, and what has become of the buffer. -/
def parsecmd (fuel : Nat) (buf : List Char) : Except Fault (Node × List Char) := do
  let es := strlen buf
  let (cmd, s) ← parseline buf es fuel 0
  let (_, s) ← peek buf es s []
  if s ≠ es then .error (.panic "syntax")
  else do
    let buf ← nulterminate cmd buf
    .ok (cmd, buf)

end Xv6.Shell
