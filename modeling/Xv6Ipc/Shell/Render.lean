import Xv6Ipc.Shell.Parse

/-!
# Shell/Render — commands, and the lines that say them

A command is a tree; a line says it in tokens, with parentheses around what would otherwise be read
differently:

    line ──▸ back ; line          back ──▸ back &          pipe ──▸ exec | pipe
    exec ──▸ ( line ) redirections          exec ──▸ arguments and redirections, in any order

`Renders` is every way to say a command in tokens, `Text` every way to write tokens as characters, and
`Cmd.print` one way with no parentheses but the necessary ones.
-/

namespace Xv6.Shell

/-! ## Commands -/

/-- A character of a word. -/
def plain (c : Char) : Bool := c ≠ '\x00' && !strchr whitespace c && !strchr symbols c

/-- A word: what an argument or the name of a file can be. -/
structure Word where
  chars : List Char
  ne_nil : chars ≠ []
  plain : ∀ c ∈ chars, plain c = true
  deriving DecidableEq

/-- The ways to redirect. -/
inductive Op
  | less
  | greater
  | append
  deriving DecidableEq, Repr

namespace Op

def chars : Op → List Char
  | less => ['<']
  | greater => ['>']
  | append => ['>', '>']

/-- How the file is opened: the shell opens it alike for `>` and `>>`. -/
def mode : Op → Nat
  | less => O_RDONLY
  | greater | append => O_WRONLY ||| O_CREATE

def fd : Op → Nat
  | less => 0
  | greater | append => 1

end Op

/-- **A command**, with at most nine arguments each time a program is run. -/
inductive Cmd
  | exec (argv : List Word) (le : argv.length ≤ 9)
  | redir (cmd : Cmd) (op : Op) (file : Word)
  | pipe (left right : Cmd)
  | list (left right : Cmd)
  | back (cmd : Cmd)

/-- Redirections put around a command, the first innermost. -/
def Cmd.wrap (cmd : Cmd) (rs : List (Op × Word)) : Cmd := rs.foldl (fun c r => .redir c r.1 r.2) cmd

/-! ## Tokens -/

inductive Tok
  | word (w : Word)
  | op (o : Op)
  | bar
  | amp
  | semi
  | lpar
  | rpar
  deriving DecidableEq

def Tok.chars : Tok → List Char
  | word w => w.chars
  | op o => o.chars
  | bar => ['|']
  | amp => ['&']
  | semi => [';']
  | lpar => ['(']
  | rpar => [')']

/-- White space. -/
def Blank (gap : List Char) : Prop := ∀ c ∈ gap, strchr whitespace c = true

/-- **Tokens written down**, with white space before, between and after them.  Only two words need it. -/
inductive Text : List Tok → List Char → Prop
  | nil {gap : List Char} (hgap : Blank gap) : Text [] gap
  | cons {gap : List Char} {t : Tok} {ts : List Tok} {rest : List Char} (hgap : Blank gap)
      (hsep : ∀ w, t = .word w → ∀ c ∈ rest.head?, plain c = false) (hrest : Text ts rest) :
      Text (t :: ts) (gap ++ (t.chars ++ rest))

/-! ## Ways to say a command -/

/-- A part of a simple command. -/
inductive Item
  | arg (w : Word)
  | redir (o : Op) (w : Word)

namespace Item

def toks : Item → List Tok
  | arg w => [.word w]
  | redir o w => [.op o, .word w]

/-- The arguments among the parts… -/
def args : List Item → List Word
  | [] => []
  | arg w :: items => w :: args items
  | redir _ _ :: items => args items

/-- …and the redirections. -/
def redirs : List Item → List (Op × Word)
  | [] => []
  | arg _ :: items => redirs items
  | redir o w :: items => (o, w) :: redirs items

end Item

/-- Redirections in tokens. -/
def redirToks (rs : List (Op × Word)) : List Tok := rs.flatMap fun r => [.op r.1, .word r.2]

/-- Where in a line a command stands. -/
inductive Level
  | exec
  | pipe
  | back
  | line
  deriving DecidableEq

/-- **The ways to say a command in tokens.** -/
inductive Renders : Level → Cmd → List Tok → Prop
  | simple {argv : List Word} (items : List Item) (le : argv.length ≤ 9) (hargs : Item.args items = argv) :
      Renders .exec ((Cmd.exec argv le).wrap (Item.redirs items)) (items.flatMap Item.toks)
  | block {c : Cmd} {ts : List Tok} (rs : List (Op × Word)) (h : Renders .line c ts) :
      Renders .exec (c.wrap rs) (.lpar :: ts ++ .rpar :: redirToks rs)
  | alone {c : Cmd} {ts : List Tok} (h : Renders .exec c ts) : Renders .pipe c ts
  | pipe {a b : Cmd} {ts us : List Tok} (ha : Renders .exec a ts) (hb : Renders .pipe b us) :
      Renders .pipe (.pipe a b) (ts ++ .bar :: us)
  | fore {c : Cmd} {ts : List Tok} (h : Renders .pipe c ts) : Renders .back c ts
  | back {c : Cmd} {ts : List Tok} (h : Renders .back c ts) : Renders .back (.back c) (ts ++ [.amp])
  | last {c : Cmd} {ts : List Tok} (h : Renders .back c ts) : Renders .line c ts
  | list {a b : Cmd} {ts us : List Tok} (ha : Renders .back a ts) (hb : Renders .line b us) :
      Renders .line (.list a b) (ts ++ .semi :: us)

/-! ## Printing -/

def paren (ts : List Tok) : List Tok := .lpar :: ts ++ [.rpar]

/-- A command in tokens, with the parentheses that are necessary. -/
def Cmd.print : Cmd → Level → List Tok
  | .exec argv _, _ => argv.map .word
  | .redir c o w, _ => c.print .exec ++ [.op o, .word w]
  | .pipe a b, l =>
    let ts := a.print .exec ++ .bar :: b.print .pipe
    if l = .exec then paren ts else ts
  | .back c, l =>
    let ts := c.print .back ++ [.amp]
    if l = .exec ∨ l = .pipe then paren ts else ts
  | .list a b, l =>
    let ts := a.print .back ++ .semi :: b.print .line
    if l = .line then ts else paren ts

namespace Renders

variable {c : Cmd} {ts : List Tok} {o : Op} {w : Word}

/-- What stands for a program stands anywhere. -/
theorem lift (h : Renders .exec c ts) : ∀ l, Renders l c ts
  | .exec => h
  | .pipe => h.alone
  | .back => h.alone.fore
  | .line => h.alone.fore.last

/-- Any line in parentheses stands anywhere. -/
theorem paren (h : Renders .line c ts) (l : Level) : Renders l c (Shell.paren ts) :=
  (h.block []).lift l

theorem args_append (items items' : List Item) :
    Item.args (items ++ items') = Item.args items ++ Item.args items' := by
  induction items with
  | nil => rfl
  | cons i items ih => cases i <;> simp [Item.args, ih]

theorem redirs_append (items items' : List Item) :
    Item.redirs (items ++ items') = Item.redirs items ++ Item.redirs items' := by
  induction items with
  | nil => rfl
  | cons i items ih => cases i <;> simp [Item.redirs, ih]

/-- One more redirection. -/
theorem redir (h : Renders .exec c ts) (o : Op) (w : Word) :
    Renders .exec (.redir c o w) (ts ++ [.op o, .word w]) := by
  cases h with
  | @simple argv items le hargs =>
    have hmore := Renders.simple (items ++ [.redir o w]) le
      (by rw [args_append, hargs]; exact List.append_nil _)
    rw [redirs_append, List.flatMap_append] at hmore
    simpa [Cmd.wrap, Item.redirs, Item.toks] using hmore
  | @block c ts rs h =>
    simpa [Cmd.wrap, redirToks] using h.block (rs ++ [(o, w)])

theorem args_map (argv : List Word) : Item.args (argv.map .arg) = argv := by
  induction argv with
  | nil => rfl
  | cons w argv ih => exact congrArg (w :: ·) ih

theorem redirs_map (argv : List Word) : Item.redirs (argv.map .arg) = [] := by
  induction argv with
  | nil => rfl
  | cons w argv ih => exact ih

/-- Arguments alone. -/
theorem exec (argv : List Word) (le : argv.length ≤ 9) :
    Renders .exec (.exec argv le) (argv.map .word) := by
  have h := Renders.simple (argv.map .arg) le (args_map argv)
  rw [redirs_map, List.flatMap_map] at h
  rwa [← List.flatMap_pure_eq_map]

end Renders

/-- **Every command can be said**, at every place in a line. -/
theorem renders_print (c : Cmd) (l : Level) : Renders l c (c.print l) := by
  induction c generalizing l with
  | exec argv le => exact (Renders.exec argv le).lift l
  | redir c o w ih => exact ((ih .exec).redir o w).lift l
  | pipe a b iha ihb =>
    have h := (iha .exec).pipe (ihb .pipe)
    cases l with
    | exec => exact h.fore.last.paren .exec
    | pipe => exact h
    | back => exact h.fore
    | line => exact h.fore.last
  | list a b iha ihb =>
    have h := (iha .back).list (ihb .line)
    cases l with
    | exec => exact h.paren .exec
    | pipe => exact h.paren .pipe
    | back => exact h.paren .back
    | line => exact h
  | back c ih =>
    have h := (ih .back).back
    cases l with
    | exec => exact h.last.paren .exec
    | pipe => exact h.last.paren .pipe
    | back => exact h
    | line => exact h.last

end Xv6.Shell
