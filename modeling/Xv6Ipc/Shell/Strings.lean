import Xv6Ipc.Shell.Inverts

/-!
# Shell/Strings — the strings a parsed line leaves

`nulterminate` overwrites the character behind each string with a NUL.  That character is never part of
a word, so one string's NUL does not cut another one short:

    buf    l s   <   f   |   w c \0
    buf'   l s \0<   f \0|   w c \0

After it every pointer in the tree is a C string, and the tree can be read without the line.
-/

namespace Xv6.Shell

open Fuel

/-! ## Trees as the shell runs them -/

/-- A tree of `struct cmd`s with its strings read off. -/
inductive Tree
  | exec (argv : List (List Char))
  | redir (cmd : Tree) (file : List Char) (mode fd : Nat)
  | pipe (left right : Tree)
  | list (left right : Tree)
  | back (cmd : Tree)
  deriving Repr

/-- The C string at `q`. -/
def cstring (buf : List Char) (q : Nat) : List Char := (buf.drop q).takeWhile (· ≠ '\x00')

/-- What the nodes say, in a buffer. -/
def Node.tree (buf : List Char) : Node → Tree
  | .exec argv => .exec (argv.map fun arg => cstring buf arg.1)
  | .redir cmd r => .redir (cmd.tree buf) (cstring buf r.file) r.mode r.fd
  | .pipe left right => .pipe (left.tree buf) (right.tree buf)
  | .list left right => .list (left.tree buf) (right.tree buf)
  | .back cmd => .back (cmd.tree buf)

/-- What a command says. -/
def Cmd.tree : Cmd → Tree
  | .exec argv _ => .exec (argv.map Word.chars)
  | .redir cmd o w => .redir cmd.tree w.chars o.mode o.fd
  | .pipe a b => .pipe a.tree b.tree
  | .list a b => .list a.tree b.tree
  | .back c => .back c.tree

/-! ## The NULs -/

/-- Where a tree's strings end. -/
def Node.ends : Node → List Nat
  | .exec argv => argv.map Prod.snd
  | .redir cmd r => cmd.ends ++ [r.efile]
  | .pipe left right => left.ends ++ right.ends
  | .list left right => left.ends ++ right.ends
  | .back cmd => cmd.ends

/-- NULs at all of `ps`. -/
def zeros (ps : List Nat) (buf : List Char) : List Char := ps.foldl (fun b p => b.set p '\x00') buf

section Zeros

variable {buf : List Char} {ps qs : List Nat} {i q : Nat}

theorem zeros_append : zeros (ps ++ qs) buf = zeros qs (zeros ps buf) := List.foldl_append

theorem length_zeros : (zeros ps buf).length = buf.length := by
  induction ps generalizing buf with
  | nil => rfl
  | cons p ps ih => exact ih.trans List.length_set

theorem zeros_of_notMem (h : i ∉ ps) : (zeros ps buf)[i]? = buf[i]? := by
  induction ps generalizing buf with
  | nil => rfl
  | cons p ps ih =>
    rw [List.mem_cons, not_or] at h
    exact (ih h.2).trans (List.getElem?_set_ne (Ne.symm h.1))

theorem zeros_of_mem (h : i ∈ ps) (hi : i < buf.length) : (zeros ps buf)[i]? = some '\x00' := by
  induction ps generalizing buf with
  | nil => cases h
  | cons p ps ih =>
    have hi' : i < (buf.set p '\x00').length := by rwa [List.length_set]
    by_cases hps : i ∈ ps
    · exact ih hps hi'
    · obtain rfl : i = p := (List.mem_cons.mp h).resolve_right hps
      exact (zeros_of_notMem hps).trans (List.getElem?_set_self hi)

theorem poke_args {argv : List (Nat × Nat)} (h : ∀ a ∈ argv, a.2 < buf.length) :
    argv.foldlM (fun buf arg => poke arg.2 buf) buf = .ok (zeros (argv.map Prod.snd) buf) := by
  induction argv generalizing buf with
  | nil => rfl
  | cons a argv ih =>
    obtain ⟨ha, hargv⟩ := List.forall_mem_cons.mp h
    rw [List.foldlM_cons, poke, if_pos ha]
    exact ih fun b hb => by rw [List.length_set]; exact hargv b hb

/-- **What `nulterminate` does**, to a buffer its tree points into. -/
theorem nulterminate_eq (cmd : Node) (h : ∀ p ∈ cmd.ends, p < buf.length) :
    nulterminate cmd buf = .ok (zeros cmd.ends buf) := by
  induction cmd generalizing buf with
  | exec argv => exact poke_args fun a ha => h a.2 (List.mem_map_of_mem ha)
  | redir cmd r ih =>
    obtain ⟨hcmd, hr⟩ := List.forall_mem_append.mp h
    rw [nulterminate, ih hcmd, Node.ends, zeros_append]
    exact if_pos (by rw [length_zeros]; exact hr r.efile (List.mem_singleton_self _))
  | pipe left right ihl ihr | list left right ihl ihr =>
    obtain ⟨hl, hr⟩ := List.forall_mem_append.mp h
    rw [nulterminate, ihl hl, Node.ends, zeros_append]
    exact ihr fun p hp => by rw [length_zeros]; exact hr p hp
  | back cmd ih => exact ih h

end Zeros

/-! ## The strings -/

section Strings

variable {buf : List Char} {ps : List Nat} {n : Node} {c : Cmd}

/-- The place a string ends at is in the buffer, and no word goes on there. -/
def Ends (buf : List Char) (p : Nat) : Prop := ∃ c, buf[p]? = some c ∧ plain c = false

theorem Ends.lt {p : Nat} (h : Ends buf p) : p < buf.length := by
  obtain ⟨c, hc, -⟩ := h
  exact (List.getElem?_eq_some_iff.mp hc).1

theorem Spot.ends {p : Nat × Nat} {w : Word} (h : Spot buf p w) : Ends buf p.2 := by
  obtain ⟨hend, c, rest, hdrop, hc⟩ := h
  refine ⟨c, ?_, hc⟩
  rw [hend, ← List.getElem?_drop, hdrop, List.getElem?_append_right (Nat.le_refl _), Nat.sub_self]
  rfl

theorem spots_ends {argv : List (Nat × Nat)} {ws : List Word} (h : argv.Forall₂ (Spot buf) ws) :
    ∀ p ∈ argv.map Prod.snd, Ends buf p := by
  induction h with
  | nil => exact fun _ hp => (nomatch hp)
  | cons hspot _ ih => exact List.forall_mem_cons.mpr ⟨hspot.ends, ih⟩

theorem Fits.ends (h : Fits buf n c) : ∀ p ∈ n.ends, Ends buf p := by
  induction h with
  | exec h => exact spots_ends h
  | redir _ hr ih =>
    refine List.forall_mem_append.mpr ⟨ih, fun p hp => ?_⟩
    rw [List.mem_singleton.mp hp]
    exact hr.1.ends
  | pipe _ _ iha ihb | list _ _ iha ihb => exact List.forall_mem_append.mpr ⟨iha, ihb⟩
  | back _ ih => exact ih

/-- Characters one by one, and then a last one. -/
theorem drop_of_getElem? {l w : List Char} {q : Nat} {d : Char}
    (hw : ∀ i (hi : i < w.length), l[q + i]? = some w[i]) (hd : l[q + w.length]? = some d) :
    ∃ rest, l.drop q = w ++ d :: rest := by
  induction w generalizing q with
  | nil =>
    obtain ⟨hq, hget⟩ := List.getElem?_eq_some_iff.mp hd
    exact ⟨_, (List.drop_eq_getElem_cons hq).trans (congrArg (· :: _) hget)⟩
  | cons c w ih =>
    obtain ⟨hq, hget⟩ := List.getElem?_eq_some_iff.mp (hw 0 (by simp))
    obtain ⟨rest, hrest⟩ := ih (q := q + 1)
      (fun i hi => by rw [Nat.add_assoc, Nat.add_comm 1]; exact hw (i + 1) (Nat.succ_lt_succ hi))
      (by rw [Nat.add_assoc, Nat.add_comm 1]; exact hd)
    refine ⟨rest, (List.drop_eq_getElem_cons hq).trans ?_⟩
    rw [hget]
    exact congrArg (c :: ·) hrest

/-- **A word is the string at its place**, with NULs behind it and behind other words. -/
theorem Spot.cstring_zeros {p : Nat × Nat} {w : Word} (h : Spot buf p w) (hp : p.2 ∈ ps)
    (hps : ∀ q ∈ ps, Ends buf q) : cstring (zeros ps buf) p.1 = w.chars := by
  obtain ⟨hend, c, rest, hdrop, -⟩ := h
  obtain ⟨tail, htail⟩ : ∃ tail, (zeros ps buf).drop p.1 = w.chars ++ '\x00' :: tail := by
    refine drop_of_getElem? (fun i hi => ?_) ?_
    · have hget : buf[p.1 + i]? = some w.chars[i] := by
        rw [← List.getElem?_drop, hdrop, List.getElem?_append_left hi]
        exact List.getElem?_eq_getElem hi
      rw [zeros_of_notMem fun hmem => ?_, hget]
      -- no string ends inside a word
      obtain ⟨d, hd, hplain⟩ := hps _ hmem
      obtain rfl := Option.some.inj (hget.symm.trans hd)
      exact Bool.false_ne_true (hplain.symm.trans (w.plain _ (List.getElem_mem hi)))
    · rw [← hend]
      exact zeros_of_mem hp (hps _ hp).lt
  rw [cstring, htail, List.takeWhile_append_of_pos fun d hd => ?_]
  · simp
  · rw [decide_eq_true_eq]
    exact (plain_iff.mp (w.plain d hd)).1

theorem spots_cstring {argv : List (Nat × Nat)} {ws : List Word} (h : argv.Forall₂ (Spot buf) ws)
    (hsub : ∀ p ∈ argv.map Prod.snd, p ∈ ps) (hps : ∀ q ∈ ps, Ends buf q) :
    argv.map (fun a => cstring (zeros ps buf) a.1) = ws.map Word.chars := by
  induction h with
  | nil => rfl
  | cons hspot _ ih =>
    obtain ⟨ha, hrest⟩ := List.forall_mem_cons.mp hsub
    exact congrArg₂ List.cons (hspot.cstring_zeros ha hps) (ih hrest)

/-- **The tree says the command**, once its strings are ended. -/
theorem Fits.tree_zeros (h : Fits buf n c) (hsub : ∀ p ∈ n.ends, p ∈ ps) (hps : ∀ q ∈ ps, Ends buf q) :
    n.tree (zeros ps buf) = c.tree := by
  induction h with
  | exec h => exact congrArg Tree.exec (spots_cstring h hsub hps)
  | @redir _ _ r o w _ hr ih =>
    obtain ⟨hcmd, hend⟩ := List.forall_mem_append.mp hsub
    obtain ⟨hspot, hmode, hfd⟩ := hr
    have hfile := hspot.cstring_zeros (hend _ (List.mem_singleton_self _)) hps
    rw [Node.tree, Cmd.tree, ih hcmd, hmode, hfd]
    exact congrArg (Tree.redir _ · _ _) hfile
  | pipe _ _ iha ihb | list _ _ iha ihb =>
    obtain ⟨ha, hb⟩ := List.forall_mem_append.mp hsub
    rw [Node.tree, Cmd.tree, iha ha, ihb hb]
  | back _ ih => rw [Node.tree, Cmd.tree, ih hsub]

end Strings

/-! ## The whole line -/

theorem strlen_line {line : List Char} (h : '\x00' ∉ line) : strlen (line ++ ['\x00']) = line.length := by
  rw [strlen, List.takeWhile_append_of_pos fun c hc => ?_]
  · simp
  · rw [decide_eq_true_eq]
    rintro rfl
    exact h hc

/-- **The parser undoes printing.**  A line that says a command, in any way and with any white space, is
read without a fault, and what the parser returns says that command. -/
theorem parsecmd_renders {c : Cmd} {ts : List Tok} {line : List Char} (hc : Renders .line c ts)
    (ht : Text ts line) :
    ∃ cmd buf, Settles (fun n => parsecmd n (line ++ ['\x00'])) (.ok (cmd, buf)) ∧
      cmd.tree buf = c.tree := by
  set buf := line ++ ['\x00'] with hbuf
  have hlen : strlen buf = line.length := strlen_line ht.nul_notMem
  have hes : line.length + 1 = buf.length := by rw [hbuf, List.length_append, List.length_singleton]
  have hhere : Here buf 0 (ts ++ []) := ⟨line, by rwa [List.append_nil], rfl⟩
  obtain ⟨cmd, s, hset, h, hfits⟩ := reads_of_renders hes hc 0 [] hhere (.inl rfl)
  obtain ⟨s', hpeek, -, hend⟩ := peek_spec hes h []
  obtain rfl := hend rfl
  have hnul := nulterminate_eq cmd fun p hp => (hfits.ends p hp).lt
  refine ⟨cmd, zeros cmd.ends buf, ?_, hfits.tree_zeros (fun _ hp => hp) hfits.ends⟩
  simp only [parsecmd, hlen]
  refine hset.bind (.known hpeek ?_)
  simp only [ne_eq, not_true_eq_false, if_false]
  exact .known hnul (.const _)

/-- Tokens with a blank before each. -/
def spaced (ts : List Tok) : List Char := ts.flatMap fun t => ' ' :: t.chars

/-- Any tokens can be written down. -/
theorem text_spaced (ts : List Tok) : Text ts (spaced ts) := by
  induction ts with
  | nil => exact .nil nofun
  | cons t ts ih =>
    have hblank : Blank [' '] := fun c hc => by
      rw [List.mem_singleton.mp hc]
      rfl
    refine Text.cons hblank ?_ ih
    rintro w - c hc
    cases ts with
    | nil => cases hc
    | cons u ts =>
      obtain rfl := Option.some.inj hc
      rfl

section Sample

def word (s : String) (hne : s.toList ≠ []) (hplain : s.toList.all plain = true) : Word :=
  ⟨s.toList, hne, List.all_eq_true.mp hplain⟩

/-- `( cat < in ; ls ) | wc &` -/
def sample : Cmd :=
  .back (.pipe
    (.list (.redir (.exec [word "cat" (by decide) (by decide)] (by decide)) .less
        (word "in" (by decide) (by decide)))
      (.exec [word "ls" (by decide) (by decide)] (by decide)))
    (.exec [word "wc" (by decide) (by decide)] (by decide)))

theorem parsecmd_sample :
    ∃ cmd buf, Settles (fun n => parsecmd n (spaced (sample.print .line) ++ ['\x00'])) (.ok (cmd, buf)) ∧
      cmd.tree buf = sample.tree :=
  parsecmd_renders (renders_print sample .line) (text_spaced _)

end Sample

end Xv6.Shell
