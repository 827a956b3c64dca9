import Xv6Ipc.Machinery.Fuel
import Xv6Ipc.Shell.Lex
import Mathlib.Data.List.Forall2

/-!
# Shell/Inverts — parsing undoes printing

Each function of the parser reads what stands at its level of the grammar and leaves what follows, as
long as that is something its loop does not take:

    parseexec   ▸ what follows is  | ) & ;  or the end
    parsepipe   ▸                    ) & ;
    parseline   ▸                    )

The induction is on the way a command is said; the nodes that come out point to the command's words.
-/

namespace Xv6.Shell

open Fuel

/-! ## Nodes against commands -/

/-- A redirection in the tree, and the one it was read from. -/
def RedirFits (buf : List Char) (r : Redir) (x : Op × Word) : Prop :=
  Spot buf (r.file, r.efile) x.2 ∧ r.mode = x.1.mode ∧ r.fd = x.1.fd

/-- **The tree says the command**, its strings being where the words stand. -/
inductive Fits (buf : List Char) : Node → Cmd → Prop
  | exec {argv : List (Nat × Nat)} {ws : List Word} {le : ws.length ≤ 9} (h : argv.Forall₂ (Spot buf) ws) :
      Fits buf (.exec argv) (.exec ws le)
  | redir {n : Node} {c : Cmd} {r : Redir} {o : Op} {w : Word} (h : Fits buf n c)
      (hr : RedirFits buf r (o, w)) : Fits buf (.redir n r) (.redir c o w)
  | pipe {m n : Node} {a b : Cmd} (ha : Fits buf m a) (hb : Fits buf n b) : Fits buf (.pipe m n) (.pipe a b)
  | list {m n : Node} {a b : Cmd} (ha : Fits buf m a) (hb : Fits buf n b) : Fits buf (.list m n) (.list a b)
  | back {n : Node} {c : Cmd} (h : Fits buf n c) : Fits buf (.back n) (.back c)

theorem Fits.wrap {buf : List Char} {n : Node} {c : Cmd} {rs : List Redir} {xs : List (Op × Word)}
    (h : Fits buf n c) (hrs : rs.Forall₂ (RedirFits buf) xs) : Fits buf (n.wrap rs) (c.wrap xs) := by
  induction hrs generalizing n c with
  | nil => exact h
  | cons hr _ ih => exact ih (h.redir hr)

/-! ## Loops over tokens -/

/-- What follows is the end, or begins with one of `toks`. -/
def Follows (toks : List Char) (rest : List Tok) : Prop := rest = [] ∨ begins toks rest = true

/-- …so it does not begin with any other symbol. -/
theorem Follows.begins_not {toks toks' : List Char} {rest : List Tok} (h : Follows toks rest)
    (hdisj : (toks.all fun c => !strchr toks' c) = true) : begins toks' rest = false := by
  rcases h with rfl | h
  · rfl
  · rw [begins, Bool.and_eq_true, strchr, List.contains_iff_mem] at h
    have hnot := List.all_eq_true.mp hdisj _ h.2
    rw [Bool.not_eq_eq_eq_not, Bool.not_true] at hnot
    rw [begins, hnot, Bool.and_false]

section Loops

variable {buf : List Char} {es s : Nat} {ts rest : List Tok} (hes : es + 1 = buf.length)

theorem plain_lead (w : Word) (ts : List Tok) : plain (lead (.word w :: ts)) = true := by
  obtain ⟨c, l, hw⟩ := List.exists_cons_of_ne_nil w.ne_nil
  rw [lead, Tok.chars, hw]
  exact w.plain c (hw ▸ List.mem_cons_self)

/-- A word begins with none of the symbols. -/
theorem begins_word (w : Word) (ts : List Tok) (toks : List Char) (htoks : toks ⊆ symbols) :
    begins toks (.word w :: ts) = false := by
  have hsym := (plain_iff.mp (plain_lead w ts)).2.2
  have hnot : strchr toks (lead (.word w :: ts)) = false := by
    rw [strchr, List.contains_eq_mem, decide_eq_false_iff_not] at hsym ⊢
    exact fun hmem => hsym (htoks hmem)
  rw [begins, hnot, Bool.and_false]

include hes

/-- No redirection is next. -/
theorem parseredirs_stop (h : Here buf s rest) (hb : begins ['<', '>'] rest = false) (acc : List Redir) :
    ∃ s', Settles (fun n => parseredirs buf es n acc s) (.ok (acc, s')) ∧ Here buf s' rest := by
  obtain ⟨s', hpeek, hhere⟩ := peek_of_begins hes h _ hb
  exact ⟨s', .start hpeek (fun n => by rw [parseredirs]) (.const _), hhere⟩

/-- A redirection is next. -/
theorem parseredirs_turn {o : Op} {w : Word} (h : Here buf s (.op o :: .word w :: rest)) (acc : List Redir) :
    ∃ r s', RedirFits buf r (o, w) ∧ Here buf s' rest ∧ ∀ b,
      Settles (fun n => parseredirs buf es n (acc ++ [r]) s') b →
        Settles (fun n => parseredirs buf es n acc s) b := by
  have hb : begins ['<', '>'] (.op o :: .word w :: rest) = true := by cases o <;> rfl
  have hlead : lead (.word w :: rest) ≠ '>' := fun hgt =>
    absurd (hgt ▸ plain_lead w rest) (by decide)
  obtain ⟨s₁, hpeek, h₁⟩ := peek_of_begins hes h _ hb
  obtain ⟨q₁, e₁, s₂, htok, h₂, -⟩ := gettoken_spec hes h₁ (fun _ => hlead)
  obtain ⟨q, eq, s₃, hword, h₃, hspot⟩ := gettoken_spec hes h₂ nofun
  refine ⟨⟨q, eq, o.mode, o.fd⟩, s₃, ⟨hspot w rfl, rfl, rfl⟩, h₃, fun b hrest => ?_⟩
  refine .start hpeek (fun n => by rw [parseredirs]) (.known htok (.known hword ?_))
  cases o <;> exact hrest

/-- Redirections, one after the other. -/
theorem parseredirs_spec (xs : List (Op × Word)) (h : Here buf s (redirToks xs ++ rest))
    (hb : begins ['<', '>'] rest = false) (acc : List Redir) :
    ∃ rs s', Settles (fun n => parseredirs buf es n acc s) (.ok (acc ++ rs, s')) ∧ Here buf s' rest ∧
      rs.Forall₂ (RedirFits buf) xs := by
  induction xs generalizing s acc with
  | nil =>
    obtain ⟨s', hset, hhere⟩ := parseredirs_stop hes h hb acc
    exact ⟨[], s', by rwa [List.append_nil], hhere, .nil⟩
  | cons x xs ih =>
    obtain ⟨r, s₁, hr, h₁, hturn⟩ := parseredirs_turn hes h acc
    obtain ⟨rs, s', hset, hhere, hrs⟩ := ih h₁ (acc ++ [r])
    rw [List.append_assoc, List.singleton_append] at hset
    exact ⟨r :: rs, s', hturn _ hset, hhere, .cons hr hrs⟩

/-- No argument is next. -/
theorem parseargs_stop (h : Here buf s rest) (hrest : Follows ['|', ')', '&', ';'] rest)
    (argv : List (Nat × Nat)) (acc : List Redir) :
    ∃ s', Settles (fun n => parseargs buf es n argv acc s) (.ok (argv, acc, s')) ∧ Here buf s' rest := by
  rcases hrest with rfl | hb
  · obtain ⟨s₁, hpeek, h₁⟩ := peek_of_begins (b := false) hes h ['|', ')', '&', ';'] rfl
    obtain ⟨q, s', htok, hhere⟩ := gettoken_end hes h₁
    exact ⟨s', .start hpeek (fun n => by rw [parseargs]) (.known htok (.const _)), hhere⟩
  · obtain ⟨s', hpeek, hhere⟩ := peek_of_begins hes h _ hb
    exact ⟨s', .start hpeek (fun n => by rw [parseargs]) (.const _), hhere⟩

/-- **The parts of a simple command**: redirections are taken wherever they stand among the arguments. -/
theorem parseargs_spec (items : List Item) (h : Here buf s (items.flatMap Item.toks ++ rest))
    (hrest : Follows ['|', ')', '&', ';'] rest) (argv : List (Nat × Nat))
    (acc : List Redir) (hlen : argv.length + (Item.args items).length ≤ 9) :
    ∃ acc₁ s₁ more rs s', Settles (fun n => parseredirs buf es n acc s) (.ok (acc₁, s₁)) ∧
      Settles (fun n => parseargs buf es n argv acc₁ s₁) (.ok (argv ++ more, acc ++ rs, s')) ∧
      Here buf s' rest ∧ more.Forall₂ (Spot buf) (Item.args items) ∧
      rs.Forall₂ (RedirFits buf) (Item.redirs items) := by
  induction items generalizing s argv acc with
  | nil =>
    obtain ⟨s₁, hset₁, h₁⟩ := parseredirs_stop hes h (hrest.begins_not (by decide)) acc
    obtain ⟨s', hset, hhere⟩ := parseargs_stop hes h₁ hrest argv acc
    exact ⟨acc, s₁, [], [], s', hset₁, by rwa [List.append_nil, List.append_nil], hhere, .nil, .nil⟩
  | cons i items ih =>
    cases i with
    | redir o w =>
      obtain ⟨r, s₂, hr, h₂, hturn⟩ := parseredirs_turn hes h acc
      obtain ⟨acc₁, s₁, more, rs, s', hset₁, hset, hhere, hmore, hrs⟩ := ih h₂ argv (acc ++ [r]) hlen
      rw [List.append_assoc, List.singleton_append] at hset
      exact ⟨acc₁, s₁, more, r :: rs, s', hturn _ hset₁, hset, hhere, hmore, .cons hr hrs⟩
    | arg w =>
      obtain ⟨s₁, hset₁, h₁⟩ := parseredirs_stop hes h (begins_word w _ _ (by decide)) acc
      obtain ⟨s₂, hpeek, h₂⟩ :=
        peek_of_begins hes h₁ ['|', ')', '&', ';'] (begins_word w _ _ (by decide))
      obtain ⟨q, eq, s₃, htok, h₃, hspot⟩ := gettoken_spec hes h₂ nofun
      have hlen' : argv.length + 1 + (Item.args items).length ≤ 9 := by
        rw [Item.args, List.length_cons] at hlen
        omega
      obtain ⟨acc₂, s₄, more, rs, s', hset₂, hset, hhere, hmore, hrs⟩ :=
        ih h₃ (argv ++ [(q, eq)]) acc (by rwa [List.length_append, List.length_singleton])
      rw [List.append_assoc, List.singleton_append] at hset
      refine ⟨acc, s₁, (q, eq) :: more, rs, s', hset₁, ?_, hhere, .cons (hspot w rfl) hmore, hrs⟩
      refine .start hpeek (fun n => by rw [parseargs]) (.known htok ?_)
      have hroom : ¬ argv.length + 1 ≥ MAXARGS := by
        rw [MAXARGS]
        omega
      simp only [hroom]
      exact hset₂.bind hset

end Loops

/-! ## The grammar, level by level -/

/-- What a function of the parser makes of tokens: it reads the command and leaves what follows. -/
def Takes (buf : List Char) (toks : List Char) (parse : Nat → Nat → Except Fault (Node × Nat)) (c : Cmd)
    (ts : List Tok) : Prop :=
  ∀ s rest, Here buf s (ts ++ rest) → Follows toks rest →
    ∃ node s', Settles (fun n => parse n s) (.ok (node, s')) ∧ Here buf s' rest ∧ Fits buf node c

/-- The loop of `parseline` over `&` takes up what comes before it. -/
def TakesBack (buf : List Char) (es : Nat) (c : Cmd) (ts : List Tok) : Prop :=
  ∀ s rest, Here buf s (ts ++ rest) → Follows [')', '&', ';'] rest →
    ∃ node s', (∀ b, Settles (fun n => parsebacks buf es n node s') b →
        Settles (fun n => parsepipe buf es n s >>= fun x => parsebacks buf es n x.1 x.2) b) ∧
      Here buf s' rest ∧ Fits buf node c

/-- **What each level promises.** -/
def Reads (buf : List Char) (es : Nat) : Level → Cmd → List Tok → Prop
  | .exec => Takes buf ['|', ')', '&', ';'] (parseexec buf es)
  | .pipe => Takes buf [')', '&', ';'] (parsepipe buf es)
  | .back => TakesBack buf es
  | .line => Takes buf [')'] (parseline buf es)

section Levels

variable {buf : List Char} {es : Nat} {a b c : Cmd} {ts us : List Tok}

theorem Follows.mono {toks toks' : List Char} {rest : List Tok} (h : Follows toks rest)
    (hsub : toks ⊆ toks') : Follows toks' rest := by
  refine h.imp_right fun hb => ?_
  rw [begins, Bool.and_eq_true, strchr, List.contains_iff_mem] at hb ⊢
  exact ⟨hb.1, hsub hb.2⟩

variable (hes : es + 1 = buf.length)
include hes

theorem reads_simple {argv : List Word} (items : List Item) (le : argv.length ≤ 9)
    (hargs : Item.args items = argv) :
    Reads buf es .exec ((Cmd.exec argv le).wrap (Item.redirs items)) (items.flatMap Item.toks) := by
  intro s rest h hrest
  have hb : begins ['('] (items.flatMap Item.toks ++ rest) = false := by
    cases items with
    | nil => exact hrest.begins_not (by decide)
    | cons i items =>
      cases i with
      | arg w => exact begins_word w _ _ (by decide)
      | redir o w => cases o <;> rfl
  obtain ⟨s₁, hpeek, h₁⟩ := peek_of_begins hes h _ hb
  subst hargs
  obtain ⟨acc, s₂, more, rs, s', hset₁, hset, hhere, hmore, hrs⟩ :=
    parseargs_spec hes items h₁ hrest [] [] (by simpa using le)
  refine ⟨(Node.exec more).wrap rs, s', ?_, hhere, (Fits.exec hmore).wrap hrs⟩
  refine .start hpeek (fun n => by rw [parseexec]) ?_
  exact hset₁.bind (hset.bind (.const _))

theorem reads_block (rs : List (Op × Word)) (ih : Reads buf es .line c ts) :
    Reads buf es .exec (c.wrap rs) (.lpar :: ts ++ .rpar :: redirToks rs) := by
  intro s rest h hrest
  have htoks : (Tok.lpar :: ts ++ .rpar :: redirToks rs) ++ rest =
      .lpar :: (ts ++ .rpar :: (redirToks rs ++ rest)) := by
    simp
  rw [htoks] at h
  obtain ⟨s₁, hpeek₁, h₁⟩ := peek_of_begins (b := true) hes h ['('] rfl
  obtain ⟨s₂, hpeek₂, h₂⟩ := peek_of_begins (b := true) hes h₁ ['('] rfl
  obtain ⟨q₁, e₁, s₃, htok₁, h₃, -⟩ := gettoken_spec hes h₂ nofun
  obtain ⟨node, s₄, hline, h₄, hfits⟩ := ih s₃ _ h₃ (.inr rfl)
  obtain ⟨s₅, hpeek₃, h₅⟩ := peek_of_begins (b := true) hes h₄ [')'] rfl
  obtain ⟨q₂, e₂, s₆, htok₂, h₆, -⟩ := gettoken_spec hes h₅ nofun
  obtain ⟨out, s', hset, hhere, hout⟩ :=
    parseredirs_spec hes rs h₆ (hrest.begins_not (by decide)) []
  refine ⟨node.wrap out, s', ?_, hhere, hfits.wrap hout⟩
  refine .start hpeek₁ (fun n => by rw [parseexec]) ?_
  change Settles (fun n => parseblock buf es n s₁) _
  refine .start hpeek₂ (fun n => by rw [parseblock]) (.known htok₁ (hline.bind (.known hpeek₃ ?_)))
  exact .known htok₂ (hset.bind (.const _))

theorem reads_alone (ih : Reads buf es .exec c ts) : Reads buf es .pipe c ts := by
  intro s rest h hrest
  obtain ⟨node, s₁, hset, h₁, hfits⟩ := ih s rest h (hrest.mono (by decide))
  obtain ⟨s', hpeek, hhere⟩ := peek_of_begins hes h₁ ['|'] (hrest.begins_not (by decide))
  exact ⟨node, s', .call hset (fun n => by rw [parsepipe]) (.known hpeek (.const _)), hhere, hfits⟩

theorem reads_pipe (iha : Reads buf es .exec a ts) (ihb : Reads buf es .pipe b us) :
    Reads buf es .pipe (.pipe a b) (ts ++ .bar :: us) := by
  intro s rest h hrest
  rw [List.append_assoc] at h
  obtain ⟨left, s₁, hleft, h₁, ha⟩ := iha s _ h (.inr rfl)
  obtain ⟨s₂, hpeek, h₂⟩ := peek_of_begins (b := true) hes h₁ ['|'] rfl
  obtain ⟨q, e, s₃, htok, h₃, -⟩ := gettoken_spec hes h₂ nofun
  obtain ⟨right, s', hright, hhere, hb⟩ := ihb s₃ rest h₃ hrest
  refine ⟨.pipe left right, s', ?_, hhere, ha.pipe hb⟩
  exact .call hleft (fun n => by rw [parsepipe])
    (.known hpeek (.known htok (hright.bind (.const _))))

omit hes in
theorem reads_fore (ih : Reads buf es .pipe c ts) : Reads buf es .back c ts := by
  intro s rest h hrest
  obtain ⟨node, s', hset, hhere, hfits⟩ := ih s rest h hrest
  exact ⟨node, s', fun b hb => hset.bind hb, hhere, hfits⟩

theorem reads_back (ih : Reads buf es .back c ts) : Reads buf es .back (.back c) (ts ++ [.amp]) := by
  intro s rest h hrest
  rw [List.append_assoc] at h
  obtain ⟨node, s₁, hset, h₁, hfits⟩ := ih s _ h (.inr rfl)
  obtain ⟨s₂, hpeek, h₂⟩ := peek_of_begins (b := true) hes h₁ ['&'] rfl
  obtain ⟨q, e, s', htok, hhere, -⟩ := gettoken_spec hes h₂ nofun
  refine ⟨.back node, s', fun b hb => hset b ?_, hhere, hfits.back⟩
  exact .start hpeek (fun n => by rw [parsebacks]) (.known htok hb)

/-- The front of a line: what comes before `;` or the end. -/
theorem parsebacks_front (ih : Reads buf es .back c ts) {s : Nat} {rest : List Tok}
    (h : Here buf s (ts ++ rest)) (hrest : Follows [')', ';'] rest) :
    ∃ node s', Settles (fun n => parsepipe buf es n s >>= fun x => parsebacks buf es n x.1 x.2)
        (.ok (node, s')) ∧ Here buf s' rest ∧ Fits buf node c := by
  obtain ⟨node, s₁, hset, h₁, hfits⟩ := ih s rest h (hrest.mono (by decide))
  obtain ⟨s', hpeek, hhere⟩ := peek_of_begins hes h₁ ['&'] (hrest.begins_not (by decide))
  exact ⟨node, s', hset _ (.start hpeek (fun n => by rw [parsebacks]) (.const _)), hhere, hfits⟩

omit hes in
/-- `parseline`, with its front put together. -/
theorem parseline_front (n s : Nat) : parseline buf es (n + 1) s =
    ((parsepipe buf es n s >>= fun x => parsebacks buf es n x.1 x.2) >>= fun x => (do
      let (more, s) ← peek buf es x.2 [';']
      if more then
        let (_, _, _, s) ← gettoken buf es s
        let (right, s) ← parseline buf es n s
        .ok (.list x.1 right, s)
      else .ok (x.1, s))) := by
  rw [parseline, bind_assoc]

theorem reads_last (ih : Reads buf es .back c ts) : Reads buf es .line c ts := by
  intro s rest h hrest
  obtain ⟨node, s₁, hset, h₁, hfits⟩ := parsebacks_front hes ih h (hrest.mono (by decide))
  obtain ⟨s', hpeek, hhere⟩ := peek_of_begins hes h₁ [';'] (hrest.begins_not (by decide))
  refine ⟨node, s', .call hset (fun n => parseline_front n s) (.known hpeek (.const _)), hhere, hfits⟩

theorem reads_list (iha : Reads buf es .back a ts) (ihb : Reads buf es .line b us) :
    Reads buf es .line (.list a b) (ts ++ .semi :: us) := by
  intro s rest h hrest
  rw [List.append_assoc] at h
  obtain ⟨left, s₁, hleft, h₁, ha⟩ := parsebacks_front hes iha h (.inr rfl)
  obtain ⟨s₂, hpeek, h₂⟩ := peek_of_begins (b := true) hes h₁ [';'] rfl
  obtain ⟨q, e, s₃, htok, h₃, -⟩ := gettoken_spec hes h₂ nofun
  obtain ⟨right, s', hright, hhere, hb⟩ := ihb s₃ rest h₃ hrest
  refine ⟨.list left right, s', ?_, hhere, ha.list hb⟩
  exact .call hleft (fun n => parseline_front n s)
    (.known hpeek (.known htok (hright.bind (.const _))))

/-- **The parser reads what a line says**, whatever command it is and however it is said. -/
theorem reads_of_renders {l : Level} (h : Renders l c ts) : Reads buf es l c ts := by
  induction h with
  | simple items le hargs => exact reads_simple hes items le hargs
  | block rs _ ih => exact reads_block hes rs ih
  | alone _ ih => exact reads_alone hes ih
  | pipe _ _ iha ihb => exact reads_pipe hes iha ihb
  | fore _ ih => exact reads_fore ih
  | back _ ih => exact reads_back hes ih
  | last _ ih => exact reads_last hes ih
  | list _ _ iha ihb => exact reads_list hes iha ihb

end Levels

end Xv6.Shell
