import Xv6Ipc.Shell.Render

/-!
# Shell/Lex — reading tokens

The parser sees a line through `peek` and `gettoken` only.  Where the text ahead is written-down tokens,
the one tells how the first of them begins and the other takes it off:

    Here buf s (t :: ts) ──gettoken──▸ Here buf s' ts

White space is skipped on both sides, so it does not matter how much of it has been passed.
-/

namespace Xv6.Shell

/-- **The tokens ahead**: from `s` on the buffer holds their text and the NUL of the line. -/
def Here (buf : List Char) (s : Nat) (ts : List Tok) : Prop :=
  ∃ txt, Text ts txt ∧ buf.drop s = txt ++ ['\x00']

/-- How the tokens ahead begin. -/
def lead : List Tok → Char
  | [] => '\x00'
  | t :: _ => t.chars.headD '\x00'

/-- Whether they begin with one of `toks`. -/
def begins (toks : List Char) (ts : List Tok) : Bool := lead ts ≠ '\x00' && strchr toks (lead ts)

/-- What `gettoken` calls a token. -/
def Tok.code : Tok → Char
  | word _ => 'a'
  | op .less => '<'
  | op .greater => '>'
  | op .append => '+'
  | bar => '|'
  | amp => '&'
  | semi => ';'
  | lpar => '('
  | rpar => ')'

/-- **Where a word stands in the buffer**, with something behind it that ends it. -/
def Spot (buf : List Char) (p : Nat × Nat) (w : Word) : Prop :=
  p.2 = p.1 + w.chars.length ∧ ∃ c rest, buf.drop p.1 = w.chars ++ c :: rest ∧ plain c = false

/-! ## Characters of a text -/

section Chars

variable {c : Char}

theorem not_plain_iff :
    plain c = false ↔ c = '\x00' ∨ strchr whitespace c = true ∨ strchr symbols c = true := by
  simp only [plain, Bool.and_eq_false_iff, Bool.not_eq_false', decide_eq_false_iff_not, ne_eq, not_not,
    or_assoc]

theorem plain_iff :
    plain c = true ↔ c ≠ '\x00' ∧ strchr whitespace c = false ∧ strchr symbols c = false := by
  simp only [plain, Bool.and_eq_true, Bool.not_eq_true', decide_eq_true_eq, and_assoc]

theorem blank_ne_nul (h : strchr whitespace c = true) : c ≠ '\x00' := by
  rintro rfl
  exact absurd h (by decide)

/-- A token begins with a character that is neither white space nor NUL. -/
theorem Tok.chars_eq (t : Tok) : ∃ c l, t.chars = c :: l ∧ c ≠ '\x00' ∧ strchr whitespace c = false := by
  cases t with
  | word w =>
    obtain ⟨c, l, hw⟩ := List.exists_cons_of_ne_nil w.ne_nil
    have hc := w.plain c (hw ▸ List.mem_cons_self)
    refine ⟨c, l, hw, ?_, ?_⟩
    · rintro rfl
      exact absurd hc (by decide)
    · exact (plain_iff.mp hc).2.1
  | op o => cases o <;> exact ⟨_, _, rfl, by decide, by decide⟩
  | bar | amp | semi | lpar | rpar => exact ⟨_, _, rfl, by decide, by decide⟩

theorem Tok.nul_notMem (t : Tok) : '\x00' ∉ t.chars := by
  cases t with
  | word w => exact fun h => absurd (w.plain _ h) (by decide)
  | op o => cases o <;> decide
  | bar | amp | semi | lpar | rpar => decide

theorem Text.nul_notMem {ts : List Tok} {txt : List Char} (h : Text ts txt) : '\x00' ∉ txt := by
  induction h with
  | nil hgap => exact fun h => blank_ne_nul (hgap _ h) rfl
  | cons hgap hsep hrest ih =>
    intro h
    rcases List.mem_append.mp h with h | h
    · exact blank_ne_nul (hgap _ h) rfl
    rcases List.mem_append.mp h with h | h
    · exact Tok.nul_notMem _ h
    · exact ih h

end Chars

/-! ## Scanning -/

section Scan

variable {buf l rest : List Char} {es s n : Nat} {p : Char → Bool} {c : Char}

theorem read_of_drop (h : buf.drop s = c :: l) : read buf s = .ok c := by
  have hget : buf[s]? = some c := by
    rw [← List.head?_drop, h]
    rfl
  rw [read, hget]

theorem drop_add (h : buf.drop s = l ++ rest) : buf.drop (s + l.length) = rest := by
  rw [← List.drop_drop, h, List.drop_left]

theorem scanFrom_of_drop (h : buf.drop s = l ++ (rest ++ ['\x00'])) (hn : n = l.length + rest.length)
    (hl : ∀ c ∈ l, p c = true) (hstop : ∀ c ∈ rest.head?, p c = false) :
    scanFrom p buf n s = .ok (s + l.length) := by
  induction l generalizing s n with
  | nil =>
    cases rest with
    | nil =>
      obtain rfl : n = 0 := hn
      rfl
    | cons c rest =>
      obtain rfl : n = rest.length + 1 := by rw [hn, List.length_nil, List.length_cons, Nat.zero_add]
      have hread : read buf s = .ok c := read_of_drop h
      rw [scanFrom, hread]
      change (if p c then _ else _) = _
      rw [hstop c rfl]
      rfl
  | cons c l ih =>
    obtain ⟨k, rfl⟩ : ∃ k, n = k + 1 := ⟨l.length + rest.length, by rw [hn, List.length_cons]; omega⟩
    obtain ⟨hc, hl⟩ := List.forall_mem_cons.mp hl
    have hread : read buf s = .ok c := read_of_drop h
    rw [scanFrom, hread]
    change (if p c then _ else _) = _
    have hnext : buf.drop (s + 1) = l ++ (rest ++ ['\x00']) := drop_add (l := [c]) h
    rw [List.length_cons] at hn
    rw [hc, if_pos rfl, ih hnext (by omega) hl, List.length_cons]
    congr 1
    omega

variable (hes : es + 1 = buf.length)
include hes

/-- A scan passes what it is to pass, and stops there. -/
theorem scan_of_drop (h : buf.drop s = l ++ (rest ++ ['\x00'])) (hl : ∀ c ∈ l, p c = true)
    (hstop : ∀ c ∈ rest.head?, p c = false) : scan p buf es s = .ok (s + l.length) := by
  have hlen := congrArg List.length h
  rw [List.length_drop, List.length_append, List.length_append, List.length_singleton] at hlen
  exact scanFrom_of_drop h (by omega) hl hstop

end Scan

/-! ## `peek` and `gettoken` -/

section Tokens

variable {buf : List Char} {es s : Nat} {t : Tok} {ts : List Tok}

theorem Text.head_ne_gt {txt : List Char} (h : Text ts txt) (hlead : lead ts ≠ '>') :
    ∀ c ∈ (txt ++ ['\x00']).head?, c ≠ '>' := by
  cases h with
  | nil hgap =>
    cases txt with
    | nil => simp
    | cons d txt =>
      rintro c ⟨⟩ rfl
      exact absurd (hgap _ List.mem_cons_self) (by decide)
  | @cons gap t ts rest hgap hsep hrest =>
    obtain ⟨d, l, ht, -⟩ := t.chars_eq
    cases gap with
    | nil =>
      rintro c hc rfl
      rw [ht] at hc
      rw [lead, ht] at hlead
      exact hlead (Option.some.inj hc)
    | cons e gap =>
      rintro c ⟨⟩ rfl
      exact absurd (hgap _ List.mem_cons_self) (by decide)

/-- The text ahead, without the white space before it. -/
theorem Here.skip (hes : es + 1 = buf.length) (h : Here buf s ts) :
    ∃ q txt, scan (strchr whitespace) buf es s = .ok q ∧ buf.drop q = txt ++ ['\x00'] ∧ Text ts txt ∧
      (ts = [] → txt = []) ∧
      ∀ t ts', ts = t :: ts' → ∃ rest, txt = t.chars ++ rest ∧ Text ts' rest ∧
        ∀ w, t = .word w → ∀ c ∈ rest.head?, plain c = false := by
  obtain ⟨txt, htext, hdrop⟩ := h
  cases htext with
  | nil hgap =>
    have hdrop' : buf.drop s = txt ++ ([] ++ ['\x00']) := hdrop
    exact ⟨_, [], scan_of_drop hes hdrop' hgap (by simp), drop_add hdrop', .nil (by simp [Blank]),
      fun _ => rfl, fun _ _ h => nomatch h⟩
  | @cons gap t ts rest hgap hsep hrest =>
    obtain ⟨c, l, ht, -, hc⟩ := t.chars_eq
    have hdrop' : buf.drop s = gap ++ ((t.chars ++ rest) ++ ['\x00']) := by
      rw [hdrop, List.append_assoc]
    refine ⟨_, t.chars ++ rest, scan_of_drop hes hdrop' hgap ?_, drop_add hdrop', ?_,
      fun h => (nomatch h), ?_⟩
    · rw [ht]
      rintro d ⟨⟩
      exact hc
    · exact show Text (t :: ts) ([] ++ (t.chars ++ rest)) from .cons (by simp [Blank]) hsep hrest
    · rintro _ _ ⟨⟩
      exact ⟨rest, rfl, hrest, hsep⟩

/-- **`peek`** tells how the tokens ahead begin. -/
theorem peek_spec (hes : es + 1 = buf.length) (h : Here buf s ts) (toks : List Char) :
    ∃ s', peek buf es s toks = .ok (begins toks ts, s') ∧ Here buf s' ts ∧ (ts = [] → s' = es) := by
  obtain ⟨q, txt, hscan, hdrop, htext, hnil, hcons⟩ := h.skip hes
  have hread : read buf q = .ok (lead ts) := by
    cases ts with
    | nil => exact read_of_drop (by rw [hdrop, hnil rfl]; rfl)
    | cons t ts =>
      obtain ⟨rest, rfl, -⟩ := hcons t ts rfl
      obtain ⟨c, l, ht, -⟩ := t.chars_eq
      rw [ht, List.cons_append, List.cons_append] at hdrop
      rw [lead, ht]
      exact read_of_drop hdrop
  refine ⟨q, ?_, ⟨txt, htext, hdrop⟩, fun hts => ?_⟩
  · rw [peek, hscan]
    change (read buf q >>= _) = _
    rw [hread]
    rfl
  · have hlen := congrArg List.length hdrop
    rw [hnil hts, List.length_drop, List.nil_append, List.length_singleton] at hlen
    omega

theorem peek_of_begins (hes : es + 1 = buf.length) (h : Here buf s ts) (toks : List Char) {b : Bool}
    (hb : begins toks ts = b) : ∃ s', peek buf es s toks = .ok (b, s') ∧ Here buf s' ts := by
  obtain ⟨s', hpeek, hhere, -⟩ := peek_spec hes h toks
  exact ⟨s', hb ▸ hpeek, hhere⟩

/-- The `switch` of `gettoken`, at a token. -/
theorem tokenAt_spec (hes : es + 1 = buf.length) {q : Nat} {c : Char} {l rest : List Char}
    (ht : t.chars = c :: l) (hdrop : buf.drop q = t.chars ++ rest ++ ['\x00']) (htext : Text ts rest)
    (hsep : ∀ w, t = .word w → ∀ c ∈ rest.head?, plain c = false)
    (hgt : t = .op .greater → lead ts ≠ '>') :
    tokenAt buf es q c = .ok (t.code, q + t.chars.length) := by
  cases t with
  | word w =>
    have hplain : ∀ d ∈ w.chars, plain d = true := w.plain
    have hc := hplain c (show c ∈ (Tok.word w).chars from ht ▸ List.mem_cons_self)
    have hscan : scan (fun c => !strchr whitespace c && !strchr symbols c) buf es q =
        .ok (q + w.chars.length) := by
      refine scan_of_drop hes (hdrop.trans (List.append_assoc _ _ _)) (fun d hd => ?_) fun d hd => ?_
      · obtain ⟨-, hw, hs⟩ := plain_iff.mp (hplain d hd)
        simp [hw, hs]
      · have hne : d ≠ '\x00' := by
          rintro rfl
          exact htext.nul_notMem (List.mem_of_mem_head? hd)
        rcases not_plain_iff.mp (hsep w rfl d hd) with h | h | h
        · exact absurd h hne
        · simp [h]
        · simp [h]
    unfold tokenAt
    split
    case h_9 =>
      rw [hscan]
      rfl
    all_goals exact absurd hc (by decide)
  | op o =>
    cases o with
    | less =>
      obtain ⟨rfl, rfl⟩ := List.cons.inj ht
      rfl
    | greater =>
      obtain ⟨rfl, rfl⟩ := List.cons.inj ht
      -- one character more is read: it is not a second `>`
      have hnext : buf.drop (q + 1) = rest ++ ['\x00'] := drop_add (l := ['>']) hdrop
      obtain ⟨d, l, hd⟩ := List.exists_cons_of_ne_nil (l := rest ++ ['\x00']) (by simp)
      have hne := htext.head_ne_gt (hgt rfl) d (by rw [hd]; rfl)
      change (read buf (q + 1) >>= _) = _
      rw [read_of_drop (hnext.trans hd)]
      exact if_neg hne
    | append =>
      obtain ⟨rfl, rfl⟩ := List.cons.inj ht
      have hnext : buf.drop (q + 1) = '>' :: (rest ++ ['\x00']) := drop_add (l := ['>']) hdrop
      change (read buf (q + 1) >>= _) = _
      rw [read_of_drop hnext]
      rfl
  | bar | amp | semi | lpar | rpar =>
    obtain ⟨rfl, rfl⟩ := List.cons.inj ht
    rfl

/-- **`gettoken`** takes off the first token. -/
theorem gettoken_spec (hes : es + 1 = buf.length) (h : Here buf s (t :: ts))
    (hgt : t = .op .greater → lead ts ≠ '>') :
    ∃ q eq s', gettoken buf es s = .ok (t.code, q, eq, s') ∧ Here buf s' ts ∧
      ∀ w, t = .word w → Spot buf (q, eq) w := by
  obtain ⟨q, txt, hscan, hdrop, -, -, hcons⟩ := h.skip hes
  obtain ⟨rest, rfl, htext, hsep⟩ := hcons t ts rfl
  obtain ⟨c, l, ht, -⟩ := t.chars_eq
  have hread : read buf q = .ok c := by
    refine read_of_drop (l := l ++ (rest ++ ['\x00'])) ?_
    rw [hdrop, ht, List.cons_append, List.cons_append, List.append_assoc]
  have hnext : buf.drop (q + t.chars.length) = rest ++ ['\x00'] :=
    drop_add (hdrop.trans (List.append_assoc _ _ _))
  obtain ⟨s', txt', hscan', hdrop', htext', -⟩ := Here.skip hes ⟨rest, htext, hnext⟩
  refine ⟨q, q + t.chars.length, s', ?_, ⟨txt', htext', hdrop'⟩, ?_⟩
  · rw [gettoken, hscan]
    change (read buf q >>= _) = _
    rw [hread]
    change (tokenAt buf es q c >>= _) = _
    rw [tokenAt_spec hes ht hdrop htext hsep hgt]
    change (scan _ buf es _ >>= _) = _
    rw [hscan']
    rfl
  · rintro w rfl
    refine ⟨rfl, ?_⟩
    rw [hdrop, List.append_assoc]
    cases rest with
    | nil => exact ⟨'\x00', [], rfl, by decide⟩
    | cons d rest => exact ⟨d, rest ++ ['\x00'], rfl, hsep w rfl d rfl⟩

/-- At the end of the line there is nothing to take off. -/
theorem gettoken_end (hes : es + 1 = buf.length) (h : Here buf s []) :
    ∃ q s', gettoken buf es s = .ok ('\x00', q, q, s') ∧ Here buf s' [] := by
  obtain ⟨q, txt, hscan, hdrop, htext, hnil, -⟩ := h.skip hes
  obtain ⟨s', txt', hscan', hdrop', htext', -⟩ := Here.skip hes ⟨txt, htext, hdrop⟩
  have hread : read buf q = .ok '\x00' := read_of_drop (by rw [hdrop, hnil rfl]; rfl)
  refine ⟨q, s', ?_, txt', htext', hdrop'⟩
  rw [gettoken, hscan]
  change (read buf q >>= _) = _
  rw [hread]
  change (scan _ buf es _ >>= _) = _
  rw [hscan']
  rfl

end Tokens

end Xv6.Shell
