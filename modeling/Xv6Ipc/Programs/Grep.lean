import Mathlib.Computability.Language

/-!
# Programs/Grep — `grep`

The matcher first.  A pattern is a sequence of items, each a character or `.`, with or without a star; `^`
in front and `$` at the end tie the match to the ends of the text.  `matchhere` and `matchstar` try all ways
to read a prefix of the text as a word of that language:

    re = ^ i₁ i₂* i₃ $          text = a ++ w ++ b,   w ∈ lang i₁ * (lang i₂)∗ * lang i₃

Then the loop over the input.  It keeps an unfinished line for the next `read`, but only if the last one
brought a newline; otherwise it drops what it has of that line.
-/

namespace Xv6.Grep

open Computability

/-! ## The matcher -/

/-- A C string is the list of its characters, without the NUL. -/
abbrev CStr := List Char

mutual

/-- `matchhere`. -/
def matchhere : CStr → CStr → Bool
  | [], _ => true
  | c :: '*' :: re, text => matchstar c re text
  | ['$'], text => text.isEmpty
  | c :: re, x :: text => (c = '.' || c = x) && matchhere re text
  | _ :: _, [] => false
termination_by re text => (re.length, text.length, 0)

/-- `matchstar`. -/
def matchstar (c : Char) (re : CStr) : CStr → Bool
  | [] => matchhere re []
  | x :: text => matchhere re (x :: text) || ((x = c || c = '.') && matchstar c re text)
termination_by text => (re.length, text.length, 1)

end

/-- The loop of `match`. -/
def matchany (re : CStr) : CStr → Bool
  | [] => matchhere re []
  | x :: text => matchhere re (x :: text) || matchany re text

/-- `match`. -/
def matchText : CStr → CStr → Bool
  | '^' :: re, text => matchhere re text
  | re, text => matchany re text

/-! ## What patterns mean -/

/-- What an item without a star stands for. -/
def item (c : Char) : Language Char := {w | ∃ x, w = [x] ∧ (c = '.' ∨ x = c)}

/-- **The language of a pattern** behind its `^`, and whether it is tied to the end of the text. -/
def lang : CStr → Language Char × Bool
  | [] => (1, false)
  | c :: '*' :: re => ((item c)∗ * (lang re).1, (lang re).2)
  | ['$'] => (1, true)
  | c :: re => (item c * (lang re).1, (lang re).2)

/-- A prefix of the text is a word of the pattern. -/
def Begins (re text : CStr) : Prop :=
  ∃ w b, text = w ++ b ∧ w ∈ (lang re).1 ∧ ((lang re).2 = true → b = [])

variable {c x : Char} {re text : CStr}

theorem mem_star {u : CStr} : u ∈ (item c)∗ ↔ ∀ x ∈ u, c = '.' ∨ x = c := by
  rw [Language.mem_kstar]
  constructor
  · rintro ⟨L, rfl, hL⟩ x hx
    obtain ⟨w, hw, hxw⟩ := List.mem_flatten.mp hx
    obtain ⟨y, rfl, hy⟩ := hL w hw
    obtain rfl := List.mem_singleton.mp hxw
    exact hy
  · intro h
    refine ⟨u.map fun x => [x], (List.flatMap_singleton' u).symm, fun w hw => ?_⟩
    obtain ⟨x, hx, rfl⟩ := List.mem_map.mp hw
    exact ⟨x, rfl, h x hx⟩

/-- **`matchstar`** finds how far the star goes. -/
theorem matchstar_iff :
    matchstar c re text = true ↔ ∃ u v, text = u ++ v ∧ u ∈ (item c)∗ ∧ matchhere re v = true := by
  simp only [mem_star]
  induction text with
  | nil =>
    rw [matchstar]
    exact ⟨fun h => ⟨[], [], rfl, by simp, h⟩, fun ⟨u, v, he, _, hv⟩ => by simp_all⟩
  | cons x text ih =>
    rw [matchstar, Bool.or_eq_true, Bool.and_eq_true, ih]
    constructor
    · rintro (h | ⟨hx, u, v, rfl, hu, hv⟩)
      · exact ⟨[], x :: text, rfl, by simp, h⟩
      · refine ⟨x :: u, v, rfl, List.forall_mem_cons.mpr ⟨?_, hu⟩, hv⟩
        simpa [or_comm] using hx
    · rintro ⟨_ | ⟨y, u⟩, v, htext, hu, hv⟩
      · exact .inl (by rwa [htext])
      · obtain ⟨rfl, rfl⟩ := List.cons.inj htext
        obtain ⟨hx, hu⟩ := List.forall_mem_cons.mp hu
        exact .inr ⟨by simpa [or_comm] using hx, u, v, rfl, hu, hv⟩

/-- **`matchhere`** looks for the pattern at the beginning of the text. -/
theorem matchhere_iff : matchhere re text = true ↔ Begins re text := by
  induction re using lang.induct generalizing text with
  | case1 => simp [matchhere, Begins, lang, Language.mem_one]
  | case2 c re ih =>
    rw [matchhere, matchstar_iff, Begins, lang]
    simp only [ih, Begins, Language.mem_mul]
    constructor
    · rintro ⟨u, v, rfl, hu, w, b, rfl, hw, hb⟩
      exact ⟨u ++ w, b, (List.append_assoc ..).symm, ⟨u, hu, w, hw, rfl⟩, hb⟩
    · rintro ⟨_, b, rfl, ⟨u, hu, w, hw, rfl⟩, hb⟩
      exact ⟨u, w ++ b, List.append_assoc .., hu, w, b, rfl, hw, hb⟩
  | case3 => simp [matchhere, Begins, lang, Language.mem_one, List.isEmpty_iff]
  | case4 c re hstar hend ih =>
    have hitem : Begins (c :: re) text ↔ ∃ x t, text = x :: t ∧ (c = '.' ∨ x = c) ∧ Begins re t := by
      rw [Begins, lang.eq_4 _ _ hstar hend]
      constructor
      · rintro ⟨_, b, rfl, ⟨_, ⟨x, rfl, hx⟩, w, hw, rfl⟩, hb⟩
        exact ⟨x, w ++ b, rfl, hx, w, b, rfl, hw, hb⟩
      · rintro ⟨x, _, rfl, hx, w, b, rfl, hw, hb⟩
        exact ⟨x :: w, b, rfl, ⟨[x], ⟨x, rfl, hx⟩, w, hw, rfl⟩, hb⟩
    rw [hitem]
    cases text with
    | nil => simp [matchhere.eq_5 _ _ hstar hend]
    | cons x text => simp [matchhere.eq_4 _ _ _ _ hstar hend, ih, @eq_comm _ x c]

theorem matchany_iff :
    matchany re text = true ↔ ∃ a t, text = a ++ t ∧ matchhere re t = true := by
  induction text with
  | nil =>
    exact ⟨fun h => ⟨[], [], rfl, h⟩, fun ⟨a, t, he, ht⟩ => by simp_all [matchany]⟩
  | cons x text ih =>
    rw [matchany, Bool.or_eq_true, ih]
    constructor
    · rintro (h | ⟨a, t, rfl, ht⟩)
      · exact ⟨[], _, rfl, h⟩
      · exact ⟨x :: a, t, rfl, ht⟩
    · rintro ⟨_ | ⟨y, a⟩, t, htext, ht⟩
      · exact .inl (by rwa [htext])
      · obtain ⟨rfl, rfl⟩ := List.cons.inj htext
        exact .inr ⟨a, t, rfl, ht⟩

/-- A pattern without its `^`. -/
def body : CStr → CStr
  | '^' :: re => re
  | re => re

/-- **The matcher implements its language**: it finds a word of the pattern in the text, in front of it if
the pattern begins with `^`, at its end if the pattern ends with `$`. -/
theorem match_implements_patterns (re text : CStr) :
    matchText re text = true ↔ ∃ a w b, text = a ++ w ++ b ∧ w ∈ (lang (body re)).1
      ∧ (re.head? = some '^' → a = []) ∧ ((lang (body re)).2 = true → b = []) := by
  fun_cases body re with
  | case1 re =>
    rw [matchText, matchhere_iff]
    constructor
    · rintro ⟨w, b, rfl, hw, hb⟩
      exact ⟨[], w, b, rfl, hw, fun _ => rfl, hb⟩
    · rintro ⟨a, w, b, rfl, hw, ha, hb⟩
      obtain rfl := ha rfl
      exact ⟨w, b, rfl, hw, hb⟩
  | case2 re hre =>
    have hhead : re.head? ≠ some '^' := fun h => by
      obtain ⟨t, rfl⟩ := List.head?_eq_some_iff.mp h
      exact hre t rfl
    rw [matchText.eq_2 _ _ hre, matchany_iff]
    constructor
    · rintro ⟨a, _, rfl, ht⟩
      obtain ⟨w, b, rfl, hw, hb⟩ := matchhere_iff.mp ht
      exact ⟨a, w, b, (List.append_assoc ..).symm, hw, fun h => absurd h hhead, hb⟩
    · rintro ⟨a, w, b, rfl, hw, -, hb⟩
      exact ⟨a, w ++ b, List.append_assoc .., matchhere_iff.mpr ⟨w, b, rfl, hw, hb⟩⟩

/-! ## The loop -/

/-- `strchr(p, '\n')`: the text up to the newline, and what follows it. -/
def strchr : CStr → Option (CStr × CStr)
  | [] => none
  | x :: p =>
    if x = '\n' then some ([], p)
    else if x = '\x00' then none
    else (strchr p).map fun q => (x :: q.1, q.2)

variable {p l r buf last : CStr} {ts ls chunks : List CStr}

theorem strchr_some (h : strchr p = some (l, r)) : p = l ++ '\n' :: r ∧ '\n' ∉ l := by
  induction p generalizing l with
  | nil => exact nomatch h
  | cons x p ih =>
    rw [strchr] at h
    split at h
    · rename_i hx
      obtain ⟨rfl, rfl⟩ := Prod.mk.inj (Option.some.inj h)
      exact ⟨by rw [hx]; rfl, List.not_mem_nil⟩
    rename_i hx
    split at h
    · exact nomatch h
    obtain ⟨⟨l', r'⟩, hq, he⟩ := Option.map_eq_some_iff.mp h
    obtain ⟨rfl, rfl⟩ := Prod.mk.inj he
    obtain ⟨rfl, hl⟩ := ih hq
    exact ⟨rfl, List.not_mem_cons_of_ne_of_not_mem (Ne.symm hx) hl⟩

theorem strchr_none (h : strchr p = none) (hp : '\x00' ∉ p) : '\n' ∉ p := by
  induction p with
  | nil => exact List.not_mem_nil
  | cons x p ih =>
    obtain ⟨hx, hp⟩ := List.ne_and_not_mem_of_not_mem_cons hp
    rw [strchr, if_neg (Ne.symm hx)] at h
    split at h
    · exact nomatch h
    rename_i hn
    exact List.not_mem_cons_of_ne_of_not_mem (Ne.symm hn) (ih (Option.map_eq_none_iff.mp h) hp)

/-- The inner loop: the lines it hands to `match`, and the buffer from `p` on. -/
def scan (p : CStr) : List CStr × CStr :=
  match _h : strchr p with
  | none => ([], p)
  | some (l, r) => (l :: (scan r).1, (scan r).2)
termination_by p.length
decreasing_by
  all_goals
    rw [(strchr_some _h).1, List.length_append, List.length_cons]
    omega

/-- What is kept of the buffer for the next turn: nothing, if `p` has not moved. -/
def kept (buf : CStr) : CStr := if (scan buf).2.length = buf.length then [] else (scan buf).2

/-- **A run of `grep`** on the chunks that `read` brings, each of at least one byte and as many as there is
room for, and the lines it hands to `match`. -/
inductive Run : CStr → List CStr → List CStr → Prop
  | done (buf : CStr) : Run buf [] []
  | read {buf chunk : CStr} {chunks ts : List CStr} (some : chunk ≠ [])
      (room : buf.length + chunk.length ≤ 1023) (rest : Run (kept (buf ++ chunk)) chunks ts) :
      Run buf (chunk :: chunks) ((scan (buf ++ chunk)).1 ++ ts)

/-- Lines with their newlines. -/
def join (ls : List CStr) : CStr := ls.flatMap (· ++ ['\n'])

/-- What is written for lines that are handed to `match`. -/
def written (re : CStr) (ts : List CStr) : CStr := join (ts.filter (matchText re))

theorem join_cons (l : CStr) (ls : List CStr) (r : CStr) :
    join (l :: ls) ++ r = l ++ '\n' :: (join ls ++ r) := by
  simp [join]

/-- What the inner loop finds is all there is. -/
theorem scan_spec (hp : '\x00' ∉ p) :
    p = join (scan p).1 ++ (scan p).2 ∧ (∀ l ∈ (scan p).1, '\n' ∉ l) ∧ '\n' ∉ (scan p).2 := by
  fun_induction scan p with
  | case1 p h => exact ⟨rfl, List.forall_mem_nil _, strchr_none h hp⟩
  | case2 p l r h ih =>
    obtain ⟨rfl, hl⟩ := strchr_some h
    obtain ⟨hr, hls, hlast⟩ := ih fun hmem => hp (by simp [hmem])
    exact ⟨by rw [join_cons, ← hr], List.forall_mem_cons.mpr ⟨hl, hls⟩, hlast⟩

/-- …and can be found in it again. -/
theorem splitOn_join (hls : ∀ l ∈ ls, '\n' ∉ l) (hr : '\n' ∉ r) :
    (join ls ++ r).splitOn '\n' = ls ++ [r] := by
  have hjoin : join ls ++ r = ['\n'].intercalate (ls ++ [r]) := by
    clear hls
    induction ls with
    | nil => simp [join]
    | cons l ls ih =>
      rw [join_cons, ih, List.cons_append, List.intercalate_cons_of_ne_nil (by simp)]
      simp
  rw [hjoin]
  exact List.splitOn_intercalate _
    (List.forall_mem_append.mpr ⟨hls, List.forall_mem_singleton.mpr hr⟩) (by simp)

/-- **What a run makes of its input**: if every chunk has a newline, all lines in it; otherwise something is
lost. -/
theorem Run.lines (h : Run buf chunks ts) (hnul : '\x00' ∉ buf ++ chunks.flatten) (hbuf : '\n' ∉ buf) :
    (∀ l ∈ ts, '\n' ∉ l) ∧ (((∀ c ∈ chunks, '\n' ∈ c)
        ∧ ∃ r, '\n' ∉ r ∧ buf ++ chunks.flatten = join ts ++ r)
      ∨ (∃ c ∈ chunks, '\n' ∉ c) ∧ (join ts).length < (buf ++ chunks.flatten).length) := by
  induction h with
  | done buf => exact ⟨List.forall_mem_nil _, .inl ⟨List.forall_mem_nil _, buf, hbuf, List.append_nil _⟩⟩
  | @read buf chunk chunks ts hne _ _ ih =>
    rw [List.flatten_cons, ← List.append_assoc] at hnul ⊢
    obtain ⟨htext, hpl, hp⟩ := scan_spec fun hmem => hnul (List.mem_append_left _ hmem)
    rw [kept] at ih
    generalize scan (buf ++ chunk) = q at *
    obtain ⟨pl, p⟩ := q
    dsimp only at htext hpl hp ih ⊢
    have hjoin : join (pl ++ ts) = join pl ++ join ts := List.flatMap_append
    have hlen := congrArg List.length htext
    rw [List.length_append] at hlen
    rw [List.forall_mem_append, hjoin, List.length_append]
    cases pl with
    | nil =>
      obtain rfl : buf ++ chunk = p := htext
      have hc : '\n' ∉ chunk := fun hmem => hp (List.mem_append_right _ hmem)
      have hpos := List.length_pos_iff.mpr hne
      rw [if_pos rfl] at ih
      obtain ⟨hts, hrest⟩ := ih (fun hmem => hnul (List.mem_append_right _ hmem)) List.not_mem_nil
      refine ⟨⟨hpl, hts⟩, .inr ⟨⟨chunk, List.mem_cons_self, hc⟩, ?_⟩⟩
      rw [List.length_append, List.length_append]
      rcases hrest with ⟨-, r, -, hr⟩ | ⟨-, hlt⟩
      · have hle := congrArg List.length hr
        simp [join] at hle ⊢
        omega
      · simp [join] at hlt ⊢
        omega
    | cons l pl =>
      have hmem : '\n' ∈ buf ++ chunk := by
        rw [htext, join_cons]
        simp
      have hc : '\n' ∈ chunk := (List.mem_append.mp hmem).resolve_left hbuf
      have hmoved : p.length ≠ (buf ++ chunk).length := by
        rw [htext, join_cons, List.length_append, List.length_cons, List.length_append]
        omega
      rw [if_neg hmoved] at ih
      rw [htext, List.append_assoc] at hnul ⊢
      obtain ⟨hts, hrest⟩ := ih (fun hmem => hnul (List.mem_append_right _ hmem)) hp
      refine ⟨⟨hpl, hts⟩, ?_⟩
      rcases hrest with ⟨hall, r, hr, he⟩ | ⟨⟨c, hmem', hc'⟩, hlt⟩
      · exact .inl ⟨List.forall_mem_cons.mpr ⟨hc, hall⟩, r, hr, by rw [he, List.append_assoc]⟩
      · exact .inr ⟨⟨c, List.mem_cons_of_mem _ hmem', hc'⟩, by rw [List.length_append]; omega⟩

/-- **When `grep` writes the matching lines.**  It does so for every pattern exactly if every `read` brings a
newline and the input ends with one. -/
theorem grep_writes_matching_iff (hr : Run [] chunks ts) (hnul : '\x00' ∉ chunks.flatten)
    (hls : ∀ l ∈ ls, '\n' ∉ l) (hlast : '\n' ∉ last) (hin : chunks.flatten = join ls ++ last) :
    (∀ re, written re ts = written re ls ++ if matchText re last then last else [])
      ↔ (∀ c ∈ chunks, '\n' ∈ c) ∧ last = [] := by
  obtain ⟨hts, hrun⟩ := hr.lines hnul List.not_mem_nil
  rw [List.nil_append] at hrun
  constructor
  · intro h
    -- the empty pattern matches every line
    have hmatch : ∀ l, matchText [] l = true := fun l => by
      cases l <;> simp [matchText, matchany, matchhere]
    have hwritten : ∀ ts, written [] ts = join ts := fun ts => by
      rw [written, List.filter_eq_self.mpr fun l _ => hmatch l]
    have hjoin : join ts = join ls ++ last := by simpa only [hwritten, hmatch, if_pos] using h []
    have hsplit := splitOn_join hts List.not_mem_nil
    rw [List.append_nil, hjoin, splitOn_join hls hlast] at hsplit
    refine ⟨(hrun.resolve_right fun hlost => ?_).1, List.singleton_inj.mp (List.append_inj' hsplit rfl).2⟩
    rw [hin, ← hjoin] at hlost
    exact Nat.lt_irrefl _ hlost.2
  · rintro ⟨hall, rfl⟩ re
    rcases hrun with ⟨-, r, hr', he⟩ | ⟨⟨c, hc, hno⟩, -⟩
    · have hsplit := splitOn_join hts hr'
      rw [← he, hin, splitOn_join hls List.not_mem_nil] at hsplit
      rw [(List.append_inj' hsplit rfl).1, ite_self, List.append_nil]
    · exact absurd (hall c hc) hno

theorem grep_writes_matching_iff_line :
    ∃ ts, Run [] [['a', '\n']] ts
      ∧ ∀ re, written re ts = written re [['a']] ++ if matchText re [] then [] else [] := by
  have hr : Run [] [['a', '\n']] _ := .read (by decide) (by decide) (.done _)
  exact ⟨_, hr, (grep_writes_matching_iff hr (by decide) (by decide) (by decide) rfl).mpr ⟨by decide, rfl⟩⟩

/-- `grep a` writes the line `ab` if it arrives at once, but not if its `a` arrives first. -/
theorem grep_depends_on_reads :
    ∃ chunks chunks' ts ts', chunks.flatten = chunks'.flatten ∧ Run [] chunks ts ∧ Run [] chunks' ts'
      ∧ written ['a'] ts ≠ written ['a'] ts' := by
  refine ⟨[['a', 'b', '\n']], [['a'], ['b', '\n']], _, _, rfl, .read (by decide) (by decide) (.done _),
    .read (by decide) (by decide) (.read (by decide) ?_ (.done _)), ?_⟩
  · simp [kept, scan, strchr]
  · simp [kept, scan, strchr, written, join, matchText, matchany, matchhere]

end Xv6.Grep
