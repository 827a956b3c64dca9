import Xv6Ipc.Descriptors.Pipes

/-!
# Descriptors/Accounts — the accounts of open files

When no process is in the middle of a call, every count is a number of descriptors, every descriptor
leads to an open file, and the pages of pipes are those that descriptors lead to.  In between, nothing
panics, and no page is used that has been freed:

    Counted  ∧  Piped  ∧  Forks     at every step
    Accounted                       where processes are at rest

A call that fails has put everything back.
-/

namespace Xv6.Fd

open Runs Tally

variable {s s' s₀ t : State} {e : Event} {es : List Event} {p q r : Slot} {x x' : Proc} {a : Act}
  {T T' : Tables} {f g : FileId} {fd : Fin NOFILE} {i : Nat} {b : Page} {w : Bool}

/-! ## At rest -/

/-- A process that is in no call, or reads or writes a pipe. -/
def Pc.AtRest : Pc → Prop
  | .user | .pipeio _ _ _ | .zombie | .unused => True
  | _ => False

/-- **A boundary of system calls**: nobody is in the middle of one that changes references. -/
def Quiet (s : State) : Prop := ∀ p, (s.proc p).pc.AtRest

/-- How many descriptors of all processes lead to a file. -/
def State.entries (s : State) (f : FileId) : Nat :=
  (Finset.univ.filter fun x : Slot × Fin NOFILE => (s.proc x.1).ofile x.2 = some f).card

/-- At rest a process has nothing in hand. -/
theorem Pc.AtRest.clear {k : Pc} (h : k.AtRest) : k.inflight = [] ∧ k.hidden = none ∧ k.ends = []
    ∧ k.frees = none ∧ ∀ f fd, k ≠ .naming f fd := by
  cases k with
  | user | pipeio | zombie | unused => exact ⟨rfl, rfl, rfl, rfl, nofun⟩
  | _ => exact h.elim

theorem counted_of_atRest (h : (s.proc p).pc.AtRest) : (s.proc p).counted = (s.proc p).ofile :=
  Proc.counted_of_none h.clear.2.1

/-! ## The accounts -/

/-- **Open files and pipes are accounted for.** -/
structure Accounted (s : State) : Prop where
  owned : ∀ f, (s.tables.file f).ref = ∑ p, (s.proc p).own f
  ref : Quiet s → ∀ f, (s.tables.file f).ref = s.entries f
  used : ∀ p fd f, (s.proc p).pc.AtRest → (s.proc p).ofile fd = some f → 0 < (s.tables.file f).ref
    ∧ ∀ b w, (s.tables.file f).token = some (b, w) → s.tables.page b ≠ none
  page : Quiet s → ∀ b, s.tables.page b ≠ none ↔
    ∃ p fd f w, (s.proc p).ofile fd = some f ∧ (s.tables.file f).token = some (b, w)
  free : ∀ p b x, Move (s.proc p) (.kfree b) x →
    s.tables.page b = some ⟨false, false⟩ ∧ ∀ f w, (s.tables.file f).token ≠ some (b, w)
  safe : ∀ p a x, Move (s.proc p) a x → ¬ Faults s.tables a
  copy : ∀ p q f fd, (s.proc p).pc = .fork q fd.val → (s.proc p).ofile fd = some f →
    s.tables.filedup f ≠ none

/-- A file is an end that is open. -/
theorem Piped.opens_of_token (h : Piped s) (hf : (s.tables.file f).token = some (b, w)) :
    0 < s.tables.opens (b, w) := by
  have hpos : 0 < s.tables.tokens (b, w) := places_pos hf
  rw [h.ends]
  exact Nat.add_pos_left hpos _

/-- …of a page that is there. -/
theorem Piped.page_of_token (h : Piped s) (hf : (s.tables.file f).token = some (b, w)) :
    s.tables.page b ≠ none := by
  obtain ⟨x, hx, -⟩ := Tables.opens_pos (h.opens_of_token hf)
  rw [hx]
  exact nofun

/-- At rest, a page is there because a descriptor leads to it. -/
theorem Piped.descriptor_of_page (h : Piped s) (hc : Counted s) (hq : Quiet s)
    (href : ∀ f, (s.tables.file f).ref = s.entries f) (hb : s.tables.page b ≠ none) :
    ∃ p fd f w, (s.proc p).ofile fd = some f ∧ (s.tables.file f).token = some (b, w) := by
  obtain ⟨x, hx⟩ := Option.ne_none_iff_exists'.mp hb
  have hfrees : s.tables.shut b = 0 := by
    rw [h.frees]
    exact Finset.sum_eq_zero fun p _ => by rw [(hq p).clear.2.2.2.1, mark_none]
  -- one of its ends is open, and no process is about to shut it
  obtain ⟨w, hw⟩ : ∃ w, x.isOpen w = true := by
    by_contra hno
    push Not at hno
    obtain ⟨ro, wo⟩ := x
    have hro : ro = false := Bool.eq_false_of_not_eq_true (hno false)
    have hwo : wo = false := Bool.eq_false_of_not_eq_true (hno true)
    rw [Tables.shut, if_pos (by rw [hx, hro, hwo])] at hfrees
    exact Nat.one_ne_zero hfrees
  have hends := h.ends (b, w)
  rw [Tables.opens_some hx, if_pos hw, Finset.sum_eq_zero fun p _ => by
    rw [(hq p).clear.2.2.1, List.count_nil], Nat.add_zero] at hends
  obtain ⟨f, hf⟩ := exists_of_places (g := fun f => (s.tables.file f).token) (a := (b, w))
    (Nat.lt_of_lt_of_eq Nat.one_pos hends)
  have hpos : 0 < s.entries f := by
    rw [← href]
    refine Nat.pos_of_ne_zero fun hzero => ?_
    rw [Does.token_of_none (hc.free f hzero)] at hf
    cases hf
  rw [State.entries] at hpos
  obtain ⟨y, hy⟩ := exists_of_card hpos
  exact ⟨y.1, y.2, f, w, hy, hf⟩

theorem filedup_ne_none (h : 0 < (T.file f).ref) : T.filedup f ≠ none := by
  rw [Tables.filedup, if_neg (Nat.not_lt.mpr h)]
  rintro ⟨⟩

theorem fileclose_ne_none (h : 0 < (T.file f).ref) : T.fileclose f ≠ none := by
  rw [Tables.fileclose, if_neg (Nat.not_lt.mpr h)]
  split <;> rintro ⟨⟩

theorem io_ne_none (h : (T.file f).type ≠ .none) : T.io f w ≠ none := by
  rw [Tables.io]
  by_cases hperm : (if w then (T.file f).writable else (T.file f).readable) = false
  · rw [if_pos hperm]
    rintro ⟨⟩
  · rw [if_neg hperm]
    cases ht : (T.file f).type with
    | pipe | inode => rintro ⟨⟩
    | none => exact absurd ht h

theorem typed_of_user (hpc : x.pc = .user) (hfd : x.ofile fd = some f) : x.Typed f := by
  refine .inl ⟨fd, ?_, by rw [hpc]; exact nofun⟩
  rw [Proc.counted_of_none (congrArg Pc.hidden hpc)]
  exact hfd

/-- A page both of whose ends are shut. -/
theorem page_of_shut (h : 0 < T.shut b) : T.page b = some ⟨false, false⟩ := by
  by_contra hne
  rw [Tables.shut, if_neg hne] at h
  exact Nat.lt_irrefl 0 h

/-- **Nothing panics, and no page is used that has been freed.** -/
theorem not_faults (hc : Counted s) (hp : Piped s) (hm : Move (s.proc p) a x) : ¬ Faults s.tables a := by
  intro hbad
  have hfair := hp.fair hc hm
  cases a with
  | filedup f =>
    rcases hm.touch (hc.good p) List.mem_cons_self with ha | ho
    · exact nomatch ha
    · exact filedup_ne_none (hc.ref_pos ho) hbad
  | fileclose f o =>
    rcases hm.touch (hc.good p) List.mem_cons_self with ha | ho
    · exact nomatch ha
    · exact fileclose_ne_none (hc.ref_pos ho) hbad
  | pipeclose b w last =>
    obtain ⟨x, hx, -⟩ := Tables.opens_pos (hfair.opens b w last rfl)
    exact nomatch hx.symm.trans (Option.map_eq_none_iff.mp hbad)
  | kfree b => exact nomatch (page_of_shut (hfair.shut b rfl)).symm.trans (Option.map_eq_none_iff.mp hbad)
  | io f w o =>
    have htyped : (s.proc p).Typed f := by
      cases hm with
      | ioRefused w hpc hfd | ioInode w r hpc hfd | ioPipe w hpc hfd =>
        exact typed_of_user hpc hfd
    exact io_ne_none (hc.typed p f htyped) hbad
  | use b =>
    have hpipe : ∃ fd f, (s.proc p).pc = .pipeio fd f b := by
      cases hm with
      | pipeUse hpc | pipeDone r hpc => exact ⟨_, _, hpc⟩
    obtain ⟨fd, f, hpc⟩ := hpipe
    obtain ⟨w, hw⟩ := hp.io p fd f b hpc
    exact hp.page_of_token hw hbad
  | _ => exact hbad

/-- **The accounts follow from the counts and the ends.** -/
theorem accounted (hc : Counted s) (hp : Piped s) : Accounted s := by
  have hquiet : Quiet s → ∀ f, ∑ p, (s.proc p).own f = s.entries f := fun hq f => by
    rw [State.entries, ← sum_places fun p => (s.proc p).ofile]
    refine Finset.sum_congr rfl fun p _ => ?_
    rw [Proc.own_eq (counted_of_atRest (hq p)) (hq p).clear.1]
    rfl
  refine ⟨hc.ref, fun hq f => (hc.ref f).trans (hquiet hq f),
    fun p fd f hr hfd => ⟨?_, fun b w => hp.page_of_token⟩,
    fun hq b => ⟨fun hb => ?_, fun ⟨p, fd, f, w, hfd, hf⟩ => hp.page_of_token hf⟩,
    fun p b x hm => ⟨?_, fun f w hf => ?_⟩, fun p a x hm => not_faults hc hp hm,
    fun p q f fd hpc hfd => filedup_ne_none ?_⟩
  · exact hc.ref_pos (Proc.own_pos_of_counted _ (by rw [counted_of_atRest hr]; exact hfd))
  · exact hp.descriptor_of_page hc hq (fun f => (hc.ref f).trans (hquiet hq f)) hb
  · exact page_of_shut ((hp.fair hc hm).shut b rfl)
  · obtain ⟨y, hy, hopen⟩ := Tables.opens_pos (hp.opens_of_token hf)
    rw [← Option.some.inj ((page_of_shut ((hp.fair hc hm).shut b rfl)).symm.trans hy)] at hopen
    cases w <;> exact nomatch hopen
  · exact hc.ref_pos (Proc.own_pos_of_counted fd
      (by rw [Proc.counted_of_none (congrArg Pc.hidden hpc)]; exact hfd))

/-! ## Runs -/

/-- Counts, forks and ends are right in every state reached. -/
theorem sound_of_reach (h : Reach Start Step s) : Counted s ∧ Forks s ∧ Piped s :=
  h.keeps (P := fun s => Counted s ∧ Forks s ∧ Piped s)
    (fun _ h => ⟨.of_start h, .of_start h, .of_start h⟩) fun _ _ _ ⟨hc, hf, hp⟩ hstep =>
      ⟨hc.step hf hstep, hf.step hc hstep, hp.step hc hf hstep⟩

/-- A page is given to a pipe. -/
def Event.allocs (b : Page) : Event → Bool
  | .act _ a => a = .kalloc (some b)
  | _ => false

/-- A pipe gives its page back. -/
def Event.frees (b : Page) : Event → Bool
  | .act _ a => a = .kfree b
  | _ => false

/-- Whether a page is a pipe's. -/
def Tables.present (T : Tables) (b : Page) : Nat := if T.page b = none then 0 else 1

/-- Pages come from `kalloc` and go to `kfree`. -/
theorem Does.present (h : Does T a T') (b : Page) :
    T.present b + (if a = .kalloc (some b) then 1 else 0) = T'.present b + if a = .kfree b then 1 else 0 := by
  cases h with
  | @kalloc c h =>
    by_cases hb : c = b
    · rw [Tables.present, Tables.present, hb.symm, h, Tables.setPage_page, Function.update_self]
      simp
    · rw [Tables.present, Tables.present, Tables.setPage_page, Function.update_of_ne (Ne.symm hb)]
      simp [hb]
  | @pipeclose _ c w last h =>
    obtain ⟨x, hx, hT⟩ := Option.map_eq_some_iff.mp h
    rw [← (Prod.mk.inj hT).2, Tables.present, Tables.present, Tables.setPage_page]
    by_cases hb : b = c
    · rw [hb, hx, Function.update_self]
      simp
    · rw [Function.update_of_ne hb]
      simp
  | @kfree _ c h =>
    obtain ⟨x, hx, rfl⟩ := Option.map_eq_some_iff.mp h
    rw [Tables.present, Tables.present, Tables.setPage_page]
    by_cases hb : c = b
    · rw [← hb, hx, Function.update_self]
      simp
    · rw [Function.update_of_ne (Ne.symm hb)]
      simp [hb]
  | filealloc h =>
    rw [(Tables.filealloc_spec h).2]
    rfl
  | filedup h =>
    rw [(Tables.filedup_spec h).2]
    rfl
  | fileclose h => rcases Tables.fileclose_spec h with ⟨-, -, hT⟩ | ⟨-, -, hT⟩ <;> rw [hT] <;> rfl
  | _ => rfl

/-- **Every page is freed once for each time it is allocated.** -/
theorem frees_of_trace (h₀ : Start s₀) (h : Trace Step s₀ es s) (b : Page) :
    es.countP (Event.allocs b) = es.countP (Event.frees b) + s.tables.present b := by
  induction h with
  | nil =>
    rw [Tables.present, h₀.page]
    rfl
  | snoc _ hstep ih =>
    rw [List.countP_append, List.countP_append, List.countP_singleton, List.countP_singleton]
    cases hstep with
    | act hm hd =>
      have := hd.present b
      simp only [Event.allocs, Event.frees, decide_eq_true_eq]
      omega
    | copy hi hp hfd hT =>
      rw [(Tables.filedup_spec hT).2]
      exact ih
    | _ => exact ih

/-! ## A call that fails -/

/-- The end of a call of a process, or of the process. -/
def Event.ends (p : Slot) : Event → Prop
  | .act q (.ret _) => q = p
  | .forked q _ => q = p
  | .reap q => q = p
  | _ => False

/-- A process has not yet come to the end of its first call. -/
structure InCall (x₀ x : Proc) : Prop where
  embryo : x.pc ≠ .embryo
  unused : x.pc ≠ .unused
  entry : if x.pc = .user then x.ofile = x₀.ofile else x.entry = x₀.ofile

theorem InCall.of_user (h : x.pc = .user) : InCall x x :=
  ⟨by rw [h]; exact nofun, by rw [h]; exact nofun, by rw [if_pos h]⟩

/-- A call remembers the descriptors it found. -/
theorem Move.entry (h : Move x a x') (ha : ∀ r, a ≠ .ret r) :
    x'.pc ≠ .user ∧ x'.pc ≠ .embryo ∧ x'.pc ≠ .unused
      ∧ x'.entry = if x.pc = .user then x.ofile else x.entry := by
  cases h <;> simp_all

/-- Inside a call a process can go on as long as its memory is kept. -/
theorem InCall.of_entry {x₀ : Proc} (h : InCall x₀ x) (hembryo : x'.pc ≠ .embryo) (hunused : x'.pc ≠ .unused)
    (huser : x'.pc ≠ .user) (hentry : x'.entry = if x.pc = .user then x.ofile else x.entry) :
    InCall x₀ x' := by
  refine ⟨hembryo, hunused, ?_⟩
  rw [if_neg huser, hentry]
  by_cases hx : x.pc = .user
  · rw [if_pos hx]
    exact (if_pos hx).mp h.entry
  · rw [if_neg hx]
    exact (if_neg hx).mp h.entry

theorem InCall.update {x₀ : Proc} {c : Slot → Proc} (h : InCall x₀ (c p)) (hx : q = p → InCall x₀ x) :
    InCall x₀ (Function.update c q x p) := by
  by_cases hq : q = p
  · rw [hq, Function.update_self]
    exact hx hq
  · rwa [Function.update_of_ne (Ne.symm hq)]

/-- **Other processes do not write the descriptors of one in a call.** -/
theorem InCall.step {x₀ : Proc} (h : InCall x₀ (s.proc p)) (hf : Forks s) (hstep : Step s e s')
    (he : ¬ e.ends p) : InCall x₀ (s'.proc p) := by
  cases hstep with
  | @act q a x T hm hd =>
    refine h.update (c := s.proc) fun hq => ?_
    obtain rfl := hq
    obtain ⟨huser, hembryo, hunused, hentry⟩ := hm.entry (by rintro r rfl; exact he rfl)
    exact h.of_entry hembryo hunused huser hentry
  | @fork q r hq hr =>
    refine (h.update fun hrp => absurd (hrp ▸ hr) h.unused).update fun hqp => ?_
    obtain rfl := hqp
    exact h.of_entry nofun nofun nofun (by rw [if_pos hq]; rfl)
  | @copyNone q r i hi hq hfd =>
    refine h.update (c := s.proc) fun hqp => ?_
    obtain rfl := hqp
    exact h.of_entry nofun nofun nofun (by rw [if_neg (by rw [hq]; exact nofun)]; rfl)
  | @copy q r i f T hi hq hfd hT =>
    -- the process that is written is an embryo
    refine (h.update fun hrp => absurd (hrp ▸ (hf.embryo q r i hq).1) h.embryo).update fun hqp => ?_
    obtain rfl := hqp
    exact h.of_entry nofun nofun nofun (by rw [if_neg (by rw [hq]; exact nofun)]; rfl)
  | @forked q r hq =>
    exact (h.update fun hrp => absurd (hrp ▸ (hf.embryo q r _ hq).1) h.embryo).update
      fun hqp => absurd hqp he
  | @reap q hq => exact h.update (c := s.proc) fun hqp => absurd hqp he

/-- **A call that fails has put everything back**, whatever others did meanwhile: the descriptors are those
it found, and it holds the references it held.  If the others hold still, no count has changed. -/
theorem failed_call (hr : Reach Start Step s) (hpc : (s.proc p).pc = .user)
    (h : Trace Step s (es ++ [.act p (.ret (-1))]) s') (hes : ∀ e ∈ es, ¬ e.ends p) :
    (s'.proc p).ofile = (s.proc p).ofile ∧ (∀ f, (s'.proc p).own f = (s.proc p).own f)
      ∧ ((∀ q, q ≠ p → s'.proc q = s.proc q) → ∀ f, (s'.tables.file f).ref = (s.tables.file f).ref) := by
  have hc' := (sound_of_reach (hr.trace h)).1
  obtain ⟨t, ht, hlast⟩ := h.of_snoc
  have hin : Reach Start Step t ∧ InCall (s.proc p) (t.proc p) :=
    ht.keeps (P := fun t => Reach Start Step t ∧ InCall (s.proc p) (t.proc p)) ⟨hr, .of_user hpc⟩
      fun u e v he ⟨hu, hin⟩ hstep =>
      ⟨hu.step hstep, hin.step (sound_of_reach hu).2.1 hstep (hes e he)⟩
  cases hlast with
  | @act _ _ x T hm hd =>
    cases hm with
    | ret hback =>
      have hgood := (sound_of_reach hin.1).1.good p
      rw [Proc.Good, hback] at hgood
      have hentry := hin.2.entry
      rw [if_neg (by rw [hback]; rintro ⟨⟩)] at hentry
      have hofile : (t.proc p).ofile = (s.proc p).ofile := (hgood rfl).trans hentry
      have hput : Function.update t.proc p ((t.proc p).goto .user) p = (t.proc p).goto .user :=
        Function.update_self ..
      have hown : ∀ f, (Function.update t.proc p ((t.proc p).goto .user) p).own f = (s.proc p).own f := by
        intro f
        rw [hput]
        have hsame : ((t.proc p).goto .user).own f + 0 = (s.proc p).own f + 0 :=
          Proc.own_hand (Proc.counted_congr hofile (by rw [hpc]; rfl)) (by rw [hpc]; rfl)
        exact hsame
      refine ⟨(congrArg Proc.ofile hput).trans hofile, hown, fun hother f => ?_⟩
      rw [hc'.ref, (sound_of_reach hr).1.ref]
      refine Finset.sum_congr rfl fun q _ => ?_
      by_cases hq : q = p
      · rw [hq]
        exact hown f
      · rw [hother q hq]

/-! ## Every run -/

/-- **Open files are accounted for.**  After any run the accounts hold, every page has been freed as often as
it has been allocated, up to the pipe that still has it, and a call that fails puts everything back. -/
theorem open_files_accounted (h₀ : Start s₀) (h : Trace Step s₀ es s) :
    Accounted s ∧ (∀ b, es.countP (Event.allocs b) = es.countP (Event.frees b) + s.tables.present b)
      ∧ ∀ p es' s', (s.proc p).pc = .user → (∀ e ∈ es', ¬ e.ends p) →
        Trace Step s (es' ++ [.act p (.ret (-1))]) s' →
        (s'.proc p).ofile = (s.proc p).ofile ∧ (∀ f, (s'.proc p).own f = (s.proc p).own f)
          ∧ ((∀ q, q ≠ p → s'.proc q = s.proc q) →
            ∀ f, (s'.tables.file f).ref = (s.tables.file f).ref) := by
  have hr : Reach Start Step s := (Reach.init h₀).trace h
  obtain ⟨hc, -, hp⟩ := sound_of_reach hr
  exact ⟨accounted hc hp, frees_of_trace h₀ h, fun p es' s' hpc hes ht => failed_call hr hpc ht hes⟩

/-- The first process… -/
def init : Slot := ⟨0, by decide⟩

/-- …before it opens its first file. -/
def booted : State :=
  ⟨fun p => ⟨if p = init then .user else .unused, fun _ => none, fun _ => none⟩,
    ⟨fun _ => ⟨0, .none, false, false, 0⟩, fun _ => none⟩⟩

theorem start_booted : Start booted :=
  ⟨⟨init, rfl, fun _ hq => if_neg hq⟩, fun _ _ => rfl, fun _ => ⟨rfl, rfl⟩, fun _ => rfl⟩

/-- It opens a pipe. -/
theorem trace_pipe : ∃ es s, Trace Step booted es s ∧ (s.proc init).pc = .user
    ∧ s.tables.page 0 = some ⟨true, true⟩ :=
  ⟨_, _, .cons (.act (p := init) (.pipe rfl) .call) <|
    .cons (.act (p := init) (.pipeFile rfl) (.filealloc (f := ⟨0, by decide⟩) rfl)) <|
    .cons (.act (p := init) (.pipeFile1 rfl) (.filealloc (f := ⟨1, by decide⟩) rfl)) <|
    .cons (.act (p := init) (.pipePage rfl) (.kalloc (a := 0) rfl)) <|
    .cons (.act (p := init) (.pipeFill rfl) (.fill _ _ _)) <|
    .cons (.act (p := init) (@Move.pipeFd _ _ _ ⟨0, by decide⟩ rfl rfl) .tau) <|
    .cons (.act (p := init) (.pipeFd1 rfl rfl) .tau) <|
    .single (.act (p := init) (.ret rfl) (.ret 0)), rfl, rfl⟩

/-- A pipe for which there is no file left. -/
theorem trace_pipeFull (h : (s.proc p).pc = .user) : ∃ s',
    Trace Step s ([.act p .call, .act p (.filealloc none)] ++ [.act p (.ret (-1))]) s' :=
  have hput (s : State) (x : Proc) : (s.put p x).proc p = x := Function.update_self ..
  ⟨_, .cons (.act (.pipe h) .call) <|
    .cons (.act (.pipeFull (congrArg Proc.pc (hput s _))) .fileallocFail) <|
    .single (.act (.ret (congrArg Proc.pc (hput _ _))) (.ret _))⟩

/-- The first process opens a pipe, and then fails to open another. -/
theorem open_files_accounted_pipe : ∃ es s es' s', Trace Step booted es s
    ∧ Trace Step s (es' ++ [.act init (.ret (-1))]) s' ∧ s.tables.page 0 = some ⟨true, true⟩
    ∧ Accounted s ∧ es.countP (Event.allocs 0) = es.countP (Event.frees 0) + s.tables.present 0
    ∧ (s'.proc init).ofile = (s.proc init).ofile := by
  obtain ⟨es, s, hpipe, hpc, hpage⟩ := trace_pipe
  obtain ⟨s', hfail⟩ := trace_pipeFull hpc
  obtain ⟨hacc, hpages, hcalls⟩ := open_files_accounted start_booted hpipe
  refine ⟨es, s, _, s', hpipe, hfail, hpage, hacc, hpages 0, (hcalls init _ s' hpc ?_ hfail).1⟩
  simp [Event.ends]

end Xv6.Fd
