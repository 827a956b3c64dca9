import Xv6Ipc.Descriptors.Counts

/-!
# Descriptors/Pipes — the pages of pipes

A pipe has two ends, and each end is one file's: the file's while it is open, and after that the closing
process's, until `pipeclose` has shut the end.  Whoever shuts the second one frees the page:

    fill ──▸ file f : (a, r), file g : (a, w) ──fileclose──▸ process : (a, w) ──pipeclose──▸ shut
                                                                       both shut ──▸ kfree a

So an end that is open is somebody's, and a page both of whose ends are shut is about to be freed by one
process (`Piped`).
-/

namespace Xv6.Fd

open Runs Tally Function

variable {s s' : State} {e : Event} {p q r : Slot} {x x' : Proc} {a : Act} {T T' : Tables}
  {f g : FileId} {fd : Fin NOFILE} {i : Nat} {b : Page} {w : Bool} {t : Page × Bool}

/-! ## Ends -/

/-- The end of a pipe that a file is. -/
def File.token (x : File) : Option (Page × Bool) :=
  if x.type = .pipe then some (x.pipe, x.writable) else none

/-- Whether an end of a pipe is open. -/
def Pipe.isOpen (x : Pipe) (w : Bool) : Bool := if w then x.writeopen else x.readopen

theorem Pipe.isOpen_close (x : Pipe) (w w' : Bool) :
    (x.close w).isOpen w' = if w' = w then false else x.isOpen w' := by
  cases w <;> cases w' <;> rfl

namespace Pc

/-- The ends that a process is about to shut, or to make files of. -/
def ends : Pc → List (Page × Bool)
  | .drop a w _ => [(a, w)]
  | .pipe3 _ _ a => [(a, false), (a, true)]
  | _ => []

/-- The page that a process is about to free. -/
def frees : Pc → Option Page
  | .free a _ => some a
  | _ => none

end Pc

namespace Act

/-- The ends that an act gives to its process. -/
def takes : Act → List (Page × Bool)
  | .fileclose _ (some t) => [t]
  | .kalloc (some a) => [(a, false), (a, true)]
  | _ => []

/-- …and that it takes from it. -/
def drops : Act → List (Page × Bool)
  | .fill _ _ a => [(a, false), (a, true)]
  | .pipeclose a w _ => [(a, w)]
  | _ => []

/-- The page that an act leaves with both its ends shut. -/
def shuts : Act → Option Page
  | .pipeclose a _ true => some a
  | _ => none

/-- The page that an act frees. -/
def freed : Act → Option Page
  | .kfree a => some a
  | _ => none

end Act

namespace Tables

/-- How many files are this end. -/
def tokens (T : Tables) (t : Page × Bool) : Nat := places (fun f => (T.file f).token) t

/-- Whether an end is open. -/
def opens (T : Tables) (t : Page × Bool) : Nat :=
  match T.page t.1 with
  | none => 0
  | some x => if x.isOpen t.2 then 1 else 0

/-- Whether a page has both its ends shut. -/
def shut (T : Tables) (a : Page) : Nat := if T.page a = some ⟨false, false⟩ then 1 else 0

end Tables

/-- A process has the ends that it has taken and not dropped. -/
theorem Move.ends (h : Move x a x') (t : Page × Bool) :
    x'.pc.ends.count t + a.drops.count t = x.pc.ends.count t + a.takes.count t := by
  cases h with
  | fileclosePipe hpc | pipePage hpc =>
    rw [hpc]
    exact (Nat.zero_add _).symm
  | pipeFill hpc | pipeclose hpc | pipecloseLast hpc =>
    rw [hpc]
    exact Nat.zero_add _
  | _ =>
    rw [‹x.pc = _›]
    rfl

/-- …and the page that it has shut and not freed. -/
theorem Move.frees (h : Move x a x') (b : Page) :
    mark x'.pc.frees b + mark a.freed b = mark x.pc.frees b + mark a.shuts b := by
  cases h with
  | pipecloseLast hpc =>
    rw [hpc]
    exact (Nat.zero_add _).symm
  | kfree hpc =>
    rw [hpc]
    exact Nat.zero_add _
  | _ =>
    rw [‹x.pc = _›]
    rfl

/-! ## The tables -/

namespace Tables

/-- Files are ends as their fields say. -/
theorem tokens_setFile (f : FileId) (x : File) (t : Page × Bool) :
    (T.setFile f x).tokens t + mark (T.file f).token t = T.tokens t + mark x.token t := by
  have hfun : (fun g => ((T.setFile f x).file g).token)
      = update (fun g => (T.file g).token) f x.token := by
    funext g
    rw [setFile_file]
    by_cases hg : g = f
    · rw [hg, update_self, update_self]
    · rw [update_of_ne hg, update_of_ne hg]
  rw [tokens, hfun, places_update]
  rfl

theorem tokens_setPage (b : Page) (o : Option Pipe) (t : Page × Bool) :
    (T.setPage b o).tokens t = T.tokens t := rfl

theorem opens_setFile (f : FileId) (x : File) (t : Page × Bool) :
    (T.setFile f x).opens t = T.opens t := rfl

/-- A file is written. -/
theorem of_setFile {x : File} (o o' : Option (Page × Bool)) (hT : T' = T.setFile f x)
    (ho : (T.file f).token = o) (hx : x.token = o') (t : Page × Bool) :
    T'.opens t = T.opens t ∧ T'.tokens t + mark o t = T.tokens t + mark o' t := by
  rw [hT, ← ho, ← hx]
  exact ⟨opens_setFile f x t, tokens_setFile f x t⟩

/-- …and stays the end it is, or none. -/
theorem same_of_setFile {x : File} (hT : T' = T.setFile f x) (hx : x.token = (T.file f).token)
    (t : Page × Bool) : T'.opens t = T.opens t ∧ T'.tokens t = T.tokens t := by
  obtain ⟨hopens, htokens⟩ := of_setFile _ _ hT rfl hx t
  exact ⟨hopens, Nat.add_right_cancel htokens⟩

theorem opens_setPage_of_ne {o : Option Pipe} (h : t.1 ≠ b) : (T.setPage b o).opens t = T.opens t := by
  rw [opens, opens, setPage_page, update_of_ne h]

theorem shut_setPage_of_ne {o : Option Pipe} {c : Page} (h : c ≠ b) : (T.setPage b o).shut c = T.shut c := by
  rw [shut, shut, setPage_page, update_of_ne h]

theorem shut_le_one (T : Tables) (b : Page) : T.shut b ≤ 1 := by
  rw [shut]
  split
  · exact Nat.le_refl 1
  · exact Nat.zero_le 1

/-- A file that leads into a pipe is an end of it. -/
theorem io_pipe (h : T.io f w = some (.pipe b)) : ∃ w, (T.file f).token = some (b, w) := by
  by_cases hperm : (if w then (T.file f).writable else (T.file f).readable) = false
  · rw [io, if_pos hperm] at h
    exact nomatch h
  · rw [io, if_neg hperm] at h
    cases htype : (T.file f).type with
    | pipe =>
      rw [htype] at h
      exact ⟨_, by rw [File.token, if_pos htype, Io.pipe.inj (Option.some.inj h)]⟩
    | none | inode =>
      rw [htype] at h
      exact nomatch h

theorem opens_some {x : Pipe} (h : T.page t.1 = some x) : T.opens t = if x.isOpen t.2 then 1 else 0 := by
  rw [opens, h]

theorem opens_pos {w : Bool} (h : 0 < T.opens (b, w)) :
    ∃ x, T.page b = some x ∧ x.isOpen w = true := by
  rw [opens] at h
  cases hb : T.page b with
  | none =>
    simp [hb] at h
  | some x =>
    refine ⟨x, rfl, ?_⟩
    by_contra hne
    simp [hb, hne] at h

end Tables

namespace Does

/-- What an end's state depends on: nobody shuts an end that is shut, or frees a page that is not. -/
structure Fair (T : Tables) (a : Act) : Prop where
  raw : ∀ g ∈ a.names, (T.file g).type = .none
  nodup : a.names.Nodup
  opens : ∀ b w last, a = .pipeclose b w last → 0 < T.opens (b, w)
  shut : ∀ b, a = .kfree b → 0 < T.shut b

theorem token_of_none {x : File} (h : x.type = .none) : x.token = none := by
  rw [File.token, if_neg (by rw [h]; exact nofun)]

/-- **The ends that are open are those of files and of processes.** -/
theorem ends (h : Does T a T') (hf : Fair T a) (t : Page × Bool) :
    T'.opens t + T.tokens t + a.drops.count t = T.opens t + T'.tokens t + a.takes.count t := by
  cases h with
  | tau | call | ret | fileallocFail | kallocFail | io | use => rfl
  | filealloc h =>
    obtain ⟨hopens, htokens⟩ := Tables.same_of_setFile (Tables.filealloc_spec h).2 rfl t
    rw [hopens, htokens]
    rfl
  | filedup h =>
    obtain ⟨hopens, htokens⟩ := Tables.same_of_setFile (Tables.filedup_spec h).2 rfl t
    rw [hopens, htokens]
    rfl
  | @fileclose _ f o h =>
    rcases Tables.fileclose_spec h with ⟨-, rfl, hT⟩ | ⟨-, ho, hT⟩
    · obtain ⟨hopens, htokens⟩ := Tables.same_of_setFile hT rfl t
      rw [hopens, htokens]
      rfl
    · obtain ⟨hopens, htokens⟩ := Tables.of_setFile _ none hT rfl (token_of_none rfl) t
      have htakes : (Act.fileclose f o).takes.count t = mark (T.file f).token t := by
        rw [File.token, ← ho]
        cases o with
        | none => rfl
        | some t' =>
          rw [Act.takes, Tally.count_cons]
          exact Nat.zero_add _
      rw [hopens, htakes]
      rw [mark_none] at htokens
      simp only [Act.drops, List.count_nil]
      omega
  | name f r w =>
    have hnone : (T.file f).token = none := token_of_none (hf.raw f List.mem_cons_self)
    obtain ⟨hopens, htokens⟩ := Tables.same_of_setFile (rfl : T.name f r w = _) (by rw [hnone]; rfl) t
    rw [hopens, htokens]
    rfl
  | @kalloc b h =>
    rw [Tables.tokens_setPage]
    by_cases ht : t.1 = b
    · have hnone : T.opens t = 0 := by rw [Tables.opens, ht, h]
      have hopen : (T.setPage b (some ⟨true, true⟩)).opens t = 1 := by
        rw [Tables.opens, Tables.setPage_page, ht, update_self]
        cases t.2 <;> rfl
      have htakes : (Act.kalloc (some b)).takes.count t = 1 := by
        obtain ⟨c, w⟩ := t
        cases ht
        cases w <;> simp [Act.takes]
      rw [hnone, hopen, htakes]
      simp only [Act.drops, List.count_nil]
      omega
    · have htakes : (Act.kalloc (some b)).takes.count t = 0 := by
        refine List.count_eq_zero.mpr fun hmem => ht ?_
        rcases List.mem_cons.mp hmem with rfl | hmem
        · rfl
        · rw [List.mem_singleton.mp hmem]
      rw [Tables.opens_setPage_of_ne ht, htakes]
      rfl
  | fill f g b =>
    have hne : g ≠ f := fun he => List.not_nodup_cons_of_mem (by rw [he]; exact List.mem_cons_self) hf.nodup
    have hnf : (T.file f).token = none := token_of_none (hf.raw f List.mem_cons_self)
    have hng : (T.file g).token = none :=
      token_of_none (hf.raw g (List.mem_cons_of_mem _ List.mem_cons_self))
    obtain ⟨T₁, hT₁⟩ : ∃ T₁, T₁ = T.setFile f
      { T.file f with type := .pipe, readable := true, writable := false, pipe := b } := ⟨_, rfl⟩
    have hsame : (T₁.file g).token = none := by
      rw [hT₁, Tables.setFile_file, update_of_ne hne]
      exact hng
    have hT₂ : T.fill f g b = T₁.setFile g
        { T₁.file g with type := .pipe, readable := false, writable := true, pipe := b } := by
      rw [hT₁]
      rfl
    obtain ⟨hopens₁, htokens₁⟩ := Tables.of_setFile none (some (b, false)) hT₁ hnf rfl t
    obtain ⟨hopens₂, htokens₂⟩ := Tables.of_setFile none (some (b, true)) hT₂ hsame rfl t
    rw [mark_none] at htokens₁ htokens₂
    rw [hopens₂, hopens₁]
    simp only [Act.drops, Act.takes, Tally.count_cons, List.count_nil]
    omega
  | @pipeclose _ b w last h =>
    obtain ⟨x, hx, hT⟩ := Option.map_eq_some_iff.mp h
    obtain ⟨x', hx', hopen⟩ := Tables.opens_pos (hf.opens b w last rfl)
    rw [Option.some.inj (hx'.symm.trans hx)] at hopen
    rw [← (Prod.mk.inj hT).2, Tables.tokens_setPage]
    simp only [Act.drops, Act.takes, Tally.count_cons, List.count_nil]
    by_cases ht : t.1 = b
    · have hnew : (T.setPage b (some (x.close w))).opens t = if (x.close w).isOpen t.2 then 1 else 0 :=
        Tables.opens_some (by rw [ht]; exact update_self ..)
      have hold : T.opens t = if x.isOpen t.2 then 1 else 0 := Tables.opens_some (by rw [ht]; exact hx)
      rw [hnew, hold, Pipe.isOpen_close]
      by_cases hw : t.2 = w
      · have hmark : mark (some (b, w)) t = 1 := by rw [← ht, ← hw, mark_self]
        rw [if_pos hw, hmark, hw, hopen]
        simp [Nat.add_comm]
      · have hmark : mark (some (b, w)) t = 0 := mark_of_ne fun he => hw (by rw [← he])
        rw [if_neg hw, hmark]
    · have hmark : mark (some (b, w)) t = 0 := mark_of_ne fun he => ht (by rw [← he])
      rw [Tables.opens_setPage_of_ne ht, hmark]
  | @kfree _ b h =>
    obtain ⟨x, hx, hT⟩ := Option.map_eq_some_iff.mp h
    have hshut := hf.shut b rfl
    rw [← hT, Tables.tokens_setPage]
    simp only [Act.drops, Act.takes, List.count_nil]
    by_cases ht : t.1 = b
    · have hpage : T.page t.1 = some ⟨false, false⟩ := by
        rw [ht]
        by_contra hne
        rw [Tables.shut, if_neg hne] at hshut
        exact Nat.lt_irrefl 0 hshut
      have hnone : (T.setPage b none).opens t = 0 := by
        rw [Tables.opens, Tables.setPage_page, ht, update_self]
      rw [hnone, Tables.opens_some hpage, Pipe.isOpen, ite_self]
      simp
    · rw [Tables.opens_setPage_of_ne ht]

/-- **A page has both its ends shut from the last `pipeclose` to `kfree`.** -/
theorem shut (h : Does T a T') (hf : Fair T a) (b : Page) :
    T'.shut b + mark a.freed b = T.shut b + mark a.shuts b := by
  cases h with
  | tau | call | ret | fileallocFail | kallocFail | io | use | name | fill => rfl
  | filealloc h => rw [(Tables.filealloc_spec h).2]; rfl
  | filedup h => rw [(Tables.filedup_spec h).2]; rfl
  | fileclose h => rcases Tables.fileclose_spec h with ⟨-, -, hT⟩ | ⟨-, -, hT⟩ <;> rw [hT] <;> rfl
  | @kalloc c h =>
    by_cases hb : b = c
    · rw [hb, Tables.shut, Tables.shut, Tables.setPage_page, update_self, h]
      rfl
    · rw [Tables.shut_setPage_of_ne hb]
      rfl
  | @pipeclose _ c w last h =>
    obtain ⟨x, hx, hT⟩ := Option.map_eq_some_iff.mp h
    obtain ⟨x', hx', hopen⟩ := Tables.opens_pos (hf.opens c w last rfl)
    rw [Option.some.inj (hx'.symm.trans hx)] at hopen
    obtain ⟨hlast, rfl⟩ := Prod.mk.inj hT
    by_cases hb : b = c
    · have hzero : T.shut c = 0 := by
        rw [Tables.shut, hx, if_neg fun he => ?_]
        rw [Option.some.inj he] at hopen
        cases w <;> exact nomatch hopen
      have hnew : (T.setPage c (some (x.close w))).shut c = mark (Act.pipeclose c w last).shuts c := by
        rw [Tables.shut, Tables.setPage_page, update_self, ← hlast]
        obtain ⟨ro, wo⟩ := x.close w
        cases ro <;> cases wo <;> simp [Act.shuts]
      rw [hb, hzero, hnew]
      exact Nat.add_comm ..
    · rw [Tables.shut_setPage_of_ne hb]
      cases last <;> simp [Act.freed, Act.shuts, mark_of_ne (Ne.symm hb)]
  | @kfree _ c h =>
    obtain ⟨x, hx, rfl⟩ := Option.map_eq_some_iff.mp h
    by_cases hb : b = c
    · have hone : T.shut c = 1 := Nat.le_antisymm (T.shut_le_one c) (hf.shut c rfl)
      have hzero : (T.setPage c none).shut c = 0 := by
        rw [Tables.shut, Tables.setPage_page, update_self]
        rfl
      rw [hb, hone, hzero]
      simp [Act.freed, Act.shuts]
    · rw [Tables.shut_setPage_of_ne hb]
      simp [Act.freed, Act.shuts, mark_of_ne (Ne.symm hb)]

end Does

/-! ## The pages are right -/

/-- **An end that is open is one file's, or one process's**; a page with both ends shut is about to be freed by
one process; and whoever reads or writes a pipe has one of its ends. -/
structure Piped (s : State) : Prop where
  ends : ∀ t, s.tables.opens t = s.tables.tokens t + ∑ p, (s.proc p).pc.ends.count t
  frees : ∀ b, s.tables.shut b = ∑ p, mark (s.proc p).pc.frees b
  io : ∀ p fd f b, (s.proc p).pc = .pipeio fd f b → ∃ w, (s.tables.file f).token = some (b, w)

/-- An act that writes fields writes those of the files in hand. -/
theorem Move.names_nodup (h : Move x a x') (hx : x.pc.raw.Nodup) : a.names.Nodup := by
  cases h with
  | openName => exact List.nodup_singleton _
  | pipeFill hpc =>
    rw [hpc] at hx
    exact hx
  | _ => exact .nil

/-- An act that leads into a pipe has found one. -/
theorem Move.pipeio (h : Move x a x') (hpc : x'.pc = .pipeio fd f b) :
    (∃ w, a = .io f w (.pipe b)) ∨ x.pc = .pipeio fd f b ∧ a = .use b := by
  cases h with
  | ioPipe w =>
    obtain ⟨-, rfl, rfl⟩ := Pc.pipeio.inj hpc
    exact .inl ⟨w, rfl⟩
  | pipeUse hpc' =>
    obtain ⟨-, -, rfl⟩ := Pc.pipeio.inj (hpc'.symm.trans hpc)
    exact .inr ⟨hpc, rfl⟩
  | _ => exact nomatch hpc

/-- A file with two references stays the end it is, unless its fields are written. -/
theorem Does.token (h : Does T a T') (hnames : f ∉ a.names)
    (hclose : ∀ o, a = .fileclose f o → 1 < (T.file f).ref) : (T'.file f).token = (T.file f).token := by
  cases h.touch f with
  | frame _ hy => rw [hy]
  | filealloc _ _ hy | filedup _ hy | fileclose _ _ _ hy =>
    rw [hy]
    rfl
  | last o ha hone => exact absurd hone (Nat.ne_of_gt (hclose o ha))
  | write hn => exact absurd hn hnames

namespace Piped

theorem of_start (h : Start s) : Piped s := by
  have hpc : ∀ p, (s.proc p).pc.ends = [] ∧ (s.proc p).pc.frees = none := fun p => by
    rcases h.pc p with hp | hp <;> rw [hp] <;> exact ⟨rfl, rfl⟩
  refine ⟨fun t => ?_, fun b => ?_, fun p fd f b hp => ?_⟩
  · have htok : (fun f => (s.tables.file f).token) = fun _ => none :=
      funext fun f => Does.token_of_none (h.file f).2
    have hsum : ∑ p, (s.proc p).pc.ends.count t = 0 :=
      Finset.sum_eq_zero fun p _ => by rw [(hpc p).1, List.count_nil]
    rw [Tables.opens, h.page, Tables.tokens, htok, places_none, hsum]
  · have hsum : ∑ p, mark (s.proc p).pc.frees b = 0 :=
      Finset.sum_eq_zero fun p _ => by rw [(hpc p).2, mark_none]
    rw [Tables.shut, h.page, hsum]
    rfl
  · rcases h.pc p with hp' | hp' <;> exact nomatch hp'.symm.trans hp

/-- A process shuts what it has, and frees what it has shut. -/
theorem fair (h : Piped s) (hc : Counted s) (hm : Move (s.proc p) a x) : Does.Fair s.tables a := by
  refine ⟨fun g hg => (hc.raw p g (hm.names hg)).2, hm.names_nodup (hc.nodup p), fun b w last ha => ?_,
    fun b ha => ?_⟩
  · subst ha
    have hpos : 0 < (s.proc p).pc.ends.count (b, w) := by
      cases hm with
      | pipeclose hpc | pipecloseLast hpc =>
        rw [hpc]
        exact List.count_pos_iff.mpr List.mem_cons_self
    have := le_sum (fun p => (s.proc p).pc.ends.count (b, w)) p
    rw [h.ends]
    exact Nat.lt_of_lt_of_le hpos (this.trans (Nat.le_add_left ..))
  · subst ha
    cases hm with
    | kfree hpc =>
      have := le_sum (fun p => mark (s.proc p).pc.frees b) p
      rw [hpc, Pc.frees, mark_self] at this
      rw [h.frees]
      exact this

/-- **A step of a process keeps the ends.** -/
theorem act (h : Piped s) (hc : Counted s) (hm : Move (s.proc p) a x) (hd : Does s.tables a T) :
    Piped { s.put p x with tables := T } := by
  have hfair := h.fair hc hm
  refine ⟨fun t => ?_, fun b => ?_, fun r fd f b hr => ?_⟩
  · have hsum := sum_apply_update (fun y : Proc => y.pc.ends.count t) s.proc p x
    have hown := hm.ends t
    have htab := hd.ends hfair t
    rw [h.ends] at htab
    simp only [State.put_proc]
    omega
  · have hsum := sum_apply_update (fun y : Proc => mark y.pc.frees b) s.proc p x
    have hown := hm.frees b
    have htab := hd.shut hfair b
    rw [h.frees] at htab
    simp only [State.put_proc]
    omega
  · by_cases hrp : r = p
    · rw [hrp, State.put_proc, update_self] at hr
      rcases hm.pipeio hr with ⟨w, rfl⟩ | ⟨hpc, rfl⟩
      · cases hd with
        | io hio => exact Tables.io_pipe hio
      · cases hd with
        | use => exact h.io p fd f b hpc
    · rw [State.put_proc, update_of_ne hrp] at hr
      obtain ⟨w, hw⟩ := h.io r fd f b hr
      have hgood := hc.good r
      rw [Proc.Good, hr] at hgood
      have hown : 0 < (s.proc r).own f := Proc.own_pos_of_counted fd
        (by rw [Proc.counted_of_none (congrArg Pc.hidden hr)]; exact hgood.1)
      refine ⟨w, (hd.token (fun hn => ?_) fun o ha => ?_).trans hw⟩
      · have hraw := hm.names hn
        exact hrp (hc.owner_unique (hc.raw p f hraw).1 hown (Proc.own_pos_of_raw (hc.good p) hraw))
      · rcases hm.touch (hc.good p) (by rw [ha]; exact List.mem_cons_self) with ha' | ho
        · cases ha.symm.trans ha'
        · by_contra hone
          have hpos := hc.ref_pos ho
          exact hrp (hc.owner_unique (by omega) hown ho)

/-- A process moves on outside its calls. -/
theorem goto (h : Piped s) {y : Proc} (hp : (s.proc p).pc.ends = [] ∧ (s.proc p).pc.frees = none)
    (hy : y.pc.ends = [] ∧ y.pc.frees = none) (hio : ∀ fd f b, y.pc ≠ .pipeio fd f b) :
    Piped (s.put p y) := by
  refine ⟨fun t => ?_, fun b => ?_, fun r fd f b hr => ?_⟩
  · have hsum := sum_apply_update (fun y : Proc => y.pc.ends.count t) s.proc p y
    rw [State.put_tables, h.ends]
    simp only [hp.1, hy.1] at hsum
    simp only [State.put_proc]
    omega
  · have hsum := sum_apply_update (fun y : Proc => mark y.pc.frees b) s.proc p y
    rw [State.put_tables, h.frees]
    simp only [hp.2, hy.2] at hsum
    simp only [State.put_proc]
    omega
  · by_cases hrp : r = p
    · rw [hrp, State.put_proc, update_self] at hr
      exact absurd hr (hio fd f b)
    · rw [State.put_proc, update_of_ne hrp] at hr
      exact h.io r fd f b hr

/-- `filedup` has nothing to do with pipes. -/
theorem filedup (h : Piped s) (hT : s.tables.filedup f = some T) : Piped { s with tables := T } := by
  have hT := (Tables.filedup_spec hT).2
  refine ⟨fun t => ?_, fun b => ?_, fun p fd g b hp => ?_⟩
  · obtain ⟨hopens, htokens⟩ := Tables.same_of_setFile hT rfl t
    rw [hopens, htokens]
    exact h.ends t
  · rw [hT]
    exact h.frees b
  · obtain ⟨w, hw⟩ := h.io p fd g b hp
    refine ⟨w, Eq.trans ?_ hw⟩
    rw [hT, Tables.setFile_file]
    by_cases hg : g = f
    · rw [hg, update_self]
      rfl
    · rw [update_of_ne hg]

/-- **Every step keeps the ends.** -/
theorem step (h : Piped s) (hc : Counted s) (hf : Forks s) (hstep : Step s e s') : Piped s' := by
  cases hstep with
  | act hm hd => exact h.act hc hm hd
  | @fork p q hp hq =>
    have h₁ : Piped (s.put q ((s.proc q).goto .embryo)) :=
      h.goto (by rw [hq]; exact ⟨rfl, rfl⟩) ⟨rfl, rfl⟩ nofun
    have hsame : (s.put q ((s.proc q).goto .embryo)).proc p = s.proc p :=
      update_of_ne (ne_of_pc hp hq nofun) _ _
    exact h₁.goto (by rw [hsame, hp]; exact ⟨rfl, rfl⟩) ⟨rfl, rfl⟩ nofun
  | copyNone hi hp => exact h.goto (by rw [hp]; exact ⟨rfl, rfl⟩) ⟨rfl, rfl⟩ nofun
  | @copy p q i f T hi hp hfd hT =>
    obtain ⟨hq, -⟩ := hf.embryo p q i hp
    have hy : ((s.proc q).setFd ⟨i, hi⟩ (some f)).pc = .embryo := hq
    have h₁ : Piped ((s.put q ((s.proc q).setFd ⟨i, hi⟩ (some f)))) :=
      h.goto (by rw [hq]; exact ⟨rfl, rfl⟩) (by rw [hy]; exact ⟨rfl, rfl⟩) (by rw [hy]; exact nofun)
    have hsame : (s.put q ((s.proc q).setFd ⟨i, hi⟩ (some f))).proc p = s.proc p :=
      update_of_ne (ne_of_pc hp hq nofun) _ _
    have h₂ := h₁.goto (p := p) (y := (s.proc p).goto (.fork q (i + 1)))
      (by rw [hsame, hp]; exact ⟨rfl, rfl⟩) ⟨rfl, rfl⟩ nofun
    exact h₂.filedup hT
  | @forked p q hp =>
    obtain ⟨hq, -⟩ := hf.embryo p q _ hp
    have h₁ : Piped (s.put q ((s.proc q).goto .user)) :=
      h.goto (by rw [hq]; exact ⟨rfl, rfl⟩) ⟨rfl, rfl⟩ nofun
    have hsame : (s.put q ((s.proc q).goto .user)).proc p = s.proc p :=
      update_of_ne (ne_of_pc hp hq nofun) _ _
    exact h₁.goto (by rw [hsame, hp]; exact ⟨rfl, rfl⟩) ⟨rfl, rfl⟩ nofun
  | reap hq => exact h.goto (by rw [hq]; exact ⟨rfl, rfl⟩) ⟨rfl, rfl⟩ nofun

end Piped

end Xv6.Fd
