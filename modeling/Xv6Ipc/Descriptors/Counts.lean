import Xv6Ipc.Descriptors.Owner

/-!
# Descriptors/Counts — every reference is counted

`filealloc`, `filedup` and `fileclose` move a file's `ref` by the reference that the process gains or
loses, so that

    ref f  =  ∑ p, own p f

in every state, and a file with one reference has one owner.  Nobody but that owner can then have it
while its fields are not written.
-/

namespace Xv6.Fd

open Runs Tally Function

variable {s s' : State} {e : Event} {p q r : Slot} {x x' : Proc} {a : Act} {T T' : Tables}
  {f g : FileId} {fd : Fin NOFILE} {i : Nat}

/-! ## What the tables do -/

namespace Tables

theorem filealloc_spec (h : T.filealloc = some (f, T')) :
    (T.file f).ref = 0 ∧ T' = T.setFile f { T.file f with ref := 1 } := by
  obtain ⟨f', hf, heq⟩ := Option.map_eq_some_iff.mp h
  obtain ⟨rfl, rfl⟩ := Prod.mk.inj heq
  exact ⟨by simpa using List.find?_some hf, rfl⟩

theorem filedup_spec (h : T.filedup f = some T') :
    0 < (T.file f).ref ∧ T' = T.setFile f { T.file f with ref := (T.file f).ref + 1 } := by
  rw [filedup] at h
  split at h
  · exact nomatch h
  · rename_i hlt
    exact ⟨Nat.le_of_not_lt hlt, (Option.some.inj h).symm⟩

/-- The last reference goes, or not. -/
theorem fileclose_spec {o : Option (Page × Bool)} (h : T.fileclose f = some (o, T')) :
    (1 < (T.file f).ref ∧ o = none ∧ T' = T.setFile f { T.file f with ref := (T.file f).ref - 1 })
    ∨ (T.file f).ref = 1
      ∧ o = (if (T.file f).type = .pipe then some ((T.file f).pipe, (T.file f).writable) else none)
      ∧ T' = T.setFile f { T.file f with ref := 0, type := .none } := by
  rw [fileclose] at h
  split at h
  · exact nomatch h
  · rename_i hlt
    split at h
    · rename_i hone
      obtain ⟨rfl, rfl⟩ := Prod.mk.inj (Option.some.inj h)
      exact .inl ⟨hone, rfl, rfl⟩
    · rename_i hone
      obtain ⟨rfl, rfl⟩ := Prod.mk.inj (Option.some.inj h)
      exact .inr ⟨by omega, rfl, rfl⟩

end Tables

/-- What an act can do to a file. -/
inductive Touch (a : Act) (g : FileId) (x y : File) : Prop
  | frame : g ∉ a.files → y = x → Touch a g x y
  | filealloc : a = .filealloc (some g) → x.ref = 0 → y = { x with ref := 1 } → Touch a g x y
  | filedup : a = .filedup g → y = { x with ref := x.ref + 1 } → Touch a g x y
  | fileclose (o : Option (Page × Bool)) : a = .fileclose g o → 1 < x.ref →
    y = { x with ref := x.ref - 1 } → Touch a g x y
  | last (o : Option (Page × Bool)) : a = .fileclose g o → x.ref = 1 →
    y = { x with ref := 0, type := .none } → Touch a g x y
  | write : g ∈ a.names → y.ref = x.ref → y.type ≠ .none → Touch a g x y

theorem Act.mem_files (h : g ∈ a.names) : g ∈ a.files := by
  cases a with
  | name | fill => exact h
  | _ => exact absurd h List.not_mem_nil

namespace Does

/-- **An act makes, moves or gives up a reference to a file, or writes its fields.** -/
theorem touch (h : Does T a T') (g : FileId) : Touch a g (T.file g) (T'.file g) := by
  have hset : ∀ {f x}, T' = T.setFile f x → T'.file f = x := fun hT => by
    rw [hT]
    exact update_self ..
  have hother : ∀ {f x}, T' = T.setFile f x → g ∉ [f] → T'.file g = T.file g := fun hT hg => by
    rw [hT]
    exact update_of_ne (List.ne_of_not_mem_cons hg) _ _
  by_cases hg : g ∈ a.files
  · cases h with
    | filealloc h =>
      obtain ⟨hzero, hT⟩ := Tables.filealloc_spec h
      obtain rfl := List.mem_singleton.mp hg
      exact .filealloc rfl hzero (hset hT)
    | filedup h =>
      obtain rfl := List.mem_singleton.mp hg
      exact .filedup rfl (hset (Tables.filedup_spec h).2)
    | fileclose h =>
      obtain rfl := List.mem_singleton.mp hg
      rcases Tables.fileclose_spec h with ⟨hone, -, hT⟩ | ⟨hone, -, hT⟩
      · exact .fileclose _ rfl hone (hset hT)
      · exact .last _ rfl hone (hset hT)
    | name f r w =>
      obtain rfl := List.mem_singleton.mp hg
      refine .write hg ?_ ?_ <;> rw [hset rfl]
      exact nofun
    | fill f f' b =>
      by_cases hf' : g = f'
      · subst hf'
        refine .write hg ?_ ?_ <;> rw [Tables.fill, Tables.setFile_file, update_self]
        · by_cases hf : g = f
          · rw [hf, Tables.setFile_file, update_self]
          · rw [Tables.setFile_file, update_of_ne hf]
        · exact nofun
      · obtain rfl : g = f := by simpa [Act.files, hf'] using hg
        refine .write hg ?_ ?_ <;>
          rw [Tables.fill, Tables.setFile_file, update_of_ne hf', Tables.setFile_file, update_self]
        exact nofun
    | _ => exact absurd hg List.not_mem_nil
  · refine .frame hg ?_
    cases h with
    | filealloc h => exact hother (Tables.filealloc_spec h).2 hg
    | filedup h => exact hother (Tables.filedup_spec h).2 hg
    | fileclose h =>
      rcases Tables.fileclose_spec h with ⟨-, -, hT⟩ | ⟨-, -, hT⟩ <;> exact hother hT hg
    | name f r w => exact hother rfl hg
    | fill f f' b =>
      have hg : g ≠ f ∧ g ≠ f' := by simpa [Act.files] using hg
      exact (update_of_ne hg.2 _ _).trans (update_of_ne hg.1 _ _)
    | pipeclose h =>
      obtain ⟨x, -, hx⟩ := Option.map_eq_some_iff.mp h
      rw [← (Prod.mk.inj hx).2]
      rfl
    | kfree h =>
      obtain ⟨x, -, hx⟩ := Option.map_eq_some_iff.mp h
      rw [← hx]
      rfl
    | _ => rfl

/-- A file that is not written stays as it is. -/
theorem frame (h : Does T a T') (hg : g ∉ a.files) : T'.file g = T.file g := by
  cases h.touch g with
  | frame _ hy => exact hy
  | write hn => exact absurd (Act.mem_files hn) hg
  | filealloc ha | filedup ha | fileclose _ ha | last _ ha =>
    rw [ha] at hg
    exact absurd List.mem_cons_self hg

/-- **The counts follow the references.** -/
theorem ref (h : Does T a T') (g : FileId) :
    (T'.file g).ref + a.loss g = (T.file g).ref + a.gain g := by
  cases h.touch g with
  | frame hg hy =>
    rw [hy]
    have hne : ∀ f, f ∈ a.files → mark (some f) g = 0 := fun f hf =>
      if_neg fun he => hg (by rw [← Option.some.inj he]; exact hf)
    cases h with
    | filealloc | filedup | fileclose => simp [Act.gain, Act.loss, hne _ List.mem_cons_self]
    | _ => rfl
  | filealloc ha hx hy | last o ha hx hy => simp [ha, hx, hy, Act.gain, Act.loss]
  | filedup ha hy => simp [ha, hy, Act.gain, Act.loss]
  | fileclose o ha hx hy =>
    simp only [ha, hy, Act.gain, Act.loss, mark_self]
    omega
  | write hn hy =>
    rw [hy]
    cases a with
    | name | fill => rfl
    | _ => exact absurd hn List.not_mem_nil

/-- A file that is still open keeps its fields, or has them written. -/
theorem type_ne_none (h : Does T a T') (ht : (T.file g).type ≠ .none ∨ g ∈ a.names)
    (hopen : 0 < (T'.file g).ref) : (T'.file g).type ≠ .none := by
  cases h.touch g with
  | frame hg hy =>
    rw [hy]
    exact ht.resolve_right fun hn => hg (Act.mem_files hn)
  | filealloc ha _ hy | filedup ha hy | fileclose _ ha _ hy =>
    rw [ha] at ht
    rw [hy]
    exact ht.resolve_right List.not_mem_nil
  | last _ _ _ hy =>
    rw [hy] at hopen
    exact absurd hopen (Nat.lt_irrefl 0)
  | write _ _ htype => exact htype

/-- A file that is closed has no type, if only open files are given one. -/
theorem type_none (h : Does T a T') (hfree : ∀ g, (T.file g).ref = 0 → (T.file g).type = .none)
    (hnames : ∀ g ∈ a.names, 0 < (T.file g).ref) (hclosed : (T'.file g).ref = 0) :
    (T'.file g).type = .none := by
  cases h.touch g with
  | frame _ hy =>
    rw [hy] at hclosed ⊢
    exact hfree g hclosed
  | filealloc _ _ hy | filedup _ hy =>
    rw [hy] at hclosed
    exact nomatch hclosed
  | fileclose _ _ hx hy =>
    rw [hy] at hclosed
    exact absurd (Nat.sub_eq_zero_iff_le.mp hclosed) (Nat.not_le.mpr hx)
  | last _ _ _ hy => rw [hy]
  | write hn href => exact absurd (href.symm.trans hclosed) (Nat.ne_of_gt (hnames g hn))

/-- A file that is allocated was nobody's. -/
theorem fresh (h : Does T a T') (ha : a = .filealloc (some g)) :
    (T.file g).ref = 0 ∧ (T'.file g).ref = 1 ∧ (T'.file g).type = (T.file g).type := by
  subst ha
  cases h with
  | filealloc hg =>
    obtain ⟨hzero, hT⟩ := Tables.filealloc_spec hg
    rw [hT, Tables.setFile_file, update_self]
    exact ⟨hzero, rfl, rfl⟩

end Does

/-! ## The counts are right -/

/-- **Every file's `ref` is the number of references to it**, and a file that somebody may use has its
fields written. -/
structure Counted (s : State) : Prop where
  good : ∀ p, (s.proc p).Good
  ref : ∀ f, (s.tables.file f).ref = ∑ p, (s.proc p).own f
  free : ∀ f, (s.tables.file f).ref = 0 → (s.tables.file f).type = .none
  raw : ∀ p f, f ∈ (s.proc p).pc.raw → (s.tables.file f).ref = 1 ∧ (s.tables.file f).type = .none
  nodup : ∀ p, (s.proc p).pc.raw.Nodup
  typed : ∀ p f, (s.proc p).Typed f → (s.tables.file f).type ≠ .none

/-- **Whoever forks writes the descriptors of a process that nobody else writes**, from the first to the
last. -/
structure Forks (s : State) : Prop where
  embryo : ∀ p q i, (s.proc p).pc = .fork q i →
    (s.proc q).pc = .embryo ∧ ∀ fd : Fin NOFILE, i ≤ fd.val → (s.proc q).ofile fd = none
  forker : ∀ p p' q i j, (s.proc p).pc = .fork q i → (s.proc p').pc = .fork q j → p = p'

/-- Two processes in different places. -/
theorem ne_of_pc {k k' : Pc} (hp : (s.proc p).pc = k) (hq : (s.proc q).pc = k') (hk : k ≠ k') : p ≠ q := by
  rintro rfl
  exact hk (hp.symm.trans hq)

theorem Start.pc (h : Start s) (p : Slot) : (s.proc p).pc = .user ∨ (s.proc p).pc = .unused := by
  obtain ⟨p₀, hp₀, hother⟩ := h.first
  by_cases hp : p = p₀
  · exact .inl (hp ▸ hp₀)
  · exact .inr (hother p hp)

namespace Counted

theorem of_start (h : Start s) : Counted s := by
  have hpc := h.pc
  have hofile : ∀ p, (s.proc p).ofile = fun _ => none := fun p => funext (h.ofile p)
  have hcounted : ∀ p, (s.proc p).counted = fun _ => none := fun p => by
    rw [Proc.counted_of_none (by rcases hpc p with hp | hp <;> rw [hp] <;> rfl), hofile]
  have hin : ∀ p, (s.proc p).pc.inflight = [] ∧ (s.proc p).pc.raw = [] ∧ (s.proc p).pc.typed = [] :=
    fun p => by rcases hpc p with hp | hp <;> rw [hp] <;> exact ⟨rfl, rfl, rfl⟩
  refine ⟨fun p => ?_, fun f => ?_, fun f _ => (h.file f).2, fun p f hf => ?_, fun p => ?_, fun p f hf => ?_⟩
  · rcases hpc p with hp | hp <;> rw [Proc.Good, hp]
    · exact trivial
    · exact h.ofile p
  · rw [(h.file f).1]
    refine (Finset.sum_eq_zero fun p _ => ?_).symm
    rw [Proc.own_eq (hcounted p) (hin p).1, places_none]
    rfl
  · rw [(hin p).2.1] at hf
    exact absurd hf List.not_mem_nil
  · rw [(hin p).2.1]
    exact .nil
  · rcases hf with ⟨fd, hfd, -⟩ | hf
    · rw [hcounted] at hfd
      cases hfd
    · rw [(hin p).2.2] at hf
      exact absurd hf List.not_mem_nil

/-- A reference is a count. -/
theorem ref_pos (h : Counted s) (ho : 0 < (s.proc p).own f) : 0 < (s.tables.file f).ref := by
  rw [h.ref]
  exact Nat.lt_of_lt_of_le ho (le_sum (fun p => (s.proc p).own f) p)

/-- A file with one reference has one owner. -/
theorem owner_unique (h : Counted s) (hone : (s.tables.file f).ref = 1) (hp : 0 < (s.proc p).own f)
    (hq : 0 < (s.proc q).own f) : p = q := by
  by_contra hne
  have := add_le_sum (fun p => (s.proc p).own f) hne
  rw [← h.ref, hone] at this
  exact absurd this (by omega)

/-- One process changes, and the tables with it. -/
theorem change (h : Counted s) (hd : Does s.tables a T) (hgood : x.Good)
    (hown : ∀ f, x.own f + a.loss f = (s.proc p).own f + a.gain f)
    (hkeep : ∀ r g, r ≠ p → g ∈ (s.proc r).pc.raw → g ∉ a.files)
    (hnames : ∀ g ∈ a.names, g ∈ (s.proc p).pc.raw)
    (hraw : ∀ g ∈ x.pc.raw, a = .filealloc (some g) ∨ g ∈ (s.proc p).pc.raw ∧ g ∉ a.files)
    (hnodup : x.pc.raw.Nodup)
    (htyped : ∀ g, x.Typed g → (s.tables.file g).type ≠ .none ∨ g ∈ a.names) :
    Counted { s.put p x with tables := T } := by
  have hself : (s.put p x).proc p = x := update_self ..
  have hother : ∀ {r}, r ≠ p → (s.put p x).proc r = s.proc r := fun hr => update_of_ne hr _ _
  have href : ∀ f, (T.file f).ref = ∑ r, ((s.put p x).proc r).own f := fun f => by
    have hsum := sum_apply_update (·.own f) s.proc p x
    have hcount := hd.ref f
    have hown := hown f
    rw [h.ref] at hcount
    simp only [State.put_proc]
    omega
  have hold : ∀ {r g}, g ∈ (s.proc r).pc.raw → g ∉ a.files →
      (T.file g).ref = 1 ∧ (T.file g).type = .none := fun hg hfiles => by
    rw [hd.frame hfiles]
    exact h.raw _ _ hg
  refine ⟨fun r => ?_, href, fun f => hd.type_none h.free fun g hg => ?_, fun r f hf => ?_, fun r => ?_,
    fun r f hf => ?_⟩
  · by_cases hr : r = p
    · rw [hr, hself]
      exact hgood
    · rw [hother hr]
      exact h.good r
  · rw [(h.raw p g (hnames g hg)).1]
    exact Nat.one_pos
  · by_cases hr : r = p
    · rw [hr, hself] at hf
      rcases hraw f hf with ha | ⟨hf, hfiles⟩
      · obtain ⟨hzero, hone, htype⟩ := hd.fresh ha
        exact ⟨hone, htype.trans (h.free f hzero)⟩
      · exact hold hf hfiles
    · rw [hother hr] at hf
      exact hold hf (hkeep r f hr hf)
  · by_cases hr : r = p
    · rw [hr, hself]
      exact hnodup
    · rw [hother hr]
      exact h.nodup r
  · have hopen : 0 < (T.file f).ref := by
      rw [href]
      exact Nat.lt_of_lt_of_le (Proc.own_pos_of_typed hf) (le_sum (fun r => ((s.put p x).proc r).own f) r)
    by_cases hr : r = p
    · rw [hr, hself] at hf
      exact hd.type_ne_none (htyped f hf) hopen
    · rw [hother hr] at hf
      exact hd.type_ne_none (.inl (h.typed r f hf)) hopen

/-- **A step of a process keeps the counts.** -/
theorem act (h : Counted s) (hm : Move (s.proc p) a x) (hd : Does s.tables a T) :
    Counted { s.put p x with tables := T } := by
  refine h.change hd (hm.good (h.good p)) (hm.own (h.good p)) (fun r g hr hg hfiles => ?_)
    (fun _ => hm.names) (fun _ => hm.raw) (hm.raw_nodup (h.nodup p) fun g ha hg => ?_)
    fun g hg => (hm.typed (h.good p) hg).imp_left (h.typed p g)
  · obtain ⟨hone, -⟩ := h.raw r g hg
    rcases hm.touch (h.good p) hfiles with ha | ho
    · exact absurd ((hd.fresh ha).1.symm.trans hone) Nat.zero_ne_one
    · exact hr (h.owner_unique hone (Proc.own_pos_of_raw (h.good r) hg) ho)
  · exact absurd ((hd.fresh ha).1.symm.trans (h.raw p g hg).1) Nat.zero_ne_one

/-- A process moves on outside its calls. -/
theorem goto (h : Counted s) {y : Proc} (hofile : y.ofile = (s.proc p).ofile) (hgood : y.Good)
    (hp : (s.proc p).pc.inflight = [] ∧ (s.proc p).pc.hidden = none ∧ (s.proc p).pc.raw = [])
    (hy : y.pc.inflight = [] ∧ y.pc.hidden = none ∧ y.pc.raw = [] ∧ y.pc.typed = []) :
    Counted (s.put p y) := by
  have hc : y.counted = (s.proc p).counted := Proc.counted_congr hofile (hy.2.1.trans hp.2.1.symm)
  refine h.change .tau hgood (fun _ => Proc.own_hand hc (by rw [hy.1, hp.1]; rfl))
    (fun _ _ _ _ => List.not_mem_nil) (fun _ hg => absurd hg List.not_mem_nil) (fun g hg => ?_) ?_
    fun g hg => .inl (h.typed p g (hg.of_same hc (fun fd hpc => ?_) hy.2.2.2))
  · rw [hy.2.2.1] at hg
    exact absurd hg List.not_mem_nil
  · rw [hy.2.2.1]
    exact .nil
  · rw [hpc] at hp
    exact nomatch hp.2.2

/-- `fork` gives a new process a copy of a descriptor. -/
theorem copy (h : Counted s) (hp : (s.proc p).pc = .fork q i) (hq : (s.proc q).pc = .embryo)
    (hfree : (s.proc q).ofile fd = none) (hfd : (s.proc p).ofile fd = some f)
    (hT : s.tables.filedup f = some T) :
    Counted { s.put q ((s.proc q).setFd fd (some f)) with tables := T } := by
  have hc : (s.proc p).counted = (s.proc p).ofile := Proc.counted_of_none (congrArg Pc.hidden hp)
  have hcq : (s.proc q).counted = (s.proc q).ofile := Proc.counted_of_none (congrArg Pc.hidden hq)
  have hcq' : ((s.proc q).setFd fd (some f)).counted = update (s.proc q).ofile fd (some f) :=
    Proc.counted_of_none (congrArg Pc.hidden hq)
  have hown : 0 < (s.proc p).own f := Proc.own_pos_of_counted _ (by rw [hc]; exact hfd)
  have hraw : ((s.proc q).setFd fd (some f)).pc.raw = [] := congrArg Pc.raw hq
  refine h.change (.filedup hT) ?_ (fun g => ?_) (fun r g hr hg hfiles => ?_)
    (fun g hg => absurd hg List.not_mem_nil) (fun g hg => absurd (hraw ▸ hg) List.not_mem_nil)
    (hraw ▸ .nil) fun g hg => .inl ?_
  · rw [Proc.Good, Proc.setFd_pc, hq]
    exact trivial
  · refine Proc.own_put (congrArg Pc.hidden hq) hfree hcq' ?_
    simp [Act.gain, Act.loss, Nat.add_comm]
  · -- a file whose fields are not written belongs to one process, and that one is not in `fork`
    rw [List.mem_singleton.mp hfiles] at hg
    have hrp := h.owner_unique (h.raw r f hg).1 (Proc.own_pos_of_raw (h.good r) hg) hown
    rw [hrp, hp] at hg
    exact absurd hg List.not_mem_nil
  · rcases hg with ⟨fd', hfd', -⟩ | hg
    · rw [hcq'] at hfd'
      rcases update_eq_some hfd' with ⟨-, hf⟩ | hfd'
      · rw [← Option.some.inj hf]
        exact h.typed p f (.inl ⟨fd, by rw [hc]; exact hfd, by rw [hp]; rintro ⟨⟩⟩)
      · exact h.typed q g (.inl ⟨fd', by rw [hcq]; exact hfd', by rw [hq]; rintro ⟨⟩⟩)
    · rw [Proc.setFd_pc, hq] at hg
      exact absurd hg List.not_mem_nil

/-- **Every step keeps the counts.** -/
theorem step (h : Counted s) (hf : Forks s) (hstep : Step s e s') : Counted s' := by
  cases hstep with
  | act hm hd => exact h.act hm hd
  | @fork p q hp hq =>
    have hpq : p ≠ q := ne_of_pc hp hq nofun
    have h₁ : Counted (s.put q ((s.proc q).goto .embryo)) :=
      h.goto rfl trivial (by rw [hq]; exact ⟨rfl, rfl, rfl⟩) ⟨rfl, rfl, rfl, rfl⟩
    have hsame : (s.put q ((s.proc q).goto .embryo)).proc p = s.proc p := update_of_ne hpq _ _
    exact h₁.goto (by rw [hsame]; rfl) trivial (by rw [hsame, hp]; exact ⟨rfl, rfl, rfl⟩)
      ⟨rfl, rfl, rfl, rfl⟩
  | copyNone hi hp => exact h.goto rfl trivial (by rw [hp]; exact ⟨rfl, rfl, rfl⟩) ⟨rfl, rfl, rfl, rfl⟩
  | @copy p q i f T hi hp hfd hT =>
    obtain ⟨hq, hfree⟩ := hf.embryo p q i hp
    have h₁ := h.copy hp hq (hfree ⟨i, hi⟩ (Nat.le_refl i)) hfd hT
    have hsame : (s.put q ((s.proc q).setFd ⟨i, hi⟩ (some f))).proc p = s.proc p :=
      update_of_ne (ne_of_pc hp hq nofun) _ _
    exact h₁.goto (p := p) (y := (s.proc p).goto (.fork q (i + 1))) (by simp only [hsame]; rfl) trivial
      (by simp only [hsame, hp]; exact ⟨rfl, rfl, rfl⟩) ⟨rfl, rfl, rfl, rfl⟩
  | @forked p q hp =>
    obtain ⟨hq, -⟩ := hf.embryo p q _ hp
    have h₁ : Counted (s.put q ((s.proc q).goto .user)) :=
      h.goto rfl trivial (by rw [hq]; exact ⟨rfl, rfl, rfl⟩) ⟨rfl, rfl, rfl, rfl⟩
    have hsame : (s.put q ((s.proc q).goto .user)).proc p = s.proc p :=
      update_of_ne (ne_of_pc hp hq nofun) _ _
    exact h₁.goto (by rw [hsame]; rfl) trivial (by rw [hsame, hp]; exact ⟨rfl, rfl, rfl⟩)
      ⟨rfl, rfl, rfl, rfl⟩
  | @reap q hq =>
    have hg := h.good q
    rw [Proc.Good, hq] at hg
    exact h.goto rfl hg (by rw [hq]; exact ⟨rfl, rfl, rfl⟩) ⟨rfl, rfl, rfl, rfl⟩

end Counted

namespace Forks

theorem of_start (h : Start s) : Forks s := by
  have hno : ∀ p q i, (s.proc p).pc ≠ .fork q i := fun p q i hf => by
    rcases h.pc p with hp | hp <;> exact nomatch hp.symm.trans hf
  exact ⟨fun p q i hf => absurd hf (hno p q i), fun p p' q i j hf => absurd hf (hno p q i)⟩

theorem not_forked (h : Forks s) (hp : (s.proc p).pc ≠ .embryo) (r : Slot) (i : Nat) :
    (s.proc r).pc ≠ .fork p i := fun hf => hp (h.embryo r p i hf).1

/-- A process moves that nobody forks, and not into `fork`. -/
theorem put (h : Forks s) {y : Proc} (hp : ∀ r i, (s.proc r).pc ≠ .fork p i) (hy : ∀ q i, y.pc ≠ .fork q i)
    (hproc : s'.proc = (s.put p y).proc) : Forks s' := by
  have hself : s'.proc p = y := by rw [hproc, State.put_proc, update_self]
  have hother : ∀ {r}, r ≠ p → s'.proc r = s.proc r := fun hr => by
    rw [hproc, State.put_proc, update_of_ne hr]
  have hne : ∀ {r q i}, (s'.proc r).pc = .fork q i → r ≠ p := fun hf he => by
    rw [he, hself] at hf
    exact hy _ _ hf
  refine ⟨fun r q i hf => ?_, fun r r' q i j hf hf' => ?_⟩
  · rw [hother (hne hf)] at hf
    rw [hother fun he => hp r i (he ▸ hf)]
    exact h.embryo r q i hf
  · rw [hother (hne hf)] at hf
    rw [hother (hne hf')] at hf'
    exact h.forker r r' q i j hf hf'

/-- `fork` starts, with the descriptors of the new process empty, or goes on to the next one. -/
theorem advance (h : Forks s) {y z : Proc} (hpq : p ≠ q)
    (hproc : s'.proc = update (update s.proc q y) p z) (hz : z.pc = .fork q i)
    (hy : y.pc = .embryo) (hfree : ∀ fd : Fin NOFILE, i ≤ fd.val → y.ofile fd = none)
    (hp : (s.proc p).pc ≠ .embryo) (hq : ∀ r j, r ≠ p → (s.proc r).pc ≠ .fork q j) : Forks s' := by
  have hself : s'.proc p = z := by rw [hproc, update_self]
  have hnew : s'.proc q = y := by rw [hproc, update_of_ne hpq.symm, update_self]
  have hother : ∀ {r}, r ≠ p → r ≠ q → s'.proc r = s.proc r := fun hr hr' => by
    rw [hproc, update_of_ne hr, update_of_ne hr']
  have hold : ∀ {r q' j}, r ≠ p → (s'.proc r).pc = .fork q' j → (s.proc r).pc = .fork q' j := by
    intro r q' j hr hf
    have hrq : r ≠ q := fun he => by
      rw [he, hnew, hy] at hf
      exact nomatch hf
    rwa [hother hr hrq] at hf
  refine ⟨fun r q' j hf => ?_, fun r r' q' j j' hf hf' => ?_⟩
  · by_cases hr : r = p
    · rw [hr, hself, hz] at hf
      obtain ⟨rfl, rfl⟩ := Pc.fork.inj hf
      rw [hnew]
      exact ⟨hy, hfree⟩
    · have hf := hold hr hf
      obtain ⟨hemb, hnone⟩ := h.embryo r q' j hf
      rw [hother (fun he => hp (he ▸ hemb)) fun he => hq r j hr (he ▸ hf)]
      exact ⟨hemb, hnone⟩
  · have hq' : ∀ {r j}, (s'.proc r).pc = .fork q' j → r = p → q' = q := fun hf he => by
      rw [he, hself, hz] at hf
      exact (Pc.fork.inj hf).1.symm
    by_cases hr : r = p <;> by_cases hr' : r' = p
    · rw [hr, hr']
    · exact absurd (hq' hf hr ▸ hold hr' hf') (hq r' j' hr')
    · exact absurd (hq' hf' hr' ▸ hold hr hf) (hq r j hr)
    · exact h.forker r r' q' j j' (hold hr hf) (hold hr' hf')

/-- **Every step keeps this.** -/
theorem step (h : Forks s) (hc : Counted s) (hstep : Step s e s') : Forks s' := by
  cases hstep with
  | act hm hd =>
    exact h.put (h.not_forked hm.not_fork.1) (fun q i => (hm.not_fork.2 q i).2) rfl
  | @fork p q hp hq =>
    have hgood := hc.good q
    rw [Proc.Good, hq] at hgood
    refine h.advance (ne_of_pc hp hq (by rintro ⟨⟩)) rfl rfl rfl (fun fd _ => hgood fd) (by rw [hp]; rintro ⟨⟩)
      fun r j _ hf => ?_
    cases hq.symm.trans (h.embryo r q j hf).1
  | @copyNone p q i hi hp hfd =>
    obtain ⟨hq, hfree⟩ := h.embryo p q i hp
    refine h.advance (y := s.proc q) (z := (s.proc p).goto (.fork q (i + 1))) (ne_of_pc hp hq (by rintro ⟨⟩)) ?_ rfl hq
      (fun fd hfd => hfree fd (Nat.le_of_succ_le hfd)) (by rw [hp]; rintro ⟨⟩)
      fun r j hr hf => hr (h.forker r p q j i hf hp)
    rw [update_eq_self]
    rfl
  | @copy p q i f T hi hp hfd hT =>
    obtain ⟨hq, hfree⟩ := h.embryo p q i hp
    refine h.advance (ne_of_pc hp hq (by rintro ⟨⟩)) rfl rfl hq (fun fd hfd => ?_) (by rw [hp]; rintro ⟨⟩)
      fun r j hr hf => hr (h.forker r p q j i hf hp)
    have hne : fd ≠ ⟨i, hi⟩ := fun he => by
      rw [he] at hfd
      exact Nat.lt_irrefl i hfd
    exact (update_of_ne hne _ _).trans (hfree fd (Nat.le_of_succ_le hfd))
  | @forked p q hp =>
    obtain ⟨hq, -⟩ := h.embryo p q _ hp
    have h₁ : Forks (s.put p ((s.proc p).goto .user)) :=
      h.put (h.not_forked (by rw [hp]; rintro ⟨⟩)) (fun q i hf => by cases (hf : Pc.user = .fork q i)) rfl
    -- nobody else was forking this process
    refine h₁.put (p := q) (y := (s.proc q).goto .user) (fun r j hf => ?_)
      (fun q i hf => by cases (hf : Pc.user = .fork q i)) ?_
    · by_cases hr : r = p
      · rw [hr, State.put_proc, update_self] at hf
        cases hf
      · rw [State.put_proc, update_of_ne hr] at hf
        exact hr (h.forker r p q j _ hf hp)
    · exact update_comm (ne_of_pc hp hq (by rintro ⟨⟩)).symm _ _ _
  | reap hq =>
    exact h.put (h.not_forked (by rw [hq]; rintro ⟨⟩))
      (fun q i hf => by cases (hf : Pc.unused = .fork q i)) rfl

end Forks

end Xv6.Fd
