import Xv6Ipc.Machinery.Tally
import Xv6Ipc.Descriptors.Model

/-!
# Descriptors/Owner — what a process owns

In the middle of a call a process may hold a reference that no descriptor shows, or show a descriptor
that no reference backs.  Both are read off the place where it is:

    own  =  descriptors  −  the one not backed (dup, exit)  +  files in hand (open, pipe, close)

A step of the process changes this by the reference it makes or gives up (`Move.own`).
-/

namespace Xv6.Fd

open Tally

variable {x x' : Proc} {a : Act} {f g : FileId} {fd : Fin NOFILE} {i : Nat}

/-! ## What a process owns -/

/-- The files in hand. -/
def Cont.inflight : Cont → List FileId
  | .close f k => f :: k.inflight
  | _ => []

/-- The descriptor that is not backed by a reference. -/
def Cont.hidden : Cont → Option (Fin NOFILE)
  | .ret _ => none
  | .close _ k => k.hidden
  | .clear i => some i

namespace Pc

def inflight : Pc → List FileId
  | .back k | .drop _ _ k | .free _ k => k.inflight
  | .close f k => f :: k.inflight
  | .opened f | .pipe1 f => [f]
  | .pipe2 f g | .pipe3 f g _ | .pipe4 f g => [f, g]
  | .pipe5 _ g _ => [g]
  | _ => []

def hidden : Pc → Option (Fin NOFILE)
  | .back k | .drop _ _ k | .free _ k | .close _ k => k.hidden
  | .dup _ fd _ => some fd
  | _ => none

/-- The files whose fields have not been written. -/
def raw : Pc → List FileId
  | .opened f | .naming f _ | .pipe1 f => [f]
  | .pipe2 f g | .pipe3 f g _ => [f, g]
  | _ => []

/-- The files in hand whose fields have been written. -/
def typed : Pc → List FileId
  | .pipe4 f g => [f, g]
  | .pipe5 _ g _ => [g]
  | _ => []

end Pc

namespace Proc

/-- The descriptors that are backed by references. -/
def counted (x : Proc) : Fin NOFILE → Option FileId :=
  match x.pc.hidden with
  | none => x.ofile
  | some i => Function.update x.ofile i none

/-- **How many references a process has to a file.** -/
def own (x : Proc) (f : FileId) : Nat := places x.counted f + x.pc.inflight.count f

/-- A process may use this file: it has a descriptor, or the file in hand, and its fields are written. -/
def Typed (x : Proc) (f : FileId) : Prop :=
  (∃ fd, x.counted fd = some f ∧ x.pc ≠ .naming f fd) ∨ f ∈ x.pc.typed

theorem counted_of_none (h : x.pc.hidden = none) : x.counted = x.ofile := by rw [counted, h]

theorem counted_of_some {i : Fin NOFILE} (h : x.pc.hidden = some i) :
    x.counted = Function.update x.ofile i none := by rw [counted, h]

theorem own_pos_of_counted (fd : Fin NOFILE) (h : x.counted fd = some f) : 0 < x.own f :=
  Nat.add_pos_left (places_pos h) _

theorem own_pos_of_inflight (h : f ∈ x.pc.inflight) : 0 < x.own f :=
  Nat.add_pos_right _ (List.count_pos_iff.mpr h)

theorem counted_congr (hofile : x'.ofile = x.ofile) (hhidden : x'.pc.hidden = x.pc.hidden) :
    x'.counted = x.counted := by rw [counted, counted, hofile, hhidden]

end Proc

theorem fdalloc_spec {ofile : Fin NOFILE → Option FileId} (h : fdalloc ofile = some fd) :
    ofile fd = none := by
  simpa using List.find?_some h

/-- The descriptor that `sys_dup` has written is not backed yet. -/
theorem Proc.counted_dup {src : Fin NOFILE} (h : fdalloc x.ofile = some fd) :
    ((x.enter (.dup src fd f)).setFd fd (some f)).counted = x.ofile :=
  (Function.update_idem ..).trans (Function.update_eq_self_iff.mpr (fdalloc_spec h).symm)

/-! ## Where a process may be -/

/-- What holds where a process goes on: a call about to fail has its descriptors as they were, and `exit` has
cleared those before the one it is at. -/
def Cont.Good (ofile entry : Fin NOFILE → Option FileId) : Cont → Prop
  | .ret r => r = -1 → ofile = entry
  | .close _ k => k.Good ofile entry
  | .clear i => ∀ fd < i, ofile fd = none

/-- **What holds where a process is.** -/
def Proc.Good (x : Proc) : Prop :=
  match x.pc with
  | .user | .fork _ _ | .embryo => True
  | .back k | .drop _ _ k | .free _ k | .close _ k => k.Good x.ofile x.entry
  | .opening | .opened _ | .pipe | .pipe1 _ | .pipe2 _ _ | .pipe3 _ _ _ | .pipe4 _ _ =>
    x.ofile = x.entry
  | .naming f fd => x.ofile fd = some f
  | .dup src fd f => x.ofile src = some f ∧ src ≠ fd ∧ x.ofile fd = some f
  | .pipe5 f _ fd => x.ofile fd = some f ∧ Function.update x.ofile fd none = x.entry
  | .pipeio fd f _ => x.ofile fd = some f ∧ x.ofile = x.entry
  | .exit i => ∀ fd : Fin NOFILE, fd.val < i → x.ofile fd = none
  | .zombie | .unused => ∀ fd, x.ofile fd = none

/-- **A process keeps to its calls.** -/
theorem Move.good (h : Move x a x') (hx : x.Good) : x'.Good := by
  cases h with
  | quick | ioRefused | ioInode => exact fun _ => rfl
  | ret => exact trivial
  | «open» | pipe => exact rfl
  | openFull hpc | pipeFull hpc | openNoFd hpc | pipeFull1 hpc | pipeNoPage hpc | pipeNoFd hpc =>
    rw [Proc.Good, hpc] at hx
    exact fun _ => hx
  | openFile hpc | pipeFile hpc | pipeFile1 hpc | pipePage hpc | pipeFill hpc | fileclose hpc
  | fileclosePipe hpc | pipeclose hpc | pipecloseLast hpc | kfree hpc | next hpc =>
    rw [Proc.Good, hpc] at hx
    exact hx
  | openFd hpc hfd => exact Function.update_self ..
  | openName r w hpc | dupRef hpc => exact fun hr => by omega
  | @dup src fd f hpc hsrc hfd =>
    have hne : src ≠ fd := fun he => nomatch (fdalloc_spec (he ▸ hfd)).symm.trans hsrc
    exact ⟨(Function.update_of_ne hne _ _).trans hsrc, hne, Function.update_self ..⟩
  | close | pipeFd1 hpc => exact fun hr => nomatch hr
  | @clear i hpc =>
    rw [Proc.Good, hpc] at hx
    intro fd hfd
    by_cases he : fd = i
    · rw [he]
      exact Function.update_self ..
    · refine (Function.update_of_ne he _ _).trans (hx fd ?_)
      exact Nat.lt_of_le_of_ne (Nat.le_of_lt_succ hfd) fun hv => he (Fin.ext hv)
  | @pipeFd f g fd hpc hfd =>
    rw [Proc.Good, hpc] at hx
    refine ⟨Function.update_self .., ?_⟩
    have hnone := fdalloc_spec hfd
    exact (Function.update_idem ..).trans ((Function.update_eq_self_iff.mpr hnone.symm).trans hx)
  | pipeNoFd1 hpc | pipeDone r hpc =>
    rw [Proc.Good, hpc] at hx
    exact fun _ => hx.2
  | ioPipe w hpc hfd => exact ⟨hfd, rfl⟩
  | pipeUse hpc => exact hx
  | exit => exact fun fd hfd => absurd hfd (Nat.not_lt_zero _)
  | @exitSkip i hi hpc hnone =>
    rw [Proc.Good, hpc] at hx
    intro fd hfd
    rcases Nat.lt_succ_iff_lt_or_eq.mp hfd with hlt | heq
    · exact hx fd hlt
    · rw [show fd = ⟨i, hi⟩ from Fin.ext heq]
      exact hnone
  | exitClose hi hpc =>
    rw [Proc.Good, hpc] at hx
    exact fun fd hfd => hx fd hfd
  | exited hpc =>
    rw [Proc.Good, hpc] at hx
    exact fun fd => hx fd fd.isLt

/-! ## What a step gains and loses -/

/-- The reference that an act makes. -/
def Act.gain : Act → FileId → Nat
  | .filealloc (some f) | .filedup f => mark (some f)
  | _ => fun _ => 0

/-- The reference that an act gives up. -/
def Act.loss : Act → FileId → Nat
  | .fileclose f _ => mark (some f)
  | _ => fun _ => 0

/-- What a process owns, spelled out. -/
theorem Proc.own_eq {c : Fin NOFILE → Option FileId} {l : List FileId} (hc : x.counted = c)
    (hl : x.pc.inflight = l) (g : FileId) : x.own g = places c g + l.count g := by
  rw [Proc.own, hc, hl]

/-- A step that leaves the descriptors alone. -/
theorem Proc.own_hand {m n : Nat} (hc : x'.counted = x.counted)
    (h : x'.pc.inflight.count g + m = x.pc.inflight.count g + n) : x'.own g + m = x.own g + n := by
  rw [Proc.own, Proc.own, hc, Nat.add_assoc, h, Nat.add_assoc]

/-- A step that writes a descriptor. -/
theorem Proc.own_put {o o' : Option FileId} {m n : Nat} (hpc : x.pc.hidden = none)
    (ho : x.ofile fd = o) (hc : x'.counted = Function.update x.ofile fd o')
    (h : mark o' g + x'.pc.inflight.count g + m = mark o g + x.pc.inflight.count g + n) :
    x'.own g + m = x.own g + n := by
  have hp := places_update x.ofile fd o' g
  rw [ho] at hp
  rw [Proc.own_eq hc rfl, Proc.own_eq (Proc.counted_of_none hpc) rfl]
  omega

/-- **A process owns what it has taken and not given up.** -/
theorem Move.own (h : Move x a x') (hx : x.Good) (g : FileId) :
    x'.own g + a.loss g = x.own g + a.gain g := by
  cases h with
  | openFile hpc | pipeFile hpc | pipeFile1 hpc | fileclose hpc | fileclosePipe hpc =>
    refine Proc.own_hand (Proc.counted_congr rfl (by rw [hpc]; rfl)) ?_
    rw [hpc]
    simp [Pc.inflight, Act.gain, Act.loss, Tally.count_cons, Nat.add_comm]
  | openFd hpc hfd | pipeFd hpc hfd | pipeFd1 hpc hfd =>
    refine Proc.own_put (congrArg Pc.hidden hpc) (fdalloc_spec hfd) rfl ?_
    rw [hpc]
    simp [Pc.inflight, Cont.inflight, Act.gain, Act.loss, Tally.count_cons, Nat.add_comm]
  | close hpc hfd | exitClose _ hpc hfd =>
    refine Proc.own_put (congrArg Pc.hidden hpc) hfd rfl ?_
    rw [hpc]
    simp [Pc.inflight, Cont.inflight, Act.gain, Act.loss, Tally.count_cons]
  | pipeNoFd1 hpc =>
    rw [Proc.Good, hpc] at hx
    refine Proc.own_put (congrArg Pc.hidden hpc) hx.1 rfl ?_
    rw [hpc]
    simp [Pc.inflight, Cont.inflight, Act.gain, Act.loss, Tally.count_cons, Nat.add_comm]
  | dup hpc hsrc hfd =>
    refine Proc.own_hand ?_ (by rw [hpc]; rfl)
    exact (Proc.counted_dup hfd).trans (Proc.counted_of_none (congrArg Pc.hidden hpc)).symm
  | @dupRef src fd f hpc =>
    rw [Proc.Good, hpc] at hx
    have hp := places_update x.ofile fd none g
    rw [hx.2.2, mark_none] at hp
    rw [Proc.own_eq (Proc.counted_of_some (congrArg Pc.hidden hpc)) (congrArg Pc.inflight hpc)]
    exact (congrArg (· + _) hp.symm).trans (Nat.add_right_comm ..)
  | clear hpc =>
    refine Proc.own_hand ?_ (by rw [hpc]; rfl)
    rw [Proc.counted_of_some (congrArg Pc.hidden hpc)]
    rfl
  | pipeUse => rfl
  | _ =>
    have hpc := ‹x.pc = _›
    exact Proc.own_hand (Proc.counted_congr rfl (by rw [hpc]; rfl)) (by rw [hpc]; rfl)

/-! ## What a process touches -/

/-- The files that an act writes. -/
def Act.files : Act → List FileId
  | .filealloc (some f) | .filedup f | .fileclose f _ | .name f _ _ => [f]
  | .fill f g _ => [f, g]
  | _ => []

/-- The files whose fields an act writes. -/
def Act.names : Act → List FileId
  | .name f _ _ => [f]
  | .fill f g _ => [f, g]
  | _ => []

/-- The files whose fields are not written are in hand, or under the last descriptor. -/
theorem Proc.own_pos_of_raw (hx : x.Good) (h : f ∈ x.pc.raw) : 0 < x.own f := by
  cases hpc : x.pc with
  | opened f' | pipe1 f' | pipe2 f' g' | pipe3 f' g' b =>
    rw [hpc] at h
    exact Proc.own_pos_of_inflight (by rw [hpc]; exact h)
  | naming f' fd =>
    rw [hpc] at h
    rw [Proc.Good, hpc] at hx
    rw [← List.mem_singleton.mp h] at hx
    exact Proc.own_pos_of_counted fd ((congrFun (Proc.counted_of_none (congrArg Pc.hidden hpc)) fd).trans hx)
  | _ =>
    rw [hpc] at h
    exact absurd h List.not_mem_nil

theorem Proc.own_pos_of_typed (h : x.Typed f) : 0 < x.own f := by
  rcases h with ⟨fd, h, -⟩ | h
  · exact Proc.own_pos_of_counted fd h
  · refine Proc.own_pos_of_inflight ?_
    cases hpc : x.pc with
    | pipe4 | pipe5 =>
      rw [hpc] at h
      exact h
    | _ =>
      rw [hpc] at h
      exact absurd h List.not_mem_nil

/-- A file that may be used after a step, if the descriptors are as they were… -/
theorem Proc.Typed.of_same (h : x'.Typed f) (hc : x'.counted = x.counted)
    (hn : ∀ fd, x.pc ≠ .naming f fd) (ht : x'.pc.typed = []) : x.Typed f := by
  rcases h with ⟨fd, hfd, -⟩ | h
  · exact .inl ⟨fd, hc ▸ hfd, hn fd⟩
  · rw [ht] at h
    exact absurd h List.not_mem_nil

/-- An entry of a table that has been written in one place. -/
theorem update_eq_some {c : Fin NOFILE → Option FileId} {o : Option FileId} {i : Fin NOFILE}
    (h : Function.update c i o fd = some f) : fd = i ∧ o = some f ∨ c fd = some f := by
  by_cases hfd : fd = i
  · rw [hfd, Function.update_self] at h
    exact .inl ⟨hfd, h⟩
  · rw [Function.update_of_ne hfd] at h
    exact .inr h

/-- …or one of them has been written, with a file in hand. -/
theorem Proc.Typed.of_put {o : Option FileId} {i : Fin NOFILE} (h : x'.Typed f)
    (hpc : x.pc.hidden = none) (hn : ∀ fd, x.pc ≠ .naming f fd)
    (hc : x'.counted = Function.update x.ofile i o) (ho : o = some f → f ∈ x.pc.typed)
    (ht : f ∈ x'.pc.typed → f ∈ x.pc.typed) : x.Typed f := by
  rcases h with ⟨fd, hfd, -⟩ | h
  · rw [hc] at hfd
    rcases update_eq_some hfd with ⟨-, hf⟩ | hfd
    · exact .inr (ho hf)
    · exact .inl ⟨fd, by rw [Proc.counted_of_none hpc]; exact hfd, hn fd⟩
  · exact .inr (ht h)

namespace Move

/-- **A process writes the files that it has, or has just been given.** -/
theorem touch (h : Move x a x') (hx : x.Good) (hg : g ∈ a.files) :
    a = .filealloc (some g) ∨ 0 < x.own g := by
  cases h with
  | openFile | pipeFile | pipeFile1 => exact .inl (by rw [List.mem_singleton.mp hg])
  | openName r w hpc =>
    exact .inr (Proc.own_pos_of_raw hx (by rw [hpc]; exact hg))
  | pipeFill hpc => exact .inr (Proc.own_pos_of_inflight (by rw [hpc]; exact hg))
  | @dupRef src fd f hpc =>
    rw [Proc.Good, hpc] at hx
    rw [List.mem_singleton.mp hg]
    refine .inr (Proc.own_pos_of_counted src ?_)
    rw [Proc.counted_of_some (congrArg Pc.hidden hpc), Function.update_of_ne hx.2.1]
    exact hx.1
  | fileclose hpc | fileclosePipe hpc =>
    refine .inr (Proc.own_pos_of_inflight ?_)
    rw [hpc, List.mem_singleton.mp hg]
    exact List.mem_cons_self
  | _ => exact absurd hg List.not_mem_nil

/-- Fields are written of files that have none. -/
theorem names (h : Move x a x') (hg : g ∈ a.names) : g ∈ x.pc.raw := by
  cases h with
  | openName r w hpc | pipeFill hpc =>
    rw [hpc]
    exact hg
  | _ => exact absurd hg List.not_mem_nil

/-- The files whose fields are not written, after a step. -/
theorem raw (h : Move x a x') (hg : g ∈ x'.pc.raw) :
    a = .filealloc (some g) ∨ g ∈ x.pc.raw ∧ g ∉ a.files := by
  cases h with
  | openFile | pipeFile => exact .inl (by rw [List.mem_singleton.mp hg])
  | openFd hpc | pipePage hpc => exact .inr ⟨by rw [hpc]; exact hg, List.not_mem_nil⟩
  | @pipeFile1 f f' hpc =>
    by_cases hgf : g = f'
    · exact .inl (by rw [hgf])
    · refine .inr ⟨?_, fun hf => hgf (List.mem_singleton.mp hf)⟩
      rw [hpc]
      rcases List.mem_cons.mp hg with hg | hg
      · exact List.mem_singleton.mpr hg
      · exact absurd (List.mem_singleton.mp hg) hgf
  | pipeUse hpc =>
    rw [hpc] at hg
    exact absurd hg List.not_mem_nil
  | _ => exact absurd hg List.not_mem_nil

/-- …are different, if the new one was not among them. -/
theorem raw_nodup (h : Move x a x') (hx : x.pc.raw.Nodup)
    (hnew : ∀ g, a = .filealloc (some g) → g ∉ x.pc.raw) : x'.pc.raw.Nodup := by
  cases h with
  | openFile | pipeFile => exact List.nodup_singleton _
  | openFd hpc | pipePage hpc =>
    rw [hpc] at hx
    exact hx
  | @pipeFile1 f f' hpc =>
    have hne : f' ∉ x.pc.raw := hnew f' rfl
    rw [hpc] at hne
    exact (List.nodup_singleton f').cons fun hf => hne (List.mem_singleton.mpr (List.mem_singleton.mp hf).symm)
  | pipeUse hpc => exact hx
  | _ => exact .nil

/-- The files that may be used, after a step. -/
theorem typed (h : Move x a x') (hx : x.Good) (hg : x'.Typed g) : x.Typed g ∨ g ∈ a.names := by
  cases h with
  | @openFd f fd hpc hfd =>
    have hc : x.counted = x.ofile := Proc.counted_of_none (congrArg Pc.hidden hpc)
    rcases hg with ⟨fd', hfd', hne⟩ | hg
    · rcases update_eq_some hfd' with ⟨heq, hf⟩ | hfd'
      · exact absurd (by rw [heq, Option.some.inj hf]; rfl) hne
      · exact .inl (.inl ⟨fd', by rw [hc]; exact hfd', by rw [hpc]; exact nofun⟩)
    · exact absurd hg List.not_mem_nil
  | @openName f fd r w hpc =>
    rw [Proc.Good, hpc] at hx
    have hc : x.counted = x.ofile := Proc.counted_of_none (congrArg Pc.hidden hpc)
    rcases hg with ⟨fd', hfd', -⟩ | hg
    · by_cases heq : fd' = fd
      · rw [heq] at hfd'
        exact .inr (List.mem_singleton.mpr (Option.some.inj (hfd'.symm.trans hx)))
      · refine .inl (.inl ⟨fd', by rw [hc]; exact hfd', fun hpc' => heq ?_⟩)
        exact (Pc.naming.inj (hpc'.symm.trans hpc)).2
    · exact absurd hg List.not_mem_nil
  | dup hpc hsrc hfd =>
    refine .inl (hg.of_same ?_ (by rw [hpc]; exact nofun) rfl)
    exact (Proc.counted_dup hfd).trans (Proc.counted_of_none (congrArg Pc.hidden hpc)).symm
  | @dupRef src fd f hpc =>
    rw [Proc.Good, hpc] at hx
    have hc : x.counted = Function.update x.ofile fd none := Proc.counted_of_some (congrArg Pc.hidden hpc)
    rcases hg with ⟨fd', hfd', -⟩ | hg
    · by_cases heq : fd' = fd
      · -- the new descriptor is the copy of another
        rw [heq] at hfd'
        have hfg : f = g := Option.some.inj (hx.2.2.symm.trans hfd')
        refine .inl (.inl ⟨src, ?_, by rw [hpc]; exact nofun⟩)
        rw [hc, Function.update_of_ne hx.2.1, hx.1, hfg]
      · refine .inl (.inl ⟨fd', ?_, by rw [hpc]; exact nofun⟩)
        rw [hc, Function.update_of_ne heq]
        exact hfd'
    · exact absurd hg List.not_mem_nil
  | clear hpc =>
    refine .inl (hg.of_same ?_ (by rw [hpc]; exact nofun) rfl)
    exact (Proc.counted_of_some (congrArg Pc.hidden hpc)).symm
  | @pipeFill f f' b hpc =>
    have hc : x.counted = x.ofile := Proc.counted_of_none (congrArg Pc.hidden hpc)
    rcases hg with ⟨fd, hfd, -⟩ | hg
    · exact .inl (.inl ⟨fd, by rw [hc]; exact hfd, by rw [hpc]; exact nofun⟩)
    · exact .inr hg
  | close hpc | pipeNoFd1 hpc | exitClose _ hpc =>
    exact .inl (hg.of_put (congrArg Pc.hidden hpc) (by rw [hpc]; exact nofun) rfl nofun
      (absurd · List.not_mem_nil))
  | pipeFd hpc | pipeFd1 hpc =>
    refine .inl (hg.of_put (congrArg Pc.hidden hpc) (by rw [hpc]; exact nofun) rfl (fun hf => ?_)
      fun hf => ?_) <;> rw [hpc]
    · rw [Option.some.inj hf]
      exact List.mem_cons_self
    · exact List.mem_cons_of_mem _ hf
  | pipeUse => exact .inl hg
  | _ =>
    have hpc := ‹x.pc = _›
    exact .inl (hg.of_same (Proc.counted_congr rfl (by rw [hpc]; rfl)) (by rw [hpc]; exact nofun) rfl)

/-- `fork` is not a step of one process. -/
theorem not_fork (h : Move x a x') : x.pc ≠ .embryo ∧ ∀ q i, x.pc ≠ .fork q i ∧ x'.pc ≠ .fork q i := by
  cases h <;> simp_all

end Move

end Xv6.Fd
