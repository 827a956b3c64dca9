import Mathlib.Data.List.TakeWhile
import Xv6Ipc.Machinery.Runs
import Xv6Ipc.Process.Boot
import Xv6Ipc.Process.Effects

/-!
# Process/Tables — the table of regions, over whole runs

Every loop over `shared[]` stops at the first entry of size zero.  That works because no call ever
makes a gap:

    r₀ r₁ … rₖ₋₁ │ ∅ ∅ … ∅          share_mem writes entry k, fork copies r₀ … rₖ₋₁,
                                     exec moves them, exit and allocproc empty all ten

and because `share_mem` compares a new name with those of all regions, which are 20 bytes without a
terminator or padded with zeroes.
-/

namespace Xv6

/-! ## Names -/

/-- **`strncmp`** finds two strings equal if `strncpy` makes the same bytes of them… -/
theorem strncmp_eq_zero_iff {p q : List Nat} {n : Nat} :
    strncmp p q n = 0 ↔ strncpy p n = strncpy q n := by
  induction n generalizing p q with
  | zero => exact iff_of_true rfl rfl
  | succ n ih =>
    rw [strncmp, strncpy, strncpy, List.cons.injEq]
    by_cases hc : p.headD 0 ≠ 0 ∧ p.headD 0 = q.headD 0
    · rw [if_pos hc, ih, ← hc.2, if_neg hc.1, if_neg hc.1]
      exact (and_iff_right rfl).symm
    · rw [if_neg hc, Int.sub_eq_zero, Int.natCast_inj]
      refine ⟨fun heq => ⟨heq, ?_⟩, And.left⟩
      have hzero : p.headD 0 = 0 := by
        by_contra hne
        exact hc ⟨hne, heq⟩
      rw [if_pos hzero, if_pos (heq ▸ hzero)]

/-- …and a copied name is the name. -/
theorem strncpy_strncpy (p : List Nat) (n : Nat) : strncpy (strncpy p n) n = strncpy p n := by
  induction n generalizing p with
  | zero => rfl
  | succ n ih =>
    rw [strncpy, strncpy, List.headD_cons, List.tail_cons]
    by_cases hz : p.headD 0 = 0
    · rw [if_pos hz, if_pos hz]
    · rw [if_neg hz, if_neg hz, ih]

theorem strncmp_strncpy {p q : List Nat} {n : Nat} :
    strncmp (strncpy p n) q n = 0 ↔ strncmp p q n = 0 := by
  rw [strncmp_eq_zero_iff, strncpy_strncpy, strncmp_eq_zero_iff]

theorem strncmp_comm {p q : List Nat} {n : Nat} : strncmp p q n = 0 ↔ strncmp q p n = 0 := by
  rw [strncmp_eq_zero_iff, strncmp_eq_zero_iff, eq_comm]

/-! ## Tidy tables -/

/-- **A tidy table**: ten entries, regions first, no two of one name. -/
structure Tidy (l : List Shared) : Prop where
  length : l.length = MAXSHARED
  rest : ∀ s ∈ l.drop (regions l).length, s.sz = 0
  names : ((regions l).map Shared.name).Pairwise fun a b => strncmp a b SHAREDNAME ≠ 0

variable {l l' front rest : List Shared} {s : Shared}

theorem sz_of_mem_regions (h : s ∈ regions l) : s.sz ≠ 0 := by simpa using List.mem_takeWhile_imp h

/-- A table begins with its regions. -/
theorem regions_append_drop (l : List Shared) : regions l ++ l.drop (regions l).length = l := by
  have hpre : regions l <+: l := List.takeWhile_prefix _
  exact List.prefix_iff_eq_append.mp hpre

/-- The regions of a table that has been cut at its first free entry. -/
theorem regions_append (hfront : ∀ s ∈ front, s.sz ≠ 0) (hrest : ∀ s ∈ rest, s.sz = 0) :
    regions (front ++ rest) = front := by
  have hnone : regions rest = [] := by
    cases rest with
    | nil => rfl
    | cons s rest => simp [regions, hrest s]
  rw [regions, List.takeWhile_append_of_pos (by simpa using hfront)]
  change front ++ regions rest = front
  rw [hnone, List.append_nil]

theorem Tidy.of_append (hlen : (front ++ rest).length = MAXSHARED) (hfront : ∀ s ∈ front, s.sz ≠ 0)
    (hrest : ∀ s ∈ rest, s.sz = 0)
    (hnames : (front.map Shared.name).Pairwise fun a b => strncmp a b SHAREDNAME ≠ 0) :
    Tidy (front ++ rest) := by
  refine ⟨hlen, ?_, ?_⟩
  · rw [regions_append hfront hrest, List.drop_left]
    exact hrest
  · rw [regions_append hfront hrest]
    exact hnames

/-- A table emptied. -/
theorem Tidy.clear (hlen : l.length = MAXSHARED) : Tidy (l.map Shared.clear) := by
  have hlen' : ([] ++ l.map Shared.clear).length = MAXSHARED := by simpa using hlen
  refine Tidy.of_append hlen' (by simp) (fun s hs => ?_) .nil
  obtain ⟨t, -, rfl⟩ := List.mem_map.mp hs
  rfl

/-- The table of a child. -/
theorem Tidy.copy (h : Tidy l) (hlen : l'.length = MAXSHARED) :
    Tidy (copyShared l (l'.map Shared.clear)).2 := by
  have hlen' : l'.length = l.length := hlen.trans h.length.symm
  have hcopy := (copyShared_clear hlen').2.trans h.length
  rw [(copyShared_spec _ _ (by simpa using hlen')).2, ← List.map_drop] at hcopy ⊢
  refine Tidy.of_append hcopy (fun s => sz_of_mem_regions) (fun s hs => ?_) h.names
  obtain ⟨t, -, rfl⟩ := List.mem_map.mp hs
  rfl

/-- Names and sizes say which entries are regions. -/
theorem regions_shape
    (h : l'.map (fun s => (s.name, s.sz)) = l.map fun s => (s.name, s.sz)) :
    (regions l').map (fun s => (s.name, s.sz)) = (regions l).map fun s => (s.name, s.sz) := by
  have hmap : ∀ l : List Shared, (regions l).map (fun s => (s.name, s.sz))
      = (l.map fun s => (s.name, s.sz)).takeWhile fun x => x.2 ≠ 0 := fun l => by
    rw [List.takeWhile_map]
    rfl
  rw [hmap, hmap, h]

/-- A table whose regions have moved. -/
theorem Tidy.reshape (h : Tidy l)
    (hshape : l'.map (fun s => (s.name, s.sz)) = l.map fun s => (s.name, s.sz)) : Tidy l' := by
  have hcut := hshape
  rw [← regions_append_drop l, List.map_append, List.map_eq_append_iff] at hcut
  obtain ⟨front, rest, rfl, hfront, hrest⟩ := hcut
  have hsz : ∀ {a b : List Shared}, a.map (fun s => (s.name, s.sz)) = b.map (fun s => (s.name, s.sz)) →
      ∀ s ∈ a, ∃ t ∈ b, t.sz = s.sz := fun hab s hs => by
    obtain ⟨t, ht, he⟩ := List.mem_map.mp (hab ▸ List.mem_map_of_mem hs)
    exact ⟨t, ht, (Prod.mk.inj he).2⟩
  refine Tidy.of_append ?_ (fun s hs => ?_) (fun s hs => ?_) ?_
  · rw [← h.length]
    simpa using congrArg List.length hshape
  · obtain ⟨t, ht, he⟩ := hsz hfront s hs
    rw [← he]
    exact sz_of_mem_regions ht
  · obtain ⟨t, ht, he⟩ := hsz hrest s hs
    rw [← he]
    exact h.rest t ht
  · have hname : front.map Shared.name = (regions l).map Shared.name := by
      have := congrArg (List.map Prod.fst) hfront
      rwa [List.map_map, List.map_map] at this
    rw [hname]
    exact h.names

/-! ## `share_mem` -/

/-- **A registered region keeps the table tidy**, whatever its size. -/
theorem Tidy.register (h : Tidy l) (name : List Nat) (vamem : Nat) (sz : CInt) :
    Tidy (registerFrom name vamem sz 0 l).2 := by
  rcases registerFrom_cases name vamem sz 0 l with ⟨-, hsame⟩ | ⟨-, hlt, hset, hnew⟩
  · rwa [hsame]
  obtain ⟨s, rest, hrest⟩ : ∃ s rest, l.drop (regions l).length = s :: rest :=
    List.exists_cons_of_ne_nil (by simpa using hlt)
  have hcut : l = regions l ++ s :: rest := by rw [← hrest, regions_append_drop]
  have hzero : ∀ t ∈ rest, t.sz = 0 := fun t ht => h.rest t (by simp [hrest, ht])
  have htable : (registerFrom name vamem sz 0 l).2
      = regions l ++ ⟨strncpy name SHAREDNAME, vamem, sz⟩ :: rest := by
    rw [hset]
    nth_rewrite 1 [hcut]
    rw [List.set_append_right _ _ le_rfl, Nat.sub_self, List.set_cons_zero]
  have hlen : (registerFrom name vamem sz 0 l).2.length = MAXSHARED := by
    rw [hset, List.length_set, h.length]
  rw [htable] at hlen ⊢
  by_cases hz : sz = 0
  · refine Tidy.of_append hlen (fun t => sz_of_mem_regions) (fun t ht => ?_) h.names
    rcases List.mem_cons.mp ht with rfl | ht
    · exact hz
    · exact hzero t ht
  · rw [List.append_cons] at hlen ⊢
    refine Tidy.of_append hlen (fun t ht => ?_) hzero ?_
    · rcases List.mem_append.mp ht with ht | ht
      · exact sz_of_mem_regions ht
      · rw [List.mem_singleton.mp ht]
        exact hz
    · rw [List.map_append, List.pairwise_append]
      refine ⟨h.names, List.pairwise_singleton _ _, fun a ha b hb => ?_⟩
      obtain ⟨t, ht, rfl⟩ := List.mem_map.mp ha
      rw [List.map_singleton, List.mem_singleton] at hb
      rw [hb, Ne, strncmp_comm, strncmp_strncpy]
      exact hnew t ht

/-! ## Over one call -/

/-- **What a call by `c` can make of the table of slot `s`.** -/
inductive Retabled (k : Kernel) (c s : Slot) : Call → List Shared → Prop
  | same {call : Call} : Retabled k c s call (k.proc s).shared
  | exited : s = c → Retabled k c s .exit ((k.proc s).shared.map Shared.clear)
  | allocated : (k.proc s).state = .unused →
    Retabled k c s .fork ((k.proc s).shared.map Shared.clear)
  | copied : (k.proc s).state = .unused →
    Retabled k c s .fork (copyShared (k.proc c).shared ((k.proc s).shared.map Shared.clear)).2
  | moved {a : ExecArgs} {l : List Shared} : s = c →
    l.map (fun s => (s.name, s.sz)) = (k.proc s).shared.map (fun s => (s.name, s.sz)) →
    Retabled k c s (.exec a) l
  | registered {b : ShareArgs} : s = c →
    Retabled k c s (.shareMem (some b)) (registerFrom b.name b.vamem b.sz 0 (k.proc s).shared).2

variable {L : Linker} {k k' : Kernel} {c q : Slot} {call : Call}

/-- A call that writes one slot. -/
theorem Retabled.of_slot {t : List Shared} (hother : ∀ s, s ≠ q → k'.proc s = k.proc s)
    (hq : (k'.proc q).shared = t) (ht : Retabled k c q call t) (s : Slot) :
    Retabled k c s call (k'.proc s).shared := by
  by_cases hs : s = q
  · subst hs
    rwa [hq]
  · rw [hother s hs]
    exact .same

/-- …and one that does not touch its table. -/
theorem Retabled.of_same (hother : ∀ s, s ≠ q → k'.proc s = k.proc s)
    (hq : (k'.proc q).shared = (k.proc q).shared) (s : Slot) :
    Retabled k c s call (k'.proc s).shared := .of_slot hother hq .same s

open Function in
theorem fork_retabled {r : Int} (hl : (k.proc c).Live) (h : fork L k c = .ok (r, k')) (s : Slot) :
    Retabled k c s .fork (k'.proc s).shared := by
  have hends := fork_ends (L := L) hl
  rw [h] at hends
  cases hends with
  | full => exact .same
  | stackless =>
    exact .of_same (fun _ hs => update_of_ne hs _ _) (by rw [Kernel.setProc_proc_self]) s
  | failed ha =>
    exact .of_slot (fun _ hs => update_of_ne hs _ _) (congrArg Proc.shared (update_self ..))
      (.allocated ha.unused) s
  | leaked ha | forked ha =>
    exact .of_slot (fun _ hs => update_of_ne hs _ _) (congrArg Proc.shared (update_self ..))
      (.copied ha.unused) s

theorem exec_retabled {a : ExecArgs} {r : Int} (h : exec L k c a = .ok (r, k')) (s : Slot) :
    Retabled k c s (.exec a) (k'.proc s).shared := by
  rcases exec_inv h with ⟨m, -, -, rfl⟩ | ⟨i, m₁, m₂, shared, -, hlink, ⟨m₃, -, -, rfl⟩ |
    ⟨sz, sp, m₃, m₄, -, -, -, rfl⟩⟩
  · exact .same
  all_goals
    refine .of_slot (fun s hs => Kernel.setProc_proc_of_ne _ _ _ hs) ?_
      (.moved rfl (linkImage_shape hlink)) s
    rw [Kernel.setProc_proc_self]
    try rfl

/-- **One call, every table.** -/
theorem Step.retabled {e : Event} (h : Step L k e k') (s : Slot) :
    Retabled k e.who s e.call (k'.proc s).shared := by
  obtain ⟨c, call, r⟩ := e
  obtain ⟨hruns, hcall⟩ := h
  change Retabled k c s call (k'.proc s).shared
  cases syscall_returned hcall with
  | fork hr => exact fork_retabled hruns.live hr s
  | exec hr =>
    rcases sysExec_inv hr with rfl | ⟨-, -, hr⟩
    · exact .same
    · exact exec_retabled hr s
  | exit hr =>
    have hexit := exit_spec hr
    by_cases hs : s = c
    · rw [hs, hexit.own]
      exact .exited rfl
    · rw [(hexit.quiet.rest s hs).shared]
      exact .same
  | wait hr =>
    rcases wait_inv hr with rfl | ⟨q, m₁, m₂, -, -, -, -, rfl⟩
    · exact .same
    · exact .of_same (q := q) (fun s hs => Kernel.setProc_proc_of_ne _ _ _ hs)
        (by rw [Kernel.setProc_proc_self]; rfl) s
  | sbrk hr =>
    rcases sysSbrk_inv hr with ⟨-, rfl⟩ | ⟨sz, m, -, rfl⟩
    · exact .same
    · exact .of_same (q := c) (fun s hs => Kernel.setProc_proc_of_ne _ _ _ hs)
        (by rw [Kernel.setProc_proc_self]) s
  | @shareMem a _ _ hr =>
    rcases sysShareMem_cases k c a with hs | ⟨b, rfl, -, hs⟩
    · rw [hs] at hr
      obtain ⟨-, rfl⟩ := Prod.mk.inj hr
      exact .same
    · rw [hs] at hr
      obtain ⟨-, rfl⟩ := Prod.mk.inj hr
      exact .of_slot (fun s hs => Kernel.setProc_proc_of_ne _ _ _ hs)
        (by rw [Kernel.setProc_proc_self]) (.registered rfl) s
  | «open» hr =>
    have hrefs := sysOpen_refs hr
    exact .of_same hrefs.other (by rw [hrefs.own]) s
  | close hr =>
    have hrefs := sysClose_refs hr
    exact .of_same hrefs.other (by rw [hrefs.own]) s

/-! ## Over a run -/

theorem Retabled.tidy {c s : Slot} {t : List Shared} (h : Retabled k c s call t)
    (hk : ∀ s, Tidy (k.proc s).shared) : Tidy t := by
  cases h with
  | same => exact hk s
  | exited _ | allocated _ => exact .clear (hk s).length
  | copied _ => exact (hk c).copy (hk s).length
  | moved _ hshape => exact (hk s).reshape hshape
  | registered _ => exact (hk s).register _ _ _

theorem Boot.tidy (h : Boot L k) (s : Slot) : Tidy (k.proc s).shared := by
  obtain ⟨k₀, f, d, -, hb⟩ := h.booted
  have hzero : (k.proc s).shared = List.replicate MAXSHARED .zero := by
    by_cases hs : s = k.initproc
    · subst hs
      rw [hb.first]
      rfl
    · rw [hb.other hs]
      rfl
  rw [hzero]
  exact Tidy.clear (l := List.replicate MAXSHARED .zero) (List.length_replicate ..)

/-- **In every state reached, every table is tidy.** -/
theorem tidy_of_reach (h : Runs.Reach (Boot L) (Step L) k) : ∀ s, Tidy (k.proc s).shared :=
  h.keeps (P := fun k => ∀ s, Tidy (k.proc s).shared) (fun _ hb => hb.tidy)
    fun _ _ _ hk hstep s => (hstep.retabled s).tidy hk

/-- The regions are the entries before the first free one… -/
theorem Tidy.sized (h : Tidy l) {i : Nat} (hi : l[i]? = some s) :
    s.sz ≠ 0 ↔ i < (regions l).length := by
  rw [← regions_append_drop l, List.getElem?_append] at hi
  split at hi
  · rename_i hlt
    exact iff_of_true (sz_of_mem_regions (List.mem_of_getElem? hi)) hlt
  · rename_i hge
    exact iff_of_false (not_not.mpr (h.rest s (List.mem_of_getElem? hi))) hge

/-- …with different names. -/
theorem Tidy.name_ne (h : Tidy l) {i j : Nat} {t : Shared} (hij : i < j)
    (hj : j < (regions l).length) (hs : l[i]? = some s) (ht : l[j]? = some t) :
    strncmp s.name t.name SHAREDNAME ≠ 0 := by
  rw [← regions_append_drop l, List.getElem?_append_left hj] at ht
  rw [← regions_append_drop l, List.getElem?_append_left (hij.trans hj)] at hs
  obtain ⟨hi, rfl⟩ := List.getElem?_eq_some_iff.mp hs
  obtain ⟨hj, rfl⟩ := List.getElem?_eq_some_iff.mp ht
  have := List.pairwise_iff_getElem.mp h.names i j (by simpa using hi) (by simpa using hj) hij
  simpa using this

end Xv6
