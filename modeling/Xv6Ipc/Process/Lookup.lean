import Xv6Ipc.Process.Solo

/-!
# Process/Lookup — what `get_shared` finds

`get_shared` compares the name with all ten entries and does not look at their sizes.  An entry of
size zero still has the name and the address it was last given:

    share_mem("x") ── exit ── wait ── fork ── get_shared("x")
       slot q        sz := 0    slot q again     found, at the dead process's address

The answer comes from the process's own regions exactly if no leftover entry has the name, or a
region has it too.
-/

namespace Xv6

open Function

/-- The loop of `sys_get_shared` over the table. -/
def lookup (name : List Nat) : List Shared → Option Nat
  | [] => none
  | s :: rest => if strncmp name s.name SHAREDNAME = 0 then some s.memstart else lookup name rest

/-- The arguments of `get_shared`. -/
structure GetArgs where
  name : List Nat
  addr : Nat

/-- `sys_get_shared`, once it has slept: the answer, and the word it stores and where.  `none` stands
for arguments that `argstr` or `argptr` refuse. -/
def sysGetShared (k : Kernel) (c : Slot) (a : Option GetArgs) : Int × Option (Nat × Nat) :=
  match a with
  | none => (-1, none)
  | some a =>
    if ¬ (k.proc c).Within a.addr then (-1, none)
    else
      match lookup a.name (k.proc c).shared with
      | some memstart => (0, some (a.addr, memstart))
      | none => (-2, none)

/-- **The answer comes from the process's own regions**: it is the address of the one that has the
name, and `-2` with nothing stored if there is none. -/
def AnswersOwn (k : Kernel) (c : Slot) (a : GetArgs) : Prop :=
  (∀ s ∈ (k.proc c).shared, s.sz ≠ 0 → strncmp a.name s.name SHAREDNAME = 0 →
      sysGetShared k c (some a) = (0, some (a.addr, s.memstart)))
    ∧ ((∀ s ∈ (k.proc c).shared, s.sz ≠ 0 → strncmp a.name s.name SHAREDNAME ≠ 0) →
      sysGetShared k c (some a) = (-2, none))

/-- An entry of size zero has the name, and no region has it. -/
def Leftover (k : Kernel) (c : Slot) (name : List Nat) : Prop :=
  (∃ s ∈ (k.proc c).shared, s.sz = 0 ∧ strncmp name s.name SHAREDNAME = 0)
    ∧ ∀ s ∈ (k.proc c).shared, s.sz ≠ 0 → strncmp name s.name SHAREDNAME ≠ 0

variable {L : Linker} {k k' : Kernel} {c q : Slot} {name : List Nat} {l : List Shared} {s : Shared}

/-! ## The loop -/

theorem lookup_eq_none_iff :
    lookup name l = none ↔ ∀ s ∈ l, strncmp name s.name SHAREDNAME ≠ 0 := by
  induction l with
  | nil => simp [lookup]
  | cons s l ih =>
    rw [lookup, List.forall_mem_cons]
    by_cases hs : strncmp name s.name SHAREDNAME = 0
    · rw [if_pos hs]
      simp [hs]
    · rw [if_neg hs, ih]
      simp [hs]

/-- Entries without the name are passed over. -/
theorem lookup_append {front rest : List Shared}
    (h : ∀ s ∈ front, strncmp name s.name SHAREDNAME ≠ 0) :
    lookup name (front ++ rest) = lookup name rest := by
  induction front with
  | nil => rfl
  | cons s front ih =>
    rw [List.forall_mem_cons] at h
    rw [List.cons_append, lookup, if_neg h.1, ih h.2]

/-- **In a tidy table a region is found under its name.** -/
theorem Tidy.lookup_eq (h : Tidy l) (hs : s ∈ l) (hsz : s.sz ≠ 0)
    (hname : strncmp name s.name SHAREDNAME = 0) : lookup name l = some s.memstart := by
  obtain ⟨front, rest, rfl⟩ := List.append_of_mem hs
  rw [lookup_append, lookup, if_pos hname]
  -- an entry further up is a region too, and its name is another
  intro t ht hc
  obtain ⟨i, hi⟩ := List.getElem?_of_mem ht
  have hlt : i < front.length := (List.getElem?_eq_some_iff.mp hi).1
  have hj : (front ++ s :: rest)[front.length]? = some s := by simp
  refine h.name_ne hlt ((h.sized hj).mp hsz) (s := t) ?_ hj ?_
  · rw [List.getElem?_append_left hlt, hi]
  · rw [strncmp_eq_zero_iff] at hname hc ⊢
    rw [← hc, hname]

theorem sysGetShared_eq {a : GetArgs} (haddr : a.addr + 4 ≤ (k.proc c).sz) :
    sysGetShared k c (some a) = match lookup a.name (k.proc c).shared with
      | some memstart => (0, some (a.addr, memstart))
      | none => (-2, none) := if_neg (not_not.mpr (Proc.within_of_le haddr))

/-- **`get_shared` answers from the process's own regions** exactly if no entry of size zero has the
name without a region that has it. -/
theorem get_shared_own_iff (h : Runs.Reach (Boot L) (Step L) k) (c : Slot) (a : GetArgs)
    (haddr : a.addr + 4 ≤ (k.proc c).sz) : AnswersOwn k c a ↔ ¬ Leftover k c a.name := by
  have htidy := tidy_of_reach h c
  rw [AnswersOwn, sysGetShared_eq haddr]
  refine ⟨fun hown hleft => ?_, fun hleft => ⟨fun s hs hsz hname => ?_, fun hnone => ?_⟩⟩
  · obtain ⟨⟨s, hs, -, hname⟩, hnone⟩ := hleft
    have hans := hown.2 hnone
    cases hlook : lookup a.name (k.proc c).shared with
    | none => exact lookup_eq_none_iff.mp hlook s hs hname
    | some v => simp [hlook] at hans
  · rw [htidy.lookup_eq hs hsz hname]
  · rw [lookup_eq_none_iff.mpr fun s hs hname => ?_]
    by_cases hsz : s.sz = 0
    · exact hleft ⟨⟨s, hs, hsz, hname⟩, hnone⟩
    · exact hnone s hs hsz hname

/-- The first process has nothing under the name `x`, and nothing left over either. -/
theorem get_shared_own_iff_boot :
    ∃ k, Boot bareLinker k ∧ 0 + 4 ≤ (k.proc k.initproc).sz
      ∧ AnswersOwn k k.initproc ⟨cstr "x", 0⟩ := by
  obtain ⟨k, f, d, hboot, hb⟩ := exists_boot 0xDC00 (by decide) (by decide)
  have hfirst : k.proc k.initproc = firstProc f d := by rw [hb.proc, update_self]
  have haddr : 0 + 4 ≤ (k.proc k.initproc).sz := by
    rw [hfirst]
    change 0 + 4 ≤ 4096
    decide
  refine ⟨k, hboot, haddr, (get_shared_own_iff (.init hboot) k.initproc _ haddr).mpr ?_⟩
  rintro ⟨⟨s, hs, -, hname⟩, -⟩
  rw [hfirst] at hs
  obtain rfl := List.eq_of_mem_replicate hs
  exact absurd hname (by decide)

/-! ## A slot used again -/

/-- A parent without regions passes nothing on: the child's table is the one its slot had, with the
sizes cleared. -/
theorem copyShared_of_bare {cur np : List Shared} (hlen : np.length = cur.length)
    (hbare : regions cur = []) : (copyShared cur np).2 = np := by
  rw [(copyShared_spec cur np hlen).2, hbare]
  rfl

/-- A table without regions has an end. -/
theorem exists_end (hlen : l.length = MAXSHARED) (hbare : regions l = []) : ∃ s ∈ l, s.sz = 0 := by
  cases l with
  | nil => exact absurd hlen (by decide)
  | cons s rest =>
    refine ⟨s, List.mem_cons_self .., ?_⟩
    by_contra hs
    rw [regions_cons hs] at hbare
    exact List.cons_ne_nil _ _ hbare

/-- `allocproc` chooses by the states alone. -/
theorem firstUnused_congr (h : ∀ s, (k'.proc s).state = (k.proc s).state) :
    firstUnused k' = firstUnused k := by
  rw [firstUnused, firstUnused]
  simp only [h]

/-- The table of a process that registered a region in a slot and ended. -/
def leftovers (b : ShareArgs) (l : List Shared) : List Shared :=
  (registerFrom b.name b.vamem b.sz 0 (l.map Shared.clear)).2.map Shared.clear

/-- **What a child registered stays in its slot**: after it was reaped the first process is alone
again, and the slot `allocproc` takes next has the name and the address. -/
theorem Solo.leftover (h : Solo L k) (hbare : regions (k.proc k.initproc).shared = [])
    {b : ShareArgs} (hb : b.vamem + 4 ≤ (k.proc k.initproc).sz) :
    ∃ es k₄ q, Runs.Trace (Step L) k es k₄ ∧ Solo L k₄ ∧ firstUnused k₄ = some q
      ∧ k₄.initproc = k.initproc ∧ k₄.proc k.initproc = k.proc k.initproc
      ∧ (k₄.proc q).shared = leftovers b (k.proc q).shared := by
  have htable := h.core.table k.initproc
  obtain ⟨k₁, q, hstep₁, hf⟩ := h.fork (exists_end htable hbare)
  have hpair₁ := hf.pair h
  have hlen : ((k.proc q).shared.map Shared.clear).length = (k.proc k.initproc).shared.length := by
    rw [List.length_map, h.core.table, htable]
  have hshared₁ := hf.shared
  rw [copyShared_of_bare hlen hbare] at hshared₁
  have hb₁ : b.vamem + 4 ≤ (k₁.proc q).sz := by
    rw [hf.sz]
    exact hb
  obtain ⟨r, k₂, hstep₂, hpair₂, hset⟩ := hpair₁.shareMem hb₁
  obtain ⟨es, k₄, htrace, hsolo, hinit, hother, hshared₄⟩ := hpair₂.gone h
  refine ⟨_, k₄, q, .cons hstep₁ (.cons hstep₂ htrace), hsolo, ?_, hinit,
    hother _ (Ne.symm hpair₁.ne), ?_⟩
  · -- the states are those before the child came
    rw [← hf.first]
    refine firstUnused_congr fun s => ?_
    by_cases hs : s = q
    · have hne : q ≠ k₄.initproc := by
        rw [hinit]
        exact hpair₁.ne
      rw [hs, hsolo.idle q hne, hf.unused]
    · rw [hother s hs]
  · rw [hshared₄, hset, Kernel.setProc_proc_self, hshared₁]
    rfl

/-- The region a process registers under the name `x`. -/
def regionX : ShareArgs := ⟨cstr "x", 16, .four⟩

/-- What is left of it in a slot that had never been used. -/
theorem lookup_leftovers :
    lookup (cstr "x") (leftovers regionX Proc.zero.shared) = some 16 := by decide

/-- Clearing them again changes nothing. -/
theorem leftovers_clear (b : ShareArgs) (l : List Shared) :
    (leftovers b l).map Shared.clear = leftovers b l := List.map_map

/-- …and every size is zero. -/
theorem sz_of_mem_leftovers {b : ShareArgs} (hs : s ∈ leftovers b l) : s.sz = 0 := by
  obtain ⟨t, -, rfl⟩ := List.mem_map.mp hs
  rfl

/-- **A process without regions that finds one**: the child before it, in the same slot, registered
`x`. -/
theorem get_shared_finds_leftover :
    ∃ k c, Runs.Reach (Boot bareLinker) (Step bareLinker) k ∧ (k.proc c).Runs
      ∧ (∀ s ∈ (k.proc c).shared, s.sz = 0)
      ∧ sysGetShared k c (some ⟨cstr "x", 0⟩) = (0, some (0, 16))
      ∧ ¬ AnswersOwn k c ⟨cstr "x", 0⟩ := by
  obtain ⟨k, f, d, hboot, hsolo, hb⟩ := exists_solo
  have hfirst : k.proc k.initproc = firstProc f d := by rw [hb.proc, update_self]
  have hbare : regions (k.proc k.initproc).shared = [] := by
    rw [hfirst]
    change regions Proc.zero.shared = []
    decide
  have hsz : (k.proc k.initproc).sz = 4096 := by rw [hfirst, firstProc]
  have hvamem : regionX.vamem + 4 ≤ (k.proc k.initproc).sz := by
    rw [hsz]
    decide
  obtain ⟨es, k₄, q, htrace, hsolo₄, hunused, hinit, hproc, hleft⟩ := hsolo.leftover hbare hvamem
  rw [← hinit] at hproc
  have hbare₄ : regions (k₄.proc k₄.initproc).shared = [] := by
    rw [hproc, hinit]
    exact hbare
  have htable := hsolo₄.core.table k₄.initproc
  obtain ⟨k₅, q', hstep, hf⟩ := hsolo₄.fork (exists_end htable hbare₄)
  obtain rfl : q' = q := Option.some.inj (hf.first.symm.trans hunused)
  have hlen : ((k₄.proc q').shared.map Shared.clear).length
      = (k₄.proc k₄.initproc).shared.length := by
    rw [List.length_map, hsolo₄.core.table, htable]
  have hne : q' ≠ k.initproc := by
    rw [← hinit]
    exact (hf.pair hsolo₄).ne
  have hslot : (k.proc q').shared = Proc.zero.shared := by rw [hb.proc, update_of_ne hne]
  have hshared : (k₅.proc q').shared = leftovers regionX Proc.zero.shared := by
    rw [hf.shared, copyShared_of_bare hlen hbare₄, hleft, leftovers_clear, hslot]
  have hsz₅ : (k₅.proc q').sz = 4096 := by rw [hf.sz, hproc, hinit, hsz]
  have hfound : sysGetShared k₅ q' (some ⟨cstr "x", 0⟩) = (0, some (0, 16)) := by
    rw [sysGetShared_eq (by rw [hsz₅]; decide), hshared, lookup_leftovers]
  have hzero : ∀ s ∈ (k₅.proc q').shared, s.sz = 0 := fun s hs => by
    rw [hshared] at hs
    exact sz_of_mem_leftovers hs
  refine ⟨k₅, q', ((Runs.Reach.init hboot).trace htrace).step hstep, (hf.pair hsolo₄).runs, hzero,
    hfound, fun hown => ?_⟩
  have hans := hown.2 fun s hs hsz => absurd (hzero s hs) hsz
  rw [hfound] at hans
  simp at hans

end Xv6
