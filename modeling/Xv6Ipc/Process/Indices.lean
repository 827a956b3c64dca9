import Xv6Ipc.Process.Layout

/-!
# Process/Indices — which entries of `shared[]` the kernel looks at

Five loops run over the ten entries.  Four test the index before they look at the entry; the one in
`linkphysaddr` only looks for an entry of size zero:

    share_mem, get_shared, fork, exit     i < 10 ?  ─▸ shared[i]
    linkphysaddr                                       shared[i].sz = 0 ?

With all ten entries in use there is no such entry, and `shared[10]` is the next slot of the process
table: its `pid` is taken for a `memstart` and its `parent` for a size.
-/

namespace Xv6

/-! ## The loops -/

/-- **The entries that a loop `for(i = 0; ; ++i)` comes to**: `bound` is its test on `i` before the
entry is looked at, `stop` the one on the entry.  `t i` is what is at `shared[i]`, in the table or
past it. -/
inductive Visits (bound : Nat → Prop) (stop : Shared → Prop) (t : Nat → Shared) : Nat → Prop
  | first : bound 0 → Visits bound stop t 0
  | next {i : Nat} : Visits bound stop t i → ¬ stop (t i) → bound (i + 1) →
    Visits bound stop t (i + 1)

/-- **The turns of `linkphysaddr`** on a directory `d`: at the head of turn `i` the cursor is at `va`
and memory is `m`. -/
inductive LinkTurn (L : Linker) (d p : Nat) (t : Nat → Shared) (m₀ : Mem) : Nat → Nat → Mem → Prop
  | first : LinkTurn L d p t m₀ 0 SHAREBASE m₀
  | next {i va : Nat} {m m' : Mem} {r : Int} : LinkTurn L d p t m₀ i va m → (t i).sz ≠ 0 →
    mappa2va L m d p (u32 (t i).sz.val) (t i).memstart va 6 = .ok (r, m') → ¬ (u32 r : Int) < 0 →
    LinkTurn L d p t m₀ (i + 1) (u32 (va + u32 r)) m'

/-- What a process does with its table: a system call, or `get_shared`. -/
inductive Use where
  | call (x : Call)
  | getShared (a : Option GetArgs)

/-- `exec` comes to the calls of `linkphysaddr` with a loaded program. -/
structure Links (L : Linker) (k : Kernel) (c : Slot) (a : ExecArgs) (i : Loaded) (m : Mem) : Prop where
  few : a.argv.length < MAXARG
  short : ∀ arg ∈ a.argv, arg.length < (k.proc c).sz
  load : load L k.mem a.file = .ok (some i, m)
  arg : LinksArg a.arg0

/-- **Entry `i` of `shared[]` is looked at.** -/
inductive Touches (L : Linker) (k : Kernel) (c : Slot) (t : Nat → Shared) : Use → Nat → Prop
  | shareMem {a : ShareArgs} {i : Nat} : (k.proc c).Within a.vamem →
    Visits (· < MAXSHARED) (fun s => s.sz = 0 ∨ strncmp a.name s.name SHAREDNAME = 0) t i →
    Touches L k c t (.call (.shareMem (some a))) i
  | getShared {a : GetArgs} {i : Nat} : (k.proc c).Within a.addr →
    Visits (· < MAXSHARED) (fun s => strncmp a.name s.name SHAREDNAME = 0) t i →
    Touches L k c t (.getShared (some a)) i
  | fork {i : Nat} : Visits (fun i => ¬ 9 < i) (fun s => s.sz = 0) t i →
    Touches L k c t (.call .fork) i
  | exit {i : Nat} : Visits (· < MAXSHARED) (fun _ => False) t i → Touches L k c t (.call .exit) i
  | exec {a : ExecArgs} {x : Loaded} {m₁ m : Mem} {i va : Nat} : Links L k c a x m₁ →
    LinkTurn L x.pgdir (k.proc c).parentpgdir t m₁ i va m → Touches L k c t (.call (.exec a)) i

/-- **`memstart` of entry `i` is written**, by `linkphysaddr`. -/
inductive Rewrites (L : Linker) (k : Kernel) (c : Slot) (t : Nat → Shared) : Use → Nat → Prop
  | exec {a : ExecArgs} {x : Loaded} {m₁ m m' : Mem} {i va : Nat} {r : Int} : Links L k c a x m₁ →
    LinkTurn L x.pgdir (k.proc c).parentpgdir t m₁ i va m → (t i).sz ≠ 0 →
    mappa2va L m x.pgdir (k.proc c).parentpgdir (u32 (t i).sz.val) (t i).memstart va 6 = .ok (r, m') →
    ¬ (u32 r : Int) < 0 → Rewrites L k c t (.call (.exec a)) i

/-- A program that has regions linked is started by a process with all ten entries in use. -/
def Overfull (k : Kernel) (c : Slot) : Use → Prop
  | .call (.exec a) => LinksArg a.arg0 ∧ ∀ s ∈ (k.proc c).shared, s.sz ≠ 0
  | _ => False

/-- What is at `shared[i]`, for the entries there are. -/
def Shows (t : Nat → Shared) (l : List Shared) : Prop := ∀ i s, l[i]? = some s → t i = s

variable {L : Linker} {k k' : Kernel} {c q : Slot} {t : Nat → Shared} {u : Use} {m m₀ : Mem}
  {d p w i va : Nat} {l : List Shared}

/-- A loop with a test on the index passes it. -/
theorem Visits.bound {bound : Nat → Prop} {stop : Shared → Prop} (h : Visits bound stop t i) :
    bound i := by
  cases h with
  | first h | next _ _ h => exact h

/-- `linkphysaddr` has found no free entry so far. -/
theorem LinkTurn.sz_ne (h : LinkTurn L d p t m₀ i va m) : ∀ j < i, (t j).sz ≠ 0 := by
  induction h with
  | first => exact fun j hj => absurd hj (Nat.not_lt_zero j)
  | @next i va m m' r _ hsz _ _ ih =>
    intro j hj
    rcases Nat.lt_succ_iff_lt_or_eq.mp hj with hj | rfl
    · exact ih j hj
    · exact hsz

/-- It does not get past one. -/
theorem LinkTurn.lt_of_end (h : LinkTurn L d p t m₀ i va m) (ht : Shows t l)
    (hend : ∃ s ∈ l, s.sz = 0) : i < l.length := by
  obtain ⟨s, hs, hzero⟩ := hend
  obtain ⟨j, hj⟩ := List.getElem?_of_mem hs
  have hlt : j < l.length := (List.getElem?_eq_some_iff.mp hj).1
  refine lt_of_le_of_lt (not_lt.mp fun hji => h.sz_ne j hji ?_) hlt
  rw [ht j s hj]
  exact hzero

/-! ## Every access -/

/-- A process that is not too full has a free entry for `linkphysaddr` to find. -/
theorem exists_free {a : ExecArgs} {x : Loaded} (hok : ¬ Overfull k c (.call (.exec a)))
    (h : Links L k c a x m) : ∃ s ∈ (k.proc c).shared, s.sz = 0 := by
  by_contra hc
  exact hok ⟨h.arg, fun s hs hz => hc ⟨s, hs, hz⟩⟩

theorem Touches.lt (h : Touches L k c t u i) (hlen : (k.proc c).shared.length = MAXSHARED)
    (ht : Shows t (k.proc c).shared) (hok : ¬ Overfull k c u) : i < MAXSHARED := by
  cases h with
  | shareMem _ hv | getShared _ hv | exit hv => exact hv.bound
  | fork hv =>
    have := hv.bound
    rw [MAXSHARED]
    omega
  | exec hx hturn =>
    rw [← hlen]
    exact hturn.lt_of_end ht (exists_free hok hx)

/-- What is written was looked at. -/
theorem Rewrites.touches (h : Rewrites L k c t u i) : Touches L k c t u i := by
  cases h with
  | exec hx hturn _ _ _ => exact .exec hx hturn

/-- `exec` writes no other slot. -/
theorem exec_other {a : ExecArgs} {r : Option Int} (h : syscall L k c (.exec a) = .ok (r, k'))
    {s : Slot} (hs : s ≠ c) : k'.proc s = k.proc s := by
  cases syscall_returned h with
  | exec hr =>
    rcases sysExec_inv hr with rfl | ⟨-, -, hr⟩
    · rfl
    · rcases exec_inv hr with ⟨m, -, -, rfl⟩ | ⟨i, m₁, m₂, shared, -, -, ⟨m₃, -, -, rfl⟩ |
        ⟨sz, sp, m₃, m₄, -, -, -, rfl⟩⟩
      · rfl
      · exact Kernel.setProc_proc_of_ne _ _ _ hs
      · exact Kernel.setProc_proc_of_ne _ _ _ hs

/-- **No entry past the tenth is looked at**, in any state that runs reach, by any call but an `exec`
that links with all ten entries in use; what `linkphysaddr` writes lies in the caller's slot. -/
theorem shared_index_in_range (h : Runs.Reach (Boot L) (Step L) k) (c : Slot) (u : Use)
    (hok : ¬ Overfull k c u) (t : Nat → Shared) (ht : Shows t (k.proc c).shared) :
    (∀ i, Touches L k c t u i → i < MAXSHARED) ∧ (∀ i, Rewrites L k c t u i → i < MAXSHARED)
      ∧ ∀ a r k', u = .call (.exec a) → syscall L k c (.exec a) = .ok (r, k') →
        ∀ s, s ≠ c → k'.proc s = k.proc s := by
  have hlen := (tidy_of_reach h c).length
  exact ⟨fun i hi => hi.lt hlen ht hok, fun i hi => hi.touches.lt hlen ht hok,
    fun a r k' _ hr s hs => exec_other hr hs⟩

/-- The first process, which has no regions, starts `primecalc`. -/
theorem shared_index_in_range_boot : ∃ k, Boot bareLinker k ∧ ∀ a i,
    Touches bareLinker k k.initproc (fun _ => Shared.zero) (.call (.exec a)) i → i < MAXSHARED := by
  obtain ⟨k, f, d, hboot, hb⟩ := exists_boot 0xDC00 (by decide) (by decide)
  have hshared : (k.proc k.initproc).shared = List.replicate MAXSHARED Shared.zero := by
    rw [hb.first]
    rfl
  refine ⟨k, hboot, fun a => (shared_index_in_range (.init hboot) k.initproc (.call (.exec a))
    (fun hc => ?_) _ fun i s hi => ?_).1⟩
  · have hzero : Shared.zero ∈ (k.proc k.initproc).shared := by
      rw [hshared]
      exact List.mem_replicate.mpr ⟨by decide, rfl⟩
    exact hc.2 Shared.zero hzero rfl
  · rw [hshared] at hi
    exact (List.eq_of_mem_replicate (List.mem_of_getElem? hi)).symm

/-! ## Past the end -/

/-- **A full table whose regions can be linked** is gone through to the end and beyond. -/
theorem LinkTurn.overrun (hsz : ∀ s ∈ l, s.sz ≠ 0) (ht : ∀ j s, l[j]? = some s → t (i + j) = s)
    (hturn : LinkTurn L d p t m₀ i (4096 * w) m) (hsite : LinkSite m d p w)
    (hl : Linkable (entry m p) (l ++ [.zero]) w) (hen : Enough m d w (w + span l)) :
    (∃ va m', LinkTurn L d p t m₀ (i + l.length) va m')
      ∧ linkFrom L d p 6 l (4096 * w) m = .error .sharedIndex := by
  induction l generalizing i m w with
  | nil => exact ⟨⟨_, _, hturn⟩, rfl⟩
  | cons s rest ih =>
    obtain ⟨hs, hrest⟩ := List.forall_mem_cons.mp hsz
    obtain rfl : t i = s := ht 0 s rfl
    obtain ⟨hcheck, hroom, hpres, hnext⟩ := hl hs
    rw [span_cons hs, ← Nat.add_assoc] at hen
    obtain ⟨m₁, hr, hlink⟩ :=
      hsite.link_region L 6 (hen.mono (Nat.le_add_right _ _)) hcheck hroom hpres
    have hdead : ¬ (u32 (i32 (pgRoundUp (u32 (t i).sz.val))) : Int) < 0 := by omega
    have hturn₁ := hturn.next hs hr hdead
    rw [LinkSite.next hroom] at hturn₁
    rw [← (hlink.step.apart hsite.apart).2] at hnext
    have ht₁ : ∀ j s, rest[j]? = some s → t (i + 1 + j) = s := fun j s hj => by
      rw [Nat.add_assoc, Nat.add_comm 1]
      exact ht (j + 1) s (by simpa using hj)
    obtain ⟨hreach, herr⟩ := ih hrest ht₁ hturn₁ (hsite.linked hlink hroom) hnext
      (hen.linked hlink (Nat.le_add_right _ _))
    refine ⟨?_, ?_⟩
    · rwa [List.length_cons, Nat.add_comm rest.length, ← Nat.add_assoc]
    · rw [hsite.linkFrom_cons hs hroom hr, herr]
      rfl

end Xv6
