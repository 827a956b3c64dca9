import Xv6Ipc.Process.State

/-!
# Process/Books — who holds which frame

Every frame is on the free list or held by one slot, as its kernel stack, its directory, a table of
it or a page of its user memory:

    free  ⊎  hold p₀  ⊎  hold p₁  ⊎  …

A system call trades what one slot holds against the free list and leaves the other slots' frames
alone; `Trade` is that step, and it is all a call has to know about the rest of the system.
-/

namespace Xv6

/-- The frames a slot holds: its kernel stack and what its directory owns. -/
def hold (m : Mem) (p : Proc) : List Nat := if p.Live then p.kstack :: owned m p.pgdir else []

/-- The frames all slots hold. -/
def holdings (k : Kernel) : List Nat :=
  (List.finRange NPROC).flatMap fun c => hold k.mem (k.proc c)

/-- **The books are in order**: every frame is either free or held by one slot, for one purpose;
processes end below `SHAREBASE`; tables have their ten entries. -/
structure Core (L : Linker) (k : Kernel) : Prop where
  nodup : (k.mem.free ++ holdings k).Nodup
  frame : ∀ f ∈ k.mem.free ++ holdings k, L.Frame f
  size : ∀ c, (k.proc c).Live → (k.proc c).sz < SHAREBASE
  gap : ∀ c, (k.proc c).Live → Gap k.mem (k.proc c).pgdir (k.proc c).pages
  table : ∀ c, (k.proc c).shared.length = MAXSHARED

variable {L : Linker} {k k' : Kernel} {c q : Slot} {f : Nat}

theorem hold_of_live {m : Mem} {p : Proc} (h : p.Live) : hold m p = p.kstack :: owned m p.pgdir :=
  if_pos h

theorem hold_of_unused {m : Mem} {p : Proc} (h : p.state = .unused) : hold m p = [] :=
  if_neg (not_not.mpr h)

theorem mem_holdings : f ∈ holdings k ↔ ∃ c, f ∈ hold k.mem (k.proc c) := by
  simp only [holdings, List.mem_flatMap, List.mem_finRange, true_and]

/-- What a slot owns, it holds. -/
theorem mem_hold_of_owned {m : Mem} {p : Proc} (hl : p.Live) (hf : f ∈ owned m p.pgdir) :
    f ∈ hold m p := by
  rw [hold_of_live hl]
  exact List.mem_cons_of_mem _ hf

namespace Core

theorem free_nodup (h : Core L k) : k.mem.free.Nodup := (List.nodup_append.mp h.nodup).1

theorem free_frame (h : Core L k) : ∀ f ∈ k.mem.free, L.Frame f := fun f hf =>
  h.frame f (List.mem_append_left _ hf)

/-- A held frame is not free… -/
theorem not_free (h : Core L k) (hf : f ∈ hold k.mem (k.proc c)) : f ∉ k.mem.free := fun hc =>
  List.disjoint_of_nodup_append h.nodup hc (mem_holdings.mpr ⟨c, hf⟩)

/-- …and has one holder, who holds it once. -/
theorem holder_unique (h : Core L k) (hc : f ∈ hold k.mem (k.proc c))
    (hq : f ∈ hold k.mem (k.proc q)) : c = q :=
  Ledger.eq_of_flatMap_nodup (List.nodup_append.mp h.nodup).2.1 (List.mem_finRange c)
    (List.mem_finRange q) hc hq

theorem hold_nodup (h : Core L k) (c : Slot) : (hold k.mem (k.proc c)).Nodup :=
  (List.nodup_flatMap.mp (List.nodup_append.mp h.nodup).2.1).1 c (List.mem_finRange c)

theorem hold_frame (h : Core L k) (hf : f ∈ hold k.mem (k.proc c)) : L.Frame f :=
  h.frame f (List.mem_append_right _ (mem_holdings.mpr ⟨c, hf⟩))

/-- The free list and one slot's frames. -/
theorem free_hold_nodup (h : Core L k) (c : Slot) : (k.mem.free ++ hold k.mem (k.proc c)).Nodup :=
  List.nodup_append.mpr ⟨h.free_nodup, h.hold_nodup c, fun f hf g hg he => by
    subst he
    exact h.not_free hg hf⟩

theorem free_owned_nodup (h : Core L k) (hl : (k.proc c).Live) :
    (k.mem.free ++ owned k.mem (k.proc c).pgdir).Nodup := by
  have hn := h.free_hold_nodup c
  rw [hold_of_live hl] at hn
  exact hn.sublist ((List.sublist_cons_self _ _).append_left _)

theorem owned_frame (h : Core L k) (hl : (k.proc c).Live) :
    ∀ f ∈ k.mem.free ++ owned k.mem (k.proc c).pgdir, L.Frame f := fun f hf => by
  rcases List.mem_append.mp hf with hf | hf
  · exact h.free_frame f hf
  · exact h.hold_frame (mem_hold_of_owned hl hf)

end Core

/-! ## One slot trades -/

/-- A slot that another slot's call leaves alone; at most it gets another parent. -/
structure Beside (p p' : Proc) : Prop where
  same : p' = { p with parent := p'.parent }
  parent : p.parent = none → p'.parent = none

namespace Beside

variable {p p' : Proc} (h : Beside p p')

theorem refl (p : Proc) : Beside p p := ⟨rfl, id⟩

theorem of_eq (h : p' = p) : Beside p p' := h ▸ refl p

include h

theorem sz : p'.sz = p.sz := by rw [h.same]

theorem pgdir : p'.pgdir = p.pgdir := by rw [h.same]

theorem kstack : p'.kstack = p.kstack := by rw [h.same]

theorem shared : p'.shared = p.shared := by rw [h.same]

theorem state : p'.state = p.state := by rw [h.same]

theorem live : p'.Live ↔ p.Live := by rw [Proc.Live, Proc.Live, h.state]

end Beside

/-- **One slot trades** what it holds against the free list; frames `X` end up with nobody. -/
structure Trade (k k' : Kernel) (q : Slot) (X : List Nat) : Prop where
  moves : k.mem.Moves (hold k.mem (k.proc q)) k'.mem (hold k'.mem (k'.proc q) ++ X)
  rest : ∀ c, c ≠ q → Beside (k.proc c) (k'.proc c)
  size : (k'.proc q).Live → (k'.proc q).sz < SHAREBASE
  gap : (k'.proc q).Live → Gap k'.mem (k'.proc q).pgdir (k'.proc q).pages
  table : (k'.proc q).shared.length = MAXSHARED

namespace Trade

variable {X : List Nat} (t : Trade k k' q X) (h : Core L k)
include t h

/-- The others' frames keep their contents… -/
theorem cell_of_other (hne : c ≠ q) (hf : f ∈ hold k.mem (k.proc c)) :
    k'.mem.cell f = k.mem.cell f :=
  t.moves.frame f (h.not_free hf) fun hq => hne (h.holder_unique hf hq)

/-- …so their page tables say what they said. -/
theorem entry_of_other (hne : c ≠ q) (hl : (k.proc c).Live) :
    entry k'.mem (k'.proc c).pgdir = entry k.mem (k.proc c).pgdir := by
  rw [(t.rest c hne).pgdir]
  exact entry_congr fun _ hf => t.cell_of_other h hne
    (mem_hold_of_owned hl (List.mem_append_left _ hf))

theorem owned_of_other (hne : c ≠ q) (hl : (k.proc c).Live) :
    owned k'.mem (k'.proc c).pgdir = owned k.mem (k.proc c).pgdir := by
  rw [(t.rest c hne).pgdir]
  exact owned_congr fun _ hf => t.cell_of_other h hne
    (mem_hold_of_owned hl (List.mem_append_left _ hf))

theorem hold_of_other (hne : c ≠ q) : hold k'.mem (k'.proc c) = hold k.mem (k.proc c) := by
  have hb := t.rest c hne
  by_cases hl : (k.proc c).Live
  · rw [hold_of_live hl, hold_of_live (hb.live.mpr hl), hb.kstack, t.owned_of_other h hne hl]
  · rw [hold, hold, if_neg hl, if_neg (hb.live.not.mpr hl)]

/-- **No frame is invented**, and none is lost but `X`. -/
theorem perm : (k.mem.free ++ holdings k).Perm ((k'.mem.free ++ X) ++ holdings k') := by
  have hupdate := Ledger.flatMap_perm_update (List.nodup_finRange NPROC) (List.mem_finRange q)
    fun c _ hne => t.hold_of_other h hne
  rw [← List.perm_append_right_iff (hold k'.mem (k'.proc q))]
  have hswap : ((k.mem.free ++ holdings k) ++ hold k'.mem (k'.proc q)).Perm
      (k.mem.free ++ (hold k'.mem (k'.proc q) ++ holdings k)) := by
    rw [List.append_assoc]
    exact List.perm_append_comm.append_left _
  have htrade : (k.mem.free ++ (hold k.mem (k.proc q) ++ holdings k')).Perm
      ((k'.mem.free ++ (hold k'.mem (k'.proc q) ++ X)) ++ holdings k') := by
    rw [← List.append_assoc]
    exact t.moves.perm.append_right _
  have hback : ((k'.mem.free ++ (hold k'.mem (k'.proc q) ++ X)) ++ holdings k').Perm
      (((k'.mem.free ++ X) ++ holdings k') ++ hold k'.mem (k'.proc q)) := by
    refine (List.perm_append_comm.append_left _).append_right _ |>.trans ?_
    rw [← List.append_assoc, List.append_assoc, List.append_assoc _ (holdings k')]
    exact List.perm_append_comm.append_left _
  exact ((hswap.trans (hupdate.symm.append_left _)).trans htrade).trans hback

/-- **One slot's trade keeps the books in order.** -/
theorem core : Core L k' where
  nodup := ((t.perm h).nodup_iff.mp h.nodup).sublist
    ((List.sublist_append_left _ _).append_right _)
  frame f hf := h.frame f ((t.perm h).mem_iff.mpr
    (((List.sublist_append_left _ _).append_right _).subset hf))
  size c hl := by
    by_cases hne : c = q
    · subst hne
      exact t.size hl
    · rw [(t.rest c hne).sz]
      exact h.size c ((t.rest c hne).live.mp hl)
  gap c hl := by
    by_cases hne : c = q
    · subst hne
      exact t.gap hl
    · have hl' := (t.rest c hne).live.mp hl
      rw [Gap, t.entry_of_other h hne hl', Proc.pages, (t.rest c hne).sz]
      exact h.gap c hl'
  table c := by
    by_cases hne : c = q
    · subst hne
      exact t.table
    · rw [(t.rest c hne).shared]
      exact h.table c

end Trade

/-- **A call that gives back what it took** is a trade of nothing. -/
theorem Core.spared (h : Core L k) (hmove : k.mem.Moves [] k'.mem [])
    (hrest : ∀ c, c ≠ q → Beside (k.proc c) (k'.proc c))
    (hlive : (k'.proc q).Live ↔ (k.proc q).Live)
    (hown : (k.proc q).Live → (k'.proc q).sz = (k.proc q).sz ∧ (k'.proc q).pgdir = (k.proc q).pgdir
      ∧ (k'.proc q).kstack = (k.proc q).kstack)
    (htable : (k'.proc q).shared.length = (k.proc q).shared.length) : Trade k k' q [] := by
  have hcell : (k.proc q).Live → ∀ f ∈ dirFrames k.mem (k.proc q).pgdir,
      k'.mem.cell f = k.mem.cell f := fun hl f hf =>
    hmove.frame f (h.not_free (mem_hold_of_owned hl (List.mem_append_left _ hf))) (by simp)
  have hhold : hold k'.mem (k'.proc q) = hold k.mem (k.proc q) := by
    by_cases hl : (k.proc q).Live
    · obtain ⟨-, hpgdir, hkstack⟩ := hown hl
      rw [hold_of_live hl, hold_of_live (hlive.mpr hl), hpgdir, hkstack, owned_congr (hcell hl)]
    · rw [hold, hold, if_neg hl, if_neg (hlive.not.mpr hl)]
  refine ⟨?_, hrest, fun hl => ?_, fun hl => ?_, htable.trans (h.table q)⟩
  · rw [hhold, List.append_nil]
    exact hmove.extend (hold k.mem (k.proc q))
  · rw [(hown (hlive.mp hl)).1]
    exact h.size q (hlive.mp hl)
  · obtain ⟨hsz, hpgdir, -⟩ := hown (hlive.mp hl)
    rw [Gap, Proc.pages, hsz, hpgdir, entry_congr (hcell (hlive.mp hl))]
    exact h.gap q (hlive.mp hl)

end Xv6
