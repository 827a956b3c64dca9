import Mathlib.Algebra.Order.BigOperators.Group.List
import Xv6Ipc.Exec.Stack

/-!
# Exec/Argv — the arguments a new program sees

The strings go down from the top of the stack page, each rounded to a word, and below them the array of
their addresses and the three words a program starts with:

    top ─ argv[0] ─ argv[1] ─ … ─ 0, …, &argv[1], &argv[0] ─ &array, argc, return address ─ sp

Whatever does not fit ends on the page below, which is not the user's, and nothing can be copied over it:
a string that starts below that page would have to cross it.
-/

namespace Xv6

open Overlay (put put_of_outside Holds holds_put)

/-! ## The layout -/

/-- What a string takes of the stack. -/
def argUse (arg : List Nat) : Nat := (arg.length + 4) / 4 * 4

/-- …and all of them. -/
def argsUse (argv : List (List Nat)) : Nat := (argv.map argUse).sum

/-- Where string `i` goes. -/
def argAt (top : Nat) (argv : List (List Nat)) (i : Nat) : Nat := top - argsUse (argv.take (i + 1))

/-- **The arguments fit in a page.** -/
def FitsPage (argv : List (List Nat)) : Prop := argsUse argv + 4 * (argv.length + 4) ≤ 4096

/-- A string so long that the stack pointer wraps and comes out below the devices. -/
def Falls (sp : Nat) (arg : List Nat) : Prop := sp + 0x2000000 < arg.length + 1

instance (sp : Nat) (arg : List Nat) : Decidable (Falls sp arg) := inferInstanceAs (Decidable (_ < _))

/-- The loop gets to such a string, having pushed `argc` strings that take `used` bytes. -/
def Overlong (top : Nat) : Nat → Nat → List (List Nat) → Prop
  | _, _, [] => False
  | argc, used, arg :: argv => argc < MAXARG ∧ used ≤ 4096
    ∧ (Falls (top - used) arg ∨ Overlong top (argc + 1) (used + argUse arg) argv)

variable {L : Linker} {m₀ m m' : Mem} {d sz top i : Nat} {up : Nat → Nat} {arg : List Nat}
  {argv done : List (List Nat)} {st : Pushed}

theorem argsUse_append (l l' : List (List Nat)) : argsUse (l ++ l') = argsUse l + argsUse l' := by
  rw [argsUse, List.map_append, List.sum_append, argsUse, argsUse]

theorem argsUse_singleton (arg : List Nat) : argsUse [arg] = argUse arg := List.sum_singleton

theorem argsUse_mod (l : List (List Nat)) : argsUse l % 4 = 0 := by
  induction l with
  | nil => rfl
  | cons arg l ih =>
    rw [← List.singleton_append, argsUse_append, argsUse_singleton, argUse]
    omega

theorem argsUse_take_le (argv : List (List Nat)) (i : Nat) : argsUse (argv.take i) ≤ argsUse argv := by
  have hsplit := argsUse_append (argv.take i) (argv.drop i)
  rw [List.take_append_drop] at hsplit
  omega

theorem argsUse_take_succ (hi : i < argv.length) :
    argsUse (argv.take (i + 1)) = argsUse (argv.take i) + argUse argv[i] := by
  rw [List.take_succ_eq_append_getElem hi, argsUse_append, argsUse_singleton]

theorem argsUse_take_mono {j : Nat} (h : i ≤ j) : argsUse (argv.take i) ≤ argsUse (argv.take j) := by
  have hle := argsUse_take_le (argv.take j) i
  rwa [List.take_take, Nat.min_eq_left h] at hle

/-- A string ends before the one pushed before it begins… -/
theorem argAt_end_le (hi : i < argv.length) (htop : argsUse argv ≤ top) :
    argAt top argv i + (argv[i].length + 1) ≤ top - argsUse (argv.take i) := by
  have hle := argsUse_take_le argv (i + 1)
  rw [argsUse_take_succ hi, argUse] at hle
  rw [argAt, argsUse_take_succ hi, argUse]
  omega

/-- …and none begins below the last. -/
theorem le_argAt (top : Nat) (argv : List (List Nat)) (i : Nat) : top - argsUse argv ≤ argAt top argv i :=
  Nat.sub_le_sub_left (argsUse_take_le argv (i + 1)) top

/-- Strings shorter than the image do not fall. -/
theorem not_overlong {argc used : Nat} (hbig : 4096 ≤ top) (hlen : ∀ arg ∈ argv, arg.length < top) :
    ¬ Overlong top argc used argv := by
  induction argv generalizing argc used with
  | nil => exact id
  | cons arg argv ih =>
    obtain ⟨hl, hlen⟩ := List.forall_mem_cons.mp hlen
    rintro ⟨-, hroom, hfall | hrest⟩
    · rw [Falls] at hfall
      omega
    · exact ih hlen hrest

theorem argAt_append (hi : i < done.length) : argAt top (done ++ argv) i = argAt top done i := by
  rw [argAt, argAt, List.take_append_of_le_length hi]

/-! ## Pushing the strings -/

/-- **The strings `done` have been pushed** since memory was `m`. -/
structure PushedTo (m₀ m : Mem) (d top : Nat) (up : Nat → Nat) (done : List (List Nat))
    (st : Pushed) : Prop where
  image : Image m₀ st.mem d top up
  entry : entry st.mem d = entry m d
  tables : tableAt st.mem d = tableAt m d
  argc : st.argc = done.length
  sp : st.sp + argsUse done = top
  room : argsUse done ≤ 4096
  ustack : st.ustack = (List.range done.length).map (argAt top done)
  string : ∀ i (h : i < done.length), Holds (seen st.mem d) (argAt top done i) (done[i] ++ [0])
  below : ∀ a < top - 4096, seen st.mem d a = seen m d a

/-- **One more string.** -/
theorem PushedTo.snoc (hn : m₀.free.Nodup) (htop : top < SHAREBASE) (h : PushedTo m₀ m d top up done st)
    (hs : Scribbled st.mem m' d) (hroom : argsUse (done ++ [arg]) ≤ 4096) (hbig : 4096 ≤ top)
    (hseen : ∀ a < SHAREBASE, seen m' d a
      = put (seen st.mem d) (top - argsUse (done ++ [arg])) (arg ++ [0]) a) :
    PushedTo m₀ m d top up (done ++ [arg]) ⟨st.argc + 1, top - argsUse (done ++ [arg]),
      st.ustack ++ [top - argsUse (done ++ [arg])], m'⟩ := by
  have hn' := h.image.owned_nodup hn
  have huse := argsUse_append done [arg]
  rw [argsUse_singleton, argUse] at huse
  have hlast : argAt top (done ++ [arg]) done.length = top - argsUse (done ++ [arg]) := by
    rw [argAt, List.take_of_length_le (by simp)]
  have hlen : (arg ++ [0]).length = arg.length + 1 := List.length_append
  refine ⟨h.image.scribbled hn hs, (hs.entry_eq hn').trans h.entry, (hs.tableAt_eq hn').trans h.tables,
    ?_, ?_, hroom, ?_, fun i hi => ?_, fun a ha => ?_⟩
  · rw [List.length_append, h.argc, List.length_singleton]
  · exact Nat.sub_add_cancel (by omega)
  · rw [List.length_append, List.length_singleton, List.range_succ, List.map_append, List.map_singleton,
      hlast, h.ustack]
    refine congrArg (· ++ _) (List.map_congr_left fun i hi => ?_)
    exact (argAt_append (List.mem_range.mp hi)).symm
  · rw [List.length_append, List.length_singleton] at hi
    by_cases hold : i < done.length
    · rw [argAt_append hold, List.getElem_append_left hold]
      have htake := argsUse_take_le done (i + 1)
      refine (h.string i hold).congr fun x hx hx' => ?_
      have hat : top - argsUse done ≤ argAt top done i := Nat.sub_le_sub_left htake top
      have hsucc := argsUse_take_succ hold
      rw [argAt] at hx hx' hat
      rw [argUse] at hsucc
      rw [List.length_append, List.length_singleton] at hx'
      rw [hseen x (by omega)]
      refine put_of_outside (.inr ?_)
      rw [hlen]
      omega
    · obtain rfl : i = done.length := by omega
      rw [hlast, List.getElem_append_right le_rfl]
      simp only [Nat.sub_self, List.getElem_singleton]
      exact (holds_put _ _ _).congr fun x _ hx => hseen x (by omega)
  · rw [hseen a (by omega), put_of_outside (.inl (by omega)), h.below a ha]

/-- The devices are mapped. -/
theorem present_device {v : Nat} (hv : 0xFE000 ≤ v) (hv' : v < 0x100000) :
    Present (kernelEntry L v) := by
  have hrow : (⟨DEVSPACE, DEVSPACE, 0, PTE_W⟩ : Kmap) ∈ kmap L := by simp [kmap]
  have hcov : (⟨DEVSPACE, DEVSPACE, 0, PTE_W⟩ : Kmap).Covers v := by
    simp only [Kmap.Covers, Kmap.page, Kmap.count, Kmap.size, DEVSPACE]
    omega
  rw [kernelEntry, kmapEntry_of_covers (kmap_disjoint L) hrow hcov, Option.getD_some]
  exact present_mkPte _ _

section Push

variable (hn : m₀.free.Nodup) (htop : top < SHAREBASE) (hmod : top % 4096 = 0) (hbig : 8192 ≤ top)
  (hpage : StackPage m d top) (hup : ∀ v, 0x80000 ≤ v → up v = kernelEntry L v)
include hmod hbig hpage

/-- A string that is copied ends up on the stack page: it cannot start on the page below, and if it
started further down it would have to cross that page. -/
theorem PushedTo.room_of_user (h : PushedTo m₀ m d top up done st)
    (huse : argsUse (done ++ [arg]) ≤ top)
    (huser : ∀ a, top - argsUse (done ++ [arg]) ≤ a →
      a < top - argsUse (done ++ [arg]) + (arg ++ [0]).length → User (Xv6.entry st.mem d (a / 4096))) :
    argsUse (done ++ [arg]) ≤ 4096 := by
  have hsplit := argsUse_append done [arg]
  rw [argsUse_singleton, argUse] at hsplit
  have hroom := h.room
  have hlen : (arg ++ [0]).length = arg.length + 1 := List.length_append
  by_contra hout
  rw [h.entry, hlen] at huser
  by_cases hguard : top - 8192 ≤ top - argsUse (done ++ [arg])
  · have hin := huser _ le_rfl (by omega)
    rw [show (top - argsUse (done ++ [arg])) / 4096 = top / 4096 - 2 by omega] at hin
    exact hpage.guard hin
  · have hin := huser (top - 8192) (by omega) (by omega)
    rw [show (top - 8192) / 4096 = top / 4096 - 2 by omega] at hin
    exact hpage.guard hin

include hn htop hup

/-- **One argument**: it falls, where there is no table, it is pushed, or it does not fit. -/
theorem pushArg_cases (h : PushedTo m₀ m d top up done st) (hargc : done.length < MAXARG)
    (hbytes : ∀ b ∈ arg, b < 256) (hlen : arg.length < SHAREBASE) :
    (Falls st.sp arg ∧ ((∀ i, 768 ≤ i → i < 1016 → tableAt m d i = none) →
        pushArg d arg st = .error .nullDeref)) ∨
      (¬ Falls st.sp arg
        ∧ ((∃ st', pushArg d arg st = .ok (true, st') ∧ PushedTo m₀ m d top up (done ++ [arg]) st') ∨
          ∃ st', pushArg d arg st = .ok (false, st') ∧ Image m₀ st'.mem d top up
            ∧ 4096 < argsUse (done ++ [arg]))) := by
  have hmax : ¬ MAXARG ≤ st.argc := by
    rw [h.argc]
    exact not_le.mpr hargc
  have hsp := h.sp
  have hroom := h.room
  have hmod' := argsUse_mod done
  have hsplit := argsUse_append done [arg]
  rw [argsUse_singleton, argUse] at hsplit
  rw [SHAREBASE] at htop hlen
  rw [Falls]
  have hcons : (arg ++ [0]).length = arg.length + 1 := List.length_append
  rw [pushArg, if_neg hmax]
  by_cases hdown : arg.length + 1 ≤ st.sp
  · have haddr : u32 (st.sp - (arg.length + 1)) / 4 * 4 = top - argsUse (done ++ [arg]) := by
      rw [u32]
      omega
    have hlow := h.image.low
    obtain ⟨b, m', hr, hs, hsucc⟩ := copyout_bytes (n := top / 4096) (top - argsUse (done ++ [arg]))
      (arg ++ [0]) (fun x hx => by
        rcases List.mem_append.mp hx with hx | hx
        · exact hbytes x hx
        · rw [List.mem_singleton.mp hx]
          decide) (h.image.owned_nodup hn) (by omega) (fun v hv => hlow v (by omega)) (by omega)
    simp only [haddr, hr]
    refine .inr ⟨by omega, ?_⟩
    cases b with
    | true =>
      obtain ⟨huser, hseen⟩ := hsucc rfl
      have hfit := h.room_of_user hmod hbig hpage (by omega) huser
      exact .inl ⟨_, rfl, h.snoc hn (by rw [SHAREBASE]; omega) hs hfit (by omega) hseen⟩
    | false =>
      refine .inr ⟨_, rfl, h.image.scribbled hn hs, ?_⟩
      by_contra hfit
      -- on the stack page `copyout` succeeds
      have hat : (top - argsUse (done ++ [arg])) / 4096 = top / 4096 - 1 := by omega
      obtain ⟨m'', hr', -⟩ := copyout_page (m := st.mem) (d := d) (top - argsUse (done ++ [arg]))
        (arg ++ [0]) (by rw [SHAREBASE]; omega) (by omega) (by rw [hat, h.entry]; exact hpage.present)
        (by rw [hat, h.entry]; exact hpage.user)
      cases hr.symm.trans hr'
  · obtain ⟨b, p, hbp⟩ := List.exists_cons_of_ne_nil (List.append_ne_nil_of_right_ne_nil arg
      (List.cons_ne_nil 0 []))
    obtain ⟨a, ha⟩ : ∃ a, a = u32 (st.sp - (arg.length + 1)) / 4 * 4 := ⟨_, rfl⟩
    have hhigh : 0xC0000000 ≤ a ∧ a < 0x100000000 ∧ (a < 0xFE000000 ↔ st.sp + 0x2000000 < arg.length + 1) := by
      rw [u32] at ha
      omega
    have hturn := copyout_turn (m := st.mem) (d := d) b p hhigh.2.1
    simp only [← ha, hbp]
    by_cases hfall : a < 0xFE000000
    · refine .inl ⟨hhigh.2.2.mp hfall, fun hhole => ?_⟩
      have hnone := hhole (a / 4096 / 1024) (by omega) (by omega)
      rw [← h.tables] at hnone
      obtain ⟨hr, -⟩ | ⟨-, hsome, -⟩ | ⟨hpres, -⟩ := hturn
      · rw [hr]
      · exact absurd hnone hsome
      · rw [entry_of_tableAt_none hnone] at hpres
        exact absurd hpres not_present_zero
    have hent : Xv6.entry st.mem d (a / 4096) = kernelEntry L (a / 4096) := by
      rw [h.image.upper _ (by omega), hup _ (by omega)]
    obtain ⟨-, hnone⟩ | ⟨hr, -⟩ | ⟨-, hu, -⟩ := hturn
    · have hpres := present_device (L := L) (v := a / 4096) (by omega) (by omega)
      rw [← hent, entry_of_tableAt_none hnone] at hpres
      exact absurd hpres not_present_zero
    · rw [hr]
      exact .inr ⟨fun hc => hfall (hhigh.2.2.mpr hc), .inr ⟨_, rfl, h.image, by omega⟩⟩
    · rw [hent] at hu
      exact absurd hu (not_user_kernelEntry L _)

/-- **All arguments**: the loop gets to one that falls, or it ends, early if they do not fit or are
too many. -/
theorem pushArgs_cases (h : PushedTo m₀ m d top up done st) (hargc : done.length ≤ MAXARG)
    (hbytes : ∀ arg ∈ argv, ∀ b ∈ arg, b < 256) (hlen : ∀ arg ∈ argv, arg.length < SHAREBASE) :
    (Overlong top done.length (argsUse done) argv
        ∧ ((∀ i, 768 ≤ i → i < 1016 → tableAt m d i = none) →
          Loops.each (pushArg d) argv st = .error .nullDeref)) ∨
      (¬ Overlong top done.length (argsUse done) argv
        ∧ ((∃ st', Loops.each (pushArg d) argv st = .ok (true, st')
            ∧ PushedTo m₀ m d top up (done ++ argv) st' ∧ (done ++ argv).length ≤ MAXARG) ∨
          ∃ st', Loops.each (pushArg d) argv st = .ok (false, st') ∧ Image m₀ st'.mem d top up
            ∧ (4096 < argsUse (done ++ argv) ∨ MAXARG < (done ++ argv).length))) := by
  induction argv generalizing done st with
  | nil => exact .inr ⟨id, .inl ⟨st, rfl, by rwa [List.append_nil], by rwa [List.append_nil]⟩⟩
  | cons arg argv ih =>
    obtain ⟨hb, hbytes⟩ := List.forall_mem_cons.mp hbytes
    obtain ⟨hl, hlen⟩ := List.forall_mem_cons.mp hlen
    have hsp : top - argsUse done = st.sp := by
      have := h.sp
      omega
    have huse : argsUse (done ++ [arg]) = argsUse done + argUse arg := by
      rw [argsUse_append, argsUse_singleton]
    have hcount : (done ++ [arg]).length = done.length + 1 := List.length_append
    rw [Overlong, hsp]
    rcases Nat.lt_or_eq_of_le hargc with hlt | hfull
    case inr =>
      have hr : pushArg d arg st = .ok (false, st) := by
        rw [pushArg, if_pos (by rw [h.argc, hfull])]
      refine .inr ⟨fun hc => absurd hc.1 (by omega), .inr ⟨st, Loops.each_cons_false hr, h.image, .inr ?_⟩⟩
      rw [List.length_append, List.length_cons]
      omega
    rcases pushArg_cases hn htop hmod hbig hpage hup h hlt hb hl with
      ⟨hfall, hr⟩ | ⟨hfall, ⟨st', hr, h'⟩ | ⟨st', hr, him, hfull⟩⟩
    · exact .inl ⟨⟨hlt, h.room, .inl hfall⟩, fun hhole => Loops.each_cons_error (hr hhole)⟩
    · rw [Loops.each_cons_true hr, ← List.singleton_append, ← List.append_assoc, ← huse, ← hcount]
      refine (ih h' (by omega) hbytes hlen).imp (And.imp_left fun ho => ⟨hlt, h.room, .inr ho⟩)
        (And.imp_left fun ho hc => ?_)
      exact ho (hc.2.2.resolve_left hfall)
    · refine .inr ⟨fun hc => ?_, .inr ⟨st', Loops.each_cons_false hr, him, .inl ?_⟩⟩
      · rcases hc.2.2 with hc | hc
        · exact hfall hc
        · cases argv with
          | nil => exact hc
          | cons arg' argv =>
            have := hc.2.1
            omega
      · rw [← List.singleton_append, ← List.append_assoc, argsUse_append]
        omega

end Push

/-! ## The whole stack -/

/-- Stretches of bytes that do not meet. -/
def Clear (p q : Nat × Nat) : Prop := p.1 + p.2 ≤ q.1 ∨ q.1 + q.2 ≤ p.1

/-- What is on the stack: the three words, the array, the strings. -/
def stackRegions (top sp : Nat) (argv : List (List Nat)) : List (Nat × Nat) :=
  (sp, 12) :: (sp + 12, 4 * (argv.length + 1))
    :: argv.mapIdx fun i arg => (argAt top argv i, arg.length + 1)

/-- The words of it: the fake return address, `argc`, `argv`, and the array with its null pointer. -/
def stackWords (top sp : Nat) (argv : List (List Nat)) : List Nat :=
  [0xffffffff, argv.length, sp + 12] ++ (List.range argv.length).map (argAt top argv) ++ [0]

/-- **The stack of a new program**, as its directory shows it. -/
structure ArgStack (m : Mem) (d top sp : Nat) (argv : List (List Nat)) : Prop where
  argc : wordAt (seen m d) (sp + 4) = argv.length
  array : wordAt (seen m d) (sp + 8) = sp + 12
  pointer : ∀ i < argv.length, wordAt (seen m d) (sp + 12 + 4 * i) = argAt top argv i
  null : wordAt (seen m d) (sp + 12 + 4 * argv.length) = 0
  string : ∀ i (h : i < argv.length), Holds (seen m d) (argAt top argv i) (argv[i] ++ [0])
  page : StackPage m d top
  inside : ∀ r ∈ stackRegions top sp argv, top - 4096 ≤ r.1 ∧ r.1 + r.2 ≤ top
  clear : (stackRegions top sp argv).Pairwise Clear

/-- The layout alone. -/
theorem stackRegions_layout {sp : Nat} (hbig : 4096 ≤ top) (hfit : FitsPage argv)
    (hsp : sp + 4 * (argv.length + 4) + argsUse argv = top) :
    (∀ r ∈ stackRegions top sp argv, top - 4096 ≤ r.1 ∧ r.1 + r.2 ≤ top)
      ∧ (stackRegions top sp argv).Pairwise Clear := by
  rw [FitsPage] at hfit
  have hstr : ∀ i (hi : i < argv.length), top - argsUse argv ≤ argAt top argv i
      ∧ argAt top argv i + (argv[i].length + 1) ≤ top := fun i hi =>
    ⟨le_argAt top argv i, (argAt_end_le hi (by omega)).trans (Nat.sub_le _ _)⟩
  have hmem : ∀ r ∈ argv.mapIdx fun i arg => (argAt top argv i, arg.length + 1),
      top - argsUse argv ≤ r.1 ∧ r.1 + r.2 ≤ top := fun r hr => by
    obtain ⟨i, hi, rfl⟩ := List.mem_mapIdx.mp hr
    exact hstr i hi
  constructor
  · refine List.forall_mem_cons.mpr ⟨by simp only; omega, List.forall_mem_cons.mpr ⟨by simp only; omega,
      fun r hr => ?_⟩⟩
    have := hmem r hr
    omega
  · refine .cons (List.forall_mem_cons.mpr ⟨.inl le_rfl, fun r hr => .inl ?_⟩) (.cons (fun r hr => .inl ?_) ?_)
    · have := (hmem r hr).1
      simp only
      omega
    · have := (hmem r hr).1
      simp only
      omega
    · refine List.pairwise_iff_getElem.mpr fun i j hi hj hij => .inr ?_
      rw [List.length_mapIdx] at hi hj
      rw [List.getElem_mapIdx, List.getElem_mapIdx]
      exact (argAt_end_le hj (by omega)).trans (Nat.sub_le_sub_left (argsUse_take_mono hij) top)

theorem length_stackWords (top sp : Nat) (argv : List (List Nat)) :
    (stackWords top sp argv).length = argv.length + 4 := by
  simp only [stackWords, List.length_append, List.length_cons, List.length_nil, List.length_map,
    List.length_range]
  omega

theorem stackWords_lt {sp : Nat} (htop : top < SHAREBASE) (hsp : sp + 4 * (argv.length + 4) ≤ top) :
    ∀ w ∈ stackWords top sp argv, w < 0x100000000 := fun w hw => by
  rw [SHAREBASE] at htop
  simp only [stackWords, List.mem_append, List.mem_cons, List.not_mem_nil, or_false, List.mem_map] at hw
  rcases hw with ((rfl | rfl | rfl) | ⟨i, -, rfl⟩) | rfl
  · decide
  · omega
  · omega
  · rw [argAt]
    omega
  · decide

/-- The words, read back one by one. -/
theorem stackWords_read {f : Nat → Nat} {sp : Nat} (htop : top < SHAREBASE)
    (hsp : sp + 4 * (argv.length + 4) ≤ top) (h : Holds f sp ((stackWords top sp argv).flatMap wordBytes)) :
    wordAt f (sp + 4) = argv.length ∧ wordAt f (sp + 8) = sp + 12
      ∧ (∀ i < argv.length, wordAt f (sp + 12 + 4 * i) = argAt top argv i)
      ∧ wordAt f (sp + 12 + 4 * argv.length) = 0 := by
  have hlen := length_stackWords top sp argv
  have hword : ∀ i (hi : i < (stackWords top sp argv).length), wordAt f (sp + 4 * i)
      = (stackWords top sp argv)[i] := fun i hi => wordAt_array (stackWords_lt htop hsp) h hi
  refine ⟨hword 1 (by omega), hword 2 (by omega), fun i hi => ?_, ?_⟩
  · rw [show sp + 12 + 4 * i = sp + 4 * (3 + i) by omega, hword (3 + i) (by omega)]
    simp only [stackWords]
    rw [List.getElem_append_left (by simp; omega), List.getElem_append_right (by simp)]
    simp
  · rw [show sp + 12 + 4 * argv.length = sp + 4 * (3 + argv.length) by omega,
      hword (3 + argv.length) (by omega)]
    simp only [stackWords]
    rw [List.getElem_append_right (by simp; omega)]
    simp

section Words

variable (hn : m₀.free.Nodup) (htop : top < SHAREBASE) (hmod : top % 4096 = 0) (hbig : 8192 ≤ top)
  (hpage : StackPage m d top) (hargc : argv.length ≤ MAXARG) (h : PushedTo m₀ m d top up argv st)
include hn htop hmod hbig hpage hargc h

/-- The words are below the strings, and the stack is complete. -/
theorem PushedTo.argStack {sp : Nat} (hsp : sp + 4 * (argv.length + 4) + argsUse argv = top)
    (hs : Scribbled st.mem m' d)
    (huser : ∀ a, sp ≤ a → a < sp + ((stackWords top sp argv).flatMap wordBytes).length →
      User (Xv6.entry st.mem d (a / 4096)))
    (hseen : ∀ a < SHAREBASE, seen m' d a
      = put (seen st.mem d) sp ((stackWords top sp argv).flatMap wordBytes) a) :
    FitsPage argv ∧ ArgStack m' d top sp argv ∧ ∀ a < top - 4096, seen m' d a = seen m d a := by
  have hroom := h.room
  have hlen : ((stackWords top sp argv).flatMap wordBytes).length = 4 * (argv.length + 4) := by
    rw [length_flatMap_wordBytes, length_stackWords]
  rw [MAXARG] at hargc
  have hfit : FitsPage argv := by
    rw [FitsPage]
    by_contra hout
    have hin := huser sp le_rfl (by omega)
    rw [h.entry, show sp / 4096 = top / 4096 - 2 by omega] at hin
    exact hpage.guard hin
  have hfit' := hfit
  rw [FitsPage] at hfit'
  have hent : Xv6.entry m' d = Xv6.entry m d := (hs.entry_eq (h.image.owned_nodup hn)).trans h.entry
  have hlayout := stackRegions_layout (by omega) hfit hsp
  obtain ⟨hcount, harray, hpointer, hnull⟩ := stackWords_read (f := seen m' d) htop (by omega)
    ((holds_put _ _ _).congr fun x _ hx => hseen x (by omega))
  refine ⟨hfit, ⟨hcount, harray, hpointer, hnull, fun i hi => ?_, ?_, hlayout.1, hlayout.2⟩, fun a ha => ?_⟩
  · have hat := le_argAt top argv i
    have hend := argAt_end_le hi (by omega : argsUse argv ≤ top)
    refine (h.string i hi).congr fun x hx hx' => ?_
    rw [List.length_append, List.length_singleton] at hx'
    rw [hseen x (by omega)]
    exact put_of_outside (.inr (by omega))
  · exact ⟨by rw [hent]; exact hpage.present, by rw [hent]; exact hpage.user,
      by rw [hent]; exact hpage.guard⟩
  · rw [hseen a (by omega), put_of_outside (.inl (by omega)), h.below a ha]

/-- **The last `copyout`**: the words are put below the strings, or they do not fit. -/
theorem pushArgs_words (hL : ∀ f ∈ m₀.free, L.Frame f)
    (hloop : Loops.each (pushArg d) argv ⟨0, top, [], m⟩ = .ok (true, st)) :
    (∃ sp m', pushArgs L d top argv m = .ok (some (top, sp), m') ∧ FitsPage argv
        ∧ ArgStack m' d top sp argv ∧ ∀ a < top - 4096, seen m' d a = seen m d a) ∨
      ∃ m', pushArgs L d top argv m = .ok (none, m') ∧ ¬ FitsPage argv := by
  have hst := h.sp
  have hroom := h.room
  have hargc' := hargc
  rw [MAXARG] at hargc'
  have htop' := htop
  rw [SHAREBASE] at htop'
  obtain ⟨sp, hsp⟩ : ∃ sp, sp + 4 * (argv.length + 4) + argsUse argv = top :=
    ⟨top - argsUse argv - 4 * (argv.length + 4), by omega⟩
  have hdown : u32 (st.sp - (3 + argv.length + 1) * 4) = sp := by
    rw [u32]
    omega
  have harray : u32 (st.sp - (argv.length + 1) * 4) = sp + 12 := by
    rw [u32]
    omega
  obtain ⟨b, m', hr, hs, hsucc⟩ := copyout_bytes (n := top / 4096) sp
    ((stackWords top sp argv).flatMap wordBytes) (fun x hx => by
      obtain ⟨w, -, hx⟩ := List.mem_flatMap.mp hx
      obtain ⟨k, -, rfl⟩ := List.mem_map.mp hx
      exact Nat.mod_lt _ (by decide)) (h.image.owned_nodup hn) (by omega)
    (fun v hv => h.image.low v (by omega)) (by
      rw [length_flatMap_wordBytes, length_stackWords]
      omega)
  have hpush : pushArgs L d top argv m = cond b (.ok (some (top, sp), m')) (bad L m' d) := by
    rw [stackWords] at hr
    rw [pushArgs, hloop]
    simp only [h.argc, h.ustack, hdown, harray, hr]
    cases b <;> rfl
  cases b with
  | false =>
    obtain ⟨m'', hb, -⟩ := (h.image.scribbled hn hs).bad (α := Nat × Nat) hn hL
    refine .inr ⟨m'', hpush.trans hb, fun hfit => ?_⟩
    -- on the stack page `copyout` succeeds
    rw [FitsPage] at hfit
    have hat : sp / 4096 = top / 4096 - 1 := by omega
    obtain ⟨m₁, hr', -⟩ := copyout_page (m := st.mem) (d := d) sp
      ((stackWords top sp argv).flatMap wordBytes) (by omega) (by
        rw [length_flatMap_wordBytes, length_stackWords]
        omega) (by rw [hat, h.entry]; exact hpage.present) (by rw [hat, h.entry]; exact hpage.user)
    cases hr.symm.trans hr'
  | true =>
    obtain ⟨huser, hseen⟩ := hsucc rfl
    exact .inl ⟨sp, m', hpush, h.argStack hn htop hmod hbig hpage hargc hsp hs huser hseen⟩

end Words

/-- Nothing has been pushed yet. -/
theorem PushedTo.nil (h : Image m₀ m d top up) : PushedTo m₀ m d top up [] ⟨0, top, [], m⟩ :=
  ⟨h, rfl, rfl, rfl, rfl, Nat.zero_le _, rfl, fun i hi => absurd hi (Nat.not_lt_zero i), fun _ _ => rfl⟩

theorem length_lt_of_sum_lt {n : Nat} (h : (argv.map List.length).sum < n) (harg : arg ∈ argv) :
    arg.length < n :=
  lt_of_le_of_lt (List.single_le_sum (fun _ _ => Nat.zero_le _) _ (List.mem_map_of_mem harg)) h

section Arguments

variable (hn : m₀.free.Nodup) (hL : ∀ f ∈ m₀.free, L.Frame f) (h : Image m₀ m d sz up)
  (hup : ∀ v, 0x80000 ≤ v → up v = kernelEntry L v)
  (hbytes : ∀ arg ∈ argv, ∀ b ∈ arg, b < 256)
include hn hL h hup hbytes

/-- **How the stack part of `exec` ends**: there is no memory, the loop gets to a string that falls, the
stack is complete, or the arguments do not fit or are too many. -/
theorem pushStack_ends
    (hlen : pgRoundUp sz + 8192 < SHAREBASE → ∀ arg ∈ argv, arg.length < SHAREBASE) :
    (∃ m₁ m', allocuvm L m d (pgRoundUp sz) (pgRoundUp sz + 8192) = .ok (0, m₁)
        ∧ pushStack L m d sz argv = .ok (none, m')) ∨
      (∃ m₁, allocuvm L m d (pgRoundUp sz) (pgRoundUp sz + 8192) = .ok (pgRoundUp sz + 8192, m₁))
        ∧ ((Overlong (pgRoundUp sz + 8192) 0 0 argv
            ∧ (TablesUpTo m d ((sz + 4095) / 4096) → pushStack L m d sz argv = .error .nullDeref)) ∨
          (¬ Overlong (pgRoundUp sz + 8192) 0 0 argv
            ∧ ((∃ sp m', pushStack L m d sz argv = .ok (some (pgRoundUp sz + 8192, sp), m') ∧ FitsPage argv
                ∧ ArgStack m' d (pgRoundUp sz + 8192) sp argv
                ∧ ∀ a < pgRoundUp sz, seen m' d a = seen m d a) ∨
              ∃ m', pushStack L m d sz argv = .ok (none, m')
                ∧ (¬ FitsPage argv ∨ MAXARG < argv.length)))) := by
  rcases pushStack_eq hn hL h argv with
    ⟨m₁, m₂, halloc, heq, hend, him, hpage, hseen, htab⟩ | ⟨m₁, m', halloc, hr, -⟩
  case inr => exact .inl ⟨m₁, m', halloc, hr⟩
  have hmod : (pgRoundUp sz + 8192) % 4096 = 0 := by
    have := pgRoundUp_mod sz
    omega
  have hbig : 8192 ≤ pgRoundUp sz + 8192 := Nat.le_add_left _ _
  rw [heq]
  refine .inr ⟨⟨m₁, halloc⟩, ?_⟩
  rcases pushArgs_cases hn hend hmod hbig hpage hup (.nil him) (Nat.zero_le _) hbytes (hlen hend) with
    ⟨hover, hnull⟩ | ⟨hnot, ⟨st, hloop, hst, hmax⟩ | ⟨st, hloop, him', hwhy⟩⟩
  · refine .inl ⟨hover, fun ht => ?_⟩
    rw [pushArgs, hnull fun i hi hi' => ?_]
    by_contra hsome
    rcases htab i hsome with hsome | hlow
    · have hmem := ht i hsome
      have hsize := h.size
      rw [SHAREBASE] at hsize
      simp only [kernelTables, List.mem_append, List.mem_range'_1, List.mem_range] at hmem
      omega
    · omega
  · rw [List.nil_append] at hst hmax
    refine .inr ⟨hnot, ?_⟩
    rcases pushArgs_words hn hend hmod hbig hpage hmax hst hL hloop with
      ⟨sp, m', hr, hfit, hstack, hbelow⟩ | ⟨m', hr, hfit⟩
    · exact .inl ⟨sp, m', hr, hfit, hstack, fun a ha =>
        (hbelow a (by omega)).trans (hseen a (by omega))⟩
    · exact .inr ⟨m', hr, .inl hfit⟩
  · obtain ⟨m', hb, -⟩ := him'.bad (α := Nat × Nat) hn hL
    rw [List.nil_append] at hwhy
    refine .inr ⟨hnot, .inr ⟨m', ?_, hwhy.imp_left fun hlong hfit => ?_⟩⟩
    · rw [pushArgs, hloop]
      exact hb
    · rw [FitsPage] at hfit
      omega

variable (htotal : (argv.map List.length).sum < pgRoundUp sz + 8192)
include htotal

variable (argv) in
/-- **The new program sees its arguments.**  For strings that are together shorter than the new image,
`exec` answers; if it succeeds the stack is as a program expects it and nothing below the guard page
has changed; and if the arguments do not fit in the page it fails. -/
theorem pushStack_arguments :
    (∃ r m', pushStack L m d sz argv = .ok (r, m'))
    ∧ (∀ sz' sp m', pushStack L m d sz argv = .ok (some (sz', sp), m') → sz' = pgRoundUp sz + 8192
      ∧ ArgStack m' d sz' sp argv ∧ ∀ a < pgRoundUp sz, seen m' d a = seen m d a)
    ∧ (¬ FitsPage argv → ∃ m', pushStack L m d sz argv = .ok (none, m')) := by
  have hshort : ∀ arg ∈ argv, arg.length < pgRoundUp sz + 8192 := fun arg => length_lt_of_sum_lt htotal
  rcases pushStack_ends hn hL h hup hbytes fun hend arg harg => (hshort arg harg).trans hend with
    ⟨-, m', -, hr⟩ | ⟨-, ⟨hover, -⟩ | ⟨-, ⟨sp, m', hr, hfit, hstack, hbelow⟩ | ⟨m', hr, -⟩⟩⟩
  · exact ⟨⟨none, m', hr⟩, fun _ _ _ hr' => (nomatch hr.symm.trans hr'), fun _ => ⟨m', hr⟩⟩
  · exact absurd hover (not_overlong (by omega) hshort)
  · refine ⟨⟨_, m', hr⟩, fun sz' sp' m'' hr' => ?_, fun hout => absurd hfit hout⟩
    obtain ⟨hsome, rfl⟩ := Prod.mk.inj (Except.ok.inj (hr.symm.trans hr'))
    obtain ⟨rfl, rfl⟩ := Prod.mk.inj (Option.some.inj hsome)
    exact ⟨rfl, hstack, hbelow⟩
  · exact ⟨⟨none, m', hr⟩, fun _ _ _ hr' => (nomatch hr.symm.trans hr'), fun _ => ⟨m', hr⟩⟩

end Arguments

/-- A memory with a thousand free frames… -/
def wideMem : Mem := ⟨⟨fun _ _ => 0, List.range' 0x200 1000⟩, []⟩

theorem wideMem_frame : ∀ f ∈ wideMem.free, sampleLinker.Frame f := by
  intro f hf
  have hf := List.mem_range'_1.mp hf
  simp only [Linker.Frame, sampleLinker, KERNBASE, PHYSTOP]
  omega

/-- …of which a new directory leaves most. -/
theorem exists_wide_image : ∃ m d, NewDir sampleLinker wideMem m d ∧ 600 < m.free.length := by
  have hfree : wideMem.free.length = 1000 := List.length_range'
  rcases setupkvm_cases (L := sampleLinker) (m := wideMem) List.nodup_range' wideMem_frame with
    ⟨m, d, -, hd⟩ | ⟨m, -, -, hlen, -⟩
  · have hle := hd.image.length_le (hd.tablesUpTo _)
    have hzero : imageFrames ((0 + 4095) / 4096) = 65 := rfl
    exact ⟨m, d, hd, by omega⟩
  · omega

/-- `echo hi` -/
def echoHi : List (List Nat) := [[101, 99, 104, 111], [104, 105]]

theorem pushStack_arguments_echo : ∃ m d sp m', NewDir sampleLinker wideMem m d
    ∧ pushStack sampleLinker m d 0 echoHi = .ok (some (8192, sp), m') ∧ ArgStack m' d 8192 sp echoHi := by
  obtain ⟨m, d, hd, hfree⟩ := exists_wide_image
  obtain ⟨m₁, halloc, -⟩ := hd.image.stack_allocated (L := sampleLinker) List.nodup_range' wideMem_frame
    (hd.tablesUpTo _) (lt_trans (by decide) hfree) (by decide)
  have hbytes : ∀ arg ∈ echoHi, ∀ b ∈ arg, b < 256 := by decide
  obtain ⟨-, hstack, -⟩ := pushStack_arguments echoHi List.nodup_range' wideMem_frame hd.image
    (fun _ _ => rfl) hbytes (by decide)
  rcases pushStack_ends List.nodup_range' wideMem_frame hd.image (fun _ _ => rfl) hbytes
      (fun _ => by decide) with
    ⟨m₂, -, hzero, -⟩ | ⟨-, ⟨hover, -⟩ | ⟨-, ⟨sp, m', hr, -⟩ | ⟨-, -, hfit | hmax⟩⟩⟩
  · exact nomatch halloc.symm.trans hzero
  · exact absurd hover (not_overlong (by decide) (by decide))
  · exact ⟨m, d, sp, m', hd, hr, (hstack _ sp m' hr).2.1⟩
  · exact absurd (by decide : argsUse echoHi + 4 * (echoHi.length + 4) ≤ 4096) hfit
  · exact absurd hmax (by decide)

end Xv6
