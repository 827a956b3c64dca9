import Xv6Ipc.Exec.Load

/-!
# Exec/Stack — the stack of a new image

The last part of `exec` before it commits: two more pages, the lower of which is taken from the user,
and on the upper one the arguments, their addresses and a fake return address, from the top down.

    sz ─ guard ─ sz + 4096 ─ … ustack, argv[n-1], …, argv[0] ─ sz + 8192

The stack pointer is a 32-bit number: an argument that does not fit wraps it into the kernel's half,
where nothing is the user's.
-/

namespace Xv6

def MAXARG : Nat := 32

/-- Where the argument loop of `exec` is. -/
structure Pushed where
  argc : Nat
  sp : Nat
  ustack : List Nat
  mem : Mem

/-- One turn of the argument loop; `false` stands for `goto bad`. -/
def pushArg (pgdir : Nat) (arg : List Nat) (st : Pushed) : Except Panic (Bool × Pushed) :=
  if MAXARG ≤ st.argc then .ok (false, st)
  else
    let sp := u32 (st.sp - (arg.length + 1)) / 4 * 4
    match copyout st.mem pgdir sp (arg ++ [0]) with
    | .error e => .error e
    | .ok (false, m) => .ok (false, { st with mem := m })
    | .ok (true, m) => .ok (true, ⟨st.argc + 1, sp, st.ustack ++ [sp], m⟩)

/-- `exec` from where the stack is allocated up to where it commits: the new size and stack pointer,
`none` for `return -1`. -/
def pushStack (L : Linker) (m : Mem) (pgdir sz : Nat) (argv : List (List Nat)) :
    Except Panic (Option (Nat × Nat) × Mem) :=
  match allocuvm L m pgdir (pgRoundUp sz) (u32 (pgRoundUp sz + 2 * 4096)) with
  | .error e => .error e
  | .ok (sz, m) =>
    if sz = 0 then bad L m pgdir
    else
      match clearpteu m pgdir (u32 (sz - 2 * 4096)) with
      | .error e => .error e
      | .ok m =>
        match Loops.each (pushArg pgdir) argv ⟨0, sz, [], m⟩ with
        | .error e => .error e
        | .ok (false, st) => bad L st.mem pgdir
        | .ok (true, st) =>
          let ustack := [0xffffffff, st.argc, u32 (st.sp - (st.argc + 1) * 4)] ++ st.ustack ++ [0]
          let sp := u32 (st.sp - (3 + st.argc + 1) * 4)
          match copyout st.mem pgdir sp (ustack.flatMap wordBytes) with
          | .error e => .error e
          | .ok (false, m) => bad L m pgdir
          | .ok (true, m) => .ok (some (sz, sp), m)

variable {L : Linker} {m₀ m m' : Mem} {d sz : Nat} {up : Nat → Nat} {argv : List (List Nat)}

theorem length_flatMap_wordBytes (l : List Nat) : (l.flatMap wordBytes).length = 4 * l.length := by
  induction l with
  | nil => rfl
  | cons w l ih =>
    have hw : (wordBytes w).length = 4 := rfl
    rw [List.flatMap_cons, List.length_append, ih, hw, List.length_cons]
    omega

/-- **A `copyout` from the top of the image down**: the address fits below the old one, or it wraps
around and nothing happens. -/
theorem Image.copyout (hn : m₀.free.Nodup) (h : Image m₀ m d sz up)
    (hker : ∀ v, 0x80000 ≤ v → ¬ User (up v)) {sp n a : Nat} (hsp : sp ≤ SHAREBASE)
    (hlen : n ≤ SHAREBASE) (ha : a ≤ u32 (sp - n)) (ha' : u32 (sp - n) < a + 4)
    {p : List Nat} (hp : p ≠ []) (hpn : p.length ≤ n) {b : Bool}
    (hr : Xv6.copyout m d a p = .ok (b, m')) : Image m₀ m' d sz up ∧ (b = true → a ≤ SHAREBASE) := by
  rw [SHAREBASE] at hsp hlen
  by_cases hwrap : n ≤ sp
  · have hdown : u32 (sp - n) = sp - n := by
      rw [u32]
      omega
    rcases copyout_cases a p (h.owned_nodup hn) (by
        rw [SHAREBASE]
        omega) with ⟨b', m'', hr', hs, -⟩ | ⟨hr', -⟩
    · obtain ⟨rfl, rfl⟩ := Prod.mk.inj (Except.ok.inj (hr'.symm.trans hr))
      refine ⟨h.scribbled hn hs, fun _ => ?_⟩
      rw [SHAREBASE]
      omega
    · cases hr'.symm.trans hr
  · have hup : u32 (sp - n) = 0x100000000 + sp - n := by
      rw [u32]
      omega
    obtain ⟨b, p, rfl⟩ := List.exists_cons_of_ne_nil hp
    have hu : ¬ User (entry m d (a / 4096)) := by
      rw [h.upper _ (by omega)]
      exact hker _ (by omega)
    obtain ⟨hr', -⟩ | ⟨hr', -⟩ | ⟨-, hu', -⟩ := copyout_turn (m := m) (d := d) b p (by omega : a < 0x100000000)
    · cases hr'.symm.trans hr
    · obtain ⟨rfl, rfl⟩ := Prod.mk.inj (Except.ok.inj (hr'.symm.trans hr))
      exact ⟨h, by rintro ⟨⟩⟩
    · exact absurd hu' hu

/-! ## The arguments -/

/-- The argument loop is fine: the image stands and the stack pointer is inside it. -/
structure Pushing (m₀ : Mem) (d sz : Nat) (up : Nat → Nat) (st : Pushed) : Prop where
  image : Image m₀ st.mem d sz up
  sp_le : st.sp ≤ SHAREBASE
  argc_le : st.argc ≤ MAXARG
  length : st.ustack.length = st.argc

/-- **One argument.** -/
theorem pushArg_ends (hn : m₀.free.Nodup) (hker : ∀ v, 0x80000 ≤ v → ¬ User (up v))
    {arg : List Nat} (harg : arg.length < SHAREBASE) {st : Pushed} (h : Pushing m₀ d sz up st) :
    Loops.Ends (Pushing m₀ d sz up) (fun st => Image m₀ st.mem d sz up) (fun _ => True)
      (pushArg d arg st) := by
  rw [pushArg]
  by_cases hmax : MAXARG ≤ st.argc
  · rw [if_pos hmax]
    exact h.image
  rw [if_neg hmax]
  cases hr : copyout st.mem d (u32 (st.sp - (arg.length + 1)) / 4 * 4) (arg ++ [0]) with
  | error e =>
    simp only [hr]
    trivial
  | ok x =>
    obtain ⟨b, m'⟩ := x
    simp only [hr]
    obtain ⟨him, hle⟩ := h.image.copyout hn hker (n := arg.length + 1) h.sp_le harg
      (Nat.div_mul_le_self _ _) (by push_cast; omega) (by simp) (by simp) hr
    cases b with
    | false => exact him
    | true =>
      refine ⟨him, hle rfl, not_le.mp hmax, ?_⟩
      rw [List.length_append, h.length, List.length_singleton]

/-! ## The stack -/

/-- Rounding the size up does not change the image. -/
theorem Image.pgRoundUp (h : Image m₀ m d sz up) : Image m₀ m d (pgRoundUp sz) up := by
  have hsize := h.size
  rw [SHAREBASE] at hsize
  have hround : Xv6.pgRoundUp sz = (sz + 4095) / 4096 * 4096 := pgRoundUp_eq (by omega)
  have hpages : (Xv6.pgRoundUp sz + 4095) / 4096 = (sz + 4095) / 4096 := by omega
  refine ⟨h.moves, ?_, ?_, h.upper, ?_, h.vmfreed, h.taken⟩
  · rw [hpages]
    exact h.low
  · rw [hpages]
    exact h.gap
  · rw [SHAREBASE]
    omega

theorem stack_top {r : Nat} (h : r ≤ SHAREBASE) : u32 (r + 2 * 4096) = r + 8192 := by
  rw [SHAREBASE] at h
  rw [u32]
  omega

theorem stack_guard {r : Nat} (h : r + 8192 ≤ SHAREBASE) (hmod : r % 4096 = 0) :
    u32 ((r + 8192 : Nat) - 2 * 4096) = r / 4096 * 4096 := by
  rw [SHAREBASE] at h
  rw [u32]
  omega

/-- `bad` of an image. -/
theorem Image.bad {α : Type} (hn : m₀.free.Nodup) (hL : ∀ f ∈ m₀.free, L.Frame f)
    (h : Image m₀ m d sz up) :
    ∃ m', Xv6.bad (α := α) L m d = .ok (none, m') ∧ m₀.Moves [] m' []
      ∧ m'.vmfreed = d :: m₀.vmfreed := by
  obtain ⟨m', hf, hmove, hvm⟩ := h.freevm hn hL
  exact ⟨m', by rw [Xv6.bad, hf], hmove, hvm⟩

/-- The page a stack is on, and the one below it. -/
structure StackPage (m : Mem) (d top : Nat) : Prop where
  present : Present (entry m d (top / 4096 - 1))
  user : User (entry m d (top / 4096 - 1))
  guard : ¬ User (entry m d (top / 4096 - 2))

/-- `exec` from the argument loop up to where it commits. -/
def pushArgs (L : Linker) (pgdir sz : Nat) (argv : List (List Nat)) (m : Mem) :
    Except Panic (Option (Nat × Nat) × Mem) :=
  match Loops.each (pushArg pgdir) argv ⟨0, sz, [], m⟩ with
  | .error e => .error e
  | .ok (false, st) => bad L st.mem pgdir
  | .ok (true, st) =>
    let ustack := [0xffffffff, st.argc, u32 (st.sp - (st.argc + 1) * 4)] ++ st.ustack ++ [0]
    let sp := u32 (st.sp - (3 + st.argc + 1) * 4)
    match copyout st.mem pgdir sp (ustack.flatMap wordBytes) with
    | .error e => .error e
    | .ok (false, m) => bad L m pgdir
    | .ok (true, m) => .ok (some (sz, sp), m)

/-- **The stack is allocated and its lower page taken from the user**, or there is no memory for it. -/
theorem pushStack_eq (hn : m₀.free.Nodup) (hL : ∀ f ∈ m₀.free, L.Frame f) (h : Image m₀ m d sz up)
    (argv : List (List Nat)) :
    (∃ m₁ m₂, allocuvm L m d (pgRoundUp sz) (pgRoundUp sz + 8192) = .ok (pgRoundUp sz + 8192, m₁)
        ∧ pushStack L m d sz argv = pushArgs L d (pgRoundUp sz + 8192) argv m₂
        ∧ pgRoundUp sz + 8192 < SHAREBASE ∧ Image m₀ m₂ d (pgRoundUp sz + 8192) up
        ∧ StackPage m₂ d (pgRoundUp sz + 8192) ∧ (∀ a < SHAREBASE, seen m₂ d a = seen m d a)
        ∧ ∀ i, tableAt m₂ d i ≠ none → tableAt m d i ≠ none ∨ i < 256) ∨
      ∃ m₁ m', allocuvm L m d (pgRoundUp sz) (pgRoundUp sz + 8192) = .ok (0, m₁)
        ∧ pushStack L m d sz argv = .ok (none, m') ∧ m₀.Moves [] m' []
        ∧ m'.vmfreed = d :: m₀.vmfreed := by
  have hround := h.pgRoundUp.size
  have hmod := pgRoundUp_mod sz
  have hnew := stack_top hround
  have hmax : max (pgRoundUp sz) (pgRoundUp sz + 8192) = pgRoundUp sz + 8192 :=
    Nat.max_eq_right (Nat.le_add_right _ _)
  have halloc := h.pgRoundUp.allocuvm hn hL (pgRoundUp sz + 8192)
  rw [hmax] at halloc
  unfold pushStack
  rw [hnew]
  rcases halloc with ⟨m₁, hr, hend, him, hg⟩ | ⟨m₁, hr, him, -⟩
  case inr =>
    obtain ⟨m', hb, hmove, hvm⟩ := him.bad (α := Nat × Nat) hn hL
    exact .inr ⟨m₁, m', hr, by simp only [hr, if_pos, hb], hmove, hvm⟩
  have hsize := him.size
  have hguard := stack_guard hsize hmod
  have hend' := hend
  rw [SHAREBASE] at hend'
  have hv : pgRoundUp sz / 4096 < 0x40000 := by omega
  have hp := him.low (pgRoundUp sz / 4096) (by omega)
  obtain ⟨m₂, hclear, him₂, htab, hkeep⟩ := him.clearpteu hn (v := pgRoundUp sz / 4096) (by omega)
  obtain ⟨m₂', hclear', -, hent, -⟩ := clearpteu_spec (him.owned_nodup hn) hv hp
  obtain rfl : m₂ = m₂' := Except.ok.inj (hclear.symm.trans hclear')
  obtain ⟨f, hf⟩ := hg.page (pgRoundUp sz / 4096 + 1) (by omega) (by omega)
  have hstack : (pgRoundUp sz + 8192) / 4096 - 1 = pgRoundUp sz / 4096 + 1 := by omega
  have hlower : (pgRoundUp sz + 8192) / 4096 - 2 = pgRoundUp sz / 4096 := by omega
  have hupper : entry m₂ d (pgRoundUp sz / 4096 + 1) = mkPte (4096 * f) (PTE_W ||| PTE_U) := by
    rw [hkeep _ (by omega), hf]
  refine .inl ⟨m₁, m₂, hr, ?_, hend, him₂, ⟨?_, ?_, ?_⟩, fun a ha => ?_, fun i hi => ?_⟩
  · simp only [hr, Nat.add_eq_zero_iff, OfNat.ofNat_ne_zero, and_false, if_false, hguard, hclear]
    rfl
  · rw [hstack, hupper]
    exact present_mkPte _ _
  · rw [hstack, hupper]
    exact (user_mkPte_iff _ _).mpr (by decide)
  · rw [hlower, hent, Function.update_self]
    exact not_user_clearUser _
  · rw [clearpteu_bytes (him.owned_nodup hn) hv hp hclear ha]
    exact allocuvm_bytes (h.pgRoundUp.nodup hn) (h.pgRoundUp.frame hL) h.pgRoundUp.gap hr
      (by omega) ha
  · rw [htab] at hi
    rcases hg.grow i hi with hi | ⟨v, -, hv', rfl⟩
    · exact .inl hi
    · exact .inr (by omega)

/-- **What the stack part can return**: two more pages, or nothing at all. -/
theorem pushStack_spec (hn : m₀.free.Nodup) (hL : ∀ f ∈ m₀.free, L.Frame f)
    (h : Image m₀ m d sz up) (hker : ∀ v, 0x80000 ≤ v → ¬ User (up v))
    (hargs : ∀ arg ∈ argv, arg.length < SHAREBASE) {r : Option (Nat × Nat)}
    (hr : pushStack L m d sz argv = .ok (r, m')) :
    (∃ sp, r = some (Xv6.pgRoundUp sz + 8192, sp) ∧ Xv6.pgRoundUp sz + 8192 < SHAREBASE
        ∧ Image m₀ m' d (Xv6.pgRoundUp sz + 8192) up) ∨
      r = none ∧ m₀.Moves [] m' [] ∧ m'.vmfreed = d :: m₀.vmfreed := by
  have hbad : ∀ {m₁ sz}, Image m₀ m₁ d sz up → Xv6.bad L m₁ d = .ok (r, m') →
      r = none ∧ m₀.Moves [] m' [] ∧ m'.vmfreed = d :: m₀.vmfreed := fun him hr => by
    obtain ⟨m₂, hb, hfreed⟩ := him.bad (α := Nat × Nat) hn hL
    obtain ⟨rfl, rfl⟩ := Prod.mk.inj (Except.ok.inj (hb.symm.trans hr))
    exact ⟨rfl, hfreed⟩
  rcases pushStack_eq hn hL h argv with ⟨-, m₂, -, heq, hend, him, -⟩ | ⟨-, m₂, -, hr', hfreed⟩
  case inr =>
    obtain ⟨rfl, rfl⟩ := Prod.mk.inj (Except.ok.inj (hr'.symm.trans hr))
    exact .inr ⟨rfl, hfreed⟩
  rw [heq, pushArgs] at hr
  have hpush := (Loops.each_rule (f := pushArg d) (s := ⟨0, pgRoundUp sz + 8192, [], m₂⟩)
    ⟨him, him.size, Nat.zero_le _, rfl⟩ fun arg harg st hst => pushArg_ends hn hker (hargs arg harg) hst)
  rcases hpush.cases with ⟨st, hr', hst⟩ | ⟨st, hr', hst⟩ | ⟨e, hr', -⟩ <;> rw [hr'] at hr
  · obtain ⟨ustack, hustack⟩ : ∃ l, l = [0xffffffff, st.argc, u32 (st.sp - (st.argc + 1) * 4)]
        ++ st.ustack ++ [0] := ⟨_, rfl⟩
    have hlen : (ustack.flatMap wordBytes).length = (3 + st.argc + 1) * 4 := by
      rw [length_flatMap_wordBytes, hustack, List.length_append, List.length_append, hst.length,
        List.length_cons, List.length_cons, List.length_singleton, List.length_singleton]
      omega
    have hargc := hst.argc_le
    rw [MAXARG] at hargc
    simp only [← hustack] at hr
    cases hc : copyout st.mem d (u32 (st.sp - (3 + st.argc + 1) * 4)) (ustack.flatMap wordBytes) with
    | error e =>
      rw [hc] at hr
      cases hr
    | ok x =>
      obtain ⟨b, m₃⟩ := x
      rw [hc] at hr
      obtain ⟨him', -⟩ := hst.image.copyout hn hker (n := (3 + st.argc + 1) * 4) hst.sp_le (by
        rw [SHAREBASE]
        omega) (by push_cast; exact le_rfl) (by push_cast; omega) (by
          intro hnil
          rw [hnil, List.length_nil] at hlen
          omega) hlen.le hc
      cases b with
      | false => exact .inr (hbad him' hr)
      | true =>
        obtain ⟨rfl, rfl⟩ := Prod.mk.inj (Except.ok.inj hr)
        exact .inl ⟨_, rfl, hend, him'⟩
  · exact .inr (hbad hst hr)
  · cases hr

/-- With memory there are two more pages. -/
theorem Image.stack_allocated (hn : m₀.free.Nodup) (hL : ∀ f ∈ m₀.free, L.Frame f)
    (h : Image m₀ m d sz up) (ht : TablesUpTo m d ((sz + 4095) / 4096))
    (hmem : 323 + ((sz + 4095) / 4096 + 2) / 1024 < m.free.length)
    (hsz : Xv6.pgRoundUp sz + 8192 < SHAREBASE) :
    ∃ m₁, Xv6.allocuvm L m d (Xv6.pgRoundUp sz) (Xv6.pgRoundUp sz + 8192)
        = .ok (Xv6.pgRoundUp sz + 8192, m₁)
      ∧ Image m₀ m₁ d (Xv6.pgRoundUp sz + 8192) up
      ∧ Grown m m₁ d ((Xv6.pgRoundUp sz + 4095) / 4096) ((Xv6.pgRoundUp sz + 8192 + 4095) / 4096) := by
  have hpages : (Xv6.pgRoundUp sz + 4095) / 4096 = (sz + 4095) / 4096 := by
    have := h.size
    rw [SHAREBASE] at this
    rw [pgRoundUp_eq (by omega)]
    omega
  have hmax : max (Xv6.pgRoundUp sz) (Xv6.pgRoundUp sz + 8192) = Xv6.pgRoundUp sz + 8192 :=
    Nat.max_eq_right (Nat.le_add_right _ _)
  have halloc := h.pgRoundUp.allocuvm hn hL (Xv6.pgRoundUp sz + 8192)
  rw [hmax] at halloc
  rcases halloc with ⟨m₁, hr, -, him, hg⟩ | ⟨m₁, -, -, hwhy⟩
  · exact ⟨m₁, hr, him, hg⟩
  · rcases hwhy with hwhy | hshort
    · omega
    · have := hshort (kernelTables ++ List.range' 256 256
        ++ List.range (((sz + 4095) / 4096 + 2) / 1024 + 1))
        (tablesUpTo_mono (Nat.le_add_right _ 2) ht) fun v _ hv =>
          List.mem_append_right _ (List.mem_range.mpr (by omega))
      have hkt : kernelTables.length = 64 := by decide
      simp only [List.length_append, List.length_range', List.length_range, hkt, dirFrames,
        List.length_cons] at this
      omega

end Xv6
