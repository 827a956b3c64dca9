import Xv6Ipc.Machinery.Fuel
import Xv6Ipc.Machinery.Runs
import Xv6Ipc.Heap.Malloc

/-!
# Heap/Sound — the allocator over whole runs

A program calls `malloc` and `free` in any order, and writes to what it was given and to whatever lies
outside the heap:

    s₀ ──malloc n──▸ s₁ ──write x──▸ s₂ ──free p──▸ s₃ ──▸ …

In every state it reaches, the heap is a row of blocks (`Laid`), so the ring is in order, no two free
blocks touch, and the blocks make up what the system gave; from every such state each call returns, and
writes to no block that stays with its owner.
-/

namespace Xv6.Heap

open Chain Tiling Function

/-- A program's heap: the arena, and what it holds, each pointer with the number of bytes asked for. -/
structure State where
  arena : Arena
  live : List (Nat × Nat)

/-- What a program does. -/
inductive Act
  | malloc (nbytes : Nat) (grant : Nat → Int → Bool)
  | free (ap : Nat)
  | write (x : Nat) (v : UInt8)

/-- A call on fuel returns `r`: some fuel is enough, and more does not change the answer. -/
def Returns {α : Type*} (f : Nat → Option α) (r : α) : Prop := Fuel.Settles f (some r)

theorem Returns.unique {α : Type*} {f : Nat → Option α} {r r' : α} (h : Returns f r)
    (h' : Returns f r') : r = r' := Option.some.inj (Fuel.Settles.unique h h')

/-- The bytes a program may write: those it was given, and those outside the heap. -/
def Owns (S : Site) (s : State) (x : Nat) : Prop :=
  (∃ e ∈ s.live, e.1 ≤ x ∧ x < e.1 + e.2) ∨
    (x < S.base ∨ S.base + 8 ≤ x) ∧ (x < S.lo ∨ s.arena.brk ≤ x)

/-- **One action of a program.** -/
inductive Step (S : Site) : State → Act → State → Prop
  | malloc {s : State} {nbytes r : Nat} {grant : Nat → Int → Bool} {h : Arena} (hn : nbytes < 2 ^ 30)
      (hrun : Returns (fun fuel => malloc grant S.base fuel nbytes s.arena) (r, h)) :
      Step S s (.malloc nbytes grant) ⟨h, if r = 0 then s.live else (r, nbytes) :: s.live⟩
  | free {s : State} {p n : Nat} {es es' : List (Nat × Nat)} {h : Arena}
      (hlive : s.live = es ++ (p, n) :: es') (hrun : Returns (fun fuel => free fuel p s.arena) h) :
      Step S s (.free p) ⟨h, es ++ es'⟩
  | write {s : State} {x : Nat} {v : UInt8} (hown : Owns S s x) :
      Step S s (.write x v) ⟨{ s.arena with mem := update s.arena.mem x v }, s.live⟩

/-- A program that has not called the allocator yet. -/
def Start (S : Site) (s : State) : Prop := s.arena.freep = 0 ∧ s.arena.brk = S.lo ∧ s.live = []

/-! ## The invariant -/

/-- A block, and what its owner knows of it. -/
def Fits (b : Block) (e : Nat × Nat) : Prop := e.1 = b.addr + 8 ∧ e.1 + e.2 ≤ b.stop

/-- **What every action keeps.** -/
def Inv (S : Site) (s : State) : Prop :=
  Start S s ∨ ∃ l lives, Laid S s.arena l ∧ (held l).Perm lives ∧ lives.Forall₂ Fits s.live

section Keeps

variable {S : Site} {s s' : State} {a : Act} {l : List Block} {h : Arena}

/-- Before its first call or after it: the row `malloc` works on. -/
theorem Inv.started (hs : Inv S s) :
    ∃ l lives, Laid S (start S.base s.arena) l ∧ (held l).Perm lives ∧ lives.Forall₂ Fits s.live := by
  rcases hs with ⟨hzero, hbrk, hlive⟩ | ⟨l, lives, hl, hperm, hfits⟩
  · exact ⟨[], [], start_laid hzero hbrk, .refl _, hlive ▸ .nil⟩
  · exact ⟨l, lives, (start_of_laid hl).symm ▸ hl, hperm, hfits⟩

/-- The block of a pointer that is held. -/
theorem forall₂_split {α β : Type*} {R : α → β → Prop} {as : List α} {es es' : List β} {e : β}
    (h : as.Forall₂ R (es ++ e :: es')) :
    ∃ as₁ b as₂, as = as₁ ++ b :: as₂ ∧ as₁.Forall₂ R es ∧ R b e ∧ as₂.Forall₂ R es' := by
  induction es generalizing as with
  | nil =>
    obtain ⟨b, as₂, hb, has, rfl⟩ := List.forall₂_cons_right_iff.mp h
    exact ⟨[], b, as₂, rfl, .nil, hb, has⟩
  | cons d es ih =>
    obtain ⟨c, as', hc, has, rfl⟩ := List.forall₂_cons_right_iff.mp h
    obtain ⟨as₁, b, as₂, rfl, h₁, hb, h₂⟩ := ih has
    exact ⟨c :: as₁, b, as₂, rfl, .cons hc h₁, hb, h₂⟩

/-- A row of blocks is what its headers say. -/
theorem Laid.congr {m : Bytes} (hl : Laid S h l)
    (hbase : ∀ k < 8, m (S.base + k) = h.mem (S.base + k))
    (hheads : ∀ b ∈ l, ∀ k < 8, m (b.addr + k) = h.mem (b.addr + k)) :
    Laid S { h with mem := m } l := by
  have hsize : ∀ p, (∀ k < 8, m (p + k) = h.mem (p + k)) → Heap.size m p = Heap.size h.mem p := by
    intro p hp
    refine load_congr fun k hk => ?_
    rw [Nat.add_assoc]
    exact hp (4 + k) (by omega)
  have hptr : ∀ p, (∀ k < 8, m (p + k) = h.mem (p + k)) → ptr m p = ptr h.mem p := fun p hp =>
    load_congr fun k hk => hp k (by omega)
  refine ⟨hl.tiles, hl.brk_lt, fun b hb => ?_, ?_, hl.settled, hl.ring.congr fun p hp => ?_, hl.freep⟩
  · exact (hsize b.addr (hheads b hb)).trans (hl.size b hb)
  · exact (hsize S.base hbase).trans hl.base
  · rcases List.mem_cons.mp hp with rfl | hp
    · exact hptr _ hbase
    · obtain ⟨b, hb, -, rfl⟩ := mem_gaps.mp hp
      exact hptr _ (hheads b hb)

/-- No program writes to a header. -/
theorem owns_outside {lives : List Block} {x : Nat} (hl : Laid S s.arena l) (hperm : (held l).Perm lives)
    (hfits : lives.Forall₂ Fits s.live) (hown : Owns S s x) :
    (∀ k < 8, S.base + k ≠ x) ∧ ∀ b ∈ l, ∀ k < 8, b.addr + k ≠ x := by
  have hbelow := S.base_below
  rcases hown with ⟨e, he, hlo, hhi⟩ | ⟨hbase, hheap⟩
  · obtain ⟨es, es', hsplit⟩ := List.append_of_mem he
    obtain ⟨as₁, b, as₂, rfl, -, ⟨hptr, hstop⟩, -⟩ := forall₂_split (hsplit ▸ hfits)
    have hb : b ∈ held l := hperm.mem_iff.mpr (List.mem_append_cons_self)
    have hb := (mem_held.mp hb).1
    have hin := (hl.tiles.within hb).1
    refine ⟨fun k hk => by omega, fun c hc k hk => ?_⟩
    have hcu := units_pos hl.tiles hc
    rcases hl.tiles.eq_or_apart hc hb with rfl | hle | hle
    · omega
    · rw [Block.stop] at hle
      omega
    · omega
  · refine ⟨fun k hk => by omega, fun c hc k hk => ?_⟩
    have hcu := units_pos hl.tiles hc
    obtain ⟨hlo, hhi⟩ := hl.tiles.within hc
    rw [Block.stop] at hhi
    omega

/-- A call of `malloc` keeps it. -/
theorem Inv.of_malloc {nbytes r : Nat} {grant : Nat → Int → Bool} (hs : Inv S s)
    (hn : nbytes + 15 < 2 ^ 31)
    (hrun : Returns (fun fuel => malloc grant S.base fuel nbytes s.arena) (r, h)) :
    Inv S ⟨h, if r = 0 then s.live else (r, nbytes) :: s.live⟩ := by
  obtain ⟨l, lives, hl, hperm, hfits⟩ := hs.started
  obtain ⟨N, r', h', hrun', hend⟩ := malloc_spec grant hl hn
  obtain ⟨rfl, rfl⟩ := Prod.mk.inj (hrun.unique ⟨N, hrun'⟩)
  rcases hend with ⟨rfl, rfl⟩ | ⟨b, l', rfl, hunits, hhanded⟩
  · exact .inr ⟨l, lives, hl, hperm, hfits⟩
  · rw [if_neg (by omega)]
    refine .inr ⟨l', b :: lives, hhanded.laid, hhanded.held.trans (hperm.cons b), .cons ⟨rfl, ?_⟩ hfits⟩
    simp only [Block.stop]
    omega

/-- **Every action keeps it.** -/
theorem Inv.step (hs : Inv S s) (hstep : Step S s a s') : Inv S s' := by
  cases hstep with
  | malloc hn hrun => exact hs.of_malloc (by omega) hrun
  | free hlive hrun =>
    rcases hs with ⟨-, -, hnil⟩ | ⟨l, lives, hl, hperm, hfits⟩
    · rw [hnil] at hlive
      exact absurd hlive.symm (List.append_ne_nil_of_right_ne_nil _ (List.cons_ne_nil _ _))
    obtain ⟨as₁, b, as₂, rfl, h₁, ⟨rfl, -⟩, h₂⟩ := forall₂_split (hlive ▸ hfits)
    have hb : b ∈ held l := hperm.mem_iff.mpr (List.mem_append_cons_self)
    obtain ⟨hbl, hbfree⟩ := mem_held.mp hb
    obtain ⟨l₁, l₂, rfl⟩ := List.append_of_mem hbl
    obtain ⟨h', hrun', l', hl', hheld, -⟩ := free_spec hl hbfree
    obtain rfl := hrun.unique ⟨_, hrun'⟩
    refine .inr ⟨l', as₁ ++ as₂, hl', ?_, List.rel_append h₁ h₂⟩
    rw [held_append, held_cons_live hbfree] at hperm
    rw [hheld]
    exact (List.perm_middle.symm.trans (hperm.trans List.perm_middle)).cons_inv
  | write hown =>
    rcases hs with ⟨hzero, hbrk, hlive⟩ | ⟨l, lives, hl, hperm, hfits⟩
    · exact .inl ⟨hzero, hbrk, hlive⟩
    · obtain ⟨hbase, hheads⟩ := owns_outside hl hperm hfits hown
      refine .inr ⟨l, lives, hl.congr (fun k hk => ?_) fun b hb k hk => ?_, hperm, hfits⟩
      · exact update_of_ne (hbase k hk) _ _
      · exact update_of_ne (hheads b hb k hk) _ _

/-! ## What a program can rely on -/

/-- **The heap in good order**, with `frees` the free blocks and `lives` those the program holds. -/
structure Kept (S : Site) (s : State) (frees lives : List Block) : Prop where
  /-- The free list is a ring through `base`, and `freep` is on it… -/
  ring : s.arena.freep ≠ 0 →
    Seg id (ptr s.arena.mem) S.base (S.base :: frees.map Block.addr) S.base ∧
      s.arena.freep ∈ S.base :: frees.map Block.addr
  /-- …which goes up, from `base` to the last block, and then over to `base`. -/
  upward : (S.base :: frees.map Block.addr).Pairwise (· < ·)
  unused : s.arena.freep = 0 → frees = [] ∧ lives = []
  size : ∀ b ∈ frees ++ lives, size s.arena.mem b.addr = b.units
  /-- No free block ends where another begins. -/
  joined : ∀ a ∈ frees, ∀ b ∈ frees, a.stop ≠ b.addr
  disjoint : (frees ++ lives).Pairwise fun a b => a.stop ≤ b.addr ∨ b.stop ≤ a.addr
  /-- The blocks are all the memory the system gave. -/
  whole : ∀ x, (∃ b ∈ frees ++ lives, b.addr ≤ x ∧ x < b.stop) ↔ S.lo ≤ x ∧ x < s.arena.brk
  live : lives.Forall₂ Fits s.live

/-- Two free blocks of a row do not touch. -/
theorem Laid.joined {a b : Block} (hl : Laid S h l) (ha : a ∈ l) (hb : b ∈ l) (haf : a.free = true)
    (hbf : b.free = true) : a.stop ≠ b.addr := by
  intro htouch
  obtain ⟨l₁, l₂, rfl⟩ := List.append_of_mem ha
  obtain ⟨y, -, hrest⟩ := Tiles.append_iff.mp hl.tiles
  obtain ⟨-, hpos, habove⟩ := Tiles.cons_iff.mp hrest
  have hbpos := hl.tiles.pos b hb
  have hbmem : b ∈ l₂ := by
    obtain ⟨-, -, hcross⟩ := List.pairwise_append.mp hl.tiles.pairwise
    rcases List.mem_append.mp hb with hb | hb
    · have hle := hcross b hb a List.mem_cons_self
      omega
    · refine List.mem_of_ne_of_mem (fun heq => ?_) hb
      rw [heq] at htouch
      omega
  -- the block that follows begins there too
  cases l₂ with
  | nil => cases hbmem
  | cons x l₂ =>
    obtain ⟨hx, hxpos, hrest⟩ := Tiles.cons_iff.mp habove
    have hsettled := (List.isChain_append.mp hl.settled).2.1
    rw [List.isChain_cons_cons] at hsettled
    rcases List.mem_cons.mp hbmem with rfl | hbmem
    · exact hsettled.1 ⟨haf, hbf⟩
    · have hle := (hrest.within hbmem).1
      omega

theorem Laid.kept {lives : List Block} (hl : Laid S s.arena l) (hperm : (held l).Perm lives)
    (hfits : lives.Forall₂ Fits s.live) : Kept S s (l.filter Block.free) lives := by
  have hall : (l.filter Block.free ++ lives).Perm l :=
    (hperm.symm.append_left _).trans (List.filter_append_perm Block.free l)
  refine ⟨fun _ => ⟨hl.ring, hl.freep⟩, ring_sorted hl.tiles, fun hzero => absurd hzero hl.freep_ne,
    fun b hb => hl.size b (hall.mem_iff.mp hb), fun a ha b hb => ?_, ?_, fun x => ?_, hfits⟩
  · obtain ⟨ha, haf⟩ := List.mem_filter.mp ha
    obtain ⟨hb, hbf⟩ := List.mem_filter.mp hb
    exact hl.joined ha hb haf hbf
  · refine (hall.pairwise_iff fun hab => hab.symm).mpr (hl.tiles.pairwise.imp fun hle => .inl hle)
  · constructor
    · rintro ⟨b, hb, hlo, hhi⟩
      have hin := hl.tiles.within (hall.mem_iff.mp hb)
      omega
    · rintro ⟨hlo, hhi⟩
      obtain ⟨b, hb, hx⟩ := hl.tiles.covers hlo hhi
      exact ⟨b, hall.mem_iff.mpr hb, hx⟩

theorem Start.kept (hs : Start S s) : Kept S s [] [] := by
  obtain ⟨hzero, hbrk, hlive⟩ := hs
  refine ⟨fun hne => absurd hzero hne, List.pairwise_singleton _ _, fun _ => ⟨rfl, rfl⟩,
    fun _ hb => (nomatch hb), fun _ ha => (nomatch ha), .nil, fun x => ?_, hlive ▸ .nil⟩
  constructor
  · rintro ⟨b, hb, -⟩
    cases hb
  · rintro ⟨hlo, hhi⟩
    omega

/-- The allocator writes to no block that stays with its owner. -/
theorem Laid.spares {lives : List Block} {b : Block} (hl : Laid S s.arena l)
    (hperm : (held l).Perm lives) (hfits : lives.Forall₂ Fits s.live) (hstep : Step S s a s')
    (hcall : ∀ x v, a ≠ .write x v) (hb : b ∈ lives) (hkeep : a ≠ .free (b.addr + 8)) :
    Spares b s.arena.mem s'.arena.mem := by
  have hb := hperm.mem_iff.mpr hb
  cases hstep with
  | @malloc nbytes r grant h hn hrun =>
    obtain ⟨N, r', h', hrun', hend⟩ := malloc_spec grant ((start_of_laid hl).symm ▸ hl)
      (by omega : nbytes + 15 < 2 ^ 31)
    obtain ⟨rfl, rfl⟩ := Prod.mk.inj (hrun.unique ⟨N, hrun'⟩)
    rw [start_of_laid hl] at hend
    rcases hend with ⟨-, rfl⟩ | ⟨c, l', -, -, hhanded⟩
    · exact fun _ _ _ => rfl
    · exact hhanded.spares b hb
  | free hlive hrun =>
    obtain ⟨as₁, c, as₂, rfl, -, ⟨rfl, -⟩, -⟩ := forall₂_split (hlive ▸ hfits)
    have hc : c ∈ held l := hperm.mem_iff.mpr (List.mem_append_cons_self)
    obtain ⟨hcl, hcfree⟩ := mem_held.mp hc
    obtain ⟨l₁, l₂, rfl⟩ := List.append_of_mem hcl
    obtain ⟨h', hrun', l', -, -, -, -, hspares⟩ := free_spec hl hcfree
    obtain rfl := hrun.unique ⟨_, hrun'⟩
    refine hspares b ?_
    rw [held_append, held_cons_live hcfree] at hb
    have hne : b ≠ c := by
      rintro rfl
      exact hkeep rfl
    rcases List.mem_append.mp hb with hb | hb
    · exact List.mem_append_left _ hb
    · exact List.mem_append_right _ (List.mem_of_ne_of_mem hne hb)
  | write => exact absurd rfl (hcall _ _)

/-- `malloc` returns… -/
theorem Inv.malloc_returns (hs : Inv S s) {nbytes : Nat} (hn : nbytes < 2 ^ 30)
    (grant : Nat → Int → Bool) :
    ∃ r, Returns (fun fuel => malloc grant S.base fuel nbytes s.arena) r := by
  obtain ⟨l, -, hl, -⟩ := hs.started
  obtain ⟨N, r, h, hrun, -⟩ := malloc_spec grant hl (by omega : nbytes + 15 < 2 ^ 31)
  exact ⟨(r, h), N, hrun⟩

/-- …and so does `free`. -/
theorem Inv.free_returns (hs : Inv S s) {e : Nat × Nat} (he : e ∈ s.live) :
    ∃ h, Returns (fun fuel => free fuel e.1 s.arena) h := by
  rcases hs with ⟨-, -, hnil⟩ | ⟨l, lives, hl, hperm, hfits⟩
  · rw [hnil] at he
    cases he
  obtain ⟨es, es', hsplit⟩ := List.append_of_mem he
  obtain ⟨as₁, b, as₂, rfl, -, ⟨hptr, -⟩, -⟩ := forall₂_split (hsplit ▸ hfits)
  have hb : b ∈ held l := hperm.mem_iff.mpr (List.mem_append_cons_self)
  obtain ⟨hbl, hbfree⟩ := mem_held.mp hb
  obtain ⟨l₁, l₂, rfl⟩ := List.append_of_mem hbl
  obtain ⟨h', hrun', -⟩ := free_spec hl hbfree
  exact ⟨h', _, hptr ▸ hrun'⟩

end Keeps

/-- **The allocator, over every run**: whatever a program has allocated, freed and written, the heap is
in good order, every call returns, and no call writes to a block that stays with its owner. -/
theorem heap_kept (S : Site) {s : State} (hs : Runs.Reach (Start S) (Step S) s) :
    ∃ frees lives, Kept S s frees lives ∧
      (∀ nbytes < 2 ^ 30, ∀ grant,
        ∃ r, Returns (fun fuel => malloc grant S.base fuel nbytes s.arena) r) ∧
      (∀ e ∈ s.live, ∃ h, Returns (fun fuel => free fuel e.1 s.arena) h) ∧
      ∀ a s', Step S s a s' → (∀ x v, a ≠ .write x v) → ∀ b ∈ lives, a ≠ .free (b.addr + 8) →
        Spares b s.arena.mem s'.arena.mem := by
  have hinv : Inv S s := by
    induction hs with
    | init hstart => exact .inl hstart
    | step _ hstep ih => exact ih.step hstep
  have hmalloc : ∀ nbytes < 2 ^ 30, ∀ grant,
      ∃ r, Returns (fun fuel => malloc grant S.base fuel nbytes s.arena) r :=
    fun _ hn grant => hinv.malloc_returns hn grant
  have hfree : ∀ e ∈ s.live, ∃ h, Returns (fun fuel => free fuel e.1 s.arena) h :=
    fun _ he => hinv.free_returns he
  rcases hinv with hstart | ⟨l, lives, hl, hperm, hfits⟩
  · exact ⟨[], [], hstart.kept, hmalloc, hfree, fun _ _ _ _ b hb => (nomatch hb)⟩
  · exact ⟨_, lives, hl.kept hperm hfits, hmalloc, hfree, fun a s' hstep hcall b hb hkeep =>
      hl.spares hperm hfits hstep hcall hb hkeep⟩

/-- A program with its static header in the second page and its heap from the fifth page on. -/
def smallSite : Site := ⟨0x1000, 0x4000, by decide, by decide, by decide⟩

/-- …before it has called the allocator. -/
def smallArena : Arena := ⟨fun _ => 0, 0, 0x4000⟩

/-- Its first call, for a hundred bytes: they are cut off the upper end of what the system gives. -/
theorem heap_kept_first :
    ∃ s, Runs.Reach (Start smallSite) (Step smallSite) s ∧ s.live = [(0xbf98, 100)] ∧
      ∃ frees lives, Kept smallSite s frees lives := by
  have hstart : Start smallSite ⟨smallArena, []⟩ := ⟨rfl, rfl, rfl⟩
  have hfirst : ∀ k, (malloc (fun _ _ => true) 0x1000 (k + 3) 100 smallArena).map Prod.fst = some 0xbf98 :=
    fun _ => rfl
  obtain ⟨r, N, hN⟩ := Inv.malloc_returns (.inl hstart) (by decide : 100 < 2 ^ 30) fun _ _ => true
  have hr : r.1 = 0xbf98 := by
    have hrun := hN (N + 3) (Nat.le_add_right N 3)
    have hfst := hfirst N
    rw [show malloc (fun _ _ => true) 0x1000 (N + 3) 100 smallArena = some r from hrun] at hfst
    exact Option.some.inj hfst
  have hreach : Runs.Reach (Start smallSite) (Step smallSite)
      ⟨r.2, if r.1 = 0 then [] else (r.1, 100) :: []⟩ :=
    .step (.init hstart) (.malloc (by decide) ⟨N, hN⟩)
  obtain ⟨frees, lives, hkept, -⟩ := heap_kept smallSite hreach
  exact ⟨_, hreach, by rw [hr]; rfl, frees, lives, hkept⟩

/-! ## As much as was asked

The bytes asked for are rounded up to units of eight and handed to `sbrk` as an `int`:

    malloc(nbytes)   nunits = (nbytes + 7) / 8 + 1  mod 2³²      sbrk(8 * nunits  mod 2³², signed)

so a program gets what it asks for as long as the block, its header included, is less than 2³¹ bytes. -/

/-- **`malloc` gives as much as was asked**: it returns the bytes, inside the heap and the block that is
recorded for them, or 0, with the heap in good order and nothing written but the static header. -/
def Gives (S : Site) (s : State) (nbytes : Nat) (grant : Nat → Int → Bool) : Prop :=
  ∃ r h, Returns (fun fuel => malloc grant S.base fuel nbytes s.arena) (r, h) ∧
    (r ≠ 0 → S.lo ≤ r ∧ r + nbytes ≤ h.brk ∧ nbytes + 8 ≤ 8 * size h.mem (r - 8)) ∧
    (r = 0 → h.brk = s.arena.brk ∧ (∀ x, x < S.base ∨ S.base + 8 ≤ x → h.mem x = s.arena.mem x) ∧
      ∃ frees lives, Kept S ⟨h, s.live⟩ frees lives)

theorem Inv.of_reach {S : Site} {s : State} (hs : Runs.Reach (Start S) (Step S) s) : Inv S s :=
  hs.keeps (fun _ h => .inl h) fun _ _ _ => Inv.step

/-- The first call writes to the static header, and no other does. -/
theorem start_spares (base : Nat) (h : Arena) : (start base h).brk = h.brk ∧
    ∀ x, x < base ∨ base + 8 ≤ x → (start base h).mem x = h.mem x := by
  rw [start]
  split
  · exact ⟨rfl, fun x hx => (writes_setSize x hx).trans (writes_setPtr x hx)⟩
  · exact ⟨rfl, fun _ _ => rfl⟩

/-- **In every run, every call gives as much as was asked**, up to a block of 2³¹ bytes. -/
theorem malloc_gives (S : Site) {s : State} (hs : Runs.Reach (Start S) (Step S) s) {nbytes : Nat}
    (hn : nbytes + 15 < 2 ^ 31) (grant : Nat → Int → Bool) : Gives S s nbytes grant := by
  obtain ⟨l, lives, hl, hperm, hfits⟩ := (Inv.of_reach hs).started
  obtain ⟨N, r, h, hrun, hend⟩ := malloc_spec grant hl hn
  refine ⟨r, h, ⟨N, hrun⟩, fun hr => ?_, fun hr => ?_⟩
  · obtain ⟨rfl, -⟩ | ⟨b, l', rfl, hunits, hhanded⟩ := hend
    · exact absurd rfl hr
    have hb := (mem_held.mp (hhanded.held.mem_iff.mpr List.mem_cons_self)).1
    have hin := hhanded.laid.tiles.within hb
    rw [Block.stop] at hin
    rw [Nat.add_sub_cancel, hhanded.laid.size b hb]
    omega
  · obtain ⟨-, rfl⟩ | ⟨b, l', rfl, -⟩ := hend
    · exact ⟨(start_spares _ _).1, (start_spares _ _).2, _, _, Laid.kept (s := ⟨_, _⟩) hl hperm hfits⟩
    · omega

/-- A hundred bytes, for a program that has asked for nothing yet. -/
theorem malloc_gives_hundred : Gives smallSite ⟨smallArena, []⟩ 100 fun _ _ => true :=
  malloc_gives smallSite (.init ⟨rfl, rfl, rfl⟩) (by decide) _

end Xv6.Heap
