import Xv6Ipc.Buffers.Steps

/-!
# Buffers/Commit — what `commit` does to the value of blocks

`commit` runs while other processes read, but while nobody writes.  So it can be followed on the values of
blocks alone, with its two variables: `Ok` says of code still to be run that no `memmove` in it will change
the value of a block outside the log.  It holds of `commit` whatever the values are,

    write_log      log block t := home t
    write_head     header := …
    install_trans  home t := log block t        which is what it was
    write_head     header := …

and every step of every process keeps it true of the rest.
-/

namespace Xv6.Bcache

open Redo Tally Runs
open Function (update_of_ne update_self update_eq_self update)

variable {P H : Type} {S : Site P H} {lh : Header} {t rest : List Instr} {V : Key → Block}
  {β : Bool → Key} {n : Nat}

/-! ## The code -/

/-- **No line of the code will change a block outside the log**, if blocks have these values and the
variables are at these blocks; and the code ends where it says so. -/
def Site.Ok (S : Site P H) : List Instr → (Key → Block) → (Bool → Key) → Prop
  | [], _, _ => True
  | .bread v k :: t, V, β => S.Ok t V (update β v k)
  | .memmove d e :: t, V, β =>
    (S.InLog (β d).blockno ∨ V (β d) = V (β e)) ∧ S.Ok t (update V (β d) (V (β e))) β
  | .head :: t, V, β => S.InLog (β false).blockno ∧ ∀ x, S.Ok t (update V (β false) x) β
  | .bwrite _ :: t, V, β => S.Ok t V β
  | .brelse _ :: t, V, β => S.Ok t V β
  | .clear :: t, V, β => S.Ok t V β
  | .done :: t, _, _ => t = []

namespace Site

/-- The blocks of the log are its own. -/
theorem inLog_logBlock (hn : n + 1 < S.size) : S.InLog (S.logBlock n).blockno :=
  ⟨by simp only [logBlock]; omega, by simp only [logBlock]; omega⟩

theorem inLog_start : S.InLog S.start := ⟨Nat.le_refl _, Nat.lt_add_of_pos_right S.pos⟩

theorem logBlock_ne {m : Nat} (h : m ≠ n) : S.logBlock m ≠ S.logBlock n := by
  simp only [logBlock, ne_eq, Key.mk.injEq, true_and]
  omega

theorem logBlock_ne_start : S.logBlock n ≠ ⟨S.dev, S.start⟩ := by
  simp only [logBlock, ne_eq, Key.mk.injEq, true_and]
  omega

/-- The values after `write_log`: a copy of each block is in the log. -/
def Logged (S : Site P H) (lh : Header) (n : Nat) (V V' : Key → Block) : Prop :=
  (∀ k, ¬ S.InLog k.blockno → V' k = V k) ∧ ∀ m < n, V' (S.logBlock m) = V (S.home lh m)

section

variable (hout : ∀ m < lh.n, ¬ S.InLog (lh.block m)) (hfits : lh.n < S.size)

include hout hfits in
/-- `write_log` writes the log. -/
theorem ok_writeLog (hn : n ≤ lh.n) (hrest : ∀ V' β', S.Logged lh n V V' → S.Ok rest V' β') :
    S.Ok ((List.range n).flatMap (S.logEntry lh) ++ rest) V β := by
  induction n generalizing rest with
  | zero => exact hrest V β ⟨fun _ _ => rfl, fun _ hm => absurd hm (Nat.not_lt_zero _)⟩
  | succ n ih =>
    rw [List.range_succ, List.flatMap_append, List.append_assoc]
    refine ih (Nat.le_of_succ_le hn) fun V' β' hV' => ?_
    have hlog : S.InLog (S.logBlock n).blockno := inLog_logBlock (by omega)
    refine ⟨.inl hlog, hrest _ _ ⟨fun k hk => ?_, fun m hm => ?_⟩⟩
    · have hne : k ≠ S.logBlock n := fun he => hk (by rw [he]; exact hlog)
      exact (update_of_ne hne _ _).trans (hV'.1 k hk)
    · by_cases hmn : m = n
      · rw [hmn]
        exact (update_self ..).trans (hV'.1 _ (hout n hn))
      · exact (update_of_ne (logBlock_ne hmn) _ _).trans (hV'.2 m (by omega))

/-- `write_head` writes the header. -/
theorem ok_writeHead (hrest : ∀ x β', S.Ok rest (update V ⟨S.dev, S.start⟩ x) β') :
    S.Ok (S.writeHead ++ rest) V β :=
  ⟨inLog_start, fun x => hrest x _⟩

/-- `install_trans` copies to each block what it has already. -/
theorem ok_installTrans (hV : ∀ m < n, V (S.logBlock m) = V (S.home lh m)) (hrest : ∀ β', S.Ok rest V β') :
    S.Ok ((List.range n).flatMap (S.installEntry lh) ++ rest) V β := by
  induction n generalizing rest with
  | zero => exact hrest β
  | succ n ih =>
    rw [List.range_succ, List.flatMap_append, List.append_assoc]
    refine ih (fun m hm => hV m (by omega)) fun β' => ?_
    have hsame : V (S.home lh n) = V (S.logBlock n) := (hV n (Nat.lt_succ_self n)).symm
    refine ⟨.inr hsame, ?_⟩
    have hV' : update V (S.home lh n) (V (S.logBlock n)) = V := by
      rw [← hsame, update_eq_self]
    exact (congrArg (S.Ok rest · _) hV').mpr (hrest _)

include hout hfits in
/-- **`commit` changes no block outside the log**, whatever blocks hold. -/
theorem ok_commit : S.Ok (S.commit lh) V β := by
  rw [commit]
  split_ifs
  · rw [List.append_assoc, List.append_assoc, List.append_assoc, List.append_assoc]
    refine ok_writeLog hout hfits (Nat.le_refl _) fun V' β' ⟨hoff, hcopy⟩ => ok_writeHead fun x β' => ?_
    refine ok_installTrans (fun m hm => ?_) fun β' => ok_writeHead fun x β' => rfl
    have hhome : S.home lh m ≠ ⟨S.dev, S.start⟩ := fun he =>
      hout m hm ((congrArg (S.InLog ·) (congrArg Key.blockno he)).mpr inLog_start)
    rw [update_of_ne logBlock_ne_start, update_of_ne hhome, hcopy m hm,
      hoff _ (hout m hm)]
  · exact rfl

end

end Site

/-! ## The invariant -/

variable [Fintype P] {s s' : State P H} {e : Event P H}

/-- **Transactions**: data is changed inside them, `commit` runs when none is open, and the log has
blocks of callers only. -/
structure Ordered (S : Site P H) (s : State P H) : Prop where
  count : s.log.outstanding = ∑ p, (s.inOp p).toNat
  commit : s.todo ≠ [] → s.log.committing = true ∧ s.log.outstanding = 0
  touched : ∀ h k i, s.hand (.inl h) = .touched k i → s.inOp (S.proc h) = true
  outside : ∀ h k i, (s.hand (.inl h)).on = some (k, i) → ¬ S.InLog k.blockno
  blocks : ∀ m < s.log.lh.n, ¬ S.InLog (s.log.lh.block m)
  fits : s.log.lh.n < S.size

/-- **`commit` is where its hands are**: at the line that reads what they wait for, past it with the
variable set, or at the line that releases. -/
structure Commits (S : Site P H) (s : State P H) (β : Bool → Key) : Prop where
  ok : S.Ok s.todo s.cache.view β
  reads : ∀ v k i, s.hand (.inr v) = .waiting k i ∨ s.hand (.inr v) = .locked k i →
    s.todo.head? = some (.bread v k)
  holds : ∀ v k i, s.hand (.inr v) = .held k i ∨ s.hand (.inr v) = .touched k i → β v = k
  leaves : ∀ v k i, s.hand (.inr v) = .leaving k i → s.todo.head? = some (.brelse v)

/-- A process in a transaction keeps `commit` from running. -/
theorem Ordered.todo_of_inOp {p : P} (ho : Ordered S s) (hp : s.inOp p = true) :
    s.todo = [] ∧ 0 < s.log.outstanding := by
  have hpos : 0 < s.log.outstanding := by
    have hle := le_sum (fun p => (s.inOp p).toNat) p
    rw [hp, ← ho.count] at hle
    exact hle
  refine ⟨?_, hpos⟩
  by_contra hne
  exact hpos.ne' (ho.commit hne).2

/-- `log_write` puts the block of a caller in the log. -/
theorem Ordered.logged {k : Key} {i : Nat} {l : Log} (ho : Ordered S s) (hk : ¬ S.InLog k.blockno)
    (hl : logWrite S.size s.log k.blockno = .ok (i, l)) :
    (∀ m < l.lh.n, ¬ S.InLog (l.lh.block m)) ∧ l.lh.n < S.size := by
  have hspec := logWrite_ok hl
  refine ⟨fun m hm => ?_, ?_⟩
  · by_cases hmn : m < s.log.lh.n
    · rw [hspec.others m hmn]
      exact ho.blocks m hmn
    · rcases hspec.grown with hn | ⟨hn, hi, -⟩
      · exact absurd (hn ▸ hm) hmn
      · have hmi : m = i := by omega
        rw [hmi, hspec.entry]
        exact hk
  · have := hspec.fits
    rcases hspec.grown with hn | ⟨hn, -⟩ <;> omega

/-- `commit` goes on to its next line. -/
theorem Ordered.next (ho : Ordered S s) (w : Who H) : Ordered S (s.next w) := by
  cases w with
  | inl => exact ho
  | inr =>
    refine ⟨ho.count, fun ht => ho.commit fun hnil => ht ?_, ho.touched, ho.outside, ho.blocks, ho.fits⟩
    exact (congrArg List.tail hnil).trans rfl

/-- A hand of `commit` between two lines. -/
def Hand.Rests (h : Hand) (k : Key) : Prop := h = .none ∨ ∃ i, h = .held k i ∨ h = .touched k i

namespace Commits

omit [Fintype P]

variable {v : Bool} {k : Key} {i : BufId}

/-- At any other line a hand is between two lines. -/
theorem rests (hm : Commits S s β) (hread : ∀ k, s.todo.head? ≠ some (.bread v k))
    (hrelse : s.todo.head? ≠ some (.brelse v)) : (s.hand (.inr v)).Rests (β v) := by
  cases hh : s.hand (.inr v) with
  | none => exact .inl rfl
  | waiting k i => exact absurd (hm.reads v k i (.inl hh)) (hread k)
  | locked k i => exact absurd (hm.reads v k i (.inr hh)) (hread k)
  | held k i => exact .inr ⟨i, .inl (by rw [hm.holds v k i (.inl hh)])⟩
  | touched k i => exact .inr ⟨i, .inr (by rw [hm.holds v k i (.inr hh)])⟩
  | leaving k i => exact absurd (hm.leaves v k i hh) hrelse

/-- Between two lines the code is all that matters. -/
theorem of_rests (hok : S.Ok s.todo s.cache.view β) (hrest : ∀ v, (s.hand (.inr v)).Rests (β v)) :
    Commits S s β := by
  refine ⟨hok, fun v k i hv => ?_, fun v k i hv => ?_, fun v k i hv => ?_⟩ <;> have hr := hrest v
  · rcases hr with hr | ⟨j, hr | hr⟩ <;> rw [hr] at hv <;> simp at hv
  · rcases hr with hr | ⟨j, hr | hr⟩ <;> rw [hr] at hv <;> simp at hv
    · exact hv.1
    · exact hv.1
  · rcases hr with hr | ⟨j, hr | hr⟩ <;> rw [hr] at hv <;> simp at hv

/-- Steps that leave `commit` alone. -/
theorem frame (hm : Commits S s β) (hhand : ∀ v, s'.hand (.inr v) = s.hand (.inr v))
    (htodo : s'.todo = s.todo) (hok : S.Ok s.todo s'.cache.view β) : Commits S s' β := by
  refine ⟨by rwa [htodo], fun v k i hv => ?_, fun v k i hv => ?_, fun v k i hv => ?_⟩
  · rw [htodo]
    exact hm.reads v k i (by rwa [← hhand])
  · exact hm.holds v k i (by rwa [← hhand])
  · rw [htodo]
    exact hm.leaves v k i (by rwa [← hhand])

end Commits

section Ops

variable [DecidableEq P] {p : P}

/-- `begin_op` and `end_op` count. -/
theorem sum_inOp (s : State P H) (p : P) (b : Bool) :
    ∑ q, (update s.inOp p b q).toNat + (s.inOp p).toNat = ∑ q, (s.inOp q).toNat + b.toNat :=
  sum_apply_update Bool.toNat s.inOp p b

theorem Ordered.begin (ho : Ordered S s) (hp : s.inOp p = false) (hadmits : s.log.Admits) :
    Ordered S { s with
      log := { s.log with outstanding := s.log.outstanding + 1 }
      inOp := update s.inOp p true } := by
  refine ⟨?_, fun ht => absurd (ho.commit ht).1 (by rw [hadmits.1]; exact nofun), fun h k i hw => ?_,
    ho.outside, ho.blocks, ho.fits⟩
  · have hsum := sum_inOp s p true
    rw [hp, ← ho.count] at hsum
    exact hsum.symm
  · by_cases hq : S.proc h = p
    · exact (congrArg _ hq).trans (update_self ..)
    · exact (update_of_ne hq _ _).trans (ho.touched h k i hw)

theorem Ordered.finish (ho : Ordered S s) (hp : s.inOp p = true)
    (hno : ∀ h k i, S.proc h = p → s.hand (.inl h) ≠ .touched k i) : Ordered S (S.endOp s p) := by
  obtain ⟨htodo, hpos⟩ := ho.todo_of_inOp hp
  have hcount : s.log.outstanding - 1 = ∑ q, (update s.inOp p false q).toNat := by
    have hsum := sum_inOp s p false
    rw [hp, ← ho.count] at hsum
    exact (Nat.eq_sub_of_add_eq hsum).symm
  have htouched : ∀ h k i, s.hand (.inl h) = .touched k i →
      update s.inOp p false (S.proc h) = true := fun h k i hw =>
    (update_of_ne (fun hq => hno h k i hq hw) _ _).trans (ho.touched h k i hw)
  rw [Site.endOp]
  split_ifs with hzero
  · exact ⟨hcount, fun _ => ⟨rfl, hzero⟩, htouched, ho.outside, ho.blocks, ho.fits⟩
  · exact ⟨hcount, fun ht => absurd htodo ht, htouched, ho.outside, ho.blocks, ho.fits⟩

end Ops

section Hands

variable [DecidableEq H] {w : Who H} {h : Hand}

/-- A hand moves. -/
theorem Ordered.put (ho : Ordered S s) (hinOp : s'.inOp = s.inOp)
    (hhand : s'.hand = update s.hand w h)
    (hlog : s'.log.committing = s.log.committing ∧ s'.log.outstanding = s.log.outstanding)
    (hlh : (∀ m < s'.log.lh.n, ¬ S.InLog (s'.log.lh.block m)) ∧ s'.log.lh.n < S.size)
    (htodo : s'.todo ≠ [] → s.todo ≠ [])
    (htouched : ∀ h' k i, w = .inl h' → h = .touched k i → s.inOp (S.proc h') = true)
    (hon : ∀ h' k i, w = .inl h' → h.on = some (k, i) → ¬ S.InLog k.blockno) : Ordered S s' := by
  refine ⟨?_, fun ht => ?_, fun h' k i hw => ?_, fun h' k i hw => ?_, hlh.1, hlh.2⟩
  · rw [hlog.2, hinOp]
    exact ho.count
  · rw [hlog.1, hlog.2]
    exact ho.commit (htodo ht)
  · rw [hinOp]
    rw [hhand] at hw
    by_cases hww : Sum.inl h' = w
    · rw [hww, update_self] at hw
      exact htouched h' k i hww.symm hw
    · rw [update_of_ne hww] at hw
      exact ho.touched h' k i hw
  · rw [hhand] at hw
    by_cases hww : Sum.inl h' = w
    · rw [hww, update_self] at hw
      exact hon h' k i hww.symm hw
    · rw [update_of_ne hww] at hw
      exact ho.outside h' k i hw

/-- …and stays at its block. -/
theorem Ordered.stay (ho : Ordered S s) (hinOp : s'.inOp = s.inOp)
    (hhand : s'.hand = update s.hand w h) (hlog : s'.log = s.log)
    (htodo : s'.todo ≠ [] → s.todo ≠ [])
    (htouched : ∀ h' k i, w = .inl h' → h = .touched k i → s.inOp (S.proc h') = true)
    (hon : ∀ k i, h.on = some (k, i) → (s.hand w).on = some (k, i)) : Ordered S s' := by
  refine ho.put hinOp hhand (by rw [hlog]; exact ⟨rfl, rfl⟩) (by rw [hlog]; exact ⟨ho.blocks, ho.fits⟩) htodo
    htouched fun h' k i hww hh => ho.outside h' k i ?_
  rw [← hww]
  exact hon k i hh

variable [DecidableEq P]

/-- **Every step keeps transactions in order.** -/
theorem Ordered.step (ho : Ordered S s) (hend : ∀ t, s.todo = .done :: t → t = []) (h : Step S s e s') :
    Ordered S s' := by
  cases h with
  | @get w k i c hw hask _ =>
    refine ho.put (w := w) rfl rfl ⟨rfl, rfl⟩ ⟨ho.blocks, ho.fits⟩ id (fun _ _ _ _ he => nomatch he)
      fun h' k' i' hww hon => ?_
    obtain ⟨rfl, rfl⟩ := Prod.mk.inj (Option.some.inj hon)
    rw [hww] at hask
    exact hask
  | lock hw | unlock hw =>
    exact ho.stay rfl rfl rfl id (fun _ _ _ _ he => nomatch he) fun _ _ hon => by rw [hw]; exact hon
  | @fill w _ _ _ hw _ =>
    exact (ho.next w).stay rfl rfl rfl id (fun _ _ _ _ he => nomatch he) fun _ _ hon => by
      rw [State.next_hand, hw]
      exact hon
  | @store h k i x hw hp =>
    refine ho.stay (w := .inl h) rfl rfl rfl id (fun h' _ _ hww _ => ?_) fun _ _ hon => ?_
    · rwa [← Sum.inl.inj hww]
    · rcases hw with hw | hw <;> rw [hw] <;> exact hon
  | @logWrite h k i j l hw hl =>
    have hk : ¬ S.InLog k.blockno := ho.outside h k i (by rw [hw]; rfl)
    have hspec := logWrite_ok hl
    refine ho.put (w := .inl h) rfl rfl ⟨hspec.committing, hspec.outstanding⟩ (ho.logged hk hl) id
      (fun _ _ _ _ he => nomatch he) fun _ _ _ _ hon => ?_
    obtain ⟨rfl, -⟩ := Prod.mk.inj (Option.some.inj hon)
    exact hk
  | @drop w k i hw => exact (ho.next w).stay rfl rfl rfl id (fun _ _ _ _ he => nomatch he) nofun
  | begin hp hadmits => exact ho.begin hp hadmits
  | finish hp hno => exact ho.finish hp hno
  | memmove htodo hw _ | head htodo hw | bwrite htodo hw _ =>
    exact ho.stay rfl rfl rfl (fun _ => by rw [htodo]; exact List.cons_ne_nil _ _) nofun
      fun _ _ hon => by rw [hw]; exact hon
  | clear htodo =>
    refine ⟨ho.count, fun _ => ho.commit ?_, ho.touched, ho.outside, fun m hm => ?_, S.pos⟩
    · rw [htodo]
      exact List.cons_ne_nil _ _
    · exact absurd hm (Nat.not_lt_zero _)
  | done htodo =>
    exact ⟨ho.count, fun ht => absurd (hend _ htodo) ht, ho.touched, ho.outside, ho.blocks, ho.fits⟩

end Hands

section Step

variable [DecidableEq H] [DecidableEq P]

namespace Commits

section Hand

omit [Fintype P] [DecidableEq P]

variable {v : Bool} {I : Instr} {h : Hand} {h' : H} {β' : Bool → Key}

/-- What callers do. -/
theorem user (hm : Commits S s β) (hhand : s'.hand = update s.hand (.inl h') h)
    (htodo : s'.todo = s.todo) (hok : S.Ok s.todo s'.cache.view β) : Commits S s' β :=
  hm.frame (fun v => by rw [hhand, update_of_ne Sum.inr_ne_inl]) htodo hok

/-- A line is begun… -/
theorem move (hm : Commits S s β) (hhand : s'.hand = update s.hand (.inr v) h)
    (htodo : s'.todo = s.todo) (hok : S.Ok s.todo s'.cache.view β)
    (hreads : ∀ k i, h = .waiting k i ∨ h = .locked k i → s.todo.head? = some (.bread v k))
    (hholds : ∀ k i, h ≠ .held k i ∧ h ≠ .touched k i)
    (hleaves : ∀ k i, h = .leaving k i → s.todo.head? = some (.brelse v)) : Commits S s' β := by
  have hcase : ∀ v', (v' = v ∧ s'.hand (.inr v') = h) ∨ s'.hand (.inr v') = s.hand (.inr v') := by
    intro v'
    rw [hhand]
    by_cases hvv : v' = v
    · rw [hvv, update_self]
      exact .inl ⟨rfl, rfl⟩
    · exact .inr (update_of_ne (fun he => hvv (Sum.inr.inj he)) _ _)
  refine ⟨by rwa [htodo], fun v' k i hv => ?_, fun v' k i hv => ?_, fun v' k i hv => ?_⟩
  · rw [htodo]
    rcases hcase v' with ⟨rfl, hh⟩ | hh <;> rw [hh] at hv
    · exact hreads k i hv
    · exact hm.reads v' k i hv
  · rcases hcase v' with ⟨rfl, hh⟩ | hh <;> rw [hh] at hv
    · exact hv.elim (fun he => absurd he (hholds k i).1) fun he => absurd he (hholds k i).2
    · exact hm.holds v' k i hv
  · rw [htodo]
    rcases hcase v' with ⟨rfl, hh⟩ | hh <;> rw [hh] at hv
    · exact hleaves k i hv
    · exact hm.leaves v' k i hv

/-- …and done, with one of the hands. -/
theorem pop (hm : Commits S s β) (htodo : s.todo = I :: t)
    (hI : ∀ v', v' ≠ v → (∀ k, I ≠ .bread v' k) ∧ I ≠ .brelse v') (htodo' : s'.todo = t)
    (hhand : s'.hand = update s.hand (.inr v) h) (hβ : ∀ v', v' ≠ v → β' v' = β v')
    (hv : h.Rests (β' v)) (hok : S.Ok t s'.cache.view β') : Commits S s' β' := by
  refine of_rests (by rwa [htodo']) fun v' => ?_
  rw [hhand]
  by_cases hvv : v' = v
  · rw [hvv, update_self]
    exact hv
  · rw [update_of_ne (fun he => hvv (Sum.inr.inj he)), hβ v' hvv]
    obtain ⟨hread, hrelse⟩ := hI v' hvv
    refine hm.rests (fun k he => hread k ?_) fun he => hrelse ?_
    · rw [htodo] at he
      exact Option.some.inj he
    · rw [htodo] at he
      exact Option.some.inj he

end Hand

variable [Fintype H]

/-- **Every step keeps `commit` on its way.** -/
theorem step (hc : Coherent s.cache s.hand) (ho : Ordered S s) (hm : Commits S s β)
    (h : Step S s e s') : ∃ β', Commits S s' β' := by
  have hok : ¬ e.Writes → S.Ok s.todo s'.cache.view β := fun he => by
    rw [hc.view_step h he]
    exact hm.ok
  cases h with
  | @get w k i c hw hask _ =>
    cases w with
    | inl h => exact ⟨β, hm.user rfl rfl (hok id)⟩
    | inr v =>
      refine ⟨β, hm.move rfl rfl (hok id) (fun k' i' hv => ?_) (fun _ _ => ⟨by rintro ⟨⟩, by rintro ⟨⟩⟩) (by rintro _ _ ⟨⟩)⟩
      rcases hv with hv | hv
      · obtain ⟨rfl, rfl⟩ := Hand.waiting.inj hv
        exact hask
      · cases hv
  | @lock w k i hw _ =>
    cases w with
    | inl h => exact ⟨β, hm.user rfl rfl (hok id)⟩
    | inr v =>
      refine ⟨β, hm.move rfl rfl (hok id) (fun k' i' hv => ?_) (fun _ _ => ⟨by rintro ⟨⟩, by rintro ⟨⟩⟩) (by rintro _ _ ⟨⟩)⟩
      rcases hv with hv | hv
      · cases hv
      · obtain ⟨rfl, rfl⟩ := Hand.locked.inj hv
        exact hm.reads v k i (.inl hw)
  | @fill w k i c hw _ =>
    cases w with
    | inl h => exact ⟨β, hm.user rfl rfl (hok id)⟩
    | inr v =>
      obtain ⟨t, htodo⟩ := List.head?_eq_some_iff.mp (hm.reads v k i (.inr hw))
      have hok := hok id
      rw [htodo] at hok
      refine ⟨update β v k, hm.pop htodo (fun v' hvv => ⟨fun k' he => ?_, by rintro ⟨⟩⟩) ?_ rfl
        (fun v' hvv => update_of_ne hvv _ _) (.inr ⟨i, .inl ?_⟩) hok⟩
      · exact hvv (Instr.bread.inj he).1.symm
      · exact (congrArg List.tail htodo).trans rfl
      · rw [update_self]
  | @store h k i x hw hp =>
    refine ⟨β, hm.user rfl rfl ?_⟩
    rw [(ho.todo_of_inOp hp).1]
    trivial
  | @logWrite h k i j l hw hl =>
    exact ⟨β, hm.user rfl rfl (hok id)⟩
  | @unlock w k i hw hrel =>
    cases w with
    | inl h => exact ⟨β, hm.user rfl rfl (hok id)⟩
    | inr v =>
      refine ⟨β, hm.move rfl rfl (hok id) (fun _ _ hv => ?_) (fun _ _ => ⟨by rintro ⟨⟩, by rintro ⟨⟩⟩) fun _ _ _ => hrel⟩
      rcases hv with hv | hv <;> cases hv
  | @drop w k i hw =>
    cases w with
    | inl h => exact ⟨β, hm.user rfl rfl (hok id)⟩
    | inr v =>
      obtain ⟨t, htodo⟩ := List.head?_eq_some_iff.mp (hm.leaves v k i hw)
      have hok := hok id
      rw [htodo] at hok
      refine ⟨β, hm.pop htodo (fun v' hvv => ⟨by rintro _ ⟨⟩, fun he => ?_⟩) ?_ rfl (fun _ _ => rfl) (.inl rfl) hok⟩
      · exact hvv (Instr.brelse.inj he).symm
      · exact (congrArg List.tail htodo).trans rfl
  | begin hp hadmits => exact ⟨β, hm.frame (fun v => rfl) rfl hm.ok⟩
  | @finish p hp hno =>
    have htodo := (ho.todo_of_inOp hp).1
    refine ⟨β, ?_⟩
    rw [Site.endOp]
    split_ifs
    · refine of_rests (S.ok_commit ho.blocks ho.fits) fun v => hm.rests (fun k => ?_) ?_
      · rw [htodo]
        rintro ⟨⟩
      · rw [htodo]
        rintro ⟨⟩
    · exact hm.frame (fun v => rfl) rfl hm.ok
  | @memmove d e k i k' j t htodo hd he =>
    have hok := hm.ok
    rw [htodo] at hok
    have hk' : s.cache.view k' = (s.cache.buf j).data :=
      hc.view_of_valid (hc.full _ j ⟨k', .inl he⟩) (hc.key _ k' j (by rw [he]; rfl))
    have hβ := hm.holds d k i (.inl hd)
    refine ⟨β, hm.pop (v := d) htodo (fun _ _ => ⟨by rintro _ ⟨⟩, by rintro ⟨⟩⟩) rfl rfl (fun _ _ => rfl)
      (.inr ⟨i, .inr (by rw [hβ])⟩) ?_⟩
    have hok := hok.2
    rwa [hβ, hm.holds e k' j (.inl he), hk', ← hc.view_store (.inl hd)] at hok
  | @head k i t htodo hw =>
    have hok := hm.ok
    rw [htodo] at hok
    have hβ := hm.holds false k i (.inl hw)
    refine ⟨β, hm.pop (v := false) htodo (fun _ _ => ⟨by rintro _ ⟨⟩, by rintro ⟨⟩⟩) rfl rfl (fun _ _ => rfl)
      (.inr ⟨i, .inr (by rw [hβ])⟩) ?_⟩
    have hok := hok.2 (putHeader s.log.lh (s.cache.buf i).data)
    rwa [hβ, ← hc.view_store (.inl hw)] at hok
  | @bwrite v k i c t htodo hw _ =>
    have hok := hok id
    rw [htodo] at hok
    exact ⟨β, hm.pop (v := v) htodo (fun _ _ => ⟨by rintro _ ⟨⟩, by rintro ⟨⟩⟩) rfl rfl (fun _ _ => rfl)
      (.inr ⟨i, .inl (by rw [hm.holds v k i (.inr hw)])⟩) hok⟩
  | @clear t htodo =>
    have hok := hm.ok
    rw [htodo] at hok
    refine ⟨β, of_rests hok fun v => hm.rests (fun k => ?_) ?_⟩
    · rw [htodo]
      rintro ⟨⟩
    · rw [htodo]
      rintro ⟨⟩
  | @done t htodo =>
    have hok := hm.ok
    rw [htodo] at hok
    refine ⟨β, of_rests (by rw [show t = [] from hok]; trivial) fun v => hm.rests (fun k => ?_) ?_⟩
    · rw [htodo]
      rintro ⟨⟩
    · rw [htodo]
      rintro ⟨⟩

end Commits

end Step

end Xv6.Bcache
