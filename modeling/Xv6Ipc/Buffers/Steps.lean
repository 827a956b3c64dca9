import Xv6Ipc.Buffers.Coherent

/-!
# Buffers/Steps — every step keeps the cache coherent

One lemma for each function of the cache says that it keeps coherence, and one what it does to the value of
blocks: nothing, unless somebody writes the data of a buffer.

    get, lock, fill, logWrite, unlock, drop, bwrite      view is unchanged
    store, memmove, head                                 view changes at one block

-/

namespace Xv6.Bcache

open Redo Tally Runs Function

variable {c c' : Cache} {i j : BufId} {b : Buf} {k k' : Key} {x : Block} {P H : Type} [Fintype H]
  [DecidableEq H] {hand hand' : Who H → Hand} {w w' : Who H}

/-! ## Coherence -/

namespace Coherent

/-- No hand has changed the data, if the one at hand has not. -/
theorem clean_of (hc : Coherent c hand) (hw : ¬ (hand w).Touches i) (hv : (c.buf i).valid = true)
    (hd : (c.buf i).dirty = false) (ht : ∀ w', w' ≠ w → ¬ (hand w').Touches i) :
    (c.buf i).data = c.disk (c.buf i).key :=
  hc.clean i hv hd fun w' => by
    by_cases hww : w' = w
    · rwa [hww]
    · exact ht w' hww

theorem acquire (hc : Coherent c hand) (hw : hand w = .waiting k i) (hfree : (c.buf i).locked = false) :
    Coherent (c.acquire i) (update hand w (.locked k i)) := by
  refine hc.put c.disk (k := k) (by rw [hw]; rfl) rfl rfl rfl ?_ ?_ (hc.dirty i) (fun hv hd _ ht => ?_)
    fun _ _ => rfl
  · simp [hw, hfree, Hand.owned]
  · rintro (⟨_, he | he⟩ | hv)
    · exact nomatch he
    · exact nomatch he
    · exact hv
  · exact hc.clean_of (by rw [hw]; exact fun ⟨_, he⟩ => nomatch he) hv hd ht

theorem load (hc : Coherent c hand) (hw : hand w = .locked k i) :
    Coherent (c.load i) (update hand w (.held k i)) :=
  hc.put c.disk (k := k) (by rw [hw]; rfl) rfl rfl rfl (by rw [hw]; rfl) (fun _ => rfl)
    (fun _ => rfl) (fun _ _ _ _ => rfl) fun _ _ => rfl

theorem stay (hc : Coherent c hand) (hw : hand w = .locked k i) (hv : (c.buf i).valid = true) :
    Coherent c (update hand w (.held k i)) := by
  have hput := hc.put c.disk (h := .held k i) (b := c.buf i) (k := k) (by rw [hw]; rfl) rfl rfl rfl
    (by rw [hw]; rfl) (fun _ => hv) (hc.dirty i)
    (fun hv hd _ ht => hc.clean_of (by rw [hw]; exact fun ⟨_, he⟩ => nomatch he) hv hd ht) fun _ _ => rfl
  rwa [Cache.set, update_eq_self] at hput

theorem store (hc : Coherent c hand) (hw : hand w = .held k i ∨ hand w = .touched k i) (x : Block) :
    Coherent (c.store i x) (update hand w (.touched k i)) := by
  have hfull : (hand w).Full i := ⟨k, hw⟩
  have hv := hc.full w i hfull
  refine hc.put c.disk (k := k) ?_ rfl rfl rfl ?_ (fun _ => hv) (hc.dirty i)
    (fun _ _ hno => absurd ⟨k, rfl⟩ hno) fun _ _ => rfl
  · rcases hw with hw | hw <;> rw [hw] <;> rfl
  · rw [hfull.owned]
    rfl

theorem mark (hc : Coherent c hand) (hw : hand w = .touched k i) :
    Coherent (c.mark i) (update hand w (.held k i)) := by
  have hv := hc.full w i ⟨k, .inr hw⟩
  exact hc.put c.disk (k := k) (by rw [hw]; rfl) rfl rfl rfl (by rw [hw]; rfl) (fun _ => hv)
    (fun _ => hv) (fun _ hd => nomatch hd) fun _ _ => rfl

theorem flush (hc : Coherent c hand) (hw : hand w = .touched k i) :
    Coherent (c.flush i) (update hand w (.held k i)) :=
  hc.put _ (k := k) (by rw [hw]; rfl) rfl rfl rfl (by rw [hw]; rfl) (fun _ => rfl) (fun _ => rfl)
    (fun _ _ _ _ => by simp) fun _ hk => update_of_ne hk _ _

theorem release (hc : Coherent c hand) (hw : hand w = .held k i) :
    Coherent (c.release i) (update hand w (.leaving k i)) := by
  have hlocked : (c.buf i).locked = true := by
    by_contra hno
    have hpos := places_pos (g := fun w => (hand w).owned) (i := w) (a := i) (by rw [hw]; rfl)
    rw [← hc.locked, Bool.eq_false_of_not_eq_true hno] at hpos
    exact Nat.lt_irrefl 0 hpos
  refine hc.put c.disk (k := k) (by rw [hw]; rfl) rfl rfl rfl ?_ ?_ (hc.dirty i) (fun hv hd _ ht => ?_)
    fun _ _ => rfl
  · simp [hw, hlocked, Hand.owned]
  · rintro (⟨_, he | he⟩ | hv)
    · exact nomatch he
    · exact nomatch he
    · exact hv
  · exact hc.clean_of (by rw [hw]; exact fun ⟨_, he⟩ => nomatch he) hv hd ht

end Coherent

variable [DecidableEq P] {S : Site P H} {s s' : State P H} {e : Event P H}

/-- **Every step keeps the cache coherent.** -/
theorem Coherent.step (hc : Coherent s.cache s.hand) (h : Step S s e s') : Coherent s'.cache s'.hand := by
  cases h with
  | get hw _ hget =>
    rcases Cache.bget_spec hget with ⟨hf, rfl⟩ | ⟨hf, hidle, rfl⟩
    · exact hc.hit hw hf
    · exact hc.recycle hw hf hidle.1
  | lock hw hfree => exact hc.acquire hw hfree
  | @fill w k i c hw hfill =>
    change Coherent c (update (s.next w).hand w _)
    rw [State.next_hand]
    rcases Cache.fill_spec (hc.dirty i) hfill with ⟨hv, rfl⟩ | ⟨-, rfl⟩
    · exact hc.stay hw hv
    · exact hc.load hw
  | store x hw _ => exact hc.store hw x
  | logWrite hw _ => exact hc.mark hw
  | unlock hw _ => exact hc.release hw
  | @drop w k i hw =>
    change Coherent (s.cache.drop i) (update (s.next w).hand w _)
    rw [State.next_hand]
    exact hc.drop hw
  | begin | clear | done => exact hc
  | finish =>
    rw [Site.endOp]
    split_ifs <;> exact hc
  | memmove _ hw _ | head _ hw => exact hc.store (.inl hw) _
  | bwrite _ hw hwrite =>
    obtain rfl := Cache.bwrite_spec hwrite
    exact hc.flush hw

/-! ## Values -/

namespace Coherent

theorem view_load (hc : Coherent c hand) (hw : hand w = .locked k i) (hv : (c.buf i).valid = false) :
    (c.load i).view = c.view := by
  have hc' := hc.load hw
  have hi : (c.load i).buf i = { c.buf i with valid := true, data := c.disk (c.buf i).key } :=
    update_self ..
  funext k'
  by_cases hk : k' = (c.buf i).key
  · rw [hk, hc.view_of_loading (k := k) (by rw [hw]; rfl) hv,
      hc'.view_of_valid (i := i) (by rw [hi]) (by rw [hi]), hi]
  · exact hc.view_of_ne hc' (fun j hj => update_of_ne hj _ _) (by rw [hi]) hk rfl

theorem view_store (hc : Coherent c hand) (hw : hand w = .held k i ∨ hand w = .touched k i) (x : Block) :
    (c.store i x).view = update c.view k x := by
  have hc' := hc.store hw x
  have hi : (c.store i x).buf i = { c.buf i with data := x } := update_self ..
  have hkey : (c.buf i).key = k := hc.key w k i (by rcases hw with hw | hw <;> rw [hw] <;> rfl)
  funext k'
  by_cases hk : k' = k
  · rw [hk, update_self,
      hc'.view_of_valid (i := i) (by rw [hi]; exact hc.full w i ⟨k, hw⟩) (by rw [hi]; exact hkey), hi]
  · rw [update_of_ne hk]
    exact hc.view_of_ne hc' (fun j hj => update_of_ne hj _ _) (by rw [hi]) (by rwa [hkey]) rfl

theorem view_flush (hc : Coherent c hand) (hw : hand w = .touched k i) : (c.flush i).view = c.view := by
  have hc' := hc.flush hw
  have hv := hc.full w i ⟨k, .inr hw⟩
  have hi : (c.flush i).buf i = { c.buf i with valid := true, dirty := false } := update_self ..
  funext k'
  by_cases hk : k' = (c.buf i).key
  · rw [hk, hc.view_of_valid hv rfl, hc'.view_of_valid (i := i) (by rw [hi]) (by rw [hi]), hi]
  · exact hc.view_of_ne hc' (fun j hj => update_of_ne hj _ _) (by rw [hi]) hk
      (update_of_ne hk _ _)

/-- **A buffer that is recycled has nothing that the disk has not.** -/
theorem view_recycle (hc : Coherent c hand) (hw : hand w = .none) (hf : c.find k = none)
    (hidle : (c.buf i).refcnt = 0) (hclean : (c.buf i).dirty = false) : (c.recycle k i).view = c.view := by
  have hc' := hc.recycle hw hf hidle
  have hi : (c.recycle k i).buf i = { c.buf i with key := k, valid := false, dirty := false, refcnt := 1 } :=
    update_self ..
  have hj : ∀ j, j ≠ i → (c.recycle k i).buf j = c.buf j := fun j hj => update_of_ne hj _ _
  funext k'
  by_cases hold : (c.buf i).valid = true ∧ (c.buf i).key = k'
  · obtain ⟨hv, rfl⟩ := hold
    have hdisk : (c.buf i).data = c.disk (c.buf i).key := hc.clean i hv hclean fun w' ⟨_, he⟩ =>
      (hc.refcnt_pos (w := w') (by rw [he]; rfl)).ne' hidle
    rw [hc.view_of_valid hv rfl, hdisk]
    refine view_of_not_valid fun j hkey => ?_
    by_cases hji : j = i
    · rw [hji, hi]
    · rw [hj j hji] at hkey ⊢
      exact Bool.eq_false_of_not_eq_true fun hvj =>
        hji (hc.unique (not_blank_of_valid hvj) (not_blank_of_valid hv) hkey)
  · refine hc.view_congr hc' (fun j hval => ?_) rfl
    have hji : j ≠ i := by
      rintro rfl
      rcases hval with ⟨hkey, hv⟩ | ⟨-, hv⟩
      · exact hold ⟨hv, hkey⟩
      · rw [hi] at hv
        exact nomatch hv
    rw [hj j hji]
    exact ⟨rfl, rfl, rfl⟩

end Coherent

/-- What is written for the same block, with the same data and as valid as before. -/
theorem same_set (hb : b.key = (c.buf i).key ∧ b.valid = (c.buf i).valid ∧ b.data = (c.buf i).data)
    (j : BufId) : (update c.buf i b j).key = (c.buf j).key
      ∧ (update c.buf i b j).valid = (c.buf j).valid
      ∧ (update c.buf i b j).data = (c.buf j).data := by
  by_cases hj : j = i
  · rw [hj, update_self]
    exact hb
  · rw [update_of_ne hj]
    exact ⟨rfl, rfl, rfl⟩

/-- A write to the data of a buffer. -/
def Event.Writes : Event P H → Prop
  | .store _ _ | .memmove | .head => True
  | _ => False

/-- **Nothing else changes a block.** -/
theorem Coherent.view_step (hc : Coherent s.cache s.hand) (h : Step S s e s') (he : ¬ e.Writes) :
    s'.cache.view = s.cache.view := by
  have hc' := hc.step h
  cases h with
  | get hw _ hget =>
    rcases Cache.bget_spec hget with ⟨-, rfl⟩ | ⟨hf, hidle, rfl⟩
    · exact hc.view_same hc' (same_set ⟨rfl, rfl, rfl⟩) rfl
    · exact hc.view_recycle hw hf hidle.1 hidle.2
  | lock | logWrite | unlock => exact hc.view_same hc' (same_set ⟨rfl, rfl, rfl⟩) rfl
  | @fill w k i c hw hfill =>
    rcases Cache.fill_spec (hc.dirty i) hfill with ⟨-, rfl⟩ | ⟨⟨hv, -⟩, rfl⟩
    · rfl
    · exact hc.view_load hw hv
  | @drop w k i hw =>
    obtain ⟨hbuf, hdisk⟩ := Cache.drop_spec s.cache i
    refine hc.view_same hc' ?_ hdisk
    change ∀ j, ((s.cache.drop i).buf j).key = _ ∧ ((s.cache.drop i).buf j).valid = _
      ∧ ((s.cache.drop i).buf j).data = _
    rw [hbuf]
    exact same_set ⟨rfl, rfl, rfl⟩
  | begin | clear | done => rfl
  | finish =>
    rw [Site.endOp]
    split_ifs <;> rfl
  | store | memmove | head => exact absurd trivial he
  | bwrite _ hw hwrite =>
    obtain rfl := Cache.bwrite_spec hwrite
    exact hc.view_flush hw

end Xv6.Bcache
