import Xv6Ipc.Buffers.Commit

/-!
# Buffers/Transparent — the buffer cache is transparent

What a caller finds in a buffer is what was last stored in the block, or what was on the disk at first: the
cache, the log under it and the disk are one table of blocks,

    events     store b x      …       bread b
    contents   b ↦ x          …       ↦ x

through every hit, miss, eviction and commit.  A block that has been changed stays in the cache until it has
gone home, and blocks go home in commits only.
-/

namespace Xv6.Bcache

open Redo Tally Runs
open Function (update_of_ne update_self update)

variable {P H : Type} [Fintype P] [Fintype H] {S : Site P H} {s s' s₀ : State P H} {e : Event P H}
  {es : List (Event P H)} {k : Key} {i : BufId} {c c' : Cache}

/-! ## Every state -/

/-- **The invariant.** -/
structure Sound (S : Site P H) (s : State P H) : Prop where
  coherent : Coherent s.cache s.hand
  ordered : Ordered S s
  commits : ∃ β, Commits S s β

theorem Sound.of_start (h : Start s) : Sound S s := by
  refine ⟨.of_start h, ⟨?_, fun ht => absurd h.todo ht, fun h' k i hw => ?_, fun h' k i hw => ?_,
    fun m hm => ?_, ?_⟩, ⟨fun _ => ⟨S.dev, S.start⟩, .of_rests ?_ fun v => .inl (h.hand _)⟩⟩
  · rw [h.log.1]
    exact (Finset.sum_eq_zero fun p _ => by rw [h.inOp p]; rfl).symm
  · rw [h.hand] at hw
    exact nomatch hw
  · rw [h.hand] at hw
    exact nomatch hw
  · rw [h.log.2.2] at hm
    exact absurd hm (Nat.not_lt_zero _)
  · rw [h.log.2.2]
    exact S.pos
  · rw [h.todo]
    trivial

variable [DecidableEq P] [DecidableEq H]

/-- **Every step keeps the invariant.** -/
theorem Sound.step (hs : Sound S s) (h : Step S s e s') : Sound S s' := by
  obtain ⟨hc, ho, β, hm⟩ := hs
  refine ⟨hc.step h, ho.step (fun t ht => ?_) h, hm.step hc ho h⟩
  have hok := hm.ok
  rwa [ht] at hok

/-! ## Contents -/

/-- What an event stores. -/
def Event.apply (V : Key → Block) : Event P H → Key → Block
  | .store k x => update V k x
  | _ => V

omit [Fintype P] [Fintype H] [DecidableEq P] [DecidableEq H] in
theorem Event.apply_congr {V V' : Key → Block} (e : Event P H) (h : V k = V' k) :
    e.apply V k = e.apply V' k := by
  cases e with
  | store k' x =>
    simp only [Event.apply]
    by_cases hkk : k = k'
    · rw [hkk, update_self, update_self]
    · rw [update_of_ne hkk, update_of_ne hkk, h]
  | _ => exact h

/-- **The data most recently stored in each block**, or what was on the disk. -/
def contents (disk : Key → Block) (es : List (Event P H)) : Key → Block := es.foldl Event.apply disk

/-- **One table of blocks**: outside the log, nothing but a store changes what a block holds. -/
theorem Sound.view_step (hs : Sound S s) (h : Step S s e s') (hk : ¬ S.InLog k.blockno) :
    s'.cache.view k = e.apply s.cache.view k := by
  obtain ⟨hc, ho, β, hm⟩ := hs
  have hquiet : ¬ e.Writes → s'.cache.view k = s.cache.view k := fun he => congrFun (hc.view_step h he) k
  cases h with
  | store x hw hp => exact congrFun (hc.view_store hw x) k
  | @memmove d e k₁ i k₂ j t htodo hd he =>
    have hok := hm.ok
    rw [htodo] at hok
    have hsame := hok.1
    rw [hm.holds d k₁ i (.inl hd), hm.holds e k₂ j (.inl he)] at hsame
    refine (congrFun (hc.view_store (.inl hd) _) k).trans ?_
    by_cases hkk : k = k₁
    · rw [hkk, update_self]
      refine Eq.trans ?_ (hsame.resolve_left (hkk ▸ hk)).symm
      exact (hc.view_of_valid (hc.full _ j ⟨k₂, .inl he⟩) (hc.key _ k₂ j (by rw [he]; rfl))).symm
    · exact update_of_ne hkk _ _
  | @head k₁ i t htodo hw =>
    have hok := hm.ok
    rw [htodo] at hok
    have hlog := hok.1
    rw [hm.holds false k₁ i (.inl hw)] at hlog
    refine (congrFun (hc.view_store (.inl hw) _) k).trans (update_of_ne ?_ _ _)
    rintro rfl
    exact hk hlog
  | _ => exact hquiet id

theorem contents_of_trace (h₀ : Start s₀) (h : Trace (Step S) s₀ es s) :
    Sound S s ∧ ∀ k, ¬ S.InLog k.blockno → s.cache.view k = contents s₀.cache.disk es k := by
  induction h with
  | nil =>
    refine ⟨.of_start h₀, fun k _ => ?_⟩
    rw [Cache.view]
    cases hf : s₀.cache.find k with
    | none => rfl
    | some i =>
      change (if _ then _ else _) = _
      split_ifs with hv
      · rw [(h₀.clean i hv).2, Cache.key_of_find hf]
        rfl
      · rfl
  | snoc _ hstep ih =>
    refine ⟨ih.1.step hstep, fun k hk => ?_⟩
    rw [ih.1.view_step hstep hk, contents, List.foldl_append]
    exact Event.apply_congr _ (ih.2 k hk)

/-! ## What stays in the cache -/

/-- Has a block been changed, after these events, since it last went home? -/
def Event.unsaves (k : Key) (b : Bool) : Event P H → Bool
  | .store k' _ => if k' = k then true else b
  | .bwrite k' => if k' = k then false else b
  | _ => b

/-- **A block has been changed and has not gone home.** -/
def Unsaved (es : List (Event P H)) (k : Key) : Prop := es.foldl (Event.unsaves k) false = true

/-- A block is in the cache, in a buffer that will not be recycled. -/
def Pinned (c : Cache) (hand : Who H → Hand) (k : Key) : Prop :=
  ∃ i, (c.buf i).key = k ∧ (c.buf i).valid = true ∧ ((c.buf i).dirty = true ∨ ∃ w, (hand w).Touches i)

section Hand

omit [Fintype H]

variable {hand : Who H → Hand} {w : Who H} {h : Hand}

/-- A hand moves, and one buffer changes: the others… -/
theorem Pinned.put (hp : Pinned c hand k) (hbuf : ∀ j, j ≠ i → c'.buf j = c.buf j)
    (hw : ∀ j, (hand w).Touches j → j = i)
    (hi : (c.buf i).key = k → (c.buf i).valid = true →
      ((c.buf i).dirty = true ∨ (hand w).Touches i ∨ ∃ w', w' ≠ w ∧ (hand w').Touches i) →
      (c'.buf i).key = k ∧ (c'.buf i).valid = true ∧ ((c'.buf i).dirty = true ∨ h.Touches i
        ∨ ∃ w', w' ≠ w ∧ (hand w').Touches i)) :
    Pinned c' (update hand w h) k := by
  obtain ⟨j, hkey, hv, hpin⟩ := hp
  by_cases hji : j = i
  · obtain rfl := hji
    have hpin' : (c.buf j).dirty = true ∨ (hand w).Touches j ∨ ∃ w', w' ≠ w ∧ (hand w').Touches j := by
      rcases hpin with hd | ⟨w', hw'⟩
      · exact .inl hd
      · by_cases hww : w' = w
        · exact .inr (.inl (hww ▸ hw'))
        · exact .inr (.inr ⟨w', hww, hw'⟩)
    obtain ⟨hkey', hv', hpin'⟩ := hi hkey hv hpin'
    refine ⟨j, hkey', hv', hpin'.imp_right fun ht => ?_⟩
    rcases ht with ht | ⟨w', hww, hw'⟩
    · exact ⟨w, by rwa [update_self]⟩
    · exact ⟨w', by rwa [update_of_ne hww]⟩
  · refine ⟨j, ?_⟩
    rw [hbuf j hji]
    refine ⟨hkey, hv, hpin.imp_right fun ⟨w', hw'⟩ => ⟨w', ?_⟩⟩
    have hww : w' ≠ w := by
      rintro rfl
      exact hji (hw j hw')
    rwa [update_of_ne hww]

/-- …and the one, if it is as it was… -/
theorem Pinned.keep (hp : Pinned c hand k) (hw : ∀ j, ¬ (hand w).Touches j)
    (hbuf : ∀ j, j ≠ i → c'.buf j = c.buf j)
    (hi : (c.buf i).valid = true → (c'.buf i).key = (c.buf i).key ∧ (c'.buf i).valid = (c.buf i).valid
      ∧ (c'.buf i).dirty = (c.buf i).dirty) :
    Pinned c' (update hand w h) k := by
  refine hp.put hbuf (fun j ht => absurd ht (hw j)) fun hkey hv hpin => ?_
  obtain ⟨hkey', hv', hd'⟩ := hi hv
  rw [hkey', hv', hd']
  exact ⟨hkey, hv, hpin.imp_right (Or.imp_left fun ht => absurd ht (hw i))⟩

/-- …or is touched, or marked. -/
theorem Pinned.touch (hp : Pinned c hand k) (hw : (hand w).owned = some i)
    (hbuf : ∀ j, j ≠ i → c'.buf j = c.buf j)
    (hi : (c'.buf i).key = (c.buf i).key ∧ (c'.buf i).valid = (c.buf i).valid)
    (hpin : (c'.buf i).dirty = true ∨ h.Touches i) : Pinned c' (update hand w h) k := by
  refine hp.put hbuf (fun j ht => ?_) fun hkey hv _ => ?_
  · exact Option.some.inj (ht.full.owned.symm.trans hw)
  · rw [hi.1, hi.2]
    exact ⟨hkey, hv, hpin.imp_right .inl⟩

omit [DecidableEq H] in
/-- A hand that is elsewhere touches nothing. -/
theorem not_touches (hw : hand w = h) (hh : ∀ k i, h ≠ .touched k i) (j : BufId) :
    ¬ (hand w).Touches j := fun ⟨k, ht⟩ => hh k j (hw.symm.trans ht)

end Hand

/-- **What has been changed stays** until it goes home. -/
theorem Pinned.step (hs : Sound S s) (hp : Pinned s.cache s.hand k) (h : Step S s e s')
    (he : e ≠ .bwrite k) : Pinned s'.cache s'.hand k := by
  obtain ⟨hc, -, -⟩ := hs
  have hupdate : ∀ (i : BufId) (b : Buf) (j : BufId), j ≠ i →
      update s.cache.buf i b j = s.cache.buf j := fun i b j hj => update_of_ne hj _ _
  have hself : ∀ (i : BufId) (b : Buf), update s.cache.buf i b i = b := fun i b =>
    update_self ..
  cases h with
  | @get w k' i c hw _ hget =>
    have hno := not_touches hw nofun
    rcases Cache.bget_spec hget with ⟨-, rfl⟩ | ⟨-, hidle, rfl⟩
    · exact hp.keep hno (hupdate i _) fun _ => by rw [Cache.hit, Cache.set_buf, hself]; exact ⟨rfl, rfl, rfl⟩
    · -- a buffer that is recycled is not the one of the block
      refine hp.put (hupdate i _) (fun j ht => absurd ht (hno j)) fun hkey hv hpin => ?_
      rcases hpin with hd | ht | ⟨w', -, k'', ht⟩
      · exact nomatch hidle.2.symm.trans hd
      · exact absurd ht (hno i)
      · exact absurd hidle.1 (hc.refcnt_pos (w := w') (by rw [ht]; rfl)).ne'
  | @lock w k' i hw _ =>
    exact hp.keep (not_touches hw nofun) (hupdate i _) fun _ => by
      rw [Cache.acquire, Cache.set_buf, hself]
      exact ⟨rfl, rfl, rfl⟩
  | @fill w k' i c hw hfill =>
    change Pinned c (update (s.next w).hand w _) k
    rw [State.next_hand]
    rcases Cache.fill_spec (hc.dirty i) hfill with ⟨-, rfl⟩ | ⟨⟨hv, -⟩, rfl⟩
    · exact hp.keep (i := i) (not_touches hw nofun) (fun _ _ => rfl) fun _ => ⟨rfl, rfl, rfl⟩
    · exact hp.keep (not_touches hw nofun) (hupdate i _) fun hv' => nomatch hv.symm.trans hv'
  | @store h k' i x hw hp' =>
    have howned : (s.hand (.inl h)).owned = some i := Hand.Full.owned ⟨k', hw⟩
    refine hp.touch howned (hupdate i _) ?_ (.inr ⟨k', rfl⟩)
    rw [Cache.store, Cache.set_buf, hself]
    exact ⟨rfl, rfl⟩
  | @logWrite h k' i j l hw hl =>
    have hi : (s.cache.mark i).buf i = { s.cache.buf i with dirty := true } := hself i _
    exact hp.touch (i := i) (by rw [hw]; rfl) (hupdate i _) (by rw [hi]; exact ⟨rfl, rfl⟩)
      (.inl (by rw [hi]))
  | @unlock w k' i hw hrel =>
    exact hp.keep (not_touches hw nofun) (hupdate i _) fun _ => by
      rw [Cache.release, Cache.set_buf, hself]
      exact ⟨rfl, rfl, rfl⟩
  | @drop w k' i hw =>
    change Pinned (s.cache.drop i) (update (s.next w).hand w _) k
    rw [State.next_hand]
    have hbuf := (Cache.drop_spec s.cache i).1
    refine hp.keep (i := i) (not_touches hw nofun) (fun j hj => ?_) fun _ => ?_
    · rw [hbuf, hupdate i _ j hj]
    · rw [hbuf, hself]
      exact ⟨rfl, rfl, rfl⟩
  | begin | clear | done => exact hp
  | finish =>
    rw [Site.endOp]
    split_ifs <;> exact hp
  | @memmove d e k₁ i k₂ j t htodo hd he =>
    refine hp.touch (by rw [hd]; rfl) (hupdate i _) ?_ (.inr ⟨k₁, rfl⟩)
    rw [Cache.store, Cache.set_buf, hself]
    exact ⟨rfl, rfl⟩
  | @head k₁ i t htodo hw =>
    refine hp.touch (by rw [hw]; rfl) (hupdate i _) ?_ (.inr ⟨k₁, rfl⟩)
    rw [Cache.store, Cache.set_buf, hself]
    exact ⟨rfl, rfl⟩
  | @bwrite v k₁ i c t htodo hw hwrite =>
    obtain rfl := Cache.bwrite_spec hwrite
    have hkey : (s.cache.buf i).key = k₁ := hc.key _ k₁ i (by rw [hw]; rfl)
    refine hp.put (hupdate i _) (fun j ht => ?_) fun hk _ _ => ?_
    · exact Option.some.inj (ht.full.owned.symm.trans (by rw [hw]; rfl))
    · exact absurd (congrArg Event.bwrite (hkey.symm.trans hk)) he

/-- A store changes the block of its buffer. -/
theorem pinned_of_store {x : Block} (hs : Sound S s) (h : Step S s (.store k x) s') :
    Pinned s'.cache s'.hand k := by
  have hc' := (hs.step h).coherent
  cases h with
  | @store h _ i _ hw hp =>
    have htouch : (update s.hand (.inl h) (.touched k i)) (.inl h) = .touched k i :=
      update_self ..
    exact ⟨i, hc'.key (.inl h) k i (congrArg Hand.on htouch), hc'.full (.inl h) i ⟨k, .inr htouch⟩,
      .inr ⟨.inl h, k, htouch⟩⟩

theorem pinned_of_trace (h₀ : Start s₀) (h : Trace (Step S) s₀ es s) (hk : Unsaved es k) :
    Pinned s.cache s.hand k := by
  induction h with
  | nil => exact nomatch hk
  | @snoc s s' es e htrace hstep ih =>
    have hs : Sound S s := (contents_of_trace h₀ htrace).1
    rw [Unsaved, List.foldl_append] at hk
    by_cases hstore : ∃ x, e = .store k x
    · obtain ⟨x, rfl⟩ := hstore
      exact pinned_of_store hs hstep
    · have hne : e ≠ .bwrite k := by
        rintro rfl
        simp [Event.unsaves] at hk
      refine (ih ?_).step hs hstep hne
      rw [Unsaved]
      cases e with
      | store k' x =>
        have hkk : k' ≠ k := fun he => hstore ⟨x, by rw [he]⟩
        simpa [Event.unsaves, hkk] using hk
      | bwrite k' =>
        have hkk : k' ≠ k := fun he => hne (by rw [he])
        simpa [Event.unsaves, hkk] using hk
      | _ => exact hk

omit [DecidableEq P] [DecidableEq H] in
/-- **No buffer that holds a changed block is recycled.** -/
theorem Sound.not_evicts (hs : Sound S s) (hp : Pinned s.cache s.hand (s.cache.buf i).key)
    (hget : s.cache.bget k = some (i, c)) (hv : (s.cache.buf i).valid = true) :
    (s.cache.buf i).key = k := by
  rcases Cache.bget_spec hget with ⟨hf, -⟩ | ⟨-, ⟨href, hclean⟩, -⟩
  · exact Cache.key_of_find hf
  · obtain ⟨j, hkey, hvj, hpin⟩ := hp
    obtain rfl := hs.coherent.unique (not_blank_of_valid hvj) (not_blank_of_valid hv) hkey
    rcases hpin with hd | ⟨w, k', ht⟩
    · exact nomatch hclean.symm.trans hd
    · exact absurd href (hs.coherent.refcnt_pos (w := w) (by rw [ht]; rfl)).ne'

/-! ## The disk, and panics -/

/-- **Between commits the disk does not change.** -/
theorem Sound.disk_step (hs : Sound S s) (h : Step S s e s') (hidle : s.log.committing = false) :
    s'.cache.disk = s.cache.disk := by
  cases h with
  | get _ _ hget => rcases Cache.bget_spec hget with ⟨-, rfl⟩ | ⟨-, -, rfl⟩ <;> rfl
  | @fill w k i c hw hfill =>
    rcases Cache.fill_spec (hs.coherent.dirty i) hfill with ⟨-, rfl⟩ | ⟨-, rfl⟩ <;> rfl
  | @drop w k i => exact (Cache.drop_spec s.cache i).2
  | finish =>
    rw [Site.endOp]
    split_ifs <;> rfl
  | bwrite htodo =>
    have hcommit := (hs.ordered.commit (by rw [htodo]; exact List.cons_ne_nil _ _)).1
    cases hidle.symm.trans hcommit
  | _ => rfl

/-! ## Every run -/

/-- **The buffer cache is transparent.**  Whoever holds a buffer has what was last stored in the block, or what
was on the disk; a block that has been changed and has not gone home is in the cache, and no buffer that
holds one is recycled; between commits the disk does not change; and `bget` finds a buffer as long as there
is one that is neither held nor pinned. -/
theorem cache_transparent (h₀ : Start s₀) (h : Trace (Step S) s₀ es s) :
    (∀ u k i, s.hand (.inl u) = .held k i ∨ s.hand (.inl u) = .touched k i →
      (s.cache.buf i).key = k ∧ (s.cache.buf i).data = contents s₀.cache.disk es k)
    ∧ (∀ k, Unsaved es k → Pinned s.cache s.hand k)
    ∧ (∀ k i c, s.cache.bget k = some (i, c) → (s.cache.buf i).key ≠ k →
      (s.cache.buf i).valid = true → ¬ Unsaved es (s.cache.buf i).key)
    ∧ (∀ e s', Step S s e s' → s.log.committing = false → s'.cache.disk = s.cache.disk)
    ∧ ∀ k, s.cache.busy < NBUF → s.cache.bget k ≠ none := by
  obtain ⟨hs, hview⟩ := contents_of_trace h₀ h
  refine ⟨fun u k i hw => ?_, fun k => pinned_of_trace h₀ h, fun k i c hget hne hv hk => ?_,
    fun e s' => hs.disk_step, fun k hbusy => Cache.bget_ne_none hs.coherent.mem hbusy k⟩
  · have hon : (s.hand (.inl u)).on = some (k, i) := by rcases hw with hw | hw <;> rw [hw] <;> rfl
    have hkey := hs.coherent.key _ k i hon
    refine ⟨hkey, ?_⟩
    rw [← hview k (hs.ordered.outside u k i hon)]
    exact (hs.coherent.view_of_valid (hs.coherent.full _ i ⟨k, hw⟩) hkey).symm
  · exact hne (hs.not_evicts (pinned_of_trace h₀ h hk) hget hv)

/-- A machine with one process and one hand. -/
def site : Site Unit Unit := ⟨mkfsLog, Fin.last 1, id⟩

/-- It has just been started. -/
def fresh : State Unit Unit :=
  ⟨.binit fun _ _ => 0, ⟨0, false, ⟨0, fun _ => 0⟩⟩, fun _ => false, fun _ => .none, []⟩

theorem start_fresh : Start fresh :=
  ⟨fun i => List.mem_reverse.mpr (List.mem_finRange i), fun _ => ⟨rfl, rfl, rfl⟩, nofun, ⟨rfl, rfl, rfl⟩,
    fun _ => rfl, fun _ => rfl, rfl⟩

/-- A process changes a block. -/
theorem trace_store : ∃ es s i, Trace (Step site) fresh es s ∧ s.hand (.inl ()) = .held ⟨1, 40⟩ i
    ∧ Unsaved es ⟨1, 40⟩ ∧ contents fresh.cache.disk es ⟨1, 40⟩ = fun _ => 7 :=
  ⟨_, _, _, .cons (.begin (p := ()) rfl ⟨rfl, by decide⟩) <|
    .cons (.get (w := .inl ()) (k := ⟨1, 40⟩) rfl (fun hlog => absurd hlog.2 (by decide)) rfl) <|
    .cons (.lock (w := .inl ()) rfl rfl) <|
    .cons (.fill (w := .inl ()) rfl rfl) <|
    .cons (.store (h := ()) (fun _ => 7) (.inl rfl) rfl) <|
    .single (.logWrite (h := ()) rfl rfl), rfl, rfl, rfl⟩

/-- …and finds what it has stored. -/
theorem cache_transparent_store : ∃ es s i, Trace (Step site) fresh es s
    ∧ s.hand (.inl ()) = .held ⟨1, 40⟩ i ∧ (s.cache.buf i).data = (fun _ => 7)
    ∧ Pinned s.cache s.hand ⟨1, 40⟩ := by
  obtain ⟨es, s, i, htrace, hheld, hunsaved, hcontents⟩ := trace_store
  obtain ⟨hdata, hpinned, -⟩ := cache_transparent start_fresh htrace
  refine ⟨es, s, i, htrace, hheld, ?_, hpinned _ hunsaved⟩
  rw [(hdata () _ i (.inl hheld)).2, hcontents]

end Xv6.Bcache
