import Xv6Ipc.Buffers.Model
import Xv6Ipc.Machinery.Tally

/-!
# Buffers/Coherent — what a cached block is

At most one buffer of a block is in use or holds data, and it is the one that `bget` finds; a buffer that is
not dirty, and that nobody is changing, holds what the disk has.  So a block has one value, `view`, wherever
its bytes are:

    found and valid     ⟹  the data of the buffer
    otherwise           ⟹  the disk

-/

namespace Xv6.Bcache

open Redo Tally
open Function (forall_update_iff update_of_ne update_self update)

variable {c c' : Cache} {i j : BufId} {b : Buf} {k k' : Key} {x : Block}

/-! ## Finding things in a list -/

section Find

variable {α : Type*} {p q : α → Bool} {l : List α} {a : α}

/-- Fewer candidates, of which the first was one. -/
theorem find_of_imp (h : l.find? p = some a) (himp : ∀ x, q x = true → p x = true) (ha : q a = true) :
    l.find? q = some a := by
  obtain ⟨-, as, bs, hl, has⟩ := List.find?_eq_some_iff_append.mp h
  refine List.find?_eq_some_iff_append.mpr ⟨ha, as, bs, hl, fun x hx => ?_⟩
  have hp := has x hx
  rw [Bool.not_eq_true'] at hp ⊢
  exact Bool.eq_false_of_not_eq_true fun hq => nomatch hp.symm.trans (himp x hq)

/-- The only candidate. -/
theorem find_of_unique (hmem : a ∈ l) (ha : p a = true) (huniq : ∀ x, p x = true → x = a) :
    l.find? p = some a := by
  obtain ⟨b, hb⟩ := Option.isSome_iff_exists.mp (List.find?_isSome.mpr ⟨a, hmem, ha⟩)
  rw [hb, huniq b (List.find?_some hb)]

/-- What is no candidate can be left out. -/
theorem find_erase [DecidableEq α] (ha : p a = false) : (l.erase a).find? p = l.find? p := by
  induction l with
  | nil => rfl
  | cons x l ih =>
    by_cases hx : x = a
    · rw [hx, List.erase_cons_head, List.find?_cons_of_neg (by rw [ha]; exact nofun)]
    · rw [List.erase_cons_tail (by simpa using hx), List.find?_cons, List.find?_cons, ih]

end Find

/-! ## What the functions of the cache do -/

/-- A buffer that holds nothing. -/
def Buf.Blank (b : Buf) : Prop := b.refcnt = 0 ∧ b.valid = false ∧ b.dirty = false

namespace Cache

theorem key_of_find (h : c.find k = some i) : (c.buf i).key = k := by
  simpa using List.find?_some h

theorem key_of_find_none (hmem : ∀ i, i ∈ c.lru) (h : c.find k = none) (i : BufId) :
    (c.buf i).key ≠ k := by
  simpa using List.find?_eq_none.mp h i (hmem i)

theorem key_update (hkey : b.key = (c.buf i).key) (j : BufId) :
    (update c.buf i b j).key = (c.buf j).key := by
  by_cases hj : j = i
  · rw [hj, update_self, hkey]
  · rw [update_of_ne hj]

/-- The cache after a hit… -/
def hit (c : Cache) (i : BufId) : Cache := c.set i { c.buf i with refcnt := (c.buf i).refcnt + 1 }

/-- …and after a miss. -/
def recycle (c : Cache) (k : Key) (i : BufId) : Cache :=
  c.set i { c.buf i with key := k, valid := false, dirty := false, refcnt := 1 }

/-- **`bget`**: the buffer of the block, or one that nobody needs. -/
theorem bget_spec (h : c.bget k = some (i, c')) :
    (c.find k = some i ∧ c' = c.hit i)
      ∨ c.find k = none ∧ ((c.buf i).refcnt = 0 ∧ (c.buf i).dirty = false) ∧ c' = c.recycle k i := by
  rw [bget] at h
  cases hf : c.find k with
  | some j =>
    rw [hf] at h
    obtain ⟨rfl, rfl⟩ := Prod.mk.inj (Option.some.inj h)
    exact .inl ⟨rfl, rfl⟩
  | none =>
    rw [hf] at h
    obtain ⟨j, hj, he⟩ := Option.map_eq_some_iff.mp h
    obtain ⟨rfl, rfl⟩ := Prod.mk.inj he
    exact .inr ⟨rfl, by simpa using List.find?_some hj, rfl⟩

/-- A transfer to the disk… -/
def flush (c : Cache) (i : BufId) : Cache :=
  { c.set i { c.buf i with valid := true, dirty := false } with
    disk := update c.disk (c.buf i).key (c.buf i).data }

/-- …and from it. -/
def load (c : Cache) (i : BufId) : Cache :=
  c.set i { c.buf i with valid := true, data := c.disk (c.buf i).key }

theorem iderw_spec (h : c.iderw i = some c') :
    ((c.buf i).dirty = true ∧ c' = c.flush i)
      ∨ ((c.buf i).valid = false ∧ (c.buf i).dirty = false) ∧ c' = c.load i := by
  rw [iderw] at h
  split_ifs at h with hidle hbig hd
  · exact .inl ⟨hd, (Option.some.inj h).symm⟩
  · have hclean : (c.buf i).dirty = false := Bool.eq_false_of_not_eq_true hd
    refine .inr ⟨⟨Bool.eq_false_of_not_eq_true fun hv => hidle ⟨hv, hclean⟩, hclean⟩, ?_⟩
    exact (Option.some.inj h).symm

/-- **`bread`**, if what is dirty is valid. -/
theorem fill_spec (hd : (c.buf i).dirty = true → (c.buf i).valid = true) (h : c.fill i = some c') :
    ((c.buf i).valid = true ∧ c' = c)
      ∨ ((c.buf i).valid = false ∧ (c.buf i).dirty = false) ∧ c' = c.load i := by
  rw [fill] at h
  split_ifs at h with hv
  · rcases iderw_spec h with ⟨hdirty, -⟩ | hload
    · exact nomatch hv.symm.trans (hd hdirty)
    · exact .inr hload
  · exact .inl ⟨Bool.eq_true_of_not_eq_false hv, (Option.some.inj h).symm⟩

/-- **`bwrite`**. -/
theorem bwrite_spec (h : c.bwrite i = some c') : c' = c.flush i := by
  rcases iderw_spec h with ⟨-, rfl⟩ | ⟨⟨-, hclean⟩, -⟩
  · simp [flush, mark, set]
  · rw [mark, set_buf, update_self] at hclean
    exact nomatch hclean

theorem drop_spec (c : Cache) (i : BufId) :
    (c.drop i).buf = update c.buf i { c.buf i with refcnt := (c.buf i).refcnt - 1 }
      ∧ (c.drop i).disk = c.disk := by
  rw [drop]
  split_ifs <;> exact ⟨rfl, rfl⟩

/-- How many buffers are held or pinned. -/
def busy (c : Cache) : Nat :=
  (Finset.univ.filter fun i => (c.buf i).refcnt ≠ 0 ∨ (c.buf i).dirty = true).card

/-- **`bget` does not panic** as long as one buffer is neither. -/
theorem bget_ne_none (hmem : ∀ i, i ∈ c.lru) (hbusy : c.busy < NBUF) (k : Key) : c.bget k ≠ none := by
  obtain ⟨i, hi⟩ : ∃ i, ¬ ((c.buf i).refcnt ≠ 0 ∨ (c.buf i).dirty = true) := by
    by_contra hall
    push Not at hall
    refine hbusy.ne ?_
    rw [busy, Finset.filter_true_of_mem fun i _ => ?_, Finset.card_univ, Fintype.card_fin]
    exact hall i
  push Not at hi
  rw [bget]
  cases c.find k with
  | some j => exact nofun
  | none =>
    intro hnone
    rw [Option.map_eq_none_iff, List.find?_eq_none] at hnone
    exact hnone i (List.mem_reverse.mpr (hmem i)) (by simpa using hi)

end Cache

/-! ## Hands -/

namespace Hand

/-- The block and the buffer a hand is at. -/
def on : Hand → Option (Key × BufId)
  | .none => .none
  | .waiting k i | .locked k i | .held k i | .touched k i | .leaving k i => some (k, i)

/-- The buffer whose count it has raised… -/
def buf (h : Hand) : Option BufId := h.on.map Prod.snd

/-- …and that whose lock it has. -/
def owned : Hand → Option BufId
  | .locked _ i | .held _ i | .touched _ i => some i
  | _ => .none

/-- Has `bread` returned? -/
def Full (h : Hand) (i : BufId) : Prop := ∃ k, h = .held k i ∨ h = .touched k i

/-- Has the data been changed? -/
def Touches (h : Hand) (i : BufId) : Prop := ∃ k, h = .touched k i

variable {h : Hand}

theorem buf_of_on (hon : h.on = some (k, i)) : h.buf = some i := by rw [buf, hon]; rfl

theorem on_of_owned (howned : h.owned = some i) : ∃ k, h.on = some (k, i) := by
  cases h with
  | none | waiting | leaving => exact nomatch howned
  | locked k j | held k j | touched k j =>
    obtain rfl := Option.some.inj howned
    exact ⟨k, rfl⟩

/-- A hand is at one buffer. -/
theorem eq_of_owned (hon : h.on = some (k, i)) (howned : h.owned = some j) : j = i := by
  obtain ⟨k', hon'⟩ := on_of_owned howned
  exact (Prod.mk.inj (Option.some.inj (hon'.symm.trans hon))).2

theorem mark_owned_of_ne (hon : h.on = some (k, i)) (hj : j ≠ i) : Tally.mark h.owned j = 0 :=
  if_neg fun howned => hj (eq_of_owned hon howned)

theorem Full.owned (hfull : h.Full i) : h.owned = some i := by
  obtain ⟨k, rfl | rfl⟩ := hfull <;> rfl

theorem Touches.full (ht : h.Touches i) : h.Full i := ht.imp fun _ => .inr

end Hand

/-! ## Coherence -/

section Hands

variable {H : Type} [Fintype H] {hand : Who H → Hand} {w w' : Who H} {h : Hand}

/-- **The cache is coherent**, given where the hands are. -/
structure Coherent (c : Cache) (hand : Who H → Hand) : Prop where
  mem : ∀ i, i ∈ c.lru
  found : ∀ i, ¬ (c.buf i).Blank → c.find (c.buf i).key = some i
  refcnt : ∀ i, (c.buf i).refcnt = places (fun w => (hand w).buf) i
  locked : ∀ i, (c.buf i).locked.toNat = places (fun w => (hand w).owned) i
  key : ∀ w k i, (hand w).on = some (k, i) → (c.buf i).key = k
  full : ∀ w i, (hand w).Full i → (c.buf i).valid = true
  dirty : ∀ i, (c.buf i).dirty = true → (c.buf i).valid = true
  clean : ∀ i, (c.buf i).valid = true → (c.buf i).dirty = false → (∀ w, ¬ (hand w).Touches i) →
    (c.buf i).data = c.disk (c.buf i).key

theorem not_blank_of_valid (h : b.valid = true) : ¬ b.Blank := fun hb => nomatch hb.2.1.symm.trans h

namespace Coherent

/-- Two buffers of one block, of which one is blank. -/
theorem unique (hc : Coherent c hand) (hi : ¬ (c.buf i).Blank) (hj : ¬ (c.buf j).Blank)
    (hkey : (c.buf i).key = (c.buf j).key) : i = j :=
  Option.some.inj ((hc.found i hi).symm.trans ((congrArg c.find hkey).trans (hc.found j hj)))

/-- A hand keeps its buffer. -/
theorem refcnt_pos (hc : Coherent c hand) (hon : (hand w).on = some (k, i)) : 0 < (c.buf i).refcnt := by
  rw [hc.refcnt]
  exact places_pos (g := fun w => (hand w).buf) (Hand.buf_of_on hon)

theorem not_blank (hc : Coherent c hand) (hon : (hand w).on = some (k, i)) : ¬ (c.buf i).Blank :=
  fun hb => (hc.refcnt_pos hon).ne' hb.1

variable [DecidableEq H]

/-- A count of a buffer, and what hands have of it. -/
theorem count_update {n : Buf → Nat} {o o' : Option BufId} (hi : n b + mark o i = n (c.buf i) + mark o' i)
    (hne : ∀ j, j ≠ i → mark o j = mark o' j) :
    ∀ j, n (update c.buf i b j) + mark o j = n (c.buf j) + mark o' j :=
  (forall_update_iff c.buf fun j y => n y + mark o j = n (c.buf j) + mark o' j).mpr
    ⟨hi, fun j hj => congrArg (n (c.buf j) + ·) (hne j hj)⟩

/-- **One hand moves, and the buffer it is at is written.** -/
theorem change (hc : Coherent c hand) (lru : List BufId) (disk : Key → Block) (hmem : ∀ j, j ∈ lru)
    (hfound : ∀ j, ¬ (update c.buf i b j).Blank →
      lru.find? (fun j' => (update c.buf i b j').key = (update c.buf i b j).key) = some j)
    (hrefcnt : ∀ j, (update c.buf i b j).refcnt + mark (hand w).buf j = (c.buf j).refcnt + mark h.buf j)
    (hlocked : ∀ j, (update c.buf i b j).locked.toNat + mark (hand w).owned j
      = (c.buf j).locked.toNat + mark h.owned j)
    (hon : ∀ k' j, h.on = some (k', j) → j = i ∧ b.key = k' ∧ (h.Full i → b.valid = true))
    (hothers : ∀ w' k', (hand w').on = some (k', i) → w' ≠ w →
      b.key = k' ∧ ((c.buf i).valid = true → b.valid = true))
    (hdirty : b.dirty = true → b.valid = true)
    (hclean : b.valid = true → b.dirty = false → ¬ h.Touches i → (∀ w', w' ≠ w → ¬ (hand w').Touches i) →
      b.data = disk b.key)
    (hheld : ∀ j, (hand w).Touches j → j = i)
    (hdisk : ∀ j, j ≠ i → (c.buf j).valid = true → disk (c.buf j).key = c.disk (c.buf j).key) :
    Coherent ⟨update c.buf i b, lru, disk⟩ (update hand w h) := by
  have hat : ∀ w' k' j, (update hand w h w').on = some (k', j) →
      (update c.buf i b j).key = k'
        ∧ ((update hand w h w').Full j → (update c.buf i b j).valid = true) := by
    refine (forall_update_iff hand fun _ y => ∀ k' j, y.on = some (k', j) → (update c.buf i b j).key = k'
      ∧ (y.Full j → (update c.buf i b j).valid = true)).mpr ⟨fun k' j hw => ?_, fun w' hww k' j hw => ?_⟩
    · obtain ⟨rfl, hb⟩ := hon k' j hw
      rwa [update_self]
    by_cases hji : j = i
    · rw [hji] at hw ⊢
      rw [update_self]
      exact (hothers w' k' hw hww).imp_right fun hv hfull => hv (hc.full w' i hfull)
    · rw [update_of_ne hji]
      exact ⟨hc.key w' k' j hw, hc.full w' j⟩
  refine ⟨hmem, hfound, fun j => ?_, fun j => ?_, fun w' k' j hw => (hat w' k' j hw).1, fun w' j hw => ?_, ?_,
    fun j hv hd ht => ?_⟩
  · have hsum := places_apply_update Hand.buf hand w h j
    rw [← hc.refcnt] at hsum
    exact Nat.add_right_cancel ((hrefcnt j).trans hsum.symm)
  · have hsum := places_apply_update Hand.owned hand w h j
    rw [← hc.locked] at hsum
    exact Nat.add_right_cancel ((hlocked j).trans hsum.symm)
  · obtain ⟨k', hon⟩ := Hand.on_of_owned hw.owned
    exact (hat w' k' j hon).2 hw
  · exact (forall_update_iff c.buf fun _ y => y.dirty = true → y.valid = true).mpr
      ⟨hdirty, fun j _ => hc.dirty j⟩
  · obtain ⟨hself, hrest⟩ := (forall_update_iff hand fun _ y => ¬ y.Touches j).mp ht
    change (update c.buf i b j).valid = true at hv
    change (update c.buf i b j).dirty = false at hd
    change (update c.buf i b j).data = disk (update c.buf i b j).key
    by_cases hji : j = i
    · rw [hji] at hv hd hself hrest ⊢
      rw [update_self] at hv hd ⊢
      exact hclean hv hd hself hrest
    · rw [update_of_ne hji] at hv hd ⊢
      refine (hc.clean j hv hd fun w' hw => ?_).trans (hdisk j hji hv).symm
      by_cases hww : w' = w
      · exact hji (hheld j (hww ▸ hw))
      · exact hrest w' hww hw

/-- **A hand that stays at its buffer** may write it, and the disk under it. -/
theorem put (hc : Coherent c hand) (disk : Key → Block) (hon : (hand w).on = some (k, i))
    (hon' : h.on = some (k, i)) (hkey : b.key = (c.buf i).key) (hrefcnt : b.refcnt = (c.buf i).refcnt)
    (hlocked : b.locked.toNat + mark (hand w).owned i = (c.buf i).locked.toNat + mark h.owned i)
    (hfull : h.Full i ∨ (c.buf i).valid = true → b.valid = true) (hdirty : b.dirty = true → b.valid = true)
    (hclean : b.valid = true → b.dirty = false → ¬ h.Touches i → (∀ w', w' ≠ w → ¬ (hand w').Touches i) →
      b.data = disk b.key)
    (hdisk : ∀ k', k' ≠ b.key → disk k' = c.disk k') :
    Coherent { c.set i b with disk := disk } (update hand w h) := by
  have hkeyk : b.key = k := hkey.trans (hc.key w k i hon)
  refine hc.change c.lru disk hc.mem (fun j hj => ?_) (count_update ?_ fun _ _ => ?_)
    (count_update (n := fun y => y.locked.toNat) hlocked fun j hj => ?_) (fun k' j hw => ?_)
    (fun w' k' hw _ => ⟨hkey.trans (hc.key w' k' i hw), fun hv => hfull (.inr hv)⟩) hdirty hclean
    (fun j hw => Hand.eq_of_owned hon hw.full.owned) fun j hji hv => hdisk _ fun he => ?_
  · simp only [Cache.key_update hkey]
    refine hc.found j fun hblank => ?_
    by_cases hji : j = i
    · exact hc.not_blank hon (hji ▸ hblank)
    · exact hj ((update_of_ne hji b c.buf).symm ▸ hblank)
  · rw [hrefcnt, Hand.buf_of_on hon, Hand.buf_of_on hon']
  · rw [Hand.buf_of_on hon, Hand.buf_of_on hon']
  · rw [Hand.mark_owned_of_ne hon hj, Hand.mark_owned_of_ne hon' hj]
  · obtain ⟨rfl, rfl⟩ := Prod.mk.inj (Option.some.inj (hon'.symm.trans hw))
    exact ⟨rfl, hkeyk, fun hw => hfull (.inl hw)⟩
  · -- another buffer with data is of another block
    exact hji (hc.unique (not_blank_of_valid hv) (hc.not_blank hon) (he.trans hkey))

/-- **A hand that takes a buffer or lets go of one**, and leaves the rest of the buffer alone. -/
theorem recount (hc : Coherent c hand) (lru : List BufId) (hmem : ∀ j, j ∈ lru)
    (hfound : ∀ j, ¬ (c.buf j).Blank ∨ j = i →
      lru.find? (fun j' => (c.buf j').key = (c.buf j).key) = some j)
    (hbuf : ∀ j, j ≠ i → mark (hand w).buf j = mark h.buf j)
    (hrefcnt : b.refcnt + mark (hand w).buf i = (c.buf i).refcnt + mark h.buf i)
    (howned : (hand w).owned = none ∧ h.owned = none)
    (hon : ∀ k' j, h.on = some (k', j) → j = i ∧ (c.buf i).key = k')
    (hb : b = { c.buf i with refcnt := b.refcnt }) :
    Coherent { c.set i b with lru := lru } (update hand w h) := by
  have hkey : b.key = (c.buf i).key := by rw [hb]
  have hvalid : b.valid = (c.buf i).valid := by rw [hb]
  have hdirty : b.dirty = (c.buf i).dirty := by rw [hb]
  have hdata : b.data = (c.buf i).data := by rw [hb]
  have hno : ∀ j, ¬ (hand w).Touches j := fun j hw => nomatch howned.1.symm.trans hw.full.owned
  refine hc.change lru c.disk hmem (fun j hj => ?_) (count_update hrefcnt hbuf)
    (count_update (n := fun y => y.locked.toNat) ?_ fun _ _ => ?_) (fun k' j hw => ?_)
    (fun w' k' hw _ => ⟨hkey.trans (hc.key w' k' i hw), fun hv => hvalid.trans hv⟩)
    (by rw [hdirty, hvalid]; exact hc.dirty i) (fun hv hd _ ht => ?_) (fun j hw => absurd hw (hno j))
    fun _ _ _ => rfl
  · simp only [Cache.key_update hkey]
    refine hfound j ?_
    by_cases hji : j = i
    · exact .inr hji
    · rw [update_of_ne hji] at hj
      exact .inl hj
  · rw [howned.1, howned.2, hb]
  · rw [howned.1, howned.2]
  · obtain ⟨hj, hk⟩ := hon k' j hw
    exact ⟨hj, hkey.trans hk, fun hfull => nomatch howned.2.symm.trans hfull.owned⟩
  · rw [hdata, hkey]
    refine hc.clean i (hvalid ▸ hv) (hdirty ▸ hd) fun w' => ?_
    by_cases hww : w' = w
    · exact hww ▸ hno i
    · exact ht w' hww

/-- **`bget` finds the block…** -/
theorem hit (hc : Coherent c hand) (hw : hand w = .none) (hf : c.find k = some i) :
    Coherent (c.hit i) (update hand w (.waiting k i)) := by
  have hkey : (c.buf i).key = k := Cache.key_of_find hf
  refine hc.recount c.lru hc.mem (fun j hj => ?_) (fun j hj => ?_) ?_ (by rw [hw]; exact ⟨rfl, rfl⟩)
    (fun k' j hon => ?_) rfl
  · rcases hj with hj | rfl
    · exact hc.found j hj
    · rw [hkey]
      exact hf
  · rw [hw]
    exact (mark_of_ne (Ne.symm hj)).symm
  · rw [hw]
    exact congrArg ((c.buf i).refcnt + ·) (mark_self i).symm
  · obtain ⟨rfl, rfl⟩ := Prod.mk.inj (Option.some.inj hon)
    exact ⟨rfl, hkey⟩

/-- **…or puts it in the place of one that nobody needs.** -/
theorem recycle (hc : Coherent c hand) (hw : hand w = .none) (hf : c.find k = none)
    (hidle : (c.buf i).refcnt = 0) : Coherent (c.recycle k i) (update hand w (.waiting k i)) := by
  have hkeys : ∀ j, (c.buf j).key ≠ k := Cache.key_of_find_none hc.mem hf
  refine hc.change c.lru c.disk hc.mem (fun j hj => ?_) (count_update ?_ fun j hj => ?_)
    (count_update (n := fun y => y.locked.toNat) (by rw [hw]; rfl) fun _ _ => by rw [hw]; rfl)
    (fun k' j hon => ?_) (fun w' k' hon _ => ?_) nofun nofun (by rw [hw]; exact fun _ ⟨_, he⟩ => nomatch he)
    fun _ _ _ => rfl
  · by_cases hji : j = i
    · rw [hji, update_self]
      refine find_of_unique (hc.mem i) (by simp) fun j' hj' => ?_
      by_contra hne
      rw [decide_eq_true_eq, update_of_ne hne] at hj'
      exact hkeys j' hj'
    · rw [update_of_ne hji] at hj ⊢
      refine find_of_imp (hc.found j hj) (fun j' hj' => ?_) (by simp [hji])
      have hne : j' ≠ i := by
        rintro rfl
        rw [decide_eq_true_eq, update_self] at hj'
        exact hkeys j hj'.symm
      rw [decide_eq_true_eq, update_of_ne hne] at hj'
      exact decide_eq_true hj'
  · rw [hw, hidle]
    exact (Nat.zero_add _).symm ▸ (mark_self i).symm
  · rw [hw]
    exact (mark_of_ne (Ne.symm hj)).symm
  · obtain ⟨rfl, rfl⟩ := Prod.mk.inj (Option.some.inj hon)
    exact ⟨rfl, rfl, fun ⟨_, he⟩ => nomatch he⟩
  · exact absurd hidle (hc.refcnt_pos hon).ne'

/-- **`brelse`**: the count goes down, and a buffer that nobody has goes to the front. -/
theorem drop (hc : Coherent c hand) (hw : hand w = .leaving k i) :
    Coherent (c.drop i) (update hand w .none) := by
  have hon : (hand w).on = some (k, i) := by rw [hw]; rfl
  have hpos := hc.refcnt_pos hon
  have hmove : ∀ lru : List BufId, (∀ j, j ∈ lru) →
      (∀ j, ¬ (c.buf j).Blank → lru.find? (fun j' => (c.buf j').key = (c.buf j).key) = some j) →
      Coherent { c.set i { c.buf i with refcnt := (c.buf i).refcnt - 1 } with lru := lru }
        (update hand w .none) := by
    intro lru hmem hfound
    refine hc.recount _ hmem (fun j hj => hfound j ?_) (fun j hj => ?_) ?_ (by rw [hw]; exact ⟨rfl, rfl⟩) nofun
      rfl
    · rcases hj with hj | rfl
      · exact hj
      · exact hc.not_blank hon
    · rw [hw]
      exact mark_of_ne (Ne.symm hj)
    · rw [hw]
      exact (congrArg ((c.buf i).refcnt - 1 + ·) (mark_self i)).trans (Nat.sub_add_cancel hpos)
  rw [Cache.drop]
  split_ifs
  · refine hmove (i :: c.lru.erase i) (fun j => ?_) fun j hj => ?_
    · by_cases hji : j = i
      · exact hji ▸ List.mem_cons_self
      · exact List.mem_cons_of_mem _ ((List.mem_erase_of_ne hji).mpr (hc.mem j))
    · by_cases hkey : (c.buf i).key = (c.buf j).key
      · rw [List.find?_cons_of_pos (by simpa using hkey), hc.unique (hc.not_blank hon) hj hkey]
      · rw [List.find?_cons_of_neg (by simpa using hkey), find_erase (by simpa using hkey)]
        exact hc.found j hj
  · exact hmove c.lru hc.mem hc.found

end Coherent

end Hands

/-! ## At first -/

section Start

variable {P H : Type} [Fintype H] {s : State P H}

theorem Coherent.of_start (h : Start s) : Coherent s.cache s.hand := by
  have hhand : s.hand = fun _ => .none := funext h.hand
  refine ⟨h.mem, fun i hi => ?_, fun i => ?_, fun i => ?_, fun w k i hw => ?_, fun w i hw => ?_, fun i hd => ?_,
    fun i hv _ _ => (h.clean i hv).2⟩
  · refine (h.clean i (Bool.eq_true_of_not_eq_false fun hv => hi ?_)).1
    exact ⟨(h.idle i).1, hv, (h.idle i).2.2⟩
  · rw [hhand, (h.idle i).1]
    exact (places_none i).symm
  · rw [hhand, (h.idle i).2.1]
    exact (places_none i).symm
  · rw [h.hand w] at hw
    exact nomatch hw
  · rw [h.hand w] at hw
    exact nomatch hw.owned
  · exact nomatch (h.idle i).2.2.symm.trans hd

end Start

/-! ## The value of a block -/

/-- **What `bread` would return.** -/
def Cache.view (c : Cache) (k : Key) : Block :=
  match c.find k with
  | some i => if (c.buf i).valid = true then (c.buf i).data else c.disk k
  | none => c.disk k

section View

variable {H : Type} [Fintype H] {hand hand' : Who H → Hand} {w : Who H} {h : Hand}

/-- A block with a valid buffer… -/
theorem Coherent.view_of_valid (hc : Coherent c hand) (hv : (c.buf i).valid = true)
    (hk : (c.buf i).key = k) : c.view k = (c.buf i).data := by
  have hf := hc.found i (not_blank_of_valid hv)
  rw [hk] at hf
  rw [Cache.view, hf]
  exact if_pos hv

/-- …and one without. -/
theorem view_of_not_valid (h : ∀ i, (c.buf i).key = k → (c.buf i).valid = false) :
    c.view k = c.disk k := by
  rw [Cache.view]
  cases hf : c.find k with
  | none => rfl
  | some i => exact if_neg (by rw [h i (Cache.key_of_find hf)]; exact nofun)

/-- Blocks whose buffers have not been written. -/
theorem Coherent.view_congr (hc : Coherent c hand) (hc' : Coherent c' hand')
    (hbuf : ∀ j, ((c.buf j).key = k ∧ (c.buf j).valid = true) ∨ ((c'.buf j).key = k ∧ (c'.buf j).valid = true) →
      (c'.buf j).key = (c.buf j).key ∧ (c'.buf j).valid = (c.buf j).valid
        ∧ (c'.buf j).data = (c.buf j).data)
    (hdisk : c'.disk k = c.disk k) : c'.view k = c.view k := by
  by_cases hex : ∃ i, (c.buf i).key = k ∧ (c.buf i).valid = true
  · obtain ⟨i, hk, hv⟩ := hex
    obtain ⟨hkey, hvalid, hdata⟩ := hbuf i (.inl ⟨hk, hv⟩)
    rw [hc.view_of_valid hv hk, hc'.view_of_valid (hvalid.trans hv) (hkey.trans hk), hdata]
  · have hno : ∀ i, (c.buf i).key = k → (c.buf i).valid = false := fun i hk =>
      Bool.eq_false_of_not_eq_true fun hv => hex ⟨i, hk, hv⟩
    have hno' : ∀ i, (c'.buf i).key = k → (c'.buf i).valid = false := fun i hk =>
      Bool.eq_false_of_not_eq_true fun hv => by
        obtain ⟨hkey, hvalid, -⟩ := hbuf i (.inr ⟨hk, hv⟩)
        exact hex ⟨i, hkey.symm.trans hk, hvalid.symm.trans hv⟩
    rw [view_of_not_valid hno, view_of_not_valid hno', hdisk]

/-- Flags and counts do not matter. -/
theorem Coherent.view_same (hc : Coherent c hand) (hc' : Coherent c' hand')
    (hbuf : ∀ j, (c'.buf j).key = (c.buf j).key ∧ (c'.buf j).valid = (c.buf j).valid
      ∧ (c'.buf j).data = (c.buf j).data)
    (hdisk : c'.disk = c.disk) : c'.view = c.view :=
  funext fun k => hc.view_congr hc' (fun j _ => hbuf j) (congrFun hdisk k)

/-- Other blocks than that of the buffer do not matter. -/
theorem Coherent.view_of_ne (hc : Coherent c hand) (hc' : Coherent c' hand')
    (hbuf : ∀ j, j ≠ i → c'.buf j = c.buf j) (hkey : (c'.buf i).key = (c.buf i).key)
    (hk : k ≠ (c.buf i).key) (hdisk : c'.disk k = c.disk k) : c'.view k = c.view k := by
  refine hc.view_congr hc' (fun j hj => ?_) hdisk
  have hji : j ≠ i := by
    rintro rfl
    rcases hj with ⟨hj, -⟩ | ⟨hj, -⟩
    · exact hk hj.symm
    · exact hk (hj.symm.trans hkey)
  rw [hbuf j hji]
  exact ⟨rfl, rfl, rfl⟩

/-- A buffer without data, of which there is no other. -/
theorem Coherent.view_of_loading (hc : Coherent c hand) (hon : (hand w).on = some (k, i))
    (hv : (c.buf i).valid = false) : c.view (c.buf i).key = c.disk (c.buf i).key := by
  refine view_of_not_valid fun j hj => Bool.eq_false_of_not_eq_true fun hvj => ?_
  rw [hc.unique (not_blank_of_valid hvj) (hc.not_blank hon) hj, hv] at hvj
  exact nomatch hvj

end View

end Xv6.Bcache
