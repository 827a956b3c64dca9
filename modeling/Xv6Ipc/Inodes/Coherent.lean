import Xv6Ipc.Inodes.Uses
import Xv6Ipc.Machinery.Tally

/-!
# Inodes/Coherent — the inode cache is coherent

An inode has at most one entry in use, an entry is in use as long as there are references to it, and where
nobody has its lock its fields are those on disk:

    refs to e = ref e        key e = key e' ⟹ e = e'        unlocked, valid ⟹ din e = disk (key e)

Each use keeps what it knows; the others cannot touch it, since they do not have the lock, and since
`ialloc` takes only inodes that are free on disk.
-/

namespace Xv6.Icache

open Function

open Fs (Kind Dinode NDIRECT BSIZE MAXFILE NINODE)
open Runs Tally

variable {A R : Type} [Fintype A] [Fintype R] {s s' s₀ : State A R} {ev : Event A R} {a b : A} {r : R}
  {e e' : Ino} {k : Key} {c : Ino → Entry} {x : Entry}

/-! ## `iget` -/

/-- **`iget`**: the entry of the inode, or one that is not in use. -/
theorem iget_spec {entry : Ino → Entry} (h : iget entry k = some (e, c)) :
    ((0 < (entry e).ref ∧ (entry e).key = k)
        ∧ c = update entry e { entry e with ref := (entry e).ref + 1 })
      ∨ ((entry e).ref = 0 ∧ ∀ e', 0 < (entry e').ref → (entry e').key ≠ k)
        ∧ c = update entry e { entry e with key := k, ref := 1, valid := false } := by
  rw [iget] at h
  cases hf : (List.finRange NINODE).find? fun e => 0 < (entry e).ref ∧ (entry e).key = k with
  | some e₁ =>
    rw [hf] at h
    obtain ⟨rfl, rfl⟩ := Prod.mk.inj (Option.some.inj h)
    exact .inl ⟨by simpa using List.find?_some hf, rfl⟩
  | none =>
    rw [hf] at h
    obtain ⟨e₁, he₁, heq⟩ := Option.map_eq_some_iff.mp h
    obtain ⟨rfl, rfl⟩ := Prod.mk.inj heq
    refine .inr ⟨⟨by simpa using List.find?_some he₁, fun e' href hkey => ?_⟩, rfl⟩
    have := List.find?_eq_none.mp hf e' (List.mem_finRange e')
    simp [href, hkey] at this

/-! ## The invariant -/

/-- The entry whose lock a use has. -/
def owned (o : Option (Use R)) : Option Ino := o.bind fun u => if u.stage.owns = true then some u.ip else none

/-- **The cache is sound.** -/
structure Sound (s : State A R) : Prop where
  ref : ∀ e, (s.entry e).ref = places s.hand e
  unique : ∀ e e', 0 < (s.entry e).ref → 0 < (s.entry e').ref → (s.entry e).key = (s.entry e').key → e = e'
  use : ∀ a u, s.use a = some u → s.hand u.ref = some u.ip
  locked : ∀ e, (s.entry e).locked.toNat = places (fun a => owned (s.use a)) e
  put : ∀ a b u v, s.use a = some u → s.use b = some v → u.stage.putting = true → u.ref = v.ref → a = b
  fits : ∀ a u, s.use a = some u → Fits (s.entry u.ip) (s.disk (s.entry u.ip).key) u.stage
  same : ∀ e, 0 < (s.entry e).ref → (s.entry e).locked = false → (s.entry e).valid = true →
    Same (s.entry e) (s.disk (s.entry e).key)
  solid : ∀ k, Solid (s.disk k)

namespace Sound

theorem of_start (h : Start s) : Sound s := by
  have hhand : s.hand = fun _ => none := funext h.hand
  have huse : s.use = fun _ => none := funext h.use
  refine ⟨fun e => ?_, fun e e' he => ?_, fun a u ha => ?_, fun e => ?_, fun a b u v ha => ?_,
    fun a u ha => ?_, fun e he => ?_, h.disk⟩
  · rw [hhand, (h.entry e).1, places_none]
  · exact absurd (h.entry e).1 he.ne'
  · exact nomatch (h.use a).symm.trans ha
  · rw [huse, (h.entry e).2]
    exact (places_none e).symm
  · exact nomatch (h.use a).symm.trans ha
  · exact nomatch (h.use a).symm.trans ha
  · exact absurd (h.entry e).1 he.ne'

/-- A reference keeps its entry in use. -/
theorem ref_pos (hs : Sound s) (hr : s.hand r = some e) : 0 < (s.entry e).ref := by
  rw [hs.ref]
  exact places_pos hr

theorem ref_pos_of_use (hs : Sound s) {u : Use R} (ha : s.use a = some u) : 0 < (s.entry u.ip).ref :=
  hs.ref_pos (hs.use a u ha)

section Hand

variable [DecidableEq R]

omit [Fintype A] in
/-- One more reference. -/
theorem places_hand (hr : s.hand r = none) (e e' : Ino) :
    places (update s.hand r (some e)) e' = places s.hand e' + mark (some e) e' := by
  have hsum := places_update s.hand r (some e) e'
  rwa [hr, mark_none, Nat.add_zero] at hsum

/-- References that exist are not written. -/
theorem hand_update (hs : Sound s) {u : Use R} (hr : s.hand r = none) (ha : s.use a = some u) :
    update s.hand r (some e) u.ref = some u.ip := by
  have hne : u.ref ≠ r := by
    rintro rfl
    exact nomatch hr.symm.trans (hs.use a u ha)
  rw [update_of_ne hne]
  exact hs.use a u ha

/-- **`iget` of an inode in use, and `idup`.** -/
theorem gain (hs : Sound s) (hr : s.hand r = none) (he : 0 < (s.entry e).ref)
    (hentry : s'.entry = update s.entry e { s.entry e with ref := (s.entry e).ref + 1 })
    (hdisk : s'.disk = s.disk) (hhand : s'.hand = update s.hand r (some e))
    (huse : s'.use = s.use) : Sound s' := by
  have hold : ∀ e', (s'.entry e').key = (s.entry e').key ∧ (s'.entry e').locked = (s.entry e').locked
      ∧ (s'.entry e').valid = (s.entry e').valid ∧ (s'.entry e').din = (s.entry e').din
      ∧ (s'.entry e').ref = (s.entry e').ref + mark (some e) e' := by
    intro e'
    rw [hentry]
    by_cases hee : e' = e
    · rw [hee, update_self, mark_self]
      exact ⟨rfl, rfl, rfl, rfl, rfl⟩
    · rw [update_of_ne hee, mark_of_ne (Ne.symm hee)]
      exact ⟨rfl, rfl, rfl, rfl, rfl⟩
  have hpos : ∀ e', 0 < (s'.entry e').ref → 0 < (s.entry e').ref := by
    intro e' href
    by_cases hee : e' = e
    · rwa [hee]
    · rw [(hold e').2.2.2.2, mark_of_ne (Ne.symm hee)] at href
      exact href
  refine ⟨fun e' => ?_, fun e₁ e₂ h₁ h₂ hkey => ?_, ?_, fun e' => ?_, ?_, ?_, fun e' href hl hv => ?_, ?_⟩
  · rw [hhand, places_hand hr, ← hs.ref]
    exact (hold e').2.2.2.2
  · refine hs.unique e₁ e₂ (hpos e₁ h₁) (hpos e₂ h₂) ?_
    rwa [← (hold e₁).1, ← (hold e₂).1]
  · rw [hhand, huse]
    exact fun a u ha => hs.hand_update hr ha
  · rw [huse, ← hs.locked, (hold e').2.1]
  · rw [huse]
    exact hs.put
  · rw [huse, hdisk]
    intro a u ha
    obtain ⟨hkey, -, hvalid, hdin, -⟩ := hold u.ip
    rw [hkey]
    exact (hs.fits a u ha).of_ref hvalid hdin
  · obtain ⟨hkey, hlocked, hvalid, hdin, -⟩ := hold e'
    obtain ⟨hsame, htype⟩ := hs.same e' (hpos e' href) (hlocked ▸ hl) (hvalid ▸ hv)
    rw [hkey, hdisk]
    exact ⟨hdin.trans hsame, htype⟩
  · rw [hdisk]
    exact hs.solid

/-- **`iget` of another inode.** -/
theorem recycle (hs : Sound s) (hr : s.hand r = none) (he : (s.entry e).ref = 0)
    (hk : ∀ e', 0 < (s.entry e').ref → (s.entry e').key ≠ k)
    (hentry : s'.entry = update s.entry e { s.entry e with key := k, ref := 1, valid := false })
    (hdisk : s'.disk = s.disk) (hhand : s'.hand = update s.hand r (some e))
    (huse : s'.use = s.use) : Sound s' := by
  have hother : ∀ e', e' ≠ e → s'.entry e' = s.entry e' := fun e' hee => by
    rw [hentry, update_of_ne hee]
  have hself : s'.entry e = { s.entry e with key := k, ref := 1, valid := false } := by
    rw [hentry, update_self]
  have hne : ∀ e', 0 < (s.entry e').ref → e' ≠ e := by
    rintro e' href rfl
    exact href.ne' he
  refine ⟨fun e' => ?_, fun e₁ e₂ h₁ h₂ hkey => ?_, ?_, fun e' => ?_, ?_, ?_, fun e' href hl hv => ?_, ?_⟩
  · rw [hhand, places_hand hr, ← hs.ref]
    by_cases hee : e' = e
    · rw [hee, hself, mark_self, he]
    · rw [hother e' hee, mark_of_ne (Ne.symm hee), Nat.add_zero]
  · -- no entry in use had the key
    by_cases he₁ : e₁ = e <;> by_cases he₂ : e₂ = e
    · rw [he₁, he₂]
    · rw [he₁, hself, hother e₂ he₂] at hkey
      rw [hother e₂ he₂] at h₂
      exact absurd hkey.symm (hk e₂ h₂)
    · rw [he₂, hself, hother e₁ he₁] at hkey
      rw [hother e₁ he₁] at h₁
      exact absurd hkey (hk e₁ h₁)
    · rw [hother e₁ he₁] at h₁ hkey
      rw [hother e₂ he₂] at h₂ hkey
      exact hs.unique e₁ e₂ h₁ h₂ hkey
  · rw [hhand, huse]
    exact fun a u ha => hs.hand_update hr ha
  · rw [huse, ← hs.locked]
    by_cases hee : e' = e
    · rw [hee, hself]
    · rw [hother e' hee]
  · rw [huse]
    exact hs.put
  · rw [huse, hdisk]
    intro a u ha
    rw [hother u.ip (hne _ (hs.ref_pos_of_use ha))]
    exact hs.fits a u ha
  · by_cases hee : e' = e
    · rw [hee, hself] at hv
      exact nomatch hv
    · rw [hother e' hee] at href hl hv ⊢
      rw [hdisk]
      exact hs.same e' href hl hv
  · rw [hdisk]
    exact hs.solid

end Hand

/-- **`ialloc`** takes an inode that nobody knows anything about. -/
theorem ialloc (hs : Sound s) {type : Kind} (hfree : (s.disk k).type = .none)
    (hentry : s'.entry = s.entry)
    (hdisk : s'.disk = update s.disk k { Dinode.zero with type := type })
    (hhand : s'.hand = s.hand) (huse : s'.use = s.use) : Sound s' := by
  have hother : ∀ k', k' ≠ k → s'.disk k' = s.disk k' := fun k' hkk => by
    rw [hdisk, update_of_ne hkk]
  refine ⟨?_, ?_, ?_, ?_, ?_, ?_, ?_, fun k' => ?_⟩
  · rw [hentry, hhand]
    exact hs.ref
  · rw [hentry]
    exact hs.unique
  · rw [huse, hhand]
    exact hs.use
  · rw [hentry, huse]
    exact hs.locked
  · rw [huse]
    exact hs.put
  · rw [huse, hentry]
    intro a u ha
    have hfits := hs.fits a u ha
    by_cases hkk : (s.entry u.ip).key = k
    · rw [hkk] at hfits
      exact hfits.of_free hfree _
    · rwa [hother _ hkk]
  · rw [hentry]
    intro e href hl hv
    have hsame := hs.same e href hl hv
    by_cases hkk : (s.entry e).key = k
    · rw [hkk] at hsame
      exact absurd hfree hsame.2
    · rwa [hother _ hkk]
  · by_cases hkk : k' = k
    · rw [hkk, hdisk, update_self]
      exact fun bn hbn => absurd hbn (Nat.not_lt_zero _)
    · rw [hother k' hkk]
      exact hs.solid k'

section Use

variable [DecidableEq A]

/-- **`ilock` and `iput` begin.** -/
theorem begin {p : Bool} (hs : Sound s) (ha : s.use a = none) (hr : s.hand r = some e)
    (hput : ∀ b u, s.use b = some u → u.ref = r → u.stage.putting = false ∧ p = false)
    (hentry : s'.entry = s.entry) (hdisk : s'.disk = s.disk) (hhand : s'.hand = s.hand)
    (huse : s'.use = update s.use a (some ⟨r, e, .wait p⟩)) : Sound s' := by
  have hcase : ∀ b u, s'.use b = some u → (b = a ∧ u = ⟨r, e, .wait p⟩) ∨ b ≠ a ∧ s.use b = some u := by
    intro b u hb
    rw [huse] at hb
    by_cases hba : b = a
    · rw [hba, update_self] at hb
      exact .inl ⟨hba, (Option.some.inj hb).symm⟩
    · rw [update_of_ne hba] at hb
      exact .inr ⟨hba, hb⟩
  refine ⟨?_, ?_, fun b u hb => ?_, fun e' => ?_, fun b b' u v hb hb' hp href => ?_, fun b u hb => ?_, ?_, ?_⟩
  · rw [hentry, hhand]
    exact hs.ref
  · rw [hentry]
    exact hs.unique
  · rw [hhand]
    rcases hcase b u hb with ⟨-, rfl⟩ | ⟨-, hb⟩
    · exact hr
    · exact hs.use b u hb
  · have hsum := places_apply_update owned s.use a (some ⟨r, e, .wait p⟩) e'
    rw [ha] at hsum
    rw [hentry, huse, hs.locked]
    exact (Nat.add_right_cancel hsum).symm
  · rcases hcase b u hb with ⟨rfl, rfl⟩ | ⟨hba, hb⟩ <;> rcases hcase b' v hb' with ⟨rfl, rfl⟩ | ⟨hba', hb'⟩
    · rfl
    · exact nomatch (hput b' v hb' href.symm).2.symm.trans hp
    · exact nomatch (hput b u hb href).1.symm.trans hp
    · exact hs.put b b' u v hb hb' hp href
  · rw [hentry, hdisk]
    rcases hcase b u hb with ⟨-, rfl⟩ | ⟨-, hb⟩
    · trivial
    · exact hs.fits b u hb
  · rw [hentry, hdisk]
    exact hs.same
  · rw [hdisk]
    exact hs.solid

omit [Fintype R] [DecidableEq A] in
theorem mark_owned (o : Option Stage) (r : R) (e e' : Ino) :
    mark (owned (o.map (Use.mk r e))) e' = if e' = e then (o.elim false Stage.owns).toNat else 0 := by
  cases o with
  | none => split <;> rfl
  | some σ =>
    cases hσ : σ.owns with
    | false =>
      have howned : owned (some (Use.mk r e σ)) = none := if_neg (by rw [hσ]; exact nofun)
      rw [Option.map_some, howned, Option.elim_some, hσ]
      split <;> rfl
    | true =>
      have howned : owned (some (Use.mk r e σ)) = some e := if_pos hσ
      rw [Option.map_some, howned, Option.elim_some, hσ, mark]
      exact if_congr ⟨fun he => (Option.some.inj he).symm, fun he => congrArg some he.symm⟩ rfl rfl

omit [DecidableEq A] in
/-- Whoever owns a lock has locked the entry… -/
theorem locked_of_owns (hs : Sound s) {u : Use R} (ha : s.use a = some u) (hu : u.stage.owns = true) :
    (s.entry u.ip).locked = true := by
  have hpos := places_pos (g := fun a => owned (s.use a)) (i := a) (a := u.ip)
    (by rw [ha]; exact if_pos hu)
  rw [← hs.locked] at hpos
  exact Bool.eq_true_of_not_eq_false fun hno => by
    rw [hno] at hpos
    exact Nat.lt_irrefl 0 hpos

/-- …alone. -/
theorem owner_unique (hs : Sound s) {u v : Use R} (ha : s.use a = some u) (hb : s.use b = some v)
    (hu : u.stage.owns = true) (hv : v.stage.owns = true) (hip : v.ip = u.ip) : b = a := by
  by_contra hne
  have htwo := two_le_places (g := fun a => owned (s.use a)) (a := u.ip) hne
    (by rw [hb, ← hip]; exact if_pos hv) (by rw [ha]; exact if_pos hu)
  rw [← hs.locked] at htwo
  exact absurd (Bool.toNat_le _) (Nat.not_le.mpr htwo)

variable [DecidableEq R]

/-- **A use takes a step.** -/
theorem move (hs : Sound s) {u : Use R} {o : Option Stage} {d : Dinode} (ha : s.use a = some u)
    (hm : Move u.stage (s.entry u.ip) (s.disk (s.entry u.ip).key) o x d)
    (hentry : s'.entry = update s.entry u.ip x)
    (hdisk : s'.disk = update s.disk (s.entry u.ip).key d)
    (hhand : s'.hand = if u.stage = .drop then update s.hand u.ref none else s.hand)
    (huse : s'.use = update s.use a (o.map (Use.mk u.ref u.ip))) : Sound s' := by
  obtain ⟨hkey, hstage, href⟩ := hm.frame
  have hpos := hs.ref_pos_of_use ha
  have hlock : u.stage.owns = true → (s.entry u.ip).locked = true := hs.locked_of_owns ha
  have hself : s'.entry u.ip = x := by rw [hentry, update_self]
  have hother : ∀ e, e ≠ u.ip → s'.entry e = s.entry e := fun e he => by
    rw [hentry, update_of_ne he]
  have hkeys : ∀ e, (s'.entry e).key = (s.entry e).key := by
    intro e
    by_cases he : e = u.ip
    · rw [he, hself, hkey]
    · rw [hother e he]
  have hle : ∀ e, (s'.entry e).ref ≤ (s.entry e).ref := by
    intro e
    by_cases he : e = u.ip
    · rw [he, hself, href]
      split
      · exact Nat.sub_le _ _
      · exact Nat.le_refl _
    · rw [hother e he]
  -- other inodes on disk are not written
  have hdisk' : ∀ e, e ≠ u.ip → 0 < (s.entry e).ref → s'.disk (s.entry e).key = s.disk (s.entry e).key := by
    intro e he hrefe
    rw [hdisk, update_of_ne]
    exact fun hk => he (hs.unique e u.ip hrefe hpos hk)
  have hdiskself : s'.disk (s.entry u.ip).key = d := by rw [hdisk, update_self]
  have hcase : ∀ b v, s'.use b = some v →
      (b = a ∧ ∃ σ, o = some σ ∧ v = ⟨u.ref, u.ip, σ⟩) ∨ b ≠ a ∧ s.use b = some v := by
    intro b v hb
    rw [huse] at hb
    by_cases hba : b = a
    · rw [hba, update_self] at hb
      obtain ⟨σ, ho, hv⟩ := Option.map_eq_some_iff.mp hb
      exact .inl ⟨hba, σ, ho, hv.symm⟩
    · rw [update_of_ne hba] at hb
      exact .inr ⟨hba, hb⟩
  obtain ⟨hfits, hsolid⟩ := hm.fits (hs.solid _) (hs.fits a u ha) fun _ hl hv => hs.same u.ip hpos hl hv
  refine ⟨fun e => ?_, fun e₁ e₂ h₁ h₂ hk => ?_, fun b v hb => ?_, fun e => ?_, fun b b' v v' hb hb' hp hr => ?_,
    fun b v hb => ?_, fun e hrefe hl hv => ?_, fun k => ?_⟩
  · rw [hhand]
    by_cases hdrop : u.stage = .drop
    · have hsum := places_update s.hand u.ref none e
      rw [hs.use a u ha, mark_none, Nat.add_zero, ← hs.ref] at hsum
      rw [if_pos hdrop]
      by_cases he : e = u.ip
      · rw [he, mark_self] at hsum
        rw [he, hself, href, if_pos hdrop, ← hsum]
        exact Nat.add_sub_cancel _ 1
      · rw [mark_of_ne (Ne.symm he), Nat.add_zero] at hsum
        rw [hother e he, hsum]
    · rw [if_neg hdrop, ← hs.ref]
      by_cases he : e = u.ip
      · rw [he, hself, href, if_neg hdrop]
      · rw [hother e he]
  · refine hs.unique e₁ e₂ (Nat.lt_of_lt_of_le h₁ (hle e₁)) (Nat.lt_of_lt_of_le h₂ (hle e₂)) ?_
    rwa [← hkeys e₁, ← hkeys e₂]
  · rw [hhand]
    rcases hcase b v hb with ⟨-, σ, ho, rfl⟩ | ⟨hba, hb⟩
    · rw [if_neg (hstage σ ho).2]
      exact hs.use a u ha
    · split
      · -- whoever drops a reference is alone with it
        rename_i hdrop
        rw [update_of_ne]
        · exact hs.use b v hb
        · exact fun hr => hba (hs.put a b u v ha hb (by rw [hdrop]; rfl) hr.symm).symm
      · exact hs.use b v hb
  · have hsum := places_apply_update owned s.use a (o.map (Use.mk u.ref u.ip)) e
    have hu : s.use a = (some u.stage).map (Use.mk u.ref u.ip) := ha
    rw [hu, mark_owned, mark_owned, ← hs.locked] at hsum
    rw [huse]
    by_cases he : e = u.ip
    · rw [he, if_pos rfl, if_pos rfl] at hsum
      rw [he, hself]
      exact Nat.add_right_cancel ((hm.locked hlock).trans hsum.symm)
    · rw [if_neg he, if_neg he] at hsum
      rw [hother e he]
      exact hsum.symm
  · rcases hcase b v hb with ⟨rfl, σ, ho, rfl⟩ | ⟨hba, hb⟩ <;>
      rcases hcase b' v' hb' with ⟨rfl, σ', ho', rfl⟩ | ⟨hba', hb'⟩
    · rfl
    · exact hs.put _ b' u v' ha hb' ((hstage σ ho).1 ▸ hp) hr
    · exact hs.put b _ v u hb ha hp hr
    · exact hs.put b b' v v' hb hb' hp hr
  · rw [hkeys]
    rcases hcase b v hb with ⟨-, σ, ho, rfl⟩ | ⟨hba, hb⟩
    · rw [hself, hdiskself]
      exact hfits σ ho
    · by_cases hip : v.ip = u.ip
      · -- of two uses of one entry, one at most has the lock
        cases hv : v.stage.owns with
        | false => exact .of_not_owns hv
        | true =>
          have hu : u.stage.owns = false := Bool.eq_false_of_not_eq_true fun hu =>
            hba (hs.owner_unique ha hb hu hv hip)
          obtain ⟨hvalid, hdin, hd⟩ := hm.of_not_owns hu
          have hfit := hs.fits b v hb
          rw [hip] at hfit ⊢
          rw [hself, hdiskself, hd]
          exact hfit.of_ref hvalid hdin
      · rw [hother _ hip, hdisk' _ hip (hs.ref_pos_of_use hb)]
        exact hs.fits b v hb
  · rw [hkeys]
    by_cases he : e = u.ip
    · rw [he, hself] at hrefe hl hv
      rw [he, hself, hdiskself]
      exact hm.same (hs.fits a u ha) hlock (fun hl hv hr => hs.same u.ip hr hl hv) hl hv hrefe
    · rw [hother e he] at hrefe hl hv ⊢
      rw [hdisk' e he hrefe]
      exact hs.same e hrefe hl hv
  · rw [hdisk]
    by_cases hk : k = (s.entry u.ip).key
    · rw [hk, update_self]
      exact hsolid
    · rw [update_of_ne hk]
      exact hs.solid k

/-- **Every step keeps the cache sound.** -/
theorem step (hs : Sound s) (h : Step s ev s') : Sound s' := by
  cases h with
  | iget hr hget =>
    rcases iget_spec hget with ⟨⟨href, -⟩, rfl⟩ | ⟨⟨href, hk⟩, rfl⟩
    · exact hs.gain hr href rfl rfl rfl rfl
    · exact hs.recycle hr href hk rfl rfl rfl rfl
  | idup hr _ hr' => exact hs.gain hr' (hs.ref_pos hr) rfl rfl rfl rfl
  | ilock ha hr hput => exact hs.begin ha hr (fun b u hb hu => ⟨hput b u hb hu, rfl⟩) rfl rfl rfl rfl
  | iput ha hr halone => exact hs.begin ha hr (fun b u hb hu => absurd hu (halone b u hb)) rfl rfl rfl rfl
  | ialloc type hfree _ => exact hs.ialloc hfree rfl rfl rfl rfl
  | move ha hm => exact hs.move ha hm rfl rfl rfl rfl

end Use

end Sound

/-! ## Every run -/

variable [DecidableEq A] [DecidableEq R]

/-- **The inode cache is coherent.**  An inode has at most one entry in use, an entry is in use as often as
there are references to it, and the fields of an entry that is valid, in use and not locked are those of the
inode on disk. -/
theorem inode_cache_coherent (h₀ : Start s₀) {evs : List (Event A R)} (h : Trace Step s₀ evs s) :
    (∀ e e', 0 < (s.entry e).ref → 0 < (s.entry e').ref → (s.entry e).key = (s.entry e').key → e = e')
      ∧ (∀ e, (s.entry e).ref = (Finset.univ.filter fun r => s.hand r = some e).card)
      ∧ ∀ e, (s.entry e).valid = true → 0 < (s.entry e).ref → (s.entry e).locked = false →
        (s.entry e).din = s.disk (s.entry e).key := by
  have hs : Sound s := h.keeps (P := Sound) (.of_start h₀) fun _ _ _ _ hs hstep => hs.step hstep
  refine ⟨hs.unique, fun e => ?_, fun e hv href hl => (hs.same e href hl hv).1⟩
  rw [hs.ref, places_eq_card]

/-- A disk with one file, of no bytes, and nothing cached. -/
def oneFile : State Unit Unit :=
  ⟨fun _ => ⟨⟨0, 0⟩, 0, false, false, .zero⟩, fun k => if k = ⟨1, 2⟩ then { Dinode.zero with type := .file } else .zero,
    fun _ => none, fun _ => none⟩

theorem start_oneFile : Start oneFile := by
  refine ⟨fun _ => ⟨rfl, rfl⟩, fun k bn hbn => ?_, fun _ => rfl, fun _ => rfl⟩
  have hsize : (oneFile.disk k).size = 0 := by
    simp only [oneFile]
    split <;> rfl
  rw [hsize] at hbn
  exact absurd hbn (Nat.not_lt_zero _)

/-- A link is made to it. -/
theorem trace_link : ∃ evs s e, Trace Step oneFile evs s ∧ (s.entry e).valid = true ∧ 0 < (s.entry e).ref
    ∧ (s.entry e).locked = false ∧ (s.entry e).din.nlink = 1 :=
  ⟨_, _, ⟨0, by decide⟩, .cons (.iget (r := ()) (k := ⟨1, 2⟩) rfl rfl) <|
    .cons (.ilock (a := ()) (r := ()) rfl rfl nofun) <|
    .cons (.move (a := ()) rfl (.acquire rfl)) <|
    .cons (.move (a := ()) rfl (.load rfl nofun)) <|
    .cons (.move (a := ()) rfl (.edit .link)) <|
    .cons (.move (a := ()) rfl .iupdate) <|
    .single (.move (a := ()) rfl .iunlock), rfl, by decide, rfl, rfl⟩

/-- …and is on disk. -/
theorem inode_cache_coherent_link : ∃ evs s e, Trace Step oneFile evs s ∧ (s.entry e).din.nlink = 1
    ∧ (s.entry e).din = s.disk (s.entry e).key := by
  obtain ⟨evs, s, e, htrace, hv, href, hl, hn⟩ := trace_link
  obtain ⟨-, -, hsame⟩ := inode_cache_coherent start_oneFile htrace
  exact ⟨evs, s, e, htrace, hn, hsame e hv href hl⟩

end Xv6.Icache
