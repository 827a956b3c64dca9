import Xv6Ipc.Inodes.Model

/-!
# Inodes/Uses — what a use knows of its inode

A use that has the lock knows how the fields in memory stand to those on disk: they agree, or they are about
to be written, or the inode is about to be freed.  `bmap` may write a word of `addrs` that `writei` does not
write back; but in a file without holes it does so only past the end of the file, and then `writei` grows
the file and calls `iupdate`:

    size            off                off + m
    ──┴──────────────┴──────────────────┴──
      no holes below    addrs written ⟹ off + m > size

-/

namespace Xv6.Icache

open Fs (Kind Dinode NDIRECT BSIZE MAXFILE NINODE)

variable {d d' : Dinode} {x x' : Entry} {σ : Stage} {o : Option Stage} {addrs : Nat → Nat}
  {off left n m bn b : Nat}

/-! ## Holes -/

theorem Covers.mono (h : Covers addrs n) (hm : m ≤ n) : Covers addrs m := fun bn hbn => h bn (by omega)

@[simp] theorem bmap_size : (bmap d bn b).size = d.size := by
  rw [bmap]
  split <;> rfl

/-- `bmap` writes `addrs` only. -/
theorem bmap_eq : bmap d bn b = { d with addrs := (bmap d bn b).addrs } := by
  rw [bmap]
  split <;> rfl

/-- `bmap` finds a block or writes one. -/
theorem bmap_slot (hb : b ≠ 0) : (bmap d bn b).addrs (slot bn) ≠ 0 := by
  rw [bmap]
  split
  · rw [Dinode.setAddr_addrs, Function.update_self]
    exact hb
  · assumption

/-- …and loses none. -/
theorem Covers.bmap (h : Covers d.addrs n) (hb : b ≠ 0) : Covers (bmap d bn b).addrs n := by
  intro bn' hbn'
  by_cases hslot : slot bn' = slot bn
  · rw [hslot]
    exact bmap_slot hb
  · rw [Icache.bmap]
    split
    · rw [Dinode.setAddr_addrs, Function.update_of_ne hslot]
      exact h bn' hbn'
    · exact h bn' hbn'

/-- A turn of the loop covers the bytes it gets through. -/
theorem Covers.advance (h : Covers d.addrs off) (hb : b ≠ 0) :
    Covers (Icache.bmap d (off / BSIZE) b).addrs (off + chunk off left) := by
  intro bn hbn
  by_cases hold : bn * BSIZE < off
  · exact h.bmap hb bn hold
  · have hchunk : chunk off left ≤ BSIZE - off % BSIZE := Nat.min_le_right _ _
    have hbn' : bn = off / BSIZE := by
      simp only [BSIZE] at *
      omega
    rw [hbn']
    exact bmap_slot hb

/-- In a file without holes `bmap` writes the inode only past the end. -/
theorem bmap_of_lt (h : Covers d.addrs n) (hoff : off < n) : bmap d (off / BSIZE) b = d := by
  rw [bmap, if_neg (h _ ?_)]
  have := Nat.div_mul_le_self off BSIZE
  omega

theorem chunk_pos (off : Nat) (hleft : 0 < left) : 0 < chunk off left := by
  rw [chunk, BSIZE]
  omega

theorem chunk_le (off left : Nat) : chunk off left ≤ left := Nat.min_le_left _ _

/-! ## Knowledge -/

/-- Memory and disk agree on an inode that is in use. -/
def Same (x : Entry) (d : Dinode) : Prop := x.din = d ∧ d.type ≠ .none

/-- **What a use with the lock knows**, of the entry and of the inode on disk. -/
def Fits (x : Entry) (d : Dinode) : Stage → Prop
  | .wait _ | .drop | .freed => True
  | .lock | .put | .release => x.valid = true → Same x d
  | .hold | .count | .trunc => x.valid = true ∧ Same x d
  | .edited | .truncated => x.valid = true ∧ Solid x.din ∧ x.din.type = d.type ∧ d.type ≠ .none
  | .reading off left => (x.valid = true ∧ Same x d) ∧ off + left ≤ d.size
  | .writing off left n =>
    (x.valid = true ∧ d.type ≠ .none) ∧ (left ≤ n ∧ Covers x.din.addrs off ∧ Solid x.din)
      ∧ x.din = { d with addrs := x.din.addrs } ∧ (x.din = d ∨ 0 < n ∧ x.din.size < off)
  | .empty => Solid x.din ∧ d.type ≠ .none
  | .typeless => Solid x.din ∧ d.type ≠ .none

/-- Edits leave the blocks alone. -/
theorem Edit.solid (f : Edit) (h : Solid d) : Solid (f.apply d) ∧ (f.apply d).type = d.type := by
  cases f <;> exact ⟨h, rfl⟩

/-- **A use keeps what it knows**, and leaves an inode without holes on disk. -/
theorem Move.fits (h : Move σ x d o x' d') (hd : Solid d) (hx : Fits x d σ)
    (hfree : σ.owns = false → x.locked = false → x.valid = true → Same x d) :
    (∀ σ', o = some σ' → Fits x' d' σ') ∧ Solid d' := by
  cases h with
  | @acquire p _ _ hlocked =>
    refine ⟨fun σ' ho => ?_, hd⟩
    obtain rfl := Option.some.inj ho
    split <;> exact hfree rfl hlocked
  | cached hv | unlinked hv => exact ⟨fun σ' ho => Option.some.inj ho ▸ ⟨hv, hx hv⟩, hd⟩
  | load hv htype => exact ⟨fun σ' ho => Option.some.inj ho ▸ ⟨rfl, rfl, htype⟩, hd⟩
  | edit f =>
    obtain ⟨hv, rfl, htype⟩ := hx
    obtain ⟨hsolid, htype'⟩ := f.solid hd
    exact ⟨fun σ' ho => Option.some.inj ho ▸ ⟨hv, hsolid, htype', htype⟩, hd⟩
  | iupdate =>
    obtain ⟨hv, hsolid, htype, hne⟩ := hx
    exact ⟨fun σ' ho => Option.some.inj ho ▸ ⟨hv, rfl, by rw [htype]; exact hne⟩, hsolid⟩
  | readi off n hdev hoff =>
    obtain ⟨hv, rfl, htype⟩ := hx
    refine ⟨fun σ' ho => Option.some.inj ho ▸ ⟨⟨hv, rfl, htype⟩, ?_⟩, hd⟩
    split <;> omega
  | @read x d off left b hleft hbn hb =>
    obtain ⟨⟨hv, rfl, htype⟩, hsize⟩ := hx
    have hlt : off < x.din.size := by omega
    refine ⟨fun σ' ho => Option.some.inj ho ▸ ⟨⟨hv, bmap_of_lt hd hlt, htype⟩, ?_⟩, hd⟩
    have := chunk_le off left
    omega
  | readDone => exact ⟨fun σ' ho => Option.some.inj ho ▸ hx.1, hd⟩
  | writei off n hdev hoff hmax =>
    obtain ⟨hv, rfl, htype⟩ := hx
    refine ⟨fun σ' ho => Option.some.inj ho ▸ ⟨⟨hv, htype⟩, ⟨Nat.le_refl _, ?_, hd⟩, rfl, .inl rfl⟩, hd⟩
    exact Covers.mono hd (by omega)
  | @write x d off left n b hleft hbn hb =>
    obtain ⟨⟨hv, htype⟩, ⟨hn, hoff, hsolid⟩, heq, hsame⟩ := hx
    have hchunk := chunk_pos off hleft
    refine ⟨fun σ' ho => Option.some.inj ho ▸ ⟨⟨hv, htype⟩, ⟨by omega, hoff.advance hb, ?_⟩, ?_, ?_⟩, hd⟩
    · rw [Solid, bmap_size]
      exact Covers.bmap hsolid hb
    · refine bmap_eq.trans ?_
      generalize (bmap x.din (off / BSIZE) b).addrs = a
      rw [heq]
    · by_cases hlt : off < x.din.size
      · have hfix : bmap x.din (off / BSIZE) b = x.din := bmap_of_lt hsolid hlt
        simp only [hfix]
        exact hsame.imp_right fun ⟨hpos, hsize⟩ => ⟨hpos, by omega⟩
      · exact .inr ⟨by omega, by rw [bmap_size]; omega⟩
  | @grow x d off n hn hsize =>
    obtain ⟨⟨hv, htype⟩, ⟨-, hoff, -⟩, heq, -⟩ := hx
    have htype' : x.din.type = d.type := by rw [heq]
    exact ⟨fun σ' ho => Option.some.inj ho ▸ ⟨hv, hoff, htype', htype⟩, hd⟩
  | writeDone hno =>
    obtain ⟨⟨hv, htype⟩, -, -, hsame⟩ := hx
    exact ⟨fun σ' ho => Option.some.inj ho ▸ ⟨hv, hsame.resolve_right hno, htype⟩, hd⟩
  | iunlock | drop => exact ⟨nofun, hd⟩
  | keep | last | clearType => exact ⟨fun σ' ho => Option.some.inj ho ▸ hx, hd⟩
  | shared => exact ⟨fun σ' ho => Option.some.inj ho ▸ fun _ => hx.2, hd⟩
  | itrunc =>
    obtain ⟨hv, rfl, htype⟩ := hx
    refine ⟨fun σ' ho => Option.some.inj ho ▸ ⟨hv, fun bn hbn => ?_, rfl, htype⟩, hd⟩
    exact absurd hbn (Nat.not_lt_zero _)
  | truncUpdate =>
    obtain ⟨-, hsolid, htype, hne⟩ := hx
    exact ⟨fun σ' ho => Option.some.inj ho ▸ ⟨hsolid, by rw [htype]; exact hne⟩, hsolid⟩
  | typeUpdate => exact ⟨fun σ' ho => Option.some.inj ho ▸ trivial, hx.1⟩
  | invalidate => exact ⟨fun σ' ho => Option.some.inj ho ▸ nofun, hd⟩
  | release => exact ⟨fun σ' ho => Option.some.inj ho ▸ trivial, hd⟩

/-- **What a use leaves unlocked agrees with the disk.** -/
theorem Move.same (h : Move σ x d o x' d') (hx : Fits x d σ) (hlock : σ.owns = true → x.locked = true)
    (hfree : x.locked = false → x.valid = true → 0 < x.ref → Same x d) (hunlocked : x'.locked = false)
    (hv : x'.valid = true) (href : 0 < x'.ref) : Same x' d' := by
  cases h with
  | acquire => exact nomatch hunlocked
  | iunlock => exact hx.2
  | release => exact hx hv
  | drop => exact hfree hunlocked hv (Nat.lt_of_lt_of_le href (Nat.sub_le _ _))
  | _ => exact nomatch (hlock rfl).symm.trans hunlocked

/-- The lock of an entry goes with the use that has it. -/
theorem Move.locked (h : Move σ x d o x' d') (hlock : σ.owns = true → x.locked = true) :
    x'.locked.toNat + σ.owns.toNat = x.locked.toNat + (o.elim false Stage.owns).toNat := by
  cases h with
  | @acquire p _ _ hlocked =>
    rw [hlocked]
    cases p <;> rfl
  | iunlock | release =>
    rw [hlock rfl]
    rfl
  | _ => rfl

/-- A use stays with its inode, and either ends or is as much of an `iput` as before. -/
theorem Move.frame (h : Move σ x d o x' d') :
    x'.key = x.key ∧ (∀ σ', o = some σ' → σ'.putting = σ.putting ∧ σ ≠ .drop)
      ∧ x'.ref = if σ = .drop then x.ref - 1 else x.ref := by
  cases h with
  | @acquire p => exact ⟨rfl, fun σ' ho => Option.some.inj ho ▸ ⟨by cases p <;> rfl, nofun⟩, rfl⟩
  | iunlock | drop => exact ⟨rfl, nofun, rfl⟩
  | _ => exact ⟨rfl, fun σ' ho => Option.some.inj ho ▸ ⟨rfl, nofun⟩, rfl⟩

/-- Without the lock a use changes no field. -/
theorem Move.of_not_owns (h : Move σ x d o x' d') (hσ : σ.owns = false) :
    x'.valid = x.valid ∧ x'.din = x.din ∧ d' = d := by
  cases h with
  | acquire | drop => exact ⟨rfl, rfl, rfl⟩
  | _ => exact nomatch hσ

/-- A free inode on disk is nobody's business. -/
theorem Fits.of_free (h : Fits x d σ) (hfree : d.type = .none) (d' : Dinode) : Fits x d' σ := by
  cases σ with
  | wait | drop | freed => trivial
  | lock | put | release => exact fun hv => absurd hfree (h hv).2
  | hold | count | trunc => exact absurd hfree h.2.2
  | edited | truncated => exact absurd hfree h.2.2.2
  | reading => exact absurd hfree h.1.2.2
  | writing => exact absurd hfree h.1.2
  | empty | typeless => exact absurd hfree h.2

/-- Without the lock a use knows nothing, -/
theorem Fits.of_not_owns (hσ : σ.owns = false) : Fits x d σ := by
  cases σ with
  | wait | drop => trivial
  | _ => exact nomatch hσ

/-- and the count does not matter. -/
theorem Fits.of_ref (h : Fits x d σ) (hv : x'.valid = x.valid) (hdin : x'.din = x.din) : Fits x' d σ := by
  cases σ <;> simp only [Fits, Same, hv, hdin] at h ⊢ <;> exact h

end Xv6.Icache
