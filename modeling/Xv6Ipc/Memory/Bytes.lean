import Mathlib.Tactic.IntervalCases
import Xv6Ipc.Machinery.Overlay
import Xv6Ipc.Memory.Resize
import Xv6Ipc.Memory.Translate

/-!
# Memory/Bytes — the bytes a user sees

`seen` is memory as a directory shows it, with zeroes where nothing is mapped.
Below `SHAREBASE`, where different pages have different frames, the functions that build an image are

    allocuvm, clearpteu    no change: the pages that are added hold zeroes
    loaduvm                the bytes of the file are put over it
    copyout                the bytes of the buffer are put over it
-/

namespace Xv6

open Overlay (put put_of_outside put_congr put_cons put_append put_shift put_add)

/-! ## Bytes of frames -/

theorem wordByte_setByte {w k j b : Nat} (hk : k < 4) (hj : j < 4) (hb : b < 256) :
    wordByte (setByte w k b) j = if j = k then b else wordByte w j := by
  simp only [wordByte, setByte]
  interval_cases k <;> interval_cases j <;> simp <;> omega

/-- The bytes of a frame. -/
def Mem.bytes (m : Mem) (f o : Nat) : Nat := wordByte (m.cell f (o / 4)) (o % 4)

variable {L : Linker} {m m' : Mem} {d f g k a v b : Nat} {bs file : List Nat}

theorem bytes_congr (h : m'.cell f = m.cell g) : m'.bytes f = m.bytes g := by
  funext o
  rw [Mem.bytes, Mem.bytes, h]

theorem byte_eq_bytes {o : Nat} (ho : o < 4096) : m.byte (4096 * f + o) = m.bytes f o := by
  have hdiv : (4096 * f + o) / 4096 = f := by omega
  have hmod : (4096 * f + o) % 4096 = o := by omega
  have hbyte : (4096 * f + o) % 4 = o % 4 := by omega
  rw [Mem.byte, hdiv, hmod, hbyte, Mem.bytes]

/-- Storing a byte… -/
theorem bytes_putByte (hb : b < 256) : (m.putByte f k b).bytes f = put (m.bytes f) k [b] := by
  funext o
  rw [Mem.bytes, Mem.putByte, Mem.store_cell_self, Function.update_apply]
  by_cases hword : o / 4 = k / 4
  · rw [if_pos hword, wordByte_setByte (Nat.mod_lt k (by decide)) (Nat.mod_lt o (by decide)) hb]
    by_cases hin : o % 4 = k % 4
    · obtain rfl : o = k := by omega
      rw [if_pos rfl]
      exact (put_add (l := [b]) (k := 0) Nat.zero_lt_one).symm
    · rw [if_neg hin, ← hword, ← Mem.bytes]
      exact (put_of_outside (by rw [Overlay.Outside, List.length_singleton]; omega)).symm
  · rw [if_neg hword, ← Mem.bytes]
    exact (put_of_outside (by rw [Overlay.Outside, List.length_singleton]; omega)).symm

/-- …and many. -/
theorem bytes_putBytes (hbs : ∀ b ∈ bs, b < 256) :
    (m.putBytes f k bs).bytes f = put (m.bytes f) k bs := by
  induction bs generalizing m k with
  | nil => rw [Overlay.put_nil, Mem.putBytes]
  | cons b bs ih =>
    obtain ⟨hb, hbs⟩ := List.forall_mem_cons.mp hbs
    rw [Mem.putBytes, ih hbs, bytes_putByte hb, ← put_cons]

/-! ## What a directory shows -/

/-- The byte at an address of a directory. -/
def seen (m : Mem) (d a : Nat) : Nat :=
  match translate m d a with
  | some (pa, _) => m.byte pa
  | none => 0

theorem seen_of_present (h : Present (entry m d (a / 4096))) :
    seen m d a = m.bytes (pteFrame (entry m d (a / 4096))) (a % 4096) := by
  rw [seen, translate, if_pos h]
  exact byte_eq_bytes (Nat.mod_lt a (by decide))

theorem seen_of_not_present (h : ¬ Present (entry m d (a / 4096))) : seen m d a = 0 := by
  rw [seen, translate_of_not_present h]

/-- It depends on the frame behind the page. -/
theorem seen_congr
    (hp : Present (entry m' d (a / 4096)) ↔ Present (entry m d (a / 4096)))
    (hf : pteFrame (entry m' d (a / 4096)) = pteFrame (entry m d (a / 4096)))
    (hc : Present (entry m d (a / 4096)) →
      m'.cell (pteFrame (entry m d (a / 4096))) = m.cell (pteFrame (entry m d (a / 4096)))) :
    seen m' d a = seen m d a := by
  by_cases h : Present (entry m d (a / 4096))
  · rw [seen_of_present h, seen_of_present (hp.mpr h), hf, bytes_congr (hc h)]
  · rw [seen_of_not_present h, seen_of_not_present (mt hp.mp h)]

theorem pteFrame_mem_leaves (ha : a < SHAREBASE) (h : Present (entry m d (a / 4096))) :
    pteFrame (entry m d (a / 4096)) ∈ leaves m d := by
  rw [SHAREBASE] at ha
  exact mem_leaves.mpr ⟨a / 4096, by omega, leafAt_eq_some.mpr ⟨h, rfl⟩⟩

/-- The word at an address. -/
def wordAt (f : Nat → Nat) (a : Nat) : Nat :=
  f a + 256 * f (a + 1) + 65536 * f (a + 2) + 16777216 * f (a + 3)

theorem wordAt_of_holds {f : Nat → Nat} {w : Nat} (hw : w < 0x100000000)
    (h : Overlay.Holds f a (wordBytes w)) : wordAt f a = w := by
  have hbyte : ∀ k, k < 4 → f (a + k) = w / 256 ^ k % 256 := fun k hk => by
    have hlen : k < (wordBytes w).length := hk
    rw [h k hlen]
    simp only [wordBytes, List.getElem_map, List.getElem_range, wordByte]
  have h₀ := hbyte 0 (by decide)
  rw [Nat.add_zero] at h₀
  rw [wordAt, h₀, hbyte 1 (by decide), hbyte 2 (by decide), hbyte 3 (by decide)]
  omega

/-- The words of an array. -/
theorem wordAt_array {f : Nat → Nat} {ws : List Nat} (hws : ∀ w ∈ ws, w < 0x100000000)
    (h : Overlay.Holds f a (ws.flatMap wordBytes)) {i : Nat} (hi : i < ws.length) :
    wordAt f (a + 4 * i) = ws[i] := by
  induction ws generalizing a i with
  | nil => exact absurd hi (Nat.not_lt_zero i)
  | cons w ws ih =>
    obtain ⟨hw, hws⟩ := List.forall_mem_cons.mp hws
    rw [List.flatMap_cons] at h
    cases i with
    | zero => exact wordAt_of_holds hw h.append_left
    | succ i =>
      have hnext : a + 4 * (i + 1) = a + 4 + 4 * i := by omega
      rw [hnext, List.getElem_cons_succ]
      exact ih hws h.append_right (Nat.lt_of_succ_lt_succ hi)

/-- **Bytes put into a page** are put over what the user sees. -/
theorem seen_putBytes (hn : (owned m d).Nodup) (hv : v < 0x40000) (hp : Present (entry m d v))
    (hbs : ∀ b ∈ bs, b < 256) (hlen : k + bs.length ≤ 4096) (ha : a < SHAREBASE) :
    seen (m.putBytes (pteFrame (entry m d v)) k bs) d a
      = put (seen m d) (4096 * v + k) bs a := by
  have hent := (Scribbled.putBytes hv hp k bs).entry_eq hn
  have hleaves : (leaves m d).Nodup := (List.nodup_append.mp hn).2.1
  by_cases hpage : a / 4096 = v
  · subst hpage
    have hsum : a = 4096 * (a / 4096) + a % 4096 := by omega
    have hinner : ∀ y < 4096, seen m d (4096 * (a / 4096) + y)
        = m.bytes (pteFrame (entry m d (a / 4096))) y := fun y hy => by
      have hdiv : (4096 * (a / 4096) + y) / 4096 = a / 4096 := by omega
      have hmod : (4096 * (a / 4096) + y) % 4096 = y := by omega
      rw [seen_of_present (by rwa [hdiv]), hdiv, hmod]
    have hshift := put_shift (seen m d) (4096 * (a / 4096)) k (a % 4096) bs
    rw [← hsum] at hshift
    rw [seen_of_present (by rwa [hent]), hent, bytes_putBytes hbs, hshift]
    exact put_congr (hinner _ (Nat.mod_lt a (by decide))).symm
  · have hout : put (seen m d) (4096 * v + k) bs a = seen m d a :=
      put_of_outside (by rw [Overlay.Outside]; omega)
    rw [hout]
    refine seen_congr (by rw [hent]) (by rw [hent]) fun hpa => ?_
    refine (m.putBytes_spec _ k bs).2.2 _ fun he => hpage ?_
    rw [SHAREBASE] at ha
    exact leafAt_inj hleaves (by omega) hv (leafAt_eq_some.mpr ⟨hpa, he⟩)
      (leafAt_eq_some.mpr ⟨hp, rfl⟩)

/-! ## `allocuvm` and `clearpteu` -/

/-- Pages of zeroes show what no pages show. -/
theorem Backed.seen_eq {lo hi : Nat} {perm : Nat → Nat} (hn : (m.free ++ owned m d).Nodup)
    (hperm : ∀ v, perm v < 4096) (hfresh : ∀ v, lo ≤ v → v < hi → ¬ Present (entry m d v))
    (h : Backed m m' d lo hi perm fun _ _ => 0) (ha : a < SHAREBASE) :
    seen m' d a = seen m d a := by
  by_cases hin : lo ≤ a / 4096 ∧ a / 4096 < hi
  · obtain ⟨f, hf, hzero⟩ := h.mapped _ hin.1 hin.2
    have hp : Present (entry m' d (a / 4096)) := by
      rw [hf]
      exact present_mkPte _ _
    rw [seen_of_not_present (hfresh _ hin.1 hin.2), seen_of_present hp, hf,
      pteFrame_mkPte f (hperm _), Mem.bytes, hzero, wordByte, Nat.zero_div, Nat.zero_mod]
  · have hkeep := h.keep _ hin
    refine seen_congr (by rw [hkeep]) (by rw [hkeep]) fun hp => ?_
    have hleaf := pteFrame_mem_leaves ha hp
    refine h.moves.frame _ (fun hc => ?_) fun hc => ?_
    · exact List.disjoint_of_nodup_append hn hc (List.mem_append_right _ hleaf)
    · exact List.disjoint_of_nodup_append (List.nodup_append.mp hn).2.1 hc hleaf

/-- **`allocuvm`** changes nothing that is seen. -/
theorem allocuvm_bytes {oldsz newsz r : Nat} (hn : (m.free ++ owned m d).Nodup)
    (hL : ∀ f ∈ m.free ++ owned m d, L.Frame f) (hgap : Gap m d ((oldsz + 4095) / 4096))
    (h : allocuvm L m d oldsz newsz = .ok (r, m')) (hr : r ≠ 0) (ha : a < SHAREBASE) :
    seen m' d a = seen m d a := by
  by_cases hnew : SHAREBASE ≤ newsz
  · rw [allocuvm, if_pos hnew] at h
    exact absurd (Prod.mk.inj (Except.ok.inj h)).1.symm hr
  by_cases hle : newsz < oldsz
  · rw [allocuvm, if_neg hnew, if_pos hle] at h
    rw [(Prod.mk.inj (Except.ok.inj h)).2]
  have hfresh : ∀ v, (oldsz + 4095) / 4096 ≤ v → v < (newsz + 4095) / 4096 →
      ¬ Present (entry m d v) := fun v hv hv' => hgap v hv (by
    rw [SHAREBASE] at hnew
    omega)
  have hn' := hn
  rw [owned, ← List.append_assoc] at hn' hL
  rcases allocuvm_cases (List.nodup_append.mp hn').1
      (fun g hg => hL g (List.mem_append_left _ hg)) (not_le.mp hnew) (not_lt.mp hle) hfresh with
    ⟨m₁, hok, hb⟩ | ⟨m₁, hok, -⟩
  · obtain ⟨-, rfl⟩ := Prod.mk.inj (Except.ok.inj (hok.symm.trans h))
    exact hb.seen_eq hn (fun _ => by decide) hfresh ha
  · exact absurd (Prod.mk.inj (Except.ok.inj (hok.symm.trans h))).1.symm hr

/-- **`clearpteu`** neither. -/
theorem clearpteu_bytes (hn : (owned m d).Nodup) (hv : v < 0x40000) (hp : Present (entry m d v))
    (h : clearpteu m d (v * 4096) = .ok m') (ha : a < SHAREBASE) :
    seen m' d a = seen m d a := by
  obtain ⟨m₁, hok, -, hent, -⟩ := clearpteu_spec hn hv hp
  obtain rfl : m₁ = m' := Except.ok.inj (hok.symm.trans h)
  have hsame : (Present (entry m₁ d (a / 4096)) ↔ Present (entry m d (a / 4096)))
      ∧ pteFrame (entry m₁ d (a / 4096)) = pteFrame (entry m d (a / 4096)) := by
    rw [hent, Function.update_apply]
    split
    · rename_i he
      rw [he]
      exact ⟨present_clearUser, pteFrame_clearUser _⟩
    · exact ⟨Iff.rfl, rfl⟩
  refine seen_congr hsame.1 hsame.2 fun hpa => ?_
  -- the one frame written is a page table
  obtain ⟨t, hw, ht, -⟩ := walkpgdir_present (a := v * 4096) (by omega)
    (by rwa [Nat.mul_div_cancel _ (by decide)])
  rw [clearpteu, hw] at h
  obtain rfl := Except.ok.inj h
  refine Mem.store_cell_of_ne _ _ _ fun he => ?_
  have hleaf := pteFrame_mem_leaves ha hpa
  rw [he] at hleaf
  exact List.disjoint_of_nodup_append hn (List.mem_cons_of_mem _ (mem_tables.mpr ⟨_, ht⟩)) hleaf

/-! ## `loaduvm` -/

/-- What `readi` has read. -/
theorem readi_some {off n : Nat} (h : readi file off n = some bs) :
    bs = (file.drop off).take n ∧ off + n < 0x100000000 := by
  rw [readi] at h
  split at h
  · exact nomatch h
  · rename_i hin
    exact ⟨(Option.some.inj h).symm, by omega⟩

/-- One page of a segment. -/
theorem loadPage_true {addr off sz j : Nat} (haddr : addr % 4096 = 0)
    (hlt : addr + 4096 * j < SHAREBASE)
    (h : loadPage d addr file off sz (4096 * j) m = .ok (true, m')) :
    ∃ bs, readi file (u32 (off + (4096 * j : Nat))) (min (sz - 4096 * j) 4096) = some bs
      ∧ bs.length = min (sz - 4096 * j) 4096
      ∧ m' = m.putBytes (pteFrame (entry m d (addr / 4096 + j))) 0 bs := by
  rw [SHAREBASE] at hlt
  have hva : u32 (addr + (4096 * j : Nat)) = addr + 4096 * j := u32_of_lt (by omega)
  have hpage : (addr + 4096 * j) / 4096 = addr / 4096 + j := by omega
  rw [loadPage, hva] at h
  obtain ⟨hw, -⟩ | ⟨t, hw, -, hcell⟩ := walkpgdir_cases (m := m) (d := d) (a := addr + 4096 * j) (by omega)
  · rw [hw] at h
    cases h
  · rw [hpage] at hcell
    rw [hw] at h
    simp only [hpage, hcell] at h
    cases hread : readi file (u32 (off + (4096 * j : Nat))) (min (sz - 4096 * j) 4096) with
    | none =>
      rw [hread] at h
      cases h
    | some bs =>
      rw [hread] at h
      obtain ⟨hlen, rfl⟩ := Prod.mk.inj (Except.ok.inj h)
      exact ⟨bs, rfl, of_decide_eq_true hlen, rfl⟩

/-- **The pages of a segment** from page `j` on.  A page that was read in full leaves room for the offset
of the next one, so that no offset wraps. -/
theorem loadPages_bytes {addr off sz j n : Nat} (hfile : ∀ b ∈ file, b < 256)
    (haddr : addr % 4096 = 0) (hle : addr + sz ≤ SHAREBASE)
    (hp : ∀ v, v < (addr + sz + 4095) / 4096 → Present (entry m d v)) (hn : (owned m d).Nodup)
    (hj : j + n = (sz + 4095) / 4096) (hoff : 0 < n → off + 4096 * j < 0x100000000)
    (h : Loops.each (fun j => loadPage d addr file off sz (4096 * j)) (List.range' j n) m
      = .ok (true, m')) :
    Scribbled m m' d ∧ (0 < n → off + sz ≤ file.length) ∧ ∀ a < SHAREBASE,
      seen m' d a = put (seen m d) (addr + 4096 * j)
        ((file.drop (off + 4096 * j)).take (sz - 4096 * j)) a := by
  induction n generalizing j m with
  | zero =>
    obtain rfl : m = m' := (Prod.mk.inj (Except.ok.inj h)).2
    have hnone : sz - 4096 * j = 0 := by omega
    refine ⟨.refl m d, fun hpos => absurd hpos (by decide), fun a _ => ?_⟩
    rw [hnone, List.take_zero, Overlay.put_nil]
  | succ n ih =>
    rw [SHAREBASE] at hle
    rw [List.range'_succ] at h
    obtain ⟨m₁, hturn, hrest⟩ := Loops.each_cons_ok h
    have hpage := hp (addr / 4096 + j) (by omega)
    have hat : u32 (off + (4096 * j : Nat)) = off + 4096 * j := u32_of_lt (hoff (Nat.succ_pos n))
    obtain ⟨bs, hread, hlen, rfl⟩ := loadPage_true haddr (by rw [SHAREBASE]; omega) hturn
    rw [hat] at hread
    obtain ⟨rfl, hnowrap⟩ := readi_some hread
    have hv : addr / 4096 + j < 0x40000 := by omega
    have hstep := Scribbled.putBytes hv hpage 0 ((file.drop (off + 4096 * j)).take (min (sz - 4096 * j) 4096))
    have hent := hstep.entry_eq hn
    have hbs : ∀ b ∈ (file.drop (off + 4096 * j)).take (min (sz - 4096 * j) 4096), b < 256 := fun b hb =>
      hfile b (List.mem_of_mem_drop (List.mem_of_mem_take hb))
    have hstart : 4096 * (addr / 4096 + j) + 0 = addr + 4096 * j := by omega
    obtain ⟨hs, hall, hbytes⟩ := ih (by rwa [hent]) (by rwa [hstep.owned_eq hn]) (by omega)
      (fun _ => by omega) hrest
    refine ⟨hstep.trans hn hs, fun _ => ?_, fun a ha => ?_⟩
    · by_cases hmore : 0 < n
      · exact hall hmore
      · rw [List.length_take, List.length_drop] at hlen
        omega
    · have hput := seen_putBytes (k := 0) hn hv hpage hbs (by omega) ha
      rw [hstart] at hput
      rw [hbytes a ha, put_congr hput]
      by_cases hlast : sz - 4096 * j ≤ 4096
      · have hnone : sz - 4096 * (j + 1) = 0 := by omega
        rw [hnone, List.take_zero, Overlay.put_nil, Nat.min_eq_left hlast]
      · have hmin : min (sz - 4096 * j) 4096 = 4096 := Nat.min_eq_right (by omega)
        have hsplit : sz - 4096 * j = 4096 + (sz - 4096 * (j + 1)) := by omega
        have hnext : ∀ x, x + 4096 * (j + 1) = x + 4096 * j + 4096 := fun x => by
          rw [Nat.mul_succ, Nat.add_assoc]
        rw [hmin] at hlen ⊢
        rw [hnext addr, hnext off, hsplit, List.take_add, put_append, hlen, List.drop_drop]

/-- **`loaduvm`** puts the bytes of the file into the image. -/
theorem loaduvm_bytes {addr off sz : Nat} (hfile : ∀ b ∈ file, b < 256) (hle : addr + sz ≤ SHAREBASE)
    (hp : ∀ v, v < (addr + sz + 4095) / 4096 → Present (entry m d v)) (hn : (owned m d).Nodup)
    (hoff : off < 0x100000000) (h : loaduvm m d addr file off sz = .ok (true, m')) :
    (0 < sz → off + sz ≤ file.length) ∧ ∀ a < SHAREBASE,
      seen m' d a = put (seen m d) addr ((file.drop off).take sz) a := by
  rw [loaduvm] at h
  split at h
  · cases h
  · rename_i haddr
    obtain ⟨-, hall, hbytes⟩ := loadPages_bytes (j := 0) hfile (not_not.mp haddr) hle hp hn
      (Nat.zero_add _) (fun _ => hoff) h
    exact ⟨fun hpos => hall (by omega), hbytes⟩

/-! ## `copyout` -/

/-- **`copyout`** to addresses below `SHAREBASE` only scribbles.  If it succeeds then every page it comes
by is the user's, and the bytes are put there; it reads through null if it comes by a page without a
table. -/
theorem copyout_cases (va : Nat) (p : List Nat) (hn : (owned m d).Nodup)
    (hva : va + p.length ≤ SHAREBASE) :
    (∃ b m', copyout m d va p = .ok (b, m') ∧ Scribbled m m' d ∧ (b = true →
      (∀ a, va ≤ a → a < va + p.length → User (entry m d (a / 4096))) ∧ ((∀ b ∈ p, b < 256) →
        ∀ a < SHAREBASE, seen m' d a = put (seen m d) va p a))) ∨
      copyout m d va p = .error .nullDeref
        ∧ ∃ a, va ≤ a ∧ a < va + p.length ∧ tableAt m d (a / 4096 / 1024) = none := by
  rw [SHAREBASE] at hva
  induction hk : p.length using Nat.strong_induction_on generalizing m va p with
  | _ k ih =>
  cases p with
  | nil =>
    rw [← hk, List.length_nil]
    refine .inl ⟨true, m, by rw [copyout], .refl m d, fun _ => ⟨fun a ha ha' => absurd ha' (not_lt.mpr ha),
      fun _ a _ => ?_⟩⟩
    rw [Overlay.put_nil]
  | cons b p =>
    rw [hk] at hva
    rw [List.length_cons] at hk
    obtain ⟨hr, hnone⟩ | ⟨hr, -⟩ | ⟨hpres, hu, n', hcount, hr⟩ :=
      copyout_turn (m := m) (d := d) b p (by omega : va < 0x100000000)
    · exact .inr ⟨hr, va, le_rfl, by omega, hnone⟩
    · exact .inl ⟨false, m, hr, .refl m d, fun hc => by cases hc⟩
    rw [List.length_cons, hk] at hcount
    have hlen : ((b :: p).take n').length = n' := by
      rw [List.length_take, List.length_cons]
      omega
    have hv : va / 4096 < 0x40000 := by omega
    have hstep := Scribbled.putBytes hv hpres (va % 4096) ((b :: p).take n')
    have hnext : u32 ((va / 4096 * 4096 : Nat) + 4096) = va / 4096 * 4096 + 4096 := by
      rw [u32]
      omega
    have hdrop : ((b :: p).drop n').length = k - n' := by rw [List.length_drop, List.length_cons, hk]
    rw [hr, hnext]
    have hrest := ih (k - n') (by omega) (va / 4096 * 4096 + 4096) ((b :: p).drop n')
      ((congrArg List.Nodup (hstep.owned_eq hn)).mpr hn) (by omega) hdrop
    rw [hstep.entry_eq hn, hstep.tableAt_eq hn] at hrest
    obtain ⟨c, m', hrest, hs, hsucc⟩ | ⟨hrest, a, ha, ha', hnone⟩ := hrest
    case inr => exact .inr ⟨hrest, a, by omega, by omega, hnone⟩
    refine .inl ⟨c, m', hrest, hstep.trans hn hs, fun hc => ?_⟩
    obtain ⟨huser, hbytes⟩ := hsucc hc
    refine ⟨fun a ha ha' => ?_, fun hbs a ha => ?_⟩
    · by_cases hin : a < va / 4096 * 4096 + 4096
      · obtain hsame : a / 4096 = va / 4096 := by omega
        rwa [hsame]
      · exact huser a (not_lt.mp hin) (by omega)
    · have htaken : ∀ x ∈ (b :: p).take n', x < 256 := fun x hx => hbs x (List.mem_of_mem_take hx)
      have hput := seen_putBytes (k := va % 4096) hn hv hpres htaken (by omega) ha
      rw [Nat.div_add_mod] at hput
      rw [hbytes (fun x hx => hbs x (List.mem_of_mem_drop hx)) a ha, put_congr hput]
      by_cases hmore : n' = k
      · rw [List.drop_eq_nil_of_le (by rw [List.length_cons]; omega),
          List.take_of_length_le (by rw [List.length_cons]; omega), Overlay.put_nil]
      · have hend : va / 4096 * 4096 + 4096 = va + ((b :: p).take n').length := by omega
        rw [hend, ← put_append, List.take_append_drop]

/-- …within the pages of an image it ends one way or the other. -/
theorem copyout_bytes {n : Nat} (va : Nat) (p : List Nat) (hbs : ∀ b ∈ p, b < 256) (hn : (owned m d).Nodup)
    (hpages : n ≤ 0x40000) (hp : ∀ v < n, Present (entry m d v)) (hva : va + p.length ≤ 4096 * n) :
    ∃ b m', copyout m d va p = .ok (b, m') ∧ Scribbled m m' d ∧ (b = true →
      (∀ a, va ≤ a → a < va + p.length → User (entry m d (a / 4096))) ∧ ∀ a < SHAREBASE,
        seen m' d a = put (seen m d) va p a) := by
  rcases copyout_cases va p hn (by rw [SHAREBASE]; omega) with
    ⟨b, m', hr, hs, hsucc⟩ | ⟨-, a, -, ha, hnone⟩
  · exact ⟨b, m', hr, hs, fun hb => ⟨(hsucc hb).1, (hsucc hb).2 hbs⟩⟩
  · have hpres := hp (a / 4096) (by omega)
    rw [entry_of_tableAt_none hnone] at hpres
    exact absurd hpres not_present_zero

end Xv6
