import Xv6Ipc.Memory.Allocuvm

/-!
# Memory/Resize — moving the end of a user image

The pages of an image lie below its end; from there up to `SHAREBASE` there is a gap:

    0 ─ pages ─ end ─ gap ─ SHAREBASE ─ linked pages ─ KERNBASE

`allocuvm` and `deallocuvm` move the end.  With the gap known, what they do to the pages in between
is all they do to what the directory owns.
-/

namespace Xv6

/-- There is no page between page `n` and `SHAREBASE`. -/
def Gap (m : Mem) (d n : Nat) : Prop := ∀ v, n ≤ v → v < 0x40000 → ¬ Present (entry m d v)

variable {L : Linker} {m m' : Mem} {d lo hi n : Nat}

theorem Gap.leaves_eq (h : Gap m d n) (hn : n ≤ 0x40000) : leaves m d = leavesIn m d 0 n := by
  rw [leaves_eq_leavesIn, leavesIn_split (Nat.zero_le n) hn, leavesIn_eq_nil h, List.append_nil]

/-- An image of `n` pages holds few frames besides them. -/
theorem Gap.length_owned_le (h : Gap m d n) (hn : n ≤ 0x40000) : (owned m d).length ≤ 1025 + n := by
  have htab : (tables m d).length ≤ (List.range 1024).length := length_tables_le fun i hi => by
    by_contra hout
    refine hi (if_neg fun hc => hout (List.mem_range.mpr hc.1))
  rw [List.length_range] at htab
  have hleaf := length_leavesIn_le m d 0 n
  rw [owned, h.leaves_eq hn, List.length_append, dirFrames, List.length_cons]
  omega

theorem Gap.mono (h : Gap m d lo) (hle : lo ≤ hi) : Gap m d hi := fun v hv => h v (hle.trans hv)

/-! ## Up -/

/-- **The end has moved up**, over pages of zeroes that are the user's. -/
structure Grown (m m' : Mem) (d lo hi : Nat) : Prop where
  moves : m.Moves (owned m d) m' (owned m' d)
  page : ∀ v, lo ≤ v → v < hi → ∃ f, entry m' d v = mkPte (4096 * f) (PTE_W ||| PTE_U)
  keep : ∀ v, ¬ (lo ≤ v ∧ v < hi) → entry m' d v = entry m d v
  grow : ∀ i, tableAt m' d i ≠ none →
    tableAt m d i ≠ none ∨ ∃ v, lo ≤ v ∧ v < hi ∧ i = v / 1024
  vmfreed : m'.vmfreed = m.vmfreed

theorem Grown.refl (m : Mem) (d lo : Nat) : Grown m m d lo lo where
  moves := Heap.Moves.refl _ _
  page v hv hv' := absurd hv' (by omega)
  keep _ _ := rfl
  grow i hi := .inl hi
  vmfreed := rfl

theorem Grown.gap (h : Grown m m' d lo hi) (hgap : Gap m d lo) (hle : lo ≤ hi) : Gap m' d hi :=
  fun v hv hv' => by
    rw [h.keep v (by omega)]
    exact hgap v (hle.trans hv) hv'

/-- **…or it has not moved**: the directory maps what it mapped. -/
structure Spared (m m' : Mem) (d : Nat) : Prop where
  moves : m.Moves (owned m d) m' (owned m' d)
  entry : ∀ v, entry m' d v = entry m d v
    ∨ ¬ Present (Xv6.entry m' d v) ∧ ¬ Present (Xv6.entry m d v)
  upper : ∀ v, 0x40000 ≤ v → Xv6.entry m' d v = Xv6.entry m d v
  vmfreed : m'.vmfreed = m.vmfreed

theorem Spared.refl (m : Mem) (d : Nat) : Spared m m d :=
  ⟨Heap.Moves.refl _ _, fun _ => .inl rfl, fun _ _ => rfl, rfl⟩

theorem Spared.present_iff (h : Spared m m' d) (v : Nat) :
    Present (Xv6.entry m' d v) ↔ Present (Xv6.entry m d v) := by
  rcases h.entry v with h | h
  · rw [h]
  · exact iff_of_false h.1 h.2

/-- Memory is short of the pages from `lo` to `hi` and of tables for them. -/
def Short (m : Mem) (d lo hi : Nat) : Prop :=
  ∀ S : List Nat, (∀ i, tableAt m d i ≠ none → i ∈ S) → (∀ v, lo ≤ v → v < hi → v / 1024 ∈ S) →
    m.free.length + (dirFrames m d).length ≤ S.length + (hi - lo)

theorem Backed.grown {c : Nat → Nat → Nat} (h : Backed m m' d lo hi (fun _ => PTE_W ||| PTE_U) c)
    (hlo : lo ≤ hi) (hhi : hi ≤ 0x40000) (hgap : Gap m d lo) : Grown m m' d lo hi := by
  have hkeep : leavesIn m' d 0 lo = leavesIn m d 0 lo :=
    leavesIn_congr fun v _ hv => h.keep v (by omega)
  have hgap' : Gap m' d hi := fun v hv hv' => by
    rw [h.keep v (by omega)]
    exact hgap v (hlo.trans hv) hv'
  refine ⟨?_, fun v hv hv' => ?_, h.keep, h.grow, h.vmfreed⟩
  · rw [owned, owned, hgap.leaves_eq (hlo.trans hhi), hgap'.leaves_eq hhi,
      leavesIn_split (Nat.zero_le lo) hlo, hkeep]
    refine (h.moves.extend _).congr (List.Perm.refl _) ?_
    rw [List.append_assoc]
    exact List.perm_append_comm.append_left _
  · obtain ⟨f, hf, -⟩ := h.mapped v hv hv'
    exact ⟨f, hf⟩

theorem Undone.spared (h : Undone m m' d lo hi []) (hlo : lo ≤ hi) (hhi : hi ≤ 0x40000)
    (hgap : Gap m d lo) : Spared m m' d := by
  have hentry : ∀ v, entry m' d v = entry m d v
      ∨ ¬ Present (entry m' d v) ∧ ¬ Present (entry m d v) := fun v => by
    by_cases hv : lo ≤ v ∧ v < hi
    · exact .inr ⟨h.gone v hv.1 hv.2, hgap v hv.1 (by omega)⟩
    · exact .inl (h.keep v hv)
  have hkeep : leavesIn m' d 0 lo = leavesIn m d 0 lo :=
    leavesIn_congr fun v _ hv => h.keep v (by omega)
  have hgap' : Gap m' d lo := fun v hv hv' => by
    rcases hentry v with h | h
    · rw [h]
      exact hgap v hv hv'
    · exact h.1
  refine ⟨?_, hentry, fun v hv => h.keep v (by omega), h.vmfreed⟩
  rw [owned, owned, hgap.leaves_eq (hlo.trans hhi), hgap'.leaves_eq (hlo.trans hhi), hkeep]
  have hmove := h.moves.extend (leavesIn m d 0 lo)
  rwa [List.append_nil] at hmove

/-- **`allocuvm`** moves the end of an image up, or leaves it where it is. -/
theorem allocuvm_spec {oldsz : Nat} (newsz : Nat) (hn : (m.free ++ owned m d).Nodup)
    (hL : ∀ f ∈ m.free ++ owned m d, L.Frame f) (hgap : Gap m d ((oldsz + 4095) / 4096)) :
    (∃ m', allocuvm L m d oldsz newsz = .ok (max oldsz newsz, m') ∧ newsz < SHAREBASE
        ∧ Grown m m' d ((oldsz + 4095) / 4096) ((max oldsz newsz + 4095) / 4096)) ∨
      ∃ m', allocuvm L m d oldsz newsz = .ok (0, m') ∧ Spared m m' d
        ∧ (SHAREBASE ≤ newsz ∨ Short m d ((oldsz + 4095) / 4096) ((newsz + 4095) / 4096)) := by
  by_cases hnew : SHAREBASE ≤ newsz
  · exact .inr ⟨m, if_pos hnew, .refl m d, .inl hnew⟩
  by_cases hle : newsz < oldsz
  · have hmax : max oldsz newsz = oldsz := Nat.max_eq_left hle.le
    refine .inl ⟨m, ?_, not_le.mp hnew, ?_⟩
    · rw [allocuvm, if_neg hnew, if_pos hle, hmax]
    · rw [hmax]
      exact .refl m d _
  have hmax : max oldsz newsz = newsz := Nat.max_eq_right (not_lt.mp hle)
  have hpages : (newsz + 4095) / 4096 ≤ 0x40000 := by
    rw [SHAREBASE] at hnew
    omega
  have hmono : (oldsz + 4095) / 4096 ≤ (newsz + 4095) / 4096 := by omega
  rw [owned, ← List.append_assoc] at hn hL
  rcases allocuvm_cases (List.nodup_append.mp hn).1
      (fun g hg => hL g (List.mem_append_left _ hg)) (not_le.mp hnew) (not_lt.mp hle)
      (fun v hv hv' => hgap v hv (by omega)) with ⟨m', hr, h⟩ | ⟨m', hr, h⟩
  · rw [hmax]
    exact .inl ⟨m', hr, not_le.mp hnew, h.grown hmono hpages hgap⟩
  · exact .inr ⟨m', hr, h.spared hmono hpages hgap, .inr h.short⟩

/-! ## Down -/

theorem Dropped.gap (h : Dropped m m' d lo hi) (hgap : Gap m d hi) : Gap m' d lo :=
  fun v hv hv' => by
    rw [h.entry]
    by_cases hp : lo ≤ v ∧ v < hi ∧ Present (Xv6.entry m d v)
    · rw [if_pos hp]
      exact not_present_zero
    · rw [if_neg hp]
      by_cases hvh : hi ≤ v
      · exact hgap v hvh hv'
      · exact fun hc => hp ⟨hv, not_le.mp hvh, hc⟩

/-- Dropping the pages from `lo` to the end. -/
theorem Dropped.owned_moves (h : Dropped m m' d lo hi) (hlo : lo ≤ hi) (hhi : hi ≤ 0x40000)
    (hgap : Gap m d hi) : m.Moves (owned m d) m' (owned m' d) := by
  have hkeep : leavesIn m' d 0 lo = leavesIn m d 0 lo :=
    leavesIn_congr fun v _ hv => by rw [h.entry, if_neg (by omega)]
  have hgap' := h.gap hgap
  rw [owned, owned, hgap.leaves_eq hhi, hgap'.leaves_eq (hlo.trans hhi),
    leavesIn_split (Nat.zero_le lo) hlo, hkeep]
  refine (h.moves.extend (leavesIn m d 0 lo)).congr ?_ (List.Perm.refl _)
  rw [List.append_assoc]
  exact List.perm_append_comm.append_left _

/-! ## Either way -/

/-- **An image of `old` pages has become one of `new` pages**; the first `kept` of them stayed. -/
structure Ended (m m' : Mem) (d old kept new : Nat) : Prop where
  moves : m.Moves (owned m d) m' (owned m' d)
  gap : Gap m' d new
  upper : ∀ v, 0x40000 ≤ v → entry m' d v = entry m d v
  keep : ∀ v, v < kept → Present (entry m d v) → entry m' d v = entry m d v
  full : (∀ v, v < old → Present (entry m d v)) → ∀ v, v < new → Present (entry m' d v)
  vmfreed : m'.vmfreed = m.vmfreed

theorem Ended.refl (hgap : Gap m d n) : Ended m m d n n n where
  moves := Heap.Moves.refl _ _
  gap := hgap
  upper _ _ := rfl
  keep _ _ _ := rfl
  full h := h
  vmfreed := rfl

theorem Grown.ended (h : Grown m m' d lo hi) (hgap : Gap m d lo) (hlo : lo ≤ hi)
    (hhi : hi ≤ 0x40000) : Ended m m' d lo lo hi where
  moves := h.moves
  gap := h.gap hgap hlo
  upper v hv := h.keep v (by omega)
  keep v hv _ := h.keep v (by omega)
  full hlow v hv := by
    by_cases hv' : lo ≤ v
    · obtain ⟨f, hf⟩ := h.page v hv' hv
      rw [hf]
      exact present_mkPte _ _
    · rw [h.keep v (by omega)]
      exact hlow v (not_le.mp hv')
  vmfreed := h.vmfreed

theorem Spared.ended (h : Spared m m' d) (hgap : Gap m d n) : Ended m m' d n n n where
  moves := h.moves
  gap v hv hv' hc := hgap v hv hv' ((h.present_iff v).mp hc)
  upper := h.upper
  keep v _ hp := (h.entry v).resolve_right fun hc => hc.2 hp
  full hlow v hv := (h.present_iff v).mpr (hlow v hv)
  vmfreed := h.vmfreed

theorem Dropped.ended (h : Dropped m m' d lo hi) (hgap : Gap m d hi) (hlo : lo ≤ hi)
    (hhi : hi ≤ 0x40000) : Ended m m' d hi lo lo where
  moves := h.owned_moves hlo hhi hgap
  gap := h.gap hgap
  upper v hv := by rw [h.entry, if_neg (by omega)]
  keep v hv _ := by rw [h.entry, if_neg (by omega)]
  full hlow v hv := by
    rw [h.entry, if_neg (by omega)]
    exact hlow v (by omega)
  vmfreed := h.vmfreed

end Xv6
