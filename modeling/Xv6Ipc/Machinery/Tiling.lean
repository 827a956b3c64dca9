import Xv6Ipc.Machinery.Chain

/-!
# Machinery/Tiling — a stretch of the line cut into tiles

A tile goes from `lo a` to `hi a` and is not empty.  Tiles that follow one another without a gap are a
segment whose pointers are the places themselves:

    x = lo a ──hi a = lo b──hi b = lo c──hi c = y          Tiles lo hi x [a, b, c] y

Such tiles are in order, and every place between `x` and `y` lies in exactly one of them.
-/

namespace Tiling

open Chain

variable {α : Type*} {lo hi : α → Nat} {x y z n : Nat} {a b : α} {l l' : List α}

/-- **Tiles from `x` to `y`**, in order and without a gap. -/
structure Tiles (lo hi : α → Nat) (x : Nat) (l : List α) (y : Nat) : Prop where
  seg : Seg lo hi x l y
  pos : ∀ a ∈ l, lo a < hi a

namespace Tiles

theorem nil_iff : Tiles lo hi x [] y ↔ x = y :=
  ⟨fun h => Seg.nil_iff.mp h.seg, fun h => ⟨Seg.nil_iff.mpr h, fun _ ha => nomatch ha⟩⟩

theorem cons_iff : Tiles lo hi x (a :: l) y ↔ x = lo a ∧ lo a < hi a ∧ Tiles lo hi (hi a) l y := by
  constructor
  · rintro ⟨hseg, hpos⟩
    obtain ⟨hx, hrest⟩ := Seg.cons_iff.mp hseg
    obtain ⟨ha, hl⟩ := List.forall_mem_cons.mp hpos
    exact ⟨hx, ha, hrest, hl⟩
  · rintro ⟨rfl, ha, hseg, hpos⟩
    exact ⟨.cons hseg, List.forall_mem_cons.mpr ⟨ha, hpos⟩⟩

theorem append_iff : Tiles lo hi x (l ++ l') z ↔ ∃ y, Tiles lo hi x l y ∧ Tiles lo hi y l' z := by
  constructor
  · rintro ⟨hseg, hpos⟩
    obtain ⟨y, h, h'⟩ := Seg.append_iff.mp hseg
    obtain ⟨hp, hp'⟩ := List.forall_mem_append.mp hpos
    exact ⟨y, ⟨h, hp⟩, h', hp'⟩
  · rintro ⟨y, ⟨h, hp⟩, h', hp'⟩
    exact ⟨Seg.append_iff.mpr ⟨y, h, h'⟩, List.forall_mem_append.mpr ⟨hp, hp'⟩⟩

theorem le (h : Tiles lo hi x l y) : x ≤ y := by
  induction l generalizing x with
  | nil => exact Nat.le_of_eq (nil_iff.mp h)
  | cons a l ih =>
    obtain ⟨rfl, ha, hl⟩ := cons_iff.mp h
    exact Nat.le_trans (Nat.le_of_lt ha) (ih hl)

/-- A tile lies between the ends. -/
theorem within (h : Tiles lo hi x l y) (ha : a ∈ l) : x ≤ lo a ∧ hi a ≤ y := by
  obtain ⟨l₁, l₂, rfl⟩ := List.append_of_mem ha
  obtain ⟨z, hl, hr⟩ := append_iff.mp h
  obtain ⟨rfl, -, hr⟩ := cons_iff.mp hr
  exact ⟨hl.le, hr.le⟩

/-- **Tiles are in order.** -/
theorem pairwise (h : Tiles lo hi x l y) : l.Pairwise fun a b => hi a ≤ lo b := by
  induction l generalizing x with
  | nil => exact .nil
  | cons a l ih =>
    obtain ⟨-, -, hl⟩ := cons_iff.mp h
    exact .cons (fun b hb => (hl.within hb).1) (ih hl)

/-- **Every place lies in a tile.** -/
theorem covers (h : Tiles lo hi x l y) (hx : x ≤ n) (hy : n < y) : ∃ a ∈ l, lo a ≤ n ∧ n < hi a := by
  induction l generalizing x with
  | nil =>
    obtain rfl := nil_iff.mp h
    omega
  | cons a l ih =>
    obtain ⟨rfl, -, hl⟩ := cons_iff.mp h
    rcases Nat.lt_or_ge n (hi a) with hn | hn
    · exact ⟨a, List.mem_cons_self, hx, hn⟩
    · obtain ⟨b, hb, hlo, hhi⟩ := ih hl hn
      exact ⟨b, List.mem_cons_of_mem a hb, hlo, hhi⟩

/-- Two tiles that lie over one another are the same. -/
theorem eq_or_apart (h : Tiles lo hi x l y) (ha : a ∈ l) (hb : b ∈ l) :
    a = b ∨ hi a ≤ lo b ∨ hi b ≤ lo a := by
  obtain ⟨l₁, l₂, rfl⟩ := List.append_of_mem ha
  obtain ⟨-, hright, hcross⟩ := List.pairwise_append.mp h.pairwise
  rcases List.mem_append.mp hb with hb | hb
  · exact .inr (.inr (hcross b hb a List.mem_cons_self))
  rcases List.mem_cons.mp hb with rfl | hb
  · exact .inl rfl
  · exact .inr (.inl ((List.pairwise_cons.mp hright).1 b hb))

end Tiles

end Tiling
