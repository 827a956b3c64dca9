import Mathlib.Data.List.Nodup

/-!
# Machinery/Chain — lists made of pointers

Nodes `α` are reached through pointers `β`: `ref a` points to the node `a`, and `next a` is the pointer
kept in it.  A segment is what is met on the way from one pointer to another:

    x = ref a ─▸ a ─next─▸ b ─next─▸ c ─next─▸ y          Seg ref next x [a, b, c] y

A list that ends with a null pointer and a ring are both segments; only the far end differs.
-/

namespace Chain

variable {α β : Type*}

/-- **The nodes met on the way** from pointer `x` to pointer `y`. -/
inductive Seg (ref next : α → β) : β → List α → β → Prop
  | nil (x : β) : Seg ref next x [] x
  | cons {a : α} {l : List α} {y : β} : Seg ref next (next a) l y → Seg ref next (ref a) (a :: l) y

variable {ref next next' : α → β} {x y z : β} {a b : α} {l l' : List α}

namespace Seg

theorem nil_iff : Seg ref next x [] y ↔ x = y := by
  constructor
  · rintro ⟨⟩
    rfl
  · rintro rfl
    exact .nil x

theorem cons_iff : Seg ref next x (a :: l) y ↔ x = ref a ∧ Seg ref next (next a) l y := by
  constructor
  · rintro ⟨⟩
    exact ⟨rfl, ‹_›⟩
  · rintro ⟨rfl, h⟩
    exact .cons h

/-- Two segments, one after the other. -/
theorem append_iff : Seg ref next x (l ++ l') z ↔ ∃ y, Seg ref next x l y ∧ Seg ref next y l' z := by
  induction l generalizing x with
  | nil => simp [nil_iff]
  | cons a l ih =>
    rw [List.cons_append, cons_iff, ih]
    simp [cons_iff, and_assoc]

/-- Only the nodes met matter. -/
theorem congr (h : Seg ref next x l y) (hnext : ∀ a ∈ l, next' a = next a) :
    Seg ref next' x l y := by
  induction h with
  | nil x => exact .nil x
  | cons _ ih =>
    obtain ⟨ha, hl⟩ := List.forall_mem_cons.mp hnext
    refine .cons ?_
    rw [ha]
    exact ih hl

/-- A pointer changed in a node that is not met. -/
theorem update [DecidableEq α] (h : Seg ref next x l y) (ha : a ∉ l) (z : β) :
    Seg ref (Function.update next a z) x l y :=
  h.congr fun b hb => Function.update_of_ne (by rintro rfl; exact ha hb) _ _

section Null

variable (hnull : ∀ a, y ≠ ref a) (hinj : Function.Injective ref)
include hnull hinj

/-- A list that ends with null is determined by where it begins… -/
theorem unique (h : Seg ref next x l y) (h' : Seg ref next x l' y) : l = l' := by
  induction h generalizing l' with
  | nil x =>
    cases h' with
    | nil => rfl
    | cons _ => exact absurd rfl (hnull _)
  | @cons a l y _ ih =>
    generalize hx : ref a = x at h'
    cases h' with
    | nil => exact absurd hx.symm (hnull a)
    | cons h' =>
      obtain rfl := hinj hx
      rw [ih hnull h']

/-- …so it meets no node twice. -/
theorem nodup (h : Seg ref next x l y) : l.Nodup := by
  induction l generalizing x with
  | nil => exact .nil
  | cons a l ih =>
    have hrest := (cons_iff.mp h).2
    refine List.nodup_cons.mpr ⟨fun ha => ?_, ih hrest⟩
    -- from a second `a` on, the way would be the same as from the first
    obtain ⟨l₁, l₂, rfl⟩ := List.append_of_mem ha
    obtain ⟨z, -, htail⟩ := append_iff.mp hrest
    have hlen := congrArg List.length
      (unique hnull hinj (cons_iff.mp htail).2 hrest)
    simp only [List.length_append, List.length_cons] at hlen
    omega

/-- The node whose pointer is null is the last. -/
theorem eq_concat (h : Seg ref next x l y) (ha : a ∈ l) (hend : next a = y) :
    ∃ l', l = l' ++ [a] := by
  obtain ⟨l₁, l₂, rfl⟩ := List.append_of_mem ha
  obtain ⟨z, -, htail⟩ := append_iff.mp h
  have hrest := (cons_iff.mp htail).2
  rw [hend] at hrest
  obtain rfl := unique hnull hinj hrest (.nil y)
  exact ⟨l₁, rfl⟩

/-- **A node is put at the end**, by a write to the pointer that was null. -/
theorem concat [DecidableEq α] (h : Seg ref next x l y) (ha : a ∈ l) (hend : next a = y)
    (hb : b ∉ l) (hlast : next b = y) : Seg ref (Function.update next a (ref b)) x (l ++ [b]) y := by
  have hn := nodup hnull hinj h
  obtain ⟨l', rfl⟩ := eq_concat hnull hinj h ha hend
  obtain ⟨z, hfirst, htail⟩ := append_iff.mp h
  obtain ⟨rfl, -⟩ := cons_iff.mp htail
  have hout : a ∉ l' := fun hc =>
    (List.nodup_append.mp hn).2.2 a hc a (List.mem_singleton_self a) rfl
  have hne : b ≠ a := by
    rintro rfl
    exact hb (by simp)
  refine append_iff.mpr ⟨_, append_iff.mpr ⟨_, hfirst.update hout _, .cons (.nil _)⟩, ?_⟩
  rw [Function.update_self]
  refine .cons ?_
  rw [Function.update_of_ne hne, hlast]
  exact .nil y

end Null

/-! ## Rings

A ring is a segment that ends where it begins. -/

theorem cons_iff_id {succ : α → α} {o w : α} :
    Seg id succ o (a :: l) w ↔ o = a ∧ Seg id succ (succ a) l w := cons_iff

/-- The pointers kept, against the nodes they lead to. -/
theorem map_next (h : Seg ref next x l y) : x :: l.map next = l.map ref ++ [y] := by
  induction h with
  | nil x => rfl
  | cons _ ih =>
    rw [List.map_cons, List.map_cons, List.cons_append, ih]

/-- No two nodes of a ring point to the same one. -/
theorem next_inj {succ : α → α} {o : α} (h : Seg id succ o l o) (hn : l.Nodup) (ha : a ∈ l)
    (hb : b ∈ l) (hab : succ a = succ b) : a = b := by
  have hperm : (l.map succ).Perm l := by
    refine List.Perm.cons_inv (a := o) ?_
    rw [h.map_next, List.map_id]
    exact List.perm_append_singleton o l
  exact List.inj_on_of_nodup_map (hperm.nodup_iff.mpr hn) ha hb hab

/-- A ring, from another of its nodes on. -/
theorem rotate {succ : α → α} {o : α} (h : Seg id succ o (l ++ a :: l') o) :
    Seg id succ (succ a) (l' ++ (l ++ [a])) (succ a) := by
  obtain ⟨z, hl, htail⟩ := append_iff.mp h
  obtain ⟨rfl, hl'⟩ := cons_iff.mp htail
  exact append_iff.mpr ⟨o, hl', append_iff.mpr ⟨_, hl, .cons (.nil _)⟩⟩

end Seg

end Chain
