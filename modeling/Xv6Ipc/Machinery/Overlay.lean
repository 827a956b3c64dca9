import Mathlib.Data.List.Basic

/-!
# Machinery/Overlay — lists written over a function

A memory, seen from outside, is a function of addresses, and copying into it puts a list over the
function:

    f        … f (a-1)   f a   …   f (a+n-1)   f (a+n) …
    put      … f (a-1)   l[0]  …   l[n-1]      f (a+n) …

A list that the function `Holds` stays held while lists are put elsewhere.
-/

namespace Overlay

variable {α : Type*} {f g : Nat → α} {a b x : Nat} {l l' : List α}

/-- The list `l` over the function `f`, from `a` on. -/
def put (f : Nat → α) (a : Nat) (l : List α) (x : Nat) : α :=
  if a ≤ x then l[x - a]?.getD (f x) else f x

/-- `x` is not where `l` goes. -/
def Outside (a : Nat) (l : List α) (x : Nat) : Prop := x < a ∨ a + l.length ≤ x

theorem put_of_outside (h : Outside a l x) : put f a l x = f x := by
  rcases h with h | h
  · exact if_neg (Nat.not_le.mpr h)
  · rw [put, if_pos (by omega), List.getElem?_eq_none (by omega), Option.getD_none]

theorem put_add {k : Nat} (h : k < l.length) : put f a l (a + k) = l[k] := by
  rw [put, if_pos (Nat.le_add_right a k), Nat.add_sub_cancel_left, List.getElem?_eq_getElem h,
    Option.getD_some]

@[simp] theorem put_nil (f : Nat → α) (a : Nat) : put f a [] = f :=
  funext fun x => put_of_outside (by rw [Outside, List.length_nil]; omega)

theorem put_congr (h : f x = g x) : put f a l x = put g a l x := by rw [put, put, h]

/-- One list after the other. -/
theorem put_append (f : Nat → α) (a : Nat) (l l' : List α) :
    put f a (l ++ l') = put (put f a l) (a + l.length) l' := by
  funext x
  by_cases ha : a ≤ x
  · by_cases hx : x < a + l.length
    · have hout : put (put f a l) (a + l.length) l' x = put f a l x := put_of_outside (.inl hx)
      rw [hout, put, put, if_pos ha, if_pos ha, List.getElem?_append_left (by omega)]
    · have hidx : x - a - l.length = x - (a + l.length) := by omega
      have hout : put f a l x = f x := put_of_outside (.inr (Nat.not_lt.mp hx))
      rw [put, put, if_pos ha, if_pos (Nat.not_lt.mp hx), List.getElem?_append_right (by omega), hidx, hout]
  · rw [put_of_outside (.inl (Nat.not_le.mp ha)), put_of_outside (.inl (by omega)),
      put_of_outside (.inl (Nat.not_le.mp ha))]

theorem put_cons (f : Nat → α) (a : Nat) (y : α) (l : List α) :
    put f a (y :: l) = put (put f a [y]) (a + 1) l := put_append f a [y] l

/-- The same, seen from `b` on. -/
theorem put_shift (f : Nat → α) (b a x : Nat) (l : List α) :
    put f (b + a) l (b + x) = put (fun y => f (b + y)) a l x := by
  rw [put, put, Nat.add_sub_add_left]
  simp only [Nat.add_le_add_iff_left]

/-! ## Lists that are held -/

/-- **The function has the list at `a`.** -/
def Holds (f : Nat → α) (a : Nat) (l : List α) : Prop := ∀ k (h : k < l.length), f (a + k) = l[k]

theorem holds_put (f : Nat → α) (a : Nat) (l : List α) : Holds (put f a l) a l := fun _ => put_add

/-- It stays where nothing is put over it. -/
theorem Holds.congr (h : Holds f a l) (hg : ∀ x, a ≤ x → x < a + l.length → g x = f x) : Holds g a l :=
  fun k hk => (hg _ (Nat.le_add_right a k) (by omega)).trans (h k hk)

theorem Holds.append_left (h : Holds f a (l ++ l')) : Holds f a l := fun k hk => by
  rw [h k (by rw [List.length_append]; omega), List.getElem_append_left hk]

theorem Holds.append_right (h : Holds f a (l ++ l')) : Holds f (a + l.length) l' := fun k hk => by
  rw [Nat.add_assoc, h (l.length + k) (by rw [List.length_append]; omega),
    List.getElem_append_right (Nat.le_add_right _ _)]
  simp only [Nat.add_sub_cancel_left]

/-! ## Many lists -/

/-- Lists put one after the other, each at its address. -/
def puts (f : Nat → α) (ps : List (Nat × List α)) : Nat → α :=
  ps.foldl (fun f p => put f p.1 p.2) f

theorem puts_append (f : Nat → α) (ps qs : List (Nat × List α)) :
    puts f (ps ++ qs) = puts (puts f ps) qs := List.foldl_append

theorem puts_congr {ps : List (Nat × List α)} (h : f x = g x) : puts f ps x = puts g ps x := by
  induction ps generalizing f g with
  | nil => exact h
  | cons p ps ih => exact ih (put_congr h)

theorem puts_of_outside {ps : List (Nat × List α)} (h : ∀ p ∈ ps, Outside p.1 p.2 x) :
    puts f ps x = f x := by
  induction ps generalizing f with
  | nil => rfl
  | cons p ps ih =>
    obtain ⟨hp, hps⟩ := List.forall_mem_cons.mp h
    exact (ih hps).trans (put_of_outside hp)

/-- **Where only one of the lists goes, that list is found.** -/
theorem puts_of_mem {ps : List (Nat × List α)} {p : Nat × List α} (hp : p ∈ ps)
    (h : ∀ q ∈ ps, q = p ∨ Outside q.1 q.2 x) : puts f ps x = put f p.1 p.2 x := by
  induction ps generalizing f with
  | nil => exact absurd hp List.not_mem_nil
  | cons q ps ih =>
    obtain ⟨hq, hps⟩ := List.forall_mem_cons.mp h
    change puts (put f q.1 q.2) ps x = _
    by_cases hmem : p ∈ ps
    · rw [ih hmem hps]
      rcases hq with rfl | hq
      · by_cases hin : Outside q.1 q.2 x
        · rw [put_of_outside hin]
        · rw [Outside, not_or, Nat.not_lt, Nat.not_le] at hin
          obtain ⟨k, rfl⟩ := Nat.exists_eq_add_of_le hin.1
          rw [put_add (by omega), put_add (by omega)]
      · exact put_congr (put_of_outside hq)
    · obtain rfl : q = p := ((List.mem_cons.mp hp).resolve_right hmem).symm
      refine puts_of_outside fun r hr => (hps r hr).resolve_left fun he => ?_
      rw [he] at hr
      exact hmem hr

end Overlay
