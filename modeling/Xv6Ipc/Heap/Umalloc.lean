import Xv6Ipc.Memory.Layout
import Xv6Ipc.Heap.Header

/-!
# Heap/Umalloc — `malloc` and `free`

The allocator of the user library (umalloc.c).  Free blocks hang on a ring through their headers, with
the static header `base` among them; `freep` points to one of them:

    base ─▸ p₁ ─▸ p₂ ─▸ … ─▸ pₖ ─▸ base

`free` looks for the place of a block on the ring and joins it with its neighbours, `malloc` looks for
a block that is large enough and asks the system for more when it has been all the way round.  Both
loops run on fuel here; that some fuel is always enough is a theorem.
-/

namespace Xv6.Heap

/-- What the allocator sees of its process: the memory, the static `freep`, and the end of the heap. -/
structure Arena where
  mem : Bytes
  freep : Nat
  brk : Nat

/-- `p + k`, for a pointer to headers. -/
def plus (p k : Nat) : Nat := u32 (p + 8 * k)

theorem plus_of_lt {p k : Nat} (h : p + 8 * k < 2 ^ 32) : plus p k = p + 8 * k := by
  rw [plus, u32]
  omega

/-! ## `free` -/

/-- The loop of `free`: from `p` on, the header that `bp` belongs behind. -/
def freeScan (m : Bytes) (bp : Nat) : Nat → Nat → Option Nat
  | 0, _ => none
  | fuel + 1, p =>
    if bp > p ∧ bp < ptr m p then some p
    else if p ≥ ptr m p ∧ (bp > p ∨ bp < ptr m p) then some p
    else freeScan m bp fuel (ptr m p)

/-- `bp` is joined to the block above it, or points to it. -/
def joinUpper (m : Bytes) (bp p : Nat) : Bytes :=
  if plus bp (size m bp) = ptr m p then
    let m := setSize m bp (u32 (size m bp + size m (ptr m p)))
    setPtr m bp (ptr m (ptr m p))
  else setPtr m bp (ptr m p)

/-- `bp` is joined to the block below it, or pointed to by it. -/
def joinLower (m : Bytes) (bp p : Nat) : Bytes :=
  if plus p (size m p) = bp then
    let m := setSize m p (u32 (size m p + size m bp))
    setPtr m p (ptr m bp)
  else setPtr m p bp

/-- `free` (umalloc.c:24). -/
def free (fuel ap : Nat) (h : Arena) : Option Arena :=
  let bp := u32 (ap - 8)
  (freeScan h.mem bp fuel h.freep).map fun p =>
    { h with mem := joinLower (joinUpper h.mem bp p) bp p, freep := p }

/-! ## `malloc` -/

/-- `sbrk`, as the allocator knows it: the old end of the heap, or `-1`.  Whether a request for more is
granted is for the system to say; a request for less makes `growproc` add a negative number to the end,
and leaves the heap as it is if the sum wraps round. -/
def sbrk (grant : Nat → Int → Bool) (n : Int) (h : Arena) : Nat × Arena :=
  let stop := u32 (h.brk + n)
  let sz :=
    if 0 < n then if grant h.brk n ∧ h.brk + n < 2 ^ 32 then stop else 0
    else if n < 0 ∧ stop < h.brk then stop else h.brk
  if n ≠ 0 ∧ sz = 0 then (2 ^ 32 - 1, h) else (h.brk, { h with brk := sz })

/-- More is asked for. -/
theorem sbrk_more (grant : Nat → Int → Bool) {n : Int} (hn : 0 < n) (h : Arena) :
    sbrk grant n h = if grant h.brk n ∧ h.brk + n < 2 ^ 32 then (h.brk, { h with brk := (h.brk + n).toNat })
      else (2 ^ 32 - 1, h) := by
  rw [sbrk]
  by_cases hgrant : grant h.brk n ∧ h.brk + n < 2 ^ 32
  · have hstop : u32 (h.brk + n) = (h.brk + n).toNat := by
      rw [u32]
      omega
    simp only [if_pos hn, if_pos hgrant, hstop]
    rw [if_neg (by omega)]
  · simp only [if_pos hn, if_neg hgrant]
    rw [if_pos ⟨hn.ne', trivial⟩]

/-- `morecore` (umalloc.c:47): the new `freep`, or 0. -/
def morecore (grant : Nat → Int → Bool) (fuel nu : Nat) (h : Arena) : Option (Nat × Arena) :=
  let nu := if nu < 4096 then 4096 else nu
  let (p, h) := sbrk grant (i32 (u32 (nu * 8))) h
  if p = 2 ^ 32 - 1 then some (0, h)
  else
    (free fuel (plus p 1) { h with mem := setSize h.mem p nu }).map fun h => (h.freep, h)

/-- A block of `nunits` taken off the block at `p`, which `prevp` points to. -/
def carve (nunits prevp p : Nat) (h : Arena) : Nat × Arena :=
  if size h.mem p = nunits then
    (plus p 1, { h with mem := setPtr h.mem prevp (ptr h.mem p), freep := prevp })
  else
    let m := setSize h.mem p (size h.mem p - nunits)
    let p := plus p (size m p)
    (plus p 1, { h with mem := setSize m p nunits, freep := prevp })

/-- The loop of `malloc`. -/
def mallocLoop (grant : Nat → Int → Bool) (nunits : Nat) :
    Nat → Nat → Nat → Arena → Option (Nat × Arena)
  | 0, _, _, _ => none
  | fuel + 1, prevp, p, h =>
    if size h.mem p ≥ nunits then some (carve nunits prevp p h)
    else if p = h.freep then do
      let (p, h) ← morecore grant fuel nunits h
      if p = 0 then some (0, h) else mallocLoop grant nunits fuel p (ptr h.mem p) h
    else mallocLoop grant nunits fuel p (ptr h.mem p) h

/-- `freep`, made to point to an empty ring the first time. -/
def start (base : Nat) (h : Arena) : Arena :=
  if h.freep = 0 then { h with mem := setSize (setPtr h.mem base base) base 0, freep := base } else h

/-- `malloc` (umalloc.c:66), with `base` the address of the static header. -/
def malloc (grant : Nat → Int → Bool) (base fuel nbytes : Nat) (h : Arena) : Option (Nat × Arena) :=
  let nunits := u32 (nbytes + 8 - 1) / 8 + 1
  let h := start base h
  mallocLoop grant nunits fuel h.freep (ptr h.mem h.freep) h

end Xv6.Heap
