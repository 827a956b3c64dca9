import Xv6Ipc.Files.Reservation

/-!
# Files/Overrun — a lookup that frees what it passes

`namex` holds the lock of no inode when a turn of its loop begins.  A process whose current directory is
the inode of that turn may exit there, and if the directory has been removed, the reference of the lookup
is the last one: the `iput` of the turn frees the inode, in the transaction of the lookup.

    ilock d ── dirlookup ".." ── iput d          frees d, if its only other holder has just left

Directories removed one inside the other can be passed in a row with `../../…`, and ten of them with
their inodes in ten blocks are ten blocks and the bitmap: one more than `begin_op` has set aside.
-/

namespace Xv6.Fs

open Outcome Function

variable {parent : Bool} {names : List (List Nat)} {ip : Nat} {p : Slot} {path : List Nat}

/-! ## Lookups with others at work -/

/-- Calls of others.  What they log is theirs. -/
def meanwhile (calls : List (Slot × Call)) : M PUnit := do
  let fs ← get
  calls.forM fun c => do
    let _ ← syscall c.1 c.2
    return ()
  modify fun fs' => { fs' with logged := fs.logged }

/-- A turn of the loop of `namex`; `go` are the turns after it. -/
def namexTurn (parent : Bool) (name : List Nat) (rest : List (List Nat))
    (go : Nat → M (Option (Nat × List Nat))) (ip : Nat) : M (Option (Nat × List Nat)) := do
  ilock ip
  let fs ← get
  if (fs.mem ip).type ≠ .dir then do
    iput ip
    return none
  else if parent = true ∧ rest = [] then return some (ip, name)
  else do
    match ← dirlookup ip name with
    | none => do
      iput ip
      return none
    | some (next, _) => do
      iput ip
      go next

theorem namexFrom_cons (parent : Bool) (name : List Nat) (rest : List (List Nat)) (ip : Nat) :
    namexFrom parent (name :: rest) ip = namexTurn parent name rest (namexFrom parent rest) ip := rfl

/-- The loop of `namex`, with calls of others before its turns. -/
def namexFromAmid (parent : Bool) :
    List (List (Slot × Call)) → List (List Nat) → Nat → M (Option (Nat × List Nat))
  | _, [], ip => namexFrom parent [] ip
  | others, name :: rest, ip => do
    meanwhile (others.headD [])
    namexTurn parent name rest (namexFromAmid parent others.tail rest) ip

/-- `namei` of a path that does not start at the root. -/
def nameiAmid (others : List (List (Slot × Call))) (p : Slot) (path : List Nat) : M (Option Nat) := do
  let fs ← get
  match (fs.task p).cwd with
  | none => throw .nullCwd
  | some d => do
    idup d
    let r ← namexFromAmid false others (elems path) d
    return r.map Prod.fst

/-- `exec` up to its `end_op`. -/
def execLookupAmid (others : List (List (Slot × Call))) (p : Slot) (path : List Nat)
    (reads : List (Nat × Nat)) : M Int := nameiAmid others p path >>= execFound reads

theorem meanwhile_nil : meanwhile [] = pure ⟨⟩ := rfl

/-- With nobody else at work it is `namex`. -/
theorem namexFromAmid_nil : namexFromAmid parent [] names = namexFrom parent names := by
  induction names with
  | nil => rfl
  | cons name names ih =>
    funext ip
    rw [namexFromAmid, namexFrom_cons, List.headD_nil, meanwhile_nil, pure_bind, List.tail_nil, ih]

/-- …and `exec` as it was. -/
theorem execLookupAmid_nil (hpath : path.headD 0 ≠ slash) (reads : List (Nat × Nat)) :
    execLookupAmid [] p path reads = execLookup p path reads := by
  refine congrArg (· >>= execFound reads) (funext fun fs => ?_)
  change (match (fs.task p).cwd with
    | none => throw .nullCwd
    | some d => do
      idup d
      let r ← namexFromAmid false [] (elems path) d
      return r.map Prod.fst : M (Option Nat)) fs = ((if path.headD 0 = slash then do
        iget ROOTINO
        namexFrom false (elems path) ROOTINO
      else
        match (fs.task p).cwd with
        | none => throw .nullCwd
        | some d => do
          idup d
          namexFrom false (elems path) d : M _) >>= fun r => pure (r.map Prod.fst)) fs
  rw [if_neg hpath, namexFromAmid_nil]
  cases (fs.task p).cwd with
  | none => rfl
  | some d => exact congrFun (bind_assoc _ _ _).symm fs

/-! ## Eleven directories, one inside the other

Directory `k` has inode `8 * k` and block `100 + k`, and process `k` is in it.  All are removed but the
root, which is directory `0` here and has inode `1`. -/

namespace Nest

/-- The inode of directory `k`. -/
def inum (k : Nat) : Nat := if k = 0 then ROOTINO else 8 * k

/-- The directory that an inode is. -/
def level (i : Nat) : Option Nat :=
  if i = ROOTINO then some 0 else if i % 8 = 0 ∧ 8 ≤ i ∧ i ≤ 88 then some (i / 8) else none

def node (k : Nat) : Dinode :=
  { Dinode.zero with
    type := .dir
    nlink := if k = 0 then 1 else 0
    size := 2 * DESIZE
    addrs := update (fun _ => 0) 0 (100 + k) }

theorem node_addrs (k : Nat) : (node k).addrs 0 = 100 + k := by
  change update (fun _ => 0) 0 (100 + k) 0 = _
  rw [update_self]

/-- The bytes of directory `k`. -/
def bytes (k : Nat) : List Nat :=
  Dirent.bytes ⟨inum k, cstr "."⟩ ++ Dirent.bytes ⟨inum (k - 1), cstr ".."⟩

def fs : State where
  used b := decide (b < nmeta ∨ 100 ≤ b ∧ b ≤ 111)
  din i := (level i).elim .zero node
  data b := if 100 ≤ b ∧ b ≤ 111 then fun o => (bytes (b - 100)).getD o 0 else zeroes
  inode i := (level i).elim ⟨0, false, .zero⟩ fun k => ⟨1, true, node k⟩
  cached := 12
  file _ := ⟨0, none, false, false, 0⟩
  task p := ⟨if p.val ≤ 11 then some (inum p.val) else none, fun _ => none⟩
  logged := []

theorem used_iff {b : Nat} : fs.used b = true ↔ b < nmeta ∨ 100 ≤ b ∧ b ≤ 111 := decide_eq_true_iff

theorem din_of_level {i k : Nat} (h : level i = some k) : fs.din i = node k := by
  change (level i).elim .zero node = _
  rw [h]
  rfl

theorem din_of_none {i : Nat} (h : level i = none) : fs.din i = .zero := by
  change (level i).elim .zero node = _
  rw [h]
  rfl

/-- The one block of a directory. -/
theorem refsOf_eq (i : Nat) : fs.refsOf i = (level i).elim [] fun k => [100 + k] := by
  rw [State.refsOf]
  cases hl : level i with
  | none =>
    rw [din_of_none hl]
    exact refs_eq_nil fun _ _ => rfl
  | some k =>
    rw [din_of_level hl]
    have hclear : ∀ j ≤ NDIRECT, ((node k).setAddr 0 0).addrs j = 0 := fun j _ => by
      rw [Dinode.setAddr_addrs, node, update_idem, update_eq_self_iff.mpr rfl]
    have haddr := node_addrs k
    have hp : (refs fs.data (node k)).Perm _ :=
      refs_clear (k := 0) (by decide) (by rw [haddr]; omega)
    rw [refs_eq_nil hclear, haddr] at hp
    exact List.perm_singleton.mp hp

theorem allRefs_eq : fs.allRefs = List.range' 100 12 := by
  have hrefs : fs.refsOf = fun i => (level i).elim [] fun k => [100 + k] := funext refsOf_eq
  rw [State.allRefs, hrefs]
  decide +kernel

/-- Every block is free, metadata, or a directory's. -/
theorem own : (fs.free ++ (List.range nmeta ++ fs.allRefs)).Perm (List.range FSSIZE) := by
  have hmem : ∀ b, b ∈ List.range nmeta ++ fs.allRefs ↔ fs.used b = true := fun b => by
    rw [used_iff, allRefs_eq, List.mem_append, List.mem_range, List.mem_range'_1]
    omega
  have hrest : (List.range nmeta ++ fs.allRefs).Nodup := by
    rw [allRefs_eq]
    decide +kernel
  have hall : (fs.free ++ (List.range nmeta ++ fs.allRefs)).Nodup := by
    refine (nodup_free fs).append hrest fun b hfree hb => ?_
    exact nomatch ((mem_free.mp hfree).2).symm.trans ((hmem b).mp hb)
  refine (List.perm_ext_iff_of_nodup hall List.nodup_range).mpr fun b => ?_
  rw [List.mem_append, hmem, mem_free, List.mem_range]
  constructor
  · rintro (⟨hlt, -⟩ | hused)
    · exact hlt
    · have := used_iff.mp hused
      rw [FSSIZE_eq]
      have hmeta : nmeta ≤ 1000 := by decide +kernel
      omega
  · intro hlt
    cases hu : fs.used b with
    | true => exact .inr rfl
    | false => exact .inl ⟨hlt, rfl⟩

theorem cwds_eq : fs.cwds = (List.range 12).map inum := by decide +kernel

theorem fileRefs_eq : fs.fileRefs = [] := by decide +kernel

/-- An inode that is a directory. -/
theorem level_eq_some {i k : Nat} (h : level i = some k) : i = inum k ∧ k ≤ 11 := by
  rw [level] at h
  rw [inum]
  split at h
  · obtain rfl := Option.some.inj h
    exact ⟨by rwa [if_pos rfl], by omega⟩
  · split at h
    · obtain rfl := Option.some.inj h
      rw [if_neg (by omega)]
      omega
    · exact nomatch h

theorem inode_of_level {i k : Nat} (h : level i = some k) : fs.inode i = ⟨1, true, node k⟩ := by
  change (level i).elim _ _ = _
  rw [h]
  rfl

theorem inode_of_none {i : Nat} (h : level i = none) : fs.inode i = ⟨0, false, .zero⟩ := by
  change (level i).elim _ _ = _
  rw [h]
  rfl

/-- No process is anywhere else. -/
theorem count_cwds_of_none {i : Nat} (h : level i = none) : fs.cwds.count i = 0 := by
  rw [cwds_eq]
  refine List.count_eq_zero.mpr fun hmem => ?_
  obtain ⟨k, hk, rfl⟩ := List.mem_map.mp hmem
  have hlevel : ∀ k ∈ List.range 12, level (inum k) ≠ none := by decide
  exact hlevel k hk h

theorem count_cwds_inum {k : Nat} (hk : k ≤ 11) : fs.cwds.count (inum k) = 1 := by
  rw [cwds_eq]
  have hcount : ∀ k < 12, ((List.range 12).map inum).count (inum k) = 1 := by decide
  exact hcount k (by omega)

/-- An inode that is not in use. -/
theorem good_of_none {i : Nat} (h : level i = none) : Good fs.cwds fs i where
  dense := by
    rw [din_of_none h]
    exact fun o ho => absurd ho (Nat.not_lt_zero o)
  freed := by
    rw [din_of_none h]
    exact fun _ => ⟨rfl, fun _ _ => rfl⟩
  area := by
    rw [din_of_none h]
    exact fun ht => absurd rfl ht
  aligned := by
    rw [din_of_none h]
    exact nofun
  short := by
    rw [din_of_none h]
    decide
  synced := by
    rw [inode_of_none h]
    exact nofun
  orphan := by
    rw [din_of_none h]
    exact fun ht => absurd rfl ht
  acct := by rw [count_cwds_of_none h, fileRefs_eq, inode_of_none h, List.count_nil]
  files := nofun

/-- A directory. -/
theorem good_of_level {i k : Nat} (h : level i = some k) : Good fs.cwds fs i where
  dense o ho := by
    rw [din_of_level h] at ho ⊢
    have ho : o < 2 * DESIZE := ho
    have hblock : o / BSIZE = 0 := Nat.div_eq_of_lt (ho.trans (by decide))
    rw [hblock, slot_of_lt (by decide), node_addrs]
    omega
  freed := by
    rw [din_of_level h]
    exact nofun
  area _ := by
    obtain ⟨rfl, hk⟩ := level_eq_some h
    have hlt : ∀ k < 12, inum k < ninums := by decide
    exact hlt k (by omega)
  aligned _ := by
    rw [din_of_level h]
    exact Nat.dvd_mul_left _ _
  short := by
    rw [din_of_level h, node]
    dsimp only
    split <;> decide
  synced _ := by
    rw [State.mem, inode_of_level h, din_of_level h]
    exact ⟨rfl, nofun⟩
  orphan _ _ := by
    rw [inode_of_level h]
    exact ⟨rfl, Nat.one_pos⟩
  acct := by
    rw [inode_of_level h, fileRefs_eq, List.count_nil]
    obtain ⟨rfl, hk⟩ := level_eq_some h
    rw [count_cwds_inum hk]
  files := nofun

/-- **The state is in order.** -/
theorem sound : Sound fs.cwds fs where
  own := own
  good i := by
    cases h : level i with
    | none => exact good_of_none h
    | some k => exact good_of_level h

/-- The process in the innermost directory. -/
def looker : Slot := ⟨11, by decide⟩

/-- Before each turn of its lookup but the first, the process in the directory it has come to exits. -/
def exits : List (List (Slot × Call)) :=
  [] :: (List.range 10).map fun j => [(⟨10 - j, (Nat.sub_le 10 j).trans_lt (by decide)⟩, .exit)]

/-- `../../../../../../../../../../..` -/
def upwards : List Nat := cstr "../../../../../../../../../../.."

/-- The blocks that the lookup writes. -/
def written : Option (List Nat) :=
  match execLookupAmid exits looker upwards [] fs with
  | .ok (_, fs') => some fs'.logged
  | .error _ => none

end Nest

end Xv6.Fs
