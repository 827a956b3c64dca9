import Xv6Ipc.Process.Exec
import Xv6Ipc.Process.Fork

/-!
# Process/Calls — the other system calls

`exit` and `wait` end a process in two steps, `sbrk` moves the end of its memory, `share_mem` writes
one entry of its table of regions, and `open` and `close` put references to inodes into the file
table.  `syscall` is one call by one process, start to end.

    fork ─▸ runnable ──exit──▸ zombie ──wait, by the parent──▸ unused

-/

namespace Xv6

/-! ## `exit` and `wait` -/

/-- One turn of the loop of `exit` over the open files. -/
def closeFile (ofile : Fin NOFILE → Option Nat) (k : Kernel) (fd : Fin NOFILE) :
    Except Panic Kernel :=
  match ofile fd with
  | none => .ok k
  | some f => fileclose k f

/-- The slot of `q` once `exit` of `c` has passed its children to the first process. -/
def adopted (k : Kernel) (c q : Slot) : Proc :=
  if (k.proc q).parent = some c then { k.proc q with parent := some k.initproc } else k.proc q

/-- `exit`. -/
def exit (k : Kernel) (c : Slot) : Except Panic Kernel :=
  if c = k.initproc then .error .initExiting
  else
    match (List.finRange NOFILE).foldlM (closeFile (k.proc c).ofile) k with
    | .error e => .error e
    | .ok k =>
      match (k.proc c).cwd with
      | none => .error .nullDeref
      | some ip =>
        let k := iput k ip
        .ok ({ k with proc := adopted k c }.setProc c
          { adopted k c c with
            ofile := fun _ => none, shared := (adopted k c c).shared.map Shared.clear, cwd := none
            state := .zombie })

/-- The slot as `wait` leaves it. -/
def reaped (p : Proc) : Proc :=
  { p with kstack := 0, pid := 0, parent := none, name := [], killed := false, state := .unused }

/-- `wait`: the `pid` of the first child found dead, which is reaped; `-1` without children; nothing
if it has to sleep. -/
def wait (L : Linker) (k : Kernel) (c : Slot) : Except Panic (Option Int × Kernel) :=
  match (List.finRange NPROC).find? fun q =>
      (k.proc q).parent = some c ∧ (k.proc q).state = .zombie with
  | some q =>
    match kfree L k.mem (k.proc q).kstack with
    | .error e => .error e
    | .ok m =>
      match freevm L m (k.proc q).pgdir with
      | .error e => .error e
      | .ok m =>
        .ok (some (k.proc q).pid, { k with mem := m }.setProc q (reaped (k.proc q)))
  | none =>
    if (∀ q, (k.proc q).parent ≠ some c) ∨ (k.proc c).killed = true then .ok (some (-1), k)
    else .ok (none, k)

/-! ## `sbrk` -/

/-- `growproc`. -/
def growproc (L : Linker) (k : Kernel) (c : Slot) (n : CInt) : Except Panic (Int × Kernel) :=
  let p := k.proc c
  let resized : Except Panic (Nat × Mem) :=
    if 0 < n.val then allocuvm L k.mem p.pgdir p.sz (u32 (p.sz + n.val))
    else if n.val < 0 then deallocuvm L k.mem p.pgdir p.sz (u32 (p.sz + n.val))
    else .ok (p.sz, k.mem)
  match resized with
  | .error e => .error e
  | .ok (sz, m) =>
    if n.val ≠ 0 ∧ sz = 0 then .ok (-1, { k with mem := m })
    else
      match switchuvm { p with sz := sz } with
      | .error e => .error e
      | .ok () => .ok (0, { k with mem := m }.setProc c { p with sz := sz })

/-- `sys_sbrk`. -/
def sysSbrk (L : Linker) (k : Kernel) (c : Slot) (n : CInt) : Except Panic (Int × Kernel) :=
  match growproc L k c n with
  | .error e => .error e
  | .ok (r, k') => .ok (if r < 0 then -1 else i32 (k.proc c).sz, k')

/-! ## `share_mem` -/

/-- The loop of `sys_share_mem` over the table, from entry `i` on: the answer and the new table. -/
def registerFrom (name : List Nat) (vamem : Nat) (sz : CInt) : Nat → List Shared → Int × List Shared
  | _, [] => (-3, [])
  | i, s :: rest =>
    if s.sz = 0 then (i, ⟨strncpy name SHAREDNAME, vamem, sz⟩ :: rest)
    else if strncmp name s.name SHAREDNAME = 0 then (-2, s :: rest)
    else ((registerFrom name vamem sz (i + 1) rest).1, s :: (registerFrom name vamem sz (i + 1) rest).2)

/-- The arguments of `share_mem`. -/
structure ShareArgs where
  name : List Nat
  vamem : Nat
  sz : CInt

/-- The check of `argptr`, which is given a length of four bytes. -/
def Proc.Within (p : Proc) (i : Nat) : Prop := i < p.sz ∧ u32 (i + 4) ≤ p.sz

instance (p : Proc) (i : Nat) : Decidable (p.Within i) := inferInstanceAs (Decidable (_ ∧ _))

/-- Four bytes that end below `sz`. -/
theorem Proc.within_of_le {p : Proc} {i : Nat} (h : i + 4 ≤ p.sz) : p.Within i :=
  ⟨by omega, by rw [u32]; omega⟩

/-- `sys_share_mem`; `none` stands for arguments that `argstr` or `argint` refuse. -/
def sysShareMem (k : Kernel) (c : Slot) (a : Option ShareArgs) : Int × Kernel :=
  match a with
  | none => (-1, k)
  | some a =>
    if ¬ (k.proc c).Within a.vamem then (-1, k)
    else
      let r := registerFrom a.name a.vamem a.sz 0 (k.proc c).shared
      (r.1, k.setProc c { k.proc c with shared := r.2 })

/-! ## `open` and `close` -/

/-- `sys_open` of an inode `namei` finds; `none` stands for a path it does not find. -/
def sysOpen (k : Kernel) (c : Slot) (ip : Option Nat) : Except Panic (Int × Kernel) :=
  match ip with
  | none => .ok (-1, k)
  | some ip =>
    match filealloc (idup k ip) with
    | (none, k) => .ok (-1, iput k ip)
    | (some f, k) =>
      match fdalloc k c f with
      | (none, k) =>
        match fileclose k f with
        | .error e => .error e
        | .ok k => .ok (-1, iput k ip)
      | (some fd, k) => .ok (fd.val, k.setFile f { k.file f with ip := some ip })

/-- `sys_close`. -/
def sysClose (k : Kernel) (c : Slot) (fd : Fin NOFILE) : Except Panic (Int × Kernel) :=
  match (k.proc c).ofile fd with
  | none => .ok (-1, k)
  | some f =>
    match fileclose (k.setProc c
        { k.proc c with ofile := Function.update (k.proc c).ofile fd none }) f with
    | .error e => .error e
    | .ok k => .ok (0, k)

/-! ## One call -/

/-- A system call. -/
inductive Call where
  | fork
  | exec (a : ExecArgs)
  | exit
  | wait
  | sbrk (n : CInt)
  | shareMem (a : Option ShareArgs)
  | open (ip : Option Nat)
  | close (fd : Fin NOFILE)

/-- `sys_exec`: the argument strings end inside the process and there are fewer than `MAXARG`. -/
def sysExec (L : Linker) (k : Kernel) (c : Slot) (a : ExecArgs) : Except Panic (Int × Kernel) :=
  if a.argv.length < MAXARG ∧ ∀ arg ∈ a.argv, arg.length < (k.proc c).sz then exec L k c a
  else .ok (-1, k)

/-- What process `c` gets for an answer, if any, and what becomes of the system. -/
def syscall (L : Linker) (k : Kernel) (c : Slot) : Call → Except Panic (Option Int × Kernel)
  | .fork => (Xv6.fork L k c).map fun x => (some x.1, x.2)
  | .exec a => (sysExec L k c a).map fun x => (some x.1, x.2)
  | .exit => (Xv6.exit k c).map fun k => (none, k)
  | .wait => Xv6.wait L k c
  | .sbrk n => (sysSbrk L k c n).map fun x => (some x.1, x.2)
  | .shareMem a => .ok (some (sysShareMem k c a).1, (sysShareMem k c a).2)
  | .open ip => (sysOpen k c ip).map fun x => (some x.1, x.2)
  | .close fd => (sysClose k c fd).map fun x => (some x.1, x.2)

/-- A process that may make a call. -/
def Proc.Runs (p : Proc) : Prop := p.state = .runnable ∨ p.state = .running

instance (p : Proc) : Decidable p.Runs := inferInstanceAs (Decidable (_ ∨ _))

theorem Proc.Runs.live {p : Proc} (h : p.Runs) : p.Live := by
  rcases h with h | h <;> simp [Proc.Live, h]

/-- **Which function a call has returned from.** -/
inductive Returned (L : Linker) (k : Kernel) (c : Slot) : Call → Option Int → Kernel → Prop
  | fork {r : Int} {k' : Kernel} :
    Xv6.fork L k c = .ok (r, k') → Returned L k c .fork (some r) k'
  | exec {a : ExecArgs} {r : Int} {k' : Kernel} :
    sysExec L k c a = .ok (r, k') → Returned L k c (.exec a) (some r) k'
  | exit {k' : Kernel} : Xv6.exit k c = .ok k' → Returned L k c .exit none k'
  | wait {r : Option Int} {k' : Kernel} :
    Xv6.wait L k c = .ok (r, k') → Returned L k c .wait r k'
  | sbrk {n : CInt} {r : Int} {k' : Kernel} :
    sysSbrk L k c n = .ok (r, k') → Returned L k c (.sbrk n) (some r) k'
  | shareMem {a : Option ShareArgs} {r : Int} {k' : Kernel} :
    sysShareMem k c a = (r, k') → Returned L k c (.shareMem a) (some r) k'
  | open {ip : Option Nat} {r : Int} {k' : Kernel} :
    sysOpen k c ip = .ok (r, k') → Returned L k c (.open ip) (some r) k'
  | close {fd : Fin NOFILE} {r : Int} {k' : Kernel} :
    sysClose k c fd = .ok (r, k') → Returned L k c (.close fd) (some r) k'

theorem syscall_returned {L : Linker} {k k' : Kernel} {c : Slot} {call : Call} {r : Option Int}
    (h : syscall L k c call = .ok (r, k')) : Returned L k c call r k' := by
  have hmap : ∀ {α β : Type} {x : Except Panic α} {f : α → β} {b : β}, x.map f = .ok b →
      ∃ a, x = .ok a ∧ f a = b := fun {_ _ x _ _} hx => by
    cases x with
    | error e => simp [Except.map] at hx
    | ok a => exact ⟨a, rfl, Except.ok.inj hx⟩
  cases call with
  | fork =>
    obtain ⟨x, hx, he⟩ := hmap h
    obtain ⟨rfl, rfl⟩ := Prod.mk.inj he
    exact .fork hx
  | exec a =>
    obtain ⟨x, hx, he⟩ := hmap h
    obtain ⟨rfl, rfl⟩ := Prod.mk.inj he
    exact .exec hx
  | exit =>
    obtain ⟨x, hx, he⟩ := hmap h
    obtain ⟨rfl, rfl⟩ := Prod.mk.inj he
    exact .exit hx
  | wait => exact .wait h
  | sbrk n =>
    obtain ⟨x, hx, he⟩ := hmap h
    obtain ⟨rfl, rfl⟩ := Prod.mk.inj he
    exact .sbrk hx
  | shareMem a =>
    obtain ⟨rfl, rfl⟩ := Prod.mk.inj (Except.ok.inj h)
    exact .shareMem rfl
  | «open» ip =>
    obtain ⟨x, hx, he⟩ := hmap h
    obtain ⟨rfl, rfl⟩ := Prod.mk.inj he
    exact .open hx
  | close fd =>
    obtain ⟨x, hx, he⟩ := hmap h
    obtain ⟨rfl, rfl⟩ := Prod.mk.inj he
    exact .close hx

end Xv6
