import Xv6Ipc.Process.Lookup

/-!
# Process/Isolation — whose memory a call can change

A call trades frames between the free list and one slot: the caller's, one that `fork` fills, or one that
`wait` empties.
-/

namespace Xv6

variable {L : Linker} {k k' : Kernel} {c q : Slot} {e : Event}

end Xv6
