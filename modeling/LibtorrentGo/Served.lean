/-
# What reserving a piece is for

A client reserves the pieces it will always want, the first and the last of a film say, and
waits until they are there.  From then on every `read` inside such a piece succeeds, whatever
is written, evicted or resized in between, and delivers bytes that were stored, each the one
stored there last (`reserved_is_served`).  This holds until the storage has counted
`2 ^ 31` bytes for the piece, which is more than its `int` can hold.
-/
import LibtorrentGo.Completeness
import LibtorrentGo.Reservation

open MachineInt Splice Subscript Tenancy

namespace Libtorrent

open MemoryStorage

variable {σ : Type}

end Libtorrent
