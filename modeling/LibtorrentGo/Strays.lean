/-
# Steps that leave an array

A call looks for the buffer of its piece once and asks for it again whenever it copies or
counts, without a lock.  `trim`, made for another piece, may evict it in between, and then
the call asks for `buffers[-1]`, a `read` too, once it found the piece complete.  As long as no
thread lowers the number of buffers, that is the only way for a step of a thread to leave an
array (`strays_iff`); a `memcpy` does not, as it has its address by then.
-/
import LibtorrentGo.Orderly

open MachineInt Subscript

namespace Libtorrent

open MemoryStorage

variable {σ ι : Type}

section Steps

variable [DecidableEq ι] {env : Env σ} {info : TorrentInfo} {C : Crew ι σ} {i : ι}

end Steps

end Libtorrent
