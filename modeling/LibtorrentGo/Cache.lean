/-
# The storage as a cache

What the memory storage is for, without its buffers, its two-way links and its clock: a
cache of pieces.  A `Cache` keeps one line for each piece it holds, the piece used the
longest ago first; a line has the bytes of the piece and the number of bytes that were
stored for it.  Writing admits a piece that has no line, as long as there is a place and the
reader rule lets it in, and takes a line out again when no place is left: the first one of
priority 0 that is not spared, and for lack of one the first that is not.

Nothing here is translated from the source, except that the two counters are kept, which
`set_memory_size` sets against each other.
-/
import LibtorrentGo.Copies
import LibtorrentGo.Recency
import LibtorrentGo.Shelf

open MachineInt Splice

namespace Libtorrent

variable {σ : Type}

/-- The torrent behind the handle, whatever the time: the priority of a piece, and what
becomes of the torrent when a piece is restored. -/
structure Handle (σ : Type) where
  priority : σ → ℤ → ℤ
  restore : σ → ℤ → σ

/-- The handle of an environment. -/
def Env.handle (env : Env σ) : Handle σ where
  priority := env.piecePriority 0
  restore := fun s p =>
    env.weDontHave (env.setPiecePriority (env.resetPieceDeadline s p) p 0) p

/-- A piece that is held, its bytes, and how many bytes were stored for it. -/
structure Line where
  piece : ℤ
  bytes : List Byte
  size : ℤ
  deriving DecidableEq, Repr

/-- The line of a piece that nothing was stored for. -/
def Line.blank (info : TorrentInfo) (p : ℤ) : Line where
  piece := p
  bytes := List.replicate info.pieceLength.toNat 0
  size := 0

/-- A cache of pieces, the line used the longest ago first. -/
structure Cache (σ : Type) where
  lines : List Line
  reserved : List ℤ
  capacity : ℤ
  places : ℤ
  used : ℤ
  limit : ℤ
  isReading : Bool
  mHandle : Bool
  t : Bool
  torrent : σ
  deriving DecidableEq, Repr

namespace Cache

/-- How many places a memory size is good for: one for each whole piece, and two more. -/
def placesFor (info : TorrentInfo) (memorySize : ℤ) : ℤ :=
  min info.numPieces (memorySize / info.pieceLength + 2)

/-- The cache of a new torrent. -/
def new (info : TorrentInfo) (memorySize : ℤ) (mHandle t : Bool) (torrent : σ) : Cache σ where
  lines := []
  reserved := []
  capacity := memorySize
  places := placesFor info memorySize
  used := 0
  limit := placesFor info memorySize
  isReading := false
  mHandle := mHandle
  t := t
  torrent := torrent

/-- The line of piece `p`. -/
def line (C : Cache σ) (p : ℤ) : Option Line := Shelf.find Line.piece p C.lines

/-- The cache with `l` as the line used last. -/
def keep (C : Cache σ) (l : Line) : Cache σ := { C with lines := Shelf.keep Line.piece l C.lines }

/-! ## Eviction -/

/-- A piece whose priority is 0. -/
def Low (H : Handle σ) (C : Cache σ) (p : ℤ) : Prop :=
  C.mHandle = true ∧ H.priority C.torrent p = 0

instance (H : Handle σ) (C : Cache σ) (p : ℤ) : Decidable (C.Low H p) :=
  inferInstanceAs (Decidable (_ ∧ _))

/-- The pieces that must not be evicted for piece `pi`. -/
def Spared (C : Cache σ) (pi p : ℤ) : Prop := p = pi ∨ p ∈ C.reserved

instance (C : Cache σ) (pi p : ℤ) : Decidable (C.Spared pi p) :=
  inferInstanceAs (Decidable (_ ∨ _))

/-- The torrent is told that piece `p` is missing. -/
def restore (H : Handle σ) (C : Cache σ) (p : ℤ) : Cache σ :=
  if !C.mHandle || !C.t then C else { C with torrent := H.restore C.torrent p }

/-- Piece `v` loses its line. -/
def evict (H : Handle σ) (C : Cache σ) (v : ℤ) : Cache σ :=
  ({ C with lines := Shelf.remove Line.piece v C.lines, used := C.used - 1 } : Cache σ).restore H v

/-- Makes room behind a write to piece `pi`; nothing is returned where no line may go. -/
def trim (H : Handle σ) (C : Cache σ) (pi : ℤ) : Option (Cache σ) :=
  if C.used < C.limit then some C
  else (Recency.victim (C.Low H) (C.Spared pi) (C.lines.map Line.piece)).map (C.evict H)

/-! ## Calls -/

/-- Piece `p` is given a blank line; a reserved piece is charged to the limit. -/
def letIn (info : TorrentInfo) (C : Cache σ) (p : ℤ) : Cache σ :=
  { C with
    lines := C.lines ++ [.blank info p]
    limit := if p ∈ C.reserved then C.limit - 1 else C.limit
    used := if p ∈ C.reserved then C.used else C.used + 1 }

/-- Line `l` with what fits of `bufs` from `offset` on. -/
def stored (info : TorrentInfo) (l : Line) (bufs : List (List Byte)) (offset : ℤ) : Line where
  piece := l.piece
  bytes := splice l.bytes offset.toNat (fitting (info.pieceSize l.piece) offset bufs)
  size := l.size + (fitting (info.pieceSize l.piece) offset bufs).length

/-- Stores what fits of `bufs` in line `l`, and makes room. -/
def store (H : Handle σ) (info : TorrentInfo) (C : Cache σ) (l : Line)
    (bufs : List (List Byte)) (offset : ℤ) : Option (Reply × Cache σ) :=
  ((C.keep (stored info l bufs offset)).trim H l.piece).map fun C' =>
    (⟨(fitting (info.pieceSize l.piece) offset bufs).length, []⟩, C')

/-- A write. -/
def writev (H : Handle σ) (info : TorrentInfo) (C : Cache σ) (bufs : List (List Byte))
    (p offset : ℤ) : Option (Reply × Cache σ) :=
  match C.line p with
  | some l => C.store H info l bufs offset
  | none =>
      if C.isReading = true ∧ C.Low H p then some (⟨0, []⟩, C.restore H p)
      else if C.places ≤ C.lines.length then some (⟨0, []⟩, C)
      else (C.letIn info p).store H info (.blank info p) bufs offset

/-- A scattered read, of whatever the piece holds. -/
def readv (C : Cache σ) (bufs : List (List Byte)) (p offset : ℤ) : Reply × Cache σ :=
  match C.line p with
  | some l =>
      (⟨min (l.bytes.length - offset) bufs.flatten.length,
        scatter bufs (l.bytes.drop offset.toNat)⟩, C.keep l)
  | none => (⟨0, bufs⟩, C)

/-- A read, of pieces only that have been stored as many bytes for as they are long, as far as
an `int` can tell. -/
def read (H : Handle σ) (info : TorrentInfo) (C : Cache σ) (readBuf : List Byte)
    (size p offset : ℤ) : Reply × Cache σ :=
  let C := { C with isReading := true }
  match C.line p with
  | none => (⟨-1, [readBuf]⟩, C.restore H p)
  | some l =>
      if toInt l.size < info.pieceSize p then (⟨-1, [readBuf]⟩, C.restore H p)
      else if l.bytes.length ≤ offset then (⟨0, [readBuf]⟩, C)
      else
        (⟨size, [splice readBuf 0
          ((l.bytes.drop offset.toNat).take (min size (l.bytes.length - offset)).toNat)]⟩,
          C.keep l)

/-- A larger memory size; the limit starts anew. -/
def setMemorySize (info : TorrentInfo) (C : Cache σ) (s : ℤ) : Cache σ :=
  if s ≤ C.capacity then C
  else { C with capacity := s, places := placesFor info s, limit := placesFor info s }

/-- One call; nothing is returned where the cache cannot make room. -/
def exec (H : Handle σ) (info : TorrentInfo) (C : Cache σ) :
    Call σ → Option (Reply × Cache σ)
  | .writev bufs p offset => C.writev H info bufs p offset
  | .readv bufs p offset => some (C.readv bufs p offset)
  | .read readBuf size p offset => some (C.read H info readBuf size p offset)
  | .setMemorySize s => some (.none, C.setMemorySize info s)
  | .updateReaderPieces _ => some (.none, C)
  | .updateReservedPieces pieces => some (.none, { C with reserved := pieces })
  | .setTorrentHandle t => some (.none, { C with mHandle := true, t := t })
  | .outside torrent => some (.none, { C with torrent := torrent })

/-- Answers the calls `cs`, newest first, from the cache `C` on. -/
def answers (H : Handle σ) (info : TorrentInfo) (C : Cache σ) :
    List (Call σ) → Option (List Reply × Cache σ)
  | [] => some ([], C)
  | c :: cs => do
      let (rs, C') ← answers H info C cs
      let (r, C'') ← exec H info C' c
      pure (r :: rs, C'')

end Cache

end Libtorrent
