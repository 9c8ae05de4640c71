/-
# The memory storage: data model and operations

Formalises `memory_storage.hpp`: a torrent's pieces are kept in a pool of buffers in
memory, `writev` gives a piece a buffer, `trim` takes the least recently used buffers
away again when the pool is full.

Every function is translated under its own name, statement by statement, over an
explicit state.  Three things can keep a call from returning (`Fault`): a subscript
or a `memcpy` outside its array, a conversion of a `double` that has no value as an
`int`, and the `while` of `trim`, which is run with fuel.

What is not under the repository is a parameter (`Env`): the readings of the clock
and the torrent behind the handle.  The prints under `is_logging` are left out.
-/
import LibtorrentGo.MachineInt
import LibtorrentGo.Splice
import LibtorrentGo.Subscript
import LibtorrentGo.WhileLoop

open MachineInt Splice Subscript

namespace Libtorrent

/-! ## Faults, subscripts and copies -/

/-- What can stop a call short of returning. -/
inductive Fault where
  /-- a subscript or a copied range outside its array -/
  | outOfRange : Fault
  /-- a `double` without a value as an `int` -/
  | conversion : Fault
  /-- the `while` of `trim` has not exited yet -/
  | outOfFuel : Fault
  deriving DecidableEq, Repr

/-- The element type of `std::vector<char>`. -/
abbrev Byte : Type := UInt8

/-- `xs[i]`. -/
def subscript {α : Type} (xs : List α) (i : ℤ) : Except Fault α :=
  match at? xs i with
  | some a => .ok a
  | none => .error .outOfRange

/-- `memcpy(&dst[dstOff], &src[srcOff], n)`; the new contents of `dst`.  A copy of no
bytes may start right behind the last one. -/
def memcpy (dst : List Byte) (dstOff : ℤ) (src : List Byte) (srcOff n : ℤ) :
    Except Fault (List Byte) :=
  if 0 ≤ n ∧ 0 ≤ dstOff ∧ dstOff + n ≤ dst.length ∧ 0 ≤ srcOff ∧ srcOff + n ≤ src.length then
    .ok (splice dst dstOff.toNat ((src.drop srcOff.toNat).take n.toNat))
  else .error .outOfRange

/-! ## Pieces and buffers -/

/-- `struct memory_piece`; `size` is the sum of what `size += n` has added, of which the code
keeps what an `int` can hold (`intSize`). -/
structure MemoryPiece where
  index : ℤ
  length : ℤ
  size : ℤ
  bi : ℤ
  isCompleted : Bool
  isRead : Bool
  deriving DecidableEq, Repr

namespace MemoryPiece

/-- The constructor of `memory_piece`. -/
def new (i length : ℤ) : MemoryPiece where
  index := i
  length := length
  size := 0
  bi := -1
  isCompleted := false
  isRead := false

/-- The value of the `int` `size`, which wraps around like the sum it is a part of. -/
def intSize (p : MemoryPiece) : ℤ := toInt p.size

/-- `size += n` adds to the `int` what the sum is given. -/
theorem intSize_add (p : MemoryPiece) (n : ℤ) :
    ({ p with size := p.size + n } : MemoryPiece).intSize = toInt (p.intSize + n) := by
  rw [intSize, intSize, toInt, toInt, toInt, Int.bmod_add_bmod]

/-- A sum that an `int` can hold is kept. -/
theorem intSize_eq {p : MemoryPiece} (h0 : 0 ≤ p.size) (h1 : p.size ≤ intMax) :
    p.intSize = p.size :=
  toInt_of_range (le_trans (by decide) h0) h1

/-- `memory_piece::is_buffered`. -/
def isBuffered (p : MemoryPiece) : Bool := p.bi ≠ -1

/-- `memory_piece::reset`. -/
def reset (p : MemoryPiece) : MemoryPiece :=
  { p with bi := -1, isCompleted := false, isRead := false, size := 0 }

end MemoryPiece

/-- `struct memory_buffer`; an `accessed` of `none` is `not_a_date_time`, the value a
`ptime` has before it is first assigned. -/
structure MemoryBuffer where
  index : ℤ
  length : ℤ
  buffer : List Byte
  pi : ℤ
  isUsed : Bool
  accessed : Option ℤ
  deriving DecidableEq, Repr

namespace MemoryBuffer

/-- The constructor of `memory_buffer`. -/
def new (index length : ℤ) : MemoryBuffer where
  index := index
  length := length
  buffer := List.replicate length.toNat 0
  pi := -1
  isUsed := false
  accessed := none

/-- `memory_buffer::is_assigned`. -/
def isAssigned (b : MemoryBuffer) : Bool := b.pi ≠ -1

/-- `memory_buffer::reset`, at the time `now()` returns in it. -/
def reset (b : MemoryBuffer) (time : ℤ) : MemoryBuffer :=
  { b with
    isUsed := false
    pi := -1
    accessed := some time
    buffer := List.replicate b.buffer.length 0 }

/-- `accessed < time`; no order holds of `not_a_date_time`. -/
def accessedBefore (b : MemoryBuffer) (time : ℤ) : Bool :=
  match b.accessed with
  | some a => a < time
  | none => false

end MemoryBuffer

/-! ## The storage and what it depends on -/

/-- What the storage asks a `torrent_info` for; every piece has at least one byte and
at most `piece_length`. -/
structure TorrentInfo where
  numPieces : ℤ
  pieceLength : ℤ
  pieceSize : ℤ → ℤ
  one_le_numPieces : 1 ≤ numPieces
  pieceLength_pos : 0 < pieceLength
  pieceLength_le : pieceLength ≤ intMax
  pieceSize_pos : ∀ i, 0 ≤ i → i < numPieces → 0 < pieceSize i
  pieceSize_le : ∀ i, 0 ≤ i → i < numPieces → pieceSize i ≤ pieceLength

/-- The clock and the torrent behind the handle.  `clock n` is the `n`-th value `now()`
returns.  `piecePriority n s i` is the priority of piece `i` the handle reports after
`n` clock readings while the torrent is in state `s`, so that a priority may also
change by itself in the course of a call. -/
structure Env (σ : Type) where
  clock : ℕ → ℤ
  piecePriority : ℕ → σ → ℤ → ℤ
  resetPieceDeadline : σ → ℤ → σ
  setPiecePriority : σ → ℤ → ℤ → σ
  weDontHave : σ → ℤ → σ

/-- `struct memory_storage`, with the number of clock readings so far and the state of
the torrent.  `mHandle` and `t` say whether the two pointers are set. -/
structure MemoryStorage (σ : Type) where
  readerPieces : List Bool
  reservedPieces : List Bool
  capacity : ℤ
  pieceCount : ℤ
  pieceLength : ℤ
  pieces : List MemoryPiece
  bufferSize : ℤ
  bufferLimit : ℤ
  bufferUsed : ℤ
  bufferReserved : ℤ
  buffers : List MemoryBuffer
  mHandle : Bool
  t : Bool
  isInitialized : Bool
  isReading : Bool
  ticks : ℕ
  torrent : σ
  deriving DecidableEq, Repr

variable {σ : Type}

/-! ## Construction and growth -/

/-- `rint(ceil(capacity/piece_length) + 2)` as an `int`: the quotient is an integer
division, the sum is computed in doubles, and `ceil` and `rint` find nothing to round. -/
def bufferCount (capacity pieceLength : ℤ) : Except Fault ℤ :=
  match doubleToInt (toDouble (toDouble (capacity.tdiv pieceLength) + 2)) with
  | some n => .ok n
  | none => .error .conversion

/-- The buffer count, capped by the number of pieces. -/
def poolSize (capacity pieceLength pieceCount : ℤ) : Except Fault ℤ := do
  let n ← bufferCount capacity pieceLength
  pure (if n > pieceCount then pieceCount else n)

/-- The buffers the loop `for (int i = lo; i < hi; i++)` pushes back. -/
def newBuffers (lo hi length : ℤ) : List MemoryBuffer :=
  (List.range (hi - lo).toNat).map fun k : ℕ => MemoryBuffer.new (lo + k) length

namespace MemoryStorage

/-- The constructor of `memory_storage`.  It leaves `m_handle` and `t` unset: they have
whatever values the allocation happens to hold. -/
def new (info : TorrentInfo) (memorySize : ℤ) (mHandle t : Bool) (torrent : σ) :
    Except Fault (MemoryStorage σ) := do
  let bufferSize ← poolSize memorySize info.pieceLength info.numPieces
  pure
    { readerPieces := List.replicate (info.numPieces + 10).toNat false
      reservedPieces := List.replicate (info.numPieces + 10).toNat false
      capacity := memorySize
      pieceCount := info.numPieces
      pieceLength := info.pieceLength
      pieces := (List.range info.numPieces.toNat).map fun i : ℕ => .new i (info.pieceSize i)
      bufferSize := bufferSize
      bufferLimit := bufferSize
      bufferUsed := 0
      bufferReserved := 0
      buffers := newBuffers 0 bufferSize info.pieceLength
      mHandle := mHandle
      t := t
      isInitialized := true
      isReading := false
      ticks := 0
      torrent := torrent }

/-- `memory_storage::set_memory_size`. -/
def setMemorySize (st : MemoryStorage σ) (s : ℤ) : Except Fault (MemoryStorage σ) :=
  if s ≤ st.capacity then .ok st
  else do
    let bufferSize ← poolSize s st.pieceLength st.pieceCount
    let prevBufferSize := st.bufferSize
    let st := { st with capacity := s, bufferSize := bufferSize, bufferLimit := bufferSize }
    if prevBufferSize = bufferSize then pure st
    else
      pure { st with
        buffers := st.buffers ++ newBuffers prevBufferSize bufferSize st.pieceLength }

/-! ## The handle, the reader and the reserved pieces -/

/-- `memory_storage::set_torrent_handle`, with a handle whose torrent is still there or not. -/
def setTorrentHandle (st : MemoryStorage σ) (t : Bool) : MemoryStorage σ :=
  { st with mHandle := true, t := t }

/-- `memory_storage::is_reserved`. -/
def isReserved (st : MemoryStorage σ) (index : ℤ) : Except Fault Bool :=
  if !st.isInitialized then .ok false else subscript st.reservedPieces index

/-- `memory_storage::is_readered`. -/
def isReadered (env : Env σ) (st : MemoryStorage σ) (index : ℤ) : Bool :=
  if !st.isInitialized then false
  else if !st.mHandle then true
  else env.piecePriority st.ticks st.torrent index ≠ 0

/-- `memory_storage::restore_piece`. -/
def restorePiece (env : Env σ) (st : MemoryStorage σ) (pi : ℤ) : MemoryStorage σ :=
  if !st.mHandle || !st.t then st
  else
    let torrent := env.resetPieceDeadline st.torrent pi
    let torrent := env.setPiecePriority torrent pi 0
    { st with torrent := env.weDontHave torrent pi }

/-- `for (...) bits.set(pieces[i])`. -/
def setBits (bits : List Bool) : List ℤ → Except Fault (List Bool)
  | [] => .ok bits
  | i :: pieces => do
      let _ ← subscript bits i
      setBits (put bits i true) pieces

/-- `memory_storage::update_reader_pieces`. -/
def updateReaderPieces (st : MemoryStorage σ) (pieces : List ℤ) :
    Except Fault (MemoryStorage σ) :=
  if !st.isInitialized then .ok st
  else do
    let bits ← setBits (List.replicate st.readerPieces.length false) pieces
    pure { st with readerPieces := bits }

/-- `memory_storage::update_reserved_pieces`. -/
def updateReservedPieces (st : MemoryStorage σ) (pieces : List ℤ) :
    Except Fault (MemoryStorage σ) :=
  if !st.isInitialized then .ok st
  else do
    let bits ← setBits (List.replicate st.reservedPieces.length false) pieces
    pure { st with reservedPieces := bits, bufferReserved := pieces.length }

/-! ## Acquiring a buffer -/

/-- The loop of `get_buffer` from buffer `i` on, with `k` rounds to go. -/
def claimBuffer (env : Env σ) (piece : ℤ) :
    ℕ → ℤ → MemoryStorage σ → Except Fault (MemoryStorage σ)
  | 0, _, st => .ok st
  | k + 1, i, st => do
      let b ← subscript st.buffers i
      if b.isUsed then claimBuffer env piece k (i + 1) st
      else
        let p ← subscript st.pieces piece
        let b' := { b with isUsed := true, pi := p.index, accessed := some (env.clock st.ticks) }
        let st := { st with
          buffers := put st.buffers i b'
          pieces := put st.pieces piece { p with bi := b.index }
          ticks := st.ticks + 1 }
        let reserved ← subscript st.reservedPieces p.index
        if reserved then pure { st with bufferLimit := st.bufferLimit - 1 }
        else pure { st with bufferUsed := st.bufferUsed + 1 }

/-- `memory_storage::get_buffer` on `&pieces[piece]`. -/
def getBuffer (env : Env σ) (st : MemoryStorage σ) (piece : ℤ) (isWrite : Bool) :
    Except Fault (Bool × MemoryStorage σ) := do
  let p ← subscript st.pieces piece
  if p.isBuffered then pure (true, st)
  -- a reader looks again under the lock, a writer too
  else if !isWrite then pure (p.isBuffered, st)
  else if p.isBuffered then pure (true, st)
  else if st.isReading && !isReadered env st p.index then
    pure (false, restorePiece env st p.index)
  else
    let st ← claimBuffer env piece st.bufferSize.toNat 0 st
    let p ← subscript st.pieces piece
    pure (p.isBuffered, st)

/-- `memory_storage::get_read_buffer`. -/
def getReadBuffer (env : Env σ) (st : MemoryStorage σ) (piece : ℤ) :
    Except Fault (Bool × MemoryStorage σ) :=
  getBuffer env st piece false

/-- `memory_storage::get_write_buffer`. -/
def getWriteBuffer (env : Env σ) (st : MemoryStorage σ) (piece : ℤ) :
    Except Fault (Bool × MemoryStorage σ) :=
  getBuffer env st piece true

/-! ## Evicting -/

/-- The condition of the `if` in `find_last_buffer`. -/
def isOlder (env : Env σ) (st : MemoryStorage σ) (pi : ℤ) (checkRead : Bool)
    (b : MemoryBuffer) (minTime : ℤ) : Except Fault Bool :=
  if b.isUsed && b.isAssigned then do
    let reserved ← st.isReserved b.pi
    pure (!reserved && b.pi ≠ pi && (!checkRead || !isReadered env st b.pi)
      && b.accessedBefore minTime)
  else .ok false

/-- The loop of `find_last_buffer`. -/
def findLastLoop (env : Env σ) (st : MemoryStorage σ) (pi : ℤ) (checkRead : Bool) :
    List MemoryBuffer → ℤ → ℤ → Except Fault ℤ
  | [], bi, _ => .ok bi
  | b :: bs, bi, minTime => do
      let older ← isOlder env st pi checkRead b minTime
      if older then findLastLoop env st pi checkRead bs b.index (b.accessed.getD minTime)
      else findLastLoop env st pi checkRead bs bi minTime

/-- `memory_storage::find_last_buffer`. -/
def findLastBuffer (env : Env σ) (st : MemoryStorage σ) (pi : ℤ) (checkRead : Bool) :
    Except Fault (ℤ × MemoryStorage σ) := do
  let minTime := env.clock st.ticks
  let st := { st with ticks := st.ticks + 1 }
  let bi ← findLastLoop env st pi checkRead st.buffers (-1) minTime
  pure (bi, st)

/-- `memory_storage::remove_piece`. -/
def removePiece (env : Env σ) (st : MemoryStorage σ) (bi : ℤ) :
    Except Fault (MemoryStorage σ) := do
  let b ← subscript st.buffers bi
  let st := { st with
    buffers := put st.buffers bi (b.reset (env.clock st.ticks))
    ticks := st.ticks + 1
    bufferUsed := st.bufferUsed - 1 }
  if b.pi ≠ -1 ∧ b.pi < st.pieceCount then
    let p ← subscript st.pieces b.pi
    pure (restorePiece env { st with pieces := put st.pieces b.pi p.reset } b.pi)
  else pure st

/-- The body of the `while` in `trim`. -/
def trimBody (env : Env σ) (pi : ℤ) (st : MemoryStorage σ) : Except Fault (MemoryStorage σ) := do
  let (bi, st) ←
    if !st.readerPieces.isEmpty then findLastBuffer env st pi true else pure (-1, st)
  if bi ≠ -1 then removePiece env st bi
  else
    let (bi, st) ← findLastBuffer env st pi false
    -- with no victim at all the test is simply made again
    if bi ≠ -1 then removePiece env st bi else pure st

/-- The test `buffer_used >= buffer_limit`. -/
def isFull (st : MemoryStorage σ) : Bool := st.bufferUsed ≥ st.bufferLimit

/-- `memory_storage::trim`, with at most `fuel` rounds of its `while`. -/
def trim (env : Env σ) (fuel : ℕ) (st : MemoryStorage σ) (pi : ℤ) :
    Except Fault (MemoryStorage σ) :=
  if st.capacity < 0 || !st.isFull then .ok st
  else WhileLoop.loop isFull (trimBody env pi) .outOfFuel fuel st

/-! ## Writing -/

/-- The copy loop of `writev`. -/
def writevCopy (piece : ℤ) :
    List (List Byte) → ℤ → ℤ → MemoryStorage σ → Except Fault (ℤ × MemoryStorage σ)
  | [], _, n, st => .ok (n, st)
  | iov :: bufs, fileOffset, n, st => do
      let p ← subscript st.pieces piece
      let toCopy := toInt (min (toSize (p.length - fileOffset)) iov.length)
      let b ← subscript st.buffers p.bi
      let bytes ← memcpy b.buffer fileOffset iov 0 toCopy
      let st := { st with buffers := put st.buffers p.bi { b with buffer := bytes } }
      writevCopy piece bufs (fileOffset + toCopy) (n + toCopy) st

/-- The two statements of `writev` behind its copy loop. -/
def writevAccount (env : Env σ) (st : MemoryStorage σ) (piece n : ℤ) :
    Except Fault (MemoryStorage σ) := do
  let p ← subscript st.pieces piece
  let b ← subscript st.buffers p.bi
  pure { st with
    pieces := put st.pieces piece { p with size := p.size + n }
    buffers := put st.buffers p.bi { b with accessed := some (env.clock st.ticks) }
    ticks := st.ticks + 1 }

/-- The end of `writev`. -/
def writevTrim (env : Env σ) (fuel : ℕ) (st : MemoryStorage σ) (piece : ℤ) :
    Except Fault (MemoryStorage σ) :=
  if st.isFull then trim env fuel st piece else .ok st

/-- `memory_storage::writev`. -/
def writev (env : Env σ) (fuel : ℕ) (st : MemoryStorage σ) (bufs : List (List Byte))
    (piece offset : ℤ) : Except Fault (ℤ × MemoryStorage σ) :=
  if !st.isInitialized then .ok (0, st)
  else do
    let (got, st) ← getWriteBuffer env st piece
    if !got then pure (0, st)
    else
      let (n, st) ← writevCopy piece bufs offset 0 st
      let st ← writevAccount env st piece n
      let st ← writevTrim env fuel st piece
      pure (n, st)

/-! ## Reading -/

/-- The statements that end a successful `read` or `readv`, which stopped at `upTo`. -/
def finishRead (env : Env σ) (st : MemoryStorage σ) (piece upTo : ℤ) :
    Except Fault (MemoryStorage σ) := do
  let p ← subscript st.pieces piece
  let p' := if p.isCompleted && upTo ≥ p.intSize then { p with isRead := true } else p
  let b ← subscript st.buffers p.bi
  pure { st with
    pieces := put st.pieces piece p'
    buffers := put st.buffers p.bi { b with accessed := some (env.clock st.ticks) }
    ticks := st.ticks + 1 }

/-- The copy loop of `readv`; the destinations with what was copied into them. -/
def readvCopy (st : MemoryStorage σ) (piece : ℤ) :
    List (List Byte) → ℤ → ℤ → Except Fault (ℤ × List (List Byte))
  | [], _, n => .ok (n, [])
  | iov :: bufs, fileOffset, n => do
      let p ← subscript st.pieces piece
      let b ← subscript st.buffers p.bi
      let toCopy := toInt (min (toSize (b.buffer.length - fileOffset)) iov.length)
      let iov ← memcpy iov 0 b.buffer fileOffset toCopy
      let (n, bufs) ← readvCopy st piece bufs (fileOffset + toCopy) (n + toCopy)
      pure (n, iov :: bufs)

/-- `memory_storage::readv`. -/
def readv (env : Env σ) (st : MemoryStorage σ) (bufs : List (List Byte)) (piece offset : ℤ) :
    Except Fault (ℤ × List (List Byte) × MemoryStorage σ) :=
  if !st.isInitialized then .ok (0, bufs, st)
  else do
    let (got, st) ← getReadBuffer env st piece
    if !got then pure (0, bufs, st)
    else
      let (n, bufs) ← readvCopy st piece bufs offset 0
      let st ← finishRead env st piece (offset + n)
      pure (n, bufs, st)

/-- What `read` does once it has its buffer, up to the copy. -/
def readCopy (env : Env σ) (st : MemoryStorage σ) (readBuf : List Byte)
    (size piece offset : ℤ) : Except Fault (ℤ × List Byte × MemoryStorage σ) := do
  let p ← subscript st.pieces piece
  if p.intSize < p.length then pure (-1, readBuf, restorePiece env st piece)
  else
    let b ← subscript st.buffers p.bi
    let available := toInt (toSize (b.buffer.length - offset))
    if available ≤ 0 then pure (0, readBuf, st)
    else
      let available := if available > size then size else available
      let readBuf ← memcpy readBuf 0 b.buffer offset available
      let st ← finishRead env st piece (offset + available)
      -- the size asked for, whatever was available
      pure (size, readBuf, st)

/-- `memory_storage::read`. -/
def read (env : Env σ) (st : MemoryStorage σ) (readBuf : List Byte) (size piece offset : ℤ) :
    Except Fault (ℤ × List Byte × MemoryStorage σ) :=
  if !st.isInitialized then .ok (0, readBuf, st)
  else do
    let (got, st) ← getReadBuffer env { st with isReading := true } piece
    if !got then pure (-1, readBuf, restorePiece env st piece)
    else readCopy env st readBuf size piece offset

end MemoryStorage

/-! ## Calls -/

/-- The calls a storage receives, and `outside`: whatever happens to the torrent
between two calls, a client that sets priorities among it. -/
inductive Call (σ : Type) where
  | writev (bufs : List (List Byte)) (piece offset : ℤ) : Call σ
  | readv (bufs : List (List Byte)) (piece offset : ℤ) : Call σ
  | read (readBuf : List Byte) (size piece offset : ℤ) : Call σ
  | setMemorySize (s : ℤ) : Call σ
  | updateReaderPieces (pieces : List ℤ) : Call σ
  | updateReservedPieces (pieces : List ℤ) : Call σ
  | setTorrentHandle (t : Bool) : Call σ
  | outside (torrent : σ) : Call σ

/-- What a call gives back: the value it returns and the memory it filled. -/
structure Reply where
  ret : ℤ
  data : List (List Byte)
  deriving DecidableEq, Repr

/-- The answer of a call that returns nothing. -/
def Reply.none : Reply := ⟨0, []⟩

/-- One call, with at most `fuel` rounds of `trim`. -/
def exec (env : Env σ) (fuel : ℕ) (st : MemoryStorage σ) :
    Call σ → Except Fault (Reply × MemoryStorage σ)
  | .writev bufs piece offset => do
      let (n, st) ← st.writev env fuel bufs piece offset
      pure (⟨n, []⟩, st)
  | .readv bufs piece offset => do
      let (n, bufs, st) ← st.readv env bufs piece offset
      pure (⟨n, bufs⟩, st)
  | .read readBuf size piece offset => do
      let (n, readBuf, st) ← st.read env readBuf size piece offset
      pure (⟨n, [readBuf]⟩, st)
  | .setMemorySize s => do
      let st ← st.setMemorySize s
      pure (.none, st)
  | .updateReaderPieces pieces => do
      let st ← st.updateReaderPieces pieces
      pure (.none, st)
  | .updateReservedPieces pieces => do
      let st ← st.updateReservedPieces pieces
      pure (.none, st)
  | .setTorrentHandle t => .ok (.none, st.setTorrentHandle t)
  | .outside torrent => .ok (.none, { st with torrent := torrent })

end Libtorrent
