/-
# Threads

Any number of threads call the storage at the same time, several of them on the same piece
too.  What `get_buffer`, `trim` and `set_memory_size` do under `m_mutex`, what
`find_last_buffer` and `update_reserved_pieces` do under `r_mutex`, and what all of them do
without a lock are separate steps: `get_buffer` looks twice, `set_memory_size` tests its size
before it waits for the lock, `writev` and `trim` test the counters before,
`find_last_buffer` reads the clock before, and between the search of a round of `trim` and
the eviction anything may happen that does not need `m_mutex`.

Nothing is locked while bytes are copied.  `read` makes its test in one step and asks how much
there is in another, and each round of a copy loop takes three: how much to copy is computed,
the address is, and `memcpy` copies there, to or from whatever the buffer is used for by then.

`Crew` is a storage with the threads at work on it, and `turn` one step of one of them.
-/
import LibtorrentGo.Interleaving

open MachineInt Subscript

namespace Libtorrent

open MemoryStorage

variable {σ ι : Type}

/-! ## The machine -/

/-- A copy loop, between two rounds. -/
inductive Copying where
  /-- `writev` has `bufs` left to copy, and has copied `n` bytes up to `fileOffset` -/
  | writev (bufs : List (List Byte)) (fileOffset n : ℤ) : Copying
  /-- so has `readv`, which began at `offset` and has filled other destinations -/
  | readv (filled bufs : List (List Byte)) (offset fileOffset n : ℤ) : Copying

/-- What is copied at once, and what is left then. -/
inductive Chunk where
  | writev (iov : List Byte) (bufs : List (List Byte)) (fileOffset n : ℤ) : Chunk
  | readv (filled : List (List Byte)) (iov : List Byte) (bufs : List (List Byte))
      (offset fileOffset n : ℤ) : Chunk
  | read (readBuf : List Byte) (size offset : ℤ) : Chunk

/-- What a thread does next. -/
inductive Stage where
  /-- looks whether the piece is buffered, without a lock -/
  | look (p : ℤ) (job : Job) : Stage
  /-- waits for `m_mutex` in `get_buffer` -/
  | get (p : ℤ) (job : Job) : Stage
  /-- tests for `read` whether the piece is complete -/
  | check (p : ℤ) (readBuf : List Byte) (size offset : ℤ) : Stage
  /-- asks for `read` how much there is behind the offset -/
  | measure (p : ℤ) (readBuf : List Byte) (size offset : ℤ) : Stage
  /-- computes how much of the next chunk to copy, or leaves the loop -/
  | chunk (p : ℤ) (c : Copying) : Stage
  /-- computes the address of the buffer -/
  | aim (p toCopy : ℤ) (k : Chunk) : Stage
  /-- calls `memcpy` with the address of buffer `b` -/
  | move (p b toCopy : ℤ) (k : Chunk) : Stage
  /-- makes the two statements behind a read, and returns -/
  | finish (p upTo : ℤ) (r : Reply) : Stage
  /-- adds the `n` bytes it copied -/
  | account (p n : ℤ) : Stage
  /-- makes the test of `writev` whether to trim -/
  | test (p n : ℤ) : Stage
  /-- makes the same test in `trim`, still without a lock -/
  | retest (p n : ℤ) : Stage
  /-- waits for `m_mutex` in `trim` -/
  | lock (p n : ℤ) : Stage
  /-- makes the test of the `while`, and holds `m_mutex` -/
  | round (p n : ℤ) : Stage
  /-- reads the clock in `find_last_buffer`, and holds `m_mutex` -/
  | seek (p n : ℤ) (checkRead : Bool) : Stage
  /-- waits for `r_mutex` there, and holds `m_mutex` -/
  | search (p n : ℤ) (checkRead : Bool) (minTime : ℤ) : Stage
  /-- removes the piece of the buffer it found, and holds `m_mutex` -/
  | remove (p n b : ℤ) : Stage
  /-- waits for `m_mutex` in `set_memory_size` -/
  | grow (s : ℤ) : Stage
  /-- sets the bits of reserved pieces, and holds `r_mutex` -/
  | reserve (pieces : List ℤ) : Stage

/-- The stage behind `get_buffer`. -/
def Job.begins (p : ℤ) : Job → Stage
  | .writev bufs offset => .chunk p (.writev bufs offset 0)
  | .readv bufs offset => .chunk p (.readv [] bufs offset offset 0)
  | .read readBuf size offset => .check p readBuf size offset

/-- The thread holds `m_mutex`. -/
def Stage.holdsM : Stage → Bool
  | .round _ _ => true
  | .seek _ _ _ => true
  | .search _ _ _ _ => true
  | .remove _ _ _ => true
  | _ => false

/-- The thread holds `r_mutex`. -/
def Stage.holdsR : Stage → Bool
  | .reserve _ => true
  | _ => false

/-- Behind `get_buffer` no lock is held. -/
theorem Job.begins_holdsM {p : ℤ} (job : Job) : (job.begins p).holdsM = false := by
  cases job <;> rfl

theorem Job.begins_holdsR {p : ℤ} (job : Job) : (job.begins p).holdsR = false := by
  cases job <;> rfl

/-- A storage, who holds its two locks, and where its threads are. -/
structure Crew (ι σ : Type) where
  st : MemoryStorage σ
  mMutex : Option ι
  rMutex : Option ι
  stage : ι → Option Stage

/-- What a thread sets out to do. -/
inductive Task (σ : Type) where
  | transfer (p : ℤ) (job : Job) : Task σ
  | setMemorySize (s : ℤ) : Task σ
  | updateReservedPieces (pieces : List ℤ) : Task σ
  | updateReaderPieces (pieces : List ℤ) : Task σ
  | setTorrentHandle (t : Bool) : Task σ
  | outside (torrent : σ) : Task σ

/-- The call that does it. -/
def Task.call : Task σ → Call σ
  | .transfer p job => job.call p
  | .setMemorySize s => .setMemorySize s
  | .updateReservedPieces pieces => .updateReservedPieces pieces
  | .updateReaderPieces pieces => .updateReaderPieces pieces
  | .setTorrentHandle t => .setTorrentHandle t
  | .outside torrent => .outside torrent

/-- The call is one of the two that take `r_mutex` at once. -/
def Task.locksR : Task σ → Bool
  | .updateReservedPieces _ => true
  | .updateReaderPieces _ => true
  | _ => false

namespace MemoryStorage

/-- `set_memory_size` behind its test. -/
def resize (st : MemoryStorage σ) (s : ℤ) : Except Fault (MemoryStorage σ) := do
  let bufferSize ← poolSize s st.pieceLength st.pieceCount
  let prevBufferSize := st.bufferSize
  let st := { st with capacity := s, bufferSize := bufferSize, bufferLimit := bufferSize }
  if prevBufferSize = bufferSize then pure st
  else
    pure { st with
      buffers := st.buffers ++ newBuffers prevBufferSize bufferSize st.pieceLength }

/-- The test comes first. -/
theorem setMemorySize_eq (st : MemoryStorage σ) (s : ℤ) :
    setMemorySize st s = if s ≤ st.capacity then .ok st else resize st s := rfl

/-- What `update_reserved_pieces` begins with. -/
def clearReserved (st : MemoryStorage σ) : MemoryStorage σ :=
  { st with
    bufferReserved := 0
    reservedPieces := List.replicate st.reservedPieces.length false }

/-- One round of the loop of `update_reserved_pieces`. -/
def reserve (st : MemoryStorage σ) (p : ℤ) : Except Fault (MemoryStorage σ) := do
  let _ ← subscript st.reservedPieces p
  pure { st with
    reservedPieces := put st.reservedPieces p true
    bufferReserved := st.bufferReserved + 1 }

end MemoryStorage

section Steps

variable [DecidableEq ι]

namespace Crew

/-- Thread `i` goes on to stage `s`. -/
def next (C : Crew ι σ) (i : ι) (st : MemoryStorage σ) (s : Stage) : Crew ι σ :=
  { C with st := st, stage := Function.update C.stage i (some s) }

/-- Thread `i` returns. -/
def done (C : Crew ι σ) (i : ι) (st : MemoryStorage σ) : Crew ι σ :=
  { C with st := st, stage := Function.update C.stage i none }

end Crew

/-- The first step of a call. -/
def enterTurn (C : Crew ι σ) (i : ι) : Task σ → Except Fault (Option Reply × Crew ι σ)
  | .transfer p (.read readBuf size offset) =>
      if !C.st.isInitialized then .ok (some ⟨0, [readBuf]⟩, C)
      else .ok (none, C.next i { C.st with isReading := true }
        (.look p (.read readBuf size offset)))
  | .transfer p (.readv bufs offset) =>
      if !C.st.isInitialized then .ok (some ⟨0, bufs⟩, C)
      else .ok (none, C.next i C.st (.look p (.readv bufs offset)))
  | .transfer p (.writev bufs offset) =>
      if !C.st.isInitialized then .ok (some ⟨0, []⟩, C)
      else .ok (none, C.next i C.st (.look p (.writev bufs offset)))
  | .setMemorySize s =>
      if s ≤ C.st.capacity then .ok (some .none, C) else .ok (none, C.next i C.st (.grow s))
  | .updateReservedPieces pieces =>
      if !C.st.isInitialized then .ok (some .none, C)
      else .ok (none, ({ C with rMutex := some i } : Crew ι σ).next i C.st.clearReserved
        (.reserve pieces))
  | .updateReaderPieces pieces => do
      let st ← C.st.updateReaderPieces pieces
      pure (some .none, { C with st := st })
  | .setTorrentHandle t => .ok (some .none, { C with st := C.st.setTorrentHandle t })
  | .outside torrent => .ok (some .none, { C with st := { C.st with torrent := torrent } })

/-- The step of a thread that waited for `m_mutex` in `get_buffer`. -/
def getTurn (env : Env σ) (C : Crew ι σ) (i : ι) (p : ℤ) (job : Job) :
    Except Fault (Option Reply × Crew ι σ) :=
  match job with
  | .writev _ _ => do
      let (got, st) ← getWriteBuffer env C.st p
      if !got then pure (some ⟨0, []⟩, C.done i st)
      else pure (none, C.next i st (job.begins p))
  | .readv bufs _ => do
      let (got, st) ← getReadBuffer env C.st p
      if !got then pure (some ⟨0, bufs⟩, C.done i st)
      else pure (none, C.next i st (job.begins p))
  | .read readBuf _ _ => do
      let (got, st) ← getReadBuffer env C.st p
      if !got then pure (some ⟨-1, [readBuf]⟩, C.done i (restorePiece env st p))
      else pure (none, C.next i st (job.begins p))

/-- The step of a thread between two rounds of a copy loop. -/
def chunkTurn (C : Crew ι σ) (i : ι) (p : ℤ) : Copying → Except Fault (Option Reply × Crew ι σ)
  | .writev [] _ n => .ok (none, C.next i C.st (.account p n))
  | .writev (iov :: bufs) fileOffset n => do
      let pc ← subscript C.st.pieces p
      let toCopy := toInt (min (toSize (pc.length - fileOffset)) iov.length)
      pure (none, C.next i C.st (.aim p toCopy (.writev iov bufs fileOffset n)))
  | .readv filled [] offset _ n =>
      .ok (none, C.next i C.st (.finish p (offset + n) ⟨n, filled⟩))
  | .readv filled (iov :: bufs) offset fileOffset n => do
      let pc ← subscript C.st.pieces p
      let bf ← subscript C.st.buffers pc.bi
      let toCopy := toInt (min (toSize (bf.buffer.length - fileOffset)) iov.length)
      pure (none, C.next i C.st (.aim p toCopy (.readv filled iov bufs offset fileOffset n)))

/-- The step of a thread that calls `memcpy`. -/
def moveTurn (C : Crew ι σ) (i : ι) (p b toCopy : ℤ) :
    Chunk → Except Fault (Option Reply × Crew ι σ)
  | .writev iov bufs fileOffset n => do
      let bf ← subscript C.st.buffers b
      let bytes ← memcpy bf.buffer fileOffset iov 0 toCopy
      let st := { C.st with buffers := put C.st.buffers b { bf with buffer := bytes } }
      pure (none, C.next i st (.chunk p (.writev bufs (fileOffset + toCopy) (n + toCopy))))
  | .readv filled iov bufs offset fileOffset n => do
      let bf ← subscript C.st.buffers b
      let iov ← memcpy iov 0 bf.buffer fileOffset toCopy
      pure (none, C.next i C.st
        (.chunk p (.readv (filled ++ [iov]) bufs offset (fileOffset + toCopy) (n + toCopy))))
  | .read readBuf size offset => do
      let bf ← subscript C.st.buffers b
      let readBuf ← memcpy readBuf 0 bf.buffer offset toCopy
      -- the size asked for, whatever was available
      pure (none, C.next i C.st (.finish p (offset + toCopy) ⟨size, [readBuf]⟩))

/-- The step thread `i` makes at a stage. -/
def turn (env : Env σ) (C : Crew ι σ) (i : ι) : Stage → Except Fault (Option Reply × Crew ι σ)
  | .look p job => do
      let pc ← subscript C.st.pieces p
      pure (none, C.next i C.st (if pc.isBuffered then job.begins p else .get p job))
  | .get p job => getTurn env C i p job
  | .check p readBuf size offset => do
      let pc ← subscript C.st.pieces p
      if pc.intSize < pc.length then
        pure (some ⟨-1, [readBuf]⟩, C.done i (restorePiece env C.st p))
      else pure (none, C.next i C.st (.measure p readBuf size offset))
  | .measure p readBuf size offset => do
      let pc ← subscript C.st.pieces p
      let bf ← subscript C.st.buffers pc.bi
      let available := toInt (toSize (bf.buffer.length - offset))
      if available ≤ 0 then pure (some ⟨0, [readBuf]⟩, C.done i C.st)
      else
        pure (none, C.next i C.st
          (.aim p (if available > size then size else available) (.read readBuf size offset)))
  | .chunk p c => chunkTurn C i p c
  | .aim p toCopy k => do
      let pc ← subscript C.st.pieces p
      let _ ← subscript C.st.buffers pc.bi
      pure (none, C.next i C.st (.move p pc.bi toCopy k))
  | .move p b toCopy k => moveTurn C i p b toCopy k
  | .finish p upTo reply => do
      let st ← finishRead env C.st p upTo
      pure (some reply, C.done i st)
  | .account p n => do
      let st ← writevAccount env C.st p n
      pure (none, C.next i st (.test p n))
  | .test p n =>
      if C.st.isFull then .ok (none, C.next i C.st (.retest p n))
      else .ok (some ⟨n, []⟩, C.done i C.st)
  | .retest p n =>
      if C.st.capacity < 0 || !C.st.isFull then .ok (some ⟨n, []⟩, C.done i C.st)
      else .ok (none, C.next i C.st (.lock p n))
  | .lock p n => .ok (none, ({ C with mMutex := some i } : Crew ι σ).next i C.st (.round p n))
  | .round p n =>
      if C.st.isFull then
        .ok (none, C.next i C.st (.seek p n (!C.st.readerPieces.isEmpty)))
      else .ok (some ⟨n, []⟩, ({ C with mMutex := none } : Crew ι σ).done i C.st)
  | .seek p n checkRead =>
      .ok (none, C.next i (C.st.wait 1) (.search p n checkRead (env.clock C.st.ticks)))
  | .search p n checkRead minTime => do
      let bi ← findLastLoop env C.st p checkRead C.st.buffers (-1) minTime
      pure (none, C.next i C.st
        (if bi ≠ -1 then .remove p n bi
        else if checkRead then .seek p n false
        else .round p n))
  | .remove p n b => do
      let st ← removePiece env C.st b
      pure (none, C.next i st (.round p n))
  | .grow s => do
      let st ← C.st.resize s
      pure (some .none, C.done i st)
  | .reserve [] => .ok (some .none, ({ C with rMutex := none } : Crew ι σ).done i C.st)
  | .reserve (p :: pieces) => do
      let st ← C.st.reserve p
      pure (none, C.next i st (.reserve pieces))

/-- The locks the step of a stage waits for are free. -/
def Free (C : Crew ι σ) : Stage → Prop
  | .get _ _ => C.mMutex = none
  | .lock _ _ => C.mMutex = none
  | .grow _ => C.mMutex = none
  | .search _ _ _ _ => C.rMutex = none
  | _ => True

/-- A thread enters a call, or goes on. -/
inductive Turn (ι σ : Type) where
  | enter (i : ι) (task : Task σ) : Turn ι σ
  | go (i : ι) : Turn ι σ

/-- The thread enters no call while it is in one, and does not go on without its lock. -/
def Turn.Enabled (C : Crew ι σ) : Turn ι σ → Prop
  | .enter i task =>
      C.stage i = none ∧ task.call.Valid C.st ∧ (task.locksR = true → C.rMutex = none)
  | .go i => ∃ s, C.stage i = some s ∧ Free C s

/-- One step of one thread. -/
def advanceCrew (env : Env σ) (C : Crew ι σ) : Turn ι σ → Except Fault (Option Reply × Crew ι σ)
  | .enter i task => enterTurn C i task
  | .go i =>
      match C.stage i with
      | some s => turn env C i s
      | none => .ok (none, C)

/-- A thread that goes on takes its turn. -/
theorem turn_of_go {env : Env σ} {C C' : Crew ι σ} {i : ι} {s : Stage} {r : Option Reply}
    (hs : C.stage i = some s) (hadv : advanceCrew env C (.go i) = .ok (r, C')) :
    turn env C i s = .ok (r, C') := by
  simpa only [advanceCrew, hs] using hadv

end Steps

end Libtorrent
