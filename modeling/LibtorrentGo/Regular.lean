/-
# What holds in every state

A `StorageRun` starts with a memory size `≥ 0`, keeps to valid calls and shows the states
between them.  Nothing in the source asks for the first two: here a storage is constructed
with any size for which its pool has a size at all, every call that returns is a step, and the
states inside the calls count as well (`Reached`).

What is left of the invariant is `Regular`: the fixed lengths, the size of the pool as a
function of the capacity, the numbering of the pieces, and that a used buffer names a piece
and was accessed at a time the clock has shown.  The buffers are numbered from
`buffer_size - buffers.size()` on, which is 0 unless the first size asked for fewer than no
buffers.
-/
import LibtorrentGo.Calls

open MachineInt Subscript

namespace Libtorrent

open MemoryStorage

variable {σ : Type}

/-! ## The invariant -/

/-- What every storage of the torrent `info` satisfies, whatever its memory size. -/
structure Regular (env : Env σ) (info : TorrentInfo) (st : MemoryStorage σ) : Prop where
  initialized : st.isInitialized = true
  pieceCount_eq : st.pieceCount = info.numPieces
  pieceLength_eq : st.pieceLength = info.pieceLength
  poolSize_eq : poolSize st.capacity info.pieceLength info.numPieces = .ok st.bufferSize
  pieces_length : (st.pieces.length : ℤ) = info.numPieces
  readers_length : (st.readerPieces.length : ℤ) = info.numPieces + 10
  reserved_length : (st.reservedPieces.length : ℤ) = info.numPieces + 10
  piece_index : ∀ {p pc}, at? st.pieces p = some pc → pc.index = p
  bufferSize_le : st.bufferSize ≤ st.buffers.length
  buffer_index : ∀ {b bf}, at? st.buffers b = some bf →
    bf.index = b + (st.bufferSize - st.buffers.length)
  buffer_used : ∀ {b bf}, at? st.buffers b = some bf → bf.isUsed = true →
    (0 ≤ bf.pi ∧ bf.pi < info.numPieces) ∧ ∃ n < st.ticks, bf.accessed = some (env.clock n)

namespace Regular

variable {env : Env σ} {info : TorrentInfo} {st : MemoryStorage σ}

/-- A piece with a record has a valid number. -/
theorem piece_bounds (h : Regular env info st) {p : ℤ} {pc : MemoryPiece}
    (hp : at? st.pieces p = some pc) : 0 ≤ p ∧ p < info.numPieces := by
  have hb := at?_eq_some_bounds hp
  rw [h.pieces_length] at hb
  exact hb

/-- The clock may move on, and the torrent, the flags and the counters may change. -/
theorem frame (h : Regular env info st) {ticks : ℕ} (ht : st.ticks ≤ ticks) (torrent : σ)
    (mHandle t isReading : Bool) (bufferUsed bufferLimit : ℤ) :
    Regular env info { st with
      ticks := ticks
      torrent := torrent
      mHandle := mHandle
      t := t
      isReading := isReading
      bufferUsed := bufferUsed
      bufferLimit := bufferLimit } :=
  { h with
    buffer_used := by
      intro b bf hb hu
      obtain ⟨hpi, n, hn, hacc⟩ := h.buffer_used hb hu
      exact ⟨hpi, n, lt_of_lt_of_le hn ht, hacc⟩ }

/-- A piece may be rewritten under its number. -/
theorem putPiece (h : Regular env info st) {p : ℤ} {pc : MemoryPiece}
    (hp : at? st.pieces p = some pc) (pc' : MemoryPiece) (hindex : pc'.index = pc.index) :
    Regular env info { st with pieces := put st.pieces p pc' } :=
  { h with
    pieces_length := by
      rw [length_put]
      exact h.pieces_length
    piece_index := by
      intro q qc hq
      rw [at?_put hp] at hq
      split at hq
      · rename_i hqp
        obtain rfl := Option.some.inj hq
        rw [hindex, hqp]
        exact h.piece_index hp
      · exact h.piece_index hq }

/-- A buffer may be rewritten under its number, as long as it names a piece and has been
accessed if it is used. -/
theorem putBuffer (h : Regular env info st) {b : ℤ} {bf : MemoryBuffer}
    (hb : at? st.buffers b = some bf) (bf' : MemoryBuffer) (hindex : bf'.index = bf.index)
    (hused : bf'.isUsed = true →
      (0 ≤ bf'.pi ∧ bf'.pi < info.numPieces) ∧ ∃ n < st.ticks, bf'.accessed = some (env.clock n)) :
    Regular env info { st with buffers := put st.buffers b bf' } :=
  { h with
    bufferSize_le := by
      rw [length_put]
      exact h.bufferSize_le
    buffer_index := by
      intro c cf hc
      rw [length_put]
      rw [at?_put hb] at hc
      split at hc
      · rename_i hcb
        obtain rfl := Option.some.inj hc
        rw [hindex, hcb]
        exact h.buffer_index hb
      · exact h.buffer_index hc
    buffer_used := by
      intro c cf hc hu
      rw [at?_put hb] at hc
      split at hc
      · obtain rfl := Option.some.inj hc
        exact hused hu
      · exact h.buffer_used hc hu }

/-- An access to a buffer, at the next reading of the clock. -/
theorem access (h : Regular env info st) {b : ℤ} {bf : MemoryBuffer}
    (hb : at? st.buffers b = some bf) :
    Regular env info { st with
      buffers := put st.buffers b { bf with accessed := some (env.clock st.ticks) }
      ticks := st.ticks + 1 } := by
  have hnext := h.frame (Nat.le_succ st.ticks) st.torrent st.mHandle st.t st.isReading
    st.bufferUsed st.bufferLimit
  refine hnext.putBuffer hb { bf with accessed := some (env.clock st.ticks) } rfl ?_
  intro hu
  obtain ⟨hpi, -⟩ := h.buffer_used hb hu
  exact ⟨hpi, st.ticks, Nat.lt_succ_self _, rfl⟩

/-- A piece is given back to the torrent. -/
theorem restorePiece (h : Regular env info st) (pi : ℤ) :
    Regular env info (restorePiece env st pi) := by
  rw [restorePiece_eq]
  exact h.frame le_rfl _ st.mHandle st.t st.isReading st.bufferUsed st.bufferLimit

/-! ## Growth -/

/-- **Growing keeps the invariant**, and never takes a buffer away. -/
theorem grow (h : Regular env info st) {s n : ℤ} (hs : st.capacity < s)
    (hn : poolSize s st.pieceLength st.pieceCount = .ok n) :
    Regular env info (st.grow s n) ∧ st.bufferSize ≤ n := by
  rw [h.pieceLength_eq, h.pieceCount_eq] at hn
  have hq := tdiv_le_tdiv info.pieceLength_pos hs.le
  have hsize := (poolSize_eq_ok_iff.mp h.poolSize_eq).2
  have hsize' := (poolSize_eq_ok_iff.mp hn).2
  have hle : st.bufferSize ≤ n := by omega
  have hlength : ((st.grow s n).buffers.length : ℤ) =
      st.buffers.length + (n - st.bufferSize) := by
    rw [MemoryStorage.grow, List.length_append, length_newBuffers]
    omega
  have hindex : ∀ {b : ℤ} {bf : MemoryBuffer}, at? (st.grow s n).buffers b = some bf →
      bf.index = b + (n - (st.grow s n).buffers.length) := by
    intro b bf hb
    rw [hlength]
    rcases buffer_of_grow hb with hold | ⟨-, rfl⟩
    · rw [h.buffer_index hold]
      omega
    · show st.bufferSize + (b - st.buffers.length) = _
      omega
  have hused : ∀ {b : ℤ} {bf : MemoryBuffer}, at? (st.grow s n).buffers b = some bf →
      bf.isUsed = true → at? st.buffers b = some bf := by
    intro b bf hb hu
    rcases buffer_of_grow hb with hold | ⟨-, rfl⟩
    · exact hold
    · exact absurd hu (by simp [MemoryBuffer.new])
  have hbound : n ≤ (st.grow s n).buffers.length := by
    have hold := h.bufferSize_le
    rw [hlength]
    omega
  exact ⟨{ h with
    poolSize_eq := hn
    bufferSize_le := hbound
    buffer_index := hindex
    buffer_used := fun hb hu => h.buffer_used (hused hb hu) hu }, hle⟩

/-- A `set_memory_size` that returns keeps the invariant. -/
theorem of_setMemorySize (h : Regular env info st) {s : ℤ} {st' : MemoryStorage σ}
    (hs : setMemorySize st s = .ok st') : Regular env info st' := by
  rcases setMemorySize_eq_ok_iff.mp hs with ⟨-, rfl⟩ | ⟨hlt, n, hn, rfl⟩
  · exact h
  · exact (h.grow hlt hn).1

/-! ## The sets of pieces -/

/-- Setting bits keeps their number. -/
theorem length_of_setBits {bits bits' : List Bool} {pieces : List ℤ}
    (hs : setBits bits pieces = .ok bits') : bits'.length = bits.length := by
  induction pieces generalizing bits with
  | nil =>
      obtain rfl := Except.ok.inj hs
      rfl
  | cons p pieces ih =>
      obtain ⟨-, -, hrest⟩ := bind_eq_ok_iff.mp hs
      rw [ih hrest, length_put]

/-- An `update_reader_pieces` that returns keeps the invariant. -/
theorem of_updateReaderPieces (h : Regular env info st) {pieces : List ℤ}
    {st' : MemoryStorage σ} (hu : updateReaderPieces st pieces = .ok st') :
    Regular env info st' := by
  rw [updateReaderPieces, if_neg (by simp [h.initialized])] at hu
  obtain ⟨bits, hbits, hst⟩ := bind_eq_ok_iff.mp hu
  obtain rfl := Except.ok.inj hst
  have hlength := length_of_setBits hbits
  rw [List.length_replicate] at hlength
  exact { h with
    readers_length := by
      rw [hlength]
      exact h.readers_length }

/-- So does an `update_reserved_pieces`. -/
theorem of_updateReservedPieces (h : Regular env info st) {pieces : List ℤ}
    {st' : MemoryStorage σ} (hu : updateReservedPieces st pieces = .ok st') :
    Regular env info st' := by
  rw [updateReservedPieces, if_neg (by simp [h.initialized])] at hu
  obtain ⟨bits, hbits, hst⟩ := bind_eq_ok_iff.mp hu
  obtain rfl := Except.ok.inj hst
  have hlength := length_of_setBits hbits
  rw [List.length_replicate] at hlength
  exact { h with
    reserved_length := by
      rw [hlength]
      exact h.reserved_length }

/-! ## Acquiring a buffer -/

/-- The loop of `get_buffer` keeps the invariant. -/
theorem of_claimBuffer (h : Regular env info st) {piece i : ℤ} {k : ℕ} {st' : MemoryStorage σ}
    (hc : claimBuffer env piece k i st = .ok st') : Regular env info st' := by
  induction k generalizing i with
  | zero =>
      obtain rfl := Except.ok.inj hc
      exact h
  | succ k ih =>
      obtain ⟨bf, hb, hc⟩ := bind_eq_ok_iff.mp hc
      split at hc
      · exact ih hc
      · obtain ⟨pc, hp, hc⟩ := bind_eq_ok_iff.mp hc
        obtain ⟨r, -, hc⟩ := bind_eq_ok_iff.mp hc
        have hp := at?_of_subscript hp
        have hnext := h.frame (Nat.le_succ st.ticks) st.torrent st.mHandle st.t st.isReading
        -- the limit or the count of used buffers moves, whatever is reserved
        have hclaimed : ∀ bufferUsed bufferLimit, Regular env info { st with
            buffers := put st.buffers i
              { bf with isUsed := true, pi := pc.index, accessed := some (env.clock st.ticks) }
            pieces := put st.pieces piece { pc with bi := bf.index }
            ticks := st.ticks + 1
            bufferUsed := bufferUsed
            bufferLimit := bufferLimit } := by
          intro bufferUsed bufferLimit
          refine ((hnext bufferUsed bufferLimit).putPiece hp { pc with bi := bf.index }
            rfl).putBuffer (at?_of_subscript hb)
            { bf with isUsed := true, pi := pc.index, accessed := some (env.clock st.ticks) }
            rfl ?_
          intro _
          refine ⟨?_, st.ticks, Nat.lt_succ_self _, rfl⟩
          show 0 ≤ pc.index ∧ pc.index < info.numPieces
          rw [h.piece_index hp]
          exact h.piece_bounds hp
        split at hc
        · obtain rfl := Except.ok.inj hc
          exact hclaimed st.bufferUsed (st.bufferLimit - 1)
        · obtain rfl := Except.ok.inj hc
          exact hclaimed (st.bufferUsed + 1) st.bufferLimit

/-- A `get_buffer` that returns keeps the invariant. -/
theorem of_getBuffer (h : Regular env info st) {piece : ℤ} {isWrite got : Bool}
    {st' : MemoryStorage σ} (hg : getBuffer env st piece isWrite = .ok (got, st')) :
    Regular env info st' := by
  obtain ⟨pc, -, hg⟩ := bind_eq_ok_iff.mp hg
  split at hg
  · obtain ⟨-, rfl⟩ := Prod.mk.inj (Except.ok.inj hg)
    exact h
  split at hg
  · obtain ⟨-, rfl⟩ := Prod.mk.inj (Except.ok.inj hg)
    exact h
  split at hg
  · obtain ⟨-, rfl⟩ := Prod.mk.inj (Except.ok.inj hg)
    exact h.restorePiece _
  · obtain ⟨st₁, hc, hg⟩ := bind_eq_ok_iff.mp hg
    obtain ⟨pc₁, -, hg⟩ := bind_eq_ok_iff.mp hg
    obtain ⟨-, rfl⟩ := Prod.mk.inj (Except.ok.inj hg)
    exact h.of_claimBuffer hc

/-! ## Evicting -/

/-- Waiting keeps the invariant. -/
theorem wait (h : Regular env info st) (n : ℕ) : Regular env info (st.wait n) :=
  h.frame (Nat.le_add_right st.ticks n) st.torrent st.mHandle st.t st.isReading st.bufferUsed
    st.bufferLimit

/-- A `find_last_buffer` that returns has let time pass. -/
theorem of_findLastBuffer (h : Regular env info st) {pi bi : ℤ} {checkRead : Bool}
    {st' : MemoryStorage σ} (hf : findLastBuffer env st pi checkRead = .ok (bi, st')) :
    Regular env info st' := by
  obtain ⟨b, -, hf⟩ := bind_eq_ok_iff.mp hf
  obtain ⟨-, rfl⟩ := Prod.mk.inj (Except.ok.inj hf)
  exact h.wait 1

/-- A `remove_piece` that returns keeps the invariant. -/
theorem of_removePiece (h : Regular env info st) {bi : ℤ} {st' : MemoryStorage σ}
    (hr : removePiece env st bi = .ok st') : Regular env info st' := by
  obtain ⟨bf, hb, hr⟩ := bind_eq_ok_iff.mp hr
  have hreset : Regular env info { st with
      buffers := put st.buffers bi (bf.reset (env.clock st.ticks))
      ticks := st.ticks + 1
      bufferUsed := st.bufferUsed - 1 } :=
    (h.frame (Nat.le_succ st.ticks) st.torrent st.mHandle st.t st.isReading (st.bufferUsed - 1)
      st.bufferLimit).putBuffer (at?_of_subscript hb) (bf.reset (env.clock st.ticks)) rfl
      fun hu => absurd hu (by simp [MemoryBuffer.reset])
  simp only at hr
  split at hr
  · obtain ⟨pc, hp, hr⟩ := bind_eq_ok_iff.mp hr
    obtain rfl := Except.ok.inj hr
    exact (hreset.putPiece (at?_of_subscript hp) pc.reset rfl).restorePiece _
  · obtain rfl := Except.ok.inj hr
    exact hreset

/-- A round of the `while` in `trim` that returns keeps the invariant. -/
theorem of_trimBody (h : Regular env info st) {pi : ℤ} {st' : MemoryStorage σ}
    (ht : trimBody env pi st = .ok st') : Regular env info st' := by
  -- what the round does once it has made its first search, or has not made it
  have rest : ∀ {bi : ℤ} {s : MemoryStorage σ}, Regular env info s →
      (if bi ≠ -1 then removePiece env s bi
        else findLastBuffer env s pi false >>= fun found =>
          if found.1 ≠ -1 then removePiece env found.2 found.1 else pure found.2) = .ok st' →
      Regular env info st' := by
    intro bi s hs hrest
    split at hrest
    · exact hs.of_removePiece hrest
    · obtain ⟨found, hfind, hrest⟩ := bind_eq_ok_iff.mp hrest
      have h₂ := hs.of_findLastBuffer hfind
      split at hrest
      · exact h₂.of_removePiece hrest
      · obtain rfl := Except.ok.inj hrest
        exact h₂
  unfold trimBody at ht
  simp only at ht
  split at ht
  · obtain ⟨found, hfind, ht⟩ := bind_eq_ok_iff.mp ht
    exact rest (h.of_findLastBuffer hfind) ht
  · rw [pure_eq_ok, ok_bind] at ht
    exact rest h ht

/-- A `trim` that returns keeps the invariant. -/
theorem of_trim (h : Regular env info st) {fuel : ℕ} {pi : ℤ} {st' : MemoryStorage σ}
    (ht : trim env fuel st pi = .ok st') : Regular env info st' := by
  unfold trim at ht
  split at ht
  · obtain rfl := Except.ok.inj ht
    exact h
  · exact WhileLoop.loop_invariant (I := Regular env info)
      (fun _ _ hs hround => hs.of_trimBody hround.2) h ht

/-! ## Writing and reading -/

/-- The copy loop of `writev` keeps the invariant. -/
theorem of_writevCopy (h : Regular env info st) {piece fileOffset n m : ℤ}
    {bufs : List (List Byte)} {st' : MemoryStorage σ}
    (hc : writevCopy piece bufs fileOffset n st = .ok (m, st')) : Regular env info st' := by
  induction bufs generalizing st fileOffset n with
  | nil =>
      obtain ⟨-, rfl⟩ := Prod.mk.inj (Except.ok.inj hc)
      exact h
  | cons iov bufs ih =>
      obtain ⟨pc, -, hc⟩ := bind_eq_ok_iff.mp hc
      obtain ⟨bf, hb, hc⟩ := bind_eq_ok_iff.mp hc
      obtain ⟨bytes, -, hc⟩ := bind_eq_ok_iff.mp hc
      have hb := at?_of_subscript hb
      have hused := h.buffer_used hb
      exact ih (h.putBuffer hb { bf with buffer := bytes } rfl hused) hc

/-- So do the two statements behind it. -/
theorem of_writevAccount (h : Regular env info st) {piece n : ℤ} {st' : MemoryStorage σ}
    (ha : writevAccount env st piece n = .ok st') : Regular env info st' := by
  obtain ⟨pc, hp, ha⟩ := bind_eq_ok_iff.mp ha
  obtain ⟨bf, hb, ha⟩ := bind_eq_ok_iff.mp ha
  obtain rfl := Except.ok.inj ha
  exact (h.access (at?_of_subscript hb)).putPiece (at?_of_subscript hp)
    { pc with size := pc.size + n } rfl

/-- A `writev` that returns keeps the invariant. -/
theorem of_writev (h : Regular env info st) {fuel : ℕ} {bufs : List (List Byte)}
    {piece offset n : ℤ} {st' : MemoryStorage σ}
    (hw : writev env fuel st bufs piece offset = .ok (n, st')) : Regular env info st' := by
  rw [writev, if_neg (by simp [h.initialized])] at hw
  obtain ⟨⟨got, st₁⟩, hget, hw⟩ := bind_eq_ok_iff.mp hw
  have h₁ := h.of_getBuffer hget
  simp only at hw
  split at hw
  · obtain ⟨-, rfl⟩ := Prod.mk.inj (Except.ok.inj hw)
    exact h₁
  · obtain ⟨⟨m, st₂⟩, hcopy, hw⟩ := bind_eq_ok_iff.mp hw
    obtain ⟨st₃, hacc, hw⟩ := bind_eq_ok_iff.mp hw
    obtain ⟨st₄, htrim, hw⟩ := bind_eq_ok_iff.mp hw
    obtain ⟨-, rfl⟩ := Prod.mk.inj (Except.ok.inj hw)
    have h₃ := (h₁.of_writevCopy hcopy).of_writevAccount hacc
    unfold writevTrim at htrim
    split at htrim
    · exact h₃.of_trim htrim
    · obtain rfl := Except.ok.inj htrim
      exact h₃

/-- The end of a `read` or `readv` keeps the invariant. -/
theorem of_finishRead (h : Regular env info st) {piece upTo : ℤ} {st' : MemoryStorage σ}
    (hf : finishRead env st piece upTo = .ok st') : Regular env info st' := by
  obtain ⟨pc, hp, hf⟩ := bind_eq_ok_iff.mp hf
  obtain ⟨bf, hb, hf⟩ := bind_eq_ok_iff.mp hf
  obtain rfl := Except.ok.inj hf
  refine (h.access (at?_of_subscript hb)).putPiece (at?_of_subscript hp)
    (if pc.isCompleted && upTo ≥ pc.intSize then { pc with isRead := true } else pc) ?_
  split <;> rfl

/-- A `readv` that returns keeps the invariant. -/
theorem of_readv (h : Regular env info st) {bufs bufs' : List (List Byte)} {piece offset n : ℤ}
    {st' : MemoryStorage σ} (hr : readv env st bufs piece offset = .ok (n, bufs', st')) :
    Regular env info st' := by
  rw [readv, if_neg (by simp [h.initialized])] at hr
  obtain ⟨⟨got, st₁⟩, hget, hr⟩ := bind_eq_ok_iff.mp hr
  have h₁ := h.of_getBuffer hget
  simp only at hr
  split at hr
  · obtain ⟨-, hpair⟩ := Prod.mk.inj (Except.ok.inj hr)
    obtain ⟨-, rfl⟩ := Prod.mk.inj hpair
    exact h₁
  · obtain ⟨⟨m, filled⟩, -, hr⟩ := bind_eq_ok_iff.mp hr
    obtain ⟨st₂, hfinish, hr⟩ := bind_eq_ok_iff.mp hr
    obtain ⟨-, hpair⟩ := Prod.mk.inj (Except.ok.inj hr)
    obtain ⟨-, rfl⟩ := Prod.mk.inj hpair
    exact h₁.of_finishRead hfinish

/-- A `read` that returns keeps the invariant. -/
theorem of_read (h : Regular env info st) {readBuf readBuf' : List Byte}
    {size piece offset n : ℤ} {st' : MemoryStorage σ}
    (hr : read env st readBuf size piece offset = .ok (n, readBuf', st')) :
    Regular env info st' := by
  rw [MemoryStorage.read, if_neg (by simp [h.initialized])] at hr
  obtain ⟨⟨got, st₁⟩, hget, hr⟩ := bind_eq_ok_iff.mp hr
  have hreading : Regular env info { st with isReading := true } :=
    h.frame le_rfl st.torrent st.mHandle st.t true st.bufferUsed st.bufferLimit
  have h₁ := hreading.of_getBuffer hget
  simp only at hr
  split at hr
  · obtain ⟨-, hpair⟩ := Prod.mk.inj (Except.ok.inj hr)
    obtain ⟨-, rfl⟩ := Prod.mk.inj hpair
    exact h₁.restorePiece _
  obtain ⟨pc, -, hr⟩ := bind_eq_ok_iff.mp hr
  split at hr
  · -- the piece is not complete
    obtain ⟨-, hpair⟩ := Prod.mk.inj (Except.ok.inj hr)
    obtain ⟨-, rfl⟩ := Prod.mk.inj hpair
    exact h₁.restorePiece _
  obtain ⟨bf, -, hr⟩ := bind_eq_ok_iff.mp hr
  simp only at hr
  split at hr
  · obtain ⟨-, hpair⟩ := Prod.mk.inj (Except.ok.inj hr)
    obtain ⟨-, rfl⟩ := Prod.mk.inj hpair
    exact h₁
  · obtain ⟨copied, -, hr⟩ := bind_eq_ok_iff.mp hr
    obtain ⟨st₂, hfinish, hr⟩ := bind_eq_ok_iff.mp hr
    obtain ⟨-, hpair⟩ := Prod.mk.inj (Except.ok.inj hr)
    obtain ⟨-, rfl⟩ := Prod.mk.inj hpair
    exact h₁.of_finishRead hfinish

/-! ## Calls -/

/-- **A call that returns keeps the invariant.** -/
theorem of_exec (h : Regular env info st) {fuel : ℕ} {c : Call σ} {r : Reply}
    {st' : MemoryStorage σ} (he : exec env fuel st c = .ok (r, st')) : Regular env info st' := by
  cases c with
  | writev bufs piece offset =>
      obtain ⟨⟨n, st₁⟩, hw, he⟩ := bind_eq_ok_iff.mp he
      obtain ⟨-, rfl⟩ := Prod.mk.inj (Except.ok.inj he)
      exact h.of_writev hw
  | readv bufs piece offset =>
      obtain ⟨⟨n, bufs', st₁⟩, hr, he⟩ := bind_eq_ok_iff.mp he
      obtain ⟨-, rfl⟩ := Prod.mk.inj (Except.ok.inj he)
      exact h.of_readv hr
  | read readBuf size piece offset =>
      obtain ⟨⟨n, readBuf', st₁⟩, hr, he⟩ := bind_eq_ok_iff.mp he
      obtain ⟨-, rfl⟩ := Prod.mk.inj (Except.ok.inj he)
      exact h.of_read hr
  | setMemorySize s =>
      obtain ⟨st₁, hs, he⟩ := bind_eq_ok_iff.mp he
      obtain ⟨-, rfl⟩ := Prod.mk.inj (Except.ok.inj he)
      exact h.of_setMemorySize hs
  | updateReaderPieces pieces =>
      obtain ⟨st₁, hu, he⟩ := bind_eq_ok_iff.mp he
      obtain ⟨-, rfl⟩ := Prod.mk.inj (Except.ok.inj he)
      exact h.of_updateReaderPieces hu
  | updateReservedPieces pieces =>
      obtain ⟨st₁, hu, he⟩ := bind_eq_ok_iff.mp he
      obtain ⟨-, rfl⟩ := Prod.mk.inj (Except.ok.inj he)
      exact h.of_updateReservedPieces hu
  | setTorrentHandle t =>
      obtain ⟨-, rfl⟩ := Prod.mk.inj (Except.ok.inj he)
      exact h.frame le_rfl st.torrent true t st.isReading st.bufferUsed st.bufferLimit
  | outside torrent =>
      obtain ⟨-, rfl⟩ := Prod.mk.inj (Except.ok.inj he)
      exact h.frame le_rfl torrent st.mHandle st.t st.isReading st.bufferUsed st.bufferLimit

end Regular

/-! ## Reached states -/

/-- The states a storage of the torrent `info` goes through, whatever its memory size and
whatever it is asked for. -/
inductive Reached (env : Env σ) (info : TorrentInfo) : MemoryStorage σ → Prop
  | constructed {memorySize : ℤ} {mHandle t : Bool} {torrent : σ} {st : MemoryStorage σ} :
      MemoryStorage.new info memorySize mHandle t torrent = .ok st → Reached env info st
  /-- behind a call -/
  | called {fuel : ℕ} {c : Call σ} {r : Reply} {st st' : MemoryStorage σ} :
      Reached env info st → exec env fuel st c = .ok (r, st') → Reached env info st'
  /-- inside a call, once it has looked for a buffer -/
  | acquired {piece : ℤ} {isWrite got : Bool} {st st' : MemoryStorage σ} :
      Reached env info st → getBuffer env st piece isWrite = .ok (got, st') →
      Reached env info st'
  /-- inside a `writev`, behind its copy loop -/
  | copied {piece fileOffset n m : ℤ} {bufs : List (List Byte)} {st st' : MemoryStorage σ} :
      Reached env info st → writevCopy piece bufs fileOffset n st = .ok (m, st') →
      Reached env info st'
  /-- inside a `writev`, where it enters `trim` -/
  | accounted {piece n : ℤ} {st st' : MemoryStorage σ} :
      Reached env info st → writevAccount env st piece n = .ok st' → Reached env info st'
  /-- behind a round of `trim` -/
  | trimmed {pi : ℤ} {st st' : MemoryStorage σ} :
      Reached env info st → trimBody env pi st = .ok st' → Reached env info st'
  /-- when some time has passed -/
  | waited {st : MemoryStorage σ} (n : ℕ) : Reached env info st → Reached env info (st.wait n)

/-- **A constructed storage is regular**, whatever its memory size. -/
theorem regular_new {env : Env σ} {info : TorrentInfo} {memorySize : ℤ} {mHandle t : Bool}
    {torrent : σ} {st : MemoryStorage σ}
    (hnew : MemoryStorage.new info memorySize mHandle t torrent = .ok st) :
    Regular env info st := by
  obtain ⟨n, hn, hst⟩ := bind_eq_ok_iff.mp hnew
  obtain rfl := Except.ok.inj hst
  have hcount := info.one_le_numPieces
  have hlength := length_newBuffers 0 n info.pieceLength
  refine ⟨rfl, rfl, rfl, hn, ?_, ?_, ?_, ?_, ?_, ?_, ?_⟩
  · simp only [List.length_map, List.length_range]
    omega
  · simp only [List.length_replicate]
    omega
  · simp only [List.length_replicate]
    omega
  · intro p pc hp
    rw [eq_new_of_newPieces hp]
    rfl
  · simp only [hlength]
    omega
  · intro b bf hb
    have hbounds := at?_eq_some_bounds hb
    simp only [hlength] at hbounds ⊢
    rw [index_newBuffers hb]
    omega
  · intro b bf hb hu
    rw [eq_new_of_newBuffers hb] at hu
    exact absurd hu (by simp [MemoryBuffer.new])

/-- **Every reached state is regular.** -/
theorem Reached.regular {env : Env σ} {info : TorrentInfo} {st : MemoryStorage σ}
    (hr : Reached env info st) : Regular env info st := by
  induction hr with
  | constructed hnew => exact regular_new hnew
  | called _ he ih => exact ih.of_exec he
  | acquired _ hg ih => exact ih.of_getBuffer hg
  | copied _ hc ih => exact ih.of_writevCopy hc
  | accounted _ ha ih => exact ih.of_writevAccount ha
  | trimmed _ ht ih => exact ih.of_trimBody ht
  | waited n _ ih => exact ih.wait n

/-- The state in which a `writev` enters `trim`. -/
theorem Reached.beforeTrim {env : Env σ} {info : TorrentInfo} {st s : MemoryStorage σ}
    (hr : Reached env info st) {bufs : List (List Byte)} {p offset : ℤ}
    (hs : BeforeTrim env st bufs p offset s) : Reached env info s := by
  obtain ⟨n, st₁, st₂, hget, hcopy, hacc⟩ := hs
  exact ((hr.acquired hget).copied hcopy).accounted hacc

/-- The states of a run are among them. -/
theorem StorageRun.reached {env : Env σ} {info : TorrentInfo} {h : History σ}
    {st : MemoryStorage σ} (hr : StorageRun env info h st) : Reached env info st := by
  refine Runs.Run.invariant (I := Reached env info) ?_ ?_ hr
  · rintro st ⟨memorySize, mHandle, t, torrent, -, hnew⟩
    exact .constructed hnew
  · rintro st l st' hst ⟨-, fuel, he⟩
    exact hst.called he

end Libtorrent
