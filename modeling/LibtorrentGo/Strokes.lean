/-
# What a step of a thread does

`Stroke env C i s r C'` lists everything thread `i` can do to a crew at stage `s`, one
constructor for each outcome, and `stroke_of_turn` says that it does nothing else.
`Entrance` does the same for the first step of a call.
-/
import LibtorrentGo.Threads

open MachineInt Splice Subscript

namespace Libtorrent

open MemoryStorage

variable {σ ι : Type}

/-! ## Owners -/

/-- Piece `p` owns buffer `b`. -/
def HasBuffer (st : MemoryStorage σ) (p b : ℤ) : Prop := ∃ pc bf, Owns st p pc b bf

/-- Only the links count. -/
theorem hasBuffer_iff {st : MemoryStorage σ} {p b : ℤ} :
    HasBuffer st p b ↔ (at? st.pieces p).map MemoryPiece.bi = some b ∧
      (at? st.buffers b).map (fun bf => (bf.isUsed, bf.pi)) = some (true, p) := by
  constructor
  · rintro ⟨pc, bf, ho⟩
    rw [ho.piece, ho.buffer, Option.map_some, Option.map_some, ho.bi, ho.used, ho.pi]
    exact ⟨rfl, rfl⟩
  · rintro ⟨hp, hb⟩
    obtain ⟨pc, hpc, hbi⟩ := Option.map_eq_some_iff.mp hp
    obtain ⟨bf, hbf, hlink⟩ := Option.map_eq_some_iff.mp hb
    obtain ⟨hused, hpi⟩ := Prod.mk.inj hlink
    exact ⟨pc, bf, hpc, hbi, hbf, hused, hpi⟩

/-- An owner is resident. -/
theorem HasBuffer.resident {st : MemoryStorage σ} {p b : ℤ} (h : HasBuffer st p b)
    (hl : Linked st) : Resident st p := by
  obtain ⟨pc, bf, ho⟩ := h
  exact ho.resident hl

/-- A buffer has one owner. -/
theorem HasBuffer.owner_eq {st : MemoryStorage σ} {p q b : ℤ} (h : HasBuffer st p b)
    (h' : HasBuffer st q b) : p = q := by
  obtain ⟨pc, bf, ho⟩ := h
  obtain ⟨qc, cf, ho'⟩ := h'
  have heq := ho.buffer
  rw [ho'.buffer] at heq
  obtain rfl := Option.some.inj heq
  rw [← ho.pi, ho'.pi]

/-- A piece owns one buffer. -/
theorem HasBuffer.buffer_eq {st : MemoryStorage σ} {p b c : ℤ} (h : HasBuffer st p b)
    (h' : HasBuffer st p c) : b = c := by
  obtain ⟨pc, bf, ho⟩ := h
  obtain ⟨qc, cf, ho'⟩ := h'
  have heq := ho.piece
  rw [ho'.piece] at heq
  obtain rfl := Option.some.inj heq
  rw [← ho.bi, ho'.bi]

/-- Only the records count. -/
theorem HasBuffer.frame {st st' : MemoryStorage σ} {p b : ℤ} (h : HasBuffer st p b)
    (hp : st'.pieces = st.pieces) (hb : st'.buffers = st.buffers) : HasBuffer st' p b := by
  obtain ⟨pc, bf, ho⟩ := h
  exact ⟨pc, bf, ho.frame hp hb⟩

/-- Revised records own what they owned. -/
theorem hasBuffer_revise {st : MemoryStorage σ} {p b : ℤ} {pc : MemoryPiece} {bf : MemoryBuffer}
    (ho : Owns st p pc b bf) (pc' : MemoryPiece) (bf' : MemoryBuffer) (hbi : pc'.bi = pc.bi)
    (hb : bf'.isUsed = bf.isUsed ∧ bf'.pi = bf.pi) (ticks : ℕ) (q c : ℤ) :
    HasBuffer (st.revise p pc' b bf' ticks) q c ↔ HasBuffer st q c := by
  rw [hasBuffer_iff, hasBuffer_iff, revise]
  have hpieces := map_put_of_eq ho.piece hbi
  have hbuffers : (put st.buffers b bf').map (fun bf => (bf.isUsed, bf.pi)) =
      st.buffers.map fun bf => (bf.isUsed, bf.pi) :=
    map_put_of_eq ho.buffer (by rw [hb.1, hb.2])
  simp only [← at?_map, hpieces, hbuffers]

/-- So do pieces behind a read. -/
theorem hasBuffer_touch {env : Env σ} {st : MemoryStorage σ} {p b : ℤ} {pc : MemoryPiece}
    {bf : MemoryBuffer} (ho : Owns st p pc b bf) (upTo q c : ℤ) :
    HasBuffer (st.touch env p pc b bf upTo) q c ↔ HasBuffer st q c := by
  have hbi : (if pc.isCompleted && upTo ≥ pc.intSize then { pc with isRead := true } else pc).bi =
      pc.bi := by
    split <;> rfl
  exact hasBuffer_revise ho _ { bf with accessed := some (env.clock st.ticks) } hbi ⟨rfl, rfl⟩
    (st.ticks + 1) q c

/-- Placing a piece takes no buffer away. -/
theorem hasBuffer_place {env : Env σ} {st : MemoryStorage σ} {p b : ℤ} {pc : MemoryPiece}
    {bf : MemoryBuffer} (hp : at? st.pieces p = some pc) (hpb : pc.bi = -1)
    (hb : at? st.buffers b = some bf) (hu : bf.isUsed = false) (reserved : Bool)
    {q c : ℤ} (h : HasBuffer st q c) (hl : Linked st) :
    HasBuffer (st.place env p pc b bf reserved) q c := by
  obtain ⟨qc, cf, ho⟩ := h
  have hq : q ≠ p := by
    rintro rfl
    obtain rfl := ho.piece_eq hp
    exact hl.bi_ne ho (ho.bi.symm.trans hpb)
  have hc : c ≠ b := by
    rintro rfl
    obtain rfl := ho.buffer_eq hb
    exact absurd (hu.symm.trans ho.used) (by simp)
  exact ⟨qc, cf, (at?_put_ne hq.symm _).trans ho.piece, ho.bi,
    (at?_put_ne hc.symm _).trans ho.buffer, ho.used, ho.pi⟩

/-- Evicting a piece takes no other one's buffer away. -/
theorem hasBuffer_evict {env : Env σ} {st : MemoryStorage σ} {v b : ℤ} {vc : MemoryPiece}
    {bf : MemoryBuffer} (hv : Owns st v vc b bf) {q c : ℤ} (h : HasBuffer st q c) (hq : q ≠ v) :
    HasBuffer (st.evict env v vc b bf) q c := by
  obtain ⟨qc, cf, ho⟩ := h
  have hc : c ≠ b := by
    rintro rfl
    obtain rfl := ho.buffer_eq hv.buffer
    exact hq (ho.pi.symm.trans hv.pi)
  exact ⟨qc, cf, (at?_put_ne hq.symm _).trans ho.piece, ho.bi,
    (at?_put_ne hc.symm _).trans ho.buffer, ho.used, ho.pi⟩

/-- Growing takes no buffer away. -/
theorem hasBuffer_grow {st : MemoryStorage σ} {q c : ℤ} (h : HasBuffer st q c) (s n : ℤ) :
    HasBuffer (st.grow s n) q c := by
  obtain ⟨qc, cf, ho⟩ := h
  exact ⟨qc, cf, ho.piece, ho.bi, at?_grow ho.buffer s n, ho.used, ho.pi⟩

/-! ## Bytes that are written into a buffer -/

/-- Buffer `b` is given other bytes, whoever has it. -/
def MemoryStorage.overwrite (st : MemoryStorage σ) (b : ℤ) (bf : MemoryBuffer)
    (bytes : List Byte) : MemoryStorage σ :=
  { st with buffers := put st.buffers b { bf with buffer := bytes } }

section Overwrite

variable {st : MemoryStorage σ} {b : ℤ} {bf : MemoryBuffer}

/-- A buffer keeps all but its bytes. -/
theorem at?_overwrite (hb : at? st.buffers b = some bf) (bytes : List Byte) {c : ℤ}
    {cf : MemoryBuffer} (hc : at? st.buffers c = some cf) :
    ∃ other, at? (st.overwrite b bf bytes).buffers c = some { cf with buffer := other } := by
  show ∃ other, at? (put st.buffers b _) c = some _
  rw [at?_put hb]
  split
  · rename_i hcb
    subst hcb
    obtain rfl := Option.some.inj (hb.symm.trans hc)
    exact ⟨bytes, rfl⟩
  · exact ⟨cf.buffer, hc⟩

/-- It had a record before. -/
theorem exists_of_overwrite (hb : at? st.buffers b = some bf) {bytes : List Byte} {c : ℤ}
    {cf' : MemoryBuffer} (hc : at? (st.overwrite b bf bytes).buffers c = some cf') :
    ∃ cf, at? st.buffers c = some cf ∧ cf' = { cf with buffer := cf'.buffer } := by
  have hput : at? (put st.buffers b { bf with buffer := bytes }) c = some cf' := hc
  rw [at?_put hb] at hput
  split at hput
  · rename_i hcb
    obtain rfl := Option.some.inj hput
    exact ⟨bf, hcb ▸ hb, rfl⟩
  · exact ⟨cf', hput, rfl⟩

/-- The links stay. -/
theorem Linked.overwrite (h : Linked st) (hb : at? st.buffers b = some bf) (bytes : List Byte) :
    Linked (st.overwrite b bf bytes) where
  initialized := h.initialized
  pieces_length := h.pieces_length
  buffers_length := by
    rw [MemoryStorage.overwrite, length_put]
    exact h.buffers_length
  readers_length := h.readers_length
  reserved_length := h.reserved_length
  piece_index := h.piece_index
  buffer_index := by
    intro c cf' hc
    obtain ⟨cf, hcf, heq⟩ := exists_of_overwrite hb hc
    have hindex := h.buffer_index hcf
    rw [heq]
    exact hindex
  piece_link := by
    intro p pc hp hbi
    obtain ⟨cf, hcf, hused, hpi⟩ := h.piece_link hp hbi
    obtain ⟨other, hother⟩ := at?_overwrite hb bytes hcf
    exact ⟨_, hother, hused, hpi⟩
  buffer_link := by
    intro c cf' hc hused
    obtain ⟨cf, hcf, heq⟩ := exists_of_overwrite hb hc
    rw [heq] at hused
    have hlink := h.buffer_link hcf hused
    rw [heq]
    exact hlink
  buffer_unnamed := by
    intro c cf' hc hused
    obtain ⟨cf, hcf, heq⟩ := exists_of_overwrite hb hc
    rw [heq] at hused
    have hunnamed := h.buffer_unnamed hcf hused
    rw [heq]
    exact hunnamed
  piece_blank := h.piece_blank

/-- So does the shape, if the number of bytes does. -/
theorem WellFormed.overwrite {info : TorrentInfo} (h : WellFormed info st)
    (hb : at? st.buffers b = some bf) {bytes : List Byte}
    (hlen : bytes.length = bf.buffer.length) : WellFormed info (st.overwrite b bf bytes) := by
  refine h.of_sameShape (h.toLinked.overwrite hb bytes) ⟨rfl, rfl, rfl, rfl, rfl, rfl, rfl, rfl, ?_⟩
  exact map_put_of_eq hb hlen

/-- No buffer comes into use. -/
theorem usedBuffers_overwrite (hb : at? st.buffers b = some bf) (bytes : List Byte) :
    usedBuffers (st.overwrite b bf bytes) = usedBuffers st :=
  Nat.add_right_cancel
    (countP_put hb { bf with buffer := bytes } fun cf : MemoryBuffer => cf.isUsed)

/-- And all pieces own what they owned. -/
theorem hasBuffer_overwrite (hb : at? st.buffers b = some bf) (bytes : List Byte) (q c : ℤ) :
    HasBuffer (st.overwrite b bf bytes) q c ↔ HasBuffer st q c := by
  have hbuffers : (put st.buffers b { bf with buffer := bytes }).map
      (fun bf => (bf.isUsed, bf.pi)) = st.buffers.map fun bf => (bf.isUsed, bf.pi) :=
    map_put_of_eq hb rfl
  rw [hasBuffer_iff, hasBuffer_iff, MemoryStorage.overwrite, ← at?_map, ← at?_map, hbuffers]
  simp only [at?_map]

end Overwrite

/-! ## Strokes -/

/-- A transfer that starts inside the piece, and for `read` has a destination of the size
asked for. -/
structure Job.Fits (info : TorrentInfo) (p : ℤ) (job : Job) : Prop where
  piece_nonneg : 0 ≤ p
  piece_lt : p < info.numPieces
  offset_nonneg : 0 ≤ job.offset
  offset_le : job.offset ≤ info.pieceSize p
  room : ∀ readBuf size offset, job = .read readBuf size offset →
    0 ≤ size ∧ size ≤ readBuf.length

namespace Chunk

/-- Where in the buffer it is copied to or from. -/
def position : Chunk → ℤ
  | .writev _ _ fileOffset _ => fileOffset
  | .readv _ _ _ _ fileOffset _ => fileOffset
  | .read _ _ offset => offset

/-- The bytes that are copied or overwritten. -/
def iov : Chunk → List Byte
  | .writev iov _ _ _ => iov
  | .readv _ iov _ _ _ _ => iov
  | .read readBuf _ _ => readBuf

/-- How far a copy may reach: a write to the end of the piece, a read to that of the buffer. -/
def limit (info : TorrentInfo) (p : ℤ) : Chunk → ℤ
  | .writev _ _ _ _ => info.pieceSize p
  | _ => info.pieceLength

end Chunk

/-- `toCopy` bytes that are there on both sides. -/
structure Chunk.Fits (info : TorrentInfo) (p toCopy : ℤ) (k : Chunk) : Prop where
  piece_nonneg : 0 ≤ p
  piece_lt : p < info.numPieces
  position_nonneg : 0 ≤ k.position
  count_nonneg : 0 ≤ toCopy
  within : k.position + toCopy ≤ k.limit info p
  room : toCopy ≤ k.iov.length

/-- A copy loop that is still inside the piece, or inside the buffer. -/
def Copying.Fits (info : TorrentInfo) (p : ℤ) : Copying → Prop
  | .writev _ fileOffset _ =>
      (0 ≤ p ∧ p < info.numPieces) ∧ 0 ≤ fileOffset ∧ fileOffset ≤ info.pieceSize p
  | .readv _ _ _ fileOffset _ =>
      (0 ≤ p ∧ p < info.numPieces) ∧ 0 ≤ fileOffset ∧ fileOffset ≤ info.pieceLength

/-- What a stage says keeps to the torrent. -/
def Stage.Valid (info : TorrentInfo) : Stage → Prop
  | .look p job => job.Fits info p
  | .get p job => job.Fits info p
  | .check p readBuf size offset => (Job.read readBuf size offset).Fits info p
  | .measure p readBuf size offset => (Job.read readBuf size offset).Fits info p
  | .chunk p c => c.Fits info p
  | .aim p toCopy k => k.Fits info p toCopy
  | .move p _ toCopy k => k.Fits info p toCopy
  | .finish p _ _ => 0 ≤ p ∧ p < info.numPieces
  | .account p _ => 0 ≤ p ∧ p < info.numPieces
  | .grow s => 0 ≤ s
  | .reserve pieces => ∀ q ∈ pieces, 0 ≤ q ∧ q < info.numPieces
  | _ => True

/-- A transfer that fits begins well. -/
theorem Job.Fits.begins {info : TorrentInfo} {p : ℤ} {job : Job} (h : job.Fits info p) :
    (job.begins p).Valid info := by
  have hpiece : 0 ≤ p ∧ p < info.numPieces := ⟨h.piece_nonneg, h.piece_lt⟩
  have hle := info.pieceSize_le p h.piece_nonneg h.piece_lt
  cases job with
  | writev bufs offset => exact ⟨hpiece, h.offset_nonneg, h.offset_le⟩
  | readv bufs offset => exact ⟨hpiece, h.offset_nonneg, h.offset_le.trans hle⟩
  | read readBuf size offset => exact h

/-- It begins with its copy. -/
theorem Job.begins_ne_remove {p q n b : ℤ} {job : Job} : job.begins p ≠ .remove q n b := by
  cases job <;> simp [Job.begins]

/-- A step of a copy that leaves the storage as it is. -/
inductive Onward (st : MemoryStorage σ) : Stage → Stage → Prop
  /-- the piece of a `read` is complete -/
  | check {p size offset : ℤ} {readBuf : List Byte} {pc : MemoryPiece} :
      at? st.pieces p = some pc → pc.length ≤ pc.intSize →
      Onward st (.check p readBuf size offset) (.measure p readBuf size offset)
  /-- there is something behind the offset -/
  | measure {p size offset b available : ℤ} {readBuf : List Byte} {pc : MemoryPiece}
      {bf : MemoryBuffer} : Owns st p pc b bf →
      available = toInt (toSize (bf.buffer.length - offset)) → 0 < available →
      Onward st (.measure p readBuf size offset)
        (.aim p (if available > size then size else available) (.read readBuf size offset))
  /-- the next chunk of a `writev` -/
  | writeChunk {p fileOffset n : ℤ} {iov : List Byte} {bufs : List (List Byte)}
      {pc : MemoryPiece} : at? st.pieces p = some pc →
      Onward st (.chunk p (.writev (iov :: bufs) fileOffset n))
        (.aim p (toInt (min (toSize (pc.length - fileOffset)) iov.length))
          (.writev iov bufs fileOffset n))
  /-- a `writev` has no chunk left -/
  | written {p fileOffset n : ℤ} :
      Onward st (.chunk p (.writev [] fileOffset n)) (.account p n)
  /-- the next chunk of a `readv` -/
  | readChunk {p offset fileOffset n b : ℤ} {filled bufs : List (List Byte)} {iov : List Byte}
      {pc : MemoryPiece} {bf : MemoryBuffer} : Owns st p pc b bf →
      Onward st (.chunk p (.readv filled (iov :: bufs) offset fileOffset n))
        (.aim p (toInt (min (toSize (bf.buffer.length - fileOffset)) iov.length))
          (.readv filled iov bufs offset fileOffset n))
  /-- a `readv` has no chunk left -/
  | filled {p offset fileOffset n : ℤ} {filled : List (List Byte)} :
      Onward st (.chunk p (.readv filled [] offset fileOffset n))
        (.finish p (offset + n) ⟨n, filled⟩)
  /-- the address is computed -/
  | aim {p b toCopy : ℤ} {k : Chunk} : HasBuffer st p b →
      Onward st (.aim p toCopy k) (.move p b toCopy k)
  /-- a `memcpy` of a `readv` -/
  | moveReadv {p b toCopy offset fileOffset n : ℤ} {filled bufs : List (List Byte)}
      {iov : List Byte} {bf : MemoryBuffer} : at? st.buffers b = some bf →
      Onward st (.move p b toCopy (.readv filled iov bufs offset fileOffset n))
        (.chunk p (.readv
          (filled ++ [splice iov 0 ((bf.buffer.drop fileOffset.toNat).take toCopy.toNat)])
          bufs offset (fileOffset + toCopy) (n + toCopy)))
  /-- the `memcpy` of a `read` -/
  | moveRead {p b toCopy size offset : ℤ} {readBuf : List Byte} {bf : MemoryBuffer} :
      at? st.buffers b = some bf →
      Onward st (.move p b toCopy (.read readBuf size offset))
        (.finish p (offset + toCopy)
          ⟨size, [splice readBuf 0 ((bf.buffer.drop offset.toNat).take toCopy.toNat)]⟩)

/-- **The ranges are kept**: a copy goes on inside its piece, or its buffer. -/
theorem Onward.valid {info : TorrentInfo} {st : MemoryStorage σ} {s s' : Stage}
    (h : Onward st s s') (hw : WellFormed info st) (hv : s.Valid info) : s'.Valid info := by
  have hint := info.pieceLength_le
  cases h with
  | check _ _ => exact hv
  | @measure p size offset b available readBuf pc bf ho havail hpos =>
      obtain ⟨hs, hs'⟩ := hv.room readBuf size offset rfl
      have h0 : 0 ≤ offset := hv.offset_nonneg
      have h1 : offset ≤ info.pieceSize p := hv.offset_le
      have hle := info.pieceSize_le p hv.piece_nonneg hv.piece_lt
      have hlen := hw.buffer_length ho.buffer
      rw [available_eq h0 (by omega) (by omega)] at havail
      refine ⟨hv.piece_nonneg, hv.piece_lt, h0, ?_, ?_, ?_⟩
      · split <;> omega
      · show offset + _ ≤ info.pieceLength
        split <;> omega
      · show _ ≤ (readBuf.length : ℤ)
        split <;> omega
  | @writeChunk p fileOffset n iov bufs pc hp =>
      obtain ⟨⟨hp0, hp1⟩, h0, h1⟩ := hv
      have hle := info.pieceSize_le p hp0 hp1
      rw [← hw.piece_length hp] at h1 hle
      have hclamp := clamp_eq h0 h1 (by omega) iov.length
      refine ⟨hp0, hp1, h0, ?_, ?_, ?_⟩
      · rw [hclamp]
        omega
      · show fileOffset + _ ≤ info.pieceSize p
        rw [hclamp, ← hw.piece_length hp]
        omega
      · show _ ≤ (iov.length : ℤ)
        rw [hclamp]
        omega
  | written => exact hv.1
  | @readChunk p offset fileOffset n b filled bufs iov pc bf ho =>
      obtain ⟨⟨hp0, hp1⟩, h0, h1⟩ := hv
      have hlen := hw.buffer_length ho.buffer
      rw [← hlen] at h1
      have hclamp := clamp_eq h0 h1 (by omega) iov.length
      refine ⟨hp0, hp1, h0, ?_, ?_, ?_⟩
      · rw [hclamp]
        omega
      · show fileOffset + _ ≤ info.pieceLength
        rw [hclamp]
        omega
      · show _ ≤ (iov.length : ℤ)
        rw [hclamp]
        omega
  | filled => exact hv.1
  | aim _ => exact hv
  | @moveReadv p b toCopy offset fileOffset n filled bufs iov bf _ =>
      have h0 : 0 ≤ fileOffset := hv.position_nonneg
      have h1 : fileOffset + toCopy ≤ info.pieceLength := hv.within
      have h2 := hv.count_nonneg
      exact ⟨⟨hv.piece_nonneg, hv.piece_lt⟩, by omega, h1⟩
  | moveRead _ => exact ⟨hv.piece_nonneg, hv.piece_lt⟩

/-- A copy leads to no removal. -/
theorem Onward.ne_remove {st : MemoryStorage σ} {s s' : Stage} (h : Onward st s s') {q n b : ℤ} :
    s' ≠ .remove q n b := by
  cases h <;> simp

/-- And it does not come from the bits. -/
theorem Onward.reserve_ne {st : MemoryStorage σ} {s s' : Stage} (h : Onward st s s')
    {pieces : List ℤ} : s ≠ .reserve pieces := by
  cases h <;> simp

section Strokes

variable [DecidableEq ι]

/-- Everything a step of thread `i` at a stage does. -/
inductive Stroke (env : Env σ) (C : Crew ι σ) (i : ι) :
    Stage → Option Reply → Crew ι σ → Prop
  /-- the first look -/
  | look {p : ℤ} {job : Job} {s : Stage} : s = job.begins p ∨ s = .get p job →
      Stroke env C i (.look p job) none (C.next i C.st s)
  /-- `get_buffer` has no buffer to give -/
  | refuse {p : ℤ} {job : Job} {r : Reply} (torrent : σ) : r.ret ≤ 0 →
      Stroke env C i (.get p job) (some r) (C.done i { C.st with torrent := torrent })
  /-- `get_buffer` finds the piece buffered by now -/
  | find {p : ℤ} {job : Job} : Resident C.st p →
      Stroke env C i (.get p job) none (C.next i C.st (job.begins p))
  /-- `get_buffer` takes a free buffer -/
  | place {p offset b : ℤ} {bufs : List (List Byte)} {pc : MemoryPiece} {bf : MemoryBuffer} :
      at? C.st.pieces p = some pc → pc.bi = -1 → FirstFree C.st b bf →
      Stroke env C i (.get p (.writev bufs offset)) none
        (C.next i (C.st.place env p pc b bf (decide (C.st.Reserved p)))
          (.chunk p (.writev bufs offset 0)))
  /-- a copy goes on -/
  | onward {s s' : Stage} : Onward C.st s s' → Stroke env C i s none (C.next i C.st s')
  /-- a `memcpy` of a `writev`, whoever has the buffer by then -/
  | copy {p b toCopy fileOffset n : ℤ} {iov : List Byte} {bufs : List (List Byte)}
      {bf : MemoryBuffer} : at? C.st.buffers b = some bf →
      fileOffset.toNat + (iov.take toCopy.toNat).length ≤ bf.buffer.length →
      Stroke env C i (.move p b toCopy (.writev iov bufs fileOffset n)) none
        (C.next i (C.st.overwrite b bf (splice bf.buffer fileOffset.toNat (iov.take toCopy.toNat)))
          (.chunk p (.writev bufs (fileOffset + toCopy) (n + toCopy))))
  /-- a `read` of a piece that is not complete -/
  | incomplete {p size offset : ℤ} {readBuf : List Byte} {pc : MemoryPiece} :
      at? C.st.pieces p = some pc → pc.intSize < pc.length →
      Stroke env C i (.check p readBuf size offset) (some ⟨-1, [readBuf]⟩)
        (C.done i { C.st with torrent := restoredTorrent env C.st p })
  /-- a `read` that has nothing behind its offset -/
  | exhausted {p size offset b : ℤ} {readBuf : List Byte} {pc : MemoryPiece} {bf : MemoryBuffer} :
      Owns C.st p pc b bf → toInt (toSize (bf.buffer.length - offset)) ≤ 0 →
      Stroke env C i (.measure p readBuf size offset) (some ⟨0, [readBuf]⟩) (C.done i C.st)
  /-- a read ends -/
  | finish {p upTo b : ℤ} {r : Reply} {pc : MemoryPiece} {bf : MemoryBuffer} :
      Owns C.st p pc b bf →
      Stroke env C i (.finish p upTo r) (some r) (C.done i (C.st.touch env p pc b bf upTo))
  /-- the copied bytes are added -/
  | account {p n b : ℤ} {pc : MemoryPiece} {bf : MemoryBuffer} : Owns C.st p pc b bf →
      Stroke env C i (.account p n) none
        (C.next i (C.st.revise p { pc with size := pc.size + n } b
          { bf with accessed := some (env.clock C.st.ticks) } (C.st.ticks + 1)) (.test p n))
  /-- a test of the counters finds the pool full -/
  | full {p n : ℤ} {s s' : Stage} : C.st.isFull = true →
      s = .test p n ∧ s' = .retest p n ∨ s = .retest p n ∧ s' = .lock p n ∨
        s = .round p n ∧ (∃ checkRead, s' = .seek p n checkRead) →
      Stroke env C i s none (C.next i C.st s')
  /-- a test of the counters without the lock finds room -/
  | room {p n : ℤ} {s : Stage} : C.st.isFull = false → s = .test p n ∨ s = .retest p n →
      Stroke env C i s (some ⟨n, []⟩) (C.done i C.st)
  /-- `trim` takes its lock -/
  | lock {p n : ℤ} : Stroke env C i (.lock p n) none
      (({ C with mMutex := some i } : Crew ι σ).next i C.st (.round p n))
  /-- `trim` finds room and gives its lock back -/
  | unlock {p n : ℤ} : C.st.isFull = false →
      Stroke env C i (.round p n) (some ⟨n, []⟩)
        (({ C with mMutex := none } : Crew ι σ).done i C.st)
  /-- a search reads the clock -/
  | seek {p n : ℤ} {checkRead : Bool} :
      Stroke env C i (.seek p n checkRead) none
        (C.next i (C.st.wait 1) (.search p n checkRead (env.clock C.st.ticks)))
  /-- a search finds a piece -/
  | spot {p n v b minTime : ℤ} {checkRead : Bool} : HasBuffer C.st v b → v ≠ p →
      ¬C.st.Reserved v →
      Stroke env C i (.search p n checkRead minTime) none (C.next i C.st (.remove p n b))
  /-- a search finds none -/
  | miss {p n minTime : ℤ} {checkRead : Bool} {s : Stage} :
      s = .seek p n false ∨ s = .round p n →
      Stroke env C i (.search p n checkRead minTime) none (C.next i C.st s)
  /-- the piece is evicted -/
  | remove {p n v b : ℤ} {vc : MemoryPiece} {bf : MemoryBuffer} : Owns C.st v vc b bf → v ≠ p →
      Stroke env C i (.remove p n b) none (C.next i (C.st.evict env v vc b bf) (.round p n))
  /-- the pool is given another size -/
  | grow {s n : ℤ} : poolSize s C.st.pieceLength C.st.pieceCount = .ok n →
      Stroke env C i (.grow s) (some .none) (C.done i (C.st.grow s n))
  /-- a bit is set -/
  | reserve {q : ℤ} {pieces : List ℤ} :
      Stroke env C i (.reserve (q :: pieces)) none (C.next i { C.st with
        reservedPieces := put C.st.reservedPieces q true
        bufferReserved := C.st.bufferReserved + 1 } (.reserve pieces))
  /-- all bits are set -/
  | unreserve : Stroke env C i (.reserve []) (some .none)
      (({ C with rMutex := none } : Crew ι σ).done i C.st)

variable {env : Env σ} {info : TorrentInfo} {C C' : Crew ι σ} {i : ι} {r : Option Reply}

/-- `set_memory_size` behind its test gives the pool another size. -/
theorem resize_eq {st : MemoryStorage σ} {s n : ℤ}
    (hn : poolSize s st.pieceLength st.pieceCount = .ok n) : st.resize s = .ok (st.grow s n) := by
  rw [MemoryStorage.resize, hn, ok_bind, MemoryStorage.grow]
  simp only
  split
  · rename_i heq
    have hnil : newBuffers st.bufferSize n st.pieceLength = [] := by
      apply List.eq_nil_of_length_eq_zero
      rw [length_newBuffers]
      omega
    rw [hnil, List.append_nil]
    rfl
  · rfl

/-- The step behind the lock of `get_buffer`. -/
theorem stroke_of_get (hw : WellFormed info C.st) {p : ℤ} {job : Job}
    (hv : (Stage.get p job).Valid info) (hturn : getTurn env C i p job = .ok (r, C')) :
    Stroke env C i (.get p job) r C' := by
  obtain ⟨pc, hp⟩ := hw.exists_piece hv.piece_nonneg (hw.pieceCount_eq ▸ hv.piece_lt)
  -- what a reader does about the buffer it has, or has not
  have reads : getReadBuffer env C.st p = .ok (pc.isBuffered, C.st) := getReadBuffer_eq env hp
  have resident : pc.isBuffered = true → Resident C.st p := by
    intro hb
    exact ⟨pc, hp, by simpa [MemoryPiece.isBuffered] using hb⟩
  cases job with
  | writev bufs offset =>
      rw [getTurn] at hturn
      rcases getWriteBuffer_cases env hw.toLinked hp with
        ⟨hb, heq⟩ | ⟨hb, -, heq⟩ | ⟨hb, -, -, heq⟩ | ⟨hb, -, b, bf, hfree, heq⟩
      all_goals
        rw [heq, ok_bind] at hturn
        obtain ⟨rfl, rfl⟩ := Prod.mk.inj (Except.ok.inj hturn)
      · exact .find ⟨pc, hp, hb⟩
      · rw [restorePiece_eq]
        exact .refuse _ (by simp)
      · exact .refuse C.st.torrent (by simp)
      · exact .place hp hb hfree
  | readv bufs offset =>
      rw [getTurn, reads, ok_bind] at hturn
      cases hb : pc.isBuffered with
      | true =>
          rw [hb] at hturn
          obtain ⟨rfl, rfl⟩ := Prod.mk.inj (Except.ok.inj hturn)
          exact .find (resident hb)
      | false =>
          rw [hb] at hturn
          obtain ⟨rfl, rfl⟩ := Prod.mk.inj (Except.ok.inj hturn)
          exact .refuse C.st.torrent (by simp)
  | read readBuf size offset =>
      rw [getTurn, reads, ok_bind] at hturn
      cases hb : pc.isBuffered with
      | true =>
          rw [hb] at hturn
          obtain ⟨rfl, rfl⟩ := Prod.mk.inj (Except.ok.inj hturn)
          exact .find (resident hb)
      | false =>
          rw [hb] at hturn
          obtain ⟨rfl, rfl⟩ := Prod.mk.inj (Except.ok.inj hturn)
          rw [restorePiece_eq]
          exact .refuse _ (by simp)

/-- The test of `read`. -/
theorem stroke_of_check {p size offset : ℤ} {readBuf : List Byte}
    (hturn : turn env C i (.check p readBuf size offset) = .ok (r, C')) :
    Stroke env C i (.check p readBuf size offset) r C' := by
  obtain ⟨pc, hp, hret⟩ := bind_eq_ok_iff.mp hturn
  split at hret
  · rename_i hinc
    obtain ⟨rfl, rfl⟩ := Prod.mk.inj (Except.ok.inj hret)
    rw [restorePiece_eq]
    exact .incomplete (at?_of_subscript hp) hinc
  · rename_i hcomplete
    obtain ⟨rfl, rfl⟩ := Prod.mk.inj (Except.ok.inj hret)
    exact .onward (.check (at?_of_subscript hp) (not_lt.mp hcomplete))

/-- What is behind the offset of a `read`; it faults unless the piece has a buffer. -/
theorem stroke_of_measure (hw : WellFormed info C.st) {p size offset : ℤ} {readBuf : List Byte}
    (hturn : turn env C i (.measure p readBuf size offset) = .ok (r, C')) :
    Stroke env C i (.measure p readBuf size offset) r C' := by
  obtain ⟨pc, hp, hrest⟩ := bind_eq_ok_iff.mp hturn
  obtain ⟨bf, hb, hret⟩ := bind_eq_ok_iff.mp hrest
  simp only at hret
  split at hret
  · rename_i hnone
    obtain ⟨rfl, rfl⟩ := Prod.mk.inj (Except.ok.inj hret)
    exact .exhausted (owns_of_subscripts hw.toLinked hp hb) hnone
  · rename_i hsome
    obtain ⟨rfl, rfl⟩ := Prod.mk.inj (Except.ok.inj hret)
    exact .onward (.measure (owns_of_subscripts hw.toLinked hp hb) rfl (not_le.mp hsome))

/-- The step between two rounds of a copy loop. -/
theorem stroke_of_chunk (hw : WellFormed info C.st) {p : ℤ} {c : Copying}
    (hturn : chunkTurn C i p c = .ok (r, C')) : Stroke env C i (.chunk p c) r C' := by
  cases c with
  | writev bufs fileOffset n =>
      cases bufs with
      | nil =>
          obtain ⟨rfl, rfl⟩ := Prod.mk.inj (Except.ok.inj hturn)
          exact .onward .written
      | cons iov bufs =>
          obtain ⟨pc, hp, hret⟩ := bind_eq_ok_iff.mp hturn
          obtain ⟨rfl, rfl⟩ := Prod.mk.inj (Except.ok.inj hret)
          exact .onward (.writeChunk (at?_of_subscript hp))
  | readv filled bufs offset fileOffset n =>
      cases bufs with
      | nil =>
          obtain ⟨rfl, rfl⟩ := Prod.mk.inj (Except.ok.inj hturn)
          exact .onward .filled
      | cons iov bufs =>
          obtain ⟨pc, hp, hrest⟩ := bind_eq_ok_iff.mp hturn
          obtain ⟨bf, hb, hret⟩ := bind_eq_ok_iff.mp hrest
          obtain ⟨rfl, rfl⟩ := Prod.mk.inj (Except.ok.inj hret)
          exact .onward (.readChunk (owns_of_subscripts hw.toLinked hp hb))

/-- A `memcpy` that succeeds splices. -/
theorem eq_splice_of_memcpy {dst src bytes : List Byte} {dstOff srcOff n : ℤ}
    (h : memcpy dst dstOff src srcOff n = .ok bytes) :
    dstOff.toNat + n.toNat ≤ dst.length ∧ n ≤ src.length ∧
      bytes = splice dst dstOff.toNat ((src.drop srcOff.toNat).take n.toNat) := by
  rw [memcpy] at h
  split at h
  · rename_i hrange
    obtain ⟨h0, h1, h2, h3, h4⟩ := hrange
    exact ⟨by omega, by omega, (Except.ok.inj h).symm⟩
  · exact absurd h (by simp)

/-- The step that calls `memcpy`. -/
theorem stroke_of_move {p b toCopy : ℤ} {k : Chunk}
    (hturn : moveTurn C i p b toCopy k = .ok (r, C')) :
    Stroke env C i (.move p b toCopy k) r C' := by
  cases k with
  | writev iov bufs fileOffset n =>
      obtain ⟨bf, hb, hrest⟩ := bind_eq_ok_iff.mp hturn
      obtain ⟨bytes, hbytes, hret⟩ := bind_eq_ok_iff.mp hrest
      obtain ⟨rfl, rfl⟩ := Prod.mk.inj (Except.ok.inj hret)
      obtain ⟨hfit, hall, rfl⟩ := eq_splice_of_memcpy hbytes
      rw [Int.toNat_zero, List.drop_zero]
      refine .copy (at?_of_subscript hb) ?_
      rw [List.length_take]
      omega
  | readv filled iov bufs offset fileOffset n =>
      obtain ⟨bf, hb, hrest⟩ := bind_eq_ok_iff.mp hturn
      obtain ⟨bytes, hbytes, hret⟩ := bind_eq_ok_iff.mp hrest
      obtain ⟨rfl, rfl⟩ := Prod.mk.inj (Except.ok.inj hret)
      obtain ⟨-, -, rfl⟩ := eq_splice_of_memcpy hbytes
      exact .onward (.moveReadv (at?_of_subscript hb))
  | read readBuf size offset =>
      obtain ⟨bf, hb, hrest⟩ := bind_eq_ok_iff.mp hturn
      obtain ⟨bytes, hbytes, hret⟩ := bind_eq_ok_iff.mp hrest
      obtain ⟨rfl, rfl⟩ := Prod.mk.inj (Except.ok.inj hret)
      obtain ⟨-, -, rfl⟩ := eq_splice_of_memcpy hbytes
      exact .onward (.moveRead (at?_of_subscript hb))

/-- The step of a read that ends, which faults unless its piece has a buffer. -/
theorem stroke_of_finish (hw : WellFormed info C.st) {p upTo : ℤ} {reply : Reply}
    (hturn : turn env C i (.finish p upTo reply) = .ok (r, C')) :
    Stroke env C i (.finish p upTo reply) r C' := by
  obtain ⟨st, hfinish, hret⟩ := bind_eq_ok_iff.mp hturn
  obtain ⟨rfl, rfl⟩ := Prod.mk.inj (Except.ok.inj hret)
  obtain ⟨pc, hp, hrest⟩ := bind_eq_ok_iff.mp hfinish
  obtain ⟨bf, hb, -⟩ := bind_eq_ok_iff.mp hrest
  have ho := owns_of_subscripts hw.toLinked hp hb
  rw [finishRead_eq env ho] at hfinish
  obtain rfl := Except.ok.inj hfinish
  exact .finish ho

/-- The step of a thread that accounts for its bytes. -/
theorem stroke_of_account (hw : WellFormed info C.st) {p n : ℤ}
    (hturn : turn env C i (.account p n) = .ok (r, C')) :
    Stroke env C i (.account p n) r C' := by
  obtain ⟨st, hacc, hret⟩ := bind_eq_ok_iff.mp hturn
  obtain ⟨rfl, rfl⟩ := Prod.mk.inj (Except.ok.inj hret)
  obtain ⟨pc, hpc, hacc⟩ := bind_eq_ok_iff.mp hacc
  obtain ⟨bf, hbf, hacc⟩ := bind_eq_ok_iff.mp hacc
  obtain rfl := Except.ok.inj hacc
  exact .account (owns_of_subscripts hw.toLinked hpc hbf)

/-- The loop of `find_last_buffer` finds nothing, or a candidate, whatever time it goes by. -/
theorem findLastLoop_cases (env : Env σ) {st : MemoryStorage σ} (h : Linked st) (p : ℤ)
    (checkRead : Bool) (minTime : ℤ) :
    findLastLoop env st p checkRead st.buffers (-1) minTime = .ok (-1) ∨
    ∃ b bf, findLastLoop env st p checkRead st.buffers (-1) minTime = .ok b ∧
      at? st.buffers b = some bf ∧ st.Candidate env p checkRead bf := by
  have hstart : (-1 : ℤ) = ((none : Option MemoryBuffer).map (·.index)).getD (-1) := rfl
  rw [findLastLoop_eq env (searchable h) p checkRead (fun _ hb => hb) none minTime hstart]
  cases hs : EarliestScan.scan (st.age env p checkRead) st.buffers none minTime with
  | none => exact Or.inl rfl
  | some bf =>
      obtain ⟨b, hold⟩ := oldest_of_scan hs
      refine Or.inr ⟨b, bf, ?_, hold.buffer, hold.candidate⟩
      rw [Option.map_some, Option.getD_some, h.buffer_index hold.buffer]

/-- The step of a thread that searches. -/
theorem stroke_of_search (hw : WellFormed info C.st) {p n minTime : ℤ} {checkRead : Bool}
    (hturn : turn env C i (.search p n checkRead minTime) = .ok (r, C')) :
    Stroke env C i (.search p n checkRead minTime) r C' := by
  rw [turn] at hturn
  rcases findLastLoop_cases env hw.toLinked p checkRead minTime with
    hloop | ⟨b, bf, hloop, hb, hused, hfree, hne, -⟩
  · rw [hloop] at hturn
    obtain ⟨rfl, rfl⟩ := Prod.mk.inj (Except.ok.inj hturn)
    refine .miss ?_
    cases checkRead with
    | true => exact Or.inl rfl
    | false => exact Or.inr rfl
  · have hbounds := (hw.buffer_bounds hb).1
    rw [hloop] at hturn
    obtain ⟨rfl, rfl⟩ := Prod.mk.inj (Except.ok.inj hturn)
    rw [if_pos (by omega)]
    obtain ⟨pc, ho⟩ := hw.owns_of_buffer hb hused
    exact .spot ⟨pc, bf, ho⟩ hne hfree

/-- **A step does nothing but what is listed.** -/
theorem stroke_of_turn (hw : WellFormed info C.st) {s : Stage} (hv : s.Valid info)
    (hfound : ∀ p n b, s = .remove p n b → ∃ v, v ≠ p ∧ HasBuffer C.st v b)
    (hturn : turn env C i s = .ok (r, C')) : Stroke env C i s r C' := by
  cases s with
  | look p job =>
      obtain ⟨pc, -, hret⟩ := bind_eq_ok_iff.mp hturn
      obtain ⟨rfl, rfl⟩ := Prod.mk.inj (Except.ok.inj hret)
      refine .look ?_
      split
      · exact Or.inl rfl
      · exact Or.inr rfl
  | get p job => exact stroke_of_get hw hv hturn
  | check p readBuf size offset => exact stroke_of_check hturn
  | measure p readBuf size offset => exact stroke_of_measure hw hturn
  | chunk p c => exact stroke_of_chunk hw hturn
  | aim p toCopy k =>
      obtain ⟨pc, hp, hrest⟩ := bind_eq_ok_iff.mp hturn
      obtain ⟨bf, hb, hret⟩ := bind_eq_ok_iff.mp hrest
      obtain ⟨rfl, rfl⟩ := Prod.mk.inj (Except.ok.inj hret)
      exact .onward (.aim ⟨pc, bf, owns_of_subscripts hw.toLinked hp hb⟩)
  | move p b toCopy k => exact stroke_of_move hturn
  | finish p upTo reply => exact stroke_of_finish hw hturn
  | account p n => exact stroke_of_account hw hturn
  | test p n =>
      rw [turn] at hturn
      split at hturn
      · rename_i hfull
        obtain ⟨rfl, rfl⟩ := Prod.mk.inj (Except.ok.inj hturn)
        exact .full hfull (Or.inl ⟨rfl, rfl⟩)
      · rename_i hroom
        obtain ⟨rfl, rfl⟩ := Prod.mk.inj (Except.ok.inj hturn)
        exact .room (Bool.eq_false_iff.mpr hroom) (Or.inl rfl)
  | retest p n =>
      have hcap : ¬C.st.capacity < 0 := not_lt.mpr hw.capacity_nonneg
      rw [turn] at hturn
      split at hturn
      · rename_i hroom
        obtain ⟨rfl, rfl⟩ := Prod.mk.inj (Except.ok.inj hturn)
        exact .room (by simpa [hcap] using hroom) (Or.inr rfl)
      · rename_i hfull
        obtain ⟨rfl, rfl⟩ := Prod.mk.inj (Except.ok.inj hturn)
        exact .full (by simpa [hcap] using hfull) (Or.inr (Or.inl ⟨rfl, rfl⟩))
  | lock p n =>
      obtain ⟨rfl, rfl⟩ := Prod.mk.inj (Except.ok.inj hturn)
      exact .lock
  | round p n =>
      rw [turn] at hturn
      split at hturn
      · rename_i hfull
        obtain ⟨rfl, rfl⟩ := Prod.mk.inj (Except.ok.inj hturn)
        exact .full hfull (Or.inr (Or.inr ⟨rfl, _, rfl⟩))
      · rename_i hroom
        obtain ⟨rfl, rfl⟩ := Prod.mk.inj (Except.ok.inj hturn)
        exact .unlock (Bool.eq_false_iff.mpr hroom)
  | seek p n checkRead =>
      obtain ⟨rfl, rfl⟩ := Prod.mk.inj (Except.ok.inj hturn)
      exact .seek
  | search p n checkRead minTime => exact stroke_of_search hw hturn
  | remove p n b =>
      obtain ⟨v, hne, vc, bf, ho⟩ := hfound p n b rfl
      rw [turn, removePiece_eq env hw.toLinked ho] at hturn
      obtain ⟨rfl, rfl⟩ := Prod.mk.inj (Except.ok.inj hturn)
      exact .remove ho hne
  | grow s =>
      obtain ⟨st, hresize, hret⟩ := bind_eq_ok_iff.mp hturn
      obtain ⟨rfl, rfl⟩ := Prod.mk.inj (Except.ok.inj hret)
      obtain ⟨n, hn, -⟩ := bind_eq_ok_iff.mp hresize
      rw [resize_eq hn] at hresize
      obtain rfl := Except.ok.inj hresize
      exact .grow hn
  | reserve pieces =>
      cases pieces with
      | nil =>
          obtain ⟨rfl, rfl⟩ := Prod.mk.inj (Except.ok.inj hturn)
          exact .unreserve
      | cons q pieces =>
          obtain ⟨st, hreserve, hret⟩ := bind_eq_ok_iff.mp hturn
          obtain ⟨rfl, rfl⟩ := Prod.mk.inj (Except.ok.inj hret)
          obtain ⟨-, -, hst⟩ := bind_eq_ok_iff.mp hreserve
          obtain rfl := Except.ok.inj hst
          exact .reserve

/-- Who replies has returned. -/
theorem Stroke.stage_of_reply {s : Stage} {v : Reply} (hst : Stroke env C i s (some v) C') :
    C'.stage i = none := by
  cases hst <;> exact Function.update_self ..

/-- A pool never has fewer buffers than it had. -/
theorem Stroke.length_le {s : Stage} (hst : Stroke env C i s r C') :
    C.st.buffers.length ≤ C'.st.buffers.length := by
  cases hst with
  | place _ _ _ => exact (length_put _ _ _).ge
  | copy _ _ => exact (length_put _ _ _).ge
  | finish _ => exact (length_put _ _ _).ge
  | account _ => exact (length_put _ _ _).ge
  | remove _ _ => exact (length_put _ _ _).ge
  | @grow m n _ =>
      show C.st.buffers.length ≤ (C.st.buffers ++ _).length
      rw [List.length_append]
      exact Nat.le_add_right _ _
  | _ => exact le_rfl

/-- **A step of a thread leaves a piece its buffer**, unless it removes the piece from it. -/
theorem HasBuffer.stroke {p b : ℤ} (h : HasBuffer C.st p b) (hl : Linked C.st) {s : Stage}
    (hst : Stroke env C i s r C') :
    HasBuffer C'.st p b ∨ ∃ q n, s = .remove q n b ∧ ¬Resident C'.st p := by
  cases hst with
  | place hq hqb hfree =>
      exact Or.inl (hasBuffer_place hq hqb hfree.buffer hfree.free _ h hl)
  | copy hb _ => exact Or.inl ((hasBuffer_overwrite hb _ p b).mpr h)
  | finish ho => exact Or.inl ((hasBuffer_touch ho _ p b).mpr h)
  | @account q n c qc cf ho =>
      exact Or.inl ((hasBuffer_revise ho { qc with size := qc.size + n }
        { cf with accessed := some (env.clock C.st.ticks) } rfl ⟨rfl, rfl⟩ _ p b).mpr h)
  | @remove q n v c vc cf ho _ =>
      by_cases hpv : p = v
      · right
        subst hpv
        obtain rfl := HasBuffer.buffer_eq ⟨vc, cf, ho⟩ h
        exact ⟨q, n, rfl, fun hres => ((resident_evict hl ho p).mp hres).2 rfl⟩
      · exact Or.inl (hasBuffer_evict ho h hpv)
  | grow _ => exact Or.inl (hasBuffer_grow h _ _)
  | _ => exact Or.inl (h.frame rfl rfl)

/-- An address is that of the buffer its piece had when it was computed. -/
theorem Stroke.aims {s : Stage} (hst : Stroke env C i s r C') {p b toCopy : ℤ} {k : Chunk}
    (hs : C'.stage i = some (.move p b toCopy k)) : C'.st = C.st ∧ HasBuffer C.st p b := by
  cases hst with
  | @look q job s' hnext =>
      rcases hnext with rfl | rfl
      · cases job <;> simp [Crew.next, Job.begins] at hs
      · simp [Crew.next] at hs
  | @find q job _ => cases job <;> simp [Crew.next, Job.begins] at hs
  | onward hon =>
      simp only [Crew.next, Function.update_self, Option.some.injEq] at hs
      subst hs
      cases hon with
      | aim hb => exact ⟨rfl, hb⟩
  | full _ hnext =>
      rcases hnext with ⟨-, rfl⟩ | ⟨-, rfl⟩ | ⟨-, _, rfl⟩ <;> simp [Crew.next] at hs
  | miss hnext => rcases hnext with rfl | rfl <;> simp [Crew.next] at hs
  | _ => simp [Crew.next, Crew.done] at hs

/-! ## Entrances -/

/-- Two states that differ neither in the records nor in the counters nor in what is
reserved. -/
structure SameBooks (st st' : MemoryStorage σ) : Prop where
  pieces : st'.pieces = st.pieces
  buffers : st'.buffers = st.buffers
  used : st'.bufferUsed = st.bufferUsed
  limit : st'.bufferLimit = st.bufferLimit
  size : st'.bufferSize = st.bufferSize
  reserved : st'.reservedPieces = st.reservedPieces

/-- Everything the first step of a call of thread `i` does. -/
inductive Entrance (info : TorrentInfo) (C : Crew ι σ) (i : ι) :
    Task σ → Option Reply → Crew ι σ → Prop
  /-- a transfer begins -/
  | begin {p : ℤ} {job : Job} (isReading : Bool) : job.Fits info p →
      Entrance info C i (.transfer p job) none
        (C.next i { C.st with isReading := isReading } (.look p job))
  /-- `set_memory_size` is asked for more -/
  | grow {s : ℤ} : 0 ≤ s → Entrance info C i (.setMemorySize s) none (C.next i C.st (.grow s))
  /-- `update_reserved_pieces` takes its lock, and clears the bits -/
  | reserve {pieces : List ℤ} : (∀ q ∈ pieces, 0 ≤ q ∧ q < info.numPieces) →
      Entrance info C i (.updateReservedPieces pieces) none
        (({ C with rMutex := some i } : Crew ι σ).next i C.st.clearReserved (.reserve pieces))
  /-- a call that is done with its first step -/
  | stay {task : Task σ} {r : Reply} {st : MemoryStorage σ} : WellFormed info st →
      SameBooks C.st st → Entrance info C i task (some r) { C with st := st }

/-- A valid transfer fits its piece. -/
theorem WellFormed.job_fits {st : MemoryStorage σ} (h : WellFormed info st) {p : ℤ} {job : Job}
    (hv : (job.call p : Call σ).Valid st) : job.Fits info p := by
  have fits : ∀ {offset : ℤ}, ValidRange st p offset → job.offset = offset →
      (∀ readBuf size o, job = .read readBuf size o → 0 ≤ size ∧ size ≤ readBuf.length) →
      job.Fits info p := by
    rintro offset hrange rfl hroom
    obtain ⟨h0, h1, h2, h3⟩ := (validRange_iff h p _).mp hrange
    exact ⟨h0, h1, h2, h3, hroom⟩
  cases job with
  | writev bufs offset => exact fits hv rfl (by simp)
  | readv bufs offset => exact fits hv rfl (by simp)
  | read readBuf size offset =>
      refine fits hv.1 rfl ?_
      rintro readBuf' size' o ⟨⟩
      exact hv.2

/-- **The first step of a valid call does nothing but what is listed.** -/
theorem entrance_of_enter (hw : WellFormed info C.st) {task : Task σ}
    (hv : task.call.Valid C.st) (henter : enterTurn C i task = .ok (r, C')) :
    Entrance info C i task r C' := by
  have hinit : ¬(!C.st.isInitialized) = true := by simp [hw.initialized]
  cases task with
  | transfer p job =>
      have hfits := hw.job_fits hv
      cases job with
      | writev bufs offset =>
          rw [enterTurn, if_neg hinit] at henter
          obtain ⟨rfl, rfl⟩ := Prod.mk.inj (Except.ok.inj henter)
          exact .begin C.st.isReading hfits
      | readv bufs offset =>
          rw [enterTurn, if_neg hinit] at henter
          obtain ⟨rfl, rfl⟩ := Prod.mk.inj (Except.ok.inj henter)
          exact .begin C.st.isReading hfits
      | read readBuf size offset =>
          rw [enterTurn, if_neg hinit] at henter
          obtain ⟨rfl, rfl⟩ := Prod.mk.inj (Except.ok.inj henter)
          exact .begin true hfits
  | setMemorySize s =>
      rw [enterTurn] at henter
      split at henter
      · obtain ⟨rfl, rfl⟩ := Prod.mk.inj (Except.ok.inj henter)
        exact .stay hw ⟨rfl, rfl, rfl, rfl, rfl, rfl⟩
      · rename_i hlt
        have hcap := hw.capacity_nonneg
        obtain ⟨rfl, rfl⟩ := Prod.mk.inj (Except.ok.inj henter)
        exact .grow (by omega)
  | updateReservedPieces pieces =>
      rw [enterTurn, if_neg hinit] at henter
      obtain ⟨rfl, rfl⟩ := Prod.mk.inj (Except.ok.inj henter)
      refine .reserve ?_
      rw [← hw.pieceCount_eq]
      exact hv
  | updateReaderPieces pieces =>
      obtain ⟨st, hst, hret⟩ := bind_eq_ok_iff.mp henter
      obtain ⟨rfl, rfl⟩ := Prod.mk.inj (Except.ok.inj hret)
      obtain ⟨bits, hbits, hlen, -⟩ := readerBits hw hv
      rw [MemoryStorage.updateReaderPieces, if_neg hinit, hbits] at hst
      obtain rfl := Except.ok.inj hst
      exact .stay (hw.withBits hlen rfl C.st.bufferReserved) ⟨rfl, rfl, rfl, rfl, rfl, rfl⟩
  | setTorrentHandle t =>
      obtain ⟨rfl, rfl⟩ := Prod.mk.inj (Except.ok.inj henter)
      exact .stay (hw.withTorrent C.st.torrent true _ C.st.isReading)
        ⟨rfl, rfl, rfl, rfl, rfl, rfl⟩
  | outside torrent =>
      obtain ⟨rfl, rfl⟩ := Prod.mk.inj (Except.ok.inj henter)
      exact .stay (hw.withTorrent torrent C.st.mHandle C.st.t C.st.isReading)
        ⟨rfl, rfl, rfl, rfl, rfl, rfl⟩

/-- The stage a call begins with, unless it returns at once. -/
def Task.begins : Task σ → Option Stage
  | .transfer p job => some (.look p job)
  | .setMemorySize s => some (.grow s)
  | .updateReservedPieces pieces => some (.reserve pieces)
  | _ => none

/-- What the first step of a call leaves, in any state. -/
structure Entered (C : Crew ι σ) (i : ι) (task : Task σ) (C' : Crew ι σ) : Prop where
  pieces : C'.st.pieces = C.st.pieces
  buffers : C'.st.buffers = C.st.buffers
  ticks : C'.st.ticks = C.st.ticks
  torrent : (∀ torrent, task ≠ .outside torrent) → C'.st.torrent = C.st.torrent
  mHandle : C.st.mHandle = true → C'.st.mHandle = true
  isReading : C.st.isReading = true → C'.st.isReading = true
  stage : C'.stage = C.stage ∨ C'.stage = Function.update C.stage i task.begins ∧
    ∀ p readBuf size offset, task = .transfer p (.read readBuf size offset) →
      C'.st.isReading = true

/-- **The first step of a call** leaves the pieces, the buffers and the clock. -/
theorem entered_of_enter {task : Task σ} (henter : enterTurn C i task = .ok (r, C')) :
    Entered C i task C' := by
  cases task with
  | transfer p job =>
      cases job
      all_goals
        rw [enterTurn] at henter
        split at henter
        · obtain ⟨-, rfl⟩ := Prod.mk.inj (Except.ok.inj henter)
          exact ⟨rfl, rfl, rfl, fun _ => rfl, id, id, Or.inl rfl⟩
        · obtain ⟨-, rfl⟩ := Prod.mk.inj (Except.ok.inj henter)
          refine ⟨rfl, rfl, rfl, fun _ => rfl, id, by simp [Crew.next], Or.inr ⟨rfl, ?_⟩⟩
          simp [Crew.next]
  | setMemorySize s =>
      rw [enterTurn] at henter
      split at henter
      · obtain ⟨-, rfl⟩ := Prod.mk.inj (Except.ok.inj henter)
        exact ⟨rfl, rfl, rfl, fun _ => rfl, id, id, Or.inl rfl⟩
      · obtain ⟨-, rfl⟩ := Prod.mk.inj (Except.ok.inj henter)
        exact ⟨rfl, rfl, rfl, fun _ => rfl, id, id, Or.inr ⟨rfl, by simp⟩⟩
  | updateReservedPieces pieces =>
      rw [enterTurn] at henter
      split at henter
      · obtain ⟨-, rfl⟩ := Prod.mk.inj (Except.ok.inj henter)
        exact ⟨rfl, rfl, rfl, fun _ => rfl, id, id, Or.inl rfl⟩
      · obtain ⟨-, rfl⟩ := Prod.mk.inj (Except.ok.inj henter)
        exact ⟨rfl, rfl, rfl, fun _ => rfl, id, id, Or.inr ⟨rfl, by simp⟩⟩
  | updateReaderPieces pieces =>
      obtain ⟨st, hst, hret⟩ := bind_eq_ok_iff.mp henter
      obtain ⟨-, rfl⟩ := Prod.mk.inj (Except.ok.inj hret)
      rw [MemoryStorage.updateReaderPieces] at hst
      split at hst
      · obtain rfl := Except.ok.inj hst
        exact ⟨rfl, rfl, rfl, fun _ => rfl, id, id, Or.inl rfl⟩
      · obtain ⟨bits, -, hst⟩ := bind_eq_ok_iff.mp hst
        obtain rfl := Except.ok.inj hst
        exact ⟨rfl, rfl, rfl, fun _ => rfl, id, id, Or.inl rfl⟩
  | setTorrentHandle t =>
      obtain ⟨-, rfl⟩ := Prod.mk.inj (Except.ok.inj henter)
      exact ⟨rfl, rfl, rfl, fun _ => rfl, fun _ => rfl, id, Or.inl rfl⟩
  | outside torrent =>
      obtain ⟨-, rfl⟩ := Prod.mk.inj (Except.ok.inj henter)
      exact ⟨rfl, rfl, rfl, fun hnot => absurd rfl (hnot torrent), id, id, Or.inl rfl⟩

end Strokes

end Libtorrent
