/-
# The link between pieces and buffers

A resident piece and its buffer point at each other: `pieces[p].bi` is the buffer's
index and `buffers[b].pi` the piece's, next to a separate flag `is_used`.  `Linked`
states that the two sides agree and that what is not linked names nobody; `Blank` adds
that the buffers that are not in use hold no bytes.

The second half names the four ways a call changes linked state: a piece is placed
in a free buffer (`place`), bytes are stored for it (`store`), its buffer is touched
(`touch`), the piece is evicted (`evict`); each keeps `Linked` and `Blank`.
-/
import LibtorrentGo.Storage

open Splice Subscript

namespace Libtorrent

variable {σ : Type}

/-! ## The relation -/

/-- Pieces and buffers are linked by a partial bijection, and what is not linked names nobody. -/
structure Linked (st : MemoryStorage σ) : Prop where
  initialized : st.isInitialized = true
  pieces_length : (st.pieces.length : ℤ) = st.pieceCount
  buffers_length : (st.buffers.length : ℤ) = st.bufferSize
  readers_length : (st.readerPieces.length : ℤ) = st.pieceCount + 10
  reserved_length : (st.reservedPieces.length : ℤ) = st.pieceCount + 10
  piece_index : ∀ {p pc}, at? st.pieces p = some pc → pc.index = p
  buffer_index : ∀ {b bf}, at? st.buffers b = some bf → bf.index = b
  piece_link : ∀ {p pc}, at? st.pieces p = some pc → pc.bi ≠ -1 →
    ∃ bf, at? st.buffers pc.bi = some bf ∧ bf.isUsed = true ∧ bf.pi = p
  buffer_link : ∀ {b bf}, at? st.buffers b = some bf → bf.isUsed = true →
    ∃ pc, at? st.pieces bf.pi = some pc ∧ pc.bi = b
  buffer_unnamed : ∀ {b bf}, at? st.buffers b = some bf → bf.isUsed = false → bf.pi = -1
  piece_blank : ∀ {p pc}, at? st.pieces p = some pc → pc.bi = -1 → pc.size = 0

/-- Piece `p`, with record `pc`, owns buffer `b`, with record `bf`. -/
structure Owns (st : MemoryStorage σ) (p : ℤ) (pc : MemoryPiece) (b : ℤ) (bf : MemoryBuffer) :
    Prop where
  piece : at? st.pieces p = some pc
  bi : pc.bi = b
  buffer : at? st.buffers b = some bf
  used : bf.isUsed = true
  pi : bf.pi = p

/-- The records of a piece and a buffer that concern each other only: they are linked,
or name nobody. -/
def Paired (p : ℤ) (pc : MemoryPiece) (b : ℤ) (bf : MemoryBuffer) : Prop :=
  (pc.bi = b ∧ bf.isUsed = true ∧ bf.pi = p) ∨
  (pc.bi = -1 ∧ pc.size = 0 ∧ bf.isUsed = false ∧ bf.pi = -1)

/-- A piece owns a buffer. -/
def Resident (st : MemoryStorage σ) (p : ℤ) : Prop := ∃ pc, at? st.pieces p = some pc ∧ pc.bi ≠ -1

instance (st : MemoryStorage σ) (p : ℤ) : Decidable (Resident st p) :=
  match h : at? st.pieces p with
  | none => isFalse fun ⟨pc, hpc, _⟩ => by simp [h] at hpc
  | some pc =>
      if hb : pc.bi = -1 then isFalse fun ⟨pc', hpc', hb'⟩ => by simp_all
      else isTrue ⟨pc, h, hb⟩

namespace Linked

variable {st : MemoryStorage σ}

/-- A valid piece number has a record. -/
theorem exists_piece (h : Linked st) {p : ℤ} (h0 : 0 ≤ p) (h1 : p < st.pieceCount) :
    ∃ pc, at? st.pieces p = some pc :=
  exists_at?_eq_some h0 (by rw [h.pieces_length]; exact h1)

/-- A piece with a record has a valid number. -/
theorem piece_bounds (h : Linked st) {p : ℤ} {pc : MemoryPiece} (hp : at? st.pieces p = some pc) :
    0 ≤ p ∧ p < st.pieceCount := by
  have hb := at?_eq_some_bounds hp
  rw [h.pieces_length] at hb
  exact hb

/-- A buffer with a record has a valid number. -/
theorem buffer_bounds (h : Linked st) {b : ℤ} {bf : MemoryBuffer}
    (hb : at? st.buffers b = some bf) : 0 ≤ b ∧ b < st.bufferSize := by
  have hb' := at?_eq_some_bounds hb
  rw [h.buffers_length] at hb'
  exact hb'

/-- A buffered piece owns the buffer it names. -/
theorem owns_of_piece (h : Linked st) {p : ℤ} {pc : MemoryPiece} (hp : at? st.pieces p = some pc)
    (hb : pc.bi ≠ -1) : ∃ bf, Owns st p pc pc.bi bf := by
  obtain ⟨bf, hbf, hused, hpi⟩ := h.piece_link hp hb
  exact ⟨bf, hp, rfl, hbf, hused, hpi⟩

/-- A used buffer is owned by the piece it names. -/
theorem owns_of_buffer (h : Linked st) {b : ℤ} {bf : MemoryBuffer}
    (hb : at? st.buffers b = some bf) (hused : bf.isUsed = true) :
    ∃ pc, Owns st bf.pi pc b bf := by
  obtain ⟨pc, hpc, hbi⟩ := h.buffer_link hb hused
  exact ⟨pc, hpc, hbi, hb, hused, rfl⟩

/-- The buffer of an owner is not -1. -/
theorem bi_ne (h : Linked st) {p b : ℤ} {pc : MemoryPiece} {bf : MemoryBuffer}
    (ho : Owns st p pc b bf) : b ≠ -1 := by
  have := h.buffer_bounds ho.buffer
  omega

/-- No two buffers belong to one piece. -/
theorem buffer_unique (h : Linked st) {b b' : ℤ} {bf bf' : MemoryBuffer}
    (hb : at? st.buffers b = some bf) (hb' : at? st.buffers b' = some bf')
    (hu : bf.isUsed = true) (hu' : bf'.isUsed = true) (hpi : bf.pi = bf'.pi) : b = b' := by
  obtain ⟨pc, hpc, hbi⟩ := h.buffer_link hb hu
  obtain ⟨pc', hpc', hbi'⟩ := h.buffer_link hb' hu'
  rw [hpi, hpc'] at hpc
  obtain rfl := Option.some.inj hpc
  rw [← hbi, ← hbi']

/-- The reservation bit of a valid piece can be read. -/
theorem exists_reserved (h : Linked st) {p : ℤ} (h0 : 0 ≤ p) (h1 : p < st.pieceCount) :
    ∃ r, at? st.reservedPieces p = some r :=
  exists_at?_eq_some h0 (by rw [h.reserved_length]; omega)

end Linked

/-- The record of an owner is the one it has. -/
theorem Owns.piece_eq {st : MemoryStorage σ} {p b : ℤ} {pc pc' : MemoryPiece} {bf : MemoryBuffer}
    (ho : Owns st p pc b bf) (hp : at? st.pieces p = some pc') : pc' = pc :=
  Option.some.inj (hp.symm.trans ho.piece)

/-- So is the record of its buffer. -/
theorem Owns.buffer_eq {st : MemoryStorage σ} {p b : ℤ} {pc : MemoryPiece} {bf bf' : MemoryBuffer}
    (ho : Owns st p pc b bf) (hb : at? st.buffers b = some bf') : bf' = bf :=
  Option.some.inj (hb.symm.trans ho.buffer)

/-- A piece owns one buffer. -/
theorem Owns.unique {st : MemoryStorage σ} {p b c : ℤ} {pc pc' : MemoryPiece}
    {bf cf : MemoryBuffer} (ho : Owns st p pc b bf) (ho' : Owns st p pc' c cf) :
    pc = pc' ∧ b = c ∧ bf = cf := by
  have hpc : pc = pc' := ho'.piece_eq ho.piece
  have hbc : b = c := by rw [← ho.bi, ← ho'.bi, hpc]
  refine ⟨hpc, hbc, ?_⟩
  apply ho'.buffer_eq
  rw [← hbc]
  exact ho.buffer

/-- An owner is resident. -/
theorem Owns.resident {st : MemoryStorage σ} {p b : ℤ} {pc : MemoryPiece} {bf : MemoryBuffer}
    (ho : Owns st p pc b bf) (h : Linked st) : Resident st p := by
  refine ⟨pc, ho.piece, ?_⟩
  rw [ho.bi]
  exact h.bi_ne ho

/-- What is neither a piece nor a buffer does not matter. -/
theorem Owns.frame {st st' : MemoryStorage σ} {p b : ℤ} {pc : MemoryPiece} {bf : MemoryBuffer}
    (ho : Owns st p pc b bf) (hp : st'.pieces = st.pieces) (hb : st'.buffers = st.buffers) :
    Owns st' p pc b bf where
  piece := by
    rw [hp]
    exact ho.piece
  bi := ho.bi
  buffer := by
    rw [hb]
    exact ho.buffer
  used := ho.used
  pi := ho.pi

/-! ## What calls do to linked state -/

namespace MemoryStorage

/-- The state of the torrent after `restore_piece`. -/
def restoredTorrent (env : Env σ) (st : MemoryStorage σ) (pi : ℤ) : σ :=
  if !st.mHandle || !st.t then st.torrent
  else env.weDontHave (env.setPiecePriority (env.resetPieceDeadline st.torrent pi) pi 0) pi

/-- `restore_piece` touches nothing but the torrent. -/
theorem restorePiece_eq (env : Env σ) (st : MemoryStorage σ) (pi : ℤ) :
    restorePiece env st pi = { st with torrent := restoredTorrent env st pi } := by
  unfold restorePiece restoredTorrent
  split <;> rfl

/-- Piece `p` is given the free buffer `b`. -/
def place (env : Env σ) (st : MemoryStorage σ) (p : ℤ) (pc : MemoryPiece) (b : ℤ)
    (bf : MemoryBuffer) (reserved : Bool) : MemoryStorage σ :=
  { st with
    buffers := put st.buffers b
      { bf with isUsed := true, pi := p, accessed := some (env.clock st.ticks) }
    pieces := put st.pieces p { pc with bi := b }
    ticks := st.ticks + 1
    bufferLimit := if reserved then st.bufferLimit - 1 else st.bufferLimit
    bufferUsed := if reserved then st.bufferUsed else st.bufferUsed + 1 }

/-- `bytes` are stored for piece `p` in its buffer `b` from `off` on. -/
def store (env : Env σ) (st : MemoryStorage σ) (p : ℤ) (pc : MemoryPiece) (b : ℤ)
    (bf : MemoryBuffer) (off : ℕ) (bytes : List Byte) : MemoryStorage σ :=
  { st with
    buffers := put st.buffers b
      { bf with buffer := splice bf.buffer off bytes, accessed := some (env.clock st.ticks) }
    pieces := put st.pieces p { pc with size := pc.size + bytes.length }
    ticks := st.ticks + 1 }

/-- Piece `p` was read up to `upTo` from its buffer `b`. -/
def touch (env : Env σ) (st : MemoryStorage σ) (p : ℤ) (pc : MemoryPiece) (b : ℤ)
    (bf : MemoryBuffer) (upTo : ℤ) : MemoryStorage σ :=
  { st with
    buffers := put st.buffers b { bf with accessed := some (env.clock st.ticks) }
    pieces := put st.pieces p
      (if pc.isCompleted && upTo ≥ pc.intSize then { pc with isRead := true } else pc)
    ticks := st.ticks + 1 }

/-- Piece `p` loses its buffer `b`. -/
def evict (env : Env σ) (st : MemoryStorage σ) (p : ℤ) (pc : MemoryPiece) (b : ℤ)
    (bf : MemoryBuffer) : MemoryStorage σ :=
  { st with
    buffers := put st.buffers b (bf.reset (env.clock st.ticks))
    pieces := put st.pieces p pc.reset
    ticks := st.ticks + 1
    bufferUsed := st.bufferUsed - 1
    torrent := restoredTorrent env st p }

end MemoryStorage

open MemoryStorage

namespace Linked

variable {st : MemoryStorage σ} {env : Env σ}

/-- What happens to the clock, the torrent, the reader flag and the counters does not
concern the links. -/
theorem frame (h : Linked st) (ticks : ℕ) (torrent : σ) (isReading : Bool)
    (bufferUsed bufferLimit : ℤ) :
    Linked { st with
      ticks := ticks
      torrent := torrent
      isReading := isReading
      bufferUsed := bufferUsed
      bufferLimit := bufferLimit } where
  initialized := h.initialized
  pieces_length := h.pieces_length
  buffers_length := h.buffers_length
  readers_length := h.readers_length
  reserved_length := h.reserved_length
  piece_index := h.piece_index
  buffer_index := h.buffer_index
  piece_link := h.piece_link
  buffer_link := h.buffer_link
  buffer_unnamed := h.buffer_unnamed
  piece_blank := h.piece_blank

/-- **Relinking.**  Rewriting the records of a piece and a buffer that concern each
other only keeps `Linked`, as long as the new records do so too. -/
theorem relink (h : Linked st) {p b : ℤ} {pc : MemoryPiece} {bf : MemoryBuffer}
    (pc' : MemoryPiece) (bf' : MemoryBuffer)
    (hp : at? st.pieces p = some pc) (hb : at? st.buffers b = some bf)
    (hold : Paired p pc b bf) (hnew : Paired p pc' b bf')
    (hpi : pc'.index = pc.index) (hbi : bf'.index = bf.index) :
    Linked { st with pieces := put st.pieces p pc', buffers := put st.buffers b bf' } := by
  have hb0 := (h.buffer_bounds hb).1
  -- no other piece points at `b`, and no other buffer names `p`
  have hpiece : ∀ {q qc}, q ≠ p → at? st.pieces q = some qc → qc.bi ≠ -1 → qc.bi ≠ b := by
    intro q qc hqp hq hqb e
    obtain ⟨cf, hcf, hcu, hcpi⟩ := h.piece_link hq hqb
    rw [e, hb] at hcf
    obtain rfl := Option.some.inj hcf
    rcases hold with ⟨-, -, hbp⟩ | ⟨-, -, hbu, -⟩
    · exact hqp (by rw [← hcpi, hbp])
    · rw [hbu] at hcu
      exact absurd hcu (by simp)
  have hbuffer : ∀ {c cf}, c ≠ b → at? st.buffers c = some cf → cf.isUsed = true → cf.pi ≠ p := by
    intro c cf hcb hc hcu e
    obtain ⟨qc, hqc, hqbi⟩ := h.buffer_link hc hcu
    rw [e, hp] at hqc
    obtain rfl := Option.some.inj hqc
    have hc0 := (h.buffer_bounds hc).1
    rcases hold with ⟨hpb, -, -⟩ | ⟨hpb, -⟩ <;> omega
  refine ⟨h.initialized, ?_, ?_, h.readers_length, h.reserved_length, ?_, ?_, ?_, ?_, ?_, ?_⟩
  · rw [length_put]
    exact h.pieces_length
  · rw [length_put]
    exact h.buffers_length
  · intro q qc hq
    rw [at?_put hp] at hq
    split at hq
    · rename_i hqp
      obtain rfl := Option.some.inj hq
      rw [hpi, hqp]
      exact h.piece_index hp
    · exact h.piece_index hq
  · intro c cf hc
    rw [at?_put hb] at hc
    split at hc
    · rename_i hcb
      obtain rfl := Option.some.inj hc
      rw [hbi, hcb]
      exact h.buffer_index hb
    · exact h.buffer_index hc
  · intro q qc hq hqb
    rw [at?_put hp] at hq
    split at hq
    · rename_i hqp
      obtain rfl := Option.some.inj hq
      rcases hnew with ⟨hnb, hnu, hnp⟩ | ⟨hnb, -⟩
      · exact ⟨bf', by rw [hnb]; exact at?_put_self hb bf', hnu, by rw [hnp, hqp]⟩
      · exact absurd hnb hqb
    · rename_i hqp
      obtain ⟨cf, hcf, hcu, hcpi⟩ := h.piece_link hq hqb
      refine ⟨cf, ?_, hcu, hcpi⟩
      rw [at?_put_ne (hpiece hqp hq hqb).symm]
      exact hcf
  · intro c cf hc hcu
    rw [at?_put hb] at hc
    split at hc
    · rename_i hcb
      obtain rfl := Option.some.inj hc
      rcases hnew with ⟨hnb, -, hnp⟩ | ⟨-, -, hnu, -⟩
      · exact ⟨pc', by rw [hnp]; exact at?_put_self hp pc', by rw [hnb, hcb]⟩
      · rw [hnu] at hcu
        exact absurd hcu (by simp)
    · rename_i hcb
      obtain ⟨qc, hqc, hqbi⟩ := h.buffer_link hc hcu
      refine ⟨qc, ?_, hqbi⟩
      rw [at?_put_ne (hbuffer hcb hc hcu).symm]
      exact hqc
  · intro c cf hc hcu
    rw [at?_put hb] at hc
    split at hc
    · obtain rfl := Option.some.inj hc
      rcases hnew with ⟨-, hnu, -⟩ | ⟨-, -, -, hunnamed⟩
      · rw [hnu] at hcu
        exact absurd hcu (by simp)
      · exact hunnamed
    · exact h.buffer_unnamed hc hcu
  · intro q qc hq hqb
    rw [at?_put hp] at hq
    split at hq
    · obtain rfl := Option.some.inj hq
      rcases hnew with ⟨hnb, -, -⟩ | ⟨-, hsize, -⟩
      · omega
      · exact hsize
    · exact h.piece_blank hq hqb

/-- The records of an owner and its buffer concern each other only. -/
theorem paired_of_owns {p b : ℤ} {pc : MemoryPiece} {bf : MemoryBuffer}
    (ho : Owns st p pc b bf) : Paired p pc b bf :=
  Or.inl ⟨ho.bi, ho.used, ho.pi⟩

/-- The records of an unbuffered piece and a free buffer concern nobody. -/
theorem paired_of_free (h : Linked st) {p b : ℤ} {pc : MemoryPiece} {bf : MemoryBuffer}
    (hp : at? st.pieces p = some pc) (hpb : pc.bi = -1) (hb : at? st.buffers b = some bf)
    (hbu : bf.isUsed = false) : Paired p pc b bf :=
  Or.inr ⟨hpb, h.piece_blank hp hpb, hbu, h.buffer_unnamed hb hbu⟩

/-- Storing bytes keeps the links. -/
theorem store (h : Linked st) {p b : ℤ} {pc : MemoryPiece} {bf : MemoryBuffer}
    (ho : Owns st p pc b bf) (off : ℕ) (bytes : List Byte) :
    Linked (st.store env p pc b bf off bytes) :=
  (h.relink { pc with size := pc.size + bytes.length }
    { bf with buffer := splice bf.buffer off bytes, accessed := some (env.clock st.ticks) }
    ho.piece ho.buffer (paired_of_owns ho) (Or.inl ⟨ho.bi, ho.used, ho.pi⟩) rfl rfl).frame
      (st.ticks + 1) st.torrent st.isReading st.bufferUsed st.bufferLimit

/-- Reading keeps the links. -/
theorem touch (h : Linked st) {p b : ℤ} {pc : MemoryPiece} {bf : MemoryBuffer}
    (ho : Owns st p pc b bf) (upTo : ℤ) : Linked (st.touch env p pc b bf upTo) :=
  (h.relink (if pc.isCompleted && upTo ≥ pc.intSize then { pc with isRead := true } else pc)
    { bf with accessed := some (env.clock st.ticks) }
    ho.piece ho.buffer (paired_of_owns ho)
    (Or.inl ⟨by split <;> exact ho.bi, ho.used, ho.pi⟩) (by split <;> rfl) rfl).frame
      (st.ticks + 1) st.torrent st.isReading st.bufferUsed st.bufferLimit

/-- Placing an unbuffered piece in a free buffer links the two. -/
theorem place (h : Linked st) {p b : ℤ} {pc : MemoryPiece} {bf : MemoryBuffer}
    (hp : at? st.pieces p = some pc) (hpb : pc.bi = -1) (hb : at? st.buffers b = some bf)
    (hbu : bf.isUsed = false) (reserved : Bool) : Linked (st.place env p pc b bf reserved) :=
  (h.relink { pc with bi := b }
    { bf with isUsed := true, pi := p, accessed := some (env.clock st.ticks) }
    hp hb (h.paired_of_free hp hpb hb hbu) (Or.inl ⟨rfl, rfl, rfl⟩) rfl rfl).frame
      (st.ticks + 1) st.torrent st.isReading _ _

/-- Evicting an owner unlinks it and leaves both sides unnamed. -/
theorem evict (h : Linked st) {p b : ℤ} {pc : MemoryPiece} {bf : MemoryBuffer}
    (ho : Owns st p pc b bf) : Linked (st.evict env p pc b bf) :=
  (h.relink pc.reset (bf.reset (env.clock st.ticks))
    ho.piece ho.buffer (paired_of_owns ho)
    (Or.inr ⟨rfl, rfl, rfl, rfl⟩) rfl rfl).frame
      (st.ticks + 1) _ st.isReading _ st.bufferLimit

end Linked

/-! ## What is not in use -/

/-- The buffers that are not in use are zero throughout. -/
def Blank (st : MemoryStorage σ) : Prop :=
  ∀ ⦃b : ℤ⦄ ⦃bf : MemoryBuffer⦄, at? st.buffers b = some bf → bf.isUsed = false →
    bf.buffer = List.replicate bf.buffer.length 0

namespace Blank

variable {st : MemoryStorage σ} {env : Env σ}

/-- Only the buffers matter. -/
theorem frame (h : Blank st) {st' : MemoryStorage σ} (hb : st'.buffers = st.buffers) :
    Blank st' := by
  intro b bf hbf hu
  rw [hb] at hbf
  exact h hbf hu

/-- A rewritten buffer is in use, or zero. -/
theorem put (h : Blank st) {st' : MemoryStorage σ} {b : ℤ} {bf bf' : MemoryBuffer}
    (hb : at? st.buffers b = some bf) (heq : st'.buffers = put st.buffers b bf')
    (hnew : bf'.isUsed = false → bf'.buffer = List.replicate bf'.buffer.length 0) :
    Blank st' := by
  intro c cf hc hu
  rw [heq, at?_put hb] at hc
  split at hc
  · obtain rfl := Option.some.inj hc
    exact hnew hu
  · exact h hc hu

/-- A buffer that stays in use may be rewritten. -/
theorem put_used (h : Blank st) {st' : MemoryStorage σ} {b : ℤ} {bf bf' : MemoryBuffer}
    (hb : at? st.buffers b = some bf) (heq : st'.buffers = Subscript.put st.buffers b bf')
    (hused : bf'.isUsed = true) : Blank st' := by
  apply h.put hb heq
  intro hu
  rw [hused] at hu
  exact absurd hu (by simp)

theorem store (h : Blank st) {p b : ℤ} {pc : MemoryPiece} {bf : MemoryBuffer}
    (ho : Owns st p pc b bf) (off : ℕ) (bytes : List Byte) :
    Blank (st.store env p pc b bf off bytes) := by
  apply h.put_used ho.buffer rfl
  exact ho.used

theorem touch (h : Blank st) {p b : ℤ} {pc : MemoryPiece} {bf : MemoryBuffer}
    (ho : Owns st p pc b bf) (upTo : ℤ) : Blank (st.touch env p pc b bf upTo) := by
  apply h.put_used ho.buffer rfl
  exact ho.used

theorem place (h : Blank st) {p b : ℤ} {pc : MemoryPiece} {bf : MemoryBuffer}
    (hb : at? st.buffers b = some bf) (reserved : Bool) :
    Blank (st.place env p pc b bf reserved) :=
  h.put_used hb rfl rfl

/-- An evicted buffer is cleared. -/
theorem evict (h : Blank st) {p b : ℤ} {pc : MemoryPiece} {bf : MemoryBuffer}
    (ho : Owns st p pc b bf) : Blank (st.evict env p pc b bf) := by
  apply h.put ho.buffer rfl
  intro _
  simp [MemoryBuffer.reset]

end Blank

end Libtorrent
