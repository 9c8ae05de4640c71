/-
# Well-formed storages

`WellFormed info st` adds to `Linked` what the constructor fixes for a torrent: the
piece count and lengths, the length of every buffer, and the size of the pool as a
function of the capacity.

Writing, reading and evicting keep all of that because they keep the *shape* of the
storage (`SameShape`); growing changes it in one definite way (`grow`).
-/
import LibtorrentGo.Copies

open MachineInt Splice Subscript

namespace Libtorrent

variable {σ : Type}

/-! ## The shape of a storage -/

namespace MemoryStorage

/-- Two states of a storage that differ in links, contents and counters only. -/
structure SameShape (st st' : MemoryStorage σ) : Prop where
  initialized : st'.isInitialized = st.isInitialized
  capacity : st'.capacity = st.capacity
  pieceCount : st'.pieceCount = st.pieceCount
  pieceLength : st'.pieceLength = st.pieceLength
  bufferSize : st'.bufferSize = st.bufferSize
  reserved : st'.reservedPieces = st.reservedPieces
  readers : st'.readerPieces = st.readerPieces
  pieces : st'.pieces.map MemoryPiece.length = st.pieces.map MemoryPiece.length
  buffers : st'.buffers.map (fun bf => bf.buffer.length)
    = st.buffers.map (fun bf => bf.buffer.length)

namespace SameShape

theorem refl (st : MemoryStorage σ) : SameShape st st :=
  ⟨rfl, rfl, rfl, rfl, rfl, rfl, rfl, rfl, rfl⟩

theorem trans {s₁ s₂ s₃ : MemoryStorage σ} (h : SameShape s₁ s₂) (h' : SameShape s₂ s₃) :
    SameShape s₁ s₃ where
  initialized := h'.initialized.trans h.initialized
  capacity := h'.capacity.trans h.capacity
  pieceCount := h'.pieceCount.trans h.pieceCount
  pieceLength := h'.pieceLength.trans h.pieceLength
  bufferSize := h'.bufferSize.trans h.bufferSize
  reserved := h'.reserved.trans h.reserved
  readers := h'.readers.trans h.readers
  pieces := h'.pieces.trans h.pieces
  buffers := h'.buffers.trans h.buffers

/-- A piece has the length it had. -/
theorem piece_length {st st' : MemoryStorage σ} (h : SameShape st st') {p : ℤ}
    {pc' : MemoryPiece} (hp : at? st'.pieces p = some pc') :
    ∃ pc, at? st.pieces p = some pc ∧ pc.length = pc'.length := by
  have hm := congrArg (fun l => at? l p) h.pieces
  simp only [at?_map, hp, Option.map_some] at hm
  obtain ⟨pc, hpc, hlen⟩ := Option.map_eq_some_iff.mp hm.symm
  exact ⟨pc, hpc, hlen⟩

/-- A buffer has the length it had. -/
theorem buffer_length {st st' : MemoryStorage σ} (h : SameShape st st') {b : ℤ}
    {bf' : MemoryBuffer} (hb : at? st'.buffers b = some bf') :
    ∃ bf, at? st.buffers b = some bf ∧ bf.buffer.length = bf'.buffer.length := by
  have hm := congrArg (fun l => at? l b) h.buffers
  simp only [at?_map, hb, Option.map_some] at hm
  obtain ⟨bf, hbf, hlen⟩ := Option.map_eq_some_iff.mp hm.symm
  exact ⟨bf, hbf, hlen⟩

/-- Reservations are what they were. -/
theorem reserved_iff {st st' : MemoryStorage σ} (h : SameShape st st') (p : ℤ) :
    st'.Reserved p ↔ st.Reserved p := by
  rw [Reserved, Reserved, h.reserved]

end SameShape

/-- Waiting keeps the shape. -/
theorem sameShape_wait (st : MemoryStorage σ) (n : ℕ) : SameShape st (st.wait n) :=
  ⟨rfl, rfl, rfl, rfl, rfl, rfl, rfl, rfl, rfl⟩

/-- Placing a piece keeps the shape. -/
theorem sameShape_place (env : Env σ) {st : MemoryStorage σ} {p b : ℤ} {pc : MemoryPiece}
    {bf : MemoryBuffer} (hp : at? st.pieces p = some pc) (hb : at? st.buffers b = some bf)
    (reserved : Bool) : SameShape st (st.place env p pc b bf reserved) :=
  ⟨rfl, rfl, rfl, rfl, rfl, rfl, rfl, map_put_of_eq hp rfl, map_put_of_eq hb rfl⟩

/-- Storing bytes that fit keeps the shape. -/
theorem sameShape_store (env : Env σ) {st : MemoryStorage σ} {p b : ℤ} {pc : MemoryPiece}
    {bf : MemoryBuffer} (ho : Owns st p pc b bf) {off : ℕ} {bytes : List Byte}
    (hfit : off + bytes.length ≤ bf.buffer.length) :
    SameShape st (st.store env p pc b bf off bytes) :=
  ⟨rfl, rfl, rfl, rfl, rfl, rfl, rfl, map_put_of_eq ho.piece rfl,
    map_put_of_eq ho.buffer (length_splice hfit)⟩

/-- Reading keeps the shape. -/
theorem sameShape_touch (env : Env σ) {st : MemoryStorage σ} {p b : ℤ} {pc : MemoryPiece}
    {bf : MemoryBuffer} (ho : Owns st p pc b bf) (upTo : ℤ) :
    SameShape st (st.touch env p pc b bf upTo) :=
  ⟨rfl, rfl, rfl, rfl, rfl, rfl, rfl, map_put_of_eq ho.piece (by split <;> rfl),
    map_put_of_eq ho.buffer rfl⟩

/-- Evicting keeps the shape. -/
theorem sameShape_evict (env : Env σ) {st : MemoryStorage σ} {p b : ℤ} {pc : MemoryPiece}
    {bf : MemoryBuffer} (ho : Owns st p pc b bf) : SameShape st (st.evict env p pc b bf) :=
  ⟨rfl, rfl, rfl, rfl, rfl, rfl, rfl, map_put_of_eq ho.piece rfl,
    map_put_of_eq ho.buffer (by simp [MemoryBuffer.reset])⟩

/-- A round of `trim` keeps the shape. -/
theorem Trimmed.sameShape {env : Env σ} {pi : ℤ} {st st' : MemoryStorage σ}
    (ht : Trimmed env pi st st') : SameShape st st' := by
  cases ht with
  | spin _ _ => exact sameShape_wait st 2
  | unread ho _ =>
      exact (sameShape_wait st 1).trans
        (sameShape_evict env (ho.frame rfl rfl))
  | lru ho _ _ =>
      exact (sameShape_wait st 2).trans
        (sameShape_evict env (ho.frame rfl rfl))

end MemoryStorage

open MemoryStorage

/-! ## The size of the pool -/

/-- **The pool size**, where the conversions are defined: the quotient plus two, capped
by the piece count. -/
theorem poolSize_eq_ok_iff {capacity pieceLength pieceCount n : ℤ} :
    poolSize capacity pieceLength pieceCount = .ok n ↔
      (intMin ≤ capacity.tdiv pieceLength + 2 ∧ capacity.tdiv pieceLength + 2 ≤ intMax) ∧
        n = min pieceCount (capacity.tdiv pieceLength + 2) := by
  rw [poolSize, bufferCount, doubleToInt_toDouble_add_two]
  have hmin : ∀ k : ℤ, (if k > pieceCount then pieceCount else k) = min pieceCount k := by
    intro k
    split <;> omega
  cases hd : doubleToInt (capacity.tdiv pieceLength + 2) with
  | none =>
      have hout : ¬(intMin ≤ capacity.tdiv pieceLength + 2 ∧
          capacity.tdiv pieceLength + 2 ≤ intMax) := by
        intro hin
        rw [doubleToInt_eq_some_iff.mpr ⟨rfl, hin⟩] at hd
        exact absurd hd (by simp)
      simp [hout]
  | some k =>
      obtain ⟨rfl, hin⟩ := doubleToInt_eq_some_iff.mp hd
      simp only [ok_bind, pure_eq_ok, Except.ok.injEq, hmin, hin, true_and, and_self]
      exact eq_comm

/-- The pool size for a capacity that is not negative. -/
theorem poolSize_eq_ok {capacity pieceLength pieceCount n : ℤ} (hc : 0 ≤ capacity)
    (h : poolSize capacity pieceLength pieceCount = .ok n) :
    n = min pieceCount (capacity / pieceLength + 2) := by
  rw [← Int.tdiv_eq_ediv_of_nonneg hc]
  exact (poolSize_eq_ok_iff.mp h).2

/-- Reading a run of new buffers. -/
theorem at?_newBuffers (lo hi length i : ℤ) :
    at? (newBuffers lo hi length) i =
      if 0 ≤ i ∧ i < hi - lo then some (MemoryBuffer.new (lo + i) length) else none := by
  rw [newBuffers, at?_map_range]
  split
  · rename_i h
    rw [if_pos (by omega), show ((i.toNat : ℤ)) = i by omega]
  · rename_i h
    rw [if_neg (by omega)]

theorem length_newBuffers (lo hi length : ℤ) :
    (newBuffers lo hi length).length = (hi - lo).toNat := by
  rw [newBuffers, List.length_map, List.length_range]

/-- What is read there is a new buffer. -/
theorem eq_new_of_newBuffers {lo hi length b : ℤ} {bf : MemoryBuffer}
    (hb : at? (newBuffers lo hi length) b = some bf) : bf = MemoryBuffer.new (lo + b) length := by
  rw [at?_newBuffers] at hb
  split at hb
  · exact (Option.some.inj hb).symm
  · exact absurd hb (by simp)

/-- The buffers of a pool built up from `lo` are numbered from `lo` on. -/
theorem index_newBuffers {lo hi length b : ℤ} {bf : MemoryBuffer}
    (hb : at? (newBuffers lo hi length) b = some bf) : bf.index = lo + b := by
  rw [eq_new_of_newBuffers hb]
  rfl

/-- The pieces the constructor pushes back. -/
theorem eq_new_of_newPieces {n : ℤ} {pieceSize : ℤ → ℤ} {p : ℤ} {pc : MemoryPiece}
    (hp : at? ((List.range n.toNat).map fun i : ℕ => MemoryPiece.new i (pieceSize i)) p
      = some pc) : pc = MemoryPiece.new p (pieceSize p) := by
  rw [at?_map_range] at hp
  split at hp
  · obtain rfl := Option.some.inj hp
    rw [show ((p.toNat : ℤ)) = p by omega]
  · exact absurd hp (by simp)

/-! ## The invariant -/

/-- What every storage of the torrent `info` satisfies between calls, and inside them. -/
structure WellFormed (info : TorrentInfo) (st : MemoryStorage σ) : Prop extends Linked st where
  pieceCount_eq : st.pieceCount = info.numPieces
  pieceLength_eq : st.pieceLength = info.pieceLength
  piece_length : ∀ {p pc}, at? st.pieces p = some pc → pc.length = info.pieceSize p
  buffer_length : ∀ {b bf}, at? st.buffers b = some bf →
    (bf.buffer.length : ℤ) = info.pieceLength
  capacity_nonneg : 0 ≤ st.capacity
  bufferSize_eq : st.bufferSize = min info.numPieces (st.capacity / info.pieceLength + 2)

namespace WellFormed

variable {info : TorrentInfo} {st : MemoryStorage σ}

/-- What keeps the links and the shape keeps the invariant. -/
theorem of_sameShape (h : WellFormed info st) {st' : MemoryStorage σ} (hl : Linked st')
    (hs : SameShape st st') : WellFormed info st' where
  toLinked := hl
  pieceCount_eq := hs.pieceCount.trans h.pieceCount_eq
  pieceLength_eq := hs.pieceLength.trans h.pieceLength_eq
  piece_length := fun hp => by
    obtain ⟨pc, hpc, hlen⟩ := hs.piece_length hp
    rw [← hlen]
    exact h.piece_length hpc
  buffer_length := fun hb => by
    obtain ⟨bf, hbf, hlen⟩ := hs.buffer_length hb
    rw [← hlen]
    exact h.buffer_length hbf
  capacity_nonneg := by
    rw [hs.capacity]
    exact h.capacity_nonneg
  bufferSize_eq := by
    rw [hs.bufferSize, hs.capacity]
    exact h.bufferSize_eq

/-- The pool has at least one buffer and at most one for each piece. -/
theorem bufferSize_bounds (h : WellFormed info st) :
    1 ≤ st.bufferSize ∧ st.bufferSize ≤ st.pieceCount := by
  have hq := Int.ediv_nonneg h.capacity_nonneg info.pieceLength_pos.le
  have hn := info.one_le_numPieces
  rw [h.bufferSize_eq, h.pieceCount_eq]
  omega

/-- A piece has at least one byte and fits a buffer. -/
theorem piece_fits (h : WellFormed info st) {p b : ℤ} {pc : MemoryPiece} {bf : MemoryBuffer}
    (hp : at? st.pieces p = some pc) (hb : at? st.buffers b = some bf) :
    0 < pc.length ∧ pc.length ≤ bf.buffer.length ∧ (bf.buffer.length : ℤ) ≤ intMax := by
  obtain ⟨h0, h1⟩ := h.piece_bounds hp
  rw [h.pieceCount_eq] at h1
  rw [h.piece_length hp, h.buffer_length hb]
  exact ⟨info.pieceSize_pos p h0 h1, info.pieceSize_le p h0 h1, info.pieceLength_le⟩

/-- What fits a piece fits its buffer. -/
theorem fitting_fits (h : WellFormed info st) {p b : ℤ} {pc : MemoryPiece} {bf : MemoryBuffer}
    (ho : Owns st p pc b bf) {offset : ℤ} (h0 : 0 ≤ offset) (h1 : offset ≤ pc.length)
    (bufs : List (List Byte)) :
    offset.toNat + (fitting pc.length offset bufs).length ≤ bf.buffer.length := by
  have hf := h.piece_fits ho.piece ho.buffer
  have hl := length_fitting pc.length h1 bufs
  omega

/-- **A storing step keeps the invariant.** -/
theorem store (h : WellFormed info st) {env : Env σ} {p b : ℤ} {pc : MemoryPiece}
    {bf : MemoryBuffer} (ho : Owns st p pc b bf) {off : ℕ} {bytes : List Byte}
    (hfit : off + bytes.length ≤ bf.buffer.length) :
    WellFormed info (st.store env p pc b bf off bytes) :=
  h.of_sameShape (h.toLinked.store ho off bytes) (sameShape_store env ho hfit)

/-- **A reading step keeps the invariant.** -/
theorem touch (h : WellFormed info st) {env : Env σ} {p b : ℤ} {pc : MemoryPiece}
    {bf : MemoryBuffer} (ho : Owns st p pc b bf) (upTo : ℤ) :
    WellFormed info (st.touch env p pc b bf upTo) :=
  h.of_sameShape (h.toLinked.touch ho upTo) (sameShape_touch env ho upTo)

/-- **A placing step keeps the invariant.** -/
theorem place (h : WellFormed info st) {env : Env σ} {p b : ℤ} {pc : MemoryPiece}
    {bf : MemoryBuffer} (hp : at? st.pieces p = some pc) (hpb : pc.bi = -1)
    (hb : at? st.buffers b = some bf) (hu : bf.isUsed = false) (reserved : Bool) :
    WellFormed info (st.place env p pc b bf reserved) :=
  h.of_sameShape (h.toLinked.place hp hpb hb hu reserved) (sameShape_place env hp hb reserved)

/-- **A round of `trim` keeps the invariant.** -/
theorem trimmed (h : WellFormed info st) {env : Env σ} {pi : ℤ} {st' : MemoryStorage σ}
    (ht : Trimmed env pi st st') : WellFormed info st' :=
  h.of_sameShape (ht.linked h.toLinked) ht.sameShape

end WellFormed

/-! ## Construction -/

/-- What the constructor leaves, where the pool size is defined. -/
theorem new_eq_ok {info : TorrentInfo} {memorySize : ℤ} {mHandle t : Bool} {torrent : σ}
    {st : MemoryStorage σ} (h : MemoryStorage.new info memorySize mHandle t torrent = .ok st) :
    ∃ n, poolSize memorySize info.pieceLength info.numPieces = .ok n ∧
      st.capacity = memorySize ∧ st.pieceCount = info.numPieces ∧
      st.pieceLength = info.pieceLength ∧ st.bufferSize = n ∧
      st.buffers = newBuffers 0 n info.pieceLength := by
  obtain ⟨n, hn, hst⟩ := bind_eq_ok_iff.mp h
  obtain rfl := Except.ok.inj hst
  exact ⟨n, hn, rfl, rfl, rfl, rfl, rfl⟩

/-- **A constructed storage is well formed.** -/
theorem wellFormed_new {info : TorrentInfo} {memorySize : ℤ} (hm : 0 ≤ memorySize)
    {mHandle t : Bool} {torrent : σ} {st : MemoryStorage σ}
    (h : MemoryStorage.new info memorySize mHandle t torrent = .ok st) : WellFormed info st := by
  obtain ⟨n, hn, hst⟩ := bind_eq_ok_iff.mp h
  obtain rfl := Except.ok.inj hst
  have hsize := poolSize_eq_ok hm hn
  have hcount := info.one_le_numPieces
  have hlen := info.pieceLength_pos
  have hq := Int.ediv_nonneg hm hlen.le
  have hpiece : ∀ {p : ℤ} {pc : MemoryPiece},
      at? ((List.range info.numPieces.toNat).map fun i : ℕ =>
        MemoryPiece.new i (info.pieceSize i)) p = some pc →
      pc = MemoryPiece.new p (info.pieceSize p) := eq_new_of_newPieces
  have hbuffer : ∀ {b : ℤ} {bf : MemoryBuffer},
      at? (newBuffers 0 n info.pieceLength) b = some bf →
      bf = MemoryBuffer.new b info.pieceLength := by
    intro b bf hb
    rw [eq_new_of_newBuffers hb, zero_add]
  refine
    { initialized := rfl
      pieces_length := ?_
      buffers_length := ?_
      readers_length := ?_
      reserved_length := ?_
      piece_index := fun hp => by rw [hpiece hp]; rfl
      buffer_index := fun hb => by rw [hbuffer hb]; rfl
      piece_link := fun hp hb => absurd (by rw [hpiece hp]; rfl) hb
      buffer_link := fun hb hu => by
        rw [hbuffer hb] at hu
        exact absurd hu (by simp [MemoryBuffer.new])
      buffer_unnamed := fun hb _ => by
        rw [hbuffer hb]
        rfl
      piece_blank := fun hp _ => by rw [hpiece hp]; rfl
      pieceCount_eq := rfl
      pieceLength_eq := rfl
      piece_length := fun hp => by rw [hpiece hp]; rfl
      buffer_length := fun hb => by
        rw [hbuffer hb]
        simp only [MemoryBuffer.new, List.length_replicate]
        omega
      capacity_nonneg := hm
      bufferSize_eq := hsize }
  · simp only [List.length_map, List.length_range]
    omega
  · simp only [length_newBuffers]
    omega
  · simp only [List.length_replicate]
    omega
  · simp only [List.length_replicate]
    omega

/-! ## Growth -/

namespace MemoryStorage

/-- The storage with capacity `s` and a pool of `n` buffers. -/
def grow (st : MemoryStorage σ) (s n : ℤ) : MemoryStorage σ :=
  { st with
    capacity := s
    bufferSize := n
    bufferLimit := n
    buffers := st.buffers ++ newBuffers st.bufferSize n st.pieceLength }

/-- A size that is no growth is ignored. -/
theorem setMemorySize_of_le {st : MemoryStorage σ} {s : ℤ} (h : s ≤ st.capacity) :
    setMemorySize st s = .ok st := if_pos h

/-- **`set_memory_size` grows the pool** to the count the new capacity asks for; with
an unchanged count only the capacity and the limit are set. -/
theorem setMemorySize_of_lt {st : MemoryStorage σ} {s n : ℤ} (h : st.capacity < s)
    (hn : poolSize s st.pieceLength st.pieceCount = .ok n) :
    setMemorySize st s = .ok (st.grow s n) := by
  rw [setMemorySize, if_neg (not_le.mpr h), hn, ok_bind, grow]
  simp only
  split
  · rename_i heq
    have hnil : newBuffers st.bufferSize n st.pieceLength = [] := by
      apply List.eq_nil_of_length_eq_zero
      rw [length_newBuffers]
      omega
    rw [hnil, List.append_nil]
    rfl
  · rfl

/-- **What `set_memory_size` does**: nothing, or it grows the pool. -/
theorem setMemorySize_eq_ok_iff {st st' : MemoryStorage σ} {s : ℤ} :
    setMemorySize st s = .ok st' ↔ s ≤ st.capacity ∧ st' = st ∨ st.capacity < s ∧
      ∃ n, poolSize s st.pieceLength st.pieceCount = .ok n ∧ st' = st.grow s n := by
  rcases le_or_gt s st.capacity with hle | hlt
  · rw [setMemorySize_of_le hle, Except.ok.injEq]
    simp only [hle, not_lt.mpr hle, true_and, false_and, or_false]
    exact eq_comm
  · simp only [hlt, not_le.mpr hlt, true_and, false_and, false_or]
    cases hn : poolSize s st.pieceLength st.pieceCount with
    | error e => simp [setMemorySize, not_le.mpr hlt, hn]
    | ok n =>
        rw [setMemorySize_of_lt hlt hn]
        simp only [Except.ok.injEq, exists_eq_left']
        exact eq_comm

/-- A buffer of a grown pool was there before, or is new. -/
theorem buffer_of_grow {st : MemoryStorage σ} {s n b : ℤ} {bf : MemoryBuffer}
    (hb : at? (st.grow s n).buffers b = some bf) :
    at? st.buffers b = some bf ∨ (st.buffers.length : ℤ) ≤ b ∧
      bf = MemoryBuffer.new (st.bufferSize + (b - st.buffers.length)) st.pieceLength := by
  rcases lt_or_ge b st.buffers.length with hold | hnew
  · left
    rw [grow, at?_append_left _ hold] at hb
    exact hb
  · right
    rw [grow, at?_append_right _ _ hnew] at hb
    exact ⟨hnew, eq_new_of_newBuffers hb⟩

/-- The old buffers of a grown pool stay where they were. -/
theorem at?_grow {st : MemoryStorage σ} {b : ℤ} {bf : MemoryBuffer}
    (hb : at? st.buffers b = some bf) (s n : ℤ) : at? (st.grow s n).buffers b = some bf := by
  have hbounds := at?_eq_some_bounds hb
  rw [grow, at?_append_left _ hbounds.2]
  exact hb

end MemoryStorage

/-- New buffers are blank. -/
theorem Blank.grow {st : MemoryStorage σ} (h : Blank st) (s n : ℤ) : Blank (st.grow s n) := by
  intro b bf hb hu
  rcases buffer_of_grow hb with hold | ⟨-, rfl⟩
  · exact h hold hu
  · simp [MemoryBuffer.new]

/-- **A growing step keeps the invariant.** -/
theorem WellFormed.grow {info : TorrentInfo} {st : MemoryStorage σ} (h : WellFormed info st)
    {s n : ℤ} (hs : st.capacity < s) (hn : poolSize s st.pieceLength st.pieceCount = .ok n) :
    WellFormed info (st.grow s n) ∧ st.bufferSize ≤ n := by
  have hs0 : 0 ≤ s := h.capacity_nonneg.trans hs.le
  have hsize := poolSize_eq_ok hs0 hn
  rw [h.pieceLength_eq, h.pieceCount_eq] at hsize
  have hle : st.bufferSize ≤ n := by
    rw [hsize, h.bufferSize_eq]
    have hmono := Int.ediv_le_ediv info.pieceLength_pos hs.le
    omega
  have hsplit : ∀ {b : ℤ} {bf : MemoryBuffer}, at? (st.grow s n).buffers b = some bf →
      at? st.buffers b = some bf ∨ bf = MemoryBuffer.new b st.pieceLength := by
    intro b bf hb
    have hlength := h.buffers_length
    rcases buffer_of_grow hb with hold | ⟨-, hnew⟩
    · exact Or.inl hold
    · right
      rw [hnew]
      congr 1
      omega
  refine ⟨?_, hle⟩
  exact
    { initialized := h.initialized
      pieces_length := h.pieces_length
      buffers_length := by
        have hl := h.buffers_length
        simp only [MemoryStorage.grow, List.length_append, length_newBuffers]
        omega
      readers_length := h.readers_length
      reserved_length := h.reserved_length
      piece_index := h.piece_index
      buffer_index := fun hb => by
        rcases hsplit hb with hold | hnew
        · exact h.buffer_index hold
        · rw [hnew]
          rfl
      piece_link := fun hp hb => by
        obtain ⟨bf, hbf, hu, hpi⟩ := h.piece_link hp hb
        exact ⟨bf, at?_grow hbf s n, hu, hpi⟩
      buffer_link := fun hb hu => by
        rcases hsplit hb with hold | hnew
        · exact h.buffer_link hold hu
        · rw [hnew] at hu
          exact absurd hu (by simp [MemoryBuffer.new])
      buffer_unnamed := fun hb hu => by
        rcases hsplit hb with hold | hnew
        · exact h.buffer_unnamed hold hu
        · rw [hnew]
          rfl
      piece_blank := h.piece_blank
      pieceCount_eq := h.pieceCount_eq
      pieceLength_eq := h.pieceLength_eq
      piece_length := h.piece_length
      buffer_length := fun hb => by
        rcases hsplit hb with hold | hnew
        · exact h.buffer_length hold
        · have hlen := info.pieceLength_pos
          rw [hnew, h.pieceLength_eq]
          simp only [MemoryBuffer.new, List.length_replicate]
          omega
      capacity_nonneg := hs0
      bufferSize_eq := hsize }

/-! ## The reader and the reserved bits -/

/-- **Setting bits**: valid pieces can be set, and exactly they are added. -/
theorem setBits_eq_ok {bits : List Bool} {pieces : List ℤ}
    (h : ∀ p ∈ pieces, 0 ≤ p ∧ p < bits.length) :
    ∃ bits', setBits bits pieces = .ok bits' ∧ bits'.length = bits.length ∧
      ∀ p, at? bits' p = some true ↔ p ∈ pieces ∨ at? bits p = some true := by
  induction pieces generalizing bits with
  | nil => exact ⟨bits, rfl, rfl, by simp⟩
  | cons q pieces ih =>
      obtain ⟨hq, hrest⟩ := List.forall_mem_cons.mp h
      obtain ⟨r, hr⟩ := exists_at?_eq_some hq.1 hq.2
      have hrest' : ∀ p ∈ pieces, 0 ≤ p ∧ p < (put bits q true).length := by
        rw [length_put]
        exact hrest
      obtain ⟨bits', heq, hlen, hiff⟩ := ih hrest'
      refine ⟨bits', ?_, by rw [hlen, length_put], ?_⟩
      · rw [setBits, subscript_eq hr, ok_bind, heq]
      · intro p
        rw [hiff, at?_put hr, List.mem_cons]
        split
        · rename_i hp
          simp [hp]
        · rename_i hp
          simp [hp]

/-- A cleared bit set has no bit set. -/
theorem at?_replicate_false_ne (n : ℕ) (p : ℤ) :
    at? (List.replicate n false) p ≠ some true := by
  intro h
  exact absurd (List.eq_of_mem_replicate (mem_of_at? h)) (by simp)

/-- Replacing a bit set by one of the same size keeps the invariant. -/
theorem WellFormed.withBits {info : TorrentInfo} {st : MemoryStorage σ} (h : WellFormed info st)
    {readers reserved : List Bool} (hr : readers.length = st.readerPieces.length)
    (hr' : reserved.length = st.reservedPieces.length) (bufferReserved : ℤ) :
    WellFormed info { st with
      readerPieces := readers
      reservedPieces := reserved
      bufferReserved := bufferReserved } where
  initialized := h.initialized
  pieces_length := h.pieces_length
  buffers_length := h.buffers_length
  readers_length := by
    rw [hr]
    exact h.readers_length
  reserved_length := by
    rw [hr']
    exact h.reserved_length
  piece_index := h.piece_index
  buffer_index := h.buffer_index
  piece_link := h.piece_link
  buffer_link := h.buffer_link
  buffer_unnamed := h.buffer_unnamed
  piece_blank := h.piece_blank
  pieceCount_eq := h.pieceCount_eq
  pieceLength_eq := h.pieceLength_eq
  piece_length := h.piece_length
  buffer_length := h.buffer_length
  capacity_nonneg := h.capacity_nonneg
  bufferSize_eq := h.bufferSize_eq

/-- What happens to the torrent, its handle and the reader flag keeps the invariant. -/
theorem WellFormed.withTorrent {info : TorrentInfo} {st : MemoryStorage σ}
    (h : WellFormed info st) (torrent : σ) (mHandle t isReading : Bool) :
    WellFormed info { st with
      torrent := torrent
      mHandle := mHandle
      t := t
      isReading := isReading } where
  initialized := h.initialized
  pieces_length := h.pieces_length
  buffers_length := h.buffers_length
  readers_length := h.readers_length
  reserved_length := h.reserved_length
  piece_index := h.piece_index
  buffer_index := h.buffer_index
  piece_link := h.piece_link
  buffer_link := h.buffer_link
  buffer_unnamed := h.buffer_unnamed
  piece_blank := h.piece_blank
  pieceCount_eq := h.pieceCount_eq
  pieceLength_eq := h.pieceLength_eq
  piece_length := h.piece_length
  buffer_length := h.buffer_length
  capacity_nonneg := h.capacity_nonneg
  bufferSize_eq := h.bufferSize_eq

end Libtorrent
