/-
# Reading and writing, byte for byte

What `writev`, `readv` and `read` copy when the piece owns a buffer and the offset lies
inside it.  The copy loops clamp every chunk, in `size_t` and `int` arithmetic that does
not wrap there; over the whole list of chunks the clamping adds up to one splice
(`writevCopy_eq`) or one scatter (`readvCopy_eq`).
-/
import LibtorrentGo.Operations

open MachineInt Splice Subscript

namespace Libtorrent

variable {σ : Type}

/-- A copy in range. -/
theorem memcpy_eq {dst src : List Byte} {dstOff srcOff n : ℤ} (hn : 0 ≤ n) (hd : 0 ≤ dstOff)
    (hd' : dstOff + n ≤ dst.length) (hs : 0 ≤ srcOff) (hs' : srcOff + n ≤ src.length) :
    memcpy dst dstOff src srcOff n =
      .ok (splice dst dstOff.toNat ((src.drop srcOff.toNat).take n.toNat)) :=
  if_pos ⟨hn, hd, hd', hs, hs'⟩

/-- What is available behind an offset inside an array. -/
theorem available_eq {length offset : ℤ} (h0 : 0 ≤ offset) (h1 : offset ≤ length)
    (h2 : length ≤ intMax) : toInt (toSize (length - offset)) = length - offset := by
  unfold intMax at h2
  rw [toSize_of_range (by omega) (by unfold intMax; omega),
    toInt_of_range (by unfold intMin; omega) (by unfold intMax; omega)]

/-- The clamp of the copy loops, where nothing wraps. -/
theorem clamp_eq {length fileOffset : ℤ} (h0 : 0 ≤ fileOffset) (h1 : fileOffset ≤ length)
    (h2 : length ≤ intMax) (n : ℕ) :
    toInt (min (toSize (length - fileOffset)) n) = min (length - fileOffset) n := by
  unfold intMax at h2
  rw [toSize_of_range (by omega) (by unfold intMax; omega),
    toInt_of_range (by unfold intMin; omega) (by unfold intMax; omega)]

/-- The bytes of a list of chunks that fit an array of the given length from `offset` on. -/
def fitting (length offset : ℤ) (bufs : List (List Byte)) : List Byte :=
  bufs.flatten.take (length - offset).toNat

/-- As many bytes fit as there are, or as there is room for. -/
theorem length_fitting (length : ℤ) {offset : ℤ} (h : offset ≤ length) (bufs : List (List Byte)) :
    ((fitting length offset bufs).length : ℤ) = min (length - offset) bufs.flatten.length := by
  rw [fitting, List.length_take]
  omega

/-- The bytes of an accepted `writev` are those it returned the number of. -/
theorem take_fitting (length offset : ℤ) (bufs : List (List Byte)) :
    bufs.flatten.take ((fitting length offset bufs).length : ℤ).toNat =
      fitting length offset bufs := by
  rw [Int.toNat_natCast, fitting, List.length_take, List.take_eq_take_iff]
  omega

/-- The bytes that fit, chunk by chunk. -/
theorem fitting_cons {length offset : ℤ} (h : offset ≤ length) (iov : List Byte)
    (bufs : List (List Byte)) :
    fitting length offset (iov :: bufs) =
      iov.take (min (length - offset) iov.length).toNat ++
        fitting length (offset + min (length - offset) iov.length) bufs := by
  rw [fitting, fitting, List.flatten_cons, List.take_append]
  congr 1
  · rcases le_total (length - offset) iov.length with hle | hge
    · rw [min_eq_left hle]
    · rw [min_eq_right hge, List.take_of_length_le (by omega), List.take_of_length_le (by omega)]
  · congr 1
    omega

namespace MemoryStorage

/-! ## Writing -/

/-- **The copy loop of `writev`** splices what fits the piece into its buffer. -/
theorem writevCopy_eq {st : MemoryStorage σ} {p b : ℤ} {pc : MemoryPiece} {bf : MemoryBuffer}
    (ho : Owns st p pc b bf) (bufs : List (List Byte)) {offset n : ℤ} (h0 : 0 ≤ offset)
    (h1 : offset ≤ pc.length) (hlen : pc.length ≤ bf.buffer.length) (hint : pc.length ≤ intMax) :
    writevCopy p bufs offset n st =
      .ok (n + (fitting pc.length offset bufs).length,
        { st with
          buffers := put st.buffers b { bf with
            buffer := splice bf.buffer offset.toNat (fitting pc.length offset bufs) } }) := by
  induction bufs generalizing offset n st bf with
  | nil =>
      have hnil : fitting pc.length offset [] = [] := by simp [fitting]
      simp only [writevCopy, hnil, splice_nil, List.length_nil, Nat.cast_zero, add_zero]
      rw [put_at? ho.buffer]
  | cons iov bufs ih =>
      have hclamp := clamp_eq h0 h1 hint iov.length
      set c := min (pc.length - offset) (iov.length : ℤ) with hc
      have hbi : at? st.buffers pc.bi = some bf := by
        rw [ho.bi]
        exact ho.buffer
      have hcopy : memcpy bf.buffer offset iov 0 c
          = .ok (splice bf.buffer offset.toNat (iov.take c.toNat)) := by
        rw [memcpy_eq (by omega) h0 (by omega) le_rfl (by omega), Int.toNat_zero, List.drop_zero]
      have hfit : offset.toNat + (iov.take c.toNat).length ≤ bf.buffer.length := by
        rw [List.length_take]
        omega
      -- the state behind this chunk, in which the piece still owns its buffer
      set bf' : MemoryBuffer :=
        { bf with buffer := splice bf.buffer offset.toNat (iov.take c.toNat) } with hbf'
      have ho' : Owns { st with buffers := put st.buffers b bf' } p pc b bf' :=
        ⟨ho.piece, ho.bi, at?_put_self ho.buffer bf', ho.used, ho.pi⟩
      have hlen' : pc.length ≤ bf'.buffer.length := by
        rw [hbf']
        simp only
        rw [length_splice hfit]
        exact hlen
      have hstep : writevCopy p (iov :: bufs) offset n st =
          writevCopy p bufs (offset + c) (n + c)
            { st with buffers := put st.buffers b bf' } := by
        rw [writevCopy]
        simp only [subscript_eq ho.piece, ok_bind, subscript_eq hbi, hclamp, hcopy]
        rw [ho.bi]
      have hoff : (offset + c).toNat = offset.toNat + (iov.take c.toNat).length := by
        rw [List.length_take]
        omega
      have hroom : offset.toNat + (iov.take c.toNat).length
          + (fitting pc.length (offset + c) bufs).length ≤ bf.buffer.length := by
        have hl := length_fitting pc.length (show offset + c ≤ pc.length by omega) bufs
        rw [List.length_take]
        omega
      have hcount : (iov.take c.toNat).length = c := by
        rw [List.length_take]
        omega
      rw [hstep, ih ho' (by omega) (by omega) hlen', put_put, fitting_cons h1, ← hc, hbf']
      simp only
      rw [hoff, splice_splice hroom, List.length_append, Nat.cast_add, hcount, add_assoc]

/-- What an accepted `writev` does before it trims. -/
theorem writev_stores (env : Env σ) {st : MemoryStorage σ} {p b : ℤ} {pc : MemoryPiece}
    {bf : MemoryBuffer} (ho : Owns st p pc b bf) (bufs : List (List Byte)) {offset : ℤ}
    (h0 : 0 ≤ offset) (h1 : offset ≤ pc.length) (hlen : pc.length ≤ bf.buffer.length)
    (hint : pc.length ≤ intMax) :
    (do
      let (n, st) ← writevCopy p bufs offset 0 st
      let st ← writevAccount env st p n
      pure (n, st)) =
      .ok (((fitting pc.length offset bufs).length : ℤ),
        st.store env p pc b bf offset.toNat (fitting pc.length offset bufs)) := by
  obtain ⟨hp, rfl, hb, hu, hpi⟩ := ho
  rw [writevCopy_eq ⟨hp, rfl, hb, hu, hpi⟩ bufs h0 h1 hlen hint, ok_bind]
  simp only [writevAccount, subscript_eq hp, ok_bind, subscript_eq (at?_put_self hb _),
    pure_eq_ok, put_put, zero_add]
  rfl

/-! ## Reading -/

/-- **The copy loop of `readv`** scatters the buffer's bytes from the offset on. -/
theorem readvCopy_eq {st : MemoryStorage σ} {p b : ℤ} {pc : MemoryPiece} {bf : MemoryBuffer}
    (ho : Owns st p pc b bf) {bufs : List (List Byte)} {offset n : ℤ} (h0 : 0 ≤ offset)
    (h1 : offset ≤ bf.buffer.length) (hint : (bf.buffer.length : ℤ) ≤ intMax) :
    readvCopy st p bufs offset n =
      .ok (n + min (bf.buffer.length - offset) bufs.flatten.length,
        scatter bufs (bf.buffer.drop offset.toNat)) := by
  induction bufs generalizing offset n with
  | nil =>
      simp only [readvCopy, scatter, List.flatten_nil, List.length_nil, Nat.cast_zero]
      congr 2
      omega
  | cons iov bufs ih =>
      have hclamp := clamp_eq h0 h1 hint iov.length
      set c := min ((bf.buffer.length : ℤ) - offset) (iov.length : ℤ) with hc
      have hbi : at? st.buffers pc.bi = some bf := by
        rw [ho.bi]
        exact ho.buffer
      have htake : ((bf.buffer.drop offset.toNat).take c.toNat)
          = (bf.buffer.drop offset.toNat).take iov.length := by
        rcases le_total ((bf.buffer.length : ℤ) - offset) iov.length with hle | hge
        · rw [List.take_of_length_le (by rw [List.length_drop]; omega),
            List.take_of_length_le (by rw [List.length_drop]; omega)]
        · congr 1
          omega
      have hdrop : bf.buffer.drop (offset + c).toNat
          = (bf.buffer.drop offset.toNat).drop iov.length := by
        rw [List.drop_drop]
        rcases le_total ((bf.buffer.length : ℤ) - offset) iov.length with hle | hge
        · rw [List.drop_of_length_le (by omega), List.drop_of_length_le (by omega)]
        · congr 1
          omega
      have hcopy : memcpy iov 0 bf.buffer offset c
          = .ok (splice iov 0 ((bf.buffer.drop offset.toNat).take iov.length)) := by
        rw [memcpy_eq (by omega) le_rfl (by omega) h0 (by omega), htake, Int.toNat_zero]
      rw [readvCopy]
      simp only [subscript_eq ho.piece, ok_bind, subscript_eq hbi, hclamp, hcopy,
        ih (show 0 ≤ offset + c by omega) (by omega), pure_eq_ok, scatter, hdrop]
      congr 2
      rw [List.flatten_cons, List.length_append]
      omega

/-- Ending a read of an owner touches its buffer. -/
theorem finishRead_eq (env : Env σ) {st : MemoryStorage σ} {p b : ℤ} {pc : MemoryPiece}
    {bf : MemoryBuffer} (ho : Owns st p pc b bf) (upTo : ℤ) :
    finishRead env st p upTo = .ok (st.touch env p pc b bf upTo) := by
  obtain ⟨hp, rfl, hb, -, -⟩ := ho
  simp only [finishRead, subscript_eq hp, ok_bind, subscript_eq hb, pure_eq_ok]
  rfl

/-- `readv` of a piece without a buffer. -/
theorem readv_of_not_resident (env : Env σ) {st : MemoryStorage σ} (h : Linked st) {p : ℤ}
    {pc : MemoryPiece} (hp : at? st.pieces p = some pc) (hb : pc.bi = -1)
    (bufs : List (List Byte)) (offset : ℤ) :
    readv env st bufs p offset = .ok (0, bufs, st) := by
  have hnb : pc.isBuffered = false := by simp [MemoryPiece.isBuffered, hb]
  simp only [readv, h.initialized, Bool.not_true, Bool.false_eq_true, if_false,
    getReadBuffer_eq env hp, hnb, ok_bind, Bool.not_false, if_true, pure_eq_ok]

/-- **`readv` of a resident piece.** -/
theorem readv_of_owns (env : Env σ) {st : MemoryStorage σ} (h : Linked st) {p b : ℤ}
    {pc : MemoryPiece} {bf : MemoryBuffer} (ho : Owns st p pc b bf) (bufs : List (List Byte))
    {offset : ℤ} (h0 : 0 ≤ offset) (h1 : offset ≤ bf.buffer.length)
    (hint : (bf.buffer.length : ℤ) ≤ intMax) :
    readv env st bufs p offset =
      .ok (min (bf.buffer.length - offset) bufs.flatten.length,
        scatter bufs (bf.buffer.drop offset.toNat),
        st.touch env p pc b bf
          (offset + min (bf.buffer.length - offset) bufs.flatten.length)) := by
  have hne := h.bi_ne ho
  have hbuf : pc.isBuffered = true := by
    simp only [MemoryPiece.isBuffered, decide_eq_true_eq, ne_eq, ho.bi]
    exact hne
  simp only [readv, h.initialized, Bool.not_true, Bool.false_eq_true, if_false,
    getReadBuffer_eq env ho.piece, hbuf, ok_bind, readvCopy_eq ho h0 h1 hint, zero_add,
    finishRead_eq env ho, pure_eq_ok]

/-- **`read` of a piece that is not complete** fails, and the piece is restored. -/
theorem read_of_incomplete (env : Env σ) {st : MemoryStorage σ} (h : Linked st) {p : ℤ}
    {pc : MemoryPiece} (hp : at? st.pieces p = some pc) (hinc : pc.bi = -1 ∨ pc.intSize < pc.length)
    (readBuf : List Byte) (size offset : ℤ) :
    read env st readBuf size p offset =
      .ok (-1, readBuf, { st with isReading := true, torrent := restoredTorrent env st p }) := by
  have hinit : ¬(!st.isInitialized) = true := by simp [h.initialized]
  have hp' : at? ({ st with isReading := true } : MemoryStorage σ).pieces p = some pc := hp
  have hrestore : restorePiece env ({ st with isReading := true } : MemoryStorage σ) p =
      { st with isReading := true, torrent := restoredTorrent env st p } := by
    rw [restorePiece_eq]
    rfl
  by_cases hb : pc.bi = -1
  · have hnb : pc.isBuffered = false := by simp [MemoryPiece.isBuffered, hb]
    rw [read, if_neg hinit]
    simp only [getReadBuffer_eq env hp', hnb, ok_bind, Bool.not_false, if_true, pure_eq_ok,
      hrestore]
  · have hbuf : pc.isBuffered = true := by simp [MemoryPiece.isBuffered, hb]
    have hlt : pc.intSize < pc.length := hinc.resolve_left hb
    rw [read, if_neg hinit]
    simp only [getReadBuffer_eq env hp', hbuf, ok_bind, Bool.not_true, Bool.false_eq_true,
      if_false, readCopy, subscript_eq hp', if_pos hlt, pure_eq_ok, hrestore]

/-- A `read` of a complete piece is its copy. -/
theorem read_of_complete (env : Env σ) {st : MemoryStorage σ} (h : Linked st) {p b : ℤ}
    {pc : MemoryPiece} {bf : MemoryBuffer} (ho : Owns st p pc b bf) (hc : pc.length ≤ pc.intSize)
    (readBuf : List Byte) (size offset : ℤ) :
    read env st readBuf size p offset =
      (let available := toInt (toSize (bf.buffer.length - offset))
      if available ≤ 0 then .ok (0, readBuf, { st with isReading := true })
      else
        (memcpy readBuf 0 bf.buffer offset (if available > size then size else available)).bind
          fun readBuf => .ok (size, readBuf,
            ({ st with isReading := true } : MemoryStorage σ).touch env p pc b bf
              (offset + if available > size then size else available))) := by
  have hne := h.bi_ne ho
  have hinit : ¬(!st.isInitialized) = true := by simp [h.initialized]
  have ho' : Owns ({ st with isReading := true } : MemoryStorage σ) p pc b bf :=
    ho.frame rfl rfl
  have hbuf : pc.isBuffered = true := by
    simp only [MemoryPiece.isBuffered, decide_eq_true_eq, ne_eq, ho.bi]
    exact hne
  have hbi : at? ({ st with isReading := true } : MemoryStorage σ).buffers pc.bi = some bf := by
    rw [ho'.bi]
    exact ho'.buffer
  rw [read, if_neg hinit]
  simp only [getReadBuffer_eq env ho'.piece, hbuf, ok_bind, Bool.not_true, Bool.false_eq_true,
    if_false, readCopy, subscript_eq ho'.piece, if_neg (not_lt.mpr hc), subscript_eq hbi,
    finishRead_eq env ho', pure_eq_ok]
  rfl

/-- **`read` of a complete piece** at an offset inside it: what is available and asked for
is copied, and the size asked for is returned unless nothing is available. -/
theorem read_in_range (env : Env σ) {st : MemoryStorage σ} (h : Linked st) {p b : ℤ}
    {pc : MemoryPiece} {bf : MemoryBuffer} (ho : Owns st p pc b bf) (hc : pc.length ≤ pc.intSize)
    {readBuf : List Byte} {size offset : ℤ} (hs : 0 ≤ size) (hs' : size ≤ readBuf.length)
    (h0 : 0 ≤ offset) (h1 : offset ≤ bf.buffer.length) (hint : (bf.buffer.length : ℤ) ≤ intMax) :
    read env st readBuf size p offset =
      if offset = bf.buffer.length then .ok (0, readBuf, { st with isReading := true })
      else .ok (size,
        splice readBuf 0
          ((bf.buffer.drop offset.toNat).take (min size (bf.buffer.length - offset)).toNat),
        ({ st with isReading := true } : MemoryStorage σ).touch env p pc b bf
          (offset + min size (bf.buffer.length - offset))) := by
  have havail := available_eq h0 h1 hint
  have hmin : (if (bf.buffer.length : ℤ) - offset > size then size
      else (bf.buffer.length : ℤ) - offset) = min size (bf.buffer.length - offset) := by
    split <;> omega
  rw [read_of_complete env h ho hc]
  simp only [havail, hmin]
  by_cases he : offset = bf.buffer.length
  · rw [if_pos (by omega), if_pos he]
  · rw [if_neg (by omega), if_neg he, memcpy_eq (by omega) le_rfl (by omega) h0 (by omega)]
    rfl

end MemoryStorage

end Libtorrent
