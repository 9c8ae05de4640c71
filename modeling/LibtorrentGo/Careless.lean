/-
# Careless callers

Nothing checks the piece and the offset of a call, and `read` is exported to clients.  Here
the calls have any numbers at all: any piece, any offset, any chunks, any size, any bits.
`Call.Leaves` lists the calls that subscript an array or copy a range outside it, and
`leaves_iff` says that the list is complete, in every state that calls with any numbers reach.
Those that stay inside keep the links of the storage and concern the piece they name only
(`careless_isolated`).
-/
import LibtorrentGo.Safety
import LibtorrentGo.Transfers

open MachineInt Splice Subscript

namespace Libtorrent

open MemoryStorage

variable {σ : Type}

/-! ## Copying from any offset -/

/-- A copy to the outside of its array. -/
theorem memcpy_outOfRange {dst src : List Byte} {dstOff srcOff n : ℤ}
    (h : dstOff < 0 ∨ (dst.length : ℤ) < dstOff + n ∨ srcOff < 0 ∨
      (src.length : ℤ) < srcOff + n ∨ n < 0) :
    memcpy dst dstOff src srcOff n = .error .outOfRange := by
  apply if_neg
  rintro ⟨hn, hd, hd', hs, hs'⟩
  omega

/-- The clamp of the copy loop of `writev` behind the end of the piece: the difference wraps,
and the whole chunk is copied. -/
theorem clamp_behind {length offset : ℤ} (h0 : 0 < length) (h1 : length < offset)
    (h2 : offset ≤ intMax) {n : ℕ} (hn : (n : ℤ) ≤ intMax) :
    toInt (min (toSize (length - offset)) n) = n := by
  unfold intMax at h2
  have hn' := hn
  unfold intMax at hn'
  have hwrap : toSize (length - offset) = 2 ^ 64 + (length - offset) := by
    rw [toSize]
    omega
  rw [hwrap, min_eq_right (by omega)]
  exact toInt_of_range (by unfold intMin; omega) hn

namespace MemoryStorage

variable {st : MemoryStorage σ} {p b : ℤ} {pc : MemoryPiece} {bf : MemoryBuffer}

/-- The copy loop of `writev`, one chunk that is in range. -/
theorem writevCopy_cons (ho : Owns st p pc b bf) {iov bytes : List Byte} {offset c : ℤ}
    (hclamp : toInt (min (toSize (pc.length - offset)) iov.length) = c)
    (hcopy : memcpy bf.buffer offset iov 0 c = .ok bytes) (bufs : List (List Byte)) (n : ℤ) :
    writevCopy p (iov :: bufs) offset n st =
      writevCopy p bufs (offset + c) (n + c)
        { st with buffers := put st.buffers b { bf with buffer := bytes } } := by
  have hbi : at? st.buffers pc.bi = some bf := by
    rw [ho.bi]
    exact ho.buffer
  rw [writevCopy]
  simp only [subscript_eq ho.piece, ok_bind, subscript_eq hbi, hclamp, hcopy]
  rw [ho.bi]

/-- The copy loop of `writev`, one chunk that is not. -/
theorem writevCopy_cons_outOfRange (ho : Owns st p pc b bf) {iov : List Byte} {offset : ℤ}
    (hcopy : memcpy bf.buffer offset iov 0
      (toInt (min (toSize (pc.length - offset)) iov.length)) = .error .outOfRange)
    (bufs : List (List Byte)) (n : ℤ) :
    writevCopy p (iov :: bufs) offset n st = .error .outOfRange := by
  have hbi : at? st.buffers pc.bi = some bf := by
    rw [ho.bi]
    exact ho.buffer
  rw [writevCopy]
  simp only [subscript_eq ho.piece, ok_bind, subscript_eq hbi, hcopy]
  rfl

/-- **Behind the end of the piece** nothing is clamped: the copy loop of `writev` copies the
chunks whole, as long as they fit the buffer. -/
theorem writevCopy_behind (ho : Owns st p pc b bf) (hpos : 0 < pc.length)
    (hint : (bf.buffer.length : ℤ) ≤ intMax) {bufs : List (List Byte)}
    (hfits : ∀ iov ∈ bufs, (iov.length : ℤ) ≤ intMax) {offset : ℤ} (n : ℤ)
    (hoff : pc.length < offset) (hle : offset ≤ bf.buffer.length) :
    writevCopy p bufs offset n st =
      if offset + bufs.flatten.length ≤ bf.buffer.length then
        .ok (n + bufs.flatten.length, { st with
          buffers := put st.buffers b
            { bf with buffer := splice bf.buffer offset.toNat bufs.flatten } })
      else .error .outOfRange := by
  induction bufs generalizing offset n st bf with
  | nil =>
      simp only [writevCopy, List.flatten_nil, List.length_nil, Nat.cast_zero, add_zero, if_pos hle,
        splice_nil]
      rw [put_at? ho.buffer]
  | cons iov bufs ih =>
      obtain ⟨hiov, hrest⟩ := List.forall_mem_cons.mp hfits
      have hclamp := clamp_behind hpos hoff (hle.trans hint) hiov
      have htotal : ((iov :: bufs).flatten.length : ℤ) = iov.length + bufs.flatten.length := by
        rw [List.flatten_cons, List.length_append, Nat.cast_add]
      by_cases hin : offset + iov.length ≤ bf.buffer.length
      · have hfit : offset.toNat + iov.length ≤ bf.buffer.length := by omega
        have hcopy : memcpy bf.buffer offset iov 0 iov.length
            = .ok (splice bf.buffer offset.toNat iov) := by
          rw [memcpy_eq (by omega) (by omega) hin le_rfl (by omega), Int.toNat_zero,
            List.drop_zero, Int.toNat_natCast, List.take_length]
        -- the state behind this chunk, in which the piece still owns its buffer
        set bf' : MemoryBuffer := { bf with buffer := splice bf.buffer offset.toNat iov } with hbf'
        have hlen' : bf'.buffer.length = bf.buffer.length := length_splice hfit
        have ho' : Owns { st with buffers := put st.buffers b bf' } p pc b bf' :=
          ⟨ho.piece, ho.bi, at?_put_self ho.buffer bf', ho.used, ho.pi⟩
        have hoff' : (offset + iov.length).toNat = offset.toNat + iov.length := by omega
        rw [writevCopy_cons ho hclamp hcopy, ← hbf',
          ih ho' (hlen' ▸ hint) hrest (n + iov.length) (by omega) (hlen' ▸ hin), hlen', htotal,
          ← add_assoc, ← add_assoc]
        split
        · rename_i hall
          rw [put_put, hbf']
          simp only
          rw [hoff', splice_splice (by omega), List.flatten_cons]
        · rfl
      · rw [if_neg (by omega)]
        refine writevCopy_cons_outOfRange ho ?_ bufs n
        rw [hclamp]
        exact memcpy_outOfRange (Or.inr (Or.inl (by omega)))

/-- The chunks of a `writev` leave the buffer of a piece of the given length. -/
def ChunksLeave (length bufferLength : ℤ) (bufs : List (List Byte)) (offset : ℤ) : Prop :=
  bufs ≠ [] ∧ (offset < 0 ∨ length < offset ∧ bufferLength < offset + bufs.flatten.length)

instance (length bufferLength : ℤ) (bufs : List (List Byte)) (offset : ℤ) :
    Decidable (ChunksLeave length bufferLength bufs offset) :=
  inferInstanceAs (Decidable (_ ∧ _))

/-- **The copy loop of `writev` from any offset** leaves the buffer, or splices some bytes
into it. -/
theorem writevCopy_any (ho : Owns st p pc b bf) (hpos : 0 < pc.length)
    (hlen : pc.length ≤ bf.buffer.length) (hint : (bf.buffer.length : ℤ) ≤ intMax)
    {bufs : List (List Byte)} (hfits : ∀ iov ∈ bufs, (iov.length : ℤ) ≤ intMax) (offset : ℤ) :
    (ChunksLeave pc.length bf.buffer.length bufs offset ∧
      writevCopy p bufs offset 0 st = .error .outOfRange) ∨
    (¬ChunksLeave pc.length bf.buffer.length bufs offset ∧ ∃ (off : ℕ) (bytes : List Byte),
      off + bytes.length ≤ bf.buffer.length ∧
      writevCopy p bufs offset 0 st = .ok ((bytes.length : ℤ), { st with
        buffers := put st.buffers b { bf with buffer := splice bf.buffer off bytes } })) := by
  rcases bufs with - | ⟨iov, bufs⟩
  · right
    refine ⟨fun h => h.1 rfl, 0, [], by simp, ?_⟩
    simp only [writevCopy, splice_nil, List.length_nil, Nat.cast_zero]
    rw [put_at? ho.buffer]
  · by_cases hneg : offset < 0
    · left
      exact ⟨⟨by simp, Or.inl hneg⟩,
        writevCopy_cons_outOfRange ho (memcpy_outOfRange (Or.inl hneg)) bufs 0⟩
    · by_cases hend : offset ≤ pc.length
      · right
        have hl := length_fitting pc.length hend (iov :: bufs)
        refine ⟨by rintro ⟨-, h | h⟩ <;> omega, offset.toNat,
          fitting pc.length offset (iov :: bufs), by omega, ?_⟩
        rw [writevCopy_eq ho _ (by omega) hend hlen (by omega), zero_add]
      · by_cases hbuf : offset ≤ bf.buffer.length
        · have hcopy := writevCopy_behind ho hpos hint hfits 0 (by omega) hbuf
          by_cases hall : offset + (iov :: bufs).flatten.length ≤ bf.buffer.length
          · right
            rw [if_pos hall, zero_add] at hcopy
            exact ⟨by rintro ⟨-, h | h⟩ <;> omega, offset.toNat, _, by omega, hcopy⟩
          · left
            rw [if_neg hall] at hcopy
            exact ⟨⟨by simp, Or.inr ⟨by omega, by omega⟩⟩, hcopy⟩
        · left
          refine ⟨⟨by simp, Or.inr ⟨by omega, by omega⟩⟩, ?_⟩
          apply writevCopy_cons_outOfRange ho
          apply memcpy_outOfRange
          omega

/-- What `writev` does behind its copy loop. -/
theorem writevAccount_spliced (env : Env σ) (ho : Owns st p pc b bf) (off : ℕ)
    (bytes : List Byte) :
    writevAccount env { st with
        buffers := put st.buffers b { bf with buffer := splice bf.buffer off bytes } } p
      (bytes.length : ℤ) = .ok (st.store env p pc b bf off bytes) := by
  obtain ⟨hp, rfl, hb, -, -⟩ := ho
  simp only [writevAccount, subscript_eq hp, ok_bind, subscript_eq (at?_put_self hb _),
    pure_eq_ok, put_put]
  rfl

/-- The copy loop of `readv` from outside the buffer. -/
theorem readvCopy_outOfRange (ho : Owns st p pc b bf) {bufs : List (List Byte)} (hne : bufs ≠ [])
    {offset : ℤ} (hoff : offset < 0 ∨ (bf.buffer.length : ℤ) < offset) (n : ℤ) :
    readvCopy st p bufs offset n = .error .outOfRange := by
  obtain ⟨iov, bufs, rfl⟩ := List.exists_cons_of_ne_nil hne
  have hbi : at? st.buffers pc.bi = some bf := by
    rw [ho.bi]
    exact ho.buffer
  have hcopy : ∀ c : ℤ, memcpy iov 0 bf.buffer offset c = .error .outOfRange := by
    intro c
    apply memcpy_outOfRange
    omega
  rw [readvCopy]
  simp only [subscript_eq ho.piece, ok_bind, subscript_eq hbi, hcopy]
  rfl

end MemoryStorage

/-! ## Calls with any numbers -/

/-- The numbers of a call that the code takes for an `int`: the lengths of the chunks it
copies, and the offset of `read`. -/
def Call.Ints : Call σ → Prop
  | .writev bufs _ _ => ∀ iov ∈ bufs, (iov.length : ℤ) ≤ intMax
  | .read _ _ _ offset => intMin ≤ offset ∧ offset ≤ intMax
  | _ => True

instance : (c : Call σ) → Decidable c.Ints
  | .writev bufs _ _ => inferInstanceAs (Decidable (∀ iov ∈ bufs, (iov.length : ℤ) ≤ intMax))
  | .readv _ _ _ => isTrue trivial
  | .read _ _ _ offset => inferInstanceAs (Decidable (intMin ≤ offset ∧ offset ≤ intMax))
  | .setMemorySize _ => isTrue trivial
  | .updateReaderPieces _ => isTrue trivial
  | .updateReservedPieces _ => isTrue trivial
  | .setTorrentHandle _ => isTrue trivial
  | .outside _ => isTrue trivial

/-- The bits to set are beyond the bit set. -/
def BitsLeave (st : MemoryStorage σ) (pieces : List ℤ) : Prop :=
  ∃ p ∈ pieces, p < 0 ∨ st.pieceCount + 10 ≤ p

/-- A `readv` of a piece leaves its buffer. -/
def ScatterLeaves (pc : MemoryPiece) (bufferLength : ℤ) (bufs : List (List Byte)) (offset : ℤ) :
    Prop :=
  pc.bi ≠ -1 ∧ bufs ≠ [] ∧ (offset < 0 ∨ bufferLength < offset)

/-- A `read` of a piece leaves its buffer or the destination. -/
def ReadLeaves (pc : MemoryPiece) (bufferLength : ℤ) (readBuf : List Byte) (size offset : ℤ) :
    Prop :=
  (pc.bi ≠ -1 ∧ pc.length ≤ pc.intSize) ∧ (offset < bufferLength ∧ bufferLength - offset ≤ intMax) ∧
    (offset < 0 ∨ size < 0 ∨ (readBuf.length : ℤ) < min size (bufferLength - offset))

/-- **The calls that leave an array**: the piece does not exist; or it has or gets a buffer
and the chunks start in front of it, or behind its end and do not fit the buffer; or a complete
piece is read in front of its buffer, for a negative size, or for more than the destination
holds; or the bits are not there. -/
def Call.Leaves (env : Env σ) (st : MemoryStorage σ) : Call σ → Prop
  | .writev bufs p offset =>
      match at? st.pieces p with
      | none => True
      | some pc => ¬TurnedAway env st p ∧ ChunksLeave pc.length st.pieceLength bufs offset
  | .readv bufs p offset =>
      match at? st.pieces p with
      | none => True
      | some pc => ScatterLeaves pc st.pieceLength bufs offset
  | .read readBuf size p offset =>
      match at? st.pieces p with
      | none => True
      | some pc => ReadLeaves pc st.pieceLength readBuf size offset
  | .updateReaderPieces pieces => BitsLeave st pieces
  | .updateReservedPieces pieces => BitsLeave st pieces
  | _ => False

/-- The storage is well formed behind the call, and blank where it was before; the call touched
the piece it names and the pieces it evicted, which are not reserved, and no other piece. -/
structure Contained (info : TorrentInfo) (st st' : MemoryStorage σ) (c : Call σ) : Prop where
  wellFormed : WellFormed info st'
  blank : Blank st → Blank st'
  others : ∀ q, c.piece? ≠ some q → Untouched st st' q ∨ Dropped st st' q

namespace WellFormed

variable {info : TorrentInfo} {st : MemoryStorage σ}

/-- Piece numbers without a record. -/
theorem subscript_none {p : ℤ} (hp : at? st.pieces p = none) :
    subscript st.pieces p = .error .outOfRange := by
  rw [subscript, hp]

/-- **A `writev` with any numbers.** -/
theorem writev_any (h : WellFormed info st) (env : Env σ) {bufs : List (List Byte)}
    (hfits : ∀ iov ∈ bufs, (iov.length : ℤ) ≤ intMax) {p : ℤ} {pc : MemoryPiece}
    (hp : at? st.pieces p = some pc) (offset : ℤ) :
    (TurnedAway env st p ∧ ∀ fuel, writev env fuel st bufs p offset = .ok (0, st) ∨
      writev env fuel st bufs p offset = .ok (0, restorePiece env st p)) ∨
    (¬TurnedAway env st p ∧ ChunksLeave pc.length st.pieceLength bufs offset ∧
      ∀ fuel, writev env fuel st bufs p offset = .error .outOfRange) ∨
    (¬TurnedAway env st p ∧ ¬ChunksLeave pc.length st.pieceLength bufs offset ∧
      ∃ n s, WellFormed info s ∧ (Blank st → Blank s) ∧ SameShape st s ∧
        (∀ q, q ≠ p → Untouched st s q) ∧
        ∀ fuel, writev env fuel st bufs p offset =
          (do
            let st' ← WhileLoop.loop isFull (trimBody env p) .outOfFuel fuel s
            pure (n, st'))) := by
  have hinit : ¬(!st.isInitialized) = true := by simp [h.initialized]
  -- what happens once the piece has its buffer
  have accepts : ∀ {st₁ : MemoryStorage σ} {pc₁ : MemoryPiece} {b : ℤ} {bf : MemoryBuffer},
      getWriteBuffer env st p = .ok (true, st₁) → WellFormed info st₁ → (Blank st → Blank st₁) →
      SameShape st st₁ → (∀ q, q ≠ p → Untouched st st₁ q) → Owns st₁ p pc₁ b bf →
        pc₁.length = pc.length →
      (ChunksLeave pc.length st.pieceLength bufs offset ∧
        ∀ fuel, writev env fuel st bufs p offset = .error .outOfRange) ∨
      (¬ChunksLeave pc.length st.pieceLength bufs offset ∧
        ∃ n s, WellFormed info s ∧ (Blank st → Blank s) ∧ SameShape st s ∧
        (∀ q, q ≠ p → Untouched st s q) ∧
          ∀ fuel, writev env fuel st bufs p offset =
            (do
              let st' ← WhileLoop.loop isFull (trimBody env p) .outOfFuel fuel s
              pure (n, st'))) := by
    intro st₁ pc₁ b bf hget h₁ hb₁ hs₁ hsame ho hlen
    obtain ⟨hpos, hfit, hint⟩ := h₁.piece_fits ho.piece ho.buffer
    have hbuf : (bf.buffer.length : ℤ) = st.pieceLength := by
      rw [h₁.buffer_length ho.buffer, h.pieceLength_eq]
    have hcopy := writevCopy_any ho hpos hfit hint hfits offset
    rw [hlen, hbuf] at hcopy
    rcases hcopy with ⟨hleave, hcopy⟩ | ⟨hstay, off, bytes, hin, hcopy⟩
    · left
      refine ⟨hleave, fun fuel => ?_⟩
      simp only [writev, if_neg hinit, hget, ok_bind, Bool.not_true, Bool.false_eq_true, if_false,
        hcopy, error_bind]
    · right
      have hin' : off + bytes.length ≤ bf.buffer.length := by omega
      refine ⟨hstay, bytes.length, st₁.store env p pc₁ b bf off bytes, h₁.store ho hin',
        fun hblank => (hb₁ hblank).store ho _ _, hs₁.trans (sameShape_store env ho hin'), ?_,
        fun fuel => ?_⟩
      · exact fun q hq => (hsame q hq).trans (.store h₁.toLinked ho _ _ hq)
      · have hcap : 0 ≤ (st₁.store env p pc₁ b bf off bytes).capacity := h₁.capacity_nonneg
        simp only [writev, if_neg hinit, hget, ok_bind, Bool.not_true, Bool.false_eq_true,
          if_false, hcopy, writevAccount_spliced env ho, writevTrim_eq env fuel hcap p]
  rcases getWriteBuffer_cases env h.toLinked hp with
    ⟨hb, hget⟩ | ⟨hb, href, hget⟩ | ⟨hb, href, hfull, hget⟩ | ⟨hb, href, b, bf, hfree, hget⟩
  · right
    have hnot : ¬TurnedAway env st p := fun hta => hta.1 ⟨pc, hp, hb⟩
    obtain ⟨bf, ho⟩ := h.owns_of_piece hp hb
    rcases accepts hget h id (.refl st) (fun q _ => .refl st q) ho rfl with hleave | hstay
    · exact Or.inl ⟨hnot, hleave⟩
    · exact Or.inr ⟨hnot, hstay⟩
  · left
    refine ⟨⟨(not_resident_iff hp).mpr hb, Or.inr href⟩, fun fuel => Or.inr ?_⟩
    simp only [writev, if_neg hinit, hget, ok_bind, Bool.not_false, if_true, pure_eq_ok]
  · left
    refine ⟨⟨(not_resident_iff hp).mpr hb, Or.inl hfull⟩, fun fuel => Or.inl ?_⟩
    simp only [writev, if_neg hinit, hget, ok_bind, Bool.not_false, if_true, pure_eq_ok]
  · right
    have hnot : ¬TurnedAway env st p := by
      rintro ⟨-, hfull | href'⟩
      · exact absurd (hfull b bf hfree.buffer) (by simp [hfree.free])
      · exact href href'
    have ha : Acquired env st p (st.place env p pc b bf (decide (st.Reserved p))) :=
      .placed hp hb href hfree
    obtain ⟨h₁, hs₁⟩ := ha.wellFormed h
    have ho : Owns (st.place env p pc b bf (decide (st.Reserved p))) p { pc with bi := b } b
        { bf with isUsed := true, pi := p, accessed := some (env.clock st.ticks) } :=
      ⟨at?_put_self hp _, rfl, at?_put_self hfree.buffer _, rfl, rfl⟩
    have hsame : ∀ q, q ≠ p →
        Untouched st (st.place env p pc b bf (decide (st.Reserved p))) q :=
      fun q hq => .place h.toLinked hp hb hfree.buffer hfree.free _ hq
    rcases accepts hget h₁ ha.blank hs₁ hsame ho rfl with hleave | hstay
    · exact Or.inl ⟨hnot, hleave⟩
    · exact Or.inr ⟨hnot, hstay⟩

/-- **A `readv` with any numbers.** -/
theorem readv_any (h : WellFormed info st) (env : Env σ) (bufs : List (List Byte)) {p : ℤ}
    {pc : MemoryPiece} (hp : at? st.pieces p = some pc) (offset : ℤ) :
    (ScatterLeaves pc st.pieceLength bufs offset ∧
      readv env st bufs p offset = .error .outOfRange) ∨
    (¬ScatterLeaves pc st.pieceLength bufs offset ∧
      ∃ n out st', readv env st bufs p offset = .ok (n, out, st') ∧ WellFormed info st' ∧
        (Blank st → Blank st') ∧ ∀ q, q ≠ p → Untouched st st' q) := by
  by_cases hb : pc.bi = -1
  · right
    exact ⟨fun hl => hl.1 hb, 0, bufs, st, readv_of_not_resident env h.toLinked hp hb bufs offset,
      h, id, fun q _ => .refl st q⟩
  · obtain ⟨bf, ho⟩ := h.owns_of_piece hp hb
    have hbuf : (bf.buffer.length : ℤ) = st.pieceLength := by
      rw [h.buffer_length ho.buffer, h.pieceLength_eq]
    have hinit : ¬(!st.isInitialized) = true := by simp [h.initialized]
    have hbuffered : pc.isBuffered = true := by simp [MemoryPiece.isBuffered, hb]
    by_cases hleave : bufs ≠ [] ∧ (offset < 0 ∨ st.pieceLength < offset)
    · left
      refine ⟨⟨hb, hleave⟩, ?_⟩
      have hcopy := readvCopy_outOfRange ho hleave.1 (hbuf ▸ hleave.2) 0
      simp only [readv, if_neg hinit, getReadBuffer_eq env hp, hbuffered, ok_bind, Bool.not_true,
        Bool.false_eq_true, if_false, hcopy, error_bind]
    · right
      refine ⟨fun hl => hleave hl.2, ?_⟩
      -- no chunks, or an offset inside the buffer
      obtain ⟨n, out, hcopy⟩ : ∃ n out, readvCopy st p bufs offset 0 = .ok (n, out) := by
        rcases bufs with - | ⟨iov, bufs⟩
        · exact ⟨0, [], rfl⟩
        · have hin : ¬(offset < 0 ∨ st.pieceLength < offset) :=
            fun hoff => hleave ⟨by simp, hoff⟩
          have hint := (h.piece_fits hp ho.buffer).2.2
          exact ⟨_, _, readvCopy_eq ho (by omega) (by omega) hint⟩
      refine ⟨n, out, st.touch env p pc pc.bi bf (offset + n), ?_, h.touch ho _,
        fun hblank => hblank.touch ho _, fun q hq => .touch h.toLinked ho _ hq⟩
      simp only [readv, if_neg hinit, getReadBuffer_eq env hp, hbuffered, ok_bind, Bool.not_true,
        Bool.false_eq_true, if_false, hcopy, finishRead_eq env ho, pure_eq_ok]

/-- **A `read` with any numbers.** -/
theorem read_any (h : WellFormed info st) (env : Env σ) (readBuf : List Byte) (size : ℤ) {p : ℤ}
    {pc : MemoryPiece} (hp : at? st.pieces p = some pc) {offset : ℤ} (h0 : intMin ≤ offset)
    (h1 : offset ≤ intMax) :
    (ReadLeaves pc st.pieceLength readBuf size offset ∧
      read env st readBuf size p offset = .error .outOfRange) ∨
    (¬ReadLeaves pc st.pieceLength readBuf size offset ∧
      ∃ n out st', read env st readBuf size p offset = .ok (n, out, st') ∧ WellFormed info st' ∧
        (Blank st → Blank st') ∧ ∀ q, q ≠ p → Untouched st st' q) := by
  have hread := h.withTorrent st.torrent st.mHandle st.t true
  by_cases hinc : pc.bi = -1 ∨ pc.intSize < pc.length
  · right
    refine ⟨fun hl => hinc.elim hl.1.1 (not_lt.mpr hl.1.2), _, _, _,
      read_of_incomplete env h.toLinked hp hinc readBuf size offset,
      h.withTorrent _ st.mHandle st.t true, fun hblank => hblank.frame rfl,
      fun q _ => .of_eq rfl rfl⟩
  · obtain ⟨hb, hc⟩ := not_or.mp hinc
    obtain ⟨bf, ho⟩ := h.owns_of_piece hp hb
    have hbuf : (bf.buffer.length : ℤ) = st.pieceLength := by
      rw [h.buffer_length ho.buffer, h.pieceLength_eq]
    have hint := (h.piece_fits hp ho.buffer).2.2
    unfold intMin at h0
    unfold intMax at h1
    have hint' := hint
    unfold intMax at hint'
    rw [read_of_complete env h.toLinked ho (not_lt.mp hc), hbuf]
    by_cases hwrap : intMax < st.pieceLength - offset
    · -- the number of bytes available overflows
      have havail :
          toInt (toSize (st.pieceLength - offset)) = st.pieceLength - offset - 2 ^ 32 := by
        rw [toInt_toSize]
        exact toInt_of_wrap hwrap (by omega)
      right
      refine ⟨fun hl => absurd hl.2.1.2 (not_le.mpr hwrap), 0, readBuf,
        { st with isReading := true }, ?_, hread, fun hblank => hblank.frame rfl,
        fun q _ => .of_eq rfl rfl⟩
      simp only [havail]
      rw [if_pos (by omega)]
    · have havail : toInt (toSize (st.pieceLength - offset)) = st.pieceLength - offset := by
        rw [toInt_toSize]
        exact toInt_of_range (by unfold intMin; omega) (not_lt.mp hwrap)
      have hmin : (if st.pieceLength - offset > size then size else st.pieceLength - offset)
          = min size (st.pieceLength - offset) := by
        split <;> omega
      simp only [havail, hmin]
      by_cases hend : st.pieceLength ≤ offset
      · right
        refine ⟨fun hl => absurd hl.2.1.1 (not_lt.mpr hend), 0, readBuf,
          { st with isReading := true }, ?_, hread, fun hblank => hblank.frame rfl,
        fun q _ => .of_eq rfl rfl⟩
        rw [if_pos (by omega)]
      · rw [if_neg (by omega)]
        by_cases hout : offset < 0 ∨ size < 0 ∨
            (readBuf.length : ℤ) < min size (st.pieceLength - offset)
        · left
          refine ⟨⟨⟨hb, not_lt.mp hc⟩, ⟨by omega, by omega⟩, hout⟩, ?_⟩
          rw [memcpy_outOfRange (by omega)]
          rfl
        · right
          have ho' : Owns ({ st with isReading := true } : MemoryStorage σ) p pc pc.bi bf :=
            ho.frame rfl rfl
          have hsame : ∀ q, Untouched st ({ st with isReading := true } : MemoryStorage σ) q :=
            fun q => .of_eq rfl rfl
          have hcopy : memcpy readBuf 0 bf.buffer offset (min size (st.pieceLength - offset))
              = .ok _ := memcpy_eq (by omega) le_rfl (by omega) (by omega) (by omega)
          rw [hcopy]
          have hblank : Blank st → Blank ({ st with isReading := true } : MemoryStorage σ) :=
            fun hb => hb.frame rfl
          exact ⟨fun hl => hout hl.2.2, size, _, _, rfl, hread.touch ho' _,
            fun hb => (hblank hb).touch ho' _,
            fun q hq => (hsame q).trans (.touch hread.toLinked ho' _ hq)⟩

/-- **Setting bits** leaves the bit set iff one of them is not there. -/
theorem setBits_outOfRange_iff {bits : List Bool} {pieces : List ℤ} :
    setBits bits pieces = .error .outOfRange ↔ ∃ p ∈ pieces, p < 0 ∨ (bits.length : ℤ) ≤ p := by
  induction pieces generalizing bits with
  | nil => simp [setBits]
  | cons q pieces ih =>
      rw [List.exists_mem_cons_iff]
      cases hq : at? bits q with
      | none =>
          have hout := at?_eq_none_iff.mp hq
          simp [setBits, subscript, hq, hout]
      | some r =>
          have hbounds := at?_eq_some_bounds hq
          rw [setBits, subscript_eq hq, ok_bind, ih, length_put]
          constructor
          · exact Or.inr
          · rintro (hout | hrest)
            · omega
            · exact hrest

/-- Setting bits does nothing worse than that. -/
theorem setBits_returns {bits : List Bool} {pieces : List ℤ}
    (hne : setBits bits pieces ≠ .error .outOfRange) :
    ∃ bits', setBits bits pieces = .ok bits' ∧ bits'.length = bits.length := by
  have hin : ∀ p ∈ pieces, 0 ≤ p ∧ p < bits.length := by
    intro p hp
    by_contra hout
    exact hne (setBits_outOfRange_iff.mpr ⟨p, hp, by omega⟩)
  obtain ⟨bits', heq, hlen, -⟩ := setBits_eq_ok hin
  exact ⟨bits', heq, hlen⟩

end WellFormed

/-! ## Every call -/

/-- The call leaves an array if it is listed, and is contained if it is not. -/
def Foreseen (env : Env σ) (info : TorrentInfo) (fuel : ℕ) (st : MemoryStorage σ) (c : Call σ) :
    Prop :=
  (c.Leaves env st ∧ exec env fuel st c = .error .outOfRange) ∨
  (¬c.Leaves env st ∧ exec env fuel st c ≠ .error .outOfRange ∧
    ∀ r st', exec env fuel st c = .ok (r, st') → Contained info st st' c)

variable {env : Env σ} {info : TorrentInfo} {fuel : ℕ} {st : MemoryStorage σ}

/-- A call that is not listed and returns. -/
theorem foreseen_of_returns {c : Call σ} {r : Reply} {s : MemoryStorage σ}
    (hl : ¬c.Leaves env st) (heq : exec env fuel st c = .ok (r, s))
    (hcontained : Contained info st s c) : Foreseen env info fuel st c := by
  right
  refine ⟨hl, by simp [heq], fun r' st' heq' => ?_⟩
  rw [heq] at heq'
  obtain ⟨-, rfl⟩ := Prod.mk.inj (Except.ok.inj heq')
  exact hcontained

/-- A call about piece `p` that touches no other piece. -/
theorem contained_of_piece {c : Call σ} {p : ℤ} {s : MemoryStorage σ} (hpiece : c.piece? = some p)
    (hw : WellFormed info s) (hblank : Blank st → Blank s)
    (hsame : ∀ q, q ≠ p → Untouched st s q) : Contained info st s c where
  wellFormed := hw
  blank := hblank
  others := by
    intro q hq
    left
    apply hsame
    rintro rfl
    exact hq hpiece

/-- A `writev`. -/
theorem foreseen_writev (h : WellFormed info st) {bufs : List (List Byte)}
    (hfits : ∀ iov ∈ bufs, (iov.length : ℤ) ≤ intMax) (p offset : ℤ) :
    Foreseen env info fuel st (.writev bufs p offset) := by
  cases hp : at? st.pieces p with
  | none =>
      left
      refine ⟨by simp [Call.Leaves, hp], ?_⟩
      simp [exec, writev, h.initialized, getWriteBuffer, getBuffer, WellFormed.subscript_none hp]
  | some pc =>
      rcases h.writev_any env hfits hp offset with
        ⟨hta, heq⟩ | ⟨hta, hleave, heq⟩ | ⟨hta, hstay, n, s, hs, hblank, hshape, hsame, heq⟩
      · have hnot : ¬Call.Leaves env st (.writev bufs p offset) := by
          simp [Call.Leaves, hp, hta]
        rcases heq fuel with heq | heq
        · exact foreseen_of_returns hnot (r := ⟨0, []⟩) (by rw [exec, heq]; rfl)
            (contained_of_piece rfl h id fun q _ => .refl st q)
        · rw [restorePiece_eq] at heq
          refine foreseen_of_returns (r := ⟨0, []⟩)
            (s := { st with torrent := restoredTorrent env st p }) hnot ?_
            (contained_of_piece rfl (h.withTorrent _ st.mHandle st.t st.isReading)
              (fun hblank => hblank.frame rfl) fun q _ => .of_eq rfl rfl)
          rw [exec, heq]
          rfl
      · left
        refine ⟨by simp [Call.Leaves, hp, hta, hleave], ?_⟩
        rw [exec, heq]
        rfl
      · right
        have hloop := loop_ne_outOfRange env p hs.toLinked fuel
        refine ⟨by simp [Call.Leaves, hp, hstay], ?_, ?_⟩
        · cases hrun : WhileLoop.loop isFull (trimBody env p) .outOfFuel fuel s with
          | ok t => simp [exec, heq, hrun]
          | error e =>
              rw [hrun] at hloop
              simpa [exec, heq, hrun] using hloop
        · intro r st' hexec
          obtain ⟨⟨m, t⟩, hw, hpair⟩ := bind_eq_ok_iff.mp hexec
          obtain ⟨rfl, rfl⟩ := Prod.mk.inj (Except.ok.inj hpair)
          rw [heq] at hw
          obtain ⟨t', hrun, hpair⟩ := bind_eq_ok_iff.mp hw
          obtain ⟨rfl, rfl⟩ := Prod.mk.inj (Except.ok.inj hpair)
          obtain ⟨htrims, -⟩ := trims_of_loop hs.toLinked hrun
          refine ⟨(htrims.rule (I := fun _ => True) (fun _ _ _ _ _ _ => trivial) hs trivial).1,
            fun hb => (htrims.rule (fun _ _ _ hb _ hround => hround.blank hb) hs (hblank hb)).2,
            fun q hq => ?_⟩
          have hbefore := hsame q fun heq => hq (congrArg some heq.symm)
          rcases htrims.untouched hs q with hkept | ⟨⟨hr, hgone, hfree⟩, -⟩
          · exact Or.inl (hbefore.trans hkept)
          · right
            exact ⟨hbefore.resident_iff.mp hr, hgone,
              fun hres => hfree ((hshape.reserved_iff q).mpr hres)⟩

/-- A `readv`. -/
theorem foreseen_readv (h : WellFormed info st) (bufs : List (List Byte)) (p offset : ℤ) :
    Foreseen env info fuel st (.readv bufs p offset) := by
  cases hp : at? st.pieces p with
  | none =>
      left
      refine ⟨by simp [Call.Leaves, hp], ?_⟩
      simp [exec, readv, h.initialized, getReadBuffer, getBuffer, WellFormed.subscript_none hp]
  | some pc =>
      rcases h.readv_any env bufs hp offset with
        ⟨hleave, heq⟩ | ⟨hstay, n, out, st', heq, hw, hblank, hsame⟩
      · left
        refine ⟨by simp [Call.Leaves, hp, hleave], ?_⟩
        rw [exec, heq]
        rfl
      · exact foreseen_of_returns (r := ⟨n, out⟩) (by simp [Call.Leaves, hp, hstay])
          (by rw [exec, heq]; rfl) (contained_of_piece rfl hw hblank hsame)

/-- A `read`. -/
theorem foreseen_read (h : WellFormed info st) (readBuf : List Byte) (size p : ℤ) {offset : ℤ}
    (h0 : intMin ≤ offset) (h1 : offset ≤ intMax) :
    Foreseen env info fuel st (.read readBuf size p offset) := by
  cases hp : at? st.pieces p with
  | none =>
      left
      refine ⟨by simp [Call.Leaves, hp], ?_⟩
      simp [exec, MemoryStorage.read, h.initialized, getReadBuffer, getBuffer,
        WellFormed.subscript_none hp]
  | some pc =>
      rcases h.read_any env readBuf size hp h0 h1 with
        ⟨hleave, heq⟩ | ⟨hstay, n, out, st', heq, hw, hblank, hsame⟩
      · left
        refine ⟨by simp [Call.Leaves, hp, hleave], ?_⟩
        rw [exec, heq]
        rfl
      · exact foreseen_of_returns (r := ⟨n, [out]⟩) (by simp [Call.Leaves, hp, hstay])
          (by rw [exec, heq]; rfl) (contained_of_piece rfl hw hblank hsame)

/-- Bits that are all there are set. -/
theorem bits_of_not_leave {bits : List Bool} (hlen : (bits.length : ℤ) = st.pieceCount + 10)
    (pieces : List ℤ) :
    (BitsLeave st pieces ∧
      setBits (List.replicate bits.length false) pieces = .error .outOfRange) ∨
    (¬BitsLeave st pieces ∧ ∃ bits', setBits (List.replicate bits.length false) pieces = .ok bits' ∧
      bits'.length = bits.length) := by
  have hiff : BitsLeave st pieces ↔
      setBits (List.replicate bits.length false) pieces = .error .outOfRange := by
    rw [WellFormed.setBits_outOfRange_iff, List.length_replicate, hlen]
    rfl
  by_cases hl : BitsLeave st pieces
  · exact Or.inl ⟨hl, hiff.mp hl⟩
  · right
    obtain ⟨bits', heq, hlen'⟩ := WellFormed.setBits_returns fun herr => hl (hiff.mpr herr)
    rw [List.length_replicate] at hlen'
    exact ⟨hl, bits', heq, hlen'⟩

/-- **Every call with any numbers** leaves an array if it is listed, and is contained if not. -/
theorem WellFormed.foreseen (h : WellFormed info st) {c : Call σ} (hc : c.Ints) (fuel : ℕ) :
    Foreseen env info fuel st c := by
  have hinit : ¬(!st.isInitialized) = true := by simp [h.initialized]
  cases c with
  | writev bufs p offset => exact foreseen_writev h hc p offset
  | readv bufs p offset => exact foreseen_readv h bufs p offset
  | read readBuf size p offset => exact foreseen_read h readBuf size p hc.1 hc.2
  | setMemorySize s =>
      right
      refine ⟨id, h.inRange (.setMemorySize s) fuel trivial, fun r st' heq => ?_⟩
      have he := effect_of_exec h (c := .setMemorySize s) trivial heq
      exact ⟨he.wellFormed h, he.blank h, fun q hq => he.untouched h hq⟩
  | updateReaderPieces pieces =>
      rcases bits_of_not_leave h.readers_length pieces with ⟨hl, heq⟩ | ⟨hl, bits, heq, hlen⟩
      · left
        refine ⟨hl, ?_⟩
        simp [exec, MemoryStorage.updateReaderPieces, h.initialized, heq]
      · refine foreseen_of_returns (r := .none) (s := { st with readerPieces := bits }) hl ?_
          ⟨h.withBits hlen rfl st.bufferReserved, fun hblank => hblank.frame rfl,
            fun q _ => Or.inl (.of_eq rfl rfl)⟩
        rw [exec, MemoryStorage.updateReaderPieces, if_neg hinit, heq]
        rfl
  | updateReservedPieces pieces =>
      rcases bits_of_not_leave h.reserved_length pieces with ⟨hl, heq⟩ | ⟨hl, bits, heq, hlen⟩
      · left
        refine ⟨hl, ?_⟩
        simp [exec, MemoryStorage.updateReservedPieces, h.initialized, heq]
      · refine foreseen_of_returns (r := .none)
          (s := { st with reservedPieces := bits, bufferReserved := pieces.length }) hl ?_
          ⟨h.withBits rfl hlen _, fun hblank => hblank.frame rfl,
            fun q _ => Or.inl (.of_eq rfl rfl)⟩
        rw [exec, MemoryStorage.updateReservedPieces, if_neg hinit, heq]
        rfl
  | setTorrentHandle t =>
      exact foreseen_of_returns (r := .none) (s := st.setTorrentHandle t) id rfl
        ⟨h.withTorrent st.torrent true _ st.isReading, fun hblank => hblank.frame rfl,
          fun q _ => Or.inl (.of_eq rfl rfl)⟩
  | outside torrent =>
      exact foreseen_of_returns (r := .none) (s := { st with torrent := torrent }) id rfl
        ⟨h.withTorrent _ st.mHandle st.t st.isReading, fun hblank => hblank.frame rfl,
          fun q _ => Or.inl (.of_eq rfl rfl)⟩

/-! ## Runs of calls with any numbers -/

/-- A call with any numbers that completes with a reply. -/
def CarelessStep (env : Env σ) (st : MemoryStorage σ) (l : Call σ × Reply)
    (st' : MemoryStorage σ) : Prop :=
  l.1.Ints ∧ ∃ fuel, exec env fuel st l.1 = .ok (l.2, st')

/-- A constructed storage and the calls with any numbers it completed. -/
abbrev CarelessRun (env : Env σ) (info : TorrentInfo) : History σ → MemoryStorage σ → Prop :=
  Runs.Run (Init info) (CarelessStep env)

/-- A completed call is contained. -/
theorem contained_of_step {st' : MemoryStorage σ} {l : Call σ × Reply} (h : WellFormed info st)
    (hs : CarelessStep env st l st') : Contained info st st' l.1 := by
  obtain ⟨hc, fuel, heq⟩ := hs
  have hforeseen : Foreseen env info fuel st l.1 := h.foreseen hc fuel
  rcases hforeseen with ⟨-, herr⟩ | ⟨-, -, hall⟩
  · rw [heq] at herr
    exact absurd herr (by simp)
  · exact hall l.2 st' heq

/-- Whatever the numbers, the storage stays well formed. -/
theorem CarelessRun.wellFormed {h : History σ} (hr : CarelessRun env info h st) :
    WellFormed info st :=
  Runs.Run.invariant (I := WellFormed info) (fun _ h0 => h0.wellFormed)
    (fun _ _ _ hw hs => (contained_of_step hw hs).wellFormed) hr

/-- What is not in use is blank. -/
theorem CarelessRun.blank {h : History σ} (hr : CarelessRun env info h st) : Blank st := by
  induction hr with
  | start h0 => exact h0.blank
  | next hrun hs ih => exact (contained_of_step (CarelessRun.wellFormed hrun) hs).blank ih

end Libtorrent
