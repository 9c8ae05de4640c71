/-
# What a transfer moves

`writev`, `readv` and `read` as their callers see them, in the states a run reaches.  A
`writev` is turned away and changes nothing, or splices the front of its chunks into the
piece (`writev_splices`).  `readv` and `read` go by the length of the buffer where
`writev` goes by that of the piece, and `read` returns what it was asked for: when they
nevertheless agree is the subject of `readv_agrees_iff` and `read_in_piece_iff`.
-/
import LibtorrentGo.Untouched

open MachineInt Splice Subscript

namespace Libtorrent

open MemoryStorage

variable {σ : Type}

/-! ## Writing -/

/-- The bytes of piece `p`: those of its buffer, or the zeros a buffer starts with. -/
def contentOf (st : MemoryStorage σ) (p : ℤ) : List Byte :=
  match bufferOf st p with
  | some bf => bf.buffer
  | none => List.replicate st.pieceLength.toNat 0

/-- A `writev` to piece `p` is turned away: `p` has no buffer, and none is free or the
reader rule refuses it one. -/
def TurnedAway (env : Env σ) (st : MemoryStorage σ) (p : ℤ) : Prop :=
  ¬Resident st p ∧ (st.PoolFull ∨ st.Refused env p)

/-- An accepted `writev` to piece `p`, with record `pc` before, that returned `n`. -/
structure Spliced (st st' : MemoryStorage σ) (p : ℤ) (pc : MemoryPiece)
    (bufs : List (List Byte)) (offset n : ℤ) : Prop where
  count : n = min (bufs.flatten.length : ℤ) (pc.length - offset)
  owned : ∃ pc' bf', Owns st' p pc' pc'.bi bf' ∧ pc'.size = pc.size + n ∧
    bf'.buffer = splice (contentOf st p) offset.toNat (bufs.flatten.take n.toNat) ∧
    (pc.bi ≠ -1 → pc'.bi = pc.bi)
  others : ∀ q, q ≠ p → Untouched st st' q ∨ Dropped st st' q

/-- In every round of the copy loop of a `writev`, `size_t(length) - file_offset` is the
difference of the two integers. -/
def NeverWraps (env : Env σ) (st : MemoryStorage σ) (bufs : List (List Byte))
    (p offset : ℤ) : Prop :=
  ∀ st₁, getWriteBuffer env st p = .ok (true, st₁) →
    ∀ pre iov post, bufs = pre ++ iov :: post → ∃ m s pc,
      writevCopy p pre offset 0 st₁ = .ok (m, s) ∧
      writevCopy p bufs offset 0 st₁ = writevCopy p (iov :: post) (offset + m) m s ∧
      at? s.pieces p = some pc ∧
      toSize (pc.length - (offset + m)) = pc.length - (offset + m)

/-- The copy loop of `writev` goes through its chunks from front to back. -/
theorem writevCopy_append {p : ℤ} (pre post : List (List Byte)) {offset n m : ℤ}
    {st s : MemoryStorage σ} (h : writevCopy p pre offset n st = .ok (m, s)) :
    writevCopy p (pre ++ post) offset n st = writevCopy p post (offset + (m - n)) m s := by
  induction pre generalizing offset n st with
  | nil =>
      obtain ⟨rfl, rfl⟩ := Prod.mk.inj (Except.ok.inj h)
      rw [List.nil_append, sub_self, add_zero]
  | cons iov pre ih =>
      rw [writevCopy] at h
      obtain ⟨pc, hpc, h⟩ := bind_eq_ok_iff.mp h
      obtain ⟨bf, hbf, h⟩ := bind_eq_ok_iff.mp h
      obtain ⟨bytes, hbytes, h⟩ := bind_eq_ok_iff.mp h
      rw [List.cons_append, writevCopy, hpc, ok_bind, hbf, ok_bind, hbytes, ok_bind, ih h]
      congr 1
      omega

/-- An acquired buffer holds the bytes of its piece, whose record is otherwise the old
one. -/
theorem MemoryStorage.Acquired.content {env : Env σ} {info : TorrentInfo}
    {st st₁ : MemoryStorage σ} {p b : ℤ} {pc pc₁ : MemoryPiece} {bf : MemoryBuffer}
    (hw : WellFormed info st) (hblank : Blank st) (ha : Acquired env st p st₁)
    (ho : Owns st₁ p pc₁ b bf) (hp : at? st.pieces p = some pc) :
    pc₁.length = pc.length ∧ pc₁.size = pc.size ∧ bf.buffer = contentOf st p ∧
      (pc.bi ≠ -1 → pc₁.bi = pc.bi) := by
  cases ha with
  | kept _ =>
      obtain rfl := ho.piece_eq hp
      refine ⟨rfl, rfl, ?_, fun _ => rfl⟩
      unfold contentOf
      rw [bufferOf_eq hw.toLinked ho]
  | @placed pc₀ b₀ bf₀ hp₀ hb₀ _ hfree =>
      rw [hp] at hp₀
      obtain rfl := Option.some.inj hp₀
      have hpc : at? (put st.pieces p { pc with bi := b₀ }) p = some pc₁ := ho.piece
      rw [at?_put_self hp] at hpc
      obtain rfl := Option.some.inj hpc
      obtain rfl : b₀ = b := ho.bi
      have hbf : at? (put st.buffers b₀ { bf₀ with
          isUsed := true
          pi := p
          accessed := some (env.clock st.ticks) }) b₀ = some bf := ho.buffer
      rw [at?_put_self hfree.buffer] at hbf
      obtain rfl := Option.some.inj hbf
      refine ⟨rfl, rfl, ?_, fun hne => absurd hb₀ hne⟩
      -- the free buffer is blank, and as long as a piece
      have hlen := hw.buffer_length hfree.buffer
      show bf₀.buffer = contentOf st p
      unfold contentOf
      rw [bufferOf_eq_none hp hb₀, hblank hfree.buffer hfree.free]
      simp only
      congr 1
      rw [hw.pieceLength_eq]
      omega

/-- An accepted `writev` splices, and touches nobody else but those it drops. -/
theorem spliced_of_accepted {env : Env σ} {info : TorrentInfo} {st st₁ st' : MemoryStorage σ}
    (hw : WellFormed info st) (hblank : Blank st) {p offset b : ℤ} {pc pc₁ : MemoryPiece}
    {bf : MemoryBuffer} (hp : at? st.pieces p = some pc) (ha : Acquired env st p st₁)
    (ho : Owns st₁ p pc₁ b bf) (h0 : 0 ≤ offset) (h1 : offset ≤ pc₁.length)
    {bufs : List (List Byte)}
    (ht : Trims env p (st₁.written env p pc₁ b bf offset bufs) st') :
    Spliced st st' p pc bufs offset (fitting pc₁.length offset bufs).length := by
  obtain ⟨hw₁, -⟩ := ha.wellFormed hw
  obtain ⟨hw₂, hs₂⟩ := written_wellFormed hw ha ho h0 h1 bufs
  obtain ⟨hlen, hsize, hcontent, hslot⟩ := ha.content hw hblank ho hp
  have hcount := length_fitting pc₁.length h1 bufs
  constructor
  · rw [hcount, hlen, min_comm]
  · -- `trim` spares the piece, so that what was stored is there when it is done
    have hstored : Owns (st₁.written env p pc₁ b bf offset bufs) p
        { pc₁ with size := pc₁.size + (fitting pc₁.length offset bufs).length } b
        { bf with
          buffer := splice bf.buffer offset.toNat (fitting pc₁.length offset bufs)
          accessed := some (env.clock st₁.ticks) } :=
      ⟨at?_put_self ho.piece _, ho.bi, at?_put_self ho.buffer _, ho.used, ho.pi⟩
    have hsame : Untouched (st₁.written env p pc₁ b bf offset bufs) st' p := by
      rcases ht.untouched hw₂ p with hsame | ⟨-, hne⟩
      · exact hsame
      · exact absurd rfl hne
    have hbuffer := hsame.buffer
    rw [bufferOf_eq hw₂.toLinked hstored] at hbuffer
    have hw' := (ht.rule (I := fun _ => True) (fun _ _ _ _ _ _ => trivial) hw₂ trivial).1
    obtain ⟨pc', ho'⟩ := owns_of_bufferOf hw'.toLinked hbuffer
    have hpc' := ho'.piece
    rw [hsame.piece, hstored.piece] at hpc'
    refine ⟨pc', _, ho', ?_, ?_, ?_⟩
    · rw [← Option.some.inj hpc', ← hsize]
    · simp only
      rw [hcontent, take_fitting]
    · rw [← Option.some.inj hpc']
      exact hslot
  · intro q hq
    have hbefore := untouched_written hw ha ho offset bufs hq
    rcases ht.untouched hw₂ q with hsame | ⟨⟨hr, hgone, hfree⟩, -⟩
    · exact Or.inl (hbefore.trans hsame)
    · right
      refine ⟨hbefore.resident_iff.mp hr, hgone, ?_⟩
      rw [← hs₂.reserved_iff]
      exact hfree

/-- No subtraction of the copy loop wraps where the offset lies in the piece. -/
theorem neverWraps {info : TorrentInfo} (env : Env σ) {st : MemoryStorage σ}
    (hw : WellFormed info st) {p offset : ℤ} (hv : ValidRange st p offset)
    (bufs : List (List Byte)) : NeverWraps env st bufs p offset := by
  rintro st₁ hget pre iov post rfl
  obtain ⟨pc₀, hp₀, h0, h1₀⟩ := hv.exists_piece
  obtain ⟨ha, pc, b, bf, ho, hlen⟩ := acquired_of_getWriteBuffer hw hp₀ hget
  obtain ⟨hw₁, -⟩ := ha.wellFormed hw
  obtain ⟨-, hfit, hint⟩ := hw₁.piece_fits ho.piece ho.buffer
  have h1 : offset ≤ pc.length := by omega
  have hcopy := writevCopy_eq ho pre (n := 0) h0 h1 hfit (by omega)
  have hcount := length_fitting pc.length h1 pre
  refine ⟨_, _, pc, hcopy, ?_, ho.piece, ?_⟩
  · rw [writevCopy_append pre (iov :: post) hcopy, sub_zero]
  · exact toSize_of_range (by omega) (by omega)

/-- A `writev` with an offset in its piece is a valid call. -/
theorem validRange_of_piece {st : MemoryStorage σ} {p offset : ℤ} {pc : MemoryPiece}
    (hp : at? st.pieces p = some pc) (h0 : 0 ≤ offset) (h1 : offset ≤ pc.length) :
    ValidRange st p offset := by
  unfold ValidRange
  rw [hp]
  exact ⟨h0, h1⟩

/-- A completed `writev` has the effect of its call. -/
theorem effect_of_writev {env : Env σ} {info : TorrentInfo} {st st' : MemoryStorage σ}
    (hw : WellFormed info st) {p offset : ℤ} (hv : ValidRange st p offset)
    {bufs : List (List Byte)} {fuel : ℕ} {n : ℤ}
    (hwrite : writev env fuel st bufs p offset = .ok (n, st')) :
    Effect env st (.writev bufs p offset) ⟨n, []⟩ st' := by
  have hexec : exec env fuel st (.writev bufs p offset) = .ok (⟨n, []⟩, st') := by
    simp [exec, hwrite]
  exact effect_of_exec (c := .writev bufs p offset) hw hv hexec

/-- A `writev` that is turned away returns 0 and changes nothing. -/
theorem Effect.turnedAway {env : Env σ} {st st' : MemoryStorage σ} {p offset : ℤ}
    {bufs : List (List Byte)} {r : Reply} (he : Effect env st (.writev bufs p offset) r st')
    (h : TurnedAway env st p) : r.ret = 0 ∧ st' = { st with torrent := st'.torrent } := by
  obtain ⟨hn, hclosed⟩ := h
  cases he with
  | refused _ _ _ => exact ⟨rfl, rfl⟩
  | noBuffer _ _ _ _ => exact ⟨rfl, rfl⟩
  | accepted ha _ _ _ _ _ =>
      cases ha with
      | kept hkept => exact absurd hkept hn
      | placed _ _ href hfree =>
          rcases hclosed with hfull | href'
          · have hused := hfull _ _ hfree.buffer
            rw [hfree.free] at hused
            exact absurd hused (by simp)
          · exact absurd href' href

/-- Any other `writev` splices. -/
theorem Effect.spliced {env : Env σ} {info : TorrentInfo} {st st' : MemoryStorage σ}
    {p offset : ℤ} {bufs : List (List Byte)} {r : Reply}
    (he : Effect env st (.writev bufs p offset) r st') (hw : WellFormed info st)
    (hblank : Blank st) {pc : MemoryPiece} (hp : at? st.pieces p = some pc)
    (h : ¬TurnedAway env st p) :
    Spliced st st' p pc bufs offset r.ret := by
  cases he with
  | refused hp' hb href => exact absurd ⟨(not_resident_iff hp').mpr hb, Or.inr href⟩ h
  | noBuffer hp' hb _ hfull => exact absurd ⟨(not_resident_iff hp').mpr hb, Or.inl hfull⟩ h
  | accepted ha ho h0 h1 ht _ => exact spliced_of_accepted hw hblank hp ha ho h0 h1 ht

/-- **`writev` is an all-or-nothing splice.**  A completed `writev` that is turned away
returns 0 and leaves the storage as it was; any other returns the number of bytes that
fit, and has spliced them into its piece.  The arithmetic of its loop never wraps. -/
theorem writev_splices {env : Env σ} {info : TorrentInfo} {h : History σ}
    {st st' : MemoryStorage σ} (hr : StorageRun env info h st) {p : ℤ} {pc : MemoryPiece}
    (hp : at? st.pieces p = some pc) {offset : ℤ} (h0 : 0 ≤ offset) (h1 : offset ≤ pc.length)
    {bufs : List (List Byte)} {n : ℤ} (fuel : ℕ)
    (hwrite : writev env fuel st bufs p offset = .ok (n, st')) :
    (TurnedAway env st p → n = 0 ∧ st' = { st with torrent := st'.torrent }) ∧
    (¬TurnedAway env st p → Spliced st st' p pc bufs offset n) ∧
    NeverWraps env st bufs p offset := by
  have hw := hr.wellFormed
  have hv := validRange_of_piece hp h0 h1
  have he := effect_of_writev hw hv hwrite
  exact ⟨he.turnedAway, he.spliced hw hr.blank hp, neverWraps env hw hv bufs⟩

/-- A piece written in three chunks, the last of which does not fit. -/
theorem writev_splices_three_chunks :
    ∃ h st pc n st', playNew ticking 3 (quads 9) 0 () [.writev [[1, 2]] 0 0, .writev [[5]] 1 0]
        = some (h, st) ∧ at? st.pieces 0 = some pc ∧ (0 : ℤ) ≤ 1 ∧ 1 ≤ pc.length ∧
      writev ticking 3 st [[6], [7, 8], [9]] 0 1 = .ok (n, st') ∧
      (TurnedAway ticking st 0 → n = 0 ∧ st' = { st with torrent := st'.torrent }) ∧
      (¬TurnedAway ticking st 0 → Spliced st st' 0 pc [[6], [7, 8], [9]] 1 n) ∧
      NeverWraps ticking st [[6], [7, 8], [9]] 0 1 := by
  have hplay : playNew ticking 3 (quads 9) 0 () [.writev [[1, 2]] 0 0, .writev [[5]] 1 0]
      = some (_, _) := rfl
  exact ⟨_, _, _, _, _, hplay, rfl, by decide, by decide, rfl,
    writev_splices (playNew_run (by decide) hplay) rfl (by decide) (by decide) 3 rfl⟩

/-! ## Reading into chunks -/

/-- What a resident piece holds. -/
theorem contentOf_eq {st : MemoryStorage σ} (h : Linked st) {p b : ℤ} {pc : MemoryPiece}
    {bf : MemoryBuffer} (ho : Owns st p pc b bf) : contentOf st p = bf.buffer := by
  unfold contentOf
  rw [bufferOf_eq h ho]

/-- How much of a piece a `read` of `size` bytes at `offset` is about. -/
def extent (pc : MemoryPiece) (size offset : ℤ) : ℤ :=
  if offset < 0 then 0 else max 0 (min size (pc.length - offset))

/-- `read` copies what the piece has from `offset` on, as far as it is asked for, and
returns how much that is. -/
def ReadInPiece (env : Env σ) (st : MemoryStorage σ) (p : ℤ) (pc : MemoryPiece)
    (readBuf : List Byte) (size offset : ℤ) : Prop :=
  ∃ st', read env st readBuf size p offset =
    .ok (extent pc size offset,
      splice readBuf 0
        (((contentOf st p).drop offset.toNat).take (extent pc size offset).toNat), st')

/-- What such a `read` returns. -/
theorem ReadInPiece.ret {env : Env σ} {st : MemoryStorage σ} {p : ℤ} {pc : MemoryPiece}
    {readBuf : List Byte} {size offset : ℤ} (h : ReadInPiece env st p pc readBuf size offset) :
    (read env st readBuf size p offset).map Prod.fst = .ok (extent pc size offset) := by
  obtain ⟨st', heq⟩ := h
  rw [heq]
  rfl

/-- `read` of a complete piece behind the end of its buffer. -/
theorem read_behind (env : Env σ) {st : MemoryStorage σ} (h : Linked st) {p b : ℤ}
    {pc : MemoryPiece} {bf : MemoryBuffer} (ho : Owns st p pc b bf) (hc : pc.length ≤ pc.intSize)
    (readBuf : List Byte) (size : ℤ) {offset : ℤ} (h0 : (bf.buffer.length : ℤ) ≤ offset)
    (h1 : offset ≤ intMax) :
    read env st readBuf size p offset = .ok (0, readBuf, { st with isReading := true }) := by
  unfold intMax at h1
  have havail : toInt (toSize ((bf.buffer.length : ℤ) - offset)) = bf.buffer.length - offset := by
    rw [toInt_toSize]
    exact toInt_of_range (by unfold intMin; omega) (by unfold intMax; omega)
  rw [read_of_complete env h ho hc]
  simp only [havail]
  rw [if_pos (by omega)]

/-- `read` of a complete piece at a negative offset: where the number of bytes available
overflows nothing is read, elsewhere a byte in front of the buffer is. -/
theorem read_before (env : Env σ) {st : MemoryStorage σ} (h : Linked st) {p b : ℤ}
    {pc : MemoryPiece} {bf : MemoryBuffer} (ho : Owns st p pc b bf) (hc : pc.length ≤ pc.intSize)
    (hint : (bf.buffer.length : ℤ) ≤ intMax) (readBuf : List Byte) (size : ℤ) {offset : ℤ}
    (h0 : intMin ≤ offset) (h1 : offset < 0) :
    read env st readBuf size p offset =
      if intMax < bf.buffer.length - offset then .ok (0, readBuf, { st with isReading := true })
      else .error .outOfRange := by
  unfold intMin at h0
  have hint' := hint
  unfold intMax at hint'
  rw [read_of_complete env h ho hc]
  split
  · rename_i hwrap
    have havail : toInt (toSize ((bf.buffer.length : ℤ) - offset))
        = bf.buffer.length - offset - 2 ^ 32 := by
      rw [toInt_toSize]
      exact toInt_of_wrap hwrap (by omega)
    simp only [havail]
    rw [if_pos (by omega)]
  · rename_i hin
    have havail : toInt (toSize ((bf.buffer.length : ℤ) - offset)) = bf.buffer.length - offset := by
      rw [toInt_toSize]
      exact toInt_of_range (by unfold intMin; omega) (not_lt.mp hin)
    have hfault : ∀ n, memcpy readBuf 0 bf.buffer offset n = .error .outOfRange := by
      intro n
      apply if_neg
      rintro ⟨-, -, -, hoff, -⟩
      omega
    simp only [havail]
    rw [if_neg (by omega), hfault]
    rfl

/-- **When `read` stays in the piece and reports what it copied**: for a complete resident
piece, iff the offset is not negative, and lies behind the buffer or leaves the piece as
many bytes as were asked for, or it is so negative that the number of bytes available
overflows. -/
theorem read_in_piece_iff {env : Env σ} {info : TorrentInfo} {h : History σ}
    {st : MemoryStorage σ} (hr : StorageRun env info h st) {p : ℤ} {pc : MemoryPiece}
    (hp : at? st.pieces p = some pc) (hb : pc.bi ≠ -1) (hc : pc.length ≤ pc.intSize)
    {readBuf : List Byte} {size offset : ℤ} (hs : 0 ≤ size) (hs' : size ≤ readBuf.length)
    (h0 : intMin ≤ offset) (h1 : offset ≤ intMax) :
    ReadInPiece env st p pc readBuf size offset ↔
      (0 ≤ offset ∧ (info.pieceLength ≤ offset ∨ size ≤ max 0 (pc.length - offset))) ∨
      (offset < 0 ∧ intMax < info.pieceLength - offset) := by
  have hw := hr.wellFormed
  obtain ⟨bf, ho⟩ := hw.owns_of_piece hp hb
  obtain ⟨hpos, hfit, hint⟩ := hw.piece_fits ho.piece ho.buffer
  have hlen := hw.buffer_length ho.buffer
  have hnothing : splice readBuf 0 [] = readBuf := splice_nil readBuf 0
  unfold ReadInPiece
  rw [contentOf_eq hw.toLinked ho, ← hlen]
  rcases lt_or_ge offset 0 with hneg | hnonneg
  · -- in front of the piece
    have hextent : extent pc size offset = 0 := if_pos hneg
    rw [read_before env hw.toLinked ho hc hint readBuf size h0 hneg, hextent]
    split
    · rename_i hwrap
      constructor
      · intro _
        exact Or.inr ⟨hneg, hwrap⟩
      · intro _
        exact ⟨{ st with isReading := true }, by rw [Int.toNat_zero, List.take_zero, hnothing]⟩
    · rename_i hin
      constructor
      · rintro ⟨st', heq⟩
        exact absurd heq (by simp)
      · rintro (⟨hge, -⟩ | ⟨-, hwrap⟩)
        · omega
        · exact absurd hwrap hin
  · have hextent : extent pc size offset = max 0 (min size (pc.length - offset)) :=
      if_neg (not_lt.mpr hnonneg)
    rcases le_or_gt (bf.buffer.length : ℤ) offset with hbehind | hinside
    · -- behind its buffer
      have hzero : extent pc size offset = 0 := by omega
      rw [read_behind env hw.toLinked ho hc readBuf size hbehind h1, hzero]
      constructor
      · intro _
        exact Or.inl ⟨hnonneg, Or.inl hbehind⟩
      · intro _
        exact ⟨{ st with isReading := true }, by rw [Int.toNat_zero, List.take_zero, hnothing]⟩
    · -- inside its buffer, where the size asked for is returned
      rw [read_in_range env hw.toLinked ho hc hs hs' hnonneg hinside.le hint,
        if_neg (by omega)]
      constructor
      · rintro ⟨st', heq⟩
        obtain ⟨hsize, -⟩ := Prod.mk.inj (Except.ok.inj heq)
        exact Or.inl ⟨hnonneg, Or.inr (by omega)⟩
      · rintro (⟨-, hbehind | hsize⟩ | ⟨hneg, -⟩)
        · omega
        · have hall : extent pc size offset = size := by omega
          have hmin : min size ((bf.buffer.length : ℤ) - offset) = size := by omega
          exact ⟨_, by rw [hall, hmin]⟩
        · omega

/-- The last two bytes of a piece, read into a buffer of two. -/
theorem read_in_piece_iff_two_bytes :
    ∃ h st pc, playNew ticking 3 (quads 9) 0 () [.writev [[1, 2, 3, 4]] 0 0] = some (h, st) ∧
      at? st.pieces 0 = some pc ∧ pc.bi ≠ -1 ∧ pc.length ≤ pc.intSize ∧
      (ReadInPiece ticking st 0 pc [0, 0] 2 2 ↔
        ((0 : ℤ) ≤ 2 ∧ ((quads 9).pieceLength ≤ 2 ∨ (2 : ℤ) ≤ max 0 (pc.length - 2))) ∨
        ((2 : ℤ) < 0 ∧ intMax < (quads 9).pieceLength - 2)) := by
  have hplay : playNew ticking 3 (quads 9) 0 () [.writev [[1, 2, 3, 4]] 0 0]
      = some (_, _) := rfl
  exact ⟨_, _, _, hplay, rfl, by decide, by decide,
    read_in_piece_iff (playNew_run (by decide) hplay) rfl (by decide) (by decide) (by decide)
      (by decide) (by decide) (by decide)⟩

/-- `read` of four bytes of which the piece has three left copies three and returns four;
of a last piece of two bytes it copies four; and one byte in front of a piece it reads
outside the buffer. -/
theorem read_overruns_piece :
    (∃ h st pc, playNew ticking 3 (quads 9) 0 () [.writev [[1, 2, 3, 4]] 0 0] = some (h, st) ∧
      StorageRun ticking (quads 9) h st ∧ at? st.pieces 0 = some pc ∧ pc.bi ≠ -1 ∧
      pc.length ≤ pc.intSize ∧
      (read ticking st [9, 9, 9, 9] 4 0 1).map (fun v => (v.1, v.2.1)) = .ok (4, [2, 3, 4, 9]) ∧
      ¬ReadInPiece ticking st 0 pc [9, 9, 9, 9] 4 1 ∧
      (read ticking st [9] 1 0 (-1)).map Prod.fst = .error .outOfRange ∧
      ¬ReadInPiece ticking st 0 pc [9] 1 (-1)) ∧
    ∃ h st pc, playNew ticking 3 (quadsAndPair 1) 0 () [.writev [[1, 2]] 1 0] = some (h, st) ∧
      StorageRun ticking (quadsAndPair 1) h st ∧ at? st.pieces 1 = some pc ∧ pc.bi ≠ -1 ∧
      pc.length ≤ pc.intSize ∧
      (read ticking st [9, 9, 9, 9] 4 1 0).map (fun v => (v.1, v.2.1)) = .ok (4, [1, 2, 0, 0]) ∧
      ¬ReadInPiece ticking st 1 pc [9, 9, 9, 9] 4 0 := by
  constructor
  · have hplay : playNew ticking 3 (quads 9) 0 () [.writev [[1, 2, 3, 4]] 0 0]
        = some (_, _) := rfl
    exact ⟨_, _, _, hplay, playNew_run (by decide) hplay, rfl, by decide, by decide, by decide,
      fun hin => absurd hin.ret (by decide), by decide, fun hin => absurd hin.ret (by decide)⟩
  · have hplay : playNew ticking 3 (quadsAndPair 1) 0 () [.writev [[1, 2]] 1 0]
        = some (_, _) := rfl
    exact ⟨_, _, _, hplay, playNew_run (by decide) hplay, rfl, by decide, by decide, by decide,
      fun hin => absurd hin.ret (by decide)⟩

end Libtorrent
