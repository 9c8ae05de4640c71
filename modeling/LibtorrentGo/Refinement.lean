/-
# The storage refines the cache

`Represents C st` says that the lines of the cache `C` are the pieces the storage `st` holds,
with their bytes and sizes, in the order in which their buffers were accessed; which buffer
a piece has, and at what time it was accessed, the cache does not say.  Each update of the
storage is one of the cache (`Represents.place`, `.store`, `.touch`, `.evict`), and so is each
call (`Represents.exec`).

As a consequence a storage answers its calls as the cache does (`storage_refines_cache`).
-/
import LibtorrentGo.Cache
import LibtorrentGo.Lru

open MachineInt Splice Subscript

namespace Libtorrent

open MemoryStorage

variable {σ : Type}

/-! ## Lines of a storage -/

/-- What the storage holds of piece `p`. -/
def lineOf (st : MemoryStorage σ) (p : ℤ) : Option Line :=
  (at? st.pieces p).bind fun pc => (bufferOf st p).map fun bf => ⟨p, bf.buffer, pc.size⟩

/-- The line of a piece that owns a buffer. -/
theorem lineOf_eq {st : MemoryStorage σ} (h : Linked st) {p b : ℤ} {pc : MemoryPiece}
    {bf : MemoryBuffer} (ho : Owns st p pc b bf) :
    lineOf st p = some ⟨p, bf.buffer, pc.size⟩ := by
  rw [lineOf, ho.piece, bufferOf_eq h ho]
  rfl

/-- A piece that owns no buffer has no line. -/
theorem lineOf_eq_none {st : MemoryStorage σ} {p : ℤ} {pc : MemoryPiece}
    (hp : at? st.pieces p = some pc) (hb : pc.bi = -1) : lineOf st p = none := by
  rw [lineOf, hp, bufferOf_eq_none hp hb]
  rfl

/-- The resident pieces have lines. -/
theorem lineOf_isSome_iff {st : MemoryStorage σ} (h : Linked st) (p : ℤ) :
    (lineOf st p).isSome = true ↔ Resident st p := by
  constructor
  · intro hs
    rw [resident_iff h]
    unfold lineOf at hs
    cases hp : at? st.pieces p with
    | none => simp [hp] at hs
    | some pc =>
        rw [hp] at hs
        simpa using hs
  · intro hr
    obtain ⟨pc, bf, ho⟩ := hr.owns h
    rw [lineOf_eq h ho]
    rfl

/-- An untouched piece has the line it had. -/
theorem Untouched.lineOf_eq {st st' : MemoryStorage σ} {q : ℤ} (h : Untouched st st' q) :
    lineOf st' q = lineOf st q := by
  rw [lineOf, h.piece, h.buffer]
  rfl

/-- An untouched piece has the stamp it had. -/
theorem Untouched.stamp_eq {st st' : MemoryStorage σ} {q : ℤ} (h : Untouched st st' q) :
    stamp st' q = stamp st q := by
  unfold stamp
  rw [h.buffer]

/-! ## The relation -/

/-- The cache `C` holds what the storage `st` holds, in the order of the last accesses. -/
structure Represents (C : Cache σ) (st : MemoryStorage σ) : Prop where
  lines : ∀ p, C.line p = lineOf st p
  sorted : Recency.Sorted (stamp st) (C.lines.map Line.piece)
  count : C.lines.length = usedBuffers st
  reserved : ∀ p, p ∈ C.reserved ↔ st.Reserved p
  capacity : C.capacity = st.capacity
  places : C.places = st.bufferSize
  used : C.used = st.bufferUsed
  limit : C.limit = st.bufferLimit
  isReading : C.isReading = st.isReading
  mHandle : C.mHandle = st.mHandle
  t : C.t = st.t
  torrent : C.torrent = st.torrent

namespace Represents

variable {env : Env σ} {info : TorrentInfo} {C : Cache σ} {st : MemoryStorage σ}

/-- The pieces of the lines are the resident ones. -/
theorem mem_iff (hC : Represents C st) (h : Linked st) (p : ℤ) :
    p ∈ C.lines.map Line.piece ↔ Resident st p := by
  rw [← Shelf.find_isSome_iff, ← lineOf_isSome_iff h, ← hC.lines]
  rfl

/-- What is neither a piece nor a buffer may change on both sides alike. -/
theorem frame (hC : Represents C st) {C' : Cache σ} {st' : MemoryStorage σ}
    (hlines : C'.lines = C.lines) (hp : st'.pieces = st.pieces) (hb : st'.buffers = st.buffers)
    (hreserved : ∀ p, p ∈ C'.reserved ↔ st'.Reserved p) (hcapacity : C'.capacity = st'.capacity)
    (hplaces : C'.places = st'.bufferSize) (hused : C'.used = st'.bufferUsed)
    (hlimit : C'.limit = st'.bufferLimit) (hreading : C'.isReading = st'.isReading)
    (hhandle : C'.mHandle = st'.mHandle) (ht : C'.t = st'.t) (htorrent : C'.torrent = st'.torrent) :
    Represents C' st' where
  lines := by
    intro p
    have hsame : Untouched st st' p := .of_eq hp hb
    rw [Cache.line, hlines, hsame.lineOf_eq]
    exact hC.lines p
  sorted := by
    rw [hlines]
    apply hC.sorted.congr
    intro q _
    exact Untouched.stamp_eq (.of_eq hp hb)
  count := by
    rw [hlines, hC.count, usedBuffers, usedBuffers, hb]
  reserved := hreserved
  capacity := hcapacity
  places := hplaces
  used := hused
  limit := hlimit
  isReading := hreading
  mHandle := hhandle
  t := ht
  torrent := htorrent

/-- Time may pass. -/
theorem wait (hC : Represents C st) (n : ℕ) : Represents C (st.wait n) :=
  hC.frame rfl rfl rfl hC.reserved hC.capacity hC.places hC.used hC.limit hC.isReading hC.mHandle
    hC.t hC.torrent

/-- A restored piece concerns the torrent only. -/
theorem restore (hC : Represents C st) (p : ℤ) :
    Represents (C.restore env.handle p) { st with torrent := restoredTorrent env st p } := by
  have htorrent : (C.restore env.handle p).torrent = restoredTorrent env st p := by
    unfold Cache.restore restoredTorrent
    rw [hC.mHandle, hC.t, ← hC.torrent]
    split <;> rfl
  unfold Cache.restore at htorrent ⊢
  split at htorrent
  · rename_i hnone
    rw [if_pos hnone]
    exact hC.frame rfl rfl rfl hC.reserved hC.capacity hC.places hC.used hC.limit hC.isReading
      hC.mHandle hC.t htorrent
  · rename_i hsome
    rw [if_neg hsome]
    exact hC.frame rfl rfl rfl hC.reserved hC.capacity hC.places hC.used hC.limit hC.isReading
      hC.mHandle hC.t htorrent

/-- A reading has begun. -/
theorem reading (hC : Represents C st) :
    Represents { C with isReading := true } { st with isReading := true } :=
  hC.frame rfl rfl rfl hC.reserved hC.capacity hC.places hC.used hC.limit rfl hC.mHandle hC.t
    hC.torrent

/-- The resident pieces were accessed before now. -/
theorem stamp_lt (hC : Represents C st) (h : Linked st) (hclock : StrictMono env.clock)
    (hs : Stamped env st) {q : ℤ} (hq : q ∈ C.lines.map Line.piece) :
    stamp st q < env.clock st.ticks := by
  obtain ⟨n, hn, heq⟩ := hs.stamp_eq h ((hC.mem_iff h q).mp hq)
  rw [heq]
  exact hclock hn

/-- **Rewriting the record of one piece and its buffer**, accessed now, is keeping a line. -/
theorem keep (hC : Represents C st) (h : Linked st) (hclock : StrictMono env.clock)
    (hs : Stamped env st) {st' : MemoryStorage σ} {l : Line}
    (hline : lineOf st' l.piece = some l) (hstamp : stamp st' l.piece = env.clock st.ticks)
    (hothers : ∀ q, q ≠ l.piece → Untouched st st' q)
    (hcount : usedBuffers st' = (Shelf.keep Line.piece l C.lines).length) {C' : Cache σ}
    (hlines : C'.lines = Shelf.keep Line.piece l C.lines)
    (hreserved : ∀ p, p ∈ C'.reserved ↔ st'.Reserved p) (hcapacity : C'.capacity = st'.capacity)
    (hplaces : C'.places = st'.bufferSize) (hused : C'.used = st'.bufferUsed)
    (hlimit : C'.limit = st'.bufferLimit) (hreading : C'.isReading = st'.isReading)
    (hhandle : C'.mHandle = st'.mHandle) (ht : C'.t = st'.t) (htorrent : C'.torrent = st'.torrent) :
    Represents C' st' where
  lines := by
    intro q
    rw [Cache.line, hlines, Shelf.find_keep]
    by_cases hq : q = l.piece
    · rw [if_pos hq, hq, hline]
    · rw [if_neg hq, (hothers q hq).lineOf_eq]
      exact hC.lines q
  sorted := by
    rw [hlines, Shelf.map_keep]
    apply hC.sorted.moveToEnd
    · intro q _ hq
      exact (hothers q hq).stamp_eq
    · intro q hmem _
      rw [hstamp]
      exact hC.stamp_lt h hclock hs hmem
  count := by rw [hlines, hcount]
  reserved := hreserved
  capacity := hcapacity
  places := hplaces
  used := hused
  limit := hlimit
  isReading := hreading
  mHandle := hhandle
  t := ht
  torrent := htorrent

/-! ## Updates -/

/-- A line that is kept in the place of another leaves the count. -/
theorem length_keep (hC : Represents C st) (h : Linked st) {p b : ℤ} {pc : MemoryPiece}
    {bf : MemoryBuffer} (ho : Owns st p pc b bf) {l : Line} (hl : l.piece = p) :
    (Shelf.keep Line.piece l C.lines).length = usedBuffers st := by
  rw [← hC.count]
  apply Shelf.length_keep hC.sorted.nodup
  rw [hl]
  exact (hC.mem_iff h p).mpr (ho.resident h)

/-- Placing a piece is admitting it. -/
theorem place (hC : Represents C st) (hw : WellFormed info st) (hblank : Blank st)
    (hclock : StrictMono env.clock) (hs : Stamped env st) {p b : ℤ} {pc : MemoryPiece}
    {bf : MemoryBuffer} (hp : at? st.pieces p = some pc) (hpb : pc.bi = -1)
    (hb : at? st.buffers b = some bf) (hu : bf.isUsed = false) :
    Represents (C.letIn info p) (st.place env p pc b bf (decide (st.Reserved p))) := by
  have h := hw.toLinked
  have hnot : p ∉ C.lines.map Line.piece := by
    rw [hC.mem_iff h]
    exact (not_resident_iff hp).mpr hpb
  have hkeep : Shelf.keep Line.piece (Line.blank info p) C.lines = C.lines ++ [.blank info p] :=
    Shelf.keep_of_not_mem hnot
  have hzero : bf.buffer = List.replicate info.pieceLength.toNat 0 := by
    have hlen := hw.buffer_length hb
    rw [hblank hb hu]
    congr 1
    omega
  have ho : Owns (st.place env p pc b bf (decide (st.Reserved p))) p { pc with bi := b } b
      { bf with isUsed := true, pi := p, accessed := some (env.clock st.ticks) } :=
    ⟨at?_put_self hp _, rfl, at?_put_self hb _, rfl, rfl⟩
  have hl' : Linked (st.place env p pc b bf (decide (st.Reserved p))) := h.place hp hpb hb hu _
  have hcharge : p ∈ C.reserved ↔ st.Reserved p := hC.reserved p
  refine hC.keep (l := .blank info p) h hclock hs ?_ ?_ ?_ ?_ hkeep.symm hC.reserved hC.capacity
    hC.places ?_ ?_ hC.isReading hC.mHandle hC.t hC.torrent
  · show lineOf _ p = _
    rw [lineOf_eq hl' ho]
    simp only [Line.blank, hzero, h.piece_blank hp hpb]
  · exact stamp_eq hl' ho rfl
  · intro q hq
    exact .place h hp hpb hb hu _ hq
  · rw [usedBuffers_place hb hu, hkeep, List.length_append, List.length_singleton, hC.count]
  · simp only [Cache.letIn, MemoryStorage.place, hcharge, decide_eq_true_eq, hC.used]
  · simp only [Cache.letIn, MemoryStorage.place, hcharge, decide_eq_true_eq, hC.limit]

/-- Storing bytes for a piece is keeping its line with them. -/
theorem store (hC : Represents C st) (hw : WellFormed info st) (hclock : StrictMono env.clock)
    (hs : Stamped env st) {p b : ℤ} {pc : MemoryPiece} {bf : MemoryBuffer}
    (ho : Owns st p pc b bf) (bufs : List (List Byte)) (offset : ℤ) :
    Represents (C.keep (Cache.stored info ⟨p, bf.buffer, pc.size⟩ bufs offset))
      (st.written env p pc b bf offset bufs) := by
  have h := hw.toLinked
  have hlen : info.pieceSize p = pc.length := (hw.piece_length ho.piece).symm
  have ho' : Owns (st.written env p pc b bf offset bufs) p
      { pc with size := pc.size + (fitting pc.length offset bufs).length } b
      { bf with
        buffer := splice bf.buffer offset.toNat (fitting pc.length offset bufs)
        accessed := some (env.clock st.ticks) } :=
    ⟨at?_put_self ho.piece _, ho.bi, at?_put_self ho.buffer _, ho.used, ho.pi⟩
  have hl' : Linked (st.written env p pc b bf offset bufs) := h.store ho _ _
  refine hC.keep h hclock hs ?_ ?_ ?_ ?_ rfl hC.reserved hC.capacity hC.places hC.used hC.limit
    hC.isReading hC.mHandle hC.t hC.torrent
  · show lineOf _ p = _
    rw [lineOf_eq hl' ho']
    simp only [Cache.stored, hlen]
  · exact stamp_eq hl' ho' rfl
  · intro q hq
    exact .store h ho _ _ hq
  · rw [hC.length_keep h ho rfl]
    exact usedBuffers_store ho _ _

/-- Reading a piece is keeping its line. -/
theorem touch (hC : Represents C st) (hw : WellFormed info st) (hclock : StrictMono env.clock)
    (hs : Stamped env st) {p b : ℤ} {pc : MemoryPiece} {bf : MemoryBuffer}
    (ho : Owns st p pc b bf) (upTo : ℤ) :
    Represents (C.keep ⟨p, bf.buffer, pc.size⟩) (st.touch env p pc b bf upTo) := by
  have h := hw.toLinked
  have hbi : (if pc.isCompleted && upTo ≥ pc.intSize then { pc with isRead := true } else pc).bi
      = b := by
    split <;> exact ho.bi
  have ho' : Owns (st.touch env p pc b bf upTo) p
      (if pc.isCompleted && upTo ≥ pc.intSize then { pc with isRead := true } else pc) b
      { bf with accessed := some (env.clock st.ticks) } :=
    ⟨at?_put_self ho.piece _, hbi, at?_put_self ho.buffer _, ho.used, ho.pi⟩
  have hl' : Linked (st.touch env p pc b bf upTo) := h.touch ho upTo
  refine hC.keep h hclock hs ?_ ?_ ?_ ?_ rfl hC.reserved hC.capacity hC.places hC.used hC.limit
    hC.isReading hC.mHandle hC.t hC.torrent
  · show lineOf _ p = _
    rw [lineOf_eq hl' ho']
    congr 2
    split <;> rfl
  · exact stamp_eq hl' ho' rfl
  · intro q hq
    exact .touch h ho upTo hq
  · rw [hC.length_keep h ho rfl]
    exact usedBuffers_touch ho upTo

/-- Evicting a piece is taking its line out. -/
theorem evict (hC : Represents C st) (h : Linked st) {v b : ℤ} {vc : MemoryPiece}
    {bf : MemoryBuffer} (ho : Owns st v vc b bf) :
    Represents (C.evict env.handle v) (st.evict env v vc b bf) := by
  have hmem : v ∈ C.lines.map Line.piece := (hC.mem_iff h v).mpr (ho.resident h)
  have hremoved : Represents
      { C with lines := Shelf.remove Line.piece v C.lines, used := C.used - 1 }
      { st.evict env v vc b bf with torrent := st.torrent } := by
    have hother : ∀ q, q ≠ v →
        Untouched st { st.evict env v vc b bf with torrent := st.torrent } q := by
      intro q hq
      exact (Untouched.evict h ho hq).trans (.of_eq rfl rfl)
    refine ⟨?_, ?_, ?_, hC.reserved, hC.capacity, hC.places, ?_, hC.limit, hC.isReading,
      hC.mHandle, hC.t, hC.torrent⟩
    · intro q
      rw [Cache.line, Shelf.find_remove]
      by_cases hq : q = v
      · rw [if_pos hq, hq]
        have hp : at? (st.evict env v vc b bf).pieces v = some vc.reset := at?_put_self ho.piece _
        exact (lineOf_eq_none hp rfl).symm
      · rw [if_neg hq, (hother q hq).lineOf_eq]
        exact hC.lines q
    · rw [Shelf.map_remove]
      have hfilter : Recency.Sorted (stamp st) ((C.lines.map Line.piece).filter fun q => q ≠ v) :=
        hC.sorted.filter _
      apply hfilter.congr
      intro q hq
      exact (hother q (of_decide_eq_true (List.mem_filter.mp hq).2)).stamp_eq
    · show (Shelf.remove Line.piece v C.lines).length = usedBuffers (st.evict env v vc b bf)
      have hcount : usedBuffers (st.evict env v vc b bf) + 1 = usedBuffers st :=
        usedBuffers_evict ho
      have hlength := Shelf.length_remove hC.sorted.nodup hmem
      have hold := hC.count
      omega
    · show C.used - 1 = st.bufferUsed - 1
      rw [hC.used]
  exact hremoved.restore v

/-! ## Calls -/

/-- A piece has priority 0 on both sides, or on neither. -/
theorem low_iff (hC : Represents C st) (hsteady : Steady env) (q : ℤ) :
    C.Low env.handle q ↔ Low env st q := by
  have hpriority := hsteady 0 st.ticks st.torrent q
  unfold Cache.Low Low
  rw [hC.mHandle, hC.torrent]
  show _ ∧ env.piecePriority 0 st.torrent q = 0 ↔ _
  rw [hpriority]

/-- The reader rule is the same. -/
theorem refused_iff (hC : Represents C st) (h : Linked st) (hsteady : Steady env) (p : ℤ) :
    C.isReading = true ∧ C.Low env.handle p ↔ st.Refused env p := by
  have hread : isReadered env (st.wait 0) p = false ↔ Low env st p :=
    isReadered_wait_iff hsteady h 0 p
  rw [hC.isReading, hC.low_iff hsteady, ← hread]
  rfl

/-- The cache is out of places iff the pool is full. -/
theorem poolFull_iff (hC : Represents C st) (h : Linked st) :
    C.places ≤ C.lines.length ↔ st.PoolFull := by
  have hsum := used_add_free h
  rw [Libtorrent.poolFull_iff, hC.places, hC.count]
  omega

/-- **The piece `trim` prefers** is the victim among the lines. -/
theorem victim_eq (hC : Represents C st) (h : Linked st) (hsteady : Steady env) {pi v : ℤ}
    (hv : Preferred env st pi v) :
    Recency.victim (C.Low env.handle) (C.Spared pi) (C.lines.map Line.piece) = some v := by
  have hspared : ∀ w, C.Spared pi w ↔ w = pi ∨ st.Reserved w := by
    intro w
    unfold Cache.Spared
    rw [hC.reserved]
  have hevictable : ∀ w, w ∈ C.lines.map Line.piece → ¬C.Spared pi w → Evictable st pi w := by
    intro w hw hfree
    rw [hspared, not_or] at hfree
    exact ⟨hfree.1, (hC.mem_iff h w).mp hw, hfree.2⟩
  apply (Recency.victim_eq_some_iff hC.sorted).mpr
  refine ⟨(hC.mem_iff h v).mpr hv.evictable.2.1, ?_, ?_, ?_⟩
  · rw [hspared]
    exact not_or.mpr ⟨hv.evictable.1, hv.evictable.2.2⟩
  · intro w hw hfree hlow
    rw [hC.low_iff hsteady] at hlow ⊢
    exact hv.lowFirst w (hevictable w hw hfree) hlow
  · intro w hw hfree hclass
    rw [hC.low_iff hsteady, hC.low_iff hsteady] at hclass
    exact hv.earliest w (hevictable w hw hfree) hclass

/-- **`trim` with at most one buffer owed** makes room as the cache does. -/
theorem trim (hC : Represents C st) (hw : WellFormed info st) (hclock : StrictMono env.clock)
    (hsteady : Steady env) (hs : Stamped env st) (hslack : 0 ≤ slack st) {p : ℤ}
    {st' : MemoryStorage σ} (ht : Trims env p st st') (hexit : st'.isFull = false) :
    ∃ C', C.trim env.handle p = some C' ∧ Represents C' st' := by
  unfold slack at hslack
  rcases trims_cases hw hslack ht hexit with
    ⟨hpos, rfl⟩ | ⟨hzero, n, v, vc, b, bf, hv, ho, -, -, rfl⟩
  · unfold slack at hpos
    have hroom : C.used < C.limit := by
      rw [hC.used, hC.limit]
      omega
    exact ⟨C, if_pos hroom, hC⟩
  · unfold slack at hzero
    have hfull : ¬C.used < C.limit := by
      rw [hC.used, hC.limit]
      omega
    have hpref := preferred_of_condemns hsteady hw.toLinked (hs.behind hclock) hv
    refine ⟨C.evict env.handle v, ?_, (hC.wait n).evict (linked_wait hw.toLinked n) ho⟩
    rw [Cache.trim, if_neg hfull, hC.victim_eq hw.toLinked hsteady hpref]
    rfl

/-- **Acquiring a buffer** is finding a line, or admitting one. -/
theorem acquired (hC : Represents C st) (hw : WellFormed info st) (hblank : Blank st)
    (hclock : StrictMono env.clock) (hsteady : Steady env) (hs : Stamped env st) {p b : ℤ}
    {pc : MemoryPiece} {bf : MemoryBuffer} {st₁ : MemoryStorage σ}
    (ha : Acquired env st p st₁) (ho : Owns st₁ p pc b bf) (bufs : List (List Byte)) (offset : ℤ) :
    ∃ C₁, C.writev env.handle info bufs p offset =
        C₁.store env.handle info ⟨p, bf.buffer, pc.size⟩ bufs offset ∧
      Represents C₁ st₁ ∧ Stamped env st₁ := by
  have h := hw.toLinked
  cases ha with
  | kept hkept =>
      refine ⟨C, ?_, hC, hs⟩
      rw [Cache.writev, hC.lines, lineOf_eq h ho]
  | @placed pc₀ b₀ bf₀ hp hb href hfree =>
      have hl₁ : Linked (st.place env p pc₀ b₀ bf₀ (decide (st.Reserved p))) :=
        h.place hp hb hfree.buffer hfree.free _
      have hC₁ := hC.place hw hblank hclock hs hp hb hfree.buffer hfree.free
      have hnone : C.line p = none := by
        rw [hC.lines, lineOf_eq_none hp hb]
      have hnotfull : ¬st.PoolFull := by
        intro hfull
        have hused := hfull b₀ bf₀ hfree.buffer
        rw [hfree.free] at hused
        exact absurd hused (by simp)
      -- the line that was admitted is the one the piece has now
      have hline := hC₁.lines p
      rw [lineOf_eq hl₁ ho] at hline
      have hblank : (C.letIn info p).line p = some (.blank info p) := by
        have hnot := Shelf.find_eq_none_iff.mp hnone
        have hkeep : (C.letIn info p).lines =
            Shelf.keep Line.piece (Line.blank info p) C.lines :=
          (Shelf.keep_of_not_mem hnot).symm
        rw [Cache.line, hkeep, Shelf.find_keep]
        exact if_pos rfl
      rw [hblank] at hline
      refine ⟨C.letIn info p, ?_, hC₁, hs.place hfree.buffer _⟩
      rw [← Option.some.inj hline, Cache.writev, hnone]
      show (if C.isReading = true ∧ C.Low env.handle p then _
        else if C.places ≤ C.lines.length then _ else _) = _
      rw [if_neg (fun hr => href ((hC.refused_iff h hsteady p).mp hr)),
        if_neg (fun hf => hnotfull ((hC.poolFull_iff h).mp hf))]

/-- **Every call** is answered alike, and leaves the storage and the cache alike. -/
theorem exec (hC : Represents C st) (hw : WellFormed info st) (hblank : Blank st)
    (hclock : StrictMono env.clock) (hsteady : Steady env) (hs : Stamped env st)
    (hroom : 0 < slack st) {c : Call σ} {r : Reply} {st' : MemoryStorage σ}
    (he : Effect env st c r st') :
    ∃ C', C.exec env.handle info c = some (r, C') ∧ Represents C' st' := by
  have h := hw.toLinked
  cases he with
  | @refused bufs p offset pc hp hb href =>
      refine ⟨C.restore env.handle p, ?_, hC.restore p⟩
      rw [Cache.exec, Cache.writev, hC.lines, lineOf_eq_none hp hb]
      exact if_pos ((hC.refused_iff h hsteady p).mpr href)
  | @noBuffer bufs p offset pc hp hb href hfull =>
      refine ⟨C, ?_, hC⟩
      rw [Cache.exec, Cache.writev, hC.lines, lineOf_eq_none hp hb]
      show (if C.isReading = true ∧ C.Low env.handle p then _
        else if C.places ≤ C.lines.length then _ else _) = _
      rw [if_neg (fun hr => href ((hC.refused_iff h hsteady p).mp hr)),
        if_pos ((hC.poolFull_iff h).mpr hfull)]
  | @accepted bufs p offset b pc bf st₁ _ ha ho h0 h1 ht hexit =>
      obtain ⟨hw₁, -⟩ := ha.wellFormed hw
      obtain ⟨hw₂, -⟩ := written_wellFormed hw ha ho h0 h1 bufs
      obtain ⟨C₁, heq, hC₁, hs₁⟩ := hC.acquired hw hblank hclock hsteady hs ha ho bufs offset
      have hC₂ := hC₁.store hw₁ hclock hs₁ ho bufs offset
      have hslack : 0 ≤ slack (st₁.written env p pc b bf offset bufs) := by
        rcases written_cases ha ho offset bufs with ⟨-, hk, -⟩ | ⟨-, -, -, -, hk, -⟩ <;> omega
      obtain ⟨C', htrim, hC'⟩ :=
        hC₂.trim hw₂ hclock hsteady (hs.written ha ho offset bufs) hslack ht hexit
      refine ⟨C', ?_, hC'⟩
      rw [Cache.exec, heq, Cache.store, htrim, Option.map_some, hw₁.piece_length ho.piece]
  | @missed bufs p offset pc hp hb =>
      refine ⟨C, ?_, hC⟩
      rw [Cache.exec, Cache.readv, hC.lines, lineOf_eq_none hp hb]
  | @scattered bufs p offset b pc bf ho h0 h1 =>
      refine ⟨C.keep ⟨p, bf.buffer, pc.size⟩, ?_, hC.touch hw hclock hs ho _⟩
      rw [Cache.exec, Cache.readv, hC.lines, lineOf_eq h ho]
  | @incomplete readBuf size p offset pc hp hinc =>
      refine ⟨({ C with isReading := true } : Cache σ).restore env.handle p, ?_,
        hC.reading.restore p⟩
      have hlines : ({ C with isReading := true } : Cache σ).line p = lineOf st p := hC.lines p
      rw [Cache.exec, Cache.read, hlines]
      by_cases hb : pc.bi = -1
      · rw [lineOf_eq_none hp hb]
      · obtain ⟨bf, ho⟩ := h.owns_of_piece hp hb
        have hshort : toInt pc.size < info.pieceSize p := by
          rw [← hw.piece_length hp]
          exact hinc.resolve_left hb
        rw [lineOf_eq h ho]
        simp only
        rw [if_pos hshort]
  | @atEnd readBuf size p offset b pc bf ho hsize hend =>
      refine ⟨{ C with isReading := true }, ?_, hC.reading⟩
      have hlines : ({ C with isReading := true } : Cache σ).line p = lineOf st p := hC.lines p
      have hcomplete : ¬toInt pc.size < info.pieceSize p := by
        rw [← hw.piece_length ho.piece]
        exact not_lt.mpr hsize
      rw [Cache.exec, Cache.read, hlines, lineOf_eq h ho]
      simp only
      rw [if_neg hcomplete, if_pos hend.ge]
  | @copied readBuf size p offset b pc bf ho hsize h0 h1 hsize0 =>
      have hw' := hw.withTorrent st.torrent st.mHandle st.t true
      have hs' : Stamped env { st with isReading := true } := hs
      have ho' : Owns ({ st with isReading := true } : MemoryStorage σ) p pc b bf :=
        ho.frame rfl rfl
      refine ⟨({ C with isReading := true } : Cache σ).keep ⟨p, bf.buffer, pc.size⟩, ?_,
        hC.reading.touch hw' hclock hs' ho' _⟩
      have hlines : ({ C with isReading := true } : Cache σ).line p = lineOf st p := hC.lines p
      have hcomplete : ¬toInt pc.size < info.pieceSize p := by
        rw [← hw.piece_length ho.piece]
        exact not_lt.mpr hsize
      rw [Cache.exec, Cache.read, hlines, lineOf_eq h ho]
      simp only
      rw [if_neg hcomplete, if_neg (not_le.mpr h1)]
  | @notGrown s hle =>
      refine ⟨C, ?_, hC⟩
      rw [Cache.exec, Cache.setMemorySize, hC.capacity, if_pos hle]
  | @grown s n hlt hn =>
      have hplaces : Cache.placesFor info s = n := by
        have hsize := poolSize_eq_ok (hw.capacity_nonneg.trans hlt.le) hn
        rw [hw.pieceLength_eq, hw.pieceCount_eq] at hsize
        exact hsize.symm
      refine ⟨C.setMemorySize info s, rfl, ?_⟩
      rw [Cache.setMemorySize, hC.capacity, if_neg (not_le.mpr hlt), hplaces]
      have hbuffer : ∀ q, Untouched st (st.grow s n) q :=
        fun q => ⟨rfl, bufferOf_grow h s n q⟩
      refine ⟨?_, ?_, ?_, hC.reserved, rfl, rfl, hC.used, rfl, hC.isReading, hC.mHandle, hC.t,
        hC.torrent⟩
      · intro q
        rw [(hbuffer q).lineOf_eq]
        exact hC.lines q
      · apply hC.sorted.congr
        intro q _
        exact (hbuffer q).stamp_eq
      · rw [usedBuffers_grow]
        exact hC.count
  | readers _ _ =>
      exact ⟨C, rfl, hC.frame rfl rfl rfl hC.reserved hC.capacity hC.places hC.used hC.limit
        hC.isReading hC.mHandle hC.t hC.torrent⟩
  | @reserves pieces bits _ hbits =>
      exact ⟨{ C with reserved := pieces }, rfl, hC.frame rfl rfl rfl (fun p => (hbits p).symm)
        hC.capacity hC.places hC.used hC.limit hC.isReading hC.mHandle hC.t hC.torrent⟩
  | @handle t =>
      exact ⟨{ C with mHandle := true, t := t }, rfl, hC.frame rfl rfl rfl hC.reserved hC.capacity
        hC.places hC.used hC.limit hC.isReading rfl rfl hC.torrent⟩
  | @outside torrent =>
      exact ⟨{ C with torrent := torrent }, rfl, hC.frame rfl rfl rfl hC.reserved hC.capacity
        hC.places hC.used hC.limit hC.isReading hC.mHandle hC.t rfl⟩

end Represents

/-! ## Every run -/

/-- The calls a storage completed that was constructed with these arguments. -/
abbrev ConstructedRun (env : Env σ) (info : TorrentInfo) (memorySize : ℤ) (mHandle t : Bool)
    (torrent : σ) : History σ → MemoryStorage σ → Prop :=
  Runs.Run (fun st => MemoryStorage.new info memorySize mHandle t torrent = .ok st) (Step env)

/-- They are a run. -/
theorem ConstructedRun.storageRun {env : Env σ} {info : TorrentInfo} {memorySize : ℤ}
    {mHandle t : Bool} {torrent : σ} (hm : 0 ≤ memorySize) {h : History σ} {st : MemoryStorage σ}
    (hr : ConstructedRun env info memorySize mHandle t torrent h st) :
    StorageRun env info h st := by
  induction hr with
  | start h0 => exact .start ⟨memorySize, mHandle, t, torrent, hm, h0⟩
  | next _ hstep ih => exact .next ih hstep

/-- So are calls played on a constructed storage. -/
theorem playNew_constructed {env : Env σ} {info : TorrentInfo} {fuel : ℕ} {memorySize : ℤ}
    {torrent : σ} {cs : List (Call σ)} {h : History σ} {st : MemoryStorage σ}
    (hp : playNew env fuel info memorySize torrent cs = some (h, st)) :
    ConstructedRun env info memorySize false false torrent h st := by
  unfold playNew at hp
  cases hn : MemoryStorage.new info memorySize false false torrent with
  | error e => simp [hn] at hp
  | ok st₀ =>
      simp only [hn] at hp
      exact Runs.replay_run (fun _ _ _ _ => step_of_tryCall) (.start hn) hp

/-- A constructed storage is an empty cache. -/
theorem represents_new {info : TorrentInfo} {memorySize : ℤ} {mHandle t : Bool} {torrent : σ}
    (hm : 0 ≤ memorySize) {st : MemoryStorage σ}
    (hnew : MemoryStorage.new info memorySize mHandle t torrent = .ok st) :
    Represents (Cache.new info memorySize mHandle t torrent) st := by
  have hinit : Init info st := ⟨memorySize, mHandle, t, torrent, hm, hnew⟩
  have hused : usedBuffers st = 0 := by
    have hledger := hinit.ledger.used
    obtain ⟨n, -, hst⟩ := bind_eq_ok_iff.mp hnew
    obtain rfl := Except.ok.inj hst
    exact Int.ofNat_inj.mp hledger.symm
  have hplaces : Cache.placesFor info memorySize = st.bufferSize := by
    obtain ⟨n, hn, -, -, -, hsize, -⟩ := new_eq_ok hnew
    rw [hsize]
    exact (poolSize_eq_ok hm hn).symm
  obtain ⟨n, -, hst⟩ := bind_eq_ok_iff.mp hnew
  obtain rfl := Except.ok.inj hst
  refine ⟨?_, List.Pairwise.nil, hused.symm, ?_, rfl, hplaces, rfl, hplaces, rfl, rfl, rfl, rfl⟩
  · intro p
    cases hp : at? ((List.range info.numPieces.toNat).map fun i : ℕ =>
        MemoryPiece.new i (info.pieceSize i)) p with
    | none =>
        rw [lineOf, hp]
        rfl
    | some pc => exact (lineOf_eq_none hp (hinit.unbuffered hp)).symm
  · intro p
    constructor
    · intro hp
      exact absurd hp List.not_mem_nil
    · intro hp
      exact absurd hp (at?_replicate_false_ne _ p)

/-- The state of a call in a run is stamped and has slack, and the call has an effect. -/
theorem Represents.step {env : Env σ} {info : TorrentInfo} (hclock : StrictMono env.clock)
    (hsteady : Steady env) {h : History σ} {st st' : MemoryStorage σ} {l : Call σ × Reply}
    {C : Cache σ} (hC : Represents C st) (hr : StorageRun env info h st)
    (hstep : Step env st l st') :
    ∃ C', C.exec env.handle info l.1 = some (l.2, C') ∧ Represents C' st' := by
  have hw := hr.wellFormed
  exact hC.exec hw hr.blank hclock hsteady hr.stamped hr.ledger.room (hstep.effect hw)

/-- Behind every run, a cache holds what the storage holds. -/
theorem StorageRun.represented {env : Env σ} {info : TorrentInfo} (hclock : StrictMono env.clock)
    (hsteady : Steady env) {h : History σ} {st : MemoryStorage σ} (hr : StorageRun env info h st) :
    ∃ C, Represents C st := by
  apply StorageRun.rule (J := fun _ s => ∃ C, Represents C s) _ _ hr
  · rintro st₀ ⟨memorySize, mHandle, t, torrent, hm, hnew⟩
    exact ⟨_, represents_new hm hnew⟩
  · rintro g s c r s' hrun - ⟨C, hC⟩ he
    have hw := hrun.wellFormed
    obtain ⟨C', -, hC'⟩ :=
      hC.exec hw hrun.blank hclock hsteady hrun.stamped hrun.ledger.room he
    exact ⟨C', hC'⟩

/-- **The calls that follow**: a cache that holds what the storage holds gives them the
answers the storage gives them, and holds what it holds behind them. -/
theorem Represents.run {env : Env σ} {info : TorrentInfo} (hclock : StrictMono env.clock)
    (hsteady : Steady env) {h₀ h : History σ} {st₀ st : MemoryStorage σ} {C₀ : Cache σ}
    (hC₀ : Represents C₀ st₀) (hr₀ : StorageRun env info h₀ st₀) (hr : Continuation env st₀ h st) :
    ∃ C, C₀.answers env.handle info (h.map fun e => e.label.1) =
        some (h.map fun e => e.label.2, C) ∧ Represents C st := by
  induction hr with
  | start h0 =>
      rw [h0]
      exact ⟨C₀, rfl, hC₀⟩
  | @next h s s' l hrun hstep ih =>
      obtain ⟨C, hanswers, hC⟩ := ih
      obtain ⟨C', hexec, hC'⟩ := hC.step hclock hsteady (hr₀.append hrun) hstep
      refine ⟨C', ?_, hC'⟩
      simp only [List.map_cons, Cache.answers]
      rw [hanswers]
      show ((C.exec env.handle info l.1).bind fun x => some (x.1 :: _, x.2)) = _
      rw [hexec]
      rfl

end Libtorrent
