/-
# What reads deliver among writes

A `readv` copies chunk by chunk while other threads store, evict and resize.  Each byte that it
delivers was, at some moment since it found its piece buffered, the byte stored last at that
offset, if the piece keeps its buffer meanwhile; different bytes may be of different moments.
`CrewRun.gathers` follows the bytes a thread has copied so far through its read, and
`crew_refines_map` puts it together with what the buffers hold: any number of threads share
one map from resident pieces to bytes.
-/
import LibtorrentGo.Readers
import LibtorrentGo.Sharing

open MachineInt Splice Subscript Tenancy

namespace Libtorrent

open MemoryStorage

variable {σ ι : Type}

/-! ## What has been copied so far -/

/-- The first `n` of the bytes were each stored last at their offset behind `offset` of piece
`p`, at some moment since thread `i` found the piece buffered. -/
def Gathered (i : ι) (p : ℤ) (h : List (CrewEntry ι σ)) (offset n : ℤ) (bytes : List Byte) :
    Prop :=
  ∀ j < n.toNat, ∃ k ≤ (whileReading i h).length,
    bytes[j]? = some ((latest (tale (h.drop k)) p (offset.toNat + j)).getD 0)

/-- The number of bytes a transfer asks for. -/
def Job.asked : Job → ℤ
  | .writev bufs _ => bufs.flatten.length
  | .readv bufs _ => bufs.flatten.length
  | .read _ size _ => size

/-- The loop of a `readv` stands at `fileOffset`; it has `n` bytes, and all its destinations are
full unless it came to the end of the buffer. -/
structure AtRound (info : TorrentInfo) (job : Job) (filled bufs : List (List Byte))
    (fileOffset n : ℤ) : Prop where
  offset_nonneg : 0 ≤ job.offset
  count_nonneg : 0 ≤ n
  position : fileOffset = job.offset + n
  within : fileOffset ≤ info.pieceLength
  count_le : n ≤ filled.flatten.length
  full : (filled.flatten.length : ℤ) = n ∨ fileOffset = info.pieceLength
  asked : (filled.flatten.length : ℤ) + bufs.flatten.length = job.asked

/-- A transfer that reads nothing behind the buffer, if it is a `read`. -/
def Job.Inside (info : TorrentInfo) (job : Job) : Prop :=
  ∀ readBuf size offset, job = .read readBuf size offset → offset + size ≤ info.pieceLength

/-- What is known at the stages of a read that copies. -/
inductive Gathers (info : TorrentInfo) (i : ι) (p : ℤ) (job : Job) (h : List (CrewEntry ι σ))
    (st : MemoryStorage σ) : Stage → Prop
  | check {readBuf : List Byte} {size offset : ℤ} : job = .read readBuf size offset →
      Gathers info i p job h st (.check p readBuf size offset)
  | measure {readBuf : List Byte} {size offset : ℤ} : job = .read readBuf size offset →
      Gathers info i p job h st (.measure p readBuf size offset)
  | aimRead {readBuf : List Byte} {size offset : ℤ} : job = .read readBuf size offset →
      Gathers info i p job h st (.aim p size (.read readBuf size offset))
  | moveRead {readBuf : List Byte} {size offset b : ℤ} : job = .read readBuf size offset →
      HasBuffer st p b → Gathers info i p job h st (.move p b size (.read readBuf size offset))
  | chunk {filled bufs : List (List Byte)} {fileOffset n : ℤ} :
      AtRound info job filled bufs fileOffset n →
      Gathered i p h job.offset n filled.flatten →
      Gathers info i p job h st (.chunk p (.readv filled bufs job.offset fileOffset n))
  | aimReadv {filled bufs : List (List Byte)} {iov : List Byte} {fileOffset n toCopy : ℤ} :
      AtRound info job filled (iov :: bufs) fileOffset n →
      Gathered i p h job.offset n filled.flatten →
      toCopy = min (info.pieceLength - fileOffset) iov.length →
      Gathers info i p job h st (.aim p toCopy (.readv filled iov bufs job.offset fileOffset n))
  | moveReadv {filled bufs : List (List Byte)} {iov : List Byte} {fileOffset n toCopy b : ℤ} :
      AtRound info job filled (iov :: bufs) fileOffset n →
      Gathered i p h job.offset n filled.flatten →
      toCopy = min (info.pieceLength - fileOffset) iov.length → HasBuffer st p b →
      Gathers info i p job h st (.move p b toCopy (.readv filled iov bufs job.offset fileOffset n))
  | finish {upTo : ℤ} {v : Reply} : v.ret = min (info.pieceLength - job.offset) job.asked →
      Gathered i p h job.offset v.ret v.data.flatten →
      Gathers info i p job h st (.finish p upTo v)

section Steps

variable [DecidableEq ι] {env : Env σ} {info : TorrentInfo} {C C' : Crew ι σ} {i : ι}
  {r : Option Reply}

omit [DecidableEq ι] in
/-- Nothing is easily gathered. -/
theorem Gathered.of_nonpos {p offset n : ℤ} {h : List (CrewEntry ι σ)} {bytes : List Byte}
    (hn : n ≤ 0) : Gathered i p h offset n bytes := by
  intro j hj
  omega

omit [DecidableEq ι] in
/-- A copy begins with nothing. -/
theorem gathers_begins {p : ℤ} {job : Job} (hjob : job.reads = true) (hfits : job.Fits info p)
    (h : List (CrewEntry ι σ)) (st : MemoryStorage σ) :
    Gathers info i p job h st (job.begins p) := by
  have hle := info.pieceSize_le p hfits.piece_nonneg hfits.piece_lt
  cases job with
  | writev bufs offset => exact absurd hjob (by simp [Job.reads])
  | readv bufs offset =>
      have hround : AtRound info (.readv bufs offset) [] bufs offset 0 :=
        ⟨hfits.offset_nonneg, le_rfl, (add_zero _).symm, hfits.offset_le.trans hle,
          by simp, Or.inl (by simp), by simp [Job.asked]⟩
      exact .chunk hround (.of_nonpos le_rfl)
  | read readBuf size offset => exact .check rfl

omit [DecidableEq ι] in
/-- What was gathered stays so. -/
theorem Gathered.mono {p offset n : ℤ} {bytes : List Byte} {h : List (CrewEntry ι σ)}
    (hg : Gathered i p h offset n bytes) {s : Stage} (hs : C.stage i = some s)
    (hreads : s.reads = some p) (l : Turn ι σ × Option Reply) :
    Gathered i p (⟨C, l, C'⟩ :: h) offset n bytes := by
  intro j hj
  obtain ⟨k, hk, hbyte⟩ := hg j hj
  refine ⟨k + 1, ?_, hbyte⟩
  rw [whileReading_cons hs hreads, List.length_cons]
  omega

omit [DecidableEq ι] in
/-- A step that leaves the piece its buffer leaves what is known of a stage. -/
theorem Gathers.mono {p : ℤ} {job : Job} {h : List (CrewEntry ι σ)} {s : Stage}
    (hg : Gathers info i p job h C.st s) (hs : C.stage i = some s) (hreads : s.reads = some p)
    (l : Turn ι σ × Option Reply)
    (hkeeps : ∀ b, HasBuffer C.st p b → HasBuffer C'.st p b) :
    Gathers info i p job (⟨C, l, C'⟩ :: h) C'.st s := by
  cases hg with
  | check hjob => exact .check hjob
  | measure hjob => exact .measure hjob
  | aimRead hjob => exact .aimRead hjob
  | moveRead hjob hb => exact .moveRead hjob (hkeeps _ hb)
  | chunk hround hbytes => exact .chunk hround (hbytes.mono hs hreads l)
  | aimReadv hround hbytes hto => exact .aimReadv hround (hbytes.mono hs hreads l) hto
  | moveReadv hround hbytes hto hb =>
      exact .moveReadv hround (hbytes.mono hs hreads l) hto (hkeeps _ hb)
  | finish hret hbytes => exact .finish hret (hbytes.mono hs hreads l)

omit [DecidableEq ι] in
/-- One more chunk. -/
theorem AtRound.next {job : Job} {filled bufs : List (List Byte)} {iov out : List Byte}
    {fileOffset n toCopy : ℤ} (h : AtRound info job filled (iov :: bufs) fileOffset n)
    (hto : toCopy = min (info.pieceLength - fileOffset) iov.length)
    (hlen : out.length = iov.length) :
    AtRound info job (filled ++ [out]) bufs (fileOffset + toCopy) (n + toCopy) := by
  obtain ⟨h0, hn, hpos, hwithin, hle, hfull, hasked⟩ := h
  have hflat : ((filled ++ [out]).flatten.length : ℤ) = filled.flatten.length + iov.length := by
    rw [List.flatten_append, List.flatten_singleton, List.length_append, hlen, Nat.cast_add]
  rw [List.flatten_cons, List.length_append, Nat.cast_add] at hasked
  refine ⟨h0, by omega, by omega, by omega, by omega, ?_, by omega⟩
  rw [hflat]
  omega

omit [DecidableEq ι] in
/-- The loop ends with all that was asked for, or at the end of the buffer. -/
theorem AtRound.count_eq {job : Job} {filled : List (List Byte)} {fileOffset n : ℤ}
    (h : AtRound info job filled [] fileOffset n) :
    n = min (info.pieceLength - job.offset) job.asked := by
  obtain ⟨h0, hn, hpos, hwithin, hle, hfull, hasked⟩ := h
  rw [List.flatten_nil, List.length_nil] at hasked
  omega

omit [DecidableEq ι] in
/-- A `memcpy` out of a buffer that its piece still has leaves the destination as long, and
copies what was stored last. -/
theorem Told.copied {es : List (Event ℤ Byte)} (h : Told es C.st) (hw : WellFormed info C.st)
    {p b toCopy fileOffset : ℤ} {iov : List Byte} {bf : MemoryBuffer} (hb : HasBuffer C.st p b)
    (hbf : at? C.st.buffers b = some bf) (hn : 0 ≤ toCopy) (h0 : 0 ≤ fileOffset)
    (hin : fileOffset + toCopy ≤ info.pieceLength) (hroom : toCopy ≤ iov.length) :
    (splice iov 0 ((bf.buffer.drop fileOffset.toNat).take toCopy.toNat)).length = iov.length ∧
      ∀ j < toCopy.toNat,
        (splice iov 0 ((bf.buffer.drop fileOffset.toNat).take toCopy.toNat))[j]? =
          some ((latest es p (fileOffset.toNat + j)).getD 0) := by
  obtain ⟨pc, cf, ho⟩ := hb
  obtain rfl := ho.buffer_eq hbf
  have hlen := hw.buffer_length hbf
  have hcopied : ((bf.buffer.drop fileOffset.toNat).take toCopy.toNat).length = toCopy.toNat := by
    rw [List.length_take, List.length_drop]
    omega
  refine ⟨length_splice (by omega), ?_⟩
  intro j hj
  rw [← Nat.zero_add j, getElem?_splice_mid (by omega) (by omega), List.getElem?_take,
    if_pos hj, List.getElem?_drop, Nat.zero_add]
  exact h.byte hw.toLinked ho (by omega)

omit [DecidableEq ι] in
/-- The bytes of one more chunk, of this moment. -/
theorem Gathered.next {p : ℤ} {job : Job} {h : List (CrewEntry ι σ)}
    {filled bufs : List (List Byte)} {iov out : List Byte} {fileOffset n toCopy : ℤ}
    (hg : Gathered i p h job.offset n filled.flatten)
    (hround : AtRound info job filled (iov :: bufs) fileOffset n)
    (hto : toCopy = min (info.pieceLength - fileOffset) iov.length)
    (hout : ∀ j < toCopy.toNat,
      out[j]? = some ((latest (tale h) p (fileOffset.toNat + j)).getD 0))
    {s : Stage} (hs : C.stage i = some s) (hreads : s.reads = some p)
    (l : Turn ι σ × Option Reply) :
    Gathered i p (⟨C, l, C'⟩ :: h) job.offset (n + toCopy) (filled ++ [out]).flatten := by
  obtain ⟨h0, hn, hpos, hwithin, hle, hfull, -⟩ := hround
  intro j hj
  rw [List.flatten_append, List.flatten_singleton]
  by_cases hold : j < n.toNat
  · have hmono : Gathered i p (⟨C, l, C'⟩ :: h) job.offset n filled.flatten := hg.mono hs hreads l
    obtain ⟨k, hk, hbyte⟩ := hmono j hold
    refine ⟨k, hk, ?_⟩
    rw [List.getElem?_append_left (by omega)]
    exact hbyte
  · -- there was something left to copy, so the destinations before are full
    have hlast : filled.flatten.length = n.toNat := by omega
    refine ⟨1, ?_, ?_⟩
    · rw [whileReading_cons hs hreads, List.length_cons]
      omega
    · rw [List.getElem?_append_right (by omega), hlast, hout (j - n.toNat) (by omega)]
      congr 3
      omega

/-- A step of a copy that reads only goes on. -/
theorem Stroke.onward_of_reads {s : Stage} {p : ℤ}
    (hst : Stroke env C i s none C') (hreads : s.reads = some p) :
    ∃ s', Onward C.st s s' ∧ C' = C.next i C.st s' := by
  cases hst with
  | onward hon => exact ⟨_, hon, rfl⟩
  | full _ hnext =>
      rcases hnext with ⟨rfl, -⟩ | ⟨rfl, -⟩ | ⟨rfl, -⟩ <;>
        exact absurd hreads (by simp [Stage.reads])
  | _ => exact absurd hreads (by simp [Stage.reads])

/-- **A step of the copy.** -/
theorem Gathers.onward {p : ℤ} {job : Job} {h : List (CrewEntry ι σ)} {s s' : Stage}
    (hg : Gathers info i p job h C.st s) (hon : Onward C.st s s') (hord : Orderly info C)
    (htold : Told (tale h) C.st) (hs : C.stage i = some s) (hreads : s.reads = some p)
    (hin : job.Inside info) :
    Gathers info i p job (⟨C, (.go i, none), C.next i C.st s'⟩ :: h) C.st s' := by
  have hw := hord.wellFormed
  have hv := hord.valid i s hs
  have hint := info.pieceLength_le
  cases hg with
  | check hjob =>
      cases hon with
      | check _ _ => exact .measure hjob
  | @measure readBuf size offset hjob =>
      cases hon with
      | @measure _ _ _ b available _ pc bf ho havail hpos =>
          have h0 : 0 ≤ offset := hv.offset_nonneg
          have hlen := hw.buffer_length ho.buffer
          have hsize := hin readBuf size offset hjob
          obtain ⟨hsize0, -⟩ := hv.room readBuf size offset rfl
          have h1 : offset ≤ bf.buffer.length := by omega
          rw [available_eq h0 h1 (by omega)] at havail
          have hto : (if available > size then size else available) = size := by
            split <;> omega
          rw [hto]
          exact .aimRead hjob
  | aimRead hjob =>
      cases hon with
      | aim hb => exact .moveRead hjob hb
  | @moveRead readBuf size offset b hjob hb =>
      cases hon with
      | @moveRead _ _ _ _ _ _ bf hbf =>
          have hroom : size ≤ (readBuf.length : ℤ) := hv.room
          obtain ⟨-, hbyte⟩ := htold.copied hw hb hbf hv.count_nonneg hv.position_nonneg
            hv.within hroom
          have hsize := hin readBuf size offset hjob
          have h0 : 0 ≤ offset := hv.position_nonneg
          refine .finish ?_ ?_
          · subst hjob
            show size = min (info.pieceLength - offset) size
            omega
          intro j hj
          refine ⟨1, ?_, ?_⟩
          · rw [whileReading_cons hs hreads, List.length_cons]
            omega
          · subst hjob
            rw [List.flatten_singleton]
            exact hbyte j hj
  | @chunk filled bufs fileOffset n hround hbytes =>
      cases hon with
      | @readChunk _ _ _ _ b _ bufs iov pc bf ho =>
          have hlen := hw.buffer_length ho.buffer
          have hpos := hround.offset_nonneg
          have hle : fileOffset ≤ (bf.buffer.length : ℤ) := by
            rw [hlen]
            exact hv.2.2
          have hclamp := clamp_eq hv.2.1 hle (by omega) iov.length
          refine .aimReadv hround (hbytes.mono hs hreads _) ?_
          rw [hclamp, hlen]
      | filled => exact .finish hround.count_eq (hbytes.mono hs hreads _)
  | aimReadv hround hbytes hto =>
      cases hon with
      | aim hb => exact .moveReadv hround (hbytes.mono hs hreads _) hto hb
  | @moveReadv filled bufs iov fileOffset n toCopy b hround hbytes hto hb =>
      cases hon with
      | @moveReadv _ _ _ _ _ _ _ _ _ bf hbf =>
          have hroom : toCopy ≤ (iov.length : ℤ) := hv.room
          obtain ⟨hlen, hbyte⟩ := htold.copied hw hb hbf hv.count_nonneg hv.position_nonneg
            hv.within hroom
          exact .chunk (hround.next hto hlen) (hbytes.next hround hto hbyte hs hreads _)
  | finish _ _ => cases hon

/-- What a read returns: as soon as its piece was found buffered, all that is asked for up to the
end of the buffer, unless it is a `read` of a piece that is not complete; and each byte is one
that was stored last at its offset meanwhile. -/
structure Delivers (info : TorrentInfo) (i : ι) (p : ℤ) (job : Job) (g : List (CrewEntry ι σ))
    (C : Crew ι σ) (v : Reply) : Prop where
  count : (C.stage i).bind Stage.reads = some p →
    v.ret = min (info.pieceLength - job.offset) job.asked ∨
      v.ret = -1 ∧ (∃ readBuf size offset, job = .read readBuf size offset) ∧
        ∃ pc, at? C.st.pieces p = some pc ∧ pc.intSize < pc.length
  bytes : Gathered i p g job.offset v.ret v.data.flatten

/-- **The last step of the copy.** -/
theorem Gathers.delivers {p : ℤ} {job : Job} {g : List (CrewEntry ι σ)} {s : Stage} {v : Reply}
    (hg : Gathers info i p job g C.st s) (hst : Stroke env C i s (some v) C')
    (hord : Orderly info C) (hs : C.stage i = some s) (hin : job.Inside info) :
    Delivers info i p job g C v := by
  have hw := hord.wellFormed
  have hv := hord.valid i s hs
  have hint := info.pieceLength_le
  cases hg with
  | check hjob =>
      cases hst with
      | incomplete hp hinc =>
          exact ⟨fun _ => Or.inr ⟨rfl, ⟨_, _, _, hjob⟩, _, hp, hinc⟩, .of_nonpos (by simp)⟩
      | room _ hstage => exact absurd hstage (by simp)
  | @measure readBuf size offset hjob =>
      cases hst with
      | exhausted ho hnone =>
          -- the offset is that of the end, and no byte is asked for
          have hsize := hin readBuf size offset hjob
          obtain ⟨hsize0, -⟩ := hv.room readBuf size offset rfl
          have h0 : 0 ≤ offset := hv.offset_nonneg
          have hlen := hw.buffer_length ho.buffer
          have hfits : offset ≤ info.pieceSize p := hv.offset_le
          have hle := info.pieceSize_le p hv.piece_nonneg hv.piece_lt
          rw [available_eq h0 (by omega) (by omega)] at hnone
          refine ⟨fun _ => Or.inl ?_, .of_nonpos le_rfl⟩
          subst hjob
          show 0 = min (info.pieceLength - offset) size
          omega
      | room _ hstage => exact absurd hstage (by simp)
  | finish hret hbytes =>
      cases hst with
      | finish _ => exact ⟨fun _ => Or.inl hret, hbytes⟩
      | room _ hstage => exact absurd hstage (by simp)
  | _ =>
      cases hst with
      | room _ hstage => exact absurd hstage (by simp)

/-! ## Every run -/

/-- **In every state of a run** the bytes a thread has copied so far for a read were stored last
at some moment meanwhile, if the piece kept its buffer. -/
theorem CrewRun.gathers {h : List (CrewEntry ι σ)} (hr : CrewRun env info h C)
    (hkeep : ∀ e ∈ h, ¬Shrinks e) {p : ℤ} {job : Job} (hjob : job.reads = true)
    (hin : job.Inside info) {s : Stage} (hs : C.stage i = some s)
    (htask : tasked i h = some (.transfer p job)) :
    Underway p job (fun s => (∀ e ∈ h, ¬GoesAstray e) →
      (∀ d ∈ whileReading i h, ¬EvictsFrom p d) → Gathers info i p job h C.st s) s := by
  refine CrewRun.read_rule hjob (J := fun h C s => (∀ e ∈ h, ¬GoesAstray e) →
    (∀ d ∈ whileReading i h, ¬EvictsFrom p d) → Gathers info i p job h C.st s) ?_ ?_ ?_ hr hkeep
      hs htask
  · rintro h C C' s pc - - hord hs hstage - - rfl - -
    have hfits : job.Fits info p := by
      have hv := hord.valid i s hs
      rcases hstage with rfl | rfl <;> exact hv
    exact gathers_begins hjob hfits _ _
  · intro h C C' s s' hrun hkeep hord hJ hs hreads hturn hs' hstays hquiet
    rw [whileReading_cons hs hreads] at hquiet
    obtain ⟨-, hrest⟩ := List.forall_mem_cons.mp hstays
    obtain ⟨t, hon, rfl⟩ := (hord.stroke_of_turn hs hturn).onward_of_reads hreads
    simp only [Crew.next, Function.update_self, Option.some.injEq] at hs'
    subst hs'
    exact (hJ hrest (List.forall_mem_cons.mp hquiet).2).onward hon hord
      (CrewRun.told hrun hkeep hrest).1 hs hreads hin
  · intro h C l C' s hrun hkeep hord hJ hs hreads hstep hstays hquiet
    rw [whileReading_cons hs hreads] at hquiet
    obtain ⟨hlast, hbefore⟩ := List.forall_mem_cons.mp hquiet
    refine (hJ (List.forall_mem_cons.mp hstays).2 hbefore).mono hs hreads l ?_
    intro b hb
    exact (hb.step hord hstep).resolve_right hlast

/-- What the buffers hold, and what reads return. -/
structure SharesMap (info : TorrentInfo) (h : List (CrewEntry ι σ)) (C : Crew ι σ) : Prop where
  /-- the resident pieces are those that have a place -/
  resident : ∀ p, Resident C.st p ↔ ∃ f, contents 0 (tale h) p = some f
  /-- their buffers hold what was stored last since they have it, and 0 -/
  held : ∀ p pc b bf, Owns C.st p pc b bf → ∀ o < bf.buffer.length,
    bf.buffer[o]? = some ((latest (tale h) p o).getD 0)
  /-- so do the answers of reads whose piece was not evicted meanwhile -/
  delivered : ∀ e g, (e :: g) <:+ h → ∀ i p job v, e.label = (.go i, some v) →
    tasked i g = some (.transfer p job) → job.reads = true → job.Inside info →
    (∀ d ∈ whileReading i g, ¬EvictsFrom p d) → Delivers info i p job g e.before v

/-- **Any number of threads share one map from resident pieces to bytes.**  As long as no thread
lowers the number of buffers, and no `memcpy` of a `writev` goes to a buffer its piece has lost,
each resident piece holds what was copied there last, by whichever thread.  A read whose piece
keeps its buffer while it copies returns all it is asked for, and each byte of it is the one
that was stored last at its offset at some moment since it found the piece buffered. -/
theorem crew_refines_map {h : List (CrewEntry ι σ)} (hr : CrewRun env info h C)
    (hkeep : ∀ e ∈ h, ¬Shrinks e) (hstays : ∀ e ∈ h, ¬GoesAstray e) : SharesMap info h C := by
  have hlinked := (CrewRun.orderly hr hkeep).wellFormed.toLinked
  obtain ⟨htold, -⟩ := CrewRun.told hr hkeep hstays
  refine ⟨htold.resident_iff hlinked, fun p pc b bf ho o => htold.byte hlinked ho, ?_⟩
  intro e g hsuffix i p job v hlabel htask hjob hin hquiet
  obtain ⟨hrun, ⟨hen, hadv⟩⟩ := hr.before hsuffix
  have hbefore : ∀ d ∈ g, d ∈ h := fun d hd => hsuffix.subset (List.mem_cons_of_mem e hd)
  have hkeep' : ∀ d ∈ g, ¬Shrinks d := fun d hd => hkeep d (hbefore d hd)
  rw [hlabel] at hen hadv
  obtain ⟨s, hs, -⟩ := hen
  have hord := CrewRun.orderly hrun hkeep'
  have hturn := turn_of_go hs hadv
  have hst := hord.stroke_of_turn hs hturn
  generalize e.after = D at hst
  cases CrewRun.gathers hrun hkeep' hjob hin hs htask with
  | look => cases hst with
    | room _ hstage => exact absurd hstage (by simp)
  | get => cases hst with
    | refuse _ hret =>
        exact ⟨fun hfound => absurd hfound (by simp [hs, Stage.reads]), .of_nonpos hret⟩
    | room _ hstage => exact absurd hstage (by simp)
  | copies _ hJ =>
      exact (hJ (fun d hd => hstays d (hbefore d hd)) hquiet).delivers hst hord hs hin

/-- A `readv` of two chunks, between which another thread stores other bytes: it returns some of
both. -/
theorem crew_refines_map_torn :
    ∃ e h, playCrew ticking (quads 9) 4 ()
        (enterAndGo (0 : Fin 2) (.transfer 0 (.writev [[1, 2], [3, 4]] 0)) 11 ++
          enterAndGo 0 (.transfer 0 (.readv [[0, 0], [0, 0]] 0)) 4 ++
          enterAndGo 1 (.transfer 0 (.writev [[5, 6, 7, 8]] 0)) 6 ++
          List.replicate 5 (.go 0)) = some (e :: h, e.after) ∧
      e.label.2 = some ⟨4, [[1, 2], [7, 8]]⟩ ∧ SharesMap (quads 9) (e :: h) e.after := by
  have hplay : playCrew ticking (quads 9) 4 ()
      (enterAndGo (0 : Fin 2) (.transfer 0 (.writev [[1, 2], [3, 4]] 0)) 11 ++
        enterAndGo 0 (.transfer 0 (.readv [[0, 0], [0, 0]] 0)) 4 ++
        enterAndGo 1 (.transfer 0 (.writev [[5, 6, 7, 8]] 0)) 6 ++
        List.replicate 5 (.go 0)) = some (_ :: _, _) := rfl
  refine ⟨_, _, hplay, rfl, ?_⟩
  exact crew_refines_map (playCrew_run (by decide) hplay) (by decide) (by decide)

end Steps

end Libtorrent
