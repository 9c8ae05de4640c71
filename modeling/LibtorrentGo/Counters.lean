/-
# What the counters mean

`buffer_used` is meant to count the buffers in use for pieces that are not reserved, and
`buffer_limit` the buffers left for them.  Only a placement looks at reservations:
`update_reserved_pieces` changes them without touching a counter, and
`set_memory_size` sets the limit as if nothing were placed.

The first section says which calls of a run make the counters wrong
(`counters_mean_iff`), the second which call leaves the pool without a free buffer
after a growth (`unwedged_iff`).
-/
import LibtorrentGo.Eviction

open Splice Subscript

namespace Libtorrent

open MemoryStorage

variable {σ : Type}

/-! ## Reserved and unreserved buffers -/

/-- The number of buffers in use for the listed pieces. -/
def usedAmong (st : MemoryStorage σ) (pieces : List ℤ) : ℕ :=
  st.buffers.countP fun bf => bf.isUsed && decide (bf.pi ∈ pieces)

/-- The number of buffers in use for reserved pieces. -/
def reservedUsed (st : MemoryStorage σ) : ℕ :=
  st.buffers.countP fun bf => bf.isUsed && decide (st.Reserved bf.pi)

/-- The number of buffers in use for pieces that are not reserved. -/
def unreservedUsed (st : MemoryStorage σ) : ℕ :=
  st.buffers.countP fun bf => bf.isUsed && !decide (st.Reserved bf.pi)

/-- A used buffer is used for a reserved piece or for another. -/
theorem reserved_add_unreserved (st : MemoryStorage σ) :
    reservedUsed st + unreservedUsed st = usedBuffers st := by
  rw [reservedUsed, unreservedUsed, usedBuffers]
  induction st.buffers with
  | nil => rfl
  | cons bf bs ih =>
      rw [List.countP_cons, List.countP_cons, List.countP_cons, ← ih]
      cases bf.isUsed <;> cases decide (st.Reserved bf.pi) <;> simp <;> omega

/-- Placing a reserved piece adds to the reserved buffers. -/
theorem reservedUsed_place {env : Env σ} {st : MemoryStorage σ} {p b : ℤ} {pc : MemoryPiece}
    {bf : MemoryBuffer} (hb : at? st.buffers b = some bf) (hu : bf.isUsed = false) (r : Bool) :
    reservedUsed (st.place env p pc b bf r) =
      reservedUsed st + if st.Reserved p then 1 else 0 := by
  have hcount := countP_put hb
    { bf with isUsed := true, pi := p, accessed := some (env.clock st.ticks) }
    (fun bf => bf.isUsed && decide (st.Reserved bf.pi))
  simp only [hu, Bool.false_and, Bool.false_eq_true, if_false, add_zero, Bool.true_and,
    decide_eq_true_eq] at hcount
  exact hcount

/-- Storing bytes does not. -/
theorem reservedUsed_store {env : Env σ} {st : MemoryStorage σ} {p b : ℤ} {pc : MemoryPiece}
    {bf : MemoryBuffer} (ho : Owns st p pc b bf) (off : ℕ) (bytes : List Byte) :
    reservedUsed (st.store env p pc b bf off bytes) = reservedUsed st :=
  Nat.add_right_cancel (countP_put ho.buffer
    { bf with buffer := splice bf.buffer off bytes, accessed := some (env.clock st.ticks) }
    (fun bf => bf.isUsed && decide (st.Reserved bf.pi)))

/-- Nor does reading. -/
theorem reservedUsed_touch {env : Env σ} {st : MemoryStorage σ} {p b : ℤ} {pc : MemoryPiece}
    {bf : MemoryBuffer} (ho : Owns st p pc b bf) (upTo : ℤ) :
    reservedUsed (st.touch env p pc b bf upTo) = reservedUsed st :=
  Nat.add_right_cancel (countP_put ho.buffer
    { bf with accessed := some (env.clock st.ticks) }
    (fun bf => bf.isUsed && decide (st.Reserved bf.pi)))

/-- Nor does evicting a piece that is not reserved. -/
theorem reservedUsed_evict {env : Env σ} {st : MemoryStorage σ} {p b : ℤ} {pc : MemoryPiece}
    {bf : MemoryBuffer} (ho : Owns st p pc b bf) (hn : ¬st.Reserved p) :
    reservedUsed (st.evict env p pc b bf) = reservedUsed st := by
  have hcount := countP_put ho.buffer (bf.reset (env.clock st.ticks))
    (fun bf => bf.isUsed && decide (st.Reserved bf.pi))
  simp only [ho.used, ho.pi, hn, decide_false, Bool.and_false, Bool.false_eq_true, if_false,
    MemoryBuffer.reset, Bool.false_and, add_zero] at hcount
  exact hcount

/-- Nor does growing. -/
theorem reservedUsed_grow (st : MemoryStorage σ) (s n : ℤ) :
    reservedUsed (st.grow s n) = reservedUsed st := by
  have hnew : (newBuffers st.bufferSize n st.pieceLength).countP
      (fun bf => bf.isUsed && decide (st.Reserved bf.pi)) = 0 := by
    rw [List.countP_eq_zero]
    intro bf hbf
    obtain ⟨k, -, rfl⟩ := List.mem_map.mp hbf
    simp [MemoryBuffer.new]
  show (st.buffers ++ newBuffers st.bufferSize n st.pieceLength).countP _ = _
  rw [List.countP_append]
  exact congrArg (reservedUsed st + ·) hnew

/-- **The reserved buffers behind a call**: new reservations count the resident pieces
among them, and otherwise a placed reserved piece adds one. -/
theorem Effect.reservedUsed {env : Env σ} {info : TorrentInfo} {st st' : MemoryStorage σ}
    {c : Call σ} {r : Reply} (he : Effect env st c r st') (hw : WellFormed info st) :
    (∀ pieces, c = .updateReservedPieces pieces →
      Libtorrent.reservedUsed st' = usedAmong st pieces) ∧
    ((∀ pieces, c ≠ .updateReservedPieces pieces) → Libtorrent.reservedUsed st' =
      Libtorrent.reservedUsed st + if placedReserved ⟨st, (c, r), st'⟩ then 1 else 0) := by
  have other : ∀ {d : Call σ}, (∀ pieces, d ≠ .updateReservedPieces pieces) →
      ∀ {k : ℕ} pieces, d = .updateReservedPieces pieces → k = usedAmong st pieces :=
    fun hd _ pieces heq => absurd heq (hd pieces)
  cases he with
  | refused hp hb _ =>
      refine ⟨other (by simp), fun _ => ?_⟩
      rw [placedReserved_not_resident]
      · rfl
      · exact (not_resident_iff hp).mpr hb
  | noBuffer hp hb _ _ =>
      refine ⟨other (by simp), fun _ => ?_⟩
      have hn := (not_resident_iff hp).mpr hb
      rw [placedReserved_not_resident hn]
      rfl
  | @accepted bufs p offset b pc bf st₁ _ ha ho h0 h1 ht _ =>
      refine ⟨other (by simp), fun _ => ?_⟩
      rw [placedReserved_accepted hw ha ho h0 h1 ht]
      obtain ⟨hw₂, -⟩ := written_wellFormed hw ha ho h0 h1 bufs
      have htrim := ht.rule (I := fun s => Libtorrent.reservedUsed s =
        Libtorrent.reservedUsed st₁) ?_ hw₂ (reservedUsed_store ho _ _)
      · rw [htrim.2]
        cases ha with
        | kept hkept => simp [hkept]
        | placed hp hb _ hfree =>
            rw [reservedUsed_place hfree.buffer hfree.free]
            simp [(not_resident_iff hp).mpr hb]
      · intro s s' _ hs _ hround
        rcases hround.cases with rfl | ⟨n, v, vc, c, cf, hv, hres, -, rfl⟩
        · exact hs
        · rw [reservedUsed_evict hv hres]
          exact hs
  | missed _ _ => exact ⟨other (by simp), fun _ => rfl⟩
  | scattered ho _ _ => exact ⟨other (by simp), fun _ => reservedUsed_touch ho _⟩
  | incomplete _ _ => exact ⟨other (by simp), fun _ => rfl⟩
  | atEnd _ _ _ => exact ⟨other (by simp), fun _ => rfl⟩
  | copied ho _ _ _ _ =>
      have ho' : Owns ({ st with isReading := true } : MemoryStorage σ) _ _ _ _ :=
        ho.frame rfl rfl
      exact ⟨other (by simp), fun _ => reservedUsed_touch ho' _⟩
  | notGrown _ => exact ⟨other (by simp), fun _ => rfl⟩
  | grown _ _ => exact ⟨other (by simp), fun _ => reservedUsed_grow _ _ _⟩
  | readers _ _ => exact ⟨other (by simp), fun _ => rfl⟩
  | @reserves pieces bits hlen hbits =>
      refine ⟨?_, fun hne => absurd rfl (hne pieces)⟩
      intro pieces' heq
      obtain rfl := Call.updateReservedPieces.inj heq
      rw [Libtorrent.reservedUsed, usedAmong]
      apply List.countP_congr
      intro bf _
      simp only [Reserved, hbits]
  | handle => exact ⟨other (by simp), fun _ => rfl⟩
  | outside => exact ⟨other (by simp), fun _ => rfl⟩

/-! ## The meaning of the two counters -/

/-- The counters mean what they are meant to. -/
structure CountersMean (st : MemoryStorage σ) : Prop where
  used : st.bufferUsed = unreservedUsed st
  limit : st.bufferLimit = st.bufferSize - reservedUsed st
  used_nonneg : 0 ≤ st.bufferUsed
  used_le_limit : st.bufferUsed ≤ st.bufferLimit
  limit_le_size : st.bufferLimit ≤ st.bufferSize

/-- Without a growth, the counters mean what they should iff the placements of reserved
pieces so far are as many as the reserved buffers now. -/
theorem countersMean_iff {info : TorrentInfo} {h : History σ} {st : MemoryStorage σ}
    (hw : WellFormed info st) (hl : Ledger h st) (hf : forgotten h = 0) :
    CountersMean st ↔ reservedPlacements h = reservedUsed st := by
  have hused := hl.used
  have hlimit := hl.limit
  have hsplit := reserved_add_unreserved st
  have hpool := used_add_free hw.toLinked
  rw [hf] at hlimit
  constructor
  · intro hm
    have hu := hm.used
    omega
  · intro heq
    exact ⟨by omega, by omega, by omega, by omega, by omega⟩

/-- New reservations count as many resident pieces as the old ones did. -/
def KeepsReserved (e : CallEntry σ) : Prop :=
  ∀ pieces, e.label.1 = .updateReservedPieces pieces →
    usedAmong e.before pieces = reservedUsed e.before

/-- In a constructed storage they do. -/
theorem Init.countersMean {info : TorrentInfo} {st : MemoryStorage σ} (h : Init info st) :
    CountersMean st := by
  rw [countersMean_iff h.wellFormed h.ledger rfl]
  have hused := h.ledger.used
  have hroom := h.ledger.limit
  have hsplit := reserved_add_unreserved st
  obtain ⟨memorySize, mHandle, t, torrent, hm, hnew⟩ := h
  obtain ⟨n, hn, hst⟩ := bind_eq_ok_iff.mp hnew
  obtain rfl := Except.ok.inj hst
  simp only [reservedPlacements] at hused ⊢
  omega

/-- **When the counters mean what they should**: in a run without growth they do in every
state iff every `update_reserved_pieces` of the run reserves as many resident pieces as
were reserved before. -/
theorem counters_mean_iff {env : Env σ} {info : TorrentInfo} {h : History σ}
    {st : MemoryStorage σ} (hr : StorageRun env info h st) (hg : ∀ e ∈ h, grows e = false) :
    (∀ s ∈ Runs.states h st, CountersMean s) ↔ ∀ e ∈ h, KeepsReserved e := by
  rw [← Runs.forall_suffix_iff (Q := KeepsReserved)]
  refine hr.throughout_iff (fun _ h0 => h0.countersMean) ?_
  rintro g st ⟨c, r⟩ st' hsuffix (hrun : StorageRun env info g st) hstep hmean
  have hrun' : StorageRun env info (⟨st, (c, r), st'⟩ :: g) st' := .next hrun hstep
  have hg' : ∀ e ∈ (⟨st, (c, r), st'⟩ : CallEntry σ) :: g, grows e = false :=
    fun e he => hg e (hsuffix.subset he)
  have hrest := (List.forall_mem_cons.mp hg').2
  rw [countersMean_iff hrun.wellFormed hrun.ledger (forgotten_eq_zero hrest)] at hmean
  rw [countersMean_iff hrun'.wellFormed hrun'.ledger (forgotten_eq_zero hg')]
  have heff := hstep.effect hrun.wellFormed
  obtain ⟨hupdate, hother⟩ := heff.reservedUsed hrun.wellFormed
  -- placements and reserved buffers differ by the same, unless the reservations change
  by_cases hc : ∃ pieces, c = .updateReservedPieces pieces
  · obtain ⟨pieces, rfl⟩ := hc
    have hnone : reservedPlacements ((⟨st, (.updateReservedPieces pieces, r), st'⟩ :
        CallEntry σ) :: g) = reservedPlacements g := rfl
    rw [hnone, hmean, hupdate pieces rfl]
    constructor
    · intro heq pieces' heq'
      obtain rfl := Call.updateReservedPieces.inj heq'
      exact heq.symm
    · intro hk
      exact (hk pieces rfl).symm
  · have hne : ∀ pieces, c ≠ .updateReservedPieces pieces := fun pieces heq => hc ⟨pieces, heq⟩
    rw [hother hne, reservedPlacements, hmean]
    constructor
    · intro _ pieces heq
      exact absurd heq (hne pieces)
    · intro _
      rfl

/-- Reserving the resident piece 0 in the place of the resident piece 1. -/
theorem counters_mean_iff_swap :
    ∃ h st, playNew ticking 3 (quads 9) 12 () [.updateReservedPieces [1], .writev [[1]] 0 0,
        .writev [[2]] 1 0, .updateReservedPieces [0]] = some (h, st) ∧
      ((∀ s ∈ Runs.states h st, CountersMean s) ↔ ∀ e ∈ h, KeepsReserved e) := by
  have hplay : playNew ticking 3 (quads 9) 12 () [.updateReservedPieces [1], .writev [[1]] 0 0,
      .writev [[2]] 1 0, .updateReservedPieces [0]] = some (_, _) := rfl
  exact ⟨_, _, hplay, counters_mean_iff (playNew_run (by decide) hplay) (by decide)⟩

/-- Once a reserved piece that was written is no longer reserved, the counters say that no
buffer is in use. -/
theorem counters_drift :
    ∃ h st, playNew ticking 3 (quads 9) 0 () [.updateReservedPieces [0], .writev [[1]] 0 0,
        .updateReservedPieces []] = some (h, st) ∧ StorageRun ticking (quads 9) h st ∧
      (∀ e ∈ h, grows e = false) ∧
      st.bufferUsed = 0 ∧ unreservedUsed st = 1 ∧ st.bufferLimit = 1 ∧ st.bufferSize = 2 ∧
      reservedUsed st = 0 ∧ ¬CountersMean st := by
  have hplay : playNew ticking 3 (quads 9) 0 () [.updateReservedPieces [0], .writev [[1]] 0 0,
      .updateReservedPieces []] = some (_, _) := rfl
  refine ⟨_, _, hplay, playNew_run (by decide) hplay, by decide, by decide, by decide, by decide,
    by decide, by decide, ?_⟩
  intro hmean
  exact absurd hmean.used (by decide)

/-! ## A pool without a free buffer -/

/-- Some buffer is free, and only the reader rule turns a write away. -/
def Unwedged (env : Env σ) (st : MemoryStorage σ) : Prop :=
  0 < freeBuffers st ∧ ∀ p pc st', at? st.pieces p = some pc → pc.bi = -1 →
    getWriteBuffer env st p = .ok (false, st') → st.Refused env p

/-- It is the free buffer that matters. -/
theorem unwedged_iff_free {env : Env σ} {st : MemoryStorage σ} (h : Linked st) :
    Unwedged env st ↔ 0 < freeBuffers st := by
  constructor
  · exact fun hu => hu.1
  · intro hfree
    refine ⟨hfree, ?_⟩
    intro p pc st' hp hb hget
    rcases getWriteBuffer_cases env h hp with
      ⟨hb', -⟩ | ⟨-, href, -⟩ | ⟨-, -, hfull, -⟩ | ⟨-, -, b, bf, -, heq⟩
    · exact absurd hb hb'
    · exact href
    · rw [poolFull_iff] at hfull
      omega
    · rw [heq] at hget
      exact absurd (Prod.mk.inj (Except.ok.inj hget)).1 (by simp)

/-- The call gives a piece the last free buffer, after a growth that came behind the
placement of a reserved piece. -/
def Wedges (env : Env σ) (h : History σ) (st : MemoryStorage σ) (c : Call σ) : Prop :=
  (∃ p, Takes env st c p) ∧ freeBuffers st = 1 ∧ 0 < forgotten h

/-- A call never shrinks the pool, and only a growth enlarges it. -/
theorem Effect.bufferSize {env : Env σ} {info : TorrentInfo} {st st' : MemoryStorage σ}
    {c : Call σ} {r : Reply} (he : Effect env st c r st') (hw : WellFormed info st) :
    st.bufferSize ≤ st'.bufferSize ∧
      ((∃ p, Takes env st c p) → st'.bufferSize = st.bufferSize) := by
  have same : ∀ {P : Prop}, st.bufferSize ≤ st.bufferSize ∧ (P → st.bufferSize = st.bufferSize) :=
    ⟨le_rfl, fun _ => rfl⟩
  cases he with
  | accepted ha ho h0 h1 ht _ =>
      obtain ⟨hw₂, hs₂⟩ := written_wellFormed hw ha ho h0 h1 _
      have heq := (hs₂.trans ht.sameShape).bufferSize
      exact ⟨heq.ge, fun _ => heq⟩
  | grown hs hn =>
      refine ⟨(hw.grow hs hn).2, ?_⟩
      rintro ⟨p, ⟨bufs, offset, heq⟩, -⟩
      exact absurd heq (by simp)
  | _ => exact same

/-- **One call keeps a free buffer iff it does not wedge the pool.** -/
theorem Effect.free_iff {env : Env σ} {info : TorrentInfo} {h : History σ}
    {st st' : MemoryStorage σ} {c : Call σ} {r : Reply} (he : Effect env st c r st')
    (hrun : StorageRun env info h st)
    (hrun' : StorageRun env info (⟨st, (c, r), st'⟩ :: h) st') (hfree : 0 < freeBuffers st) :
    0 < freeBuffers st' ↔ ¬Wedges env h st c := by
  have hw := hrun.wellFormed
  have hslack := hrun.ledger.slack_eq hw.toLinked
  have hpool := used_add_free hw.toLinked
  have hpool' := used_add_free hrun'.wellFormed.toLinked
  obtain ⟨hgrow, hsize⟩ := he.bufferSize hw
  rcases he.residents hw hrun.ledger.room with
    ⟨hnone, hused, -⟩ | ⟨p, htakes, hs, hused, -⟩ | ⟨p, v, htakes, hs, -⟩
  · constructor
    · rintro - ⟨⟨p, hp⟩, -⟩
      exact hnone p hp
    · intro _
      omega
  · have hsame := hsize ⟨p, htakes⟩
    constructor
    · rintro hpos ⟨-, hone, -⟩
      omega
    · intro hnot
      by_contra hzero
      have hone : freeBuffers st = 1 := by omega
      exact hnot ⟨⟨p, htakes⟩, hone, by omega⟩
  · -- the last free buffer was taken with nothing forgotten, and given back
    have hzero : forgotten h = 0 := by omega
    constructor
    · rintro - ⟨-, -, hpos⟩
      omega
    · intro _
      have hroom := hrun'.ledger.room
      have hslack' := hrun'.ledger.slack_eq hrun'.wellFormed.toLinked
      have hsame : forgotten ((⟨st, (c, r), st'⟩ : CallEntry σ) :: h) = forgotten h := by
        obtain ⟨⟨bufs, offset, rfl⟩, -⟩ := htakes
        rfl
      omega

/-- **When growing wedges a storage**: in every state of a run some buffer is free, and only
the reader rule turns a write away, iff no call of the run takes the last free buffer
after a growth that came behind the placement of a reserved piece. -/
theorem unwedged_iff {env : Env σ} {info : TorrentInfo} {h : History σ} {st : MemoryStorage σ}
    (hr : StorageRun env info h st) :
    (∀ s ∈ Runs.states h st, Unwedged env s) ↔
      ∀ e h', (e :: h') <:+ h → ¬Wedges env h' e.before e.label.1 := by
  refine hr.throughout_iff (fun st h0 => ?_) ?_
  · rw [unwedged_iff_free h0.wellFormed.toLinked]
    have hroom := h0.ledger.room
    have hslack := h0.ledger.slack_eq h0.wellFormed.toLinked
    rw [forgotten] at hslack
    omega
  · rintro g st ⟨c, r⟩ st' - (hrun : StorageRun env info g st) hstep hfree
    have hrun' : StorageRun env info (⟨st, (c, r), st'⟩ :: g) st' := .next hrun hstep
    rw [unwedged_iff_free hrun.wellFormed.toLinked] at hfree
    rw [unwedged_iff_free hrun'.wellFormed.toLinked]
    exact (hstep.effect hrun.wellFormed).free_iff hrun hrun' hfree

/-- A growth with nothing placed. -/
theorem unwedged_iff_early_growth :
    ∃ h st, playNew ticking 3 (quads 9) 0 () [.setMemorySize 8, .writev [[1]] 0 0]
        = some (h, st) ∧
      ((∀ s ∈ Runs.states h st, Unwedged ticking s) ↔
        ∀ e h', (e :: h') <:+ h → ¬Wedges ticking h' e.before e.label.1) := by
  have hplay : playNew ticking 3 (quads 9) 0 () [.setMemorySize 8, .writev [[1]] 0 0]
      = some (_, _) := rfl
  exact ⟨_, _, hplay, unwedged_iff (playNew_run (by decide) hplay)⟩

/-- A growth that does not even change the size of the pool wedges it, with a reserved
piece placed before: the next write but one finds no buffer, though nothing is read. -/
theorem growth_wedges_pool :
    ∃ h st, playNew ticking 3 (quads 9) 0 () [.updateReservedPieces [0], .writev [[1]] 0 0,
        .setMemorySize 1, .writev [[2]] 1 0] = some (h, st) ∧
      StorageRun ticking (quads 9) h st ∧ freeBuffers st = 0 ∧ ¬st.Refused ticking 2 ∧
      (∀ fuel, st.writev ticking fuel [[3]] 2 0 = .ok (0, st)) ∧ ¬Unwedged ticking st := by
  have hplay : playNew ticking 3 (quads 9) 0 () [.updateReservedPieces [0], .writev [[1]] 0 0,
      .setMemorySize 1, .writev [[2]] 1 0] = some (_, _) := rfl
  refine ⟨_, _, hplay, playNew_run (by decide) hplay, by decide, by decide, fun _ => rfl, ?_⟩
  intro hu
  exact absurd hu.1 (by decide)

end Libtorrent
