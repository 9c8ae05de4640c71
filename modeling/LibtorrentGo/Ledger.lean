/-
# The ledger of the counters

`buffer_used` and `buffer_limit` follow neither the used buffers nor the reservations:
a reserved piece that is placed lowers the limit for good, whatever becomes of it, and
every eviction lowers the used count.  What they do follow is the number of placements
of reserved pieces since the construction (`reservedPlacements`) and the part of it the
last growth forgot (`forgotten`): `Ledger` states the two equations, and
`StorageRun.ledger` that every run keeps them.

Their difference is what `trim` tests.  It is always one more or one less when the
number of free buffers is, so that a completed `writev` makes at most one eviction
(`trims_cases`).
-/
import LibtorrentGo.Residency

open Splice Subscript

namespace Libtorrent

open MemoryStorage

variable {σ : Type}

/-! ## Used and free buffers -/

/-- The number of buffers in use. -/
def usedBuffers (st : MemoryStorage σ) : ℕ := st.buffers.countP fun bf => bf.isUsed

/-- The number of buffers not in use. -/
def freeBuffers (st : MemoryStorage σ) : ℕ := st.buffers.countP fun bf => !bf.isUsed

/-- Every buffer of the pool is in use or not. -/
theorem used_add_free {st : MemoryStorage σ} (h : Linked st) :
    (usedBuffers st : ℤ) + freeBuffers st = st.bufferSize := by
  rw [← h.buffers_length, usedBuffers, freeBuffers]
  rw [List.length_eq_countP_add_countP (fun bf : MemoryBuffer => bf.isUsed), Nat.cast_add]
  congr 2
  apply List.countP_congr
  intro bf _
  cases bf.isUsed <;> simp

/-- The pool is full iff no buffer is free. -/
theorem poolFull_iff {st : MemoryStorage σ} : st.PoolFull ↔ freeBuffers st = 0 := by
  rw [freeBuffers, List.countP_eq_zero]
  constructor
  · intro hf bf hbf
    obtain ⟨b, hb⟩ := exists_at?_of_mem hbf
    simp [hf b bf hb]
  · intro hf b bf hb
    simpa using hf bf (mem_of_at? hb)

instance (st : MemoryStorage σ) : Decidable st.PoolFull := decidable_of_iff _ poolFull_iff.symm

/-- Placing a piece uses one more buffer. -/
theorem usedBuffers_place {env : Env σ} {st : MemoryStorage σ} {p b : ℤ} {pc : MemoryPiece}
    {bf : MemoryBuffer} (hb : at? st.buffers b = some bf) (hu : bf.isUsed = false)
    (reserved : Bool) : usedBuffers (st.place env p pc b bf reserved) = usedBuffers st + 1 := by
  have hcount := countP_put hb
    { bf with isUsed := true, pi := p, accessed := some (env.clock st.ticks) }
    (fun bf => bf.isUsed)
  simpa [hu, usedBuffers, place] using hcount

/-- Storing bytes uses the buffers that are used. -/
theorem usedBuffers_store {env : Env σ} {st : MemoryStorage σ} {p b : ℤ} {pc : MemoryPiece}
    {bf : MemoryBuffer} (ho : Owns st p pc b bf) (off : ℕ) (bytes : List Byte) :
    usedBuffers (st.store env p pc b bf off bytes) = usedBuffers st := by
  have hcount := countP_put ho.buffer
    { bf with buffer := splice bf.buffer off bytes, accessed := some (env.clock st.ticks) }
    (fun bf => bf.isUsed)
  simpa [ho.used, usedBuffers, store] using hcount

/-- So does reading. -/
theorem usedBuffers_touch {env : Env σ} {st : MemoryStorage σ} {p b : ℤ} {pc : MemoryPiece}
    {bf : MemoryBuffer} (ho : Owns st p pc b bf) (upTo : ℤ) :
    usedBuffers (st.touch env p pc b bf upTo) = usedBuffers st := by
  have hcount := countP_put ho.buffer { bf with accessed := some (env.clock st.ticks) }
    (fun bf => bf.isUsed)
  simpa [ho.used, usedBuffers, touch] using hcount

/-- Evicting a piece uses one buffer less. -/
theorem usedBuffers_evict {env : Env σ} {st : MemoryStorage σ} {p b : ℤ} {pc : MemoryPiece}
    {bf : MemoryBuffer} (ho : Owns st p pc b bf) :
    usedBuffers (st.evict env p pc b bf) + 1 = usedBuffers st := by
  have hcount := countP_put ho.buffer (bf.reset (env.clock st.ticks)) (fun bf => bf.isUsed)
  simpa [ho.used, usedBuffers, evict, MemoryBuffer.reset] using hcount

/-- Growing uses the buffers that are used. -/
theorem usedBuffers_grow (st : MemoryStorage σ) (s n : ℤ) :
    usedBuffers (st.grow s n) = usedBuffers st := by
  rw [usedBuffers, usedBuffers, grow, List.countP_append, Nat.add_eq_left, List.countP_eq_zero]
  intro bf hbf
  obtain ⟨k, -, rfl⟩ := List.mem_map.mp hbf
  simp [MemoryBuffer.new]

/-! ## The slack of the counters -/

/-- What is left until `trim` finds the pool full. -/
def slack (st : MemoryStorage σ) : ℤ := st.bufferLimit - st.bufferUsed

/-- The test of `trim` is whether there is no slack. -/
theorem isFull_eq (st : MemoryStorage σ) : st.isFull = decide (slack st ≤ 0) := by
  rw [isFull, slack]
  congr 1
  exact propext (by omega)

/-- Placing a piece takes slack, whether it is reserved or not. -/
theorem slack_place (env : Env σ) (st : MemoryStorage σ) (p b : ℤ) (pc : MemoryPiece)
    (bf : MemoryBuffer) (reserved : Bool) :
    slack (st.place env p pc b bf reserved) = slack st - 1 := by
  cases reserved <;> simp only [slack, place, Bool.false_eq_true, if_false, if_true] <;> omega

/-- Evicting gives it back. -/
theorem slack_evict (env : Env σ) (st : MemoryStorage σ) (p b : ℤ) (pc : MemoryPiece)
    (bf : MemoryBuffer) : slack (st.evict env p pc b bf) = slack st + 1 := by
  simp only [slack, evict]
  omega

namespace MemoryStorage

/-- The piece that `trim(pi)`, entered in `st`, evicts first: the one that is first in line
in the first round that finds any. -/
def Condemns (env : Env σ) (st : MemoryStorage σ) (pi v : ℤ) : Prop :=
  ∃ k, (∀ j < k, (st.wait (2 * j)).NoVictim env pi) ∧ (st.wait (2 * k)).NextVictim env pi v

end MemoryStorage

/-- **What `trim` amounts to.**  Entered with slack it does nothing; entered without any,
and none owed, it lets time pass until it can evict one piece, and then it is done. -/
theorem trims_cases {env : Env σ} {pi : ℤ} {info : TorrentInfo} {st st' : MemoryStorage σ}
    (h : WellFormed info st) (hs : 0 ≤ slack st) (ht : Trims env pi st st')
    (hexit : st'.isFull = false) :
    (0 < slack st ∧ st' = st) ∨
    (slack st = 0 ∧ ∃ n v pc b bf, st.Condemns env pi v ∧ Owns (st.wait n) v pc b bf ∧
      ¬st.Reserved v ∧ v ≠ pi ∧ st' = (st.wait n).evict env v pc b bf) := by
  have hwait : ∀ n m, (st.wait n).wait m = st.wait (n + m) := by
    intro n m
    simp only [wait, Nat.add_assoc]
  rcases lt_or_eq_of_le hs with hpos | hzero
  · left
    refine ⟨hpos, ?_⟩
    have hopen : st.isFull = false := by
      rw [isFull_eq]
      simpa using hpos
    rcases Relation.ReflTransGen.cases_head ht with rfl | ⟨s, ⟨hg, -⟩, -⟩
    · rfl
    · rw [hopen] at hg
      exact absurd hg (by simp)
  · right
    refine ⟨hzero.symm, ?_⟩
    -- so far only time has passed, or the one eviction has been made
    have hinv := ht.rule (I := fun s =>
      (∃ k, (∀ j < k, (st.wait (2 * j)).NoVictim env pi) ∧ s = st.wait (2 * k)) ∨
      (slack s = 1 ∧ ∃ n v pc b bf, st.Condemns env pi v ∧ Owns (st.wait n) v pc b bf ∧
        ¬st.Reserved v ∧ v ≠ pi ∧ s = (st.wait n).evict env v pc b bf)) ?_ h
      (Or.inl ⟨0, fun j hj => absurd hj (Nat.not_lt_zero j), rfl⟩)
    · rcases hinv.2 with ⟨k, -, rfl⟩ | ⟨-, hdone⟩
      · rw [isFull_eq] at hexit
        have hslack : slack (st.wait (2 * k)) = slack st := rfl
        rw [hslack, ← hzero] at hexit
        exact absurd hexit (by simp)
      · exact hdone
    · rintro s s' hw (⟨k, hspins, rfl⟩ | ⟨hone, -⟩) hfull hround
      · rcases hround.search with ⟨hnone, rfl⟩ | ⟨m, v, pc, b, bf, hnext, ho, hres, hne, rfl⟩
        · left
          refine ⟨k + 1, fun j hj => ?_, hwait _ _⟩
          rcases Nat.lt_succ_iff_lt_or_eq.mp hj with hlt | rfl
          · exact hspins j hlt
          · exact hnone
        · right
          refine ⟨?_, 2 * k + m, v, pc, b, bf, ⟨k, hspins, hnext⟩, ?_, hres, hne, ?_⟩
          · rw [slack_evict]
            have hslack : slack ((st.wait (2 * k)).wait m) = slack st := rfl
            omega
          · exact ho.frame rfl rfl
          · rw [hwait]
      · rw [isFull_eq, hone] at hfull
        exact absurd hfull (by simp)

/-! ## Placements and growths of a run -/

/-- One completed call of a run. -/
abbrev CallEntry (σ : Type) : Type := Runs.Entry (MemoryStorage σ) (Call σ × Reply)

/-- The call placed a piece that was reserved then. -/
def placedReserved (e : CallEntry σ) : Bool :=
  match e.label.1 with
  | .writev _ p _ => decide (¬Resident e.before p ∧ Resident e.after p ∧ e.before.Reserved p)
  | _ => false

/-- The call gave the storage a larger memory size. -/
def grows (e : CallEntry σ) : Bool :=
  match e.label.1 with
  | .setMemorySize s => decide (e.before.capacity < s)
  | _ => false

/-- How many times a piece was placed that was reserved then. -/
def reservedPlacements : History σ → ℕ
  | [] => 0
  | e :: h => reservedPlacements h + if placedReserved e then 1 else 0

/-- How many of these the last growth forgot. -/
def forgotten : History σ → ℕ
  | [] => 0
  | e :: h => if grows e then reservedPlacements h else forgotten h

/-- A call that leaves its piece without a buffer places nothing. -/
theorem placedReserved_not_resident {st st' : MemoryStorage σ} {bufs : List (List Byte)}
    {p offset : ℤ} {r : Reply} (hn : ¬Resident st' p) :
    placedReserved ⟨st, (.writev bufs p offset, r), st'⟩ = false := by
  simp [placedReserved, hn]

/-- What the counters are, after the calls `h`. -/
structure Ledger (h : History σ) (st : MemoryStorage σ) : Prop where
  used : st.bufferUsed + reservedPlacements h = usedBuffers st
  limit : st.bufferLimit + reservedPlacements h = st.bufferSize + forgotten h
  forgotten_le : forgotten h ≤ reservedPlacements h
  room : 0 < slack st

/-- The slack is the number of free buffers, and what was forgotten. -/
theorem Ledger.slack_eq {h : History σ} {st : MemoryStorage σ} (hl : Ledger h st)
    (hk : Linked st) : slack st = freeBuffers st + forgotten h := by
  have hu := hl.used
  have hm := hl.limit
  have hf := used_add_free hk
  rw [slack]
  omega

/-- A call that neither places nor grows nor touches the counters keeps the ledger. -/
theorem Ledger.frame {h : History σ} {st : MemoryStorage σ} (hl : Ledger h st)
    {e : CallEntry σ} (hp : placedReserved e = false) (hg : grows e = false)
    {st' : MemoryStorage σ} (hused : st'.bufferUsed = st.bufferUsed)
    (hlimit : st'.bufferLimit = st.bufferLimit) (hsize : st'.bufferSize = st.bufferSize)
    (hcount : usedBuffers st' = usedBuffers st) : Ledger (e :: h) st' := by
  have hr : reservedPlacements (e :: h) = reservedPlacements h := by
    simp [reservedPlacements, hp]
  have hf : forgotten (e :: h) = forgotten h := by simp [forgotten, hg]
  refine ⟨?_, ?_, ?_, ?_⟩
  · rw [hr, hused, hcount]
    exact hl.used
  · rw [hr, hf, hlimit, hsize]
    exact hl.limit
  · rw [hr, hf]
    exact hl.forgotten_le
  · rw [slack, hused, hlimit]
    exact hl.room

/-- Storing and trimming move both sides of the first equation alike, and neither side of
the second. -/
theorem written_counters {env : Env σ} {info : TorrentInfo} {st₁ st' : MemoryStorage σ}
    {p offset b : ℤ} {bufs : List (List Byte)} {pc : MemoryPiece} {bf : MemoryBuffer}
    (ho : Owns st₁ p pc b bf) (hw : WellFormed info (st₁.written env p pc b bf offset bufs))
    (ht : Trims env p (st₁.written env p pc b bf offset bufs) st') :
    st'.bufferLimit = st₁.bufferLimit ∧ st'.bufferSize = st₁.bufferSize ∧
      st'.bufferUsed - usedBuffers st' = st₁.bufferUsed - usedBuffers st₁ := by
  have hcount : usedBuffers (st₁.written env p pc b bf offset bufs) = usedBuffers st₁ :=
    usedBuffers_store ho _ _
  refine (ht.rule (I := fun s => s.bufferLimit = st₁.bufferLimit ∧
    s.bufferSize = st₁.bufferSize ∧
    s.bufferUsed - usedBuffers s = st₁.bufferUsed - usedBuffers st₁) ?_ hw ?_).2
  · rintro s s' hs ⟨hlimit, hsize, hused⟩ - hround
    rcases hround.cases with rfl | ⟨n, v, qc, c, cf, hv, -, -, rfl⟩
    · exact ⟨hlimit, hsize, hused⟩
    · refine ⟨hlimit, hsize, ?_⟩
      have hev : usedBuffers ((s.wait n).evict env v qc c cf) + 1 = usedBuffers s :=
        usedBuffers_evict hv
      rw [← hused, ← hev]
      simp only [evict, wait]
      omega
  · exact ⟨rfl, rfl, by rw [hcount]; rfl⟩

/-- An accepted `writev` places its piece iff it was not resident. -/
theorem placedReserved_accepted {info : TorrentInfo} {env : Env σ} {st st₁ st' : MemoryStorage σ}
    (hw : WellFormed info st) {p offset b : ℤ} {bufs : List (List Byte)} {pc : MemoryPiece}
    {bf : MemoryBuffer} (ha : Acquired env st p st₁) (ho : Owns st₁ p pc b bf) (h0 : 0 ≤ offset)
    (h1 : offset ≤ pc.length) (ht : Trims env p (st₁.written env p pc b bf offset bufs) st')
    (r : Reply) :
    placedReserved ⟨st, (.writev bufs p offset, r), st'⟩ =
      decide (¬Resident st p ∧ st.Reserved p) := by
  obtain ⟨hw₁, -⟩ := ha.wellFormed hw
  obtain ⟨hw₂, -⟩ := written_wellFormed hw ha ho h0 h1 bufs
  have hres : Resident st' p := by
    refine ht.resident hw₂ ?_
    rw [written, resident_store hw₁.toLinked ho]
    exact ho.resident hw₁.toLinked
  simp [placedReserved, hres]

/-- **An accepted `writev` keeps the ledger.** -/
theorem Ledger.accepted {info : TorrentInfo} {env : Env σ} {h : History σ}
    {st st₁ st' : MemoryStorage σ} (hl : Ledger h st) (hw : WellFormed info st) {p offset b : ℤ}
    {bufs : List (List Byte)} {r : Reply} {pc : MemoryPiece} {bf : MemoryBuffer}
    (ha : Acquired env st p st₁) (ho : Owns st₁ p pc b bf) (h0 : 0 ≤ offset)
    (h1 : offset ≤ pc.length) (ht : Trims env p (st₁.written env p pc b bf offset bufs) st')
    (hexit : st'.isFull = false) :
    Ledger (⟨st, (.writev bufs p offset, r), st'⟩ :: h) st' := by
  set e : CallEntry σ := ⟨st, (.writev bufs p offset, r), st'⟩ with he
  obtain ⟨hw₂, -⟩ := written_wellFormed hw ha ho h0 h1 bufs
  obtain ⟨hlimit, hsize, hused⟩ := written_counters ho hw₂ ht
  have hroom : 0 < slack st' := by
    rw [isFull_eq] at hexit
    simpa using hexit
  have hf : forgotten (e :: h) = forgotten h := by simp [forgotten, grows, he]
  have hledger := hl.used
  have hledger' := hl.limit
  have hle := hl.forgotten_le
  have hplaced : placedReserved e = decide (¬Resident st p ∧ st.Reserved p) :=
    placedReserved_accepted hw ha ho h0 h1 ht r
  cases ha with
  | kept hkept =>
      have hr : reservedPlacements (e :: h) = reservedPlacements h := by
        simp [reservedPlacements, hplaced, hkept]
      exact ⟨by omega, by omega, by omega, hroom⟩
  | @placed pc₀ b₀ bf₀ hp₀ hb₀ _ hfree =>
      have hnot : ¬Resident st p := (not_resident_iff hp₀).mpr hb₀
      have hr : reservedPlacements (e :: h)
          = reservedPlacements h + if st.Reserved p then 1 else 0 := by
        simp [reservedPlacements, hplaced, hnot]
      have hcount : usedBuffers (st.place env p pc₀ b₀ bf₀ (decide (st.Reserved p)))
          = usedBuffers st + 1 := usedBuffers_place hfree.buffer hfree.free _
      rw [hcount] at hused
      by_cases hreserved : st.Reserved p
      · simp only [hreserved, place, decide_true, if_true] at hlimit hsize hused hr
        exact ⟨by omega, by omega, by omega, hroom⟩
      · simp only [hreserved, place, decide_false, Bool.false_eq_true, if_false]
          at hlimit hsize hused hr
        exact ⟨by omega, by omega, by omega, hroom⟩

/-- **Growing keeps the ledger**, and forgets every reserved placement so far. -/
theorem Ledger.grown {info : TorrentInfo} {h : History σ} {st : MemoryStorage σ}
    (hl : Ledger h st) (hw : WellFormed info st) {s n : ℤ} (hs : st.capacity < s)
    (hn : poolSize s st.pieceLength st.pieceCount = .ok n) (r : Reply) :
    Ledger (⟨st, (.setMemorySize s, r), st.grow s n⟩ :: h) (st.grow s n) := by
  set e : CallEntry σ := ⟨st, (.setMemorySize s, r), st.grow s n⟩ with he
  obtain ⟨-, hsize⟩ := hw.grow hs hn
  have hr : reservedPlacements (e :: h) = reservedPlacements h := by
    simp [reservedPlacements, placedReserved, he]
  have hf : forgotten (e :: h) = reservedPlacements h := by simp [forgotten, grows, he, hs]
  have hused := hl.used
  have hlimit := hl.limit
  have hle := hl.forgotten_le
  have hroom := hl.room
  refine ⟨?_, ?_, ?_, ?_⟩
  · rw [hr, usedBuffers_grow]
    exact hused
  · rw [hr, hf]
    rfl
  · rw [hr, hf]
  · show 0 < n - st.bufferUsed
    rw [slack] at hroom
    omega

/-- A constructed storage has an empty ledger. -/
theorem Init.ledger {info : TorrentInfo} {st : MemoryStorage σ} (h : Init info st) :
    Ledger [] st := by
  have hw := h.wellFormed
  obtain ⟨memorySize, mHandle, t, torrent, hm, hnew⟩ := h
  obtain ⟨n, hn, hst⟩ := bind_eq_ok_iff.mp hnew
  obtain rfl := Except.ok.inj hst
  have hbounds := hw.bufferSize_bounds
  refine ⟨?_, ?_, le_rfl, ?_⟩
  · rw [usedBuffers, List.countP_eq_zero.mpr]
    · rfl
    · intro bf hbf
      obtain ⟨k, -, rfl⟩ := List.mem_map.mp hbf
      simp [MemoryBuffer.new]
  · rfl
  · show 0 < n - 0
    have := hbounds.1
    simp only at this
    omega

/-- **Every run keeps the ledger.** -/
theorem StorageRun.ledger {env : Env σ} {info : TorrentInfo} {h : History σ}
    {st : MemoryStorage σ} (hr : StorageRun env info h st) : Ledger h st := by
  refine StorageRun.rule (J := Ledger) (fun _ h0 => h0.ledger) ?_ hr
  intro h st c r st' hrun _ hl he
  have hw := hrun.wellFormed
  cases he with
  | refused hp hb _ =>
      refine hl.frame (placedReserved_not_resident ?_) rfl rfl rfl rfl rfl
      exact (not_resident_iff hp).mpr hb
  | noBuffer hp hb _ _ =>
      refine hl.frame (placedReserved_not_resident ?_) rfl rfl rfl rfl rfl
      exact (not_resident_iff hp).mpr hb
  | accepted ha ho h0 h1 ht hexit => exact hl.accepted hw ha ho h0 h1 ht hexit
  | missed _ _ => exact hl.frame rfl rfl rfl rfl rfl rfl
  | scattered ho _ _ => exact hl.frame rfl rfl rfl rfl rfl (usedBuffers_touch ho _)
  | incomplete _ _ => exact hl.frame rfl rfl rfl rfl rfl rfl
  | atEnd _ _ _ => exact hl.frame rfl rfl rfl rfl rfl rfl
  | copied ho _ _ _ _ =>
      have ho' : Owns ({ st with isReading := true } : MemoryStorage σ) _ _ _ _ :=
        ho.frame rfl rfl
      exact hl.frame rfl rfl rfl rfl rfl (usedBuffers_touch ho' _)
  | notGrown hs =>
      refine hl.frame rfl ?_ rfl rfl rfl rfl
      simpa [grows] using hs
  | grown hs hn => exact hl.grown hw hs hn _
  | readers _ _ => exact hl.frame rfl rfl rfl rfl rfl rfl
  | reserves _ _ => exact hl.frame rfl rfl rfl rfl rfl rfl
  | handle => exact hl.frame rfl rfl rfl rfl rfl rfl
  | outside => exact hl.frame rfl rfl rfl rfl rfl rfl

end Libtorrent
