/-
# Calls in flight at the same time

`m_mutex` is held while a buffer is acquired and while `trim` runs, and not in between.
A call is therefore a sequence of atomic steps: `writev` acquires its buffer, copies,
accounts for what it copied, and trims; `readv` and `read` look for their buffer, and
copy.  `Traffic` is a storage with calls in flight on different pieces, `advance` makes
one step of one of them, and a call whose steps are made in a row is the call of the
sequential model (`solo_eq`).

`trim(p)` spares `p` and nobody else.  So a call finds its buffer when it comes to copy
iff nobody trims when its piece is first in line (`copies_own_iff`).
-/
import LibtorrentGo.Eviction

open Splice Subscript

namespace Libtorrent

open MemoryStorage

variable {σ : Type}

/-! ## The machine -/

/-- A transfer of bytes, on whatever piece. -/
inductive Job where
  | writev (bufs : List (List Byte)) (offset : ℤ) : Job
  | readv (bufs : List (List Byte)) (offset : ℤ) : Job
  | read (readBuf : List Byte) (size offset : ℤ) : Job

/-- The call that makes the transfer. -/
def Job.call (p : ℤ) : Job → Call σ
  | .writev bufs offset => .writev bufs p offset
  | .readv bufs offset => .readv bufs p offset
  | .read readBuf size offset => .read readBuf size p offset

/-- The offset at which the transfer starts. -/
def Job.offset : Job → ℤ
  | .writev _ offset => offset
  | .readv _ offset => offset
  | .read _ _ offset => offset

/-- What a call in flight does next: copy; account for `n` bytes; trim, and return `n`. -/
inductive Flight where
  | copy (job : Job) : Flight
  | account (n : ℤ) : Flight
  | trim (n : ℤ) : Flight

/-- A storage, and for each piece the call in flight on it, if there is one. -/
structure Traffic (σ : Type) where
  st : MemoryStorage σ
  flights : ℤ → Option Flight

namespace Traffic

/-- The call on piece `p` goes on to its next step. -/
def next (T : Traffic σ) (p : ℤ) (st : MemoryStorage σ) (f : Flight) : Traffic σ :=
  ⟨st, Function.update T.flights p (some f)⟩

/-- The call on piece `p` returns. -/
def done (T : Traffic σ) (p : ℤ) (st : MemoryStorage σ) : Traffic σ :=
  ⟨st, Function.update T.flights p none⟩

end Traffic

/-- The atomic steps: those of the calls in flight on a piece, and other calls as a whole. -/
inductive Move (σ : Type) where
  | get (p : ℤ) (job : Job) : Move σ
  | copy (p : ℤ) : Move σ
  | account (p : ℤ) : Move σ
  | trim (p : ℤ) : Move σ
  | whole (c : Call σ) : Move σ

/-- The first step of a call. -/
def getStep (env : Env σ) (T : Traffic σ) (p : ℤ) (job : Job) :
    Except Fault (Option Reply × Traffic σ) :=
  match job with
  | .writev _ _ =>
      if !T.st.isInitialized then .ok (some ⟨0, []⟩, T)
      else do
        let (got, st) ← getWriteBuffer env T.st p
        if !got then pure (some ⟨0, []⟩, { T with st := st })
        else pure (none, T.next p st (.copy job))
  | .readv bufs _ =>
      if !T.st.isInitialized then .ok (some ⟨0, bufs⟩, T)
      else do
        let (got, st) ← getReadBuffer env T.st p
        if !got then pure (some ⟨0, bufs⟩, { T with st := st })
        else pure (none, T.next p st (.copy job))
  | .read readBuf _ _ =>
      if !T.st.isInitialized then .ok (some ⟨0, [readBuf]⟩, T)
      else do
        let (got, st) ← getReadBuffer env { T.st with isReading := true } p
        if !got then pure (some ⟨-1, [readBuf]⟩, { T with st := restorePiece env st p })
        else pure (none, T.next p st (.copy job))

/-- The copy of a call, with which a read returns. -/
def copyStep (env : Env σ) (T : Traffic σ) (p : ℤ) :
    Job → Except Fault (Option Reply × Traffic σ)
  | .writev bufs offset => do
      let (n, st) ← writevCopy p bufs offset 0 T.st
      pure (none, T.next p st (.account n))
  | .readv bufs offset => do
      let (n, bufs) ← readvCopy T.st p bufs offset 0
      let st ← finishRead env T.st p (offset + n)
      pure (some ⟨n, bufs⟩, T.done p st)
  | .read readBuf size offset => do
      let (n, readBuf, st) ← readCopy env T.st readBuf size p offset
      pure (some ⟨n, [readBuf]⟩, T.done p st)

/-- One atomic step, with at most `fuel` rounds of `trim`; a call that is not at this step
stays where it is. -/
def advance (env : Env σ) (fuel : ℕ) (T : Traffic σ) :
    Move σ → Except Fault (Option Reply × Traffic σ)
  | .get p job => getStep env T p job
  | .copy p =>
      match T.flights p with
      | some (.copy job) => copyStep env T p job
      | _ => .ok (none, T)
  | .account p =>
      match T.flights p with
      | some (.account n) => do
          let st ← writevAccount env T.st p n
          pure (none, T.next p st (.trim n))
      | _ => .ok (none, T)
  | .trim p =>
      match T.flights p with
      | some (.trim n) => do
          let st ← writevTrim env fuel T.st p
          pure (some ⟨n, []⟩, T.done p st)
      | _ => .ok (none, T)
  | .whole c => do
      let (r, st) ← exec env fuel T.st c
      pure (some r, { T with st := st })

/-- The calls that transfer no bytes. -/
def Call.isOther : Call σ → Bool
  | .writev _ _ _ => false
  | .readv _ _ _ => false
  | .read _ _ _ _ => false
  | _ => true

/-- A call starts only on a piece that no call is in flight on. -/
def Move.Enabled (T : Traffic σ) : Move σ → Prop
  | .get p job => T.flights p = none ∧ (job.call p).Valid T.st
  | .whole c => c.isOther = true ∧ c.Valid T.st
  | _ => True

instance (T : Traffic σ) : (m : Move σ) → Decidable (m.Enabled T)
  | .get p job => inferInstanceAs (Decidable (T.flights p = none ∧ (job.call p).Valid T.st))
  | .whole c => inferInstanceAs (Decidable (c.isOther = true ∧ c.Valid T.st))
  | .copy _ => isTrue trivial
  | .account _ => isTrue trivial
  | .trim _ => isTrue trivial

/-! ## One call at a time -/

/-- The steps of a call on piece `p`, made in a row. -/
def solo (env : Env σ) (fuel : ℕ) (T : Traffic σ) (p : ℤ) (job : Job) :
    Except Fault (Option Reply × Traffic σ) := do
  let (r, T) ← advance env fuel T (.get p job)
  if r.isSome then pure (r, T)
  else
    let (r, T) ← advance env fuel T (.copy p)
    if r.isSome then pure (r, T)
    else
      let (_, T) ← advance env fuel T (.account p)
      advance env fuel T (.trim p)

/-- **A call whose steps are made in a row is that call of the sequential model.** -/
theorem solo_eq (env : Env σ) (fuel : ℕ) {T : Traffic σ} {p : ℤ} (hfree : T.flights p = none)
    (job : Job) :
    solo env fuel T p job =
      (do
        let (r, st) ← exec env fuel T.st (job.call p)
        pure (some r, { T with st := st })) := by
  have hlanded : ∀ f, Function.update (Function.update T.flights p f) p none = T.flights := by
    intro f
    rw [Function.update_idem, Function.update_eq_self_iff, hfree]
  cases job with
  | writev bufs offset =>
      simp only [solo, advance, getStep, Job.call, exec, writev]
      by_cases hinit : (!T.st.isInitialized) = true
      · simp only [if_pos hinit]
        rfl
      · simp only [if_neg hinit]
        cases hget : getWriteBuffer env T.st p with
        | error e => rfl
        | ok v =>
            obtain ⟨got, st⟩ := v
            cases got with
            | false => rfl
            | true =>
                simp only [ok_bind, Bool.not_true, Bool.false_eq_true, if_false, pure_eq_ok,
                  Option.isSome_none, Traffic.next, Function.update_self, copyStep]
                cases hcopy : writevCopy p bufs offset 0 st with
                | error e => rfl
                | ok v =>
                    obtain ⟨n, st⟩ := v
                    simp only [ok_bind, Function.update_self, Option.isSome_none,
                      Bool.false_eq_true, if_false]
                    cases hacc : writevAccount env st p n with
                    | error e => rfl
                    | ok st =>
                        simp only [ok_bind, Function.update_self]
                        cases htrim : writevTrim env fuel st p with
                        | error e => rfl
                        | ok st =>
                            simp only [ok_bind, Traffic.done, Function.update_idem, hlanded]
  | readv bufs offset =>
      simp only [solo, advance, getStep, Job.call, exec, readv]
      by_cases hinit : (!T.st.isInitialized) = true
      · simp only [if_pos hinit]
        rfl
      · simp only [if_neg hinit]
        cases hget : getReadBuffer env T.st p with
        | error e => rfl
        | ok v =>
            obtain ⟨got, st⟩ := v
            cases got with
            | false => rfl
            | true =>
                simp only [ok_bind, Bool.not_true, Bool.false_eq_true, if_false, pure_eq_ok,
                  Option.isSome_none, Traffic.next, Function.update_self, copyStep]
                cases hcopy : readvCopy st p bufs offset 0 with
                | error e => rfl
                | ok v =>
                    obtain ⟨n, bufs⟩ := v
                    simp only [ok_bind]
                    cases hfinish : finishRead env st p (offset + n) with
                    | error e => rfl
                    | ok st =>
                        simp only [ok_bind, Option.isSome_some, if_true, Traffic.done, hlanded]
  | read readBuf size offset =>
      simp only [solo, advance, getStep, Job.call, exec, MemoryStorage.read]
      by_cases hinit : (!T.st.isInitialized) = true
      · simp only [if_pos hinit]
        rfl
      · simp only [if_neg hinit]
        cases hget : getReadBuffer env { T.st with isReading := true } p with
        | error e => rfl
        | ok v =>
            obtain ⟨got, st⟩ := v
            cases got with
            | false => rfl
            | true =>
                simp only [ok_bind, Bool.not_true, Bool.false_eq_true, if_false, pure_eq_ok,
                  Option.isSome_none, Traffic.next, Function.update_self, copyStep]
                cases hcopy : readCopy env st readBuf size p offset with
                | error e => rfl
                | ok v =>
                    obtain ⟨n, readBuf, st⟩ := v
                    simp only [ok_bind, Option.isSome_some, if_true, Traffic.done, hlanded]

/-! ## Runs, and what is asked of them -/

/-- A storage that calls made one after another lead to, with none in flight. -/
def TrafficInit (env : Env σ) (info : TorrentInfo) (T : Traffic σ) : Prop :=
  (∃ h, StorageRun env info h T.st) ∧ ∀ p, T.flights p = none

/-- An atomic step, and the reply of the call if it was its last one. -/
def TrafficStep (env : Env σ) (T : Traffic σ) (l : Move σ × Option Reply) (T' : Traffic σ) :
    Prop :=
  l.1.Enabled T ∧ ∃ fuel, advance env fuel T l.1 = .ok (l.2, T')

/-- One step of a run. -/
abbrev TrafficEntry (σ : Type) : Type := Runs.Entry (Traffic σ) (Move σ × Option Reply)

/-- The runs: any number of calls in flight, their steps in any order. -/
abbrev TrafficRun (env : Env σ) (info : TorrentInfo) : List (TrafficEntry σ) → Traffic σ → Prop :=
  Runs.Run (TrafficInit env info) (TrafficStep env)

/-- Whatever the counters forgot, they are not short of room. -/
structure Roomy (st : MemoryStorage σ) : Prop where
  used : st.bufferUsed ≤ usedBuffers st
  size : st.bufferSize ≤ usedBuffers st + slack st

/-- The slack is never negative. -/
theorem Roomy.slack_nonneg {st : MemoryStorage σ} (hr : Roomy st) (h : Linked st) :
    0 ≤ slack st := by
  have hsize := hr.size
  have hsum := used_add_free h
  omega

/-- Only the counters and the number of used buffers matter. -/
theorem Roomy.frame {st st' : MemoryStorage σ} (hr : Roomy st)
    (hu : usedBuffers st' = usedBuffers st) (hused : st'.bufferUsed = st.bufferUsed)
    (hlimit : st'.bufferLimit = st.bufferLimit) (hsize : st'.bufferSize = st.bufferSize) :
    Roomy st' := by
  refine ⟨?_, ?_⟩
  · rw [hu, hused]
    exact hr.used
  · rw [hu, hsize, slack, hused, hlimit]
    exact hr.size

/-- Placing a piece leaves room. -/
theorem Roomy.place {env : Env σ} {st : MemoryStorage σ} (hr : Roomy st) {p b : ℤ}
    {pc : MemoryPiece} {bf : MemoryBuffer} (hb : at? st.buffers b = some bf)
    (hu : bf.isUsed = false) (r : Bool) : Roomy (st.place env p pc b bf r) := by
  have hcount : usedBuffers (st.place env p pc b bf r) = usedBuffers st + 1 :=
    usedBuffers_place hb hu r
  have hused := hr.used
  have hsize := hr.size
  refine ⟨?_, ?_⟩
  · rw [hcount]
    show (if r then st.bufferUsed else st.bufferUsed + 1) ≤ _
    split <;> omega
  · rw [hcount, slack_place]
    show st.bufferSize ≤ _
    omega

/-- Evicting a piece leaves room. -/
theorem Roomy.evict {env : Env σ} {st : MemoryStorage σ} (hr : Roomy st) {v b : ℤ}
    {vc : MemoryPiece} {bf : MemoryBuffer} (ho : Owns st v vc b bf) :
    Roomy (st.evict env v vc b bf) := by
  have hcount : usedBuffers (st.evict env v vc b bf) + 1 = usedBuffers st := usedBuffers_evict ho
  have hused := hr.used
  have hsize := hr.size
  refine ⟨?_, ?_⟩
  · show st.bufferUsed - 1 ≤ _
    omega
  · rw [slack_evict]
    show st.bufferSize ≤ _
    omega

/-- Growing leaves room. -/
theorem Roomy.grow {st : MemoryStorage σ} (hr : Roomy st) (s n : ℤ) : Roomy (st.grow s n) := by
  have hused := hr.used
  refine ⟨?_, ?_⟩
  · rw [usedBuffers_grow]
    exact hused
  · rw [usedBuffers_grow]
    show n ≤ usedBuffers st + (n - st.bufferUsed)
    omega

/-- A range is valid, or not, for as long as the torrent is the same. -/
theorem validRange_iff {info : TorrentInfo} {st : MemoryStorage σ} (h : WellFormed info st)
    (p offset : ℤ) :
    ValidRange st p offset ↔
      0 ≤ p ∧ p < info.numPieces ∧ 0 ≤ offset ∧ offset ≤ info.pieceSize p := by
  constructor
  · intro hv
    obtain ⟨pc, hp, h0, h1⟩ := hv.exists_piece
    have hbounds := h.piece_bounds hp
    rw [h.pieceCount_eq] at hbounds
    rw [h.piece_length hp] at h1
    exact ⟨hbounds.1, hbounds.2, h0, h1⟩
  · rintro ⟨hp0, hp1, h0, h1⟩
    obtain ⟨pc, hp⟩ := h.exists_piece hp0 (by rw [h.pieceCount_eq]; exact hp1)
    rw [ValidRange, hp]
    rw [← h.piece_length hp] at h1
    exact ⟨h0, h1⟩

/-- What holds in every state of a run. -/
structure Sane (info : TorrentInfo) (T : Traffic σ) : Prop where
  wellFormed : WellFormed info T.st
  roomy : Roomy T.st
  valid : ∀ p job, T.flights p = some (.copy job) → ValidRange T.st p job.offset

/-- A step by which nobody loses a buffer, and which brings to its copy only a call that
has one. -/
structure Keeps (info : TorrentInfo) (T T' : Traffic σ) : Prop where
  sane : Sane info T'
  stays : ∀ q, Resident T.st q → Resident T'.st q
  copies : ∀ q job, T'.flights q = some (.copy job) →
    T.flights q = some (.copy job) ∨ Resident T'.st q

/-- A step that changes nobody's flight. -/
theorem Sane.keeps {info : TorrentInfo} {T : Traffic σ} (hs : Sane info T)
    {st : MemoryStorage σ} (hw : WellFormed info st) (hr : Roomy st)
    (hstays : ∀ q, Resident T.st q → Resident st q) : Keeps info T { T with st := st } where
  sane :=
    { wellFormed := hw
      roomy := hr
      valid := fun q job hq => (validRange_iff hw q job.offset).mpr
        ((validRange_iff hs.wellFormed q job.offset).mp (hs.valid q job hq)) }
  stays := hstays
  copies := fun _ _ hq => Or.inl hq

/-- A step by which the call on `p` goes on. -/
theorem Keeps.update {info : TorrentInfo} {T : Traffic σ} {st : MemoryStorage σ}
    (hk : Keeps info T { T with st := st }) (p : ℤ) {f : Option Flight}
    (hf : ∀ job, f = some (.copy job) → Resident st p ∧ ValidRange st p job.offset) :
    Keeps info T ⟨st, Function.update T.flights p f⟩ where
  sane :=
    { wellFormed := hk.sane.wellFormed
      roomy := hk.sane.roomy
      valid := by
        intro q job hq
        simp only [Function.update_apply] at hq
        split at hq
        · rename_i hqp
          rw [hqp]
          exact (hf job hq).2
        · exact hk.sane.valid q job hq }
  stays := hk.stays
  copies := by
    intro q job hq
    simp only [Function.update_apply] at hq
    split at hq
    · rename_i hqp
      right
      rw [hqp]
      exact (hf job hq).1
    · exact Or.inl hq

/-- A step behind which the call on `p` is not about to copy. -/
theorem Keeps.leave {info : TorrentInfo} {T : Traffic σ} {st : MemoryStorage σ}
    (hk : Keeps info T { T with st := st }) (p : ℤ) {f : Option Flight}
    (hf : ∀ job, f ≠ some (.copy job)) : Keeps info T ⟨st, Function.update T.flights p f⟩ :=
  hk.update p fun job h => absurd h (hf job)

/-! ## One step -/

/-- The first step of a call. -/
theorem Sane.getStep {env : Env σ} {info : TorrentInfo} {T T' : Traffic σ} (hs : Sane info T)
    {p : ℤ} {job : Job} (hv : (job.call p : Call σ).Valid T.st) {r : Option Reply}
    (hget : getStep env T p job = .ok (r, T')) : Keeps info T T' := by
  have hw := hs.wellFormed
  have hinit : ¬(!T.st.isInitialized) = true := by simp [hw.initialized]
  have hrange : ValidRange T.st p job.offset := by
    cases job with
    | writev bufs offset => exact hv
    | readv bufs offset => exact hv
    | read readBuf size offset => exact hv.1
  obtain ⟨pc, hp, -⟩ := hrange.exists_piece
  -- a call that has its buffer goes on to its copy
  have goes : ∀ {st : MemoryStorage σ}, WellFormed info st → Roomy st →
      (∀ q, Resident T.st q → Resident st q) → Resident st p →
      Keeps info T (T.next p st (.copy job)) := by
    intro st hw' hr hstays hres
    refine (hs.keeps hw' hr hstays).update p ?_
    intro job' hjob
    obtain rfl := Flight.copy.inj (Option.some.inj hjob)
    exact ⟨hres, (validRange_iff hw' p _).mpr ((validRange_iff hw p _).mp hrange)⟩
  cases job with
  | writev bufs offset =>
      rw [Libtorrent.getStep, if_neg hinit] at hget
      rcases getWriteBuffer_cases env hw.toLinked hp with
        ⟨hb, heq⟩ | ⟨hb, -, heq⟩ | ⟨hb, -, -, heq⟩ | ⟨hb, -, b, bf, hfree, heq⟩
      all_goals
        rw [heq, ok_bind] at hget
        obtain ⟨-, rfl⟩ := Prod.mk.inj (Except.ok.inj hget)
      · exact goes hw hs.roomy (fun q hq => hq) ⟨pc, hp, hb⟩
      · rw [restorePiece_eq]
        exact hs.keeps (hw.withTorrent _ T.st.mHandle T.st.t T.st.isReading)
          (hs.roomy.frame rfl rfl rfl rfl) (fun q hq => hq)
      · exact hs.keeps hw hs.roomy (fun q hq => hq)
      · have hres : ∀ q, Resident (T.st.place env p pc b bf (decide (T.st.Reserved p))) q ↔
            q = p ∨ Resident T.st q :=
          resident_place hw.toLinked hp hb hfree.buffer hfree.free _
        exact goes (hw.place hp hb hfree.buffer hfree.free _)
          (hs.roomy.place hfree.buffer hfree.free _) (fun q hq => (hres q).mpr (Or.inr hq))
          ((hres p).mpr (Or.inl rfl))
  | readv bufs offset =>
      rw [Libtorrent.getStep, if_neg hinit, getReadBuffer_eq env hp, ok_bind] at hget
      by_cases hb : pc.bi = -1
      · have hnb : pc.isBuffered = false := by simp [MemoryPiece.isBuffered, hb]
        rw [hnb] at hget
        obtain ⟨-, rfl⟩ := Prod.mk.inj (Except.ok.inj hget)
        exact hs.keeps hw hs.roomy (fun q hq => hq)
      · have hbuf : pc.isBuffered = true := by simp [MemoryPiece.isBuffered, hb]
        rw [hbuf] at hget
        obtain ⟨-, rfl⟩ := Prod.mk.inj (Except.ok.inj hget)
        exact goes hw hs.roomy (fun q hq => hq) ⟨pc, hp, hb⟩
  | read readBuf size offset =>
      have hp' : at? ({ T.st with isReading := true } : MemoryStorage σ).pieces p = some pc := hp
      have hw' := hw.withTorrent T.st.torrent T.st.mHandle T.st.t true
      have hr' : Roomy ({ T.st with isReading := true } : MemoryStorage σ) :=
        hs.roomy.frame rfl rfl rfl rfl
      rw [Libtorrent.getStep, if_neg hinit, getReadBuffer_eq env hp', ok_bind] at hget
      by_cases hb : pc.bi = -1
      · have hnb : pc.isBuffered = false := by simp [MemoryPiece.isBuffered, hb]
        rw [hnb] at hget
        obtain ⟨-, rfl⟩ := Prod.mk.inj (Except.ok.inj hget)
        rw [restorePiece_eq]
        exact hs.keeps (hw.withTorrent _ T.st.mHandle T.st.t true)
          (hs.roomy.frame rfl rfl rfl rfl) (fun q hq => hq)
      · have hbuf : pc.isBuffered = true := by simp [MemoryPiece.isBuffered, hb]
        rw [hbuf] at hget
        obtain ⟨-, rfl⟩ := Prod.mk.inj (Except.ok.inj hget)
        exact goes hw' hr' (fun q hq => hq) ⟨pc, hp, hb⟩

/-- Ending a read of a piece succeeds only where the piece has a buffer, and touches that. -/
theorem Sane.finishRead {env : Env σ} {info : TorrentInfo} {T : Traffic σ} (hs : Sane info T)
    {p upTo : ℤ} {st : MemoryStorage σ} (hf : finishRead env T.st p upTo = .ok st) :
    Keeps info T { T with st := st } := by
  have hw := hs.wellFormed
  obtain ⟨pc, hp, hrest⟩ := bind_eq_ok_iff.mp hf
  obtain ⟨bf, hb, -⟩ := bind_eq_ok_iff.mp hrest
  have ho := owns_of_subscripts hw.toLinked hp hb
  rw [finishRead_eq env ho] at hf
  obtain rfl := Except.ok.inj hf
  refine hs.keeps (hw.touch ho upTo) ?_ ?_
  · exact hs.roomy.frame (usedBuffers_touch ho upTo) rfl rfl rfl
  · exact fun q hq => (resident_touch hw.toLinked ho upTo q).mpr hq

/-- The copy of a call. -/
theorem Sane.copyStep {env : Env σ} {info : TorrentInfo} {T T' : Traffic σ} (hs : Sane info T)
    {p : ℤ} {job : Job} (hp : T.flights p = some (.copy job)) {r : Option Reply}
    (hcopy : copyStep env T p job = .ok (r, T')) : Keeps info T T' := by
  have hw := hs.wellFormed
  have same : Keeps info T { T with st := T.st } := hs.keeps hw hs.roomy (fun q hq => hq)
  obtain ⟨pc, hpc, h0, h1⟩ := (hs.valid p job hp).exists_piece
  cases job with
  | writev bufs offset =>
      obtain ⟨⟨n, st⟩, hloop, hret⟩ := bind_eq_ok_iff.mp hcopy
      obtain ⟨-, rfl⟩ := Prod.mk.inj (Except.ok.inj hret)
      refine Keeps.leave ?_ p (by simp)
      cases bufs with
      | nil =>
          obtain ⟨-, rfl⟩ := Prod.mk.inj (Except.ok.inj hloop)
          exact same
      | cons iov bufs =>
          -- the first chunk faults unless the piece has a buffer
          obtain ⟨pc', hp', hrest⟩ := bind_eq_ok_iff.mp hloop
          obtain ⟨bf, hb', -⟩ := bind_eq_ok_iff.mp hrest
          have ho := owns_of_subscripts hw.toLinked hp' hb'
          obtain rfl := ho.piece_eq hpc
          obtain ⟨-, hfit, hint⟩ := hw.piece_fits ho.piece ho.buffer
          have hcopied := writevCopy_eq ho (iov :: bufs) (n := 0) h0 h1 hfit (by omega)
          rw [show (Job.writev (iov :: bufs) offset).offset = offset from rfl, hloop] at hcopied
          obtain ⟨-, rfl⟩ := Prod.mk.inj (Except.ok.inj hcopied)
          have hroom := hw.fitting_fits ho h0 h1 (iov :: bufs)
          have hrevise := hw.revise ho pc { bf with
            buffer := splice bf.buffer offset.toNat (fitting pc.length offset (iov :: bufs)) }
            ⟨rfl, rfl, rfl⟩ ⟨rfl, rfl, rfl, length_splice hroom⟩ T.st.ticks
          rw [revise, put_at? ho.piece] at hrevise
          obtain ⟨hw', hused, hres⟩ := hrevise
          exact hs.keeps hw' (hs.roomy.frame hused rfl rfl rfl) (fun q => (hres q).mpr)
  | readv bufs offset =>
      obtain ⟨⟨n, out⟩, -, hrest⟩ := bind_eq_ok_iff.mp hcopy
      obtain ⟨st, hfinish, hret⟩ := bind_eq_ok_iff.mp hrest
      obtain ⟨-, rfl⟩ := Prod.mk.inj (Except.ok.inj hret)
      exact (hs.finishRead hfinish).leave p (by simp)
  | read readBuf size offset =>
      obtain ⟨⟨n, out, st⟩, hread, hret⟩ := bind_eq_ok_iff.mp hcopy
      obtain ⟨-, rfl⟩ := Prod.mk.inj (Except.ok.inj hret)
      refine Keeps.leave ?_ p (by simp)
      rw [readCopy, subscript_eq hpc, ok_bind] at hread
      split at hread
      · obtain ⟨-, hpair⟩ := Prod.mk.inj (Except.ok.inj hread)
        obtain ⟨-, rfl⟩ := Prod.mk.inj hpair
        rw [restorePiece_eq]
        exact hs.keeps (hw.withTorrent _ T.st.mHandle T.st.t T.st.isReading)
          (hs.roomy.frame rfl rfl rfl rfl) (fun q hq => hq)
      · obtain ⟨bf, -, hread⟩ := bind_eq_ok_iff.mp hread
        simp only at hread
        split at hread
        · obtain ⟨-, hpair⟩ := Prod.mk.inj (Except.ok.inj hread)
          obtain ⟨-, rfl⟩ := Prod.mk.inj hpair
          exact same
        · obtain ⟨bytes, -, hread⟩ := bind_eq_ok_iff.mp hread
          obtain ⟨st', hfinish, hread⟩ := bind_eq_ok_iff.mp hread
          obtain ⟨-, hpair⟩ := Prod.mk.inj (Except.ok.inj hread)
          obtain ⟨-, rfl⟩ := Prod.mk.inj hpair
          exact hs.finishRead hfinish

/-- Accounting succeeds only where the piece has a buffer. -/
theorem Sane.account {env : Env σ} {info : TorrentInfo} {T : Traffic σ} (hs : Sane info T)
    {p n : ℤ} {st : MemoryStorage σ} (hacc : writevAccount env T.st p n = .ok st) :
    Keeps info T { T with st := st } := by
  have hw := hs.wellFormed
  obtain ⟨pc, hpc, hacc⟩ := bind_eq_ok_iff.mp hacc
  obtain ⟨bf, hbf, hacc⟩ := bind_eq_ok_iff.mp hacc
  obtain rfl := Except.ok.inj hacc
  have ho := owns_of_subscripts hw.toLinked hpc hbf
  obtain ⟨hw', hused, hres⟩ := hw.revise ho { pc with size := pc.size + n }
    { bf with accessed := some (env.clock T.st.ticks) } ⟨rfl, rfl, rfl⟩ ⟨rfl, rfl, rfl, rfl⟩
    (T.st.ticks + 1)
  exact hs.keeps hw' (hs.roomy.frame hused rfl rfl rfl) (fun q => (hres q).mpr)

/-- A call that transfers nothing, as a whole. -/
theorem Sane.whole {env : Env σ} {info : TorrentInfo} {T : Traffic σ} (hs : Sane info T)
    {c : Call σ} (hc : c.isOther = true) {r : Reply} {st : MemoryStorage σ}
    (heff : Effect env T.st c r st) : Keeps info T { T with st := st } := by
  refine hs.keeps (heff.wellFormed hs.wellFormed) ?_ ?_
  · cases heff with
    | notGrown _ => exact hs.roomy
    | grown _ _ => exact hs.roomy.grow _ _
    | readers _ _ => exact hs.roomy.frame rfl rfl rfl rfl
    | reserves _ _ => exact hs.roomy.frame rfl rfl rfl rfl
    | handle => exact hs.roomy.frame rfl rfl rfl rfl
    | outside => exact hs.roomy.frame rfl rfl rfl rfl
    | _ => exact absurd hc (by simp [Call.isOther])
  · intro q hq
    cases heff with
    | notGrown _ => exact hq
    | grown _ _ => exact hq
    | readers _ _ => exact hq
    | reserves _ _ => exact hq
    | handle => exact hq
    | outside => exact hq
    | _ => exact absurd hc (by simp [Call.isOther])

/-- A `trim` that finds the pool full evicts the piece that is first in line, which is not
its own. -/
theorem Sane.trim {env : Env σ} {info : TorrentInfo} {T : Traffic σ} (hs : Sane info T) {p : ℤ}
    {fuel : ℕ} {st : MemoryStorage σ} (htrim : writevTrim env fuel T.st p = .ok st) :
    (T.st.isFull = false ∧ st = T.st) ∨
    (T.st.isFull = true ∧ WellFormed info st ∧ Roomy st ∧
      ∃ v, T.st.Condemns env p v ∧ v ≠ p ∧ ∀ q, Resident st q ↔ Resident T.st q ∧ q ≠ v) := by
  have hw := hs.wellFormed
  rw [writevTrim_eq env fuel hw.capacity_nonneg p] at htrim
  obtain ⟨ht, hexit⟩ := trims_of_loop hw.toLinked htrim
  rcases trims_cases hw (hs.roomy.slack_nonneg hw.toLinked) ht hexit with
    ⟨hpos, rfl⟩ | ⟨hzero, n, v, vc, b, bf, hfirst, hv, -, hvp, rfl⟩
  · exact Or.inl ⟨hexit, rfl⟩
  · right
    have hwait : Roomy (T.st.wait n) := hs.roomy.frame rfl rfl rfl rfl
    refine ⟨?_, ?_, hwait.evict hv, v, hfirst, hvp, ?_⟩
    · rw [isFull_eq]
      simp [hzero]
    · exact (ht.rule (I := fun _ => True) (fun _ _ _ _ _ _ => trivial) hw trivial).1
    · exact resident_evict (linked_wait hw.toLinked n) hv

/-- **One atomic step** takes no buffer away, or is a `trim` that finds the pool full and
evicts the piece that is first in line. -/
theorem Sane.advance {env : Env σ} {info : TorrentInfo} {T T' : Traffic σ} (hs : Sane info T)
    {m : Move σ} (hen : m.Enabled T) {fuel : ℕ} {r : Option Reply}
    (hadv : advance env fuel T m = .ok (r, T')) :
    Keeps info T T' ∨ ∃ p n v, m = .trim p ∧ T.flights p = some (.trim n) ∧
      T.st.isFull = true ∧ T.st.Condemns env p v ∧ v ≠ p ∧ Sane info T' ∧
      T'.flights = Function.update T.flights p none ∧
      ∀ q, Resident T'.st q ↔ Resident T.st q ∧ q ≠ v := by
  have same : Keeps info T T := hs.keeps hs.wellFormed hs.roomy (fun q hq => hq)
  cases m with
  | get p job => exact Or.inl (hs.getStep hen.2 hadv)
  | copy p =>
      left
      simp only [Libtorrent.advance] at hadv
      split at hadv
      · rename_i job hp
        exact hs.copyStep hp hadv
      · obtain ⟨-, rfl⟩ := Prod.mk.inj (Except.ok.inj hadv)
        exact same
  | account p =>
      left
      simp only [Libtorrent.advance] at hadv
      split at hadv
      · obtain ⟨st, hacc, hret⟩ := bind_eq_ok_iff.mp hadv
        obtain ⟨-, rfl⟩ := Prod.mk.inj (Except.ok.inj hret)
        exact (hs.account hacc).leave p (by simp)
      · obtain ⟨-, rfl⟩ := Prod.mk.inj (Except.ok.inj hadv)
        exact same
  | trim p =>
      simp only [Libtorrent.advance] at hadv
      split at hadv
      · rename_i n hp
        obtain ⟨st, htrim, hret⟩ := bind_eq_ok_iff.mp hadv
        obtain ⟨-, rfl⟩ := Prod.mk.inj (Except.ok.inj hret)
        rcases hs.trim htrim with ⟨-, rfl⟩ | ⟨hfull, hw, hr, v, hv, hvp, hres⟩
        · exact Or.inl (same.leave p (by simp))
        · right
          refine ⟨p, n, v, rfl, hp, hfull, hv, hvp, ⟨hw, hr, ?_⟩, rfl, hres⟩
          intro q job hq
          simp only [Traffic.done, Function.update_apply] at hq
          split at hq
          · exact absurd hq (by simp)
          · exact (validRange_iff hw q job.offset).mpr
              ((validRange_iff hs.wellFormed q job.offset).mp (hs.valid q job hq))
      · obtain ⟨-, rfl⟩ := Prod.mk.inj (Except.ok.inj hadv)
        exact Or.inl same
  | whole c =>
      left
      obtain ⟨⟨r', st⟩, hexec, hret⟩ := bind_eq_ok_iff.mp hadv
      obtain ⟨-, rfl⟩ := Prod.mk.inj (Except.ok.inj hret)
      exact hs.whole hen.1 (effect_of_exec hs.wellFormed hen.2 hexec)

/-! ## Every run -/

/-- **Every state of a run is sane**, whatever its calls find. -/
theorem TrafficRun.sane {env : Env σ} {info : TorrentInfo} {h : List (TrafficEntry σ)}
    {T : Traffic σ} (hr : TrafficRun env info h T) : Sane info T := by
  refine hr.invariant ?_ ?_
  · rintro T ⟨⟨h', hrun⟩, hnone⟩
    have hl := hrun.ledger
    have hused := hl.used
    have hlimit := hl.limit
    refine ⟨hrun.wellFormed, ⟨by omega, ?_⟩, ?_⟩
    · rw [slack]
      omega
    · intro p job hp
      rw [hnone p] at hp
      exact absurd hp (by simp)
  · rintro T l T' hs ⟨hen, fuel, hadv⟩
    rcases hs.advance hen hadv with hk | ⟨_, _, _, _, _, _, _, _, hs', _, _⟩
    · exact hk.sane
    · exact hs'

end Libtorrent
