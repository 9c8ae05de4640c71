/-
# Eviction in the order of use

The storage keeps no queue of its pieces, but a time of last access with each buffer, and
buffers pass from piece to piece.  Under a clock whose readings strictly increase, and with
priorities that change only when the torrent does, it evicts like a queue all the same:
`recency` lists the touches and the evictions of a run, and the piece `trim` evicts is the
victim of the queue they make (`evictions_follow_recency`).

Pieces of priority 0 are the low class, and the piece being written and the reserved pieces
are spared.
-/
import LibtorrentGo.Recency
import LibtorrentGo.Restores
import LibtorrentGo.Trimming

open MachineInt Subscript

namespace Libtorrent

open MemoryStorage

variable {σ : Type}

/-! ## Touches -/

/-- A `read` of piece `p` passes the completeness check and the check `available <= 0`. -/
def PassesChecks (st : MemoryStorage σ) (p offset : ℤ) : Prop :=
  match bufferOf st p with
  | some bf => ¬Incomplete st p ∧ 0 < toInt (toSize (bf.buffer.length - offset))
  | none => False

instance (st : MemoryStorage σ) (p offset : ℤ) : Decidable (PassesChecks st p offset) :=
  match h : bufferOf st p with
  | some bf => decidable_of_iff
      (¬Incomplete st p ∧ 0 < toInt (toSize (bf.buffer.length - offset)))
      (by simp [PassesChecks, h])
  | none => isFalse (by simp [PassesChecks, h])

/-- The piece a call touches: a `writev` that was given a buffer, newly or not, a `readv`
that found its piece resident, a `read` that passed its checks. -/
def touched (e : CallEntry σ) : Option ℤ :=
  match e.label.1 with
  | .writev _ p _ => if Resident e.after p then some p else none
  | .readv _ p _ => if Resident e.before p then some p else none
  | .read _ _ p offset => if PassesChecks e.before p offset then some p else none
  | _ => none

/-- The touches and the evictions of a run, newest first. -/
def recency : History σ → List (Recency.Event ℤ)
  | [] => []
  | e :: h => (evicted e).map .drop ++ (((touched e).map .touch).toList ++ recency h)

/-- A piece whose priority the handle reports as 0. -/
def Low (env : Env σ) (st : MemoryStorage σ) (q : ℤ) : Prop :=
  st.mHandle = true ∧ env.piecePriority st.ticks st.torrent q = 0

instance (env : Env σ) (st : MemoryStorage σ) (q : ℤ) : Decidable (Low env st q) :=
  inferInstanceAs (Decidable (_ ∧ _))

/-- The pieces a `trim(pi)` must not evict. -/
def Spared (st : MemoryStorage σ) (pi q : ℤ) : Prop := q = pi ∨ st.Reserved q

instance (st : MemoryStorage σ) (pi q : ℤ) : Decidable (Spared st pi q) :=
  inferInstanceAs (Decidable (_ ∨ _))

/-- The last access to the buffer of a piece. -/
def stamp (st : MemoryStorage σ) (q : ℤ) : ℤ := ((bufferOf st q).bind MemoryBuffer.accessed).getD 0

/-- An owner's stamp. -/
theorem stamp_eq {st : MemoryStorage σ} (h : Linked st) {q b t : ℤ} {pc : MemoryPiece}
    {bf : MemoryBuffer} (ho : Owns st q pc b bf) (hacc : bf.accessed = some t) :
    stamp st q = t := by
  unfold stamp
  rw [bufferOf_eq h ho]
  simp [hacc]

/-- A resident piece was accessed when the clock showed its stamp. -/
theorem Stamped.stamp_eq {env : Env σ} {st : MemoryStorage σ} (hs : Stamped env st)
    (h : Linked st) {q : ℤ} (hq : Resident st q) : ∃ n < st.ticks, stamp st q = env.clock n := by
  obtain ⟨pc, bf, ho⟩ := hq.owns h
  obtain ⟨n, hn, hacc⟩ := hs _ bf ho.buffer ho.used
  exact ⟨n, hn, Libtorrent.stamp_eq h ho hacc⟩

/-! ## The search, by stamps -/

/-- The priorities a handle reports depend on the torrent alone. -/
def Steady (env : Env σ) : Prop :=
  ∀ m n s q, env.piecePriority m s q = env.piecePriority n s q

/-- The search for pieces that are not readered looks for low pieces. -/
theorem isReadered_wait_iff {env : Env σ} (hsteady : Steady env) {st : MemoryStorage σ}
    (h : Linked st) (n : ℕ) (q : ℤ) : isReadered env (st.wait n) q = false ↔ Low env st q := by
  have hpriority := hsteady (st.ticks + n) st.ticks st.torrent q
  unfold isReadered Low
  simp only [wait, h.initialized, hpriority]
  cases st.mHandle <;> simp

/-- `Evictable` pieces in the preference of `trim(pi)`: low ones first, then by stamp. -/
structure Preferred (env : Env σ) (st : MemoryStorage σ) (pi v : ℤ) : Prop where
  evictable : Evictable st pi v
  lowFirst : ∀ w, Evictable st pi w → Low env st w → Low env st v
  earliest : ∀ w, Evictable st pi w → (Low env st w ↔ Low env st v) → stamp st v ≤ stamp st w

/-- **The piece that is first in line** is the preferred one. -/
theorem preferred_of_nextVictim {env : Env σ} (hsteady : Steady env) {st : MemoryStorage σ}
    (h : Linked st) (hclock : Behind env st) {pi v : ℤ} (hv : st.NextVictim env pi v) :
    Preferred env st pi v := by
  have hlow : ∀ n q, isReadered env (st.wait n) q = false ↔ Low env st q :=
    isReadered_wait_iff hsteady h
  -- a piece that can be evicted has a stamp
  have held : ∀ w, Evictable st pi w → ∃ wc c cf, Owns st w wc c cf ∧
      cf.accessed = some (stamp st w) := by
    intro w hw
    obtain ⟨wc, cf, ho⟩ := hw.2.1.owns h
    have hbefore := hclock st.ticks le_rfl _ cf ho.buffer ho.used
    unfold MemoryBuffer.accessedBefore at hbefore
    cases hacc : cf.accessed with
    | none => simp [hacc] at hbefore
    | some t => exact ⟨wc, _, cf, ho, by rw [hacc, stamp_eq h ho hacc]⟩
  -- no candidate of a search has an earlier stamp than the one it returns
  have least : ∀ {n : ℕ} {cr : Bool} {now b : ℤ} {bf : MemoryBuffer},
      (st.wait n).Oldest env pi cr now b bf → ∀ w, Evictable st pi w →
      (cr = true → Low env st w) → stamp st bf.pi ≤ stamp st w := by
    intro n cr now b bf hold w hw hwlow
    obtain ⟨pc, ho⟩ := h.owns_of_buffer (b := b) hold.buffer hold.candidate.1
    obtain ⟨wc, c, cf, hwo, hwacc⟩ := held w hw
    obtain ⟨t, hacc, -, hleast⟩ := hold.oldest
    rw [stamp_eq h ho hacc]
    have hcand := (candidate_iff h hwo env n pi cr).mpr ⟨hw, fun hcr => (hlow n w).mpr (hwlow hcr)⟩
    rcases hleast c cf _ hwo.buffer hcand hwacc with hlt | ⟨heq, -⟩
    · exact hlt.le
    · exact heq.le
  obtain ⟨b, bf, rfl, hold | ⟨hnone, hold⟩⟩ := hv
  · obtain ⟨pc, ho⟩ := h.owns_of_buffer (b := b) hold.buffer hold.candidate.1
    obtain ⟨hev, hread⟩ := (candidate_iff h ho env 1 pi true).mp hold.candidate
    have hvlow : Low env st bf.pi := (hlow 1 bf.pi).mp (hread rfl)
    refine ⟨hev, fun _ _ _ => hvlow, ?_⟩
    intro w hw hclass
    exact least hold w hw fun _ => hclass.mpr hvlow
  · obtain ⟨pc, ho⟩ := h.owns_of_buffer (b := b) hold.buffer hold.candidate.1
    obtain ⟨hev, -⟩ := (candidate_iff h ho env 2 pi false).mp hold.candidate
    refine ⟨hev, ?_, ?_⟩
    · intro w hw hwlow
      -- the first search would have found `w`
      obtain ⟨wc, c, cf, hwo, -⟩ := held w hw
      have hcand := (candidate_iff h hwo env 1 pi true).mpr ⟨hw, fun _ => (hlow 1 w).mpr hwlow⟩
      exact absurd hnone (not_noneOlder hclock le_rfl hwo.buffer hcand)
    · intro w hw _
      exact least hold w hw (by simp)

/-- **The piece that `trim`, entered in `st`, evicts first** is the preferred one, however
often it searched in vain. -/
theorem preferred_of_condemns {env : Env σ} (hsteady : Steady env) {st : MemoryStorage σ}
    (h : Linked st) (hclock : Behind env st) {pi v : ℤ} (hv : st.Condemns env pi v) :
    Preferred env st pi v := by
  obtain ⟨k, -, hnext⟩ := hv
  have hclock' : Behind env (st.wait (2 * k)) :=
    fun n hn => hclock n (le_trans (Nat.le_add_right st.ticks (2 * k)) hn)
  have hpref := preferred_of_nextVictim hsteady (linked_wait h (2 * k)) hclock' hnext
  have hlow : ∀ w, Low env (st.wait (2 * k)) w ↔ Low env st w := by
    intro w
    unfold Low
    rw [hsteady (st.wait (2 * k)).ticks st.ticks]
    rfl
  refine ⟨hpref.evictable, ?_, ?_⟩
  · intro w hw hwlow
    exact (hlow v).mp (hpref.lowFirst w hw ((hlow w).mpr hwlow))
  · intro w hw hclass
    exact hpref.earliest w hw (by rw [hlow, hlow]; exact hclass)

/-- The piece an accepted `writev` evicts is the preferred one in the state before the call:
placing its own piece and storing bytes for it makes no difference to the others. -/
theorem preferred_of_accepted {env : Env σ} (hclock : StrictMono env.clock)
    (hsteady : Steady env) {info : TorrentInfo} {st st₁ : MemoryStorage σ} {p offset b v : ℤ}
    {pc : MemoryPiece} {bf : MemoryBuffer} (hw : WellFormed info st) (hs : Stamped env st)
    (ha : Acquired env st p st₁) (ho : Owns st₁ p pc b bf) (h0 : 0 ≤ offset)
    (h1 : offset ≤ pc.length) (bufs : List (List Byte))
    (hv : (st₁.written env p pc b bf offset bufs).Condemns env p v) : Preferred env st p v := by
  obtain ⟨hw₂, -⟩ := written_wellFormed hw ha ho h0 h1 bufs
  obtain ⟨htorrent, hhandle, -⟩ := torrent_written ha b offset pc bf bufs
  have hpref := preferred_of_condemns hsteady hw₂.toLinked
    ((hs.written ha ho offset bufs).behind hclock) hv
  have hevictable := evictable_written_iff hw ha ho h0 h1 bufs
  have hlow : ∀ w, Low env (st₁.written env p pc b bf offset bufs) w ↔ Low env st w := by
    intro w
    unfold Low
    rw [htorrent, hhandle, hsteady (st₁.written env p pc b bf offset bufs).ticks st.ticks]
  have hstamp : ∀ w, w ≠ p → stamp (st₁.written env p pc b bf offset bufs) w = stamp st w := by
    intro w hne
    unfold stamp
    rw [(untouched_written hw ha ho offset bufs hne).buffer]
  have hev := (hevictable v).mp hpref.evictable
  refine ⟨hev, ?_, ?_⟩
  · intro w hwe hwlow
    exact (hlow v).mp (hpref.lowFirst w ((hevictable w).mpr hwe) ((hlow w).mpr hwlow))
  · intro w hwe hclass
    rw [← hstamp v hev.1, ← hstamp w hwe.1]
    exact hpref.earliest w ((hevictable w).mpr hwe) (by rw [hlow, hlow]; exact hclass)

/-! ## What a call touches -/

/-- The first check is for completeness. -/
theorem PassesChecks.complete {st : MemoryStorage σ} {p offset : ℤ}
    (h : PassesChecks st p offset) : ¬Incomplete st p := by
  unfold PassesChecks at h
  cases hb : bufferOf st p with
  | none => simp [hb] at h
  | some bf =>
      rw [hb] at h
      exact h.1

/-- The checks, by the records of the piece and its buffer. -/
theorem passesChecks_iff {st : MemoryStorage σ} (h : Linked st) {p b offset : ℤ}
    {pc : MemoryPiece} {bf : MemoryBuffer} (ho : Owns st p pc b bf) :
    PassesChecks st p offset ↔
      pc.length ≤ pc.intSize ∧ 0 < toInt (toSize (bf.buffer.length - offset)) := by
  unfold PassesChecks
  rw [bufferOf_eq h ho]
  simp only [incomplete_iff ho.piece, ho.bi, h.bi_ne ho, false_or, not_lt]

/-- A piece that a call does not touch keeps its stamp, if it stays. -/
theorem Effect.stamp_eq {env : Env σ} {info : TorrentInfo} {st st' : MemoryStorage σ}
    {c : Call σ} {r : Reply} (he : Effect env st c r st') (hw : WellFormed info st) {q : ℤ}
    (hq : touched ⟨st, (c, r), st'⟩ ≠ some q) (hres : Resident st' q) :
    Resident st q ∧ stamp st' q = stamp st q := by
  by_cases hown : c.piece? = some q
  · -- the call is about `q`, but it does not get to the buffer of `q`
    cases he with
    | refused _ _ _ => exact ⟨hres, rfl⟩
    | noBuffer _ _ _ _ => exact ⟨hres, rfl⟩
    | accepted _ _ _ _ _ _ =>
        obtain rfl := Option.some.inj hown
        exact absurd (if_pos hres) hq
    | missed _ _ => exact ⟨hres, rfl⟩
    | scattered ho _ _ =>
        obtain rfl := Option.some.inj hown
        exact absurd (if_pos (ho.resident hw.toLinked)) hq
    | incomplete _ _ => exact ⟨hres, rfl⟩
    | atEnd _ _ _ => exact ⟨hres, rfl⟩
    | @copied readBuf size p offset b pc bf ho hsize h0 h1 _ =>
        obtain rfl := Option.some.inj hown
        obtain ⟨-, -, hmax⟩ := hw.piece_fits ho.piece ho.buffer
        have havailable : 0 < toInt (toSize (bf.buffer.length - offset)) := by
          have hmin : intMin ≤ 0 := by decide
          rw [toSize_of_range (by omega) (by omega), toInt_of_range (by omega) (by omega)]
          omega
        exact absurd (if_pos ((passesChecks_iff hw.toLinked ho).mpr ⟨hsize, havailable⟩)) hq
    | _ => exact absurd hown (by simp [Call.piece?])
  · rcases he.untouched hw hown with hsame | ⟨-, hgone, -⟩
    · refine ⟨hsame.resident_iff.mp hres, ?_⟩
      unfold stamp
      rw [hsame.buffer]
    · exact absurd hres hgone

/-- A piece that a call touches is resident behind it, with a stamp of this call. -/
theorem Effect.stamp_touched {env : Env σ} {info : TorrentInfo} {st st' : MemoryStorage σ}
    {c : Call σ} {r : Reply} (he : Effect env st c r st') (hw : WellFormed info st) {p : ℤ}
    (hp : touched ⟨st, (c, r), st'⟩ = some p) :
    Resident st' p ∧ ∃ n, st.ticks ≤ n ∧ stamp st' p = env.clock n := by
  have stamped : ∀ {s : MemoryStorage σ} {n : ℕ} {bf : MemoryBuffer}, bufferOf s p = some bf →
      bf.accessed = some (env.clock n) → stamp s p = env.clock n := by
    intro s n bf hb hacc
    unfold stamp
    rw [hb]
    simp [hacc]
  have hit : ∀ {Q : Prop} [Decidable Q] {q : ℤ}, (if Q then some q else none) = some p →
      Q ∧ q = p := by
    intro Q _ q heq
    split at heq
    · rename_i hQ
      exact ⟨hQ, Option.some.inj heq⟩
    · exact absurd heq (by simp)
  cases he with
  | refused hq hb _ =>
      obtain ⟨hres, rfl⟩ := hit hp
      exact absurd hres ((not_resident_iff hq).mpr hb)
  | noBuffer hq hb _ _ =>
      obtain ⟨hres, rfl⟩ := hit hp
      exact absurd hres ((not_resident_iff hq).mpr hb)
  | @accepted bufs q offset b pc bf st₁ _ ha ho h0 h1 ht _ =>
      obtain ⟨hres, rfl⟩ := hit hp
      obtain ⟨hw₁, -⟩ := ha.wellFormed hw
      obtain ⟨hw₂, -⟩ := written_wellFormed hw ha ho h0 h1 bufs
      have hsame : Untouched (st₁.written env q pc b bf offset bufs) st' q :=
        (ht.untouched hw₂ q).resolve_right fun hboth => hboth.2 rfl
      have hticks : st.ticks ≤ st₁.ticks := by
        cases ha with
        | kept _ => exact le_rfl
        | placed _ _ _ _ => exact Nat.le_succ _
      refine ⟨hres, st₁.ticks, hticks, ?_⟩
      have hbuffer : bufferOf (st₁.written env q pc b bf offset bufs) q = some _ :=
        (bufferOf_store hw₁.toLinked ho _ _ q).trans (if_pos rfl)
      exact stamped (hsame.buffer.trans hbuffer) rfl
  | missed hq hb =>
      obtain ⟨hres, rfl⟩ := hit hp
      exact absurd hres ((not_resident_iff hq).mpr hb)
  | scattered ho _ _ =>
      obtain ⟨hres, rfl⟩ := hit hp
      refine ⟨(resident_touch hw.toLinked ho _ _).mpr hres, st.ticks, le_rfl, ?_⟩
      exact stamped (by rw [bufferOf_touch hw.toLinked ho, if_pos rfl]) rfl
  | incomplete hq hinc =>
      obtain ⟨hpass, rfl⟩ := hit hp
      exact absurd ((incomplete_iff hq).mpr hinc) hpass.complete
  | atEnd ho _ hend =>
      obtain ⟨hpass, rfl⟩ := hit hp
      obtain ⟨-, hpos⟩ := (passesChecks_iff hw.toLinked ho).mp hpass
      rw [hend, sub_self] at hpos
      exact absurd hpos (by decide)
  | copied ho _ _ _ _ =>
      obtain ⟨-, rfl⟩ := hit hp
      have hl := (hw.withTorrent st.torrent st.mHandle st.t true).toLinked
      have ho' : Owns ({ st with isReading := true } : MemoryStorage σ) _ _ _ _ :=
        ho.frame rfl rfl
      have hres : Resident ({ st with isReading := true } : MemoryStorage σ) _ :=
        ho.resident hw.toLinked
      refine ⟨(resident_touch hl ho' _ _).mpr hres, st.ticks, le_rfl, ?_⟩
      exact stamped (by rw [bufferOf_touch hl ho', if_pos rfl]) rfl
  | _ => exact absurd hp (by simp [touched])

/-! ## The queue of a run -/

/-- The queue holds the resident pieces, and their stamps increase along it. -/
structure Ranked (h : History σ) (st : MemoryStorage σ) : Prop where
  residents : ∀ q, q ∈ Recency.queue (recency h) ↔ Resident st q
  sorted : Recency.Sorted (stamp st) (Recency.queue (recency h))

/-- A constructed storage and its queue are empty. -/
theorem Init.ranked {info : TorrentInfo} {st : MemoryStorage σ} (h : Init info st) :
    Ranked [] st where
  residents := by
    intro q
    constructor
    · intro hq
      exact absurd hq List.not_mem_nil
    · rintro ⟨pc, hpc, hb⟩
      exact absurd (h.unbuffered hpc) hb
  sorted := List.Pairwise.nil

/-- **A call keeps the queue in step**: what it touches goes to the end, what it evicts
leaves. -/
theorem Ranked.next {env : Env σ} {info : TorrentInfo} (hclock : StrictMono env.clock)
    {g : History σ} {st st' : MemoryStorage σ} {c : Call σ} {r : Reply} (hr : Ranked g st)
    (he : Effect env st c r st') (hw : WellFormed info st) (hs : Stamped env st) :
    Ranked (⟨st, (c, r), st'⟩ :: g) st' := by
  have hgone : ∀ q, q ∉ evicted ⟨st, (c, r), st'⟩ ↔ (Resident st q → Resident st' q) := by
    intro q
    rw [mem_evicted_iff hw.toLinked, not_and, not_not]
  have hkept : ∀ q, touched ⟨st, (c, r), st'⟩ ≠ some q → Resident st' q →
      Resident st q ∧ stamp st' q = stamp st q := fun q => he.stamp_eq hw
  cases ht : touched ⟨st, (c, r), st'⟩ with
  | none =>
      have hqueue : recency (⟨st, (c, r), st'⟩ :: g) =
          (evicted ⟨st, (c, r), st'⟩).map .drop ++ recency g := by
        rw [recency, ht]
        rfl
      have hkept' : ∀ q, Resident st' q → Resident st q ∧ stamp st' q = stamp st q :=
        fun q => hkept q (by rw [ht]; simp)
      constructor
      · intro q
        rw [hqueue, Recency.mem_queue_drops, hr.residents, hgone]
        exact ⟨fun hq => hq.2 hq.1, fun hq => ⟨(hkept' q hq).1, fun _ => hq⟩⟩
      · rw [hqueue]
        apply Recency.sorted_drops hr.sorted
        intro q hq hnot
        exact (hkept' q ((hgone q).mp hnot ((hr.residents q).mp hq))).2
  | some p =>
      have hqueue : recency (⟨st, (c, r), st'⟩ :: g) =
          (evicted ⟨st, (c, r), st'⟩).map .drop ++ .touch p :: recency g := by
        rw [recency, ht]
        rfl
      have hkept' : ∀ q, q ≠ p → Resident st' q → Resident st q ∧ stamp st' q = stamp st q :=
        fun q hne => hkept q (by rw [ht]; exact fun heq => hne (Option.some.inj heq).symm)
      obtain ⟨hp, n, hn, hstamp⟩ := he.stamp_touched hw ht
      constructor
      · intro q
        rw [hqueue, Recency.mem_queue_drops, Recency.mem_queue_touch, hr.residents, hgone]
        constructor
        · rintro ⟨rfl | hq, hnot⟩
          · exact hp
          · exact hnot hq
        · intro hq
          refine ⟨?_, fun _ => hq⟩
          by_cases hne : q = p
          · exact Or.inl hne
          · exact Or.inr (hkept' q hne hq).1
      · -- the clock shows a later time than any stamp in the queue
        have hlast : ∀ q ∈ Recency.queue (recency g), stamp st q < env.clock n := by
          intro q hq
          obtain ⟨m, hm, heq⟩ := hs.stamp_eq hw.toLinked ((hr.residents q).mp hq)
          rw [heq]
          exact hclock (lt_of_lt_of_le hm hn)
        rw [hqueue]
        apply Recency.sorted_drops (Recency.sorted_touch hr.sorted hlast)
        intro q hq hnot
        by_cases hne : q = p
        · rw [hne, Function.update_self]
          exact hstamp
        · rw [Function.update_of_ne hne]
          have hbefore := (Recency.mem_queue_touch p q (recency g)).mp hq
          exact (hkept' q hne ((hgone q).mp hnot
            ((hr.residents q).mp (hbefore.resolve_left hne)))).2

/-- **Every run is in step with its queue.** -/
theorem StorageRun.ranked {env : Env σ} {info : TorrentInfo} (hclock : StrictMono env.clock)
    {h : History σ} {st : MemoryStorage σ} (hr : StorageRun env info h st) : Ranked h st := by
  apply StorageRun.rule (J := Ranked) _ _ hr
  · intro st h0
    exact h0.ranked
  · intro g st c r st' hrun _ hranked he
    exact hranked.next hclock he (StorageRun.wellFormed hrun) (StorageRun.stamped hrun)

/-! ## Evictions -/

/-- **What a `writev` evicts** is the preferred piece. -/
theorem Effect.preferred {env : Env σ} {info : TorrentInfo} (hclock : StrictMono env.clock)
    (hsteady : Steady env) {st st' : MemoryStorage σ} {c : Call σ} {r : Reply}
    (he : Effect env st c r st') (hw : WellFormed info st) (hroom : 0 < slack st)
    (hs : Stamped env st) {v : ℤ} (hv : Resident st v ∧ ¬Resident st' v) :
    ∃ bufs p offset, c = .writev bufs p offset ∧ Preferred env st p v := by
  obtain ⟨bufs, p, offset, rfl, -⟩ := he.evicts_only_writev hw hroom hv.1 hv.2
  refine ⟨bufs, p, offset, rfl, ?_⟩
  cases he with
  | refused _ _ _ => exact absurd hv.1 hv.2
  | noBuffer _ _ _ _ => exact absurd hv.1 hv.2
  | accepted ha ho h0 h1 ht hexit =>
      rcases accepted_cases hw hroom ha ho h0 h1 ht hexit with
        ⟨-, hstay⟩ | ⟨n, w, wc, d, df, hcond, -, -, -, -, hgone⟩
      · exact absurd (hstay v hv.1) hv.2
      · obtain rfl := (hgone v).mp hv
        exact preferred_of_accepted hclock hsteady hw hs ha ho h0 h1 bufs hcond

/-- The preferred piece is the victim of a queue that is in step. -/
theorem Ranked.victim_eq {env : Env σ} {h : History σ} {st : MemoryStorage σ} (hr : Ranked h st)
    {pi v : ℤ} (hv : Preferred env st pi v) :
    Recency.victim (Low env st) (Spared st pi) (Recency.queue (recency h)) = some v := by
  have hevictable : ∀ w, w ∈ Recency.queue (recency h) → ¬Spared st pi w → Evictable st pi w := by
    intro w hw hfree
    obtain ⟨hne, hres⟩ := not_or.mp hfree
    exact ⟨hne, (hr.residents w).mp hw, hres⟩
  apply (Recency.victim_eq_some_iff hr.sorted).mpr
  exact
    { mem := (hr.residents v).mpr hv.evictable.2.1
      free := not_or.mpr ⟨hv.evictable.1, hv.evictable.2.2⟩
      lowFirst := fun w hw hfree hlow => hv.lowFirst w (hevictable w hw hfree) hlow
      earliest := fun w hw hfree hclass => hv.earliest w (hevictable w hw hfree) hclass }

/-- **Eviction follows recency over whole runs.**  Under a clock whose readings strictly
increase, and with priorities that depend on the torrent alone, the queue of the touches and
evictions of a run holds the resident pieces; whatever a call of the run evicted was, in the
queue it found, the first piece of priority 0 that is neither reserved nor the one being
written, or the first one at all where none has priority 0.  That is the one of them that
was touched the longest ago. -/
theorem evictions_follow_recency {env : Env σ} {info : TorrentInfo}
    (hclock : StrictMono env.clock) (hsteady : Steady env) {h : History σ}
    {st : MemoryStorage σ} (hr : StorageRun env info h st) :
    (∀ q, q ∈ Recency.queue (recency h) ↔ Resident st q) ∧
    ∀ e g v, (e :: g) <:+ h → Evicts e v → ∃ bufs p offset, e.label.1 = .writev bufs p offset ∧
      Recency.victim (Low env e.before) (Spared e.before p) (Recency.queue (recency g)) = some v ∧
      Recency.Chosen (Low env e.before) (Spared e.before p)
        (fun q => Recency.lastTouch q (recency g)) (Recency.queue (recency g)) v := by
  refine ⟨(StorageRun.ranked hclock hr).residents, ?_⟩
  rintro ⟨st₀, ⟨c, r⟩, st₁⟩ g v hsuffix hv
  obtain ⟨hrun, hstep⟩ := Runs.Run.before hr hsuffix
  have hrun' : StorageRun env info g st₀ := hrun
  have hw := hrun'.wellFormed
  obtain ⟨bufs, p, offset, hcall, hpref⟩ :=
    (hstep.effect hw).preferred hclock hsteady hw hrun'.ledger.room hrun'.stamped hv
  have hvictim := (hrun'.ranked hclock).victim_eq hpref
  exact ⟨bufs, p, offset, hcall, hvictim,
    (Recency.victim_eq_some_iff (Recency.sorted_lastTouch (recency g))).mp hvictim⟩

/-- In a pool of three buffers, pieces 0, 1 and 2 were written and 0 was read again before 2,
so that 1 went.  When 3 is written, piece 2 goes and not 0, for its priority was set to 0. -/
theorem evictions_follow_recency_low :
    StrictMono picking.clock ∧ Steady picking ∧
    ∃ e g st, playNew picking 3 (quads 9) 4 ⟨[], []⟩ [.setTorrentHandle true, .writev [[1]] 0 0,
        .writev [[2]] 1 0, .readv [[0]] 0 0, .writev [[3]] 2 0, .outside ⟨[], [(2, 0)]⟩,
        .writev [[4]] 3 0] = some (e :: g, st) ∧
      Evicts e 2 ∧ Recency.queue (recency g) = [0, 2] ∧
      ∃ bufs p offset, e.label.1 = .writev bufs p offset ∧
        Recency.victim (Low picking e.before) (Spared e.before p) (Recency.queue (recency g))
          = some 2 ∧
        Recency.Chosen (Low picking e.before) (Spared e.before p)
          (fun q => Recency.lastTouch q (recency g)) (Recency.queue (recency g)) 2 := by
  have hplay : playNew picking 3 (quads 9) 4 ⟨[], []⟩ [.setTorrentHandle true,
      .writev [[1]] 0 0, .writev [[2]] 1 0, .readv [[0]] 0 0, .writev [[3]] 2 0,
      .outside ⟨[], [(2, 0)]⟩, .writev [[4]] 3 0] = some (_ :: _, _) := rfl
  have hsteady : Steady picking := fun _ _ _ _ => rfl
  exact ⟨strictMono_picking, hsteady, _, _, _, hplay, ⟨by decide, by decide⟩, by decide,
    (evictions_follow_recency strictMono_picking hsteady (playNew_run (by decide) hplay)).2 _ _ 2
      (List.suffix_refl _) ⟨by decide, by decide⟩⟩

end Libtorrent
