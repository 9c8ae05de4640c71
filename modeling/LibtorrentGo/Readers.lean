/-
# Reads among other threads

A `read` or a `readv` looks for the buffer of its piece, behind `m_mutex` if it has to look
twice, and makes its tests and copies chunk by chunk without a lock.  It changes nothing before
its last step.
When other threads change the piece meanwhile, it may deliver some bytes of before and some of
after.  When none does, once it has found the piece buffered, it takes effect at one moment,
its last step: there it returns what the sequential call made in that state returns, and
leaves the storage that call leaves, whatever happens to other pieces (`reads_linearize`).

What carries the proof is `rest`, what is left of a read at each of its stages: while nothing
comes between, it stays equal to the whole call.
-/
import LibtorrentGo.Orderly

open MachineInt Subscript

namespace Libtorrent

open MemoryStorage

variable {σ ι : Type}

/-- The transfer reads. -/
def Job.reads : Job → Bool
  | .writev _ _ => false
  | .readv _ _ => true
  | .read _ _ _ => true

/-- The piece that is read at a stage that copies for a read. -/
def Stage.reads : Stage → Option ℤ
  | .check p _ _ _ => some p
  | .measure p _ _ _ => some p
  | .chunk p (.readv _ _ _ _ _) => some p
  | .aim p _ (.readv _ _ _ _ _ _) => some p
  | .aim p _ (.read _ _ _) => some p
  | .move p _ _ (.readv _ _ _ _ _ _) => some p
  | .move p _ _ (.read _ _ _) => some p
  | .finish p _ _ => some p
  | _ => none

/-! ## What a read sees -/

/-- What a read sees of its piece. -/
structure Sight where
  length : ℤ
  size : ℤ
  bi : ℤ
  bytes : Option (List Byte)
  deriving DecidableEq

/-- What a read of piece `p` sees. -/
def sight (st : MemoryStorage σ) (p : ℤ) : Option Sight :=
  (at? st.pieces p).map fun pc =>
    ⟨pc.length, pc.size, pc.bi, (at? st.buffers pc.bi).map MemoryBuffer.buffer⟩

/-- The same piece in two states that look the same. -/
theorem subscript_of_sight {st st' : MemoryStorage σ} {p : ℤ} (h : sight st' p = sight st p)
    {pc : MemoryPiece} (hp : subscript st.pieces p = .ok pc) :
    ∃ pc', subscript st'.pieces p = .ok pc' ∧ pc'.length = pc.length ∧
      pc'.intSize = pc.intSize ∧ pc'.bi = pc.bi ∧
      (at? st'.buffers pc.bi).map MemoryBuffer.buffer =
        (at? st.buffers pc.bi).map MemoryBuffer.buffer := by
  rw [sight, sight, at?_of_subscript hp, Option.map_some] at h
  obtain ⟨pc', hp', heq⟩ := Option.map_eq_some_iff.mp h
  obtain ⟨hlen, hsize, hbi, hbytes⟩ := Sight.mk.inj heq
  refine ⟨pc', subscript_eq hp', hlen, ?_, hbi, ?_⟩
  · rw [MemoryPiece.intSize, MemoryPiece.intSize, hsize]
  · rw [← hbi, hbytes, hbi]

/-- The same buffer in two states that look the same. -/
theorem subscript_of_bytes {st st' : MemoryStorage σ} {b : ℤ}
    (h : (at? st'.buffers b).map MemoryBuffer.buffer = (at? st.buffers b).map MemoryBuffer.buffer)
    {bf : MemoryBuffer} (hb : subscript st.buffers b = .ok bf) :
    ∃ bf', subscript st'.buffers b = .ok bf' ∧ bf'.buffer = bf.buffer := by
  rw [at?_of_subscript hb, Option.map_some] at h
  obtain ⟨bf', hb', hbytes⟩ := Option.map_eq_some_iff.mp h
  exact ⟨bf', subscript_eq hb', hbytes⟩

/-! ## What is left of a read -/

/-- What is left of a `readv` between two rounds of its loop. -/
def restReadv (env : Env σ) (st : MemoryStorage σ) (p : ℤ) (filled bufs : List (List Byte))
    (offset fileOffset n : ℤ) : Except Fault (Reply × MemoryStorage σ) := do
  let (n, out) ← readvCopy st p bufs fileOffset n
  let st ← finishRead env st p (offset + n)
  pure (⟨n, filled ++ out⟩, st)

/-- What is left when the address is known. -/
def restMove (env : Env σ) (st : MemoryStorage σ) (p b toCopy : ℤ) :
    Chunk → Except Fault (Reply × MemoryStorage σ)
  | .writev _ _ _ _ => .error .outOfFuel
  | .readv filled iov bufs offset fileOffset n => do
      let bf ← subscript st.buffers b
      let iov ← memcpy iov 0 bf.buffer fileOffset toCopy
      restReadv env st p (filled ++ [iov]) bufs offset (fileOffset + toCopy) (n + toCopy)
  | .read readBuf size offset => do
      let bf ← subscript st.buffers b
      let readBuf ← memcpy readBuf 0 bf.buffer offset toCopy
      let st ← finishRead env st p (offset + toCopy)
      pure (⟨size, [readBuf]⟩, st)

/-- What is left before it is. -/
def restAim (env : Env σ) (st : MemoryStorage σ) (p toCopy : ℤ) (k : Chunk) :
    Except Fault (Reply × MemoryStorage σ) := do
  let pc ← subscript st.pieces p
  let _ ← subscript st.buffers pc.bi
  restMove env st p pc.bi toCopy k

/-- What is left of a read at a stage that copies for it, made in a row. -/
def rest (env : Env σ) (st : MemoryStorage σ) : Stage → Except Fault (Reply × MemoryStorage σ)
  | .check p readBuf size offset => do
      let (n, readBuf, st) ← readCopy env st readBuf size p offset
      pure (⟨n, [readBuf]⟩, st)
  | .measure p readBuf size offset => do
      let pc ← subscript st.pieces p
      let bf ← subscript st.buffers pc.bi
      let available := toInt (toSize (bf.buffer.length - offset))
      if available ≤ 0 then pure (⟨0, [readBuf]⟩, st)
      else
        restAim env st p (if available > size then size else available) (.read readBuf size offset)
  | .chunk p (.readv filled bufs offset fileOffset n) =>
      restReadv env st p filled bufs offset fileOffset n
  | .aim p toCopy k => restAim env st p toCopy k
  | .move p b toCopy k => restMove env st p b toCopy k
  | .finish p upTo r => do
      let st ← finishRead env st p upTo
      pure (r, st)
  | _ => .error .outOfFuel

/-- `readv` of a buffered piece is its copy and the statements behind it. -/
theorem readv_of_buffered (env : Env σ) {st : MemoryStorage σ} (hinit : st.isInitialized = true)
    {p : ℤ} {pc : MemoryPiece} (hp : at? st.pieces p = some pc) (hb : pc.isBuffered = true)
    (bufs : List (List Byte)) (offset : ℤ) :
    readv env st bufs p offset = (do
      let (n, bufs) ← readvCopy st p bufs offset 0
      let st ← finishRead env st p (offset + n)
      pure (n, bufs, st)) := by
  rw [readv, if_neg (by simp [hinit]), getReadBuffer_eq env hp, hb]
  rfl

/-- `read` where it is known that something is read. -/
theorem read_of_reading (env : Env σ) {st : MemoryStorage σ} (hinit : st.isInitialized = true)
    (hread : st.isReading = true) {p : ℤ} {pc : MemoryPiece} (hp : at? st.pieces p = some pc)
    (readBuf : List Byte) (size offset : ℤ) :
    MemoryStorage.read env st readBuf size p offset =
      if pc.isBuffered then readCopy env st readBuf size p offset
      else .ok (-1, readBuf, restorePiece env st p) := by
  have hsame : ({ st with isReading := true } : MemoryStorage σ) = st := by
    rw [← hread]
  rw [MemoryStorage.read, if_neg (by simp [hinit]), hsame, getReadBuffer_eq env hp]
  cases pc.isBuffered <;> rfl

/-- The storage a read is made on: it is known that a `read` is under way, if it is one. -/
structure Ready (job : Job) (st : MemoryStorage σ) : Prop where
  initialized : st.isInitialized = true
  reading : ∀ readBuf size offset, job = .read readBuf size offset → st.isReading = true

/-- **When a piece is buffered, all of the read is left.** -/
theorem exec_eq_rest (env : Env σ) {st : MemoryStorage σ} {p : ℤ} {job : Job}
    (hready : Ready job st) (hjob : job.reads = true) {pc : MemoryPiece}
    (hp : at? st.pieces p = some pc) (hb : pc.isBuffered = true) (fuel : ℕ) :
    exec env fuel st (job.call p) = rest env st (job.begins p) := by
  cases job with
  | writev bufs offset => exact absurd hjob (by simp [Job.reads])
  | readv bufs offset =>
      rw [Job.call, exec, readv_of_buffered env hready.initialized hp hb, Job.begins, rest,
        restReadv]
      cases readvCopy st p bufs offset 0 with
      | error e => rfl
      | ok v =>
          simp only [ok_bind]
          cases finishRead env st p (offset + v.1) <;> rfl
  | read readBuf size offset =>
      rw [Job.call, exec, read_of_reading env hready.initialized (hready.reading _ _ _ rfl) hp,
        if_pos hb, Job.begins, rest]

section Steps

variable [DecidableEq ι] {env : Env σ} {info : TorrentInfo} {C C' : Crew ι σ} {i : ι}
  {r : Option Reply}

/-- **The last step of a read** makes what is left of it. -/
theorem rest_of_last {s : Stage} {p : ℤ} (hs : s.reads = some p) {v : Reply}
    (hturn : turn env C i s = .ok (some v, C')) : rest env C.st s = .ok (v, C'.st) := by
  cases s with
  | check q readBuf size offset =>
      obtain ⟨pc, hp, hret⟩ := bind_eq_ok_iff.mp hturn
      split at hret
      · rename_i hinc
        obtain ⟨hv, rfl⟩ := Prod.mk.inj (Except.ok.inj hret)
        obtain rfl := Option.some.inj hv
        rw [rest, readCopy, hp, ok_bind, if_pos hinc]
        rfl
      · exact absurd (Prod.mk.inj (Except.ok.inj hret)).1 (by simp)
  | measure q readBuf size offset =>
      obtain ⟨pc, hp, hrest⟩ := bind_eq_ok_iff.mp hturn
      obtain ⟨bf, hb, hret⟩ := bind_eq_ok_iff.mp hrest
      simp only at hret
      split at hret
      · rename_i hnone
        obtain ⟨hv, rfl⟩ := Prod.mk.inj (Except.ok.inj hret)
        obtain rfl := Option.some.inj hv
        rw [rest, hp, ok_bind, hb, ok_bind]
        simp only
        rw [if_pos hnone]
        rfl
      · exact absurd (Prod.mk.inj (Except.ok.inj hret)).1 (by simp)
  | chunk q c =>
      cases c with
      | writev bufs fileOffset n => exact absurd hs (by simp [Stage.reads])
      | readv filled bufs offset fileOffset n =>
          cases bufs with
          | nil => exact absurd (Prod.mk.inj (Except.ok.inj hturn)).1 (by simp)
          | cons iov bufs =>
              obtain ⟨pc, hp, hrest⟩ := bind_eq_ok_iff.mp hturn
              obtain ⟨bf, hb, hret⟩ := bind_eq_ok_iff.mp hrest
              exact absurd (Prod.mk.inj (Except.ok.inj hret)).1 (by simp)
  | aim q toCopy k =>
      obtain ⟨pc, hp, hrest⟩ := bind_eq_ok_iff.mp hturn
      obtain ⟨bf, hb, hret⟩ := bind_eq_ok_iff.mp hrest
      exact absurd (Prod.mk.inj (Except.ok.inj hret)).1 (by simp)
  | move q b toCopy k =>
      cases k
      all_goals
        obtain ⟨bf, hb, hrest⟩ := bind_eq_ok_iff.mp hturn
        obtain ⟨bytes, hbytes, hret⟩ := bind_eq_ok_iff.mp hrest
        exact absurd (Prod.mk.inj (Except.ok.inj hret)).1 (by simp)
  | finish q upTo reply =>
      obtain ⟨st, hfinish, hret⟩ := bind_eq_ok_iff.mp hturn
      obtain ⟨hv, rfl⟩ := Prod.mk.inj (Except.ok.inj hret)
      obtain rfl := Option.some.inj hv
      rw [rest, hfinish]
      rfl
  | _ => exact absurd hs (by simp [Stage.reads])

/-- The address a stage knows is that of the buffer its piece has. -/
def AimsAt (st : MemoryStorage σ) (p : ℤ) (s : Stage) : Prop :=
  ∀ b toCopy k, s = .move p b toCopy k → (sight st p).map Sight.bi = some b

/-- What a step of a read that is not its last one leads to: nothing is changed, and the same
is left in every storage that looks the same. -/
structure Passes (env : Env σ) (C : Crew ι σ) (i : ι) (p : ℤ) (s : Stage) (C' : Crew ι σ)
    (s' : Stage) : Prop where
  st : C'.st = C.st
  stage : C'.stage = Function.update C.stage i (some s')
  reads : s'.reads = some p
  rest : AimsAt C.st p s → ∀ st, sight st p = sight C.st p →
    Libtorrent.rest env st s = Libtorrent.rest env st s'
  aims : AimsAt C.st p s'

/-- A round of the loop of `readv`. -/
theorem restReadv_cons (env : Env σ) {st : MemoryStorage σ} {p : ℤ} {pc : MemoryPiece}
    {bf : MemoryBuffer} (hp : subscript st.pieces p = .ok pc)
    (hb : subscript st.buffers pc.bi = .ok bf) (filled : List (List Byte)) (iov : List Byte)
    (bufs : List (List Byte)) (offset fileOffset n : ℤ) :
    restReadv env st p filled (iov :: bufs) offset fileOffset n =
      restAim env st p (toInt (min (toSize (bf.buffer.length - fileOffset)) iov.length))
        (.readv filled iov bufs offset fileOffset n) := by
  rw [restReadv, readvCopy, restAim, hp, ok_bind, ok_bind, hb, ok_bind, ok_bind, restMove, hb,
    ok_bind]
  simp only
  cases memcpy iov 0 bf.buffer fileOffset _ with
  | error e => rfl
  | ok iov' =>
      simp only [ok_bind, restReadv]
      cases readvCopy st p bufs _ _ with
      | error e => rfl
      | ok v => simp only [ok_bind, pure_eq_ok, List.append_assoc, List.singleton_append]

/-- The test of a `read`. -/
theorem passes_of_check {p q size offset : ℤ} {readBuf : List Byte}
    (hs : (Stage.check q readBuf size offset).reads = some p)
    (hturn : turn env C i (.check q readBuf size offset) = .ok (none, C')) :
    ∃ s', Passes env C i p (.check q readBuf size offset) C' s' := by
  obtain rfl := Option.some.inj hs
  obtain ⟨pc, hp, hret⟩ := bind_eq_ok_iff.mp hturn
  split at hret
  · exact absurd (Prod.mk.inj (Except.ok.inj hret)).1 (by simp)
  · rename_i hcomplete
    obtain ⟨-, rfl⟩ := Prod.mk.inj (Except.ok.inj hret)
    refine ⟨_, rfl, rfl, rfl, ?_, by simp [AimsAt]⟩
    intro _ st hsight
    obtain ⟨pc', hp', hlen, hsize, -, -⟩ := subscript_of_sight hsight hp
    have hcomplete' : ¬pc'.intSize < pc'.length := by
      rw [hsize, hlen]
      exact hcomplete
    rw [rest, readCopy, hp', ok_bind, if_neg hcomplete', rest, hp', ok_bind]
    cases hb : subscript st.buffers pc'.bi with
    | error e => rfl
    | ok bf =>
        simp only [ok_bind]
        split
        · rfl
        · rw [restAim, hp', ok_bind, hb, ok_bind, restMove, hb, ok_bind]
          cases memcpy readBuf 0 bf.buffer offset _ with
          | error e => rfl
          | ok bytes =>
              simp only [ok_bind]
              cases finishRead env st q _ <;> rfl

/-- What is behind the offset of a `read`. -/
theorem passes_of_measure {p q size offset : ℤ} {readBuf : List Byte}
    (hs : (Stage.measure q readBuf size offset).reads = some p)
    (hturn : turn env C i (.measure q readBuf size offset) = .ok (none, C')) :
    ∃ s', Passes env C i p (.measure q readBuf size offset) C' s' := by
  obtain rfl := Option.some.inj hs
  obtain ⟨pc, hp, hrest⟩ := bind_eq_ok_iff.mp hturn
  obtain ⟨bf, hb, hret⟩ := bind_eq_ok_iff.mp hrest
  simp only at hret
  split at hret
  · exact absurd (Prod.mk.inj (Except.ok.inj hret)).1 (by simp)
  · rename_i hsome
    obtain ⟨-, rfl⟩ := Prod.mk.inj (Except.ok.inj hret)
    refine ⟨_, rfl, rfl, rfl, ?_, by simp [AimsAt]⟩
    intro _ st hsight
    obtain ⟨pc', hp', -, -, hbi, hbytes⟩ := subscript_of_sight hsight hp
    obtain ⟨bf', hb', heq⟩ := subscript_of_bytes hbytes hb
    rw [rest, hp', ok_bind, hbi, hb', ok_bind, heq]
    simp only
    rw [if_neg hsome, rest]

/-- The next round of a `readv`, or the end of its loop. -/
theorem passes_of_chunk {p q : ℤ} {c : Copying}
    (hs : (Stage.chunk q c).reads = some p)
    (hturn : turn env C i (.chunk q c) = .ok (none, C')) :
    ∃ s', Passes env C i p (.chunk q c) C' s' := by
  cases c with
  | writev bufs fileOffset n => exact absurd hs (by simp [Stage.reads])
  | readv filled bufs offset fileOffset n =>
      obtain rfl := Option.some.inj hs
      cases bufs with
      | nil =>
          obtain ⟨-, rfl⟩ := Prod.mk.inj (Except.ok.inj hturn)
          refine ⟨_, rfl, rfl, rfl, ?_, by simp [AimsAt]⟩
          intro _ st _
          rw [rest, restReadv, readvCopy, ok_bind, rest]
          simp only [List.append_nil]
      | cons iov bufs =>
          obtain ⟨pc, hp, hrest⟩ := bind_eq_ok_iff.mp hturn
          obtain ⟨bf, hb, hret⟩ := bind_eq_ok_iff.mp hrest
          obtain ⟨-, rfl⟩ := Prod.mk.inj (Except.ok.inj hret)
          refine ⟨_, rfl, rfl, rfl, ?_, by simp [AimsAt]⟩
          intro _ st hsight
          obtain ⟨pc', hp', -, -, hbi, hbytes⟩ := subscript_of_sight hsight hp
          obtain ⟨bf', hb', heq⟩ := subscript_of_bytes hbytes hb
          rw [← hbi] at hb'
          rw [rest, restReadv_cons env hp' hb', heq, rest]

/-- The address. -/
theorem passes_of_aim {p q toCopy : ℤ} {k : Chunk}
    (hs : (Stage.aim q toCopy k).reads = some p)
    (hturn : turn env C i (.aim q toCopy k) = .ok (none, C')) :
    ∃ s', Passes env C i p (.aim q toCopy k) C' s' := by
  have hq : q = p := by
    cases k <;> simp [Stage.reads] at hs
    all_goals exact hs
  subst hq
  obtain ⟨pc, hp, hrest⟩ := bind_eq_ok_iff.mp hturn
  obtain ⟨bf, hb, hret⟩ := bind_eq_ok_iff.mp hrest
  obtain ⟨-, rfl⟩ := Prod.mk.inj (Except.ok.inj hret)
  refine ⟨_, rfl, rfl, ?_, ?_, ?_⟩
  · cases k <;> simp [Stage.reads] at hs ⊢
  · intro _ st hsight
    obtain ⟨pc', hp', -, -, hbi, hbytes⟩ := subscript_of_sight hsight hp
    obtain ⟨bf', hb', -⟩ := subscript_of_bytes hbytes hb
    rw [rest, restAim, hp', ok_bind, hbi, hb', ok_bind, rest]
  · rintro b toCopy' k' heq
    obtain ⟨-, rfl, -, -⟩ := Stage.move.inj heq
    rw [sight, at?_of_subscript hp]
    rfl

/-- A `memcpy` of a read. -/
theorem passes_of_move {p q b toCopy : ℤ} {k : Chunk}
    (hs : (Stage.move q b toCopy k).reads = some p)
    (hturn : turn env C i (.move q b toCopy k) = .ok (none, C')) :
    ∃ s', Passes env C i p (.move q b toCopy k) C' s' := by
  -- the address is that of the buffer the piece has
  have same : ∀ {st : MemoryStorage σ} {bf : MemoryBuffer}, q = p →
      AimsAt C.st p (.move q b toCopy k) → sight st p = sight C.st p →
      subscript C.st.buffers b = .ok bf →
      ∃ bf', subscript st.buffers b = .ok bf' ∧ bf'.buffer = bf.buffer := by
    rintro st bf rfl haims hsight hb
    obtain ⟨v, hv, hbi⟩ := Option.map_eq_some_iff.mp (haims b toCopy k rfl)
    obtain ⟨pc, hp, rfl⟩ := Option.map_eq_some_iff.mp hv
    obtain ⟨pc', -, -, -, -, hbytes⟩ := subscript_of_sight hsight (subscript_eq hp)
    rw [show pc.bi = b from hbi] at hbytes
    exact subscript_of_bytes hbytes hb
  cases k with
  | writev iov bufs fileOffset n => exact absurd hs (by simp [Stage.reads])
  | readv filled iov bufs offset fileOffset n =>
      obtain rfl := Option.some.inj hs
      obtain ⟨bf, hb, hrest⟩ := bind_eq_ok_iff.mp hturn
      obtain ⟨bytes, hbytes, hret⟩ := bind_eq_ok_iff.mp hrest
      obtain ⟨-, rfl⟩ := Prod.mk.inj (Except.ok.inj hret)
      refine ⟨_, rfl, rfl, rfl, ?_, by simp [AimsAt]⟩
      intro haims st hsight
      obtain ⟨bf', hb', heq⟩ := same rfl haims hsight hb
      simp only [rest, restMove, hb', ok_bind, heq, hbytes]
  | read readBuf size offset =>
      obtain rfl := Option.some.inj hs
      obtain ⟨bf, hb, hrest⟩ := bind_eq_ok_iff.mp hturn
      obtain ⟨bytes, hbytes, hret⟩ := bind_eq_ok_iff.mp hrest
      obtain ⟨-, rfl⟩ := Prod.mk.inj (Except.ok.inj hret)
      refine ⟨_, rfl, rfl, rfl, ?_, by simp [AimsAt]⟩
      intro haims st hsight
      obtain ⟨bf', hb', heq⟩ := same rfl haims hsight hb
      rw [rest, restMove, hb', ok_bind, heq, hbytes, ok_bind, rest]

/-- **A step of a read before its last one.** -/
theorem passes_of_turn {s : Stage} {p : ℤ} (hs : s.reads = some p)
    (hturn : turn env C i s = .ok (none, C')) : ∃ s', Passes env C i p s C' s' := by
  cases s with
  | check q readBuf size offset => exact passes_of_check hs hturn
  | measure q readBuf size offset => exact passes_of_measure hs hturn
  | chunk q c => exact passes_of_chunk hs hturn
  | aim q toCopy k => exact passes_of_aim hs hturn
  | move q b toCopy k => exact passes_of_move hs hturn
  | finish q upTo reply =>
      obtain ⟨st, -, hret⟩ := bind_eq_ok_iff.mp hturn
      exact absurd (Prod.mk.inj (Except.ok.inj hret)).1 (by simp)
  | _ => exact absurd hs (by simp [Stage.reads])

/-- **The second look of a read**, behind the lock: it finds the piece buffered, or the call
returns what the sequential one returns. -/
theorem get_cases_of_read {p : ℤ} {job : Job} (hjob : job.reads = true)
    (hturn : turn env C i (.get p job) = .ok (r, C')) :
    ∃ pc, subscript C.st.pieces p = .ok pc ∧
      (pc.isBuffered = true ∧ r = none ∧ C' = C.next i C.st (job.begins p) ∨
        ∃ v, r = some v ∧ (Ready job C.st → ∀ fuel,
          exec env fuel C.st (job.call p) = .ok (v, C'.st))) := by
  cases job with
  | writev bufs offset => exact absurd hjob (by simp [Job.reads])
  | readv bufs offset =>
      obtain ⟨⟨got, st⟩, hget, hret⟩ := bind_eq_ok_iff.mp hturn
      obtain ⟨pc, hp, -⟩ := bind_eq_ok_iff.mp hget
      refine ⟨pc, hp, ?_⟩
      have hlook := getReadBuffer_eq env (at?_of_subscript hp)
      rw [hlook] at hget
      obtain ⟨rfl, rfl⟩ := Prod.mk.inj (Except.ok.inj hget)
      cases hb : pc.isBuffered with
      | true =>
          rw [hb] at hret
          obtain ⟨rfl, rfl⟩ := Prod.mk.inj (Except.ok.inj hret)
          exact Or.inl ⟨rfl, rfl, rfl⟩
      | false =>
          rw [hb] at hret hlook
          obtain ⟨rfl, rfl⟩ := Prod.mk.inj (Except.ok.inj hret)
          refine Or.inr ⟨_, rfl, fun hready fuel => ?_⟩
          rw [Job.call, exec, readv, if_neg (by simp [hready.initialized]), hlook]
          rfl
  | read readBuf size offset =>
      obtain ⟨⟨got, st⟩, hget, hret⟩ := bind_eq_ok_iff.mp hturn
      obtain ⟨pc, hp, -⟩ := bind_eq_ok_iff.mp hget
      refine ⟨pc, hp, ?_⟩
      have hp' := at?_of_subscript hp
      rw [getReadBuffer_eq env hp'] at hget
      obtain ⟨rfl, rfl⟩ := Prod.mk.inj (Except.ok.inj hget)
      cases hb : pc.isBuffered with
      | true =>
          rw [hb] at hret
          obtain ⟨rfl, rfl⟩ := Prod.mk.inj (Except.ok.inj hret)
          exact Or.inl ⟨rfl, rfl, rfl⟩
      | false =>
          rw [hb] at hret
          obtain ⟨rfl, rfl⟩ := Prod.mk.inj (Except.ok.inj hret)
          refine Or.inr ⟨_, rfl, fun hready fuel => ?_⟩
          rw [Job.call, exec, read_of_reading env hready.initialized (hready.reading _ _ _ rfl) hp',
            hb]
          rfl

/-! ## Reads in a run -/

/-- What thread `i` set out to do last. -/
def tasked (i : ι) (h : List (CrewEntry ι σ)) : Option (Task σ) :=
  h.findSome? fun e =>
    match e.label.1 with
    | .enter j task => if j = i then some task else none
    | .go _ => none

/-- The steps made since thread `i` found the piece of its read buffered, newest first. -/
def whileReading (i : ι) (h : List (CrewEntry ι σ)) : List (CrewEntry ι σ) :=
  h.takeWhile fun e => ((e.before.stage i).bind Stage.reads).isSome

omit [DecidableEq ι] in
/-- A step at a stage that copies for a read is one of the steps made meanwhile. -/
theorem whileReading_cons {h : List (CrewEntry ι σ)} {s : Stage} {p : ℤ}
    (hs : C.stage i = some s) (hreads : s.reads = some p) (l : Turn ι σ × Option Reply) :
    whileReading i (⟨C, l, C'⟩ :: h) = ⟨C, l, C'⟩ :: whileReading i h := by
  rw [whileReading, List.takeWhile_cons_of_pos]
  · rfl
  · simp [hs, hreads]

/-- Where a thread is in a read: it has not found its piece buffered yet, or it copies, and
something is known of the stage. -/
inductive Underway (p : ℤ) (job : Job) (J : Stage → Prop) : Stage → Prop
  | look : Underway p job J (.look p job)
  | get : Underway p job J (.get p job)
  | copies {s : Stage} : s.reads = some p → J s → Underway p job J s

omit [DecidableEq ι] in
/-- A read begins with a copy for it. -/
theorem Job.reads_begins {p : ℤ} {job : Job} (hjob : job.reads = true) :
    (job.begins p).reads = some p := by
  cases job with
  | writev _ _ => exact absurd hjob (by simp [Job.reads])
  | _ => rfl

/-- **Rule for reads among other threads**: what is known of a thread in a read when it finds its
piece buffered, and is kept by each step of its copy and by each step of others, is known of it
in every state of a run in which no step shrinks the pool. -/
theorem CrewRun.read_rule {p : ℤ} {job : Job} (hjob : job.reads = true)
    {J : List (CrewEntry ι σ) → Crew ι σ → Stage → Prop}
    (begins : ∀ h C C' s pc, CrewRun env info h C → (∀ e ∈ h, ¬Shrinks e) → Orderly info C →
      C.stage i = some s → s = .look p job ∨ s = .get p job → subscript C.st.pieces p = .ok pc →
      pc.isBuffered = true → C' = C.next i C.st (job.begins p) →
      J (⟨C, (.go i, none), C'⟩ :: h) C' (job.begins p))
    (own : ∀ h C C' s s', CrewRun env info h C → (∀ e ∈ h, ¬Shrinks e) → Orderly info C →
      J h C s → C.stage i = some s → s.reads = some p → turn env C i s = .ok (none, C') →
      C'.stage i = some s' → J (⟨C, (.go i, none), C'⟩ :: h) C' s')
    (other : ∀ h C l C' s, CrewRun env info h C → (∀ e ∈ h, ¬Shrinks e) → Orderly info C →
      J h C s → C.stage i = some s → s.reads = some p → CrewStep env C l C' →
      J (⟨C, l, C'⟩ :: h) C' s)
    {h : List (CrewEntry ι σ)} {C : Crew ι σ} (hr : CrewRun env info h C)
    (hkeep : ∀ e ∈ h, ¬Shrinks e) {s : Stage} (hs : C.stage i = some s)
    (htask : tasked i h = some (.transfer p job)) : Underway p job (J h C) s := by
  -- another thread's step leaves the thread where it is
  have stays : ∀ {h C l C' s}, CrewRun env info h C → (∀ e ∈ h, ¬Shrinks e) → Orderly info C →
      CrewStep env C l C' → C.stage i = some s → Underway p job (J h C) s →
      Underway p job (J (⟨C, l, C'⟩ :: h) C') s := by
    intro h C l C' s hrun hkeep hord hstep hs hu
    cases hu with
    | look => exact .look
    | get => exact .get
    | copies hreads hJ => exact .copies hreads (other h C l C' s hrun hkeep hord hJ hs hreads hstep)
  refine CrewRun.rule (J := fun h C => ∀ s, C.stage i = some s →
    tasked i h = some (.transfer p job) → Underway p job (J h C) s) ?_ ?_ ?_ hr hkeep s hs htask
  · intro C h0 s hs
    rw [h0.stage i] at hs
    exact absurd hs (by simp)
  · intro h C j task r C' hrun hkeep hord ih hen henter s hs htask
    by_cases hj : j = i
    · subst hj
      obtain rfl : task = .transfer p job := by simpa [tasked] using htask
      rcases (entered_of_enter henter).stage with hsame | ⟨hstage, -⟩
      · rw [hsame, hen.1] at hs
        exact absurd hs (by simp)
      · rw [hstage, Function.update_self] at hs
        obtain rfl := Option.some.inj hs
        exact .look
    · obtain ⟨f, hm⟩ := moved_of_enter hen.1 hen.2.2 henter
      rw [hm.stage, Function.update_of_ne (Ne.symm hj)] at hs
      exact stays hrun hkeep hord ⟨hen, henter⟩ hs (ih s hs (by simpa [tasked, hj] using htask))
  · intro h C j s₀ r C' hrun hkeep hord ih hs₀ hfree hturn _ s hs htask
    have htask' : tasked i h = some (.transfer p job) := by simpa [tasked] using htask
    by_cases hj : j = i
    · subst hj
      have hopen : r = none := by
        cases r with
        | none => rfl
        | some v => exact absurd hs (by simp [(hord.stroke_of_turn hs₀ hturn).stage_of_reply])
      subst hopen
      cases ih s₀ hs₀ htask' with
      | look =>
          obtain ⟨pc, hp, hret⟩ := bind_eq_ok_iff.mp hturn
          obtain ⟨-, rfl⟩ := Prod.mk.inj (Except.ok.inj hret)
          simp only [Crew.next, Function.update_self, Option.some.injEq] at hs
          subst hs
          cases hb : pc.isBuffered with
          | true =>
              exact .copies (Job.reads_begins hjob)
                (begins h C _ _ pc hrun hkeep hord hs₀ (Or.inl rfl) hp hb rfl)
          | false => exact .get
      | get =>
          obtain ⟨pc, hp, ⟨hb, -, hC⟩ | ⟨v, hv, -⟩⟩ := get_cases_of_read hjob hturn
          · rw [hC] at hs
            simp only [Crew.next, Function.update_self, Option.some.injEq] at hs
            subst hs
            exact .copies (Job.reads_begins hjob)
              (begins h C _ _ pc hrun hkeep hord hs₀ (Or.inr rfl) hp hb hC)
          · exact absurd hv (by simp)
      | copies hreads hJ =>
          obtain ⟨t, hpass⟩ := passes_of_turn hreads hturn
          have hreads' : s.reads = some p := by
            rw [hpass.stage, Function.update_self] at hs
            rw [← Option.some.inj hs]
            exact hpass.reads
          exact .copies hreads' (own h C C' s₀ s hrun hkeep hord hJ hs₀ hreads hturn hs)
    · obtain ⟨f, hm⟩ := moved_of_turn hs₀ hfree hturn
      rw [hm.stage, Function.update_of_ne (Ne.symm hj)] at hs
      have hstep : CrewStep env C (.go j, r) C' := by
        refine ⟨⟨s₀, hs₀, hfree⟩, ?_⟩
        simpa only [advanceCrew, hs₀] using hturn
      exact stays hrun hkeep hord hstep hs (ih s hs htask')

/-! ## Reads that nothing comes between -/

/-- What a read of piece `p` sees is the same behind the step. -/
def SameSight (p : ℤ) (e : CrewEntry ι σ) : Prop := sight e.after.st p = sight e.before.st p

instance (p : ℤ) (e : CrewEntry ι σ) : Decidable (SameSight p e) :=
  inferInstanceAs (Decidable (sight e.after.st p = sight e.before.st p))

/-- As much is left at a stage as of the whole call, in any storage in which the piece looks
like this. -/
structure Continues (env : Env σ) (p : ℤ) (job : Job) (s : Stage) (v : Option Sight) : Prop where
  rest : ∀ st, Ready job st → sight st p = v → ∀ fuel,
    exec env fuel st (job.call p) = Libtorrent.rest env st s
  aims : ∀ b toCopy k, s = .move p b toCopy k → v.map Sight.bi = some b

omit [DecidableEq ι] in
/-- A read that finds its piece buffered. -/
theorem continues_begins {st : MemoryStorage σ} {p : ℤ} {job : Job} (hjob : job.reads = true)
    {pc : MemoryPiece} (hp : subscript st.pieces p = .ok pc) (hb : pc.isBuffered = true) :
    Continues env p job (job.begins p) (sight st p) := by
  refine ⟨?_, ?_⟩
  · intro st' hready hsight fuel
    obtain ⟨pc', hp', -, -, hbi, -⟩ := subscript_of_sight hsight hp
    refine exec_eq_rest env hready hjob (at?_of_subscript hp') ?_ fuel
    rw [MemoryPiece.isBuffered, hbi]
    exact hb
  · intro b toCopy k heq
    cases job <;> exact absurd heq (by simp [Job.begins])

/-- **In every state of a run** as much of a read is left as of the whole call, if nothing came
between. -/
theorem CrewRun.continues {h : List (CrewEntry ι σ)} (hr : CrewRun env info h C)
    (hkeep : ∀ e ∈ h, ¬Shrinks e) {p : ℤ} {job : Job} (hjob : job.reads = true) {s : Stage}
    (hs : C.stage i = some s) (htask : tasked i h = some (.transfer p job)) :
    Underway p job (fun s => (∀ d ∈ whileReading i h, SameSight p d) →
      Continues env p job s (sight C.st p)) s := by
  refine CrewRun.read_rule hjob (J := fun h C s => (∀ d ∈ whileReading i h, SameSight p d) →
    Continues env p job s (sight C.st p)) ?_ ?_ ?_ hr hkeep hs htask
  · rintro h C C' s pc - - - - - hp hb rfl -
    exact continues_begins hjob hp hb
  · intro h C C' s s' _ _ _ hJ hs hreads hturn hs' hquiet
    rw [whileReading_cons hs hreads] at hquiet
    obtain ⟨t, hpass⟩ := passes_of_turn hreads hturn
    rw [hpass.stage, Function.update_self] at hs'
    obtain rfl := Option.some.inj hs'
    obtain ⟨hrest, haims⟩ := hJ (List.forall_mem_cons.mp hquiet).2
    rw [hpass.st]
    refine ⟨?_, hpass.aims⟩
    intro st hready hsight fuel
    rw [hrest st hready hsight, hpass.rest haims st hsight]
  · intro h C l C' s _ _ _ hJ hs hreads _ hquiet
    rw [whileReading_cons hs hreads] at hquiet
    obtain ⟨hlast, hrest⟩ := List.forall_mem_cons.mp hquiet
    have hsame : sight C'.st p = sight C.st p := hlast
    rw [hsame]
    exact hJ hrest

/-- A step leaves the flag. -/
theorem Stroke.isReading {s : Stage} (hst : Stroke env C i s r C') :
    C'.st.isReading = C.st.isReading := by
  cases hst <;> rfl

/-- While a thread is in a `read`, and ever after, it is known that something is read. -/
theorem CrewRun.reading {h : List (CrewEntry ι σ)} (hr : CrewRun env info h C)
    (hkeep : ∀ e ∈ h, ¬Shrinks e) {p size offset : ℤ} {readBuf : List Byte}
    (htask : tasked i h = some (.transfer p (.read readBuf size offset))) :
    C.st.isReading = true := by
  refine CrewRun.rule (J := fun h C => tasked i h = some (.transfer p (.read readBuf size offset)) →
    C.st.isReading = true) ?_ ?_ ?_ hr hkeep htask
  · intro C _ htask
    exact absurd htask (by simp [tasked])
  · intro h C j task r C' _ _ hord ih _ henter htask
    by_cases hj : j = i
    · obtain rfl : task = .transfer p (.read readBuf size offset) := by
        simpa [tasked, hj] using htask
      rw [enterTurn, if_neg (by simp [hord.wellFormed.initialized])] at henter
      obtain ⟨-, rfl⟩ := Prod.mk.inj (Except.ok.inj henter)
      rfl
    · exact (entered_of_enter henter).isReading (ih (by simpa [tasked, hj] using htask))
  · intro h C j s r C' _ _ hord ih hs _ hturn _ htask
    rw [(hord.stroke_of_turn hs hturn).isReading]
    exact ih (by simpa [tasked] using htask)

/-- **A read that nothing comes between is the sequential one, under any number of threads.**
As long as no thread lowers the number of buffers, a step of a thread that is in a `read` or a
`readv` changes nothing unless it is the last one.  If none of the steps made since the thread
found its piece buffered gave that piece another buffer, another size or other bytes, the last
one returns what the sequential call made in that state returns, and leaves the storage that
call leaves. -/
theorem reads_linearize {h : List (CrewEntry ι σ)} {e : CrewEntry ι σ}
    (hr : CrewRun env info (e :: h) e.after) (hkeep : ∀ d ∈ e :: h, ¬Shrinks d)
    (hgo : e.label.1 = .go i) {p : ℤ} {job : Job}
    (htask : tasked i h = some (.transfer p job)) (hjob : job.reads = true) :
    (e.label.2 = none → e.after.st = e.before.st) ∧
      ∀ v, e.label.2 = some v → (∀ d ∈ whileReading i h, SameSight p d) → ∀ fuel,
        exec env fuel e.before.st (job.call p) = .ok (v, e.after.st) := by
  obtain ⟨-, hrest⟩ := List.forall_mem_cons.mp hkeep
  obtain ⟨hrun, hen, hadv⟩ := hr.before ⟨[], rfl⟩
  rw [hgo] at hen hadv
  obtain ⟨s, hs, -⟩ := hen
  have hturn := turn_of_go hs hadv
  have hunderway := CrewRun.continues hrun hrest hjob hs htask
  have hready : Ready job e.before.st := by
    refine ⟨(CrewRun.orderly hrun hrest).wellFormed.initialized, ?_⟩
    rintro readBuf size offset rfl
    exact CrewRun.reading hrun hrest htask
  refine ⟨?_, ?_⟩
  · intro hnone
    rw [hnone] at hturn
    cases hunderway with
    | look =>
        obtain ⟨pc, -, hret⟩ := bind_eq_ok_iff.mp hturn
        rw [← (Prod.mk.inj (Except.ok.inj hret)).2]
        rfl
    | get =>
        obtain ⟨pc, -, ⟨-, -, hC⟩ | ⟨v, hv, -⟩⟩ := get_cases_of_read hjob hturn
        · rw [hC]
          rfl
        · exact absurd hv (by simp)
    | copies hreads _ =>
        obtain ⟨s', hpass⟩ := passes_of_turn hreads hturn
        exact hpass.st
  · intro v hv hquiet fuel
    rw [hv] at hturn
    cases hunderway with
    | look =>
        obtain ⟨pc, -, hret⟩ := bind_eq_ok_iff.mp hturn
        exact absurd (Prod.mk.inj (Except.ok.inj hret)).1 (by simp)
    | get =>
        obtain ⟨pc, -, ⟨-, hnone, -⟩ | ⟨w, hw, hexec⟩⟩ := get_cases_of_read hjob hturn
        · exact absurd hnone (by simp)
        · obtain rfl := Option.some.inj hw
          exact hexec hready fuel
    | copies hreads hcontinues =>
        rw [(hcontinues hquiet).rest _ hready rfl fuel]
        exact rest_of_last hreads hturn

/-- A read of two chunks, between which another thread stores another piece. -/
theorem reads_linearize_between :
    ∃ e h, playCrew ticking (quads 9) 4 ()
        (enterAndGo (0 : Fin 2) (.transfer 0 (.writev [[1, 2, 3, 4]] 0)) 8 ++
          enterAndGo 0 (.transfer 0 (.readv [[0, 0], [0]] 1)) 6 ++
          enterAndGo 1 (.transfer 1 (.writev [[5]] 0)) 7 ++ List.replicate 3 (.go 0)) =
            some (e :: h, e.after) ∧
      e.label.2 = some ⟨3, [[2, 3], [4]]⟩ ∧ Resident e.before.st 1 ∧
      ∀ fuel, exec ticking fuel e.before.st (.readv [[0, 0], [0]] 0 1) =
        .ok (⟨3, [[2, 3], [4]]⟩, e.after.st) := by
  have hplay : playCrew ticking (quads 9) 4 ()
      (enterAndGo (0 : Fin 2) (.transfer 0 (.writev [[1, 2, 3, 4]] 0)) 8 ++
        enterAndGo 0 (.transfer 0 (.readv [[0, 0], [0]] 1)) 6 ++
        enterAndGo 1 (.transfer 1 (.writev [[5]] 0)) 7 ++ List.replicate 3 (.go 0)) =
          some (_ :: _, _) := rfl
  refine ⟨_, _, hplay, rfl, by decide, ?_⟩
  exact (reads_linearize (playCrew_run (by decide) hplay) (by decide) rfl rfl rfl).2 _ rfl
    (by decide)

end Steps

end Libtorrent
