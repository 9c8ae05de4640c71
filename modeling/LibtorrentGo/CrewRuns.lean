/-
# Runs of threads

A `CrewRun` starts with a storage that the constructor returned and nobody in it, and takes
the steps of any number of threads in any order.  In each of its states the owner of either
lock is the thread that is at a stage that holds it, and as `r_mutex` is taken behind
`m_mutex` and never the other way around, there is no deadlock (`crew_goes_on`).
-/
import LibtorrentGo.Locks
import LibtorrentGo.Replay
import LibtorrentGo.Threads

open Locks

namespace Libtorrent

open MemoryStorage

variable {σ ι : Type} [DecidableEq ι]

/-! ## Runs -/

/-- A constructed storage that no thread has called yet. -/
structure CrewInit (info : TorrentInfo) (C : Crew ι σ) : Prop where
  storage : Init info C.st
  mMutex : C.mMutex = none
  rMutex : C.rMutex = none
  stage : ∀ i, C.stage i = none

/-- An enabled step, and the reply of the call if it was its last one. -/
def CrewStep (env : Env σ) (C : Crew ι σ) (l : Turn ι σ × Option Reply) (C' : Crew ι σ) : Prop :=
  l.1.Enabled C ∧ advanceCrew env C l.1 = .ok (l.2, C')

/-- One step of a run. -/
abbrev CrewEntry (ι σ : Type) : Type := Runs.Entry (Crew ι σ) (Turn ι σ × Option Reply)

/-- The runs. -/
abbrev CrewRun (env : Env σ) (info : TorrentInfo) : List (CrewEntry ι σ) → Crew ι σ → Prop :=
  Runs.Run (CrewInit info) (CrewStep env)

instance (C : Crew ι σ) : (s : Stage) → Decidable (Free C s)
  | .look _ _ => isTrue trivial
  | .get _ _ => inferInstanceAs (Decidable (C.mMutex = none))
  | .check _ _ _ _ => isTrue trivial
  | .measure _ _ _ _ => isTrue trivial
  | .chunk _ _ => isTrue trivial
  | .aim _ _ _ => isTrue trivial
  | .move _ _ _ _ => isTrue trivial
  | .finish _ _ _ => isTrue trivial
  | .account _ _ => isTrue trivial
  | .test _ _ => isTrue trivial
  | .retest _ _ => isTrue trivial
  | .lock _ _ => inferInstanceAs (Decidable (C.mMutex = none))
  | .round _ _ => isTrue trivial
  | .seek _ _ _ => isTrue trivial
  | .search _ _ _ _ => inferInstanceAs (Decidable (C.rMutex = none))
  | .remove _ _ _ => isTrue trivial
  | .grow _ => inferInstanceAs (Decidable (C.mMutex = none))
  | .reserve _ => isTrue trivial

instance (C : Crew ι σ) : (t : Turn ι σ) → Decidable (t.Enabled C)
  | .enter i task => decidable_of_iff
      ((C.stage i).isNone = true ∧ task.call.Valid C.st ∧
        (task.locksR = true → C.rMutex.isNone = true)) (by simp [Turn.Enabled])
  | .go i =>
      match h : C.stage i with
      | none => isFalse (by simp [Turn.Enabled, h])
      | some s => decidable_of_iff (Free C s) (by simp [Turn.Enabled, h])

/-- Makes a step; nothing is returned where it is not enabled or faults. -/
def tryTurn (env : Env σ) (C : Crew ι σ) (t : Turn ι σ) :
    Option ((Turn ι σ × Option Reply) × Crew ι σ) :=
  if t.Enabled C then
    match advanceCrew env C t with
    | .ok (r, C') => some ((t, r), C')
    | .error _ => none
  else none

/-- A step that is tried with success is one. -/
theorem step_of_tryTurn {env : Env σ} {C C' : Crew ι σ} {t : Turn ι σ}
    {l : Turn ι σ × Option Reply} (h : tryTurn env C t = some (l, C')) : CrewStep env C l C' := by
  unfold tryTurn at h
  split at h
  · rename_i hen
    cases ha : advanceCrew env C t with
    | error e => simp [ha] at h
    | ok v =>
        simp only [ha, Option.some.injEq, Prod.mk.injEq] at h
        obtain ⟨rfl, rfl⟩ := h
        exact ⟨hen, ha⟩
  · exact absurd h (by simp)

/-- Thread `i` enters a call, and makes `n` more steps. -/
def enterAndGo (i : ι) (task : Task σ) (n : ℕ) : List (Turn ι σ) :=
  .enter i task :: List.replicate n (.go i)

/-- Makes the steps `ts` on the storage the constructor returns. -/
def playCrew (env : Env σ) (info : TorrentInfo) (memorySize : ℤ) (torrent : σ)
    (ts : List (Turn ι σ)) : Option (List (CrewEntry ι σ) × Crew ι σ) :=
  match MemoryStorage.new info memorySize true true torrent with
  | .ok st => Runs.replay (tryTurn env) ts [] ⟨st, none, none, fun _ => none⟩
  | .error _ => none

/-- **Steps made on a constructed storage are a run.** -/
theorem playCrew_run {env : Env σ} {info : TorrentInfo} {memorySize : ℤ} {torrent : σ}
    {ts : List (Turn ι σ)} {h : List (CrewEntry ι σ)} {C : Crew ι σ} (hm : 0 ≤ memorySize)
    (hp : playCrew env info memorySize torrent ts = some (h, C)) : CrewRun env info h C := by
  unfold playCrew at hp
  cases hn : MemoryStorage.new info memorySize true true torrent with
  | error e => simp [hn] at hp
  | ok st =>
      simp only [hn] at hp
      refine Runs.replay_run (fun _ _ _ _ => step_of_tryTurn) (.start ?_) hp
      exact ⟨⟨memorySize, true, true, torrent, hm, hn⟩, rfl, rfl, fun _ => rfl⟩

/-! ## The locks -/

/-- Thread `i` has gone to stage `f`, taking locks and giving them back as `f` says. -/
structure Moved (C : Crew ι σ) (i : ι) (f : Option Stage) (C' : Crew ι σ) : Prop where
  stage : C'.stage = Function.update C.stage i f
  mMutex : C'.mMutex = passOn Stage.holdsM C.mMutex i (C.stage i) f
  rMutex : C'.rMutex = passOn Stage.holdsR C.rMutex i (C.stage i) f
  takesM : keeps Stage.holdsM (C.stage i) = false → keeps Stage.holdsM f = true →
    C.mMutex = none
  takesR : keeps Stage.holdsR (C.stage i) = false → keeps Stage.holdsR f = true →
    C.rMutex = none

/-- A thread that takes no lock and gives none back. -/
theorem moved_same {C : Crew ι σ} {i : ι} {f : Option Stage} (st : MemoryStorage σ)
    (hm : keeps Stage.holdsM f = keeps Stage.holdsM (C.stage i))
    (hr : keeps Stage.holdsR f = keeps Stage.holdsR (C.stage i)) :
    Moved C i f { C with st := st, stage := Function.update C.stage i f } where
  stage := rfl
  mMutex := by rw [passOn, if_pos hm]
  rMutex := by rw [passOn, if_pos hr]
  takesM := fun h h' => by
    rw [hm, h] at h'
    exact absurd h' (by simp)
  takesR := fun h h' => by
    rw [hr, h] at h'
    exact absurd h' (by simp)

/-- A thread at stage `s` that goes to a stage with the same locks. -/
theorem moved_next {C : Crew ι σ} {i : ι} {s s' : Stage} (hs : C.stage i = some s)
    (st : MemoryStorage σ) (hm : s'.holdsM = s.holdsM) (hr : s'.holdsR = s.holdsR) :
    Moved C i (some s') (C.next i st s') := by
  apply moved_same
  · rw [hs]
    exact hm
  · rw [hs]
    exact hr

/-- A thread that holds no lock and returns. -/
theorem moved_done {C : Crew ι σ} {i : ι} {s : Stage} (hs : C.stage i = some s)
    (st : MemoryStorage σ) (hm : s.holdsM = false) (hr : s.holdsR = false) :
    Moved C i none (C.done i st) := by
  apply moved_same
  · rw [hs]
    exact hm.symm
  · rw [hs]
    exact hr.symm

variable {env : Env σ} {info : TorrentInfo} {C C' : Crew ι σ} {i : ι} {r : Option Reply}

/-- A thread between two rounds of a copy loop goes on and holds no lock. -/
theorem moved_of_chunk {p : ℤ} {c : Copying} (hs : C.stage i = some (.chunk p c))
    (hturn : chunkTurn C i p c = .ok (r, C')) : ∃ f, Moved C i f C' := by
  cases c with
  | writev bufs fileOffset n =>
      cases bufs with
      | nil =>
          obtain ⟨-, rfl⟩ := Prod.mk.inj (Except.ok.inj hturn)
          exact ⟨_, moved_next hs _ rfl rfl⟩
      | cons iov bufs =>
          obtain ⟨pc, -, hret⟩ := bind_eq_ok_iff.mp hturn
          obtain ⟨-, rfl⟩ := Prod.mk.inj (Except.ok.inj hret)
          exact ⟨_, moved_next hs _ rfl rfl⟩
  | readv filled bufs offset fileOffset n =>
      cases bufs with
      | nil =>
          obtain ⟨-, rfl⟩ := Prod.mk.inj (Except.ok.inj hturn)
          exact ⟨_, moved_next hs _ rfl rfl⟩
      | cons iov bufs =>
          obtain ⟨pc, -, hrest⟩ := bind_eq_ok_iff.mp hturn
          obtain ⟨bf, -, hret⟩ := bind_eq_ok_iff.mp hrest
          obtain ⟨-, rfl⟩ := Prod.mk.inj (Except.ok.inj hret)
          exact ⟨_, moved_next hs _ rfl rfl⟩

/-- So does one that calls `memcpy`. -/
theorem moved_of_move {p b toCopy : ℤ} {k : Chunk} (hs : C.stage i = some (.move p b toCopy k))
    (hturn : moveTurn C i p b toCopy k = .ok (r, C')) : ∃ f, Moved C i f C' := by
  cases k
  all_goals
    obtain ⟨bf, -, hrest⟩ := bind_eq_ok_iff.mp hturn
    obtain ⟨bytes, -, hret⟩ := bind_eq_ok_iff.mp hrest
    obtain ⟨-, rfl⟩ := Prod.mk.inj (Except.ok.inj hret)
    exact ⟨_, moved_next hs _ rfl rfl⟩

/-- **A step moves its thread**, which takes a lock only when that is free. -/
theorem moved_of_turn {s : Stage} (hs : C.stage i = some s) (hfree : Free C s)
    (hturn : turn env C i s = .ok (r, C')) : ∃ f, Moved C i f C' := by
  cases s with
  | look p job =>
      obtain ⟨pc, -, hret⟩ := bind_eq_ok_iff.mp hturn
      obtain ⟨-, rfl⟩ := Prod.mk.inj (Except.ok.inj hret)
      refine ⟨_, moved_next hs _ ?_ ?_⟩
      · split <;> [exact job.begins_holdsM; rfl]
      · split <;> [exact job.begins_holdsR; rfl]
  | get p job =>
      cases job
      all_goals
        obtain ⟨⟨got, st⟩, -, hret⟩ := bind_eq_ok_iff.mp hturn
        cases got
        · obtain ⟨-, rfl⟩ := Prod.mk.inj (Except.ok.inj hret)
          exact ⟨_, moved_done hs _ rfl rfl⟩
        · obtain ⟨-, rfl⟩ := Prod.mk.inj (Except.ok.inj hret)
          exact ⟨_, moved_next hs _ rfl rfl⟩
  | check p readBuf size offset =>
      obtain ⟨pc, -, hret⟩ := bind_eq_ok_iff.mp hturn
      split at hret
      · obtain ⟨-, rfl⟩ := Prod.mk.inj (Except.ok.inj hret)
        exact ⟨_, moved_done hs _ rfl rfl⟩
      · obtain ⟨-, rfl⟩ := Prod.mk.inj (Except.ok.inj hret)
        exact ⟨_, moved_next hs _ rfl rfl⟩
  | measure p readBuf size offset =>
      obtain ⟨pc, -, hrest⟩ := bind_eq_ok_iff.mp hturn
      obtain ⟨bf, -, hret⟩ := bind_eq_ok_iff.mp hrest
      simp only at hret
      split at hret
      · obtain ⟨-, rfl⟩ := Prod.mk.inj (Except.ok.inj hret)
        exact ⟨_, moved_done hs _ rfl rfl⟩
      · obtain ⟨-, rfl⟩ := Prod.mk.inj (Except.ok.inj hret)
        exact ⟨_, moved_next hs _ rfl rfl⟩
  | chunk p c => exact moved_of_chunk hs hturn
  | aim p toCopy k =>
      obtain ⟨pc, -, hrest⟩ := bind_eq_ok_iff.mp hturn
      obtain ⟨bf, -, hret⟩ := bind_eq_ok_iff.mp hrest
      obtain ⟨-, rfl⟩ := Prod.mk.inj (Except.ok.inj hret)
      exact ⟨_, moved_next hs _ rfl rfl⟩
  | move p b toCopy k => exact moved_of_move hs hturn
  | finish p upTo reply =>
      obtain ⟨st, -, hret⟩ := bind_eq_ok_iff.mp hturn
      obtain ⟨-, rfl⟩ := Prod.mk.inj (Except.ok.inj hret)
      exact ⟨_, moved_done hs _ rfl rfl⟩
  | account p n =>
      obtain ⟨st, -, hret⟩ := bind_eq_ok_iff.mp hturn
      obtain ⟨-, rfl⟩ := Prod.mk.inj (Except.ok.inj hret)
      exact ⟨_, moved_next hs _ rfl rfl⟩
  | test p n =>
      rw [turn] at hturn
      split at hturn
      · obtain ⟨-, rfl⟩ := Prod.mk.inj (Except.ok.inj hturn)
        exact ⟨_, moved_next hs _ rfl rfl⟩
      · obtain ⟨-, rfl⟩ := Prod.mk.inj (Except.ok.inj hturn)
        exact ⟨_, moved_done hs _ rfl rfl⟩
  | retest p n =>
      rw [turn] at hturn
      split at hturn
      · obtain ⟨-, rfl⟩ := Prod.mk.inj (Except.ok.inj hturn)
        exact ⟨_, moved_done hs _ rfl rfl⟩
      · obtain ⟨-, rfl⟩ := Prod.mk.inj (Except.ok.inj hturn)
        exact ⟨_, moved_next hs _ rfl rfl⟩
  | lock p n =>
      obtain ⟨-, rfl⟩ := Prod.mk.inj (Except.ok.inj hturn)
      exact ⟨some (.round p n), rfl, by rw [hs]; rfl, by rw [hs]; rfl,
        fun _ _ => hfree, fun _ h => absurd h (by simp [keeps, Stage.holdsR])⟩
  | round p n =>
      rw [turn] at hturn
      split at hturn
      · obtain ⟨-, rfl⟩ := Prod.mk.inj (Except.ok.inj hturn)
        exact ⟨_, moved_next hs _ rfl rfl⟩
      · obtain ⟨-, rfl⟩ := Prod.mk.inj (Except.ok.inj hturn)
        exact ⟨none, rfl, by rw [hs]; rfl, by rw [hs]; rfl,
          fun _ h => absurd h (by decide), fun _ h => absurd h (by decide)⟩
  | seek p n checkRead =>
      obtain ⟨-, rfl⟩ := Prod.mk.inj (Except.ok.inj hturn)
      exact ⟨_, moved_next hs _ rfl rfl⟩
  | search p n checkRead minTime =>
      obtain ⟨b, -, hret⟩ := bind_eq_ok_iff.mp hturn
      obtain ⟨-, rfl⟩ := Prod.mk.inj (Except.ok.inj hret)
      refine ⟨_, moved_next hs _ ?_ ?_⟩
      · split <;> [rfl; (split <;> rfl)]
      · split <;> [rfl; (split <;> rfl)]
  | remove p n b =>
      obtain ⟨st, -, hret⟩ := bind_eq_ok_iff.mp hturn
      obtain ⟨-, rfl⟩ := Prod.mk.inj (Except.ok.inj hret)
      exact ⟨_, moved_next hs _ rfl rfl⟩
  | grow s =>
      obtain ⟨st, -, hret⟩ := bind_eq_ok_iff.mp hturn
      obtain ⟨-, rfl⟩ := Prod.mk.inj (Except.ok.inj hret)
      exact ⟨_, moved_done hs _ rfl rfl⟩
  | reserve pieces =>
      cases pieces with
      | nil =>
          obtain ⟨-, rfl⟩ := Prod.mk.inj (Except.ok.inj hturn)
          exact ⟨none, rfl, by rw [hs]; rfl, by rw [hs]; rfl,
            fun _ h => absurd h (by decide), fun _ h => absurd h (by decide)⟩
      | cons q pieces =>
          obtain ⟨st, -, hret⟩ := bind_eq_ok_iff.mp hturn
          obtain ⟨-, rfl⟩ := Prod.mk.inj (Except.ok.inj hret)
          exact ⟨_, moved_next hs _ rfl rfl⟩

/-- A call that returns with its first step moves nobody. -/
theorem moved_stay (hs : C.stage i = none) (st : MemoryStorage σ) :
    Moved C i none { C with st := st } := by
  have h : Moved C i none { C with st := st, stage := Function.update C.stage i none } :=
    moved_same st (by rw [hs]) (by rw [hs])
  rwa [Function.update_eq_self_iff.mpr hs.symm] at h

/-- A call that goes on from its first step, and holds no lock. -/
theorem moved_begin (hs : C.stage i = none) (st : MemoryStorage σ) {s : Stage}
    (hm : s.holdsM = false) (hr : s.holdsR = false) : Moved C i (some s) (C.next i st s) := by
  apply moved_same
  · rw [hs]
    exact hm
  · rw [hs]
    exact hr

/-- The first step of a call moves its thread, too. -/
theorem moved_of_enter {task : Task σ} (hs : C.stage i = none)
    (hlocks : task.locksR = true → C.rMutex = none)
    (henter : enterTurn C i task = .ok (r, C')) : ∃ f, Moved C i f C' := by
  cases task with
  | transfer p job =>
      cases job
      all_goals
        rw [enterTurn] at henter
        split at henter
        · obtain ⟨-, rfl⟩ := Prod.mk.inj (Except.ok.inj henter)
          exact ⟨_, moved_stay hs C.st⟩
        · obtain ⟨-, rfl⟩ := Prod.mk.inj (Except.ok.inj henter)
          exact ⟨_, moved_begin hs _ rfl rfl⟩
  | setMemorySize s =>
      rw [enterTurn] at henter
      split at henter
      · obtain ⟨-, rfl⟩ := Prod.mk.inj (Except.ok.inj henter)
        exact ⟨_, moved_stay hs C.st⟩
      · obtain ⟨-, rfl⟩ := Prod.mk.inj (Except.ok.inj henter)
        exact ⟨_, moved_begin hs _ rfl rfl⟩
  | updateReservedPieces pieces =>
      rw [enterTurn] at henter
      split at henter
      · obtain ⟨-, rfl⟩ := Prod.mk.inj (Except.ok.inj henter)
        exact ⟨_, moved_stay hs C.st⟩
      · obtain ⟨-, rfl⟩ := Prod.mk.inj (Except.ok.inj henter)
        exact ⟨some (.reserve pieces), rfl, by rw [hs]; rfl, by rw [hs]; rfl,
          fun _ h => absurd h (by simp [keeps, Stage.holdsM]), fun _ _ => hlocks rfl⟩
  | updateReaderPieces pieces =>
      obtain ⟨st, -, hret⟩ := bind_eq_ok_iff.mp henter
      obtain ⟨-, rfl⟩ := Prod.mk.inj (Except.ok.inj hret)
      exact ⟨_, moved_stay hs _⟩
  | setTorrentHandle t =>
      obtain ⟨-, rfl⟩ := Prod.mk.inj (Except.ok.inj henter)
      exact ⟨_, moved_stay hs _⟩
  | outside torrent =>
      obtain ⟨-, rfl⟩ := Prod.mk.inj (Except.ok.inj henter)
      exact ⟨_, moved_stay hs _⟩

/-- The owner of either lock is the thread at a stage that holds it. -/
structure Locked (C : Crew ι σ) : Prop where
  holder : Held C.mMutex C.stage Stage.holdsM
  setter : Held C.rMutex C.stage Stage.holdsR

omit [DecidableEq ι] in
/-- The owner of `r_mutex` is in `update_reserved_pieces`. -/
theorem Locked.setter_reserves (hl : Locked C) (h : C.rMutex = some i) :
    ∃ pieces, C.stage i = some (.reserve pieces) := by
  obtain ⟨s, hs, hholds⟩ := (hl.setter i).mp h
  cases s with
  | reserve pieces => exact ⟨pieces, hs⟩
  | _ => exact absurd hholds (by simp [Stage.holdsR])

/-- **Every state of a run has its locks in order.** -/
theorem CrewRun.locked {h : List (CrewEntry ι σ)} (hr : CrewRun env info h C) : Locked C := by
  refine Runs.Run.invariant ?_ ?_ hr
  · intro C h0
    refine ⟨?_, ?_⟩
    · rw [h0.mMutex]
      exact held_none h0.stage _
    · rw [h0.rMutex]
      exact held_none h0.stage _
  · rintro C ⟨t, r⟩ C' hl ⟨hen, hadv⟩
    have hmoved : ∃ i f, Moved C i f C' := by
      cases t with
      | enter i task => exact ⟨i, moved_of_enter hen.1 hen.2.2 hadv⟩
      | go i =>
          obtain ⟨s, hs, hfree⟩ := hen
          have hturn := turn_of_go hs hadv
          exact ⟨i, moved_of_turn hs hfree hturn⟩
    obtain ⟨i, f, hm⟩ := hmoved
    refine ⟨?_, ?_⟩
    · rw [hm.stage, hm.mMutex]
      exact hl.holder.move i f hm.takesM
    · rw [hm.stage, hm.rMutex]
      exact hl.setter.move i f hm.takesR

/-! ## No deadlock -/

/-- The two locks, `false` for `m_mutex` and `true` for `r_mutex`, by their owners. -/
def Crew.owner (C : Crew ι σ) : Bool → Option ι
  | false => C.mMutex
  | true => C.rMutex

/-- The lock a stage waits for. -/
def Stage.waits : Stage → Option Bool
  | .get _ _ => some false
  | .lock _ _ => some false
  | .grow _ => some false
  | .search _ _ _ _ => some true
  | _ => none

omit [DecidableEq ι] in
/-- A stage is free if the lock it waits for is. -/
theorem free_iff {s : Stage} : Free C s ↔ ∀ l, s.waits = some l → C.owner l = none := by
  cases s <;> simp [Free, Stage.waits, Crew.owner]

/-- **The two locks cause no deadlock.**  In every state of every run in which a thread is
in a call, some thread that is in a call can make its next step. -/
theorem crew_goes_on {h : List (CrewEntry ι σ)} (hr : CrewRun env info h C) {s : Stage}
    (hs : C.stage i = some s) : ∃ j, (Turn.go j : Turn ι σ).Enabled C := by
  have hl := CrewRun.locked hr
  have horder : ∀ j l l', C.owner l = some j → (C.stage j).bind Stage.waits = some l' →
      l.toNat < l'.toNat := by
    intro j l l' howner hwaits
    obtain ⟨t, ht, hwaits⟩ := Option.bind_eq_some_iff.mp hwaits
    cases l with
    | false =>
        -- the owner of `m_mutex` waits for `r_mutex` at most
        obtain ⟨t', ht', hholds⟩ := (hl.holder j).mp howner
        rw [ht] at ht'
        obtain rfl := Option.some.inj ht'
        cases t with
        | search p n checkRead minTime =>
            obtain rfl := Option.some.inj hwaits
            exact Nat.zero_lt_one
        | _ => simp [Stage.holdsM, Stage.waits] at hholds hwaits
    | true =>
        -- the owner of `r_mutex` waits for nothing
        obtain ⟨pieces, ht'⟩ := hl.setter_reserves howner
        rw [ht] at ht'
        obtain rfl := Option.some.inj ht'
        cases hwaits
  obtain ⟨j, hj, hnot⟩ :=
    exists_not_blocked (fun l : Bool => Bool.toNat_le l) horder i
  have hflight : ∃ t, C.stage j = some t := by
    rcases hj with rfl | ⟨l, howner⟩
    · exact ⟨s, hs⟩
    · cases l with
      | false =>
          obtain ⟨t, ht, -⟩ := (hl.holder j).mp howner
          exact ⟨t, ht⟩
      | true =>
          obtain ⟨t, ht, -⟩ := (hl.setter j).mp howner
          exact ⟨t, ht⟩
  obtain ⟨t, ht⟩ := hflight
  refine ⟨j, t, ht, free_iff.mpr ?_⟩
  intro l hwaits
  by_contra howner
  refine hnot ⟨l, ?_, howner⟩
  show (C.stage j).bind Stage.waits = some l
  rw [ht]
  exact hwaits

/-- Three threads: one sets the reserved bits, one has searched half of the buffers for a
victim and waits for it, and one waits for that. -/
theorem crew_goes_on_three :
    ∃ h C, playCrew ticking (quads 9) 0 ()
        (enterAndGo (0 : Fin 3) (.transfer 0 (.writev [[1]] 0)) 8 ++
          enterAndGo 1 (.transfer 1 (.writev [[2]] 0)) 12 ++
          enterAndGo 2 (.transfer 2 (.writev [[3]] 0)) 1 ++
          enterAndGo 0 (.updateReservedPieces [3]) 0) = some (h, C) ∧
      C.stage 2 = some (.get 2 (.writev [[3]] 0)) ∧ C.mMutex = some 1 ∧ C.rMutex = some 0 ∧
      ¬(Turn.go 2 : Turn (Fin 3) Unit).Enabled C ∧ ¬(Turn.go 1 : Turn (Fin 3) Unit).Enabled C ∧
      ∃ j, (Turn.go j : Turn (Fin 3) Unit).Enabled C := by
  have hplay : playCrew ticking (quads 9) 0 ()
      (enterAndGo (0 : Fin 3) (.transfer 0 (.writev [[1]] 0)) 8 ++
        enterAndGo 1 (.transfer 1 (.writev [[2]] 0)) 12 ++
        enterAndGo 2 (.transfer 2 (.writev [[3]] 0)) 1 ++
        enterAndGo 0 (.updateReservedPieces [3]) 0) = some (_, _) := rfl
  refine ⟨_, _, hplay, rfl, rfl, rfl, by decide, by decide, ?_⟩
  exact crew_goes_on (i := 2) (s := .get 2 (.writev [[3]] 0)) (playCrew_run (by decide) hplay) rfl

end Libtorrent
