/-
# The picker and the storage

The picker of the torrent keeps its own account of the pieces: which ones it has, and
which priority they are to be downloaded with.  The laws below are what `restore_piece`
relies on there.  Under them the picker never has a piece the storage has dropped
(`haves_are_resident`), and a piece that was evicted during playback is not let in again
until a client asks for it (`evicted_stays_out`).
-/
import LibtorrentGo.Restores

open Subscript

namespace Libtorrent

open MemoryStorage

variable {σ : Type}

/-! ## Restoring a list of pieces -/

/-- Without a handle nothing is restored. -/
theorem restoreAll_of_no_handle {env : Env σ} {st : MemoryStorage σ}
    (h : ¬(st.mHandle = true ∧ st.t = true)) (ps : List ℤ) : restoreAll env st ps = st.torrent := by
  have hguard : (!st.mHandle || !st.t) = true := by
    cases hm : st.mHandle <;> cases ht : st.t <;> simp_all
  have hfold : ∀ s : σ, ps.foldl
      (fun s p => (restorePiece env { st with torrent := s } p).torrent) s = s := by
    intro s
    induction ps generalizing s with
    | nil => rfl
    | cons p ps ih =>
        have hstep : (restorePiece env { st with torrent := s } p).torrent = s := by
          rw [restorePiece, if_pos hguard]
        rw [List.foldl_cons, hstep, ih]
  exact hfold st.torrent

/-- One piece restored through a handle. -/
theorem torrent_restorePiece {env : Env σ} {st : MemoryStorage σ}
    (h : st.mHandle = true ∧ st.t = true) (s : σ) (p : ℤ) :
    (restorePiece env { st with torrent := s } p).torrent =
      env.weDontHave (env.setPiecePriority (env.resetPieceDeadline s p) p 0) p := by
  rw [restorePiece, if_neg (by simp [h.1, h.2])]

/-! ## The pieces the picker has -/

/-- What the operations of the torrent do to the set of pieces it has. -/
structure HaveLaws (env : Env σ) (has : σ → ℤ → Prop) : Prop where
  resetPieceDeadline : ∀ s p q, has (env.resetPieceDeadline s p) q ↔ has s q
  setPiecePriority : ∀ s p v q, has (env.setPiecePriority s p v) q ↔ has s q
  weDontHave : ∀ s p q, has (env.weDontHave s p) q ↔ has s q ∧ q ≠ p

/-- Restoring pieces takes them out of the set. -/
theorem HaveLaws.restoreAll {env : Env σ} {has : σ → ℤ → Prop} (laws : HaveLaws env has)
    {st : MemoryStorage σ} (h : st.mHandle = true ∧ st.t = true) (ps : List ℤ) (q : ℤ) :
    has (restoreAll env st ps) q ↔ has st.torrent q ∧ q ∉ ps := by
  have hfold : ∀ s : σ, has (ps.foldl
      (fun s p => (restorePiece env { st with torrent := s } p).torrent) s) q ↔
        has s q ∧ q ∉ ps := by
    intro s
    induction ps generalizing s with
    | nil => simp
    | cons p ps ih =>
        rw [List.foldl_cons, ih, torrent_restorePiece h, laws.weDontHave, laws.setPiecePriority,
          laws.resetPieceDeadline, List.mem_cons, not_or, and_assoc]
  exact hfold st.torrent

/-- Whatever the handle, restoring pieces adds nothing. -/
theorem HaveLaws.of_restoreAll {env : Env σ} {has : σ → ℤ → Prop} (laws : HaveLaws env has)
    {st : MemoryStorage σ} {ps : List ℤ} {q : ℤ} (h : has (Libtorrent.restoreAll env st ps) q) :
    has st.torrent q := by
  by_cases hv : st.mHandle = true ∧ st.t = true
  · exact ((laws.restoreAll hv ps q).mp h).1
  · rw [restoreAll_of_no_handle hv] at h
    exact h

/-- If the step changes the torrent, it gets pieces only while they are resident. -/
def GetsResident (has : σ → ℤ → Prop) (e : CallEntry σ) : Prop :=
  match e.label.1 with
  | .outside torrent => ∀ q, has torrent q → has e.before.torrent q ∨ Resident e.before q
  | _ => True

/-- If the step is a `writev`, it is made with a handle whose torrent is there. -/
def WritesWithHandle (e : CallEntry σ) : Prop :=
  match e.label.1 with
  | .writev _ _ _ => e.before.mHandle = true ∧ e.before.t = true
  | _ => True

instance {had : σ → List ℤ} :
    (e : CallEntry σ) → Decidable (GetsResident (fun s q => q ∈ had s) e)
  | ⟨s, (.outside torrent, _), _⟩ =>
      inferInstanceAs (Decidable (∀ q ∈ had torrent, q ∈ had s.torrent ∨ Resident s q))
  | ⟨_, (.readv _ _ _, _), _⟩ | ⟨_, (.read _ _ _ _, _), _⟩ | ⟨_, (.setMemorySize _, _), _⟩
  | ⟨_, (.updateReaderPieces _, _), _⟩ | ⟨_, (.updateReservedPieces _, _), _⟩
  | ⟨_, (.setTorrentHandle _, _), _⟩ | ⟨_, (.writev _ _ _, _), _⟩ => isTrue trivial

instance : (e : CallEntry σ) → Decidable (WritesWithHandle e)
  | ⟨s, (.writev _ _ _, _), _⟩ =>
      inferInstanceAs (Decidable (s.mHandle = true ∧ s.t = true))
  | ⟨_, (.readv _ _ _, _), _⟩ | ⟨_, (.read _ _ _ _, _), _⟩ | ⟨_, (.setMemorySize _, _), _⟩
  | ⟨_, (.updateReaderPieces _, _), _⟩ | ⟨_, (.updateReservedPieces _, _), _⟩
  | ⟨_, (.setTorrentHandle _, _), _⟩ | ⟨_, (.outside _, _), _⟩ => isTrue trivial

/-- **The picker never has a piece the storage has dropped**: in every run in which it gets
pieces only while they are resident, and in which writes are made with a valid handle. -/
theorem haves_are_resident {env : Env σ} {info : TorrentInfo} {has : σ → ℤ → Prop}
    (laws : HaveLaws env has) {st₀ : MemoryStorage σ} (h0 : Init info st₀)
    (hnone : ∀ q, ¬has st₀.torrent q) {h : History σ} {st : MemoryStorage σ}
    (hr : Continuation env st₀ h st)
    (hgets : ∀ e ∈ h, GetsResident has e) (hhandle : ∀ e ∈ h, WritesWithHandle e) :
    ∀ q, has st.torrent q → Resident st q := by
  have hr₀ : StorageRun env info [] st₀ := .start h0
  revert hgets hhandle
  refine Continuation.rule (J := fun h st => (∀ e ∈ h, GetsResident has e) →
    (∀ e ∈ h, WritesWithHandle e) → ∀ q, has st.torrent q → Resident st q) hr₀ ?_ ?_ hr
  · intro _ _ q hq
    exact absurd hq (hnone q)
  · intro h st c r st' hrun _ ih he hgets hhandle q hq
    obtain ⟨hgetsLast, hgetsRest⟩ := List.forall_mem_cons.mp hgets
    obtain ⟨hhandleLast, hhandleRest⟩ := List.forall_mem_cons.mp hhandle
    have hbefore := ih hgetsRest hhandleRest
    have hw := hrun.wellFormed
    have hroom := hrun.ledger.room
    by_cases hc : ∃ torrent, c = .outside torrent
    · -- the picker changed by itself
      obtain ⟨torrent, rfl⟩ := hc
      cases he with
      | outside =>
          rcases hgetsLast q hq with hhad | hres
          · exact hbefore q hhad
          · exact hres
    · have htorrent := he.torrent hw hroom fun torrent heq => hc ⟨torrent, heq⟩
      have hhad : has st.torrent q := by
        apply laws.of_restoreAll
        rw [← htorrent]
        exact hq
      by_contra hgone
      -- a piece that lost its buffer was restored, through a handle that is valid
      obtain ⟨bufs, p, offset, rfl, -⟩ := he.evicts_only_writev hw hroom (hbefore q hhad) hgone
      rw [htorrent, laws.restoreAll hhandleLast] at hq
      apply hq.2
      exact List.mem_append_right _
        ((mem_evicted_iff hw.toLinked q).mpr ⟨hbefore q hhad, hgone⟩)

/-- A torrent that keeps a list of the pieces it has satisfies the laws. -/
theorem haveLaws_picking : HaveLaws picking fun s q => q ∈ s.had where
  resetPieceDeadline := fun _ _ _ => Iff.rfl
  setPiecePriority := fun _ _ _ _ => Iff.rfl
  weDontHave := fun s p q => by
    show q ∈ s.had.filter (fun j => j ≠ p) ↔ q ∈ s.had ∧ q ≠ p
    rw [List.mem_filter, decide_eq_true_eq]

/-- The picker gets a piece that is evicted later. -/
theorem haves_are_resident_evicted :
    ∃ st₀ h st, MemoryStorage.new (quads 9) 0 false false (⟨[], []⟩ : Picker) = .ok st₀ ∧
      play picking 3 [.setTorrentHandle true, .writev [[1, 2, 3, 4]] 0 0, .outside ⟨[0], []⟩,
        .writev [[5]] 1 0] [] st₀ = some (h, st) ∧
      ∀ q, q ∈ st.torrent.had → Resident st q := by
  have hnew : MemoryStorage.new (quads 9) 0 false false (⟨[], []⟩ : Picker) = .ok _ := rfl
  refine ⟨_, _, _, hnew, rfl, haves_are_resident haveLaws_picking
    ⟨0, false, false, _, le_rfl, hnew⟩ (fun q => List.not_mem_nil)
    (play_run picking 3 [.setTorrentHandle true, .writev [[1, 2, 3, 4]] 0 0, .outside ⟨[0], []⟩,
        .writev [[5]] 1 0] rfl) ?_ ?_⟩
  · decide
  · decide

/-! ## The priorities the picker keeps -/

/-- What the operations of the torrent do to the priorities it reports: they are the last
ones set, and do not change by themselves. -/
structure PriorityLaws (env : Env σ) : Prop where
  steady : ∀ n m s q, env.piecePriority n s q = env.piecePriority m s q
  setPiecePriority : ∀ n s p v q, env.piecePriority n (env.setPiecePriority s p v) q =
    if q = p then v else env.piecePriority n s q
  resetPieceDeadline : ∀ n s p q,
    env.piecePriority n (env.resetPieceDeadline s p) q = env.piecePriority n s q
  weDontHave : ∀ n s p q, env.piecePriority n (env.weDontHave s p) q = env.piecePriority n s q

/-- Restoring pieces sets their priorities to 0. -/
theorem PriorityLaws.restoreAll {env : Env σ} (laws : PriorityLaws env) {st : MemoryStorage σ}
    (h : st.mHandle = true ∧ st.t = true) (n : ℕ) (ps : List ℤ) (q : ℤ) :
    env.piecePriority n (restoreAll env st ps) q =
      if q ∈ ps then 0 else env.piecePriority n st.torrent q := by
  have hfold : ∀ s : σ, env.piecePriority n (ps.foldl
      (fun s p => (restorePiece env { st with torrent := s } p).torrent) s) q =
        if q ∈ ps then 0 else env.piecePriority n s q := by
    intro s
    induction ps generalizing s with
    | nil => rfl
    | cons p ps ih =>
        rw [List.foldl_cons, ih, torrent_restorePiece h, laws.weDontHave, laws.setPiecePriority,
          laws.resetPieceDeadline]
        by_cases hps : q ∈ ps
        · rw [if_pos hps, if_pos (List.mem_cons_of_mem p hps)]
        · by_cases hq : q = p
          · rw [if_neg hps, if_pos hq, if_pos (by rw [hq]; exact List.mem_cons_self)]
          · rw [if_neg hps, if_neg hq, if_neg (by simp [hq, hps])]
  exact hfold st.torrent

/-- Whatever the handle, restoring pieces raises no priority of 0. -/
theorem PriorityLaws.restoreAll_zero {env : Env σ} (laws : PriorityLaws env)
    {st : MemoryStorage σ} {n : ℕ} (ps : List ℤ) {q : ℤ}
    (h : env.piecePriority n st.torrent q = 0) :
    env.piecePriority n (Libtorrent.restoreAll env st ps) q = 0 := by
  by_cases hv : st.mHandle = true ∧ st.t = true
  · rw [laws.restoreAll hv, h, ite_self]
  · rw [restoreAll_of_no_handle hv]
    exact h

/-! ## Evicted pieces during playback -/

/-- Piece `p` is out: it has no buffer, and the reader rule refuses it one. -/
structure Banned (env : Env σ) (st : MemoryStorage σ) (p : ℤ) : Prop where
  reading : st.isReading = true
  handle : st.mHandle = true
  unwanted : ∀ n, env.piecePriority n st.torrent p = 0
  gone : ¬Resident st p

/-- The reader rule refuses a banned piece. -/
theorem Banned.refused {env : Env σ} {st : MemoryStorage σ} {p : ℤ} (h : Banned env st p)
    (hl : Linked st) : st.Refused env p := by
  refine ⟨h.reading, ?_⟩
  unfold isReadered
  rw [hl.initialized, h.handle, h.unwanted]
  rfl

/-- If the step changes the torrent, it leaves piece `p` with priority 0. -/
def LeavesUnwanted (env : Env σ) (p : ℤ) (e : CallEntry σ) : Prop :=
  match e.label.1 with
  | .outside torrent => env.piecePriority 0 torrent p = 0
  | _ => True

instance (env : Env σ) (p : ℤ) : (e : CallEntry σ) → Decidable (LeavesUnwanted env p e)
  | ⟨_, (.outside torrent, _), _⟩ =>
      inferInstanceAs (Decidable (env.piecePriority 0 torrent p = 0))
  | ⟨_, (.readv _ _ _, _), _⟩ | ⟨_, (.read _ _ _ _, _), _⟩ | ⟨_, (.setMemorySize _, _), _⟩
  | ⟨_, (.updateReaderPieces _, _), _⟩ | ⟨_, (.updateReservedPieces _, _), _⟩
  | ⟨_, (.setTorrentHandle _, _), _⟩ | ⟨_, (.writev _ _ _, _), _⟩ => isTrue trivial

/-- **A banned piece stays banned** until a client asks for it. -/
theorem Banned.next {env : Env σ} {info : TorrentInfo} (laws : PriorityLaws env)
    {st st' : MemoryStorage σ} {c : Call σ} {r : Reply} {p : ℤ} (h : Banned env st p)
    (he : Effect env st c r st') (hw : WellFormed info st) (hroom : 0 < slack st)
    (hclient : LeavesUnwanted env p ⟨st, (c, r), st'⟩) : Banned env st' p := by
  obtain ⟨-, hhandle, hreading⟩ := he.flags hw hroom
  refine ⟨hreading h.reading, hhandle h.handle, ?_, ?_⟩
  · intro n
    by_cases hc : ∃ torrent, c = .outside torrent
    · obtain ⟨torrent, rfl⟩ := hc
      cases he with
      | outside =>
          rw [laws.steady n 0]
          exact hclient
    · rw [he.torrent hw hroom fun torrent heq => hc ⟨torrent, heq⟩]
      exact laws.restoreAll_zero _ (h.unwanted n)
  · intro hr
    rcases he.resident_after hw hroom hr with hbefore | ⟨⟨bufs, offset, hc⟩, -⟩
    · exact h.gone hbefore
    · -- a `writev` to the piece is turned away
      have hcall : c = .writev bufs p offset := hc
      subst hcall
      obtain ⟨-, hst⟩ := he.turnedAway ⟨h.gone, Or.inr (h.refused hw.toLinked)⟩
      rw [hst] at hr
      exact h.gone hr

/-- An eviction through a valid handle during playback bans the piece. -/
theorem Effect.bans {env : Env σ} {info : TorrentInfo} (laws : PriorityLaws env)
    {st st' : MemoryStorage σ} {c : Call σ} {r : Reply} (he : Effect env st c r st')
    (hw : WellFormed info st) (hroom : 0 < slack st) {p : ℤ}
    (hevicts : Evicts ⟨st, (c, r), st'⟩ p) (hreading : st.isReading = true)
    (hhandle : st.mHandle = true ∧ st.t = true) : Banned env st' p := by
  obtain ⟨bufs, q, offset, hc, -⟩ := he.evicts_only_writev hw hroom hevicts.1 hevicts.2
  subst hc
  obtain ⟨-, hhandle', hreading'⟩ := he.flags hw hroom
  refine ⟨hreading' hreading, hhandle' hhandle.1, ?_, hevicts.2⟩
  intro n
  have hmem : p ∈ restored env ⟨st, (.writev bufs q offset, r), st'⟩ :=
    List.mem_append_right _ ((mem_evicted_iff hw.toLinked p).mpr hevicts)
  rw [he.torrent hw hroom (by simp), laws.restoreAll hhandle, if_pos hmem]

/-- A `writev` the reader rule refuses changes the torrent only. -/
theorem writev_of_refused {env : Env σ} {st : MemoryStorage σ} (h : Linked st) {p : ℤ}
    {pc : MemoryPiece} (hp : at? st.pieces p = some pc) (hb : pc.bi = -1)
    (href : st.Refused env p) (fuel : ℕ) (bufs : List (List Byte)) (offset : ℤ) :
    writev env fuel st bufs p offset = .ok (0, restorePiece env st p) := by
  rcases getWriteBuffer_cases env h hp with
    ⟨hne, -⟩ | ⟨-, -, hget⟩ | ⟨-, hadmit, -⟩ | ⟨-, hadmit, -⟩
  · exact absurd hb hne
  · unfold writev
    rw [if_neg (by simp [h.initialized]), hget, ok_bind]
    rfl
  · exact absurd href hadmit
  · exact absurd href hadmit

/-- **What is evicted during playback stays out.**  From the eviction on, and until a client
sets a priority other than 0, the piece is not resident, every `writev` to it returns 0
and changes the torrent only, `readv` returns 0 and `read` -1. -/
theorem evicted_stays_out {env : Env σ} {info : TorrentInfo} (laws : PriorityLaws env)
    {h₀ : History σ} {e : CallEntry σ} (hr₀ : StorageRun env info (e :: h₀) e.after) {p : ℤ}
    (hevicts : Evicts e p) (hreading : e.before.isReading = true)
    (hhandle : e.before.mHandle = true ∧ e.before.t = true) {h : History σ}
    {st : MemoryStorage σ} (hr : Continuation env e.after h st)
    (hclient : ∀ d ∈ h, LeavesUnwanted env p d) :
    ¬Resident st p ∧
    (∀ fuel bufs offset, ∃ torrent,
      writev env fuel st bufs p offset = .ok (0, { st with torrent := torrent })) ∧
    (∀ bufs offset, readv env st bufs p offset = .ok (0, bufs, st)) ∧
    ∀ readBuf size offset, (read env st readBuf size p offset).map Prod.fst = .ok (-1) := by
  have hban : Banned env st p := by
    revert hclient
    refine Continuation.rule (J := fun h st => (∀ d ∈ h, LeavesUnwanted env p d) →
      Banned env st p) hr₀ ?_ ?_ hr
    · intro _
      cases hr₀ with
      | next hrun hs =>
          have hrun' : StorageRun env info h₀ _ := hrun
          exact (hs.effect hrun'.wellFormed).bans laws hrun'.wellFormed hrun'.ledger.room hevicts
            hreading hhandle
    · intro h st c r st' hrun _ ih he hclient
      obtain ⟨hlast, hrest⟩ := List.forall_mem_cons.mp hclient
      exact (ih hrest).next laws he hrun.wellFormed hrun.ledger.room hlast
  obtain ⟨⟨g, hrun⟩, -⟩ := hr₀.step_of_mem List.mem_cons_self
  have hbefore : StorageRun env info g e.before := hrun
  have hafter : StorageRun env info (h ++ e :: h₀) st := hr₀.append hr
  have hw := hafter.wellFormed
  -- the piece has a record, which names no buffer
  obtain ⟨h0, h1⟩ := hevicts.1.bounds hbefore.wellFormed.toLinked
  rw [hbefore.wellFormed.pieceCount_eq, ← hw.pieceCount_eq] at h1
  obtain ⟨pc, hp⟩ := hw.exists_piece h0 h1
  have hb := (not_resident_iff hp).mp hban.gone
  refine ⟨hban.gone, ?_, ?_, ?_⟩
  · intro fuel bufs offset
    rw [writev_of_refused hw.toLinked hp hb (hban.refused hw.toLinked), restorePiece_eq]
    exact ⟨_, rfl⟩
  · intro bufs offset
    exact readv_of_not_resident env hw.toLinked hp hb bufs offset
  · intro readBuf size offset
    rw [read_of_incomplete env hw.toLinked hp (Or.inl hb)]
    rfl

/-- The laws hold of a torrent that keeps a list of the priorities set so far. -/
theorem priorityLaws_picking : PriorityLaws picking where
  steady := fun _ _ _ _ => rfl
  setPiecePriority := fun _ s p v q => by
    show (((p, v) :: s.priorities).lookup q).getD 4 = _
    rw [List.lookup_cons]
    by_cases hq : q = p
    · rw [if_pos hq, beq_iff_eq.mpr hq]
      rfl
    · rw [if_neg hq, beq_eq_false_iff_ne.mpr hq]
      rfl
  resetPieceDeadline := fun _ _ _ _ => rfl
  weDontHave := fun _ _ _ _ => rfl

/-- A piece that was read and evicted is reserved, the pool grows, and it stays out. -/
theorem evicted_stays_out_reserved :
    ∃ e h₀ h st, playNew picking 3 (quads 9) 0 ⟨[], []⟩ [.setTorrentHandle true,
        .writev [[1, 2, 3, 4]] 0 0, .read [0] 1 0 0, .writev [[5]] 1 0]
        = some (e :: h₀, e.after) ∧
      play picking 3 [.updateReservedPieces [0], .setMemorySize 12, .outside ⟨[], [(0, 0), (2, 7)]⟩,
        .writev [[6]] 2 0] [] e.after = some (h, st) ∧
      ¬Resident st 0 ∧
      (∀ fuel bufs offset, ∃ torrent,
        writev picking fuel st bufs 0 offset = .ok (0, { st with torrent := torrent })) ∧
      (∀ bufs offset, readv picking st bufs 0 offset = .ok (0, bufs, st)) ∧
      ∀ readBuf size offset, (read picking st readBuf size 0 offset).map Prod.fst = .ok (-1) := by
  have hplay : playNew picking 3 (quads 9) 0 ⟨[], []⟩ [.setTorrentHandle true,
      .writev [[1, 2, 3, 4]] 0 0, .read [0] 1 0 0, .writev [[5]] 1 0] = some (_ :: _, _) := rfl
  exact ⟨_, _, _, _, hplay, rfl, evicted_stays_out priorityLaws_picking
    (playNew_run (by decide) hplay) ⟨by decide, by decide⟩ (by decide) (by decide)
    (play_run picking 3 [.updateReservedPieces [0], .setMemorySize 12,
      .outside ⟨[], [(0, 0), (2, 7)]⟩, .writev [[6]] 2 0] rfl) (by decide)⟩

end Libtorrent
