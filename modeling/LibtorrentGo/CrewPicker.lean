/-
# The picker and many threads

What the picker of the torrent can rely on holds under any interleaving as well.  Only two
kinds of steps tell it anything: one that removes a piece and one that turns a call away, and
both name one piece (`torrent_of_turn`).  A piece is removed and reported in one step, so the
picker never has a piece that has no buffer (`crew_haves_are_resident`), and a piece that was
removed during playback is refused a buffer, whichever thread asks and how far it had got
(`crew_evicted_stays_out`).
-/
import LibtorrentGo.Picker
import LibtorrentGo.Pinned
import LibtorrentGo.Readers

open Subscript

namespace Libtorrent

open MemoryStorage

variable {σ ι : Type}

/-! ## What a step tells the torrent -/

/-- One piece restored is all that is restored. -/
theorem restoreAll_singleton (env : Env σ) (st : MemoryStorage σ) (p : ℤ) :
    restoreAll env st [p] = restoredTorrent env st p := by
  have hrestore : restoreAll env st [p] = (restorePiece env st p).torrent := rfl
  rw [hrestore, restorePiece_eq]

/-- The reply to a transfer that is turned away. -/
def Job.refusal : Job → Reply
  | .writev _ _ => ⟨0, []⟩
  | .readv bufs _ => ⟨0, bufs⟩
  | .read readBuf _ _ => ⟨-1, [readBuf]⟩

section Steps

variable [DecidableEq ι] {env : Env σ} {info : TorrentInfo} {C C' : Crew ι σ} {i : ι}
  {r : Option Reply}

/-- A thread that asks for a buffer finds one, is given one that is admitted, or is turned away,
of which the torrent may be told. -/
theorem getTurn_cases (hw : WellFormed info C.st) {p : ℤ} {job : Job} (hf : job.Fits info p) :
    (Resident C.st p ∧
      getTurn env C i p job = .ok (none, C.next i C.st (job.begins p))) ∨
    (¬Resident C.st p ∧ ∃ torrent,
      (torrent = C.st.torrent ∨ torrent = restoredTorrent env C.st p) ∧
      getTurn env C i p job =
        .ok (some job.refusal, C.done i { C.st with torrent := torrent })) ∨
    (¬C.st.Refused env p ∧ ∃ bufs offset b pc bf, job = .writev bufs offset ∧
      at? C.st.pieces p = some pc ∧ pc.bi = -1 ∧ FirstFree C.st b bf ∧
      getTurn env C i p job = .ok (none,
        C.next i (C.st.place env p pc b bf (decide (C.st.Reserved p))) (job.begins p))) := by
  obtain ⟨pc, hp⟩ := hw.exists_piece hf.piece_nonneg (hw.pieceCount_eq ▸ hf.piece_lt)
  have reads : getReadBuffer env C.st p = .ok (pc.isBuffered, C.st) := getReadBuffer_eq env hp
  have there : pc.isBuffered = true → Resident C.st p := by
    intro hb
    exact ⟨pc, hp, by simpa [MemoryPiece.isBuffered] using hb⟩
  have away : pc.isBuffered = false → ¬Resident C.st p := by
    intro hb
    exact (not_resident_iff hp).mpr (by simpa [MemoryPiece.isBuffered] using hb)
  cases job with
  | writev bufs offset =>
      rw [getTurn]
      rcases getWriteBuffer_cases env hw.toLinked hp with
        ⟨hb, heq⟩ | ⟨hb, -, heq⟩ | ⟨hb, -, -, heq⟩ | ⟨hb, hgranted, b, bf, hfree, heq⟩
      all_goals rw [heq, ok_bind]
      · exact Or.inl ⟨⟨pc, hp, hb⟩, rfl⟩
      · rw [restorePiece_eq]
        exact Or.inr (Or.inl ⟨(not_resident_iff hp).mpr hb, _, Or.inr rfl, rfl⟩)
      · exact Or.inr (Or.inl ⟨(not_resident_iff hp).mpr hb, C.st.torrent, Or.inl rfl, rfl⟩)
      · exact Or.inr (Or.inr ⟨hgranted, bufs, offset, b, pc, bf, rfl, hp, hb, hfree, rfl⟩)
  | readv bufs offset =>
      rw [getTurn, reads, ok_bind]
      cases hb : pc.isBuffered with
      | true => exact Or.inl ⟨there hb, rfl⟩
      | false => exact Or.inr (Or.inl ⟨away hb, C.st.torrent, Or.inl rfl, rfl⟩)
  | read readBuf size offset =>
      rw [getTurn, reads, ok_bind]
      cases hb : pc.isBuffered with
      | true => exact Or.inl ⟨there hb, rfl⟩
      | false =>
          refine Or.inr (Or.inl ⟨away hb, restoredTorrent env C.st p, Or.inr rfl, ?_⟩)
          simp only [restorePiece_eq]
          rfl

/-- **What a step tells the torrent**: nothing, or that one piece is to be restored. -/
theorem torrent_of_turn (hord : Orderly info C) {s : Stage} (hs : C.stage i = some s)
    (hturn : turn env C i s = .ok (r, C')) :
    C'.st.torrent = C.st.torrent ∨ ∃ q, C'.st.torrent = restoredTorrent env C.st q := by
  have hstroke := hord.stroke_of_turn hs hturn
  cases hstroke with
  | @refuse p job r torrent =>
      have hget : getTurn env C i p job = _ := hturn
      rcases getTurn_cases hord.wellFormed (hord.valid i _ hs) with
        ⟨-, heq⟩ | ⟨-, torrent', htorrent, heq⟩ | ⟨-, _, _, _, _, _, -, -, -, -, heq⟩
      · rw [heq] at hget
        exact absurd hget (by simp)
      · rw [heq] at hget
        obtain ⟨-, hC⟩ := Prod.mk.inj (Except.ok.inj hget)
        rw [← hC]
        exact htorrent.imp id fun h => ⟨p, h⟩
      · rw [heq] at hget
        exact absurd hget (by simp)
  | @incomplete p size offset readBuf => exact Or.inr ⟨p, rfl⟩
  | @remove p n v b vc bf ho _ => exact Or.inr ⟨v, rfl⟩
  | _ => exact Or.inl rfl

/-- **The pieces that have a buffer** change in two ways: an admitted piece is given one, or a
piece is removed. -/
theorem residents_of_turn (hord : Orderly info C) {s : Stage} (hs : C.stage i = some s)
    (hturn : turn env C i s = .ok (r, C')) :
    (∀ q, Resident C'.st q ↔ Resident C.st q) ∨
    (∃ p, ¬C.st.Refused env p ∧ ∀ q, Resident C'.st q ↔ q = p ∨ Resident C.st q) ∨
    ∃ p n b v vc bf, s = .remove p n b ∧ Owns C.st v vc b bf ∧
      C'.st = C.st.evict env v vc b bf := by
  have hw := hord.wellFormed
  have hl := hw.toLinked
  have hstroke := hord.stroke_of_turn hs hturn
  cases hstroke with
  | @place p offset b bufs pc bf hp hpb hfree =>
      right
      left
      have hget : getTurn env C i p (.writev bufs offset) = _ := hturn
      refine ⟨p, ?_, resident_place hl hp hpb hfree.buffer hfree.free _⟩
      rcases getTurn_cases hw (hord.valid i _ hs) with
        ⟨hres, -⟩ | ⟨-, _, -, heq⟩ | ⟨hgranted, -⟩
      · exact absurd hres ((not_resident_iff hp).mpr hpb)
      · rw [heq] at hget
        exact absurd hget (by simp)
      · exact hgranted
  | finish ho => exact Or.inl (resident_touch hl ho _)
  | @account _ n _ pc bf ho =>
      exact Or.inl (hw.revise ho { pc with size := pc.size + n }
        { bf with accessed := some (env.clock C.st.ticks) } ⟨rfl, rfl, rfl⟩
        ⟨rfl, rfl, rfl, rfl⟩ (C.st.ticks + 1)).2.2
  | @remove p n v b vc bf ho _ => exact Or.inr (Or.inr ⟨p, n, b, v, vc, bf, rfl, ho, rfl⟩)
  | _ => exact Or.inl fun _ => Iff.rfl

/-- The first step of a call leaves the pieces that have a buffer. -/
theorem Entered.resident_iff {task : Task σ} (hent : Entered C i task C') (q : ℤ) :
    Resident C'.st q ↔ Resident C.st q := by
  rw [Resident, Resident, hent.pieces]

/-! ## The pieces the picker has -/

/-- If a thread changes the torrent, that gets pieces only while they are resident. -/
def CrewGetsResident (has : σ → ℤ → Prop) (e : CrewEntry ι σ) : Prop :=
  match e.label.1 with
  | .enter _ (.outside torrent) =>
      ∀ q, has torrent q → has e.before.st.torrent q ∨ Resident e.before.st q
  | _ => True

/-- The thread is about to remove a piece. -/
def Stage.removes : Stage → Bool
  | .remove _ _ _ => true
  | _ => false

/-- If the step removes a piece, there is a handle and its torrent. -/
def RemovesWithHandle (e : CrewEntry ι σ) : Prop :=
  match e.label.1 with
  | .go i => (e.before.stage i).any Stage.removes = true →
      e.before.st.mHandle = true ∧ e.before.st.t = true
  | .enter _ _ => True

/-- **Under any interleaving the picker never has a piece without a buffer**: in every run of
threads in which it gets pieces only while they are resident, no thread lowers the number of
buffers, and pieces are removed with a valid handle. -/
theorem crew_haves_are_resident {has : σ → ℤ → Prop} (laws : HaveLaws env has) {C₀ : Crew ι σ}
    (h0 : CrewInit info C₀) (hnone : ∀ q, ¬has C₀.st.torrent q) {h : List (CrewEntry ι σ)}
    (hr : CrewContinuation env C₀ h C) (hkeep : ∀ e ∈ h, ¬Shrinks e)
    (hgets : ∀ e ∈ h, CrewGetsResident has e) (hhandle : ∀ e ∈ h, RemovesWithHandle e) :
    ∀ q, has C.st.torrent q → Resident C.st q := by
  have hstart : CrewRun env info [] C₀ := .start h0
  refine CrewContinuation.rule hstart (by simp) (J := fun h C =>
    (∀ e ∈ h, CrewGetsResident has e) → (∀ e ∈ h, RemovesWithHandle e) →
      ∀ q, has C.st.torrent q → Resident C.st q) ?_ ?_ ?_ hr hkeep hgets hhandle
  · intro _ _ q hq
    exact absurd hq (hnone q)
  · intro h C i task r C' _ ih _ henter hgets hhandle q hq
    obtain ⟨hgetsLast, hgetsRest⟩ := List.forall_mem_cons.mp hgets
    have hbefore := ih hgetsRest (List.forall_mem_cons.mp hhandle).2
    have hent := entered_of_enter henter
    rw [hent.resident_iff]
    by_cases hout : ∃ torrent, task = .outside torrent
    · obtain ⟨torrent, rfl⟩ := hout
      obtain ⟨-, rfl⟩ := Prod.mk.inj (Except.ok.inj henter)
      rcases hgetsLast q hq with hhad | hres
      · exact hbefore q hhad
      · exact hres
    · rw [hent.torrent fun torrent heq => hout ⟨torrent, heq⟩] at hq
      exact hbefore q hq
  · intro h C i s r C' hord _ ih hs _ hturn hgets hhandle q hq
    obtain ⟨hhandleLast, hhandleRest⟩ := List.forall_mem_cons.mp hhandle
    have hbefore := ih (List.forall_mem_cons.mp hgets).2 hhandleRest
    have hhad : has C.st.torrent q := by
      rcases torrent_of_turn hord hs hturn with heq | ⟨v, heq⟩
      · rw [← heq]
        exact hq
      · rw [heq, ← restoreAll_singleton] at hq
        exact laws.of_restoreAll hq
    have hres := hbefore q hhad
    rcases residents_of_turn hord hs hturn with
      hsame | ⟨p, -, hadds⟩ | ⟨p, n, b, v, vc, bf, rfl, ho, hC⟩
    · exact (hsame q).mpr hres
    · exact (hadds q).mpr (Or.inr hres)
    · -- the piece that is removed is taken from the picker
      have hvalid : C.st.mHandle = true ∧ C.st.t = true := hhandleLast (by rw [hs]; rfl)
      rw [hC] at hq ⊢
      refine (resident_evict hord.wellFormed.toLinked ho q).mpr ⟨hres, ?_⟩
      have hq' : has (restoreAll env C.st [v]) q := by
        rw [restoreAll_singleton]
        exact hq
      have hnot := ((laws.restoreAll hvalid [v] q).mp hq').2
      simpa using hnot

end Steps

instance {had : σ → List ℤ} (e : CrewEntry ι σ) :
    Decidable (CrewGetsResident (fun s q => q ∈ had s) e) :=
  match ht : e.label.1 with
  | .enter _ (.outside torrent) => decidable_of_iff
      (∀ q ∈ had torrent, q ∈ had e.before.st.torrent ∨ Resident e.before.st q)
      (by simp only [CrewGetsResident, ht])
  | .enter _ (.transfer _ _) => isTrue (by simp [CrewGetsResident, ht])
  | .enter _ (.setMemorySize _) => isTrue (by simp [CrewGetsResident, ht])
  | .enter _ (.updateReservedPieces _) => isTrue (by simp [CrewGetsResident, ht])
  | .enter _ (.updateReaderPieces _) => isTrue (by simp [CrewGetsResident, ht])
  | .enter _ (.setTorrentHandle _) => isTrue (by simp [CrewGetsResident, ht])
  | .go _ => isTrue (by simp [CrewGetsResident, ht])

instance (e : CrewEntry ι σ) : Decidable (RemovesWithHandle e) :=
  match ht : e.label.1 with
  | .enter _ _ => isTrue (by simp [RemovesWithHandle, ht])
  | .go i => decidable_of_iff ((e.before.stage i).any Stage.removes = true →
      e.before.st.mHandle = true ∧ e.before.st.t = true) (by simp only [RemovesWithHandle, ht])

/-- The picker gets a piece that is evicted later, by a thread that writes another one. -/
theorem crew_haves_are_resident_evicted :
    ∃ st h C, MemoryStorage.new (quads 9) 0 true true (⟨[], []⟩ : Picker) = .ok st ∧
      Runs.replay (tryTurn picking)
        (enterAndGo (0 : Fin 2) (.transfer 0 (.writev [[1, 2, 3, 4]] 0)) 8 ++
          enterAndGo 1 (.transfer 1 (.writev [[5]] 0)) 6 ++ [.enter 0 (.outside ⟨[0], []⟩)] ++
          List.replicate 11 (.go 1)) [] ⟨st, none, none, fun _ => none⟩ = some (h, C) ∧
      ¬Resident C.st 0 ∧ ∀ q, q ∈ C.st.torrent.had → Resident C.st q := by
  have hnew : MemoryStorage.new (quads 9) 0 true true (⟨[], []⟩ : Picker) = .ok _ := rfl
  have hinit : CrewInit (quads 9) (⟨_, none, none, fun _ => none⟩ : Crew (Fin 2) Picker) :=
    ⟨⟨0, true, true, _, le_rfl, hnew⟩, rfl, rfl, fun _ => rfl⟩
  refine ⟨_, _, _, hnew, rfl, by decide, ?_⟩
  exact crew_haves_are_resident haveLaws_picking hinit (fun q => List.not_mem_nil)
    (replay_continuation
      (enterAndGo (0 : Fin 2) (.transfer 0 (.writev [[1, 2, 3, 4]] 0)) 8 ++
        enterAndGo 1 (.transfer 1 (.writev [[5]] 0)) 6 ++ [.enter 0 (.outside ⟨[0], []⟩)] ++
        List.replicate 11 (.go 1)) rfl) (by decide) (by decide) (by decide)

/-! ## Evicted pieces during playback -/

/-- If a thread changes the torrent, it leaves piece `p` with priority 0. -/
def CrewLeavesUnwanted (env : Env σ) (p : ℤ) (e : CrewEntry ι σ) : Prop :=
  match e.label.1 with
  | .enter _ (.outside torrent) => env.piecePriority 0 torrent p = 0
  | _ => True

instance (env : Env σ) (p : ℤ) (e : CrewEntry ι σ) : Decidable (CrewLeavesUnwanted env p e) :=
  match ht : e.label.1 with
  | .enter _ (.outside torrent) => decidable_of_iff (env.piecePriority 0 torrent p = 0)
      (by simp only [CrewLeavesUnwanted, ht])
  | .enter _ (.transfer _ _) => isTrue (by simp [CrewLeavesUnwanted, ht])
  | .enter _ (.setMemorySize _) => isTrue (by simp [CrewLeavesUnwanted, ht])
  | .enter _ (.updateReservedPieces _) => isTrue (by simp [CrewLeavesUnwanted, ht])
  | .enter _ (.updateReaderPieces _) => isTrue (by simp [CrewLeavesUnwanted, ht])
  | .enter _ (.setTorrentHandle _) => isTrue (by simp [CrewLeavesUnwanted, ht])
  | .go _ => isTrue (by simp [CrewLeavesUnwanted, ht])

section Banning

variable [DecidableEq ι] {env : Env σ} {info : TorrentInfo} {C C' : Crew ι σ} {i : ι}
  {r : Option Reply}

/-- A step leaves the handle. -/
theorem Stroke.mHandle {s : Stage} (hst : Stroke env C i s r C') :
    C'.st.mHandle = C.st.mHandle := by
  cases hst <;> rfl

/-- **No step lets a banned piece in.** -/
theorem Banned.turn (laws : PriorityLaws env) {p : ℤ} (h : Banned env C.st p)
    (hord : Orderly info C) {s : Stage} (hs : C.stage i = some s)
    (hturn : turn env C i s = .ok (r, C')) : Banned env C'.st p := by
  have hl := hord.wellFormed.toLinked
  have hstroke := hord.stroke_of_turn hs hturn
  refine ⟨?_, ?_, ?_, ?_⟩
  · rw [hstroke.isReading]
    exact h.reading
  · rw [hstroke.mHandle]
    exact h.handle
  · intro n
    rcases torrent_of_turn hord hs hturn with heq | ⟨v, heq⟩
    · rw [heq]
      exact h.unwanted n
    · rw [heq, ← restoreAll_singleton]
      exact laws.restoreAll_zero [v] (h.unwanted n)
  · intro hres
    rcases residents_of_turn hord hs hturn with
      hsame | ⟨q, hgranted, hadds⟩ | ⟨q, n, b, v, vc, bf, -, ho, hC⟩
    · exact h.gone ((hsame p).mp hres)
    · -- a banned piece is not admitted
      rcases (hadds p).mp hres with rfl | hold
      · exact hgranted (h.refused hl)
      · exact h.gone hold
    · rw [hC] at hres
      exact h.gone ((resident_evict hl ho p).mp hres).1

/-- The first step of a call leaves a piece banned, unless it makes the piece wanted. -/
theorem Banned.enter (laws : PriorityLaws env) {p : ℤ} (h : Banned env C.st p) {task : Task σ}
    (henter : enterTurn C i task = .ok (r, C'))
    (hclient : CrewLeavesUnwanted env p ⟨C, (.enter i task, r), C'⟩) : Banned env C'.st p := by
  have hent := entered_of_enter henter
  refine ⟨hent.isReading h.reading, hent.mHandle h.handle, ?_,
    mt (hent.resident_iff p).mp h.gone⟩
  intro n
  by_cases hout : ∃ torrent, task = .outside torrent
  · obtain ⟨torrent, rfl⟩ := hout
    obtain ⟨-, rfl⟩ := Prod.mk.inj (Except.ok.inj henter)
    show env.piecePriority n torrent p = 0
    rw [laws.steady n 0]
    exact hclient
  · rw [hent.torrent fun torrent heq => hout ⟨torrent, heq⟩]
    exact h.unwanted n

/-- A removal through a valid handle during playback bans the piece. -/
theorem bans_of_turn (laws : PriorityLaws env) (hord : Orderly info C) {s : Stage}
    (hs : C.stage i = some s) (hturn : turn env C i s = .ok (r, C')) {p : ℤ}
    (hres : Resident C.st p) (hgone : ¬Resident C'.st p) (hreading : C.st.isReading = true)
    (hhandle : C.st.mHandle = true ∧ C.st.t = true) : Banned env C'.st p := by
  have hl := hord.wellFormed.toLinked
  rcases residents_of_turn hord hs hturn with
    hsame | ⟨q, -, hadds⟩ | ⟨q, n, b, v, vc, bf, -, ho, hC⟩
  · exact absurd ((hsame p).mpr hres) hgone
  · exact absurd ((hadds p).mpr (Or.inr hres)) hgone
  · have hpv : p = v := by
      by_contra hne
      rw [hC] at hgone
      exact hgone ((resident_evict hl ho p).mpr ⟨hres, hne⟩)
    refine ⟨?_, ?_, ?_, hgone⟩
    · rw [hC]
      exact hreading
    · rw [hC]
      exact hhandle.1
    · intro m
      have htorrent : C'.st.torrent = restoreAll env C.st [v] := by
        rw [hC, restoreAll_singleton]
        rfl
      rw [htorrent, laws.restoreAll hhandle, hpv, if_pos List.mem_cons_self]

/-- **Under any interleaving what is evicted during playback stays out.**  From the step on that
removed a piece through a valid handle while something was being read, and until a client sets
another priority than 0, the piece has no buffer, and every thread that asks for one is turned
away, also one whose call began before that step. -/
theorem crew_evicted_stays_out (laws : PriorityLaws env) {h₀ : List (CrewEntry ι σ)}
    {e : CrewEntry ι σ} (hr₀ : CrewRun env info (e :: h₀) e.after)
    (hkeep₀ : ∀ d ∈ e :: h₀, ¬Shrinks d) {p : ℤ} (hevicts : EvictsFrom p e)
    (hreading : e.before.st.isReading = true)
    (hhandle : e.before.st.mHandle = true ∧ e.before.st.t = true) {h : List (CrewEntry ι σ)}
    (hr : CrewContinuation env e.after h C) (hkeep : ∀ d ∈ h, ¬Shrinks d)
    (hclient : ∀ d ∈ h, CrewLeavesUnwanted env p d) :
    ¬Resident C.st p ∧ ∀ i job, C.stage i = some (.get p job) →
      ∃ st, turn env C i (.get p job) = .ok (some job.refusal, C.done i st) := by
  have hbanned : Banned env C.st p := by
    refine CrewContinuation.rule hr₀ hkeep₀ (J := fun h C =>
      (∀ d ∈ h, CrewLeavesUnwanted env p d) → Banned env C.st p) ?_ ?_ ?_ hr hkeep hclient
    · intro _
      obtain ⟨hrun, hen, hadv⟩ := hr₀.before ⟨[], rfl⟩
      have hord := CrewRun.orderly hrun (List.forall_mem_cons.mp hkeep₀).2
      cases ht : e.label.1 with
      | enter i task =>
          rw [ht] at hadv
          exact absurd (((entered_of_enter hadv).resident_iff p).mpr hevicts.1) hevicts.2
      | go i =>
          rw [ht] at hen hadv
          obtain ⟨s, hs, -⟩ := hen
          exact bans_of_turn laws hord hs (turn_of_go hs hadv) hevicts.1 hevicts.2 hreading hhandle
    · intro h C i task r C' _ ih _ henter hclient
      obtain ⟨hlast, hrest⟩ := List.forall_mem_cons.mp hclient
      exact (ih hrest).enter laws henter hlast
    · intro h C i s r C' hord _ ih hs _ hturn hclient
      exact (ih (List.forall_mem_cons.mp hclient).2).turn laws hord hs hturn
  have hord := CrewContinuation.orderly hr₀ hkeep₀ hr hkeep
  refine ⟨hbanned.gone, fun i job hs => ?_⟩
  rcases getTurn_cases hord.wellFormed (hord.valid i _ hs) with
    ⟨hres, -⟩ | ⟨-, torrent, -, heq⟩ | ⟨hgranted, -⟩
  · exact absurd hres hbanned.gone
  · exact ⟨_, heq⟩
  · exact absurd (hbanned.refused hord.wellFormed.toLinked) hgranted

end Banning

/-- A thread about to write the piece is turned away; its call began before the eviction. -/
theorem crew_evicted_stays_out_overtaken :
    ∃ e h₀ h C, playCrew picking (quads 9) 0 ⟨[], []⟩
        (enterAndGo (0 : Fin 2) (.transfer 0 (.writev [[1, 2, 3, 4]] 0)) 8 ++
          enterAndGo 0 (.transfer 0 (.read [0] 1 0)) 6 ++
          [.enter 0 (.transfer 0 (.writev [[9]] 0))] ++
          enterAndGo 1 (.transfer 1 (.writev [[5]] 0)) 16) = some (e :: h₀, e.after) ∧
      Runs.replay (tryTurn picking) ([.go 0, .go 1, .enter 1 (.outside ⟨[], [(0, 0), (2, 7)]⟩)] ++
        enterAndGo 1 (.transfer 2 (.readv [[0]] 0)) 1) [] e.after = some (h, C) ∧
      C.stage 0 = some (.get 0 (.writev [[9]] 0)) ∧
      (¬Resident C.st 0 ∧ ∀ i job, C.stage i = some (.get 0 job) →
        ∃ st, turn picking C i (.get 0 job) = .ok (some job.refusal, C.done i st)) := by
  have hplay : playCrew picking (quads 9) 0 ⟨[], []⟩
      (enterAndGo (0 : Fin 2) (.transfer 0 (.writev [[1, 2, 3, 4]] 0)) 8 ++
        enterAndGo 0 (.transfer 0 (.read [0] 1 0)) 6 ++
        [.enter 0 (.transfer 0 (.writev [[9]] 0))] ++
        enterAndGo 1 (.transfer 1 (.writev [[5]] 0)) 16) = some (_ :: _, _) := rfl
  refine ⟨_, _, _, _, hplay, rfl, rfl, ?_⟩
  exact crew_evicted_stays_out priorityLaws_picking (playCrew_run (by decide) hplay) (by decide)
    ⟨by decide, by decide⟩ (by decide) (by decide)
    (replay_continuation ([.go 0, .go 1, .enter 1 (.outside ⟨[], [(0, 0), (2, 7)]⟩)] ++
      enterAndGo 1 (.transfer 2 (.readv [[0]] 0)) 1) rfl) (by decide) (by decide)

end Libtorrent
