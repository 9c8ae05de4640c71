/-
# What threads leave in order

Whatever the threads do, and in whatever order, pieces and buffers stay linked by a partial
bijection, except for two things (`crew_sound_iff`).  `set_memory_size` tests its size before
it waits for its lock, so of two threads that ask for more memory the one that asks for less
may come last, and lower the number of buffers.  And a `writev` that has computed the address
of its buffer copies there also when its piece was evicted meanwhile, into a buffer that may
be free by then.
-/
import LibtorrentGo.CrewRuns
import LibtorrentGo.Safety
import LibtorrentGo.Strokes

open Locks MachineInt Splice Subscript

namespace Libtorrent

open MemoryStorage

variable {σ ι : Type}

/-! ## The invariant -/

/-- What every state of a run satisfies, as long as the number of buffers is not lowered. -/
structure Orderly (info : TorrentInfo) (C : Crew ι σ) : Prop where
  wellFormed : WellFormed info C.st
  roomy : Roomy C.st
  valid : ∀ i s, C.stage i = some s → s.Valid info
  found : ∀ i p n b, C.stage i = some (.remove p n b) → ∃ v, v ≠ p ∧ HasBuffer C.st v b

/-- **Giving the pool another size keeps the invariant**, when that is not a lower one. -/
theorem WellFormed.regrow {info : TorrentInfo} {st : MemoryStorage σ} (h : WellFormed info st)
    {s n : ℤ} (h0 : 0 ≤ s) (hn : poolSize s st.pieceLength st.pieceCount = .ok n)
    (hle : st.bufferSize ≤ n) : WellFormed info (st.grow s n) := by
  rcases lt_or_ge st.capacity s with hlt | hge
  · exact (h.grow hlt hn).1
  · -- the capacity may be lower, the number of buffers is what it was
    have hsize := poolSize_eq_ok h0 hn
    rw [h.pieceLength_eq, h.pieceCount_eq] at hsize
    have hmono := Int.ediv_le_ediv info.pieceLength_pos hge
    have hold := h.bufferSize_eq
    have hsame : n = st.bufferSize := by omega
    have hgrow : st.grow s n = { st with capacity := s, bufferLimit := n } := by
      have hnil : newBuffers st.bufferSize n st.pieceLength = [] := by
        apply List.eq_nil_of_length_eq_zero
        rw [length_newBuffers]
        omega
      rw [MemoryStorage.grow, hnil, List.append_nil, hsame]
    rw [hgrow]
    exact
      { initialized := h.initialized
        pieces_length := h.pieces_length
        buffers_length := h.buffers_length
        readers_length := h.readers_length
        reserved_length := h.reserved_length
        piece_index := h.piece_index
        buffer_index := h.buffer_index
        piece_link := h.piece_link
        buffer_link := h.buffer_link
        buffer_unnamed := h.buffer_unnamed
        piece_blank := h.piece_blank
        pieceCount_eq := h.pieceCount_eq
        pieceLength_eq := h.pieceLength_eq
        piece_length := h.piece_length
        buffer_length := h.buffer_length
        capacity_nonneg := h0
        bufferSize_eq := hsame.symm.trans hsize }

section Steps

variable [DecidableEq ι] {env : Env σ} {info : TorrentInfo} {C C' : Crew ι σ} {i : ι}
  {r : Option Reply}

/-- A step that moves thread `i`, and takes no buffer away that another thread is about to
free. -/
theorem Orderly.move (h : Orderly info C) {st : MemoryStorage σ} {f : Option Stage}
    (hw : WellFormed info st) (hr : Roomy st)
    (hkeeps : ∀ j p n b v, j ≠ i → C.stage j = some (.remove p n b) → HasBuffer C.st v b →
      HasBuffer st v b)
    (hvalid : ∀ s, f = some s → s.Valid info)
    (hfound : ∀ p n b, f = some (.remove p n b) → ∃ v, v ≠ p ∧ HasBuffer st v b)
    (mMutex rMutex : Option ι) :
    Orderly info ⟨st, mMutex, rMutex, Function.update C.stage i f⟩ where
  wellFormed := hw
  roomy := hr
  valid := by
    intro j s hj
    simp only [Function.update_apply] at hj
    split at hj
    · exact hvalid s hj
    · exact h.valid j s hj
  found := by
    intro j p n b hj
    simp only [Function.update_apply] at hj
    split at hj
    · exact hfound p n b hj
    · rename_i hji
      obtain ⟨v, hne, hv⟩ := h.found j p n b hj
      exact ⟨v, hne, hkeeps j p n b v hji hj hv⟩

/-- A step that leaves all buffers to their owners, and goes on to another stage than the
freeing of a buffer. -/
theorem Orderly.pass (h : Orderly info C) {st : MemoryStorage σ} {f : Option Stage}
    (hw : WellFormed info st) (hr : Roomy st)
    (hkeeps : ∀ v b, HasBuffer C.st v b → HasBuffer st v b)
    (hvalid : ∀ s, f = some s → s.Valid info) (hf : ∀ p n b, f ≠ some (.remove p n b))
    (mMutex rMutex : Option ι) :
    Orderly info ⟨st, mMutex, rMutex, Function.update C.stage i f⟩ :=
  h.move hw hr (fun _ _ _ b v _ _ => hkeeps v b) hvalid
    (fun p n b heq => absurd heq (hf p n b)) mMutex rMutex

/-- The memory size a stage asks for. -/
def Stage.asks : Stage → Option ℤ
  | .grow m => some m
  | _ => none

/-- The thread gives the pool fewer buffers. -/
def Lowers (C : Crew ι σ) (s : Stage) : Prop :=
  ∃ m n, s.asks = some m ∧ poolSize m C.st.pieceLength C.st.pieceCount = .ok n ∧
    n < C.st.bufferSize

omit [DecidableEq ι] in
/-- Only `set_memory_size` asks for one. -/
theorem eq_grow_of_asks {s : Stage} {m : ℤ} (h : s.asks = some m) : s = .grow m := by
  cases s with
  | grow m' =>
      obtain rfl := Option.some.inj h
      rfl
  | _ => exact absurd h (by simp [Stage.asks])

instance (C : Crew ι σ) (s : Stage) : Decidable (Lowers C s) :=
  match hm : s.asks with
  | none => isFalse (by simp [Lowers, hm])
  | some m =>
      match hn : poolSize m C.st.pieceLength C.st.pieceCount with
      | .ok n => decidable_of_iff (n < C.st.bufferSize) (by simp [Lowers, hm, hn])
      | .error _ => isFalse (by simp [Lowers, hm, hn])

/-- **One step of a thread.** -/
theorem Orderly.stroke (h : Orderly info C) (hl : Locked C) {s : Stage}
    (hs : C.stage i = some s) (hst : Stroke env C i s r C') (hkeep : ¬Lowers C s) :
    Orderly info C' := by
  have hw := h.wellFormed
  have hv := h.valid i s hs
  -- all but a removal leave all buffers to their owners
  have hkeeps : (∀ q n b, s ≠ .remove q n b) → ∀ v b, HasBuffer C.st v b →
      HasBuffer C'.st v b := by
    intro hne v b hb
    refine (hb.stroke hw.toLinked hst).resolve_right ?_
    rintro ⟨q, n, heq, -⟩
    exact hne q n b heq
  cases hst with
  | look hnext =>
      refine h.pass hw h.roomy (fun _ _ hb => hb) ?_ ?_ _ _
      · rintro t ht
        obtain rfl := Option.some.inj ht
        rcases hnext with rfl | rfl
        · exact hv.begins
        · exact hv
      · rcases hnext with rfl | rfl
        · rintro q n b heq
          exact Job.begins_ne_remove (Option.some.inj heq)
        · simp
  | refuse torrent =>
      exact h.pass (hw.withTorrent torrent C.st.mHandle C.st.t C.st.isReading)
        (h.roomy.frame rfl rfl rfl rfl) (hkeeps (by simp)) (by simp) (by simp) _ _
  | find _ =>
      refine h.pass hw h.roomy (fun _ _ hb => hb) ?_ ?_ _ _
      · rintro t ht
        obtain rfl := Option.some.inj ht
        exact hv.begins
      · rintro q n b heq
        exact Job.begins_ne_remove (Option.some.inj heq)
  | place hp hpb hfree =>
      refine h.pass (hw.place hp hpb hfree.buffer hfree.free _)
        (h.roomy.place hfree.buffer hfree.free _) (hkeeps (by simp)) ?_ (by simp) _ _
      rintro t ht
      obtain rfl := Option.some.inj ht
      exact hv.begins
  | onward hon =>
      refine h.pass hw h.roomy (fun _ _ hb => hb) ?_ ?_ _ _
      · rintro t ht
        obtain rfl := Option.some.inj ht
        exact hon.valid hw hv
      · rintro q n b heq
        exact hon.ne_remove (Option.some.inj heq)
  | copy hb hfit =>
      refine h.pass (hw.overwrite hb (length_splice hfit))
        (h.roomy.frame (usedBuffers_overwrite hb _) rfl rfl rfl) (hkeeps (by simp)) ?_
        (by simp) _ _
      rintro t ht
      obtain rfl := Option.some.inj ht
      exact ⟨⟨hv.piece_nonneg, hv.piece_lt⟩,
        Int.add_nonneg hv.position_nonneg hv.count_nonneg, hv.within⟩
  | @incomplete p size offset readBuf =>
      exact h.pass (hw.withTorrent (restoredTorrent env C.st p) C.st.mHandle C.st.t C.st.isReading)
        (h.roomy.frame rfl rfl rfl rfl) (hkeeps (by simp)) (by simp) (by simp) _ _
  | exhausted => exact h.pass hw h.roomy (fun _ _ hb => hb) (by simp) (by simp) _ _
  | finish ho =>
      exact h.pass (hw.touch ho _) (h.roomy.frame (usedBuffers_touch ho _) rfl rfl rfl)
        (hkeeps (by simp)) (by simp) (by simp) _ _
  | @account _ n _ pc bf ho =>
      obtain ⟨hw', hused, -⟩ := hw.revise ho { pc with size := pc.size + n }
        { bf with accessed := some (env.clock C.st.ticks) } ⟨rfl, rfl, rfl⟩ ⟨rfl, rfl, rfl, rfl⟩
        (C.st.ticks + 1)
      refine h.pass hw' (h.roomy.frame hused rfl rfl rfl) (hkeeps (by simp)) ?_ (by simp) _ _
      rintro t ht
      obtain rfl := Option.some.inj ht
      exact trivial
  | full _ hnext =>
      refine h.pass hw h.roomy (fun _ _ hb => hb) ?_ ?_ _ _
      · rintro t ht
        obtain rfl := Option.some.inj ht
        rcases hnext with ⟨-, rfl⟩ | ⟨-, rfl⟩ | ⟨-, _, rfl⟩ <;> exact trivial
      · rcases hnext with ⟨-, rfl⟩ | ⟨-, rfl⟩ | ⟨-, _, rfl⟩ <;> simp
  | room _ _ => exact h.pass hw h.roomy (fun _ _ hb => hb) (by simp) (by simp) _ _
  | lock =>
      refine h.pass hw h.roomy (fun _ _ hb => hb) ?_ (by simp) _ _
      rintro t ht
      obtain rfl := Option.some.inj ht
      exact trivial
  | unlock _ => exact h.pass hw h.roomy (fun _ _ hb => hb) (by simp) (by simp) _ _
  | seek =>
      refine h.pass (hw.of_sameShape (linked_wait hw.toLinked 1) (sameShape_wait _ 1))
        (h.roomy.frame rfl rfl rfl rfl) (hkeeps (by simp)) ?_ (by simp) _ _
      rintro t ht
      obtain rfl := Option.some.inj ht
      exact trivial
  | spot hb hne _ =>
      refine h.move hw h.roomy (fun _ _ _ _ _ _ _ hb => hb) ?_ ?_ _ _
      · rintro t ht
        obtain rfl := Option.some.inj ht
        exact trivial
      · rintro q m c hq
        obtain ⟨rfl, -, rfl⟩ := Stage.remove.inj (Option.some.inj hq)
        exact ⟨_, hne, hb⟩
  | miss hnext =>
      refine h.pass hw h.roomy (fun _ _ hb => hb) ?_ ?_ _ _
      · rintro t ht
        obtain rfl := Option.some.inj ht
        rcases hnext with rfl | rfl <;> exact trivial
      · rcases hnext with rfl | rfl <;> simp
  | remove ho _ =>
      refine h.move (hw.of_sameShape (hw.toLinked.evict ho) (sameShape_evict env ho))
        (h.roomy.evict ho) ?_ ?_ (by simp) _ _
      · -- nobody else holds the lock, so nobody else is about to free a buffer
        intro j q m c v hji hj _
        have hi := (hl.holder i).mpr ⟨_, hs, rfl⟩
        have hj' := (hl.holder j).mpr ⟨_, hj, rfl⟩
        exact absurd (Option.some.inj (hj'.symm.trans hi)) hji
      · rintro t ht
        obtain rfl := Option.some.inj ht
        exact trivial
  | @grow m n hn =>
      have hle : C.st.bufferSize ≤ n := by
        by_contra hlt
        exact hkeep ⟨m, n, rfl, hn, not_le.mp hlt⟩
      exact h.pass (hw.regrow hv hn hle) (h.roomy.grow m n) (hkeeps (by simp)) (by simp)
        (by simp) _ _
  | reserve =>
      refine h.pass (hw.withBits rfl (length_put _ _ _) _)
        (h.roomy.frame rfl rfl rfl rfl) (hkeeps (by simp)) ?_ (by simp) _ _
      rintro t ht
      obtain rfl := Option.some.inj ht
      exact fun q hq => hv q (List.mem_cons_of_mem _ hq)
  | unreserve => exact h.pass hw h.roomy (fun _ _ hb => hb) (by simp) (by simp) _ _

omit [DecidableEq ι] in
/-- A call that returns with its first step, and leaves all buffers to their owners. -/
theorem Orderly.stay (h : Orderly info C) {st : MemoryStorage σ} (hw : WellFormed info st)
    (hr : Roomy st) (hkeeps : ∀ v b, HasBuffer C.st v b → HasBuffer st v b) :
    Orderly info { C with st := st } where
  wellFormed := hw
  roomy := hr
  valid := h.valid
  found := by
    intro j p n b hj
    obtain ⟨v, hne, hv⟩ := h.found j p n b hj
    exact ⟨v, hne, hkeeps v b hv⟩

/-- **The first step of a call.** -/
theorem Orderly.enter (h : Orderly info C) {task : Task σ}
    (hen : Entrance info C i task r C') : Orderly info C' := by
  have hw := h.wellFormed
  cases hen with
  | begin isReading hfits =>
      refine h.pass (hw.withTorrent C.st.torrent C.st.mHandle C.st.t isReading)
        (h.roomy.frame rfl rfl rfl rfl) (fun _ _ hb => hb.frame rfl rfl) ?_ (by simp) _ _
      rintro t ht
      obtain rfl := Option.some.inj ht
      exact hfits
  | grow h0 =>
      refine h.pass hw h.roomy (fun _ _ hb => hb) ?_ (by simp) _ _
      rintro t ht
      obtain rfl := Option.some.inj ht
      exact h0
  | reserve hpieces =>
      refine h.pass (hw.withBits rfl List.length_replicate 0) (h.roomy.frame rfl rfl rfl rfl)
        (fun _ _ hb => hb.frame rfl rfl) ?_ (by simp) _ _
      rintro t ht
      obtain rfl := Option.some.inj ht
      exact hpieces
  | stay hw' hsame =>
      have hcount : usedBuffers _ = usedBuffers C.st :=
        congrArg (List.countP fun bf : MemoryBuffer => bf.isUsed) hsame.buffers
      exact h.stay hw' (h.roomy.frame hcount hsame.used hsame.limit hsame.size)
        fun _ _ hb => hb.frame hsame.pieces hsame.buffers

/-! ## Runs in order -/

/-- A step of a thread that gives the pool fewer buffers. -/
def Shrinks (e : CrewEntry ι σ) : Prop :=
  ∃ i s, e.label.1 = .go i ∧ e.before.stage i = some s ∧ Lowers e.before s

/-- The turn of a thread is a stroke. -/
theorem Orderly.stroke_of_turn (h : Orderly info C) {s : Stage} (hs : C.stage i = some s)
    (hturn : turn env C i s = .ok (r, C')) : Stroke env C i s r C' := by
  refine Libtorrent.stroke_of_turn h.wellFormed (h.valid i s hs) ?_ hturn
  rintro p n b rfl
  exact h.found i p n b hs

/-- The step of a thread that goes on is a stroke. -/
theorem Orderly.stroke_of_go (h : Orderly info C) {s : Stage} (hs : C.stage i = some s)
    (hadv : advanceCrew env C (.go i) = .ok (r, C')) : Stroke env C i s r C' :=
  h.stroke_of_turn hs (turn_of_go hs hadv)

instance (e : CrewEntry ι σ) : Decidable (Shrinks e) :=
  match ht : e.label.1 with
  | .enter _ _ => isFalse (by simp [Shrinks, ht])
  | .go i =>
      match hs : e.before.stage i with
      | none => isFalse (by simp [Shrinks, ht, hs])
      | some s => decidable_of_iff (Lowers e.before s) (by simp [Shrinks, ht, hs])

/-- **A step that is not a shrinking one** keeps the invariant. -/
theorem Orderly.step (h : Orderly info C) (hl : Locked C) {l : Turn ι σ × Option Reply}
    (hstep : CrewStep env C l C') (hkeep : ¬Shrinks ⟨C, l, C'⟩) : Orderly info C' := by
  obtain ⟨t, r⟩ := l
  obtain ⟨hen, hadv⟩ := hstep
  cases t with
  | enter i task => exact h.enter (entrance_of_enter h.wellFormed hen.2.1 hadv)
  | go i =>
      obtain ⟨s, hs, -⟩ := hen
      exact h.stroke hl hs (h.stroke_of_go hs hadv) fun hlow => hkeep ⟨i, s, rfl, hs, hlow⟩

omit [DecidableEq ι] in
/-- The start of a run is in order. -/
theorem CrewInit.orderly (h : CrewInit info C) : Orderly info C where
  wellFormed := h.storage.wellFormed
  roomy := by
    have hl := h.storage.ledger
    have hused := hl.used
    have hlimit := hl.limit
    refine ⟨by omega, ?_⟩
    rw [slack]
    omega
  valid := by
    intro i s hs
    rw [h.stage i] at hs
    exact absurd hs (by simp)
  found := by
    intro i p n b hs
    rw [h.stage i] at hs
    exact absurd hs (by simp)

/-- **Every state of a run is in order**, as long as no step shrinks the pool. -/
theorem CrewRun.orderly {h : List (CrewEntry ι σ)} (hr : CrewRun env info h C)
    (hkeep : ∀ e ∈ h, ¬Shrinks e) : Orderly info C := by
  refine Runs.Run.rule (J := fun h C => (∀ e ∈ h, ¬Shrinks e) → Orderly info C) ?_ ?_ hr hkeep
  · intro C h0 _
    exact h0.orderly
  · intro h C l C' hrun ih hstep hkeep
    obtain ⟨hlast, hrest⟩ := List.forall_mem_cons.mp hkeep
    exact (ih hrest).step (CrewRun.locked hrun) hstep hlast

/-- **Rule for runs in order**: a relation between the steps made and the state they led to that
holds at the start, and is kept when a thread enters a call and when it goes on, holds of
every run in which no step shrinks the pool. -/
theorem CrewRun.rule {J : List (CrewEntry ι σ) → Crew ι σ → Prop}
    (start : ∀ C, CrewInit info C → J [] C)
    (enter : ∀ h C i task r C', CrewRun env info h C → (∀ e ∈ h, ¬Shrinks e) →
      Orderly info C → J h C → (Turn.enter i task).Enabled C →
      enterTurn C i task = .ok (r, C') → J (⟨C, (.enter i task, r), C'⟩ :: h) C')
    (go : ∀ h C i s r C', CrewRun env info h C → (∀ e ∈ h, ¬Shrinks e) → Orderly info C →
      J h C → C.stage i = some s → Free C s → turn env C i s = .ok (r, C') →
      ¬Shrinks ⟨C, (.go i, r), C'⟩ → J (⟨C, (.go i, r), C'⟩ :: h) C')
    {h : List (CrewEntry ι σ)} {C : Crew ι σ} (hr : CrewRun env info h C)
    (hkeep : ∀ e ∈ h, ¬Shrinks e) : J h C := by
  induction hr with
  | start h0 => exact start _ h0
  | @next h C C' l hrun hstep ih =>
      obtain ⟨hlast, hrest⟩ := List.forall_mem_cons.mp hkeep
      have hord := CrewRun.orderly hrun hrest
      obtain ⟨t, r⟩ := l
      obtain ⟨hen, hadv⟩ := hstep
      cases t with
      | enter i task => exact enter h C i task r C' hrun hrest hord (ih hrest) hen hadv
      | go i =>
          obtain ⟨s, hs, hfree⟩ := hen
          exact go h C i s r C' hrun hrest hord (ih hrest) hs hfree (turn_of_go hs hadv) hlast

/-! ## Owners along a run -/

/-- The step evicts the piece. -/
def EvictsFrom (p : ℤ) (e : CrewEntry ι σ) : Prop :=
  Resident e.before.st p ∧ ¬Resident e.after.st p

/-- **A step leaves a piece its buffer**, or evicts it. -/
theorem HasBuffer.step {p b : ℤ} (h : HasBuffer C.st p b) (hord : Orderly info C)
    {l : Turn ι σ × Option Reply} (hstep : CrewStep env C l C') :
    HasBuffer C'.st p b ∨ EvictsFrom p ⟨C, l, C'⟩ := by
  obtain ⟨t, r⟩ := l
  obtain ⟨hen, hadv⟩ := hstep
  cases t with
  | enter i task =>
      have hent := entered_of_enter hadv
      exact Or.inl (h.frame hent.pieces hent.buffers)
  | go i =>
      obtain ⟨s, hs, -⟩ := hen
      have hl := hord.wellFormed.toLinked
      rcases h.stroke hl (hord.stroke_of_go hs hadv) with hnew | ⟨-, -, -, hgone⟩
      · exact Or.inl hnew
      · exact Or.inr ⟨h.resident hl, hgone⟩

/-! ## Copies into free buffers -/

/-- The piece and the buffer that a `memcpy` of a `writev` is called for. -/
def Stage.fills : Stage → Option (ℤ × ℤ)
  | .move p b _ (.writev _ _ _ _) => some (p, b)
  | _ => none

/-- Those of a step, if it is one. -/
def fills (e : CrewEntry ι σ) : Option (ℤ × ℤ) :=
  match e.label.1 with
  | .enter _ _ => none
  | .go i => (e.before.stage i).bind Stage.fills

/-- A `memcpy` of a `writev` leaves another byte than 0 in a buffer that is not in use. -/
def Soils (e : CrewEntry ι σ) : Prop :=
  ∃ p b bf, fills e = some (p, b) ∧ at? e.after.st.buffers b = some bf ∧ bf.isUsed = false ∧
    ∃ x ∈ bf.buffer, x ≠ 0

omit [DecidableEq ι] in
/-- The step of a thread fills what its stage says. -/
theorem fills_go {s : Stage} (hs : C.stage i = some s) (r : Option Reply) (C' : Crew ι σ) :
    fills ⟨C, (.go i, r), C'⟩ = s.fills := by
  simp only [fills, hs, Option.bind_some]

omit [DecidableEq ι] in
/-- A copy that goes on fills nothing. -/
theorem Onward.fills {st : MemoryStorage σ} {s s' : Stage} (h : Onward st s s') :
    s.fills = none := by
  cases h with
  | aim _ => rfl
  | _ => rfl

/-- A step that fills a buffer gives it other bytes. -/
theorem Stroke.eq_overwrite {s : Stage} (hst : Stroke env C i s r C') {p b : ℤ}
    (hfills : s.fills = some (p, b)) :
    ∃ bf bytes, at? C.st.buffers b = some bf ∧ C'.st = C.st.overwrite b bf bytes := by
  cases hst with
  | onward hon => exact absurd hfills (by simp [hon.fills])
  | copy hb _ =>
      obtain ⟨rfl, rfl⟩ := Prod.mk.inj (Option.some.inj hfills)
      exact ⟨_, _, hb, rfl⟩
  | full _ hnext =>
      rcases hnext with ⟨rfl, -⟩ | ⟨rfl, -⟩ | ⟨rfl, -⟩ <;>
        exact absurd hfills (by simp [Stage.fills])
  | room _ hstage => rcases hstage with rfl | rfl <;> exact absurd hfills (by simp [Stage.fills])
  | _ => exact absurd hfills (by simp [Stage.fills])

/-- A step that does not soil leaves what is not in use blank. -/
theorem Stroke.blank {s : Stage} (hst : Stroke env C i s r C') (hs : C.stage i = some s)
    (h : Blank C.st) (hclean : ¬Soils ⟨C, (.go i, r), C'⟩) : Blank C'.st := by
  cases hst with
  | place _ _ hfree => exact h.place hfree.buffer _
  | @copy p b toCopy fileOffset n iov bufs bf hb hfit =>
      refine h.put hb rfl fun hu => ?_
      by_contra hne
      refine hclean ⟨p, b, _, fills_go hs _ _, at?_put_self hb _, hu, ?_⟩
      by_contra hzero
      push Not at hzero
      exact hne (List.eq_replicate_of_mem hzero)
  | finish ho => exact h.touch ho _
  | account ho => exact h.put_used ho.buffer rfl ho.used
  | remove ho _ => exact h.evict ho
  | grow _ => exact h.grow _ _
  | _ => exact h.frame rfl

/-- What is not in use is blank in every state of a run in which no step shrinks the pool or
soils it. -/
theorem CrewRun.blank {h : List (CrewEntry ι σ)} (hr : CrewRun env info h C)
    (hkeep : ∀ e ∈ h, ¬Shrinks e) (hclean : ∀ e ∈ h, ¬Soils e) : Blank C.st := by
  refine CrewRun.rule (J := fun h C => (∀ e ∈ h, ¬Soils e) → Blank C.st) ?_ ?_ ?_ hr hkeep hclean
  · intro C h0 _
    exact h0.storage.blank
  · intro h C i task r C' _ _ _ ih _ henter hclean
    exact (ih (List.forall_mem_cons.mp hclean).2).frame (entered_of_enter henter).buffers
  · intro h C i s r C' _ _ hord ih hs _ hturn _ hclean
    obtain ⟨hlast, hrest⟩ := List.forall_mem_cons.mp hclean
    exact (hord.stroke_of_turn hs hturn).blank hs (ih hrest) hlast

end Steps

end Libtorrent
