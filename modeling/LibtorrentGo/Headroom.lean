/-
# Who still owes a `trim`

`writev` makes the test whether to trim when it is done, so a pool that is full has somebody
who is to make it: in every state of every run, the used count exceeds the limit by less
than the number of threads that have acquired a buffer for a `writev` and have not returned
(`trim_is_owed`).  No interleaving of the tests, which are made without a lock, loses a `trim`.
-/
import LibtorrentGo.Orderly

open Locks Subscript

namespace Libtorrent

open MemoryStorage

variable {σ ι : Type} [DecidableEq ι]

/-- A stage of a `writev` that has its buffer. -/
def Stage.writes : Stage → Bool
  | .chunk _ (.writev _ _ _) => true
  | .aim _ _ (.writev _ _ _ _) => true
  | .move _ _ _ (.writev _ _ _ _) => true
  | .account _ _ => true
  | .test _ _ => true
  | .retest _ _ => true
  | .lock _ _ => true
  | .round _ _ => true
  | .seek _ _ _ => true
  | .search _ _ _ _ => true
  | .remove _ _ _ => true
  | _ => false

/-- The number of threads that have a buffer for a `writev` and have not returned. -/
def writers [Fintype ι] (C : Crew ι σ) : ℕ := census Stage.writes C.stage

/-- `set_memory_size` passes its lock. -/
def Grows (e : CrewEntry ι σ) : Prop :=
  ∃ i m, e.label.1 = .go i ∧ e.before.stage i = some (.grow m)

/-- A thread at a stage, or at none, as one who owes a `trim`. -/
def owes (f : Option Stage) : ℤ := if keeps Stage.writes f then 1 else 0

/-- The limit is the number of buffers at most, and what is missing in slack is owed. -/
structure Owed [Fintype ι] (C : Crew ι σ) : Prop where
  limit : C.st.bufferLimit ≤ C.st.bufferSize
  debt : 1 ≤ slack C.st + writers C

section Steps

variable {env : Env σ} {info : TorrentInfo} {C C' : Crew ι σ} {i : ι} {r : Option Reply}

/-- A step that takes no more slack than the thread comes to owe, or that leaves some. -/
theorem Owed.move [Fintype ι] (h : Owed C) {f : Option Stage}
    (hstage : C'.stage = Function.update C.stage i f)
    (hlimit : C'.st.bufferLimit ≤ C'.st.bufferSize)
    (hpays : slack C.st + owes (C.stage i) ≤ slack C'.st + owes f ∨ 1 ≤ slack C'.st) :
    Owed C' where
  limit := hlimit
  debt := by
    have hcount : (writers C' : ℤ) + owes (C.stage i) = writers C + owes f := by
      have hmove := census_move Stage.writes C.stage i f
      rw [writers, writers, owes, owes, hstage]
      exact_mod_cast hmove
    have hdebt := h.debt
    rcases hpays with hpays | hroom
    · omega
    · omega

omit [DecidableEq ι] in
/-- A pool that is not full has slack. -/
theorem slack_pos {st : MemoryStorage σ} (hopen : st.isFull = false) : 1 ≤ slack st := by
  rw [isFull_eq] at hopen
  simpa [Int.lt_iff_add_one_le] using hopen

omit [DecidableEq ι] in
/-- A copy that goes on owes what it owed. -/
theorem Onward.writes {st : MemoryStorage σ} {s s' : Stage} (h : Onward st s s') :
    s'.writes = s.writes := by
  cases h with
  | aim _ =>
      rename_i k _
      cases k <;> rfl
  | _ => rfl

omit [DecidableEq ι] in
/-- Nobody owes less than nothing. -/
theorem owes_nonneg (f : Option Stage) : 0 ≤ owes f := by
  unfold owes
  split <;> omega

omit [DecidableEq ι] in
theorem Onward.owes {st : MemoryStorage σ} {s s' : Stage} (h : Onward st s s') :
    owes (some s') = owes (some s) := by
  show (if s'.writes = true then (1 : ℤ) else 0) = if s.writes = true then 1 else 0
  rw [h.writes]

/-- **One step of a thread** leaves what is owed to somebody. -/
theorem Owed.stroke [Fintype ι] (h : Owed C) {s : Stage} (hs : C.stage i = some s)
    (hst : Stroke env C i s r C') (hkeep : ¬Lowers C s) : Owed C' := by
  have hlimit := h.limit
  cases hst with
  | look hnext =>
      refine h.move rfl hlimit (Or.inl ?_)
      rw [hs]
      exact Int.add_le_add_left (owes_nonneg _) _
  | refuse torrent =>
      refine h.move rfl hlimit (Or.inl ?_)
      rw [hs]
      exact le_rfl
  | find _ =>
      refine h.move rfl hlimit (Or.inl ?_)
      rw [hs]
      exact Int.add_le_add_left (owes_nonneg _) _
  | @place p offset b bufs pc bf hp hpb hfree =>
      refine h.move rfl ?_ (Or.inl ?_)
      · show (if decide (C.st.Reserved p) then C.st.bufferLimit - 1 else C.st.bufferLimit) ≤
          C.st.bufferSize
        split <;> omega
      · have hslack := slack_place env C.st p b pc bf (decide (C.st.Reserved p))
        rw [hs]
        show slack C.st + 0 ≤ slack (C.st.place env p pc b bf (decide (C.st.Reserved p))) + 1
        omega
  | onward hon =>
      refine h.move rfl hlimit (Or.inl ?_)
      rw [hs, hon.owes]
      exact le_rfl
  | copy hb hfit =>
      refine h.move rfl hlimit (Or.inl ?_)
      rw [hs]
      exact le_rfl
  | incomplete =>
      refine h.move rfl hlimit (Or.inl ?_)
      rw [hs]
      exact le_rfl
  | exhausted =>
      refine h.move rfl hlimit (Or.inl ?_)
      rw [hs]
      exact le_rfl
  | finish ho =>
      refine h.move rfl hlimit (Or.inl ?_)
      rw [hs]
      exact le_rfl
  | account ho =>
      refine h.move rfl hlimit (Or.inl ?_)
      rw [hs]
      exact le_rfl
  | full _ hnext =>
      refine h.move rfl hlimit (Or.inl ?_)
      rw [hs]
      rcases hnext with ⟨rfl, rfl⟩ | ⟨rfl, rfl⟩ | ⟨rfl, _, rfl⟩ <;> exact le_rfl
  | room hopen _ =>
      refine h.move rfl hlimit (Or.inr ?_)
      exact slack_pos hopen
  | lock =>
      refine h.move rfl hlimit (Or.inl ?_)
      rw [hs]
      exact le_rfl
  | unlock hopen =>
      refine h.move rfl hlimit (Or.inr ?_)
      exact slack_pos hopen
  | seek =>
      refine h.move rfl hlimit (Or.inl ?_)
      rw [hs]
      exact le_rfl
  | spot _ _ _ =>
      refine h.move rfl hlimit (Or.inl ?_)
      rw [hs]
      exact le_rfl
  | miss hnext =>
      refine h.move rfl hlimit (Or.inl ?_)
      rw [hs]
      rcases hnext with rfl | rfl <;> exact le_rfl
  | @remove p n v b vc bf ho _ =>
      have hslack := slack_evict env C.st v b vc bf
      refine h.move rfl hlimit (Or.inl ?_)
      rw [hs]
      show slack C.st + 1 ≤ slack (C.st.evict env v vc b bf) + 1
      omega
  | @grow m n hn =>
      have hle : C.st.bufferSize ≤ n := by
        by_contra hlt
        exact hkeep ⟨m, n, rfl, hn, not_le.mp hlt⟩
      refine h.move rfl le_rfl (Or.inl ?_)
      rw [hs]
      show C.st.bufferLimit - C.st.bufferUsed + 0 ≤ n - C.st.bufferUsed + 0
      omega
  | reserve =>
      refine h.move rfl hlimit (Or.inl ?_)
      rw [hs]
      exact le_rfl
  | unreserve =>
      refine h.move rfl hlimit (Or.inl ?_)
      rw [hs]
      exact le_rfl

/-- **The first step of a call** owes nothing. -/
theorem Owed.enter [Fintype ι] (h : Owed C) (hs : C.stage i = none) {task : Task σ}
    (hen : Entrance info C i task r C') : Owed C' := by
  have hlimit := h.limit
  cases hen with
  | begin isReading _ =>
      refine h.move rfl hlimit (Or.inl ?_)
      rw [hs]
      exact le_rfl
  | grow _ =>
      refine h.move rfl hlimit (Or.inl ?_)
      rw [hs]
      exact le_rfl
  | reserve _ =>
      refine h.move rfl hlimit (Or.inl ?_)
      rw [hs]
      exact le_rfl
  | stay _ hsame =>
      have hdebt := h.debt
      refine ⟨?_, ?_⟩
      · rw [hsame.limit, hsame.size]
        exact hlimit
      · rw [slack, hsame.limit, hsame.used]
        exact hdebt

/-- A step that does not give the pool another size keeps used buffers and slack in
balance. -/
theorem Stroke.balanced {s : Stage} (hst : Stroke env C i s r C') (hw : WellFormed info C.st)
    (hgrow : ∀ m, s ≠ .grow m) (h : Balanced 0 C.st) : Balanced 0 C'.st := by
  have same : ∀ {st : MemoryStorage σ}, usedBuffers st = usedBuffers C.st →
      slack st = slack C.st → st.bufferSize = C.st.bufferSize → Balanced 0 st := by
    intro st hused hslack hsize
    rw [Balanced, hused, hslack, hsize]
    exact h
  rw [Balanced] at h
  cases hst with
  | @place p offset b bufs pc bf hp hpb hfree =>
      have hcount : usedBuffers (C.st.place env p pc b bf (decide (C.st.Reserved p))) =
          usedBuffers C.st + 1 := usedBuffers_place hfree.buffer hfree.free _
      have hslack := slack_place env C.st p b pc bf (decide (C.st.Reserved p))
      show (usedBuffers (C.st.place env p pc b bf (decide (C.st.Reserved p))) : ℤ) +
        slack (C.st.place env p pc b bf (decide (C.st.Reserved p))) = C.st.bufferSize + 0
      omega
  | copy hb _ => exact same (usedBuffers_overwrite hb _) rfl rfl
  | finish ho => exact same (usedBuffers_touch ho _) rfl rfl
  | @account _ n _ pc bf ho =>
      have hused := (hw.revise ho { pc with size := pc.size + n }
        { bf with accessed := some (env.clock C.st.ticks) } ⟨rfl, rfl, rfl⟩
        ⟨rfl, rfl, rfl, rfl⟩ (C.st.ticks + 1)).2.1
      exact same hused rfl rfl
  | @remove p n v b vc bf ho _ =>
      have hcount : usedBuffers (C.st.evict env v vc b bf) + 1 = usedBuffers C.st :=
        usedBuffers_evict ho
      have hslack := slack_evict env C.st v b vc bf
      show (usedBuffers (C.st.evict env v vc b bf) : ℤ) + slack (C.st.evict env v vc b bf) =
        C.st.bufferSize + 0
      omega
  | grow _ => exact absurd rfl (hgrow _)
  | _ => exact same rfl rfl rfl

end Steps

/-! ## Runs -/

variable {env : Env σ} {info : TorrentInfo} {C : Crew ι σ}

omit [DecidableEq ι] in
/-- A constructed storage owes nothing and is in balance. -/
theorem CrewInit.owed [Fintype ι] (h : CrewInit info C) : Owed C ∧ Balanced 0 C.st := by
  have hl := h.storage.ledger
  have hlimit := hl.limit
  have hroom := hl.room
  refine ⟨⟨?_, ?_⟩, hl.balanced⟩
  · simp only [reservedPlacements, forgotten] at hlimit
    omega
  · omega

omit [DecidableEq ι] in
/-- A step that shrinks the pool gives it another size. -/
theorem Shrinks.grows {e : CrewEntry ι σ} (h : Shrinks e) : Grows e := by
  obtain ⟨i, s, ht, hs, m, n, hm, -⟩ := h
  obtain rfl := eq_grow_of_asks hm
  exact ⟨i, m, ht, hs⟩

/-- **Every state of a run** owes what it lacks to its writers. -/
theorem CrewRun.owed [Fintype ι] {h : List (CrewEntry ι σ)} (hr : CrewRun env info h C)
    (hkeep : ∀ e ∈ h, ¬Shrinks e) : Owed C ∧ ((∀ e ∈ h, ¬Grows e) → Balanced 0 C.st) := by
  refine CrewRun.rule (J := fun h C => Owed C ∧ ((∀ e ∈ h, ¬Grows e) → Balanced 0 C.st))
    ?_ ?_ ?_ hr hkeep
  · intro C h0
    exact ⟨h0.owed.1, fun _ => h0.owed.2⟩
  · rintro h C i task r C' - - hord ⟨howed, hbalanced⟩ hen henter
    have hentrance := entrance_of_enter hord.wellFormed hen.2.1 henter
    refine ⟨howed.enter hen.1 hentrance, fun hnone => ?_⟩
    have hbal := hbalanced (List.forall_mem_cons.mp hnone).2
    cases hentrance with
    | stay _ hsame =>
        have hcount : usedBuffers _ = usedBuffers C.st :=
          congrArg (List.countP fun bf : MemoryBuffer => bf.isUsed) hsame.buffers
        rw [Balanced, hcount, slack, hsame.limit, hsame.used, hsame.size]
        exact hbal
    | _ => exact hbal
  · rintro h C i s r C' - - hord ⟨howed, hbalanced⟩ hs - hturn hlast
    have hstroke := hord.stroke_of_turn hs hturn
    refine ⟨howed.stroke hs hstroke fun hlow => hlast ⟨i, s, rfl, hs, hlow⟩, fun hnone => ?_⟩
    obtain ⟨hlast', hrest'⟩ := List.forall_mem_cons.mp hnone
    refine hstroke.balanced hord.wellFormed ?_ (hbalanced hrest')
    rintro m rfl
    exact hlast' ⟨i, m, rfl, hs⟩

end Libtorrent
