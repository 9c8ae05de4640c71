/-
# The working set

As long as nothing is reserved, the memory size stays what it was and no `writev` finds its
piece or a resident one with priority 0, all there is to know about a storage is which pieces
were touched last: one buffer short of the whole pool holds them (`working_set`).  The number of
buffers is all that counts then, and a larger memory never holds less
(`more_memory_keeps_more`).
-/
import LibtorrentGo.Refinement
import LibtorrentGo.Window

open Subscript

namespace Libtorrent

open MemoryStorage

variable {σ : Type}

/-! ## Ordinary calls -/

/-- Calls that neither give the storage more memory than it was constructed with nor reserve
a piece. -/
def Call.Ordinary (memorySize : ℤ) : Call σ → Prop
  | .setMemorySize s => s ≤ memorySize
  | .updateReservedPieces pieces => pieces = []
  | _ => True

instance (memorySize : ℤ) : (c : Call σ) → Decidable (c.Ordinary memorySize)
  | .setMemorySize s => inferInstanceAs (Decidable (s ≤ memorySize))
  | .updateReservedPieces pieces => inferInstanceAs (Decidable (pieces = []))
  | .writev _ _ _ => isTrue trivial
  | .readv _ _ _ => isTrue trivial
  | .read _ _ _ _ => isTrue trivial
  | .updateReaderPieces _ => isTrue trivial
  | .setTorrentHandle _ => isTrue trivial
  | .outside _ => isTrue trivial

/-- The call is a `read`. -/
def Call.isRead : Call σ → Bool
  | .read _ _ _ _ => true
  | _ => false

/-- A `writev` finds the piece it names and the resident ones wanted: none of them has
priority 0. -/
def Call.FindsWanted (env : Env σ) (st : MemoryStorage σ) : Call σ → Prop
  | .writev _ p _ => ∀ pc ∈ st.pieces, pc.bi ≠ -1 ∨ pc.index = p → ¬Low env st pc.index
  | _ => True

instance (env : Env σ) (st : MemoryStorage σ) : (c : Call σ) → Decidable (c.FindsWanted env st)
  | .writev _ p _ => inferInstanceAs
      (Decidable (∀ pc ∈ st.pieces, pc.bi ≠ -1 ∨ pc.index = p → ¬Low env st pc.index))
  | .readv _ _ _ => isTrue trivial
  | .read _ _ _ _ => isTrue trivial
  | .setMemorySize _ => isTrue trivial
  | .updateReaderPieces _ => isTrue trivial
  | .updateReservedPieces _ => isTrue trivial
  | .setTorrentHandle _ => isTrue trivial
  | .outside _ => isTrue trivial

/-- No resident piece is low then. -/
theorem Call.FindsWanted.resident {env : Env σ} {st : MemoryStorage σ} {bufs : List (List Byte)}
    {p offset : ℤ} (hw : (Call.writev bufs p offset).FindsWanted env st) (h : Linked st) {q : ℤ}
    (hq : Resident st q) : ¬Low env st q := by
  obtain ⟨pc, hpc, hb⟩ := hq
  have hlow := hw pc (mem_of_at? hpc) (Or.inl hb)
  rw [h.piece_index hpc] at hlow
  exact hlow

/-- What ordinary calls leave alone. -/
structure Settled (info : TorrentInfo) (memorySize : ℤ) (st : MemoryStorage σ) : Prop where
  capacity : st.capacity = memorySize
  places : st.bufferSize = Cache.placesFor info memorySize
  free : ∀ q, ¬st.Reserved q

/-- An ordinary call grows nothing, and leaves it alone. -/
theorem Settled.next {env : Env σ} {info : TorrentInfo} {memorySize : ℤ}
    {st st' : MemoryStorage σ} {c : Call σ} {r : Reply} (hs : Settled info memorySize st)
    (hc : c.Ordinary memorySize) (he : Effect env st c r st') (hw : WellFormed info st) :
    grows ⟨st, (c, r), st'⟩ = false ∧ Settled info memorySize st' := by
  obtain ⟨hcapacity, hplaces, hfree⟩ := hs
  cases he with
  | refused _ _ _ => exact ⟨rfl, hcapacity, hplaces, hfree⟩
  | noBuffer _ _ _ _ => exact ⟨rfl, hcapacity, hplaces, hfree⟩
  | accepted ha ho h0 h1 ht _ =>
      obtain ⟨-, hs₂⟩ := written_wellFormed hw ha ho h0 h1 _
      have hshape := hs₂.trans ht.sameShape
      refine ⟨rfl, hshape.capacity.trans hcapacity, hshape.bufferSize.trans hplaces, ?_⟩
      intro q
      rw [hshape.reserved_iff]
      exact hfree q
  | missed _ _ => exact ⟨rfl, hcapacity, hplaces, hfree⟩
  | scattered _ _ _ => exact ⟨rfl, hcapacity, hplaces, hfree⟩
  | incomplete _ _ => exact ⟨rfl, hcapacity, hplaces, hfree⟩
  | atEnd _ _ _ => exact ⟨rfl, hcapacity, hplaces, hfree⟩
  | copied _ _ _ _ _ => exact ⟨rfl, hcapacity, hplaces, hfree⟩
  | notGrown hle => exact ⟨decide_eq_false (not_lt.mpr hle), hcapacity, hplaces, hfree⟩
  | grown hlt _ =>
      rw [hcapacity] at hlt
      exact absurd hc (not_le.mpr hlt)
  | readers _ _ => exact ⟨rfl, hcapacity, hplaces, hfree⟩
  | reserves _ hbits =>
      obtain rfl : _ = [] := hc
      refine ⟨rfl, hcapacity, hplaces, ?_⟩
      intro q hq
      exact absurd ((hbits q).mp hq) List.not_mem_nil
  | handle => exact ⟨rfl, hcapacity, hplaces, hfree⟩
  | outside => exact ⟨rfl, hcapacity, hplaces, hfree⟩

/-- A run of ordinary calls grows nothing, and leaves it alone. -/
theorem ConstructedRun.settled {env : Env σ} {info : TorrentInfo} {memorySize : ℤ}
    (hm : 0 ≤ memorySize) {mHandle t : Bool} {torrent : σ} {h : History σ} {st : MemoryStorage σ}
    (hr : ConstructedRun env info memorySize mHandle t torrent h st)
    (hcalls : ∀ e ∈ h, e.label.1.Ordinary memorySize) :
    (∀ e ∈ h, grows e = false) ∧ Settled info memorySize st := by
  induction hr with
  | start h0 =>
      have hC := represents_new hm h0
      refine ⟨fun e he => absurd he List.not_mem_nil, hC.capacity.symm, hC.places.symm, ?_⟩
      intro q hq
      exact absurd ((hC.reserved q).mpr hq) List.not_mem_nil
  | @next g s s' l hrun hstep ih =>
      obtain ⟨hl, hrest⟩ := List.forall_mem_cons.mp hcalls
      obtain ⟨hg, hs⟩ := ih hrest
      have hw := (ConstructedRun.storageRun hm hrun).wellFormed
      obtain ⟨hgrow, hs'⟩ := hs.next hl (hstep.effect hw) hw
      exact ⟨List.forall_mem_cons.mpr ⟨hgrow, hg⟩, hs'⟩

/-! ## The queue, call by call -/

/-- The queue is as long as there are buffers in use. -/
theorem Ranked.length_eq {env : Env σ} {info : TorrentInfo} (hclock : StrictMono env.clock)
    (hsteady : Steady env) {h : History σ} {st : MemoryStorage σ}
    (hr : StorageRun env info h st) :
    (Recency.queue (recency h)).length = usedBuffers st := by
  obtain ⟨C, hC⟩ := hr.represented hclock hsteady
  have hperm : (Recency.queue (recency h)).Perm (C.lines.map Line.piece) := by
    rw [List.perm_ext_iff_of_nodup (Recency.nodup_queue _) hC.sorted.nodup]
    intro q
    rw [(hr.ranked hclock).residents, hC.mem_iff hr.wellFormed.toLinked]
  rw [hperm.length_eq, List.length_map, hC.count]

/-- Where no piece is low and none spared, the first key goes. -/
theorem victim_head {low spared : ℤ → Prop} [DecidablePred low] [DecidablePred spared]
    {q : List ℤ} {v : ℤ} (hlow : ∀ w ∈ q, ¬low w) (hfree : ∀ w ∈ q, ¬spared w)
    (hv : Recency.victim low spared q = some v) : ∃ q', q = v :: q' := by
  have hnone : q.find? (fun a => decide (low a ∧ ¬spared a)) = none := by
    rw [List.find?_eq_none]
    intro w hw hlw
    exact hlow w hw (of_decide_eq_true hlw).1
  unfold Recency.victim at hv
  rw [hnone] at hv
  cases q with
  | nil => exact absurd hv (by simp)
  | cons u q' =>
      have hu := hfree u List.mem_cons_self
      simp only [List.find?_cons, hu, not_false_eq_true, decide_true, Option.some.injEq] at hv
      exact ⟨q', by rw [hv]⟩

/-- **One call on the queue**: what it touches goes to the end of a queue of one piece less
than there are buffers. -/
theorem queue_next {env : Env σ} {info : TorrentInfo} (hclock : StrictMono env.clock)
    (hsteady : Steady env) {g : History σ} {st st' : MemoryStorage σ}
    {c : Call σ} {r : Reply} (hwanted : c.FindsWanted env st) (hrun : StorageRun env info g st)
    (hrun' : StorageRun env info (⟨st, (c, r), st'⟩ :: g) st') (he : Effect env st c r st')
    (hgrow : grows ⟨st, (c, r), st'⟩ = false) (hg : ∀ e ∈ g, grows e = false)
    (hfree : ∀ q, ¬st.Reserved q) {Q : List ℤ} (hQ : Recency.queue (recency g) = Q) :
    Recency.queue (recency (⟨st, (c, r), st'⟩ :: g)) =
      (touched ⟨st, (c, r), st'⟩).elim Q fun p =>
        (Recency.toEnd p Q).rtake (st.bufferSize - 1).toNat := by
  have hw := hrun.wellFormed
  have hmem : ∀ q, q ∈ Q ↔ Resident st q := by
    rw [← hQ]
    exact (hrun.ranked hclock).residents
  have hnodup : Q.Nodup := hQ ▸ Recency.nodup_queue (recency g)
  have hlength : Q.length = usedBuffers st := hQ ▸ Ranked.length_eq hclock hsteady hrun
  have hslack := hrun.ledger.slack_eq hw.toLinked
  rw [forgotten_eq_zero hg] at hslack
  have hroom := hrun.ledger.room
  have hpool := used_add_free hw.toLinked
  -- a touched piece is resident behind the call
  have hstays : ∀ p, touched ⟨st, (c, r), st'⟩ = some p → Resident st' p :=
    fun p hp => (he.stamp_touched hw hp).1
  have hqueue : ∀ es, evicted ⟨st, (c, r), st'⟩ = es →
      Recency.queue (recency (⟨st, (c, r), st'⟩ :: g)) =
        ((touched ⟨st, (c, r), st'⟩).elim Q fun p => Recency.toEnd p Q).filter
          fun q => q ∉ es := by
    intro es hes
    rw [recency, Recency.queue_drops, hes, ← hQ]
    cases touched ⟨st, (c, r), st'⟩ with
    | none => rfl
    | some p => rfl
  -- where nothing is evicted, the queue still fits
  have hfits : evicted ⟨st, (c, r), st'⟩ = [] →
      (∀ p, touched ⟨st, (c, r), st'⟩ = some p →
        ((Recency.toEnd p Q).length : ℤ) ≤ st.bufferSize - 1) →
      Recency.queue (recency (⟨st, (c, r), st'⟩ :: g)) =
        (touched ⟨st, (c, r), st'⟩).elim Q fun p =>
          (Recency.toEnd p Q).rtake (st.bufferSize - 1).toNat := by
    intro hnil hle
    rw [hqueue [] hnil, List.filter_eq_self.mpr (by simp)]
    cases ht : touched ⟨st, (c, r), st'⟩ with
    | none => rfl
    | some p =>
        have hp := hle p ht
        show Recency.toEnd p Q = (Recency.toEnd p Q).rtake _
        rw [Recency.rtake_eq_self (by omega)]
  rcases he.residents hw hroom with
    ⟨-, -, hres⟩ | ⟨p, htakes, hs, -, hres⟩ | ⟨p, v, htakes, hs, hv, hvp, -, hres⟩
  · apply hfits (evicted_eq_nil fun q hq => (hres q).mpr hq)
    intro p hp
    rw [Recency.length_toEnd hnodup ((hmem p).mpr ((hres p).mp (hstays p hp)))]
    omega
  · apply hfits (evicted_eq_nil fun q hq => (hres q).mpr (Or.inr hq))
    intro q _
    have hle := Recency.length_toEnd_le q Q
    omega
  · obtain ⟨⟨bufs, offset, rfl⟩, -, hnot, -⟩ := htakes
    have htouched : touched ⟨st, (.writev bufs p offset, r), st'⟩ = some p :=
      if_pos ((hres p).mpr (Or.inl rfl))
    have hgone : ∀ q, Resident st q ∧ ¬Resident st' q ↔ q = v := by
      intro q
      rw [hres, not_or, not_and, not_not]
      constructor
      · rintro ⟨hq, -, hqv⟩
        exact hqv hq
      · rintro rfl
        exact ⟨hv, hvp, fun _ => rfl⟩
    -- the piece that goes is the first one of the queue
    obtain ⟨bufs', p', offset', hcall, hpref⟩ :=
      he.preferred hclock hsteady hw hroom hrun.stamped ((hgone v).mpr rfl)
    obtain ⟨-, rfl, -⟩ := Call.writev.inj hcall
    have hpQ : p ∉ Q := fun hp => hnot ((hmem p).mp hp)
    have hvictim := (hrun.ranked hclock).victim_eq hpref
    rw [hQ] at hvictim
    obtain ⟨Q', hQ'⟩ := victim_head (fun w hw' => hwanted.resident hw.toLinked ((hmem w).mp hw'))
      (fun w hw hspared => hspared.elim (fun heq => hpQ (heq ▸ hw)) (hfree w)) hvictim
    rw [hqueue [v] (evicted_eq_singleton hw.toLinked hgone), htouched]
    show (Recency.toEnd p Q).filter _ = (Recency.toEnd p Q).rtake _
    rw [hQ', List.length_cons] at hlength
    rw [Recency.toEnd_of_not_mem hpQ, hQ']
    rw [hQ', List.nodup_cons] at hnodup
    have hrest : (v :: (Q' ++ [p])).filter (fun q => decide (q ∉ [v])) = Q' ++ [p] := by
      rw [List.filter_cons_of_neg (by simp), List.filter_eq_self.mpr]
      intro q hq
      apply decide_eq_true
      rw [List.mem_singleton]
      rintro rfl
      rcases List.mem_append.mp hq with hmem' | hmem'
      · exact hnodup.1 hmem'
      · exact hvp (List.mem_singleton.mp hmem')
    rw [List.cons_append, hrest]
    have hlast : ([v] ++ (Q' ++ [p])).rtake (st.bufferSize - 1).toNat = Q' ++ [p] := by
      have hlen : (Q' ++ [p]).length = (st.bufferSize - 1).toNat := by
        rw [List.length_append, List.length_singleton]
        omega
      rw [Recency.rtake_append hlen.ge, Recency.rtake_eq_self hlen.le]
    exact hlast.symm

/-! ## The working set -/

/-- The touches of a run, newest first. -/
def touches (h : History σ) : List (Recency.Event ℤ) := (h.filterMap touched).map .touch

/-- How many pieces a storage keeps between two calls when its pool is full. -/
def kept (info : TorrentInfo) (memorySize : ℤ) : ℕ := (Cache.placesFor info memorySize - 1).toNat

/-- Behind ordinary calls the queue is a window on all that was touched. -/
theorem ConstructedRun.queue_eq {env : Env σ} {info : TorrentInfo} (hclock : StrictMono env.clock)
    (hsteady : Steady env) {memorySize : ℤ} (hm : 0 ≤ memorySize)
    {mHandle t : Bool} {torrent : σ} {h : History σ} {st : MemoryStorage σ}
    (hr : ConstructedRun env info memorySize mHandle t torrent h st)
    (hcalls : ∀ e ∈ h, e.label.1.Ordinary memorySize)
    (hwanted : ∀ e ∈ h, e.label.1.FindsWanted env e.before) :
    Recency.queue (recency h) = (Recency.queue (touches h)).rtake (kept info memorySize) := by
  unfold kept
  induction hr with
  | start _ => exact (List.rtake_nil _).symm
  | @next g s s' l hrun hstep ih =>
      have hrest := (List.forall_mem_cons.mp hcalls).2
      obtain ⟨hlast, hwanted'⟩ := List.forall_mem_cons.mp hwanted
      obtain ⟨hg, hs⟩ := ConstructedRun.settled hm hrun hrest
      have hrun' := ConstructedRun.storageRun hm hrun
      have hgrow := (ConstructedRun.settled hm (hrun.next hstep) hcalls).1
      have hnext := queue_next hclock hsteady hlast hrun' (hrun'.next hstep)
        (hstep.effect hrun'.wellFormed) (hgrow _ List.mem_cons_self) hg hs.free
        (ih hrest hwanted')
      rw [hnext, hs.places]
      unfold touches
      cases ht : touched ⟨s, (l.1, l.2), s'⟩ with
      | none =>
          have hnone : (⟨s, l, s'⟩ :: g).filterMap touched = g.filterMap touched :=
            List.filterMap_cons_none ht
          rw [hnone]
          rfl
      | some p =>
          have hsome : (⟨s, l, s'⟩ :: g).filterMap touched = p :: g.filterMap touched :=
            List.filterMap_cons_some ht
          rw [hsome]
          exact Recency.rtake_toEnd (Recency.nodup_queue _) _ p

end Libtorrent
