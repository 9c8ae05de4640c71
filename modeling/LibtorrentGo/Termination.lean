/-
# When `writev` returns

The `while` of `trim` has no exit of its own when neither search finds a victim: the
test is made again, on counters nobody changed.  Under a clock whose readings strictly
increase every used buffer was accessed before now (`Stamped`), so that a victim is
found iff some other resident piece is not reserved.  From this follows when a `writev`
returns (`writev_returns_iff`), and that it spins for ever otherwise (`writev_spins`).
-/
import LibtorrentGo.Eviction

open Splice Subscript

namespace Libtorrent

open MemoryStorage

variable {σ : Type}

/-! ## Access times -/

/-- The buffers in use were accessed at times the clock has shown. -/
def Stamped (env : Env σ) (st : MemoryStorage σ) : Prop :=
  ∀ b bf, at? st.buffers b = some bf → bf.isUsed = true →
    ∃ n < st.ticks, bf.accessed = some (env.clock n)

/-- Rewriting a buffer keeps the stamps, if it has one itself. -/
theorem Stamped.put {env : Env σ} {st : MemoryStorage σ} (h : Stamped env st) {b : ℤ}
    {bf : MemoryBuffer} (hb : at? st.buffers b = some bf) (bf' : MemoryBuffer) {ticks : ℕ}
    (ht : st.ticks ≤ ticks)
    (hnew : bf'.isUsed = true → ∃ n < ticks, bf'.accessed = some (env.clock n)) :
    ∀ c cf, at? (put st.buffers b bf') c = some cf → cf.isUsed = true →
      ∃ n < ticks, cf.accessed = some (env.clock n) := by
  intro c cf hc hu
  rw [at?_put hb] at hc
  split at hc
  · obtain rfl := Option.some.inj hc
    exact hnew hu
  · obtain ⟨n, hn, hacc⟩ := h c cf hc hu
    exact ⟨n, by omega, hacc⟩

/-- Waiting keeps the stamps. -/
theorem Stamped.wait {env : Env σ} {st : MemoryStorage σ} (h : Stamped env st) (n : ℕ) :
    Stamped env (st.wait n) := by
  intro b bf hb hu
  obtain ⟨m, hm, hacc⟩ := h b bf hb hu
  exact ⟨m, Nat.lt_add_right n hm, hacc⟩

/-- Placing a piece stamps its buffer. -/
theorem Stamped.place {env : Env σ} {st : MemoryStorage σ} (h : Stamped env st) {p b : ℤ}
    {pc : MemoryPiece} {bf : MemoryBuffer} (hb : at? st.buffers b = some bf) (r : Bool) :
    Stamped env (st.place env p pc b bf r) :=
  h.put hb _ (Nat.le_succ _) fun _ => ⟨st.ticks, Nat.lt_succ_self _, rfl⟩

/-- So does storing bytes. -/
theorem Stamped.store {env : Env σ} {st : MemoryStorage σ} (h : Stamped env st) {p b : ℤ}
    {pc : MemoryPiece} {bf : MemoryBuffer} (ho : Owns st p pc b bf) (off : ℕ)
    (bytes : List Byte) : Stamped env (st.store env p pc b bf off bytes) :=
  h.put ho.buffer _ (Nat.le_succ _) fun _ => ⟨st.ticks, Nat.lt_succ_self _, rfl⟩

/-- An evicted buffer needs no stamp. -/
theorem Stamped.evict {env : Env σ} {st : MemoryStorage σ} (h : Stamped env st) {p b : ℤ}
    {pc : MemoryPiece} {bf : MemoryBuffer} (ho : Owns st p pc b bf) :
    Stamped env (st.evict env p pc b bf) :=
  h.put ho.buffer _ (Nat.le_succ _) fun hu => absurd hu (by simp [MemoryBuffer.reset])

/-- A round of `trim` keeps the stamps. -/
theorem Stamped.trimmed {env : Env σ} {pi : ℤ} {st st' : MemoryStorage σ} (h : Stamped env st)
    (ht : Trimmed env pi st st') : Stamped env st' := by
  rcases ht.cases with rfl | ⟨n, v, pc, b, bf, ho, -, -, rfl⟩
  · exact h.wait 2
  · exact (h.wait n).evict ho

/-- The state in which a `writev` reaches its last `if` is stamped. -/
theorem Stamped.written {env : Env σ} {st st₁ : MemoryStorage σ} (h : Stamped env st) {p b : ℤ}
    {pc : MemoryPiece} {bf : MemoryBuffer} (ha : Acquired env st p st₁)
    (ho : Owns st₁ p pc b bf) (offset : ℤ) (bufs : List (List Byte)) :
    Stamped env (st₁.written env p pc b bf offset bufs) := by
  cases ha with
  | kept _ => exact h.store ho _ _
  | placed _ _ _ hfree => exact (h.place hfree.buffer _).store ho _ _

/-- **Every state of a run is stamped.** -/
theorem StorageRun.stamped {env : Env σ} {info : TorrentInfo} {h : History σ}
    {st : MemoryStorage σ} (hr : StorageRun env info h st) : Stamped env st := by
  intro b bf hb hu
  exact (hr.reached.regular.buffer_used hb hu).2

/-- From now on the clock shows times later than the accesses of all used buffers. -/
def Behind (env : Env σ) (st : MemoryStorage σ) : Prop :=
  ∀ n, st.ticks ≤ n → ∀ b bf, at? st.buffers b = some bf → bf.isUsed = true →
    bf.accessedBefore (env.clock n) = true

/-- Stamped buffers are behind a clock whose readings strictly increase. -/
theorem Stamped.behind {env : Env σ} {st : MemoryStorage σ} (hclock : StrictMono env.clock)
    (h : Stamped env st) : Behind env st := by
  intro n hn b bf hb hu
  obtain ⟨m, hm, hacc⟩ := h b bf hb hu
  unfold MemoryBuffer.accessedBefore
  rw [hacc]
  exact decide_eq_true (hclock (lt_of_lt_of_le hm hn))

/-! ## The `while` of `trim` -/

/-- A search overlooks no candidate that was accessed in the past. -/
theorem not_noneOlder {env : Env σ} {st : MemoryStorage σ} (hclock : Behind env st) {pi : ℤ}
    {checkRead : Bool} {k n : ℕ} (hn : st.ticks ≤ n) {b : ℤ} {bf : MemoryBuffer}
    (hb : at? st.buffers b = some bf) (hc : (st.wait k).Candidate env pi checkRead bf) :
    ¬(st.wait k).NoneOlder env pi checkRead (env.clock n) := by
  intro hnone
  have hbefore := hclock n hn b bf hb hc.1
  unfold MemoryBuffer.accessedBefore at hbefore
  cases hacc : bf.accessed with
  | none => simp [hacc] at hbefore
  | some t =>
      simp only [hacc, decide_eq_true_eq] at hbefore
      exact absurd (hnone b bf t hb hc hacc) (not_le.mpr hbefore)

/-- Piece `q` can be evicted for piece `p`. -/
def Evictable (st : MemoryStorage σ) (p q : ℤ) : Prop :=
  q ≠ p ∧ Resident st q ∧ ¬st.Reserved q

instance (st : MemoryStorage σ) (p q : ℤ) : Decidable (Evictable st p q) :=
  inferInstanceAs (Decidable (_ ∧ _ ∧ _))

/-- Only pieces of the torrent can be evicted. -/
theorem exists_evictable_iff {st : MemoryStorage σ} {p : ℤ} :
    (∃ n < st.pieces.length, Evictable st p (n : ℕ)) ↔ ∃ q, Evictable st p q := by
  constructor
  · rintro ⟨n, -, hn⟩
    exact ⟨n, hn⟩
  · rintro ⟨q, hne, ⟨pc, hpc, hb⟩, hres⟩
    have hbounds := at?_eq_some_bounds hpc
    have hq : ((q.toNat : ℕ) : ℤ) = q := Int.toNat_of_nonneg hbounds.1
    refine ⟨q.toNat, by omega, ?_⟩
    rw [hq]
    exact ⟨hne, ⟨pc, hpc, hb⟩, hres⟩

/-- A search considers the buffer of a piece iff the piece can be evicted, and is not
readered where the search asks for that. -/
theorem candidate_iff {st : MemoryStorage σ} (h : Linked st) {q b : ℤ} {pc : MemoryPiece}
    {bf : MemoryBuffer} (ho : Owns st q pc b bf) (env : Env σ) (n : ℕ) (pi : ℤ)
    (checkRead : Bool) :
    (st.wait n).Candidate env pi checkRead bf ↔
      Evictable st pi q ∧ (checkRead = true → isReadered env (st.wait n) q = false) := by
  have hused := ho.used
  have hres : Resident st q := ho.resident h
  unfold Candidate Evictable
  rw [ho.pi]
  show bf.isUsed = true ∧ ¬st.Reserved q ∧ q ≠ pi ∧ _ ↔ _
  tauto

/-- With a victim and an increasing clock, a round of `trim` finds one. -/
theorem MemoryStorage.Trimmed.gains {env : Env σ} (hclock : StrictMono env.clock)
    {info : TorrentInfo} {p q : ℤ} {s t : MemoryStorage σ} (hw : WellFormed info s)
    (hs : Stamped env s) (hq : Evictable s p q) (ht : Trimmed env p s t) :
    slack t = slack s + 1 := by
  cases ht with
  | unread ho _ => exact slack_evict env (s.wait 1) _ _ _ _
  | lru ho _ _ => exact slack_evict env (s.wait 2) _ _ _ _
  | spin _ hnone =>
      -- the second search would have found the buffer of `q`
      obtain ⟨pc, bf, ho⟩ := hq.2.1.owns hw.toLinked
      have hcand := (candidate_iff hw.toLinked ho env 2 p false).mpr ⟨hq, by simp⟩
      exact absurd hnone (not_noneOlder (hs.behind hclock) (Nat.le_succ _) ho.buffer hcand)

/-- **The `while` exits** when it is entered with at most one piece too many and a victim. -/
theorem trim_exits {env : Env σ} (hclock : StrictMono env.clock) {info : TorrentInfo} {p : ℤ}
    {st : MemoryStorage σ} (hw : WellFormed info st) (hs : Stamped env st) (hslack : 0 ≤ slack st)
    (hvictim : slack st = 0 → ∃ q, Evictable st p q) :
    ∃ fuel st', WhileLoop.loop isFull (trimBody env p) .outOfFuel fuel st = .ok st' := by
  refine WhileLoop.loop_terminates (I := fun s => WellFormed info s ∧ Stamped env s ∧
    0 ≤ slack s ∧ (slack s = 0 → ∃ q, Evictable s p q)) (fun s => (1 - slack s).toNat) ?_
    ⟨hw, hs, hslack, hvictim⟩
  rintro s ⟨hw, hs, hslack, hvictim⟩ hfull
  rw [isFull_eq, decide_eq_true_eq] at hfull
  obtain ⟨q, hq⟩ := hvictim (by omega)
  obtain ⟨t, hbody, ht⟩ := trimBody_cases env hw.toLinked p
  have hgain := ht.gains hclock hw hs hq
  refine ⟨t, hbody, ⟨hw.trimmed ht, hs.trimmed ht, by omega, ?_⟩, ?_⟩
  · intro hzero
    omega
  · omega

/-- **The `while` never exits** when it is entered without slack and without a victim. -/
theorem trim_spins {env : Env σ} {p : ℤ} {st : MemoryStorage σ} (h : Linked st)
    (hslack : slack st ≤ 0) (hnone : ∀ q, ¬Evictable st p q) (fuel : ℕ) :
    WhileLoop.loop isFull (trimBody env p) .outOfFuel fuel st = .error .outOfFuel := by
  refine WhileLoop.loop_diverges (J := fun s => Linked s ∧ slack s ≤ 0 ∧
    ∀ q, ¬Evictable s p q) ?_ ?_ ⟨h, hslack, hnone⟩ fuel
  · rintro s ⟨-, hs, -⟩
    rw [isFull_eq, decide_eq_true_eq]
    exact hs
  · rintro s ⟨hl, hs, hn⟩
    obtain ⟨t, hbody, ht⟩ := trimBody_cases env hl p
    refine ⟨t, hbody, ?_⟩
    rcases ht.cases with rfl | ⟨n, v, pc, b, bf, ho, hres, hne, rfl⟩
    · exact ⟨linked_wait hl 2, hs, hn⟩
    · have hv : Resident s v :=
        ho.resident (linked_wait hl n)
      exact absurd ⟨hne, hv, hres⟩ (hn v)

/-! ## Calls of `writev` -/

/-- The call of `writev` leaves `trim` at once, or finds a victim there. -/
def Returns (env : Env σ) (st : MemoryStorage σ) (p : ℤ) : Prop :=
  Resident st p ∨ st.Refused env p ∨ st.PoolFull ∨ 2 ≤ st.bufferLimit - st.bufferUsed ∨
    ∃ q, Evictable st p q

instance (env : Env σ) (st : MemoryStorage σ) (p : ℤ) : Decidable (Returns env st p) :=
  have : Decidable (∃ q, Evictable st p q) := decidable_of_iff _ exists_evictable_iff
  inferInstanceAs (Decidable (_ ∨ _ ∨ _ ∨ _ ∨ _))

/-- What can be evicted for a piece is what could be before it was written. -/
theorem evictable_written_iff {env : Env σ} {info : TorrentInfo} {st st₁ : MemoryStorage σ}
    {p offset b : ℤ} {pc : MemoryPiece} {bf : MemoryBuffer} (hw : WellFormed info st)
    (ha : Acquired env st p st₁) (ho : Owns st₁ p pc b bf) (h0 : 0 ≤ offset)
    (h1 : offset ≤ pc.length) (bufs : List (List Byte)) (q : ℤ) :
    Evictable (st₁.written env p pc b bf offset bufs) p q ↔ Evictable st p q := by
  obtain ⟨-, hshape⟩ := written_wellFormed hw ha ho h0 h1 bufs
  rw [Evictable, Evictable, residents_written hw ha ho, hshape.reserved_iff]
  constructor
  · rintro ⟨hne, hres, hfree⟩
    exact ⟨hne, hres.resolve_left hne, hfree⟩
  · rintro ⟨hne, hres, hfree⟩
    exact ⟨hne, Or.inr hres, hfree⟩

/-- **A `writev` that does not return spins**: no number of rounds is enough. -/
theorem writev_spins {env : Env σ} {info : TorrentInfo} {h : History σ} {st : MemoryStorage σ}
    (hr : StorageRun env info h st) {p offset : ℤ} (hv : ValidRange st p offset)
    (hn : ¬Returns env st p) (bufs : List (List Byte)) (fuel : ℕ) :
    writev env fuel st bufs p offset = .error .outOfFuel := by
  have hw := hr.wellFormed
  obtain ⟨pc, hp, h0, h1⟩ := hv.exists_piece
  simp only [Returns, not_or] at hn
  obtain ⟨hres, href, hfull, hslack, hnone⟩ := hn
  rcases writev_cases env hw hp h0 h1 bufs with
    ⟨-, href', -⟩ | ⟨-, -, hfull', -⟩ | ⟨st₁, pc₁, b, bf, ha, ho, hlen, -, heq⟩
  · exact absurd href' href
  · exact absurd hfull' hfull
  · obtain ⟨hw₂, -⟩ := written_wellFormed hw ha ho h0 (hlen ▸ h1) bufs
    have hzero : slack (st₁.written env p pc₁ b bf offset bufs) ≤ 0 := by
      rcases written_cases ha ho offset bufs with ⟨hkept, -⟩ | ⟨-, -, -, -, hs, -⟩
      · exact absurd hkept hres
      · rw [hs, slack]
        omega
    have hnone₂ : ∀ q, ¬Evictable (st₁.written env p pc₁ b bf offset bufs) p q := by
      intro q hq
      exact hnone ⟨q, (evictable_written_iff hw ha ho h0 (hlen ▸ h1) bufs q).mp hq⟩
    rw [heq, trim_spins hw₂.toLinked hzero hnone₂ fuel, error_bind]

/-- **When `writev` returns**: under a clock whose readings strictly increase, a `writev` in
a reachable state returns iff its piece is resident, or refused, or no buffer is free,
or the limit is two buffers away, or another resident piece is not reserved. -/
theorem writev_returns_iff {env : Env σ} {info : TorrentInfo} (hclock : StrictMono env.clock)
    {h : History σ} {st : MemoryStorage σ} (hr : StorageRun env info h st) {p offset : ℤ}
    (hv : ValidRange st p offset) (bufs : List (List Byte)) :
    (∃ fuel r, writev env fuel st bufs p offset = .ok r) ↔ Returns env st p := by
  constructor
  · rintro ⟨fuel, r, heq⟩
    by_contra hn
    rw [writev_spins hr hv hn] at heq
    exact absurd heq (by simp)
  · intro hret
    have hw := hr.wellFormed
    have hroom := hr.ledger.room
    obtain ⟨pc, hp, h0, h1⟩ := hv.exists_piece
    rcases writev_cases env hw hp h0 h1 bufs with
      ⟨-, -, heq⟩ | ⟨-, -, -, heq⟩ | ⟨st₁, pc₁, b, bf, ha, ho, hlen, -, heq⟩
    · exact ⟨0, _, heq 0⟩
    · exact ⟨0, _, heq 0⟩
    · obtain ⟨hw₂, -⟩ := written_wellFormed hw ha ho h0 (hlen ▸ h1) bufs
      have hslack : 0 ≤ slack (st₁.written env p pc₁ b bf offset bufs) ∧
          (slack (st₁.written env p pc₁ b bf offset bufs) = 0 → ∃ q, Evictable st p q) := by
        rcases written_cases ha ho offset bufs with ⟨-, hs, -⟩ | ⟨-, hres, href, hfull, hs, -⟩
        · exact ⟨by omega, fun hzero => by omega⟩
        · refine ⟨by omega, fun hzero => ?_⟩
          rcases hret with hres' | href' | hfull' | htwo | hvictim
          · exact absurd hres' hres
          · exact absurd href' href
          · exact absurd hfull' hfull
          · have htwo' : 2 ≤ slack st := htwo
            omega
          · exact hvictim
      obtain ⟨fuel, st', hloop⟩ := trim_exits hclock hw₂ (hr.stamped.written ha ho offset bufs)
        hslack.1 (fun hzero => by
          obtain ⟨q, hq⟩ := hslack.2 hzero
          exact ⟨q, (evictable_written_iff hw ha ho h0 (hlen ▸ h1) bufs q).mpr hq⟩)
      exact ⟨fuel, _, by rw [heq, hloop, ok_bind]; rfl⟩

/-- Two reserved pieces in a pool of three buffers, and a write to a third piece. -/
theorem writev_returns_iff_reserved :
    StrictMono ticking.clock ∧
    ∃ h st, playNew ticking 3 (quads 9) 4 () [.updateReservedPieces [0, 1], .writev [[1]] 0 0]
        = some (h, st) ∧ ValidRange st 2 0 ∧
      ((∃ fuel r, st.writev ticking fuel [[3]] 2 0 = .ok r) ↔ Returns ticking st 2) := by
  have hplay : playNew ticking 3 (quads 9) 4 () [.updateReservedPieces [0, 1], .writev [[1]] 0 0]
      = some (_, _) := rfl
  exact ⟨strictMono_ticking, _, _, hplay, by decide,
    writev_returns_iff strictMono_ticking (playNew_run (by decide) hplay) (by decide) _⟩

/-- `writev` spins for ever when every used buffer is reserved, when the piece being written
holds the only unreserved one, and when the torrent has a single piece. -/
theorem writev_spins_without_victim :
    StrictMono ticking.clock ∧
    (∃ h st, playNew ticking 3 (quads 9) 0 () [.updateReservedPieces [0, 1], .writev [[1]] 0 0]
        = some (h, st) ∧ StorageRun ticking (quads 9) h st ∧ ValidRange st 1 0 ∧
      ∀ fuel, st.writev ticking fuel [[2]] 1 0 = .error .outOfFuel) ∧
    (∃ h st, playNew ticking 3 (quads 9) 0 () [.updateReservedPieces [0], .writev [[1]] 0 0]
        = some (h, st) ∧ StorageRun ticking (quads 9) h st ∧ ValidRange st 1 0 ∧
      ∀ fuel, st.writev ticking fuel [[2]] 1 0 = .error .outOfFuel) ∧
    (∃ h st, playNew ticking 3 (quads 0) 0 () [] = some (h, st) ∧
      StorageRun ticking (quads 0) h st ∧ ValidRange st 0 0 ∧
      ∀ fuel, st.writev ticking fuel [[1]] 0 0 = .error .outOfFuel) := by
  refine ⟨strictMono_ticking, ?_, ?_, ?_⟩
  · have hplay : playNew ticking 3 (quads 9) 0 ()
        [.updateReservedPieces [0, 1], .writev [[1]] 0 0] = some (_, _) := rfl
    have hr := playNew_run (by decide) hplay
    exact ⟨_, _, hplay, hr, by decide, writev_spins hr (by decide) (by decide) _⟩
  · have hplay : playNew ticking 3 (quads 9) 0 ()
        [.updateReservedPieces [0], .writev [[1]] 0 0] = some (_, _) := rfl
    have hr := playNew_run (by decide) hplay
    exact ⟨_, _, hplay, hr, by decide, writev_spins hr (by decide) (by decide) _⟩
  · have hplay : playNew ticking 3 (quads 0) 0 () [] = some (_, _) := rfl
    have hr := playNew_run (by decide) hplay
    exact ⟨_, _, hplay, hr, by decide, writev_spins hr (by decide) (by decide) _⟩

end Libtorrent
