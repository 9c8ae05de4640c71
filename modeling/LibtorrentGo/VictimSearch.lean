/-
# The search for a victim

`find_last_buffer` keeps a running minimum of access times, which starts from the time of
the call and not from the first buffer it may choose.  It finds the buffer that was accessed
the longest ago as soon as the clock is ahead of one such buffer (`ClockAhead`); where it is
not, because the clock was set back or has not moved, the search returns -1 with a victim
at hand, and the round of `trim` that made it ends as it began.

What it returns is moreover the `index` of a buffer, which is where the buffer stands only in
a pool of `buffer_size` buffers (`Numbered`).

`searches_well_iff` says that nothing else goes wrong.
-/
import LibtorrentGo.Replay

open MachineInt Subscript

namespace Libtorrent

open MemoryStorage

variable {σ : Type}

/-! ## What the search is for -/

/-- A buffer `find_last_buffer(pi, check_read)` may choose. -/
structure Eligible (env : Env σ) (st : MemoryStorage σ) (pi : ℤ) (checkRead : Bool)
    (bf : MemoryBuffer) : Prop where
  used : bf.isUsed = true
  assigned : bf.isAssigned = true
  unreserved : ¬st.Reserved bf.pi
  other : bf.pi ≠ pi
  /-- its piece has priority 0, if this is asked for -/
  unread : checkRead = true → isReadered env st bf.pi = false

theorem eligible_iff {env : Env σ} {st : MemoryStorage σ} {pi : ℤ} {checkRead : Bool}
    {bf : MemoryBuffer} :
    Eligible env st pi checkRead bf ↔
      bf.isAssigned = true ∧ st.Candidate env pi checkRead bf := by
  constructor
  · rintro ⟨hu, ha, hr, hne, hread⟩
    exact ⟨ha, hu, hr, hne, hread⟩
  · rintro ⟨ha, hu, hr, hne, hread⟩
    exact ⟨hu, ha, hr, hne, hread⟩

instance (env : Env σ) (st : MemoryStorage σ) (pi : ℤ) (checkRead : Bool) (bf : MemoryBuffer) :
    Decidable (Eligible env st pi checkRead bf) :=
  decidable_of_iff _ eligible_iff.symm

/-- The search, made in `st`, returns -1 only if no buffer is eligible, and otherwise where an
eligible buffer stands that no eligible buffer was accessed before. -/
def FindsOldest (env : Env σ) (st : MemoryStorage σ) (pi : ℤ) (checkRead : Bool) : Prop :=
  ∃ bi st', findLastBuffer env st pi checkRead = .ok (bi, st') ∧
    (bi = -1 ∧ (∀ bf ∈ st.buffers, ¬Eligible env st' pi checkRead bf) ∨
      ∃ bf t, at? st.buffers bi = some bf ∧ Eligible env st' pi checkRead bf ∧
        bf.accessed = some t ∧ ∀ cf ∈ st.buffers, Eligible env st' pi checkRead cf →
          ∀ u, cf.accessed = some u → t ≤ u)

/-- A round of `trim(pi)` evicts the piece of an eligible buffer. -/
def FreesVictim (env : Env σ) (st : MemoryStorage σ) (pi : ℤ) : Prop :=
  ∃ st' b bf bf', trimBody env pi st = .ok st' ∧ st'.bufferUsed = st.bufferUsed - 1 ∧
    at? st.buffers b = some bf ∧ Eligible env st pi false bf ∧
    at? st'.buffers b = some bf' ∧ bf'.isUsed = false

/-- No buffer can be chosen for a `trim(pi)`. -/
def NoVictim (env : Env σ) (st : MemoryStorage σ) (pi : ℤ) : Prop :=
  ∀ bf ∈ st.buffers, ¬Eligible env st pi false bf

/-- **The searches of `trim(pi)` are complete** in `st`, so that a round makes progress when
there is a victim. -/
structure SearchesWell (env : Env σ) (st : MemoryStorage σ) (pi : ℤ) : Prop where
  finds : ∀ checkRead, FindsOldest env st pi checkRead
  progress : ¬NoVictim env st pi → FreesVictim env st pi

/-! ## When it finds it -/

/-- The pool has as many buffers as it should, so that each stands at its index. -/
def Numbered (st : MemoryStorage σ) : Prop := (st.buffers.length : ℤ) = st.bufferSize

/-- The time at which the search is made is later than an access to some eligible buffer. -/
def ClockAhead (env : Env σ) (st : MemoryStorage σ) (pi : ℤ) (checkRead : Bool) : Prop :=
  ∃ bf ∈ st.buffers, Eligible env (st.wait 1) pi checkRead bf ∧
    bf.accessedBefore (env.clock st.ticks) = true

/-- The clock is ahead of an eligible buffer of priority 0, or there is none and it is ahead
of some eligible buffer, also when it is read once more. -/
def Timely (env : Env σ) (st : MemoryStorage σ) (pi : ℤ) : Prop :=
  ClockAhead env st pi true ∨
    (∀ bf ∈ st.buffers, ¬Eligible env (st.wait 1) pi true bf) ∧
      ClockAhead env st pi false ∧ ClockAhead env (st.wait 1) pi false

instance (env : Env σ) (st : MemoryStorage σ) (pi : ℤ) (checkRead : Bool) :
    Decidable (ClockAhead env st pi checkRead) :=
  inferInstanceAs (Decidable (∃ bf ∈ st.buffers, _ ∧ _))

instance (env : Env σ) (st : MemoryStorage σ) (pi : ℤ) : Decidable (NoVictim env st pi) :=
  inferInstanceAs (Decidable (∀ bf ∈ st.buffers, _))

instance (st : MemoryStorage σ) : Decidable (Numbered st) := inferInstanceAs (Decidable (_ = _))

/-- What is eligible whatever its priority is so at any time. -/
theorem Eligible.anytime {env : Env σ} {st : MemoryStorage σ} {pi : ℤ} {checkRead : Bool}
    {bf : MemoryBuffer} {n : ℕ} (h : Eligible env (st.wait n) pi checkRead bf) (m : ℕ) :
    Eligible env (st.wait m) pi false bf :=
  ⟨h.used, h.assigned, h.unreserved, h.other, fun hfalse => absurd hfalse (by simp)⟩

/-- A regular storage can be searched. -/
theorem Regular.searchable {env : Env σ} {info : TorrentInfo} {st : MemoryStorage σ}
    (h : Regular env info st) : Searchable st := by
  refine ⟨h.initialized, ?_, ?_⟩
  · intro bf hmem hu
    obtain ⟨b, hb⟩ := exists_at?_of_mem hmem
    obtain ⟨hpi, -⟩ := h.buffer_used hb hu
    simp only [MemoryBuffer.isAssigned, decide_eq_true_eq, ne_eq]
    omega
  · intro bf hmem hu
    obtain ⟨b, hb⟩ := exists_at?_of_mem hmem
    obtain ⟨hpi, -⟩ := h.buffer_used hb hu
    apply exists_at?_eq_some hpi.1
    rw [h.reserved_length]
    omega

/-- **The search**, in these terms. -/
theorem Regular.search_cases {env : Env σ} {info : TorrentInfo} {st : MemoryStorage σ}
    (h : Regular env info st) (pi : ℤ) (checkRead : Bool) :
    (findLastBuffer env st pi checkRead = .ok (-1, st.wait 1) ∧
      ¬ClockAhead env st pi checkRead) ∨
    ∃ b bf t, findLastBuffer env st pi checkRead = .ok (bf.index, st.wait 1) ∧
      at? st.buffers b = some bf ∧ Eligible env (st.wait 1) pi checkRead bf ∧
      bf.accessed = some t ∧ t < env.clock st.ticks ∧
      ∀ c cf u, at? st.buffers c = some cf → Eligible env (st.wait 1) pi checkRead cf →
        cf.accessed = some u → t < u ∨ t = u ∧ b ≤ c := by
  rcases findLastBuffer_finds env h.searchable pi checkRead with
    ⟨hfind, hnone⟩ | ⟨b, bf, hfind, hold⟩
  · left
    refine ⟨hfind, ?_⟩
    rintro ⟨bf, hmem, helig, hbefore⟩
    obtain ⟨b, hb⟩ := exists_at?_of_mem hmem
    obtain ⟨-, n, -, hacc⟩ := h.buffer_used hb helig.used
    have hle := hnone b bf _ hb (eligible_iff.mp helig).2 hacc
    simp only [MemoryBuffer.accessedBefore, hacc, decide_eq_true_eq] at hbefore
    omega
  · right
    obtain ⟨t, hacc, hlt, hleast⟩ := hold.oldest
    have hassigned := h.searchable.assigned bf (mem_of_at? hold.buffer) hold.candidate.1
    refine ⟨b, bf, t, hfind, hold.buffer, eligible_iff.mpr ⟨hassigned, hold.candidate⟩, hacc,
      hlt, ?_⟩
    intro c cf u hc helig hcu
    exact hleast c cf u hc (eligible_iff.mp helig).2 hcu

/-- A search whose clock is behind finds nothing. -/
theorem Regular.search_behind {env : Env σ} {info : TorrentInfo} {st : MemoryStorage σ}
    (h : Regular env info st) {pi : ℤ} {checkRead : Bool}
    (hbehind : ¬ClockAhead env st pi checkRead) :
    findLastBuffer env st pi checkRead = .ok (-1, st.wait 1) := by
  rcases h.search_cases pi checkRead with
    ⟨hfind, -⟩ | ⟨b, bf, t, -, hb, helig, hacc, hlt, -⟩
  · exact hfind
  · refine absurd ⟨bf, mem_of_at? hb, helig, ?_⟩ hbehind
    simp only [MemoryBuffer.accessedBefore, hacc, decide_eq_true_eq]
    exact hlt

/-- A search whose clock is ahead finds an eligible buffer, in a numbered pool. -/
theorem Regular.search_ahead {env : Env σ} {info : TorrentInfo} {st : MemoryStorage σ}
    (h : Regular env info st) (hnumbered : Numbered st) {pi : ℤ} {checkRead : Bool}
    (hahead : ClockAhead env st pi checkRead) :
    ∃ b bf, findLastBuffer env st pi checkRead = .ok (b, st.wait 1) ∧ b ≠ -1 ∧
      at? st.buffers b = some bf ∧ Eligible env (st.wait 1) pi checkRead bf := by
  rcases h.search_cases pi checkRead with
    ⟨-, hbehind⟩ | ⟨b, bf, t, hfind, hb, helig, -⟩
  · exact absurd hahead hbehind
  · have hbounds := at?_eq_some_bounds hb
    have hindex : bf.index = b := by
      have hnumber := h.buffer_index hb
      unfold Numbered at hnumbered
      omega
    rw [hindex] at hfind
    exact ⟨b, bf, hfind, by omega, hb, helig⟩

/-- **When one search is complete**: iff no buffer is eligible, or the pool is numbered and the
clock is ahead of an eligible buffer. -/
theorem Regular.findsOldest_iff {env : Env σ} {info : TorrentInfo} {st : MemoryStorage σ}
    (h : Regular env info st) (pi : ℤ) (checkRead : Bool) :
    FindsOldest env st pi checkRead ↔
      (∀ bf ∈ st.buffers, ¬Eligible env (st.wait 1) pi checkRead bf) ∨
        Numbered st ∧ ClockAhead env st pi checkRead := by
  have hlength := h.bufferSize_le
  rcases h.search_cases pi checkRead with
    ⟨hfind, hahead⟩ | ⟨b, bf, t, hfind, hb, helig, hacc, hlt, hleast⟩
  · constructor
    · rintro ⟨bi, st', heq, hcase⟩
      rw [hfind] at heq
      obtain ⟨rfl, rfl⟩ := Prod.mk.inj (Except.ok.inj heq)
      rcases hcase with ⟨-, hnone⟩ | ⟨bf, t, hb, -⟩
      · exact Or.inl hnone
      · have hbounds := at?_eq_some_bounds hb
        omega
    · rintro (hnone | ⟨-, hahead'⟩)
      · exact ⟨-1, st.wait 1, hfind, Or.inl ⟨rfl, hnone⟩⟩
      · exact absurd hahead' hahead
  · have hindex := h.buffer_index hb
    constructor
    · rintro ⟨bi, st', heq, hcase⟩
      rw [hfind] at heq
      obtain ⟨rfl, rfl⟩ := Prod.mk.inj (Except.ok.inj heq)
      rcases hcase with ⟨-, hnone⟩ | ⟨bf', t', hb', helig', hacc', hmin⟩
      · exact absurd helig (hnone bf (mem_of_at? hb))
      · -- the first buffer with the earliest access does not stand behind what was returned
        have hle := hmin bf (mem_of_at? hb) helig t hacc
        have hfirst := hleast bf.index bf' t' hb' helig' hacc'
        have hnumbered : Numbered st := by
          unfold Numbered
          omega
        refine Or.inr ⟨hnumbered, bf, mem_of_at? hb, helig, ?_⟩
        simp only [MemoryBuffer.accessedBefore, hacc, decide_eq_true_eq]
        exact hlt
    · rintro (hnone | ⟨hnumbered, -⟩)
      · exact absurd helig (hnone bf (mem_of_at? hb))
      · have hstands : bf.index = b := by
          unfold Numbered at hnumbered
          omega
        rw [hstands] at hfind
        refine ⟨b, st.wait 1, hfind, Or.inr ⟨bf, t, hb, helig, hacc, ?_⟩⟩
        intro cf hmem hcf u hcu
        obtain ⟨c, hc⟩ := exists_at?_of_mem hmem
        rcases hleast c cf u hc hcf hcu with hlt' | ⟨heq, -⟩
        · exact hlt'.le
        · exact heq.le

/-! ## What becomes of a round of `trim` -/

/-- There is a bit for every piece, and more. -/
theorem Regular.readers_nonempty {env : Env σ} {info : TorrentInfo} {st : MemoryStorage σ}
    (h : Regular env info st) : st.readerPieces.isEmpty = false := by
  have hlength := h.readers_length
  have hcount := info.one_le_numPieces
  exact MemoryStorage.readers_nonempty (by omega)

/-- **A round that removes the piece of an eligible buffer** frees the buffer. -/
theorem Regular.freesVictim {env : Env σ} {info : TorrentInfo} {st : MemoryStorage σ}
    (h : Regular env info st) {pi b : ℤ} {checkRead : Bool} {m n : ℕ} {bf : MemoryBuffer}
    (hb : at? st.buffers b = some bf) (helig : Eligible env (st.wait m) pi checkRead bf)
    (hround : trimBody env pi st = removePiece env (st.wait n) b) : FreesVictim env st pi := by
  obtain ⟨hpi, -⟩ := h.buffer_used hb helig.used
  obtain ⟨pc, hp⟩ : ∃ pc, at? st.pieces bf.pi = some pc := by
    apply exists_at?_eq_some hpi.1
    rw [h.pieces_length]
    exact hpi.2
  have hcount : bf.pi < (st.wait n).pieceCount := by
    show bf.pi < st.pieceCount
    rw [h.pieceCount_eq]
    exact hpi.2
  have hremove : removePiece env (st.wait n) b = .ok ((st.wait n).evict env bf.pi pc b bf) :=
    removePiece_of_names env hp hb hpi.1 hcount
  exact ⟨_, b, bf, _, hround.trans hremove, rfl, hb, helig.anytime 0, at?_put_self hb _, rfl⟩

/-- The clock is ahead of a buffer of any priority as soon as it is ahead of one. -/
theorem Timely.ahead {env : Env σ} {st : MemoryStorage σ} {pi : ℤ} (h : Timely env st pi) :
    ClockAhead env st pi false := by
  rcases h with ⟨bf, hmem, helig, hbefore⟩ | ⟨-, hahead, -⟩
  · exact ⟨bf, hmem, helig.anytime 1, hbefore⟩
  · exact hahead

/-- **A round in time** frees an eligible buffer. -/
theorem Regular.freesVictim_of_timely {env : Env σ} {info : TorrentInfo} {st : MemoryStorage σ}
    (h : Regular env info st) (hnumbered : Numbered st) {pi : ℤ} (htimely : Timely env st pi) :
    FreesVictim env st pi := by
  have hreaders := h.readers_nonempty
  by_cases hlow : ClockAhead env st pi true
  · obtain ⟨b, bf, hfirst, hb1, hb, helig⟩ := h.search_ahead hnumbered hlow
    exact h.freesVictim hb helig (trimBody_of_first hreaders hfirst hb1)
  · -- the second search is made, and the clock is still ahead
    obtain ⟨-, -, hahead⟩ := htimely.resolve_left hlow
    have hfirst := h.search_behind hlow
    obtain ⟨b, bf, hsecond, hb1, hb, helig⟩ := (h.wait 1).search_ahead hnumbered hahead
    have helig' : Eligible env (st.wait 2) pi false bf := helig
    have hround := trimBody_of_second hreaders hfirst hsecond
    rw [if_pos hb1] at hround
    exact h.freesVictim (n := 2) hb helig' hround

/-- **A round that frees a buffer**, with no piece of priority 0 to evict, was in time for its
second search. -/
theorem Regular.ahead_of_freesVictim {env : Env σ} {info : TorrentInfo} {st : MemoryStorage σ}
    (h : Regular env info st) {pi : ℤ}
    (hlow : ∀ bf ∈ st.buffers, ¬Eligible env (st.wait 1) pi true bf)
    (hfrees : FreesVictim env st pi) : ClockAhead env (st.wait 1) pi false := by
  obtain ⟨st', -, -, -, hround, hused, -⟩ := hfrees
  by_contra hbehind
  -- neither search finds anything, and the round ends as it began
  have hfirst : findLastBuffer env st pi true = .ok (-1, st.wait 1) :=
    h.search_behind fun ⟨bf, hmem, helig, _⟩ => hlow bf hmem helig
  have hsecond := (h.wait 1).search_behind hbehind
  rw [trimBody_of_second h.readers_nonempty hfirst hsecond, if_neg (by simp)] at hround
  obtain rfl := Except.ok.inj hround
  have hsame : st.bufferUsed = st.bufferUsed - 1 := hused
  omega

/-- **When the searches of a round are complete.** -/
theorem Regular.searchesWell_iff {env : Env σ} {info : TorrentInfo} {st : MemoryStorage σ}
    (h : Regular env info st) (pi : ℤ) :
    SearchesWell env st pi ↔ NoVictim env st pi ∨ Numbered st ∧ Timely env st pi := by
  have hfinds := h.findsOldest_iff pi
  constructor
  · intro hwell
    by_cases hvictim : NoVictim env st pi
    · exact Or.inl hvictim
    right
    -- there is a victim, so that the search for it has to find one
    have hsome : ¬∀ bf ∈ st.buffers, ¬Eligible env (st.wait 1) pi false bf := by
      intro hnone
      apply hvictim
      intro bf hmem helig
      exact hnone bf hmem (helig.anytime (n := 0) 1)
    obtain ⟨hnumbered, hahead⟩ := ((hfinds false).mp (hwell.finds false)).resolve_left hsome
    refine ⟨hnumbered, ?_⟩
    rcases (hfinds true).mp (hwell.finds true) with hlow | ⟨-, hlow⟩
    · exact Or.inr ⟨hlow, hahead, h.ahead_of_freesVictim hlow (hwell.progress hvictim)⟩
    · exact Or.inl hlow
  · rintro (hnone | ⟨hnumbered, htimely⟩)
    · refine ⟨?_, fun hvictim => absurd hnone hvictim⟩
      intro checkRead
      refine (hfinds checkRead).mpr (Or.inl ?_)
      intro bf hmem helig
      exact hnone bf hmem (helig.anytime 0)
    · refine ⟨?_, fun _ => h.freesVictim_of_timely hnumbered htimely⟩
      intro checkRead
      rw [hfinds]
      cases checkRead with
      | false => exact Or.inr ⟨hnumbered, htimely.ahead⟩
      | true =>
          rcases htimely with hlow | ⟨hnone, -⟩
          · exact Or.inr ⟨hnumbered, hlow⟩
          · exact Or.inl hnone

/-! ## A clock that stays behind -/

/-- The `while` of `trim(pi)` never exits while the clock does not get ahead of an access to an
eligible buffer. -/
theorem Regular.trim_spins {env : Env σ} {info : TorrentInfo} {st : MemoryStorage σ}
    (h : Regular env info st) {pi : ℤ} (hfull : st.isFull = true)
    (hbehind : ∀ n, st.ticks ≤ n → ∀ bf ∈ st.buffers, Eligible env st pi false bf →
      bf.accessedBefore (env.clock n) = false) (fuel : ℕ) :
    WhileLoop.loop isFull (trimBody env pi) .outOfFuel fuel st = .error .outOfFuel := by
  refine WhileLoop.loop_diverges (J := fun s => ∃ k, s = st.wait k) ?_ ?_ ⟨0, rfl⟩ fuel
  · rintro s ⟨k, rfl⟩
    exact hfull
  · rintro s ⟨k, rfl⟩
    -- a search that is made later finds nothing either
    have misses : ∀ j checkRead, findLastBuffer env (st.wait j) pi checkRead =
        .ok (-1, (st.wait j).wait 1) := by
      intro j checkRead
      apply (h.wait j).search_behind
      rintro ⟨bf, hmem, helig, hbefore⟩
      have helig' : Eligible env (st.wait (j + 1)) pi checkRead bf := helig
      rw [hbehind (st.wait j).ticks (Nat.le_add_right _ _) bf hmem (helig'.anytime 0)] at hbefore
      exact absurd hbefore (by simp)
    have hround := trimBody_of_second (h.wait k).readers_nonempty (misses k true)
      (misses (k + 1) false)
    rw [if_neg (by simp)] at hround
    exact ⟨st.wait (k + 2), hround, k + 2, rfl⟩

/-- **A `writev` that enters `trim` under such a clock** does not return. -/
theorem writev_spins_behind {env : Env σ} {info : TorrentInfo} {st s : MemoryStorage σ}
    (hr : Reached env info st) {bufs : List (List Byte)} {p offset : ℤ}
    (hs : BeforeTrim env st bufs p offset s) (hcapacity : 0 ≤ s.capacity)
    (hfull : s.isFull = true)
    (hbehind : ∀ n, s.ticks ≤ n → ∀ bf ∈ s.buffers, Eligible env s p false bf →
      bf.accessedBefore (env.clock n) = false) (fuel : ℕ) :
    writev env fuel st bufs p offset = .error .outOfFuel := by
  have hinit := hr.regular.initialized
  have hspins := (hr.beforeTrim hs).regular.trim_spins hfull hbehind fuel
  rw [← writevTrim_eq env fuel hcapacity] at hspins
  obtain ⟨n, st₁, st₂, hget, hcopy, hacc⟩ := hs
  simp only [writev, hinit, hget, hcopy, hacc, hspins, ok_bind, error_bind, Bool.not_true,
    Bool.false_eq_true, if_false]

/-! ## Reached states -/

/-- **When the search for a victim is complete**, in any reached state: iff there is no
victim, or the pool is numbered and the clock is ahead of one. -/
theorem searches_well_iff {env : Env σ} {info : TorrentInfo} {st : MemoryStorage σ}
    (hr : Reached env info st) (pi : ℤ) :
    SearchesWell env st pi ↔ NoVictim env st pi ∨ Numbered st ∧ Timely env st pi :=
  hr.regular.searchesWell_iff pi

/-- Two of three buffers in use. -/
theorem searches_well_iff_two_writes :
    ∃ h st, playNew ticking 3 (quads 9) 4 () [.writev [[1]] 0 0, .writev [[2]] 1 0]
        = some (h, st) ∧
      (SearchesWell ticking st 1 ↔
        NoVictim ticking st 1 ∨ Numbered st ∧ Timely ticking st 1) := by
  have hplay : playNew ticking 3 (quads 9) 4 () [.writev [[1]] 0 0, .writev [[2]] 1 0]
      = some (_, _) := rfl
  exact ⟨_, _, hplay, searches_well_iff (playNew_reached hplay) 1⟩

/-- A clock that is set back by sixty once it was read four times. -/
def setBack : Env Unit := { ticking with clock := fun n => if n < 4 then n + 60 else n }

/-- A clock that has stopped. -/
def stopped : Env Unit := { ticking with clock := fun _ => 0 }

/-- A search that returns -1 with a victim at hand is not complete. -/
theorem not_searchesWell {env : Env σ} {st : MemoryStorage σ} {pi : ℤ}
    (hvictim : ¬NoVictim env st pi)
    (hfind : findLastBuffer env st pi false = .ok (-1, st.wait 1)) : ¬SearchesWell env st pi := by
  intro hwell
  obtain ⟨bi, st', heq, hcase⟩ := hwell.finds false
  rw [hfind] at heq
  obtain ⟨rfl, rfl⟩ := Prod.mk.inj (Except.ok.inj heq)
  rcases hcase with ⟨-, hnone⟩ | ⟨bf, t, hb, -⟩
  · apply hvictim
    intro bf hmem helig
    have helig' : Eligible env (st.wait 0) pi false bf := helig
    exact hnone bf hmem (helig'.anytime 1)
  · have hbounds := at?_eq_some_bounds hb
    omega

/-- With a clock that was set back the search overlooks the piece written first, and the round
of `trim` ends as it began; with a clock that has stopped, a `writev` does not return; and in a
pool of five buffers numbered from minus one, the index of the buffer found is minus one. -/
theorem search_overlooks_victim :
    (∃ h st, playNew setBack 3 (quads 9) 4 () [.writev [[1]] 0 0, .writev [[2]] 1 0]
        = some (h, st) ∧ Reached setBack (quads 9) st ∧ ¬NoVictim setBack st 1 ∧
      findLastBuffer setBack st 1 false = .ok (-1, st.wait 1) ∧
      trimBody setBack 1 st = .ok (st.wait 2) ∧ ¬SearchesWell setBack st 1) ∧
    (∃ h st s, playNew stopped 3 (quads 9) 0 () [.writev [[1]] 0 0] = some (h, st) ∧
      Reached stopped (quads 9) st ∧ BeforeTrim stopped st [[2]] 1 0 s ∧
      ¬NoVictim stopped s 1 ∧
      ∀ fuel, st.writev stopped fuel [[2]] 1 0 = .error .outOfFuel) ∧
    (∃ h st, playNew ticking 3 (quads 9) (-12) () [.setMemorySize 8, .writev [[1]] 0 0]
        = some (h, st) ∧ Reached ticking (quads 9) st ∧ ¬NoVictim ticking st 1 ∧
      findLastBuffer ticking st 1 false = .ok (-1, st.wait 1) ∧
      ¬SearchesWell ticking st 1) := by
  refine ⟨?_, ?_, ?_⟩
  · have hplay : playNew setBack 3 (quads 9) 4 () [.writev [[1]] 0 0, .writev [[2]] 1 0]
        = some (_, _) := rfl
    exact ⟨_, _, hplay, playNew_reached hplay, by decide, rfl, rfl,
      not_searchesWell (by decide) rfl⟩
  · have hplay : playNew stopped 3 (quads 9) 0 () [.writev [[1]] 0 0] = some (_, _) := rfl
    refine ⟨_, _, _, hplay, playNew_reached hplay, ⟨_, _, _, rfl, rfl, rfl⟩, by decide, ?_⟩
    apply writev_spins_behind (playNew_reached hplay) ⟨_, _, _, rfl, rfl, rfl⟩ (by decide)
      (by decide)
    intro n _
    show ∀ bf ∈ _, _ → MemoryBuffer.accessedBefore bf 0 = false
    decide
  · have hplay : playNew ticking 3 (quads 9) (-12) () [.setMemorySize 8, .writev [[1]] 0 0]
        = some (_, _) := rfl
    exact ⟨_, _, hplay, playNew_reached hplay, by decide, rfl, not_searchesWell (by decide) rfl⟩

/-- **Under a clock whose readings strictly increase** the searches of a numbered pool are
complete. -/
theorem Reached.searchesWell {env : Env σ} {info : TorrentInfo} {st : MemoryStorage σ}
    (hclock : StrictMono env.clock) (hr : Reached env info st) (hnumbered : Numbered st)
    (pi : ℤ) : SearchesWell env st pi := by
  have hreg := hr.regular
  rw [hreg.searchesWell_iff]
  by_cases hvictim : NoVictim env st pi
  · exact Or.inl hvictim
  refine Or.inr ⟨hnumbered, ?_⟩
  -- every access was made at an earlier reading
  have ahead : ∀ m, ∀ bf ∈ st.buffers, bf.isUsed = true →
      bf.accessedBefore (env.clock (st.wait m).ticks) = true := by
    intro m bf hmem hu
    obtain ⟨b, hb⟩ := exists_at?_of_mem hmem
    obtain ⟨-, n, hn, hacc⟩ := hreg.buffer_used hb hu
    simp only [MemoryBuffer.accessedBefore, hacc, decide_eq_true_eq]
    exact hclock (lt_of_lt_of_le hn (Nat.le_add_right st.ticks m))
  by_cases hlow : ∀ bf ∈ st.buffers, ¬Eligible env (st.wait 1) pi true bf
  · simp only [NoVictim, not_forall, not_not] at hvictim
    obtain ⟨bf, hmem, helig⟩ := hvictim
    have helig' : Eligible env (st.wait 0) pi false bf := helig
    exact Or.inr ⟨hlow, ⟨bf, hmem, helig'.anytime 1, ahead 0 bf hmem helig.used⟩,
      ⟨bf, hmem, helig'.anytime 2, ahead 1 bf hmem helig.used⟩⟩
  · simp only [not_forall, not_not] at hlow
    obtain ⟨bf, hmem, helig⟩ := hlow
    exact Or.inl ⟨bf, hmem, helig, ahead 0 bf hmem helig.used⟩

/-- The pool of a run that starts with a memory size `≥ 0` is numbered. -/
theorem StorageRun.searchesWell {env : Env σ} {info : TorrentInfo} {h : History σ}
    {st : MemoryStorage σ} (hclock : StrictMono env.clock) (hr : StorageRun env info h st)
    (pi : ℤ) : SearchesWell env st pi :=
  hr.reached.searchesWell hclock hr.wellFormed.buffers_length pi

end Libtorrent
