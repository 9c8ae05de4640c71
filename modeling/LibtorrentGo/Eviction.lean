/-
# When a piece is evicted

`Effect.residents` says who is resident behind a call: the same pieces as before, or the
piece the call placed as well, or that one in the place of another.  Which of the three
it is depends on the slack alone.

Without a growth the slack is the number of free buffers, so a `writev` evicts exactly
when it took the last one (`eviction_iff_last_buffer`).  What the pool of a torrent that
fits the memory size loses by this is the subject of the last section
(`no_needless_eviction_iff`).
-/
import LibtorrentGo.Replay
import LibtorrentGo.Stages

open Subscript

namespace Libtorrent

open MemoryStorage

variable {σ : Type}

/-! ## Who is resident behind a call -/

/-- The call is a `writev` that will be given a buffer for piece `p`. -/
def Takes (env : Env σ) (st : MemoryStorage σ) (c : Call σ) (p : ℤ) : Prop :=
  (∃ bufs offset, c = .writev bufs p offset) ∧ (0 ≤ p ∧ p < st.pieceCount) ∧
    ¬Resident st p ∧ ¬st.Refused env p ∧ ¬st.PoolFull

/-- A resident piece takes no buffer. -/
theorem not_takes_of_resident {env : Env σ} {st : MemoryStorage σ} {bufs : List (List Byte)}
    {p offset : ℤ} (h : Resident st p) (q : ℤ) : ¬Takes env st (.writev bufs p offset) q := by
  rintro ⟨⟨bufs', offset', heq⟩, -, hn, -⟩
  obtain ⟨-, rfl, -⟩ := Call.writev.inj heq
  exact hn h

/-- Who is resident when a `writev` reaches its last `if`. -/
theorem residents_written {env : Env σ} {info : TorrentInfo} {st st₁ : MemoryStorage σ}
    {p offset b : ℤ} {pc : MemoryPiece} {bf : MemoryBuffer} (hw : WellFormed info st)
    (ha : Acquired env st p st₁) (ho : Owns st₁ p pc b bf) (bufs : List (List Byte)) (q : ℤ) :
    Resident (st₁.written env p pc b bf offset bufs) q ↔ q = p ∨ Resident st q := by
  obtain ⟨hw₁, -⟩ := ha.wellFormed hw
  rw [written, resident_store hw₁.toLinked ho]
  cases ha with
  | kept hkept =>
      constructor
      · exact Or.inr
      · rintro (rfl | hq)
        · exact hkept
        · exact hq
  | placed hp hb _ hfree => exact resident_place hw.toLinked hp hb hfree.buffer hfree.free _ q

/-- The counters when a `writev` reaches its last `if`: as they were, or one buffer on. -/
theorem written_cases {env : Env σ} {st st₁ : MemoryStorage σ} {p b : ℤ} {pc : MemoryPiece}
    {bf : MemoryBuffer} (ha : Acquired env st p st₁) (ho : Owns st₁ p pc b bf) (offset : ℤ)
    (bufs : List (List Byte)) :
    (Resident st p ∧ slack (st₁.written env p pc b bf offset bufs) = slack st ∧
      usedBuffers (st₁.written env p pc b bf offset bufs) = usedBuffers st) ∨
    ((∃ pc₀, at? st.pieces p = some pc₀) ∧ ¬Resident st p ∧ ¬st.Refused env p ∧ ¬st.PoolFull ∧
      slack (st₁.written env p pc b bf offset bufs) = slack st - 1 ∧
      usedBuffers (st₁.written env p pc b bf offset bufs) = usedBuffers st + 1) := by
  have hcount : usedBuffers (st₁.written env p pc b bf offset bufs) = usedBuffers st₁ :=
    usedBuffers_store ho _ _
  cases ha with
  | kept hkept => exact Or.inl ⟨hkept, rfl, hcount⟩
  | @placed pc₀ b₀ bf₀ hp hb href hfree =>
      right
      refine ⟨⟨pc₀, hp⟩, (not_resident_iff hp).mpr hb, href, ?_, slack_place env st p b₀ pc₀ bf₀ _,
        hcount.trans (usedBuffers_place hfree.buffer hfree.free _)⟩
      intro hfull
      have hused := hfull b₀ bf₀ hfree.buffer
      rw [hfree.free] at hused
      exact absurd hused (by simp)

/-- **What the `trim` of an accepted `writev` amounts to**: nothing, or the eviction of the
one piece that has no buffer any more behind the call. -/
theorem accepted_cases {env : Env σ} {info : TorrentInfo} {st st₁ st' : MemoryStorage σ}
    (hw : WellFormed info st) (hroom : 0 < slack st) {bufs : List (List Byte)} {p offset b : ℤ}
    {pc : MemoryPiece} {bf : MemoryBuffer} (ha : Acquired env st p st₁)
    (ho : Owns st₁ p pc b bf) (h0 : 0 ≤ offset) (h1 : offset ≤ pc.length)
    (ht : Trims env p (st₁.written env p pc b bf offset bufs) st') (hexit : st'.isFull = false) :
    (st' = st₁.written env p pc b bf offset bufs ∧ ∀ q, Resident st q → Resident st' q) ∨
    ∃ n v vc c cf, (st₁.written env p pc b bf offset bufs).Condemns env p v ∧
      Owns ((st₁.written env p pc b bf offset bufs).wait n) v vc c cf ∧ ¬st.Reserved v ∧ v ≠ p ∧
      st' = ((st₁.written env p pc b bf offset bufs).wait n).evict env v vc c cf ∧
      ∀ q, Resident st q ∧ ¬Resident st' q ↔ q = v := by
  obtain ⟨hw₂, hs₂⟩ := written_wellFormed hw ha ho h0 h1 bufs
  have hres : ∀ q, Resident (st₁.written env p pc b bf offset bufs) q ↔ q = p ∨ Resident st q :=
    residents_written hw ha ho bufs
  have hslack : 0 ≤ slack (st₁.written env p pc b bf offset bufs) := by
    rcases written_cases ha ho offset bufs with ⟨-, hs, -⟩ | ⟨-, -, -, -, hs, -⟩ <;> omega
  rcases trims_cases hw₂ hslack ht hexit with
    ⟨-, rfl⟩ | ⟨-, n, v, vc, c, cf, hcond, hv, hvres, hvp, rfl⟩
  · left
    exact ⟨rfl, fun q hq => (hres q).mpr (Or.inr hq)⟩
  · right
    have hl := linked_wait hw₂.toLinked n
    rw [hs₂.reserved_iff] at hvres
    refine ⟨n, v, vc, c, cf, hcond, hv, hvres, hvp, rfl, ?_⟩
    intro q
    rw [resident_evict hl hv]
    show Resident st q ∧ ¬(Resident (st₁.written env p pc b bf offset bufs) q ∧ q ≠ v) ↔ q = v
    rw [hres]
    constructor
    · rintro ⟨hq, hnot⟩
      by_contra hqv
      exact hnot ⟨Or.inr hq, hqv⟩
    · rintro rfl
      have hvr : Resident (st₁.written env p pc b bf offset bufs) q :=
        hv.resident hl
      exact ⟨((hres q).mp hvr).resolve_left hvp, fun hboth => hboth.2 rfl⟩

/-- **Who is resident behind a call**: as many pieces as before, or one more, or one in
the place of another. -/
theorem Effect.residents {env : Env σ} {info : TorrentInfo} {st st' : MemoryStorage σ}
    {c : Call σ} {r : Reply} (he : Effect env st c r st') (hw : WellFormed info st)
    (hroom : 0 < slack st) :
    ((∀ p, ¬Takes env st c p) ∧ usedBuffers st' = usedBuffers st ∧
      ∀ q, Resident st' q ↔ Resident st q) ∨
    (∃ p, Takes env st c p ∧ 1 < slack st ∧ usedBuffers st' = usedBuffers st + 1 ∧
      ∀ q, Resident st' q ↔ q = p ∨ Resident st q) ∨
    (∃ p v, Takes env st c p ∧ slack st = 1 ∧ Resident st v ∧ v ≠ p ∧ ¬st.Reserved v ∧
      ∀ q, Resident st' q ↔ q = p ∨ (Resident st q ∧ q ≠ v)) := by
  have other : ∀ {d : Call σ}, (∀ bufs p offset, d ≠ .writev bufs p offset) →
      ∀ p, ¬Takes env st d p := by
    rintro d hd p ⟨⟨bufs, offset, rfl⟩, -⟩
    exact hd bufs p offset rfl
  cases he with
  | refused hp hb href =>
      left
      refine ⟨?_, rfl, fun q => Iff.rfl⟩
      rintro p ⟨⟨bufs', offset', heq⟩, -, -, hnot, -⟩
      obtain ⟨-, rfl, -⟩ := Call.writev.inj heq
      exact hnot href
  | noBuffer hp hb href hfull =>
      left
      refine ⟨?_, rfl, fun q => Iff.rfl⟩
      rintro p ⟨-, -, -, -, hnot⟩
      exact hnot hfull
  | @accepted bufs p offset b pc bf st₁ _ ha ho h0 h1 ht hexit =>
      obtain ⟨hw₂, hs₂⟩ := written_wellFormed hw ha ho h0 h1 bufs
      have hres : ∀ q, Resident (st₁.written env p pc b bf offset bufs) q ↔
          q = p ∨ Resident st q := residents_written hw ha ho bufs
      rcases written_cases ha ho offset bufs with
        ⟨hkept, hslack, hused⟩ | ⟨⟨pc₀, hp₀⟩, hn, href, hfull, hslack, hused⟩
      · left
        refine ⟨not_takes_of_resident hkept, ?_⟩
        rcases trims_cases hw₂ (by omega) ht hexit with ⟨-, rfl⟩ | ⟨hzero, -⟩
        · refine ⟨hused, ?_⟩
          intro q
          rw [hres]
          constructor
          · rintro (rfl | hq)
            · exact hkept
            · exact hq
          · exact Or.inr
        · omega
      · right
        have htakes : Takes env st (.writev bufs p offset) p :=
          ⟨⟨bufs, offset, rfl⟩, hw.piece_bounds hp₀, hn, href, hfull⟩
        rcases trims_cases hw₂ (by omega) ht hexit with
          ⟨hpos, rfl⟩ | ⟨hzero, n, v, vc, c, cf, -, hv, hvres, hvp, rfl⟩
        · left
          exact ⟨p, htakes, by omega, hused, hres⟩
        · right
          have hvr : Resident (st₁.written env p pc b bf offset bufs) v :=
            hv.resident (linked_wait hw₂.toLinked n)
          rw [hres] at hvr
          refine ⟨p, v, htakes, by omega, hvr.resolve_left hvp, hvp, ?_, ?_⟩
          · rwa [hs₂.reserved_iff] at hvres
          · intro q
            rw [resident_evict (linked_wait hw₂.toLinked n) hv]
            show Resident (st₁.written env p pc b bf offset bufs) q ∧ q ≠ v ↔ _
            rw [hres]
            constructor
            · rintro ⟨rfl | hq, hqv⟩
              · exact Or.inl rfl
              · exact Or.inr ⟨hq, hqv⟩
            · rintro (rfl | ⟨hq, hqv⟩)
              · exact ⟨Or.inl rfl, hvp.symm⟩
              · exact ⟨Or.inr hq, hqv⟩
  | missed _ _ => exact Or.inl ⟨other (by simp), rfl, fun q => Iff.rfl⟩
  | scattered ho _ _ =>
      exact Or.inl ⟨other (by simp), usedBuffers_touch ho _, resident_touch hw.toLinked ho _⟩
  | incomplete _ _ => exact Or.inl ⟨other (by simp), rfl, fun q => Iff.rfl⟩
  | atEnd _ _ _ => exact Or.inl ⟨other (by simp), rfl, fun q => Iff.rfl⟩
  | copied ho _ _ _ _ =>
      left
      have ho' : Owns ({ st with isReading := true } : MemoryStorage σ) _ _ _ _ :=
        ho.frame rfl rfl
      exact ⟨other (by simp), usedBuffers_touch ho' _,
        resident_touch (hw.withTorrent st.torrent st.mHandle st.t true).toLinked ho' _⟩
  | notGrown _ => exact Or.inl ⟨other (by simp), rfl, fun q => Iff.rfl⟩
  | grown _ _ => exact Or.inl ⟨other (by simp), usedBuffers_grow _ _ _, fun q => Iff.rfl⟩
  | readers _ _ => exact Or.inl ⟨other (by simp), rfl, fun q => Iff.rfl⟩
  | reserves _ _ => exact Or.inl ⟨other (by simp), rfl, fun q => Iff.rfl⟩
  | handle => exact Or.inl ⟨other (by simp), rfl, fun q => Iff.rfl⟩
  | outside => exact Or.inl ⟨other (by simp), rfl, fun q => Iff.rfl⟩

/-- Only a `writev` ends a residency. -/
theorem Effect.evicts_only_writev {env : Env σ} {info : TorrentInfo} {st st' : MemoryStorage σ}
    {c : Call σ} {r : Reply} (he : Effect env st c r st') (hw : WellFormed info st)
    (hroom : 0 < slack st) {q : ℤ} (hq : Resident st q) (hgone : ¬Resident st' q) :
    ∃ bufs p offset, c = .writev bufs p offset ∧ q ≠ p := by
  rcases he.residents hw hroom with
    ⟨-, -, hres⟩ | ⟨p, htakes, -, -, hres⟩ | ⟨p, v, htakes, -, -, -, -, hres⟩
  · exact absurd ((hres q).mpr hq) hgone
  · exact absurd ((hres q).mpr (Or.inr hq)) hgone
  · obtain ⟨⟨bufs, offset, hc⟩, -, hn, -⟩ := htakes
    refine ⟨bufs, p, offset, hc, ?_⟩
    rintro rfl
    exact hn hq

/-! ## Evictions and the last free buffer -/

/-- The call ended the residency of piece `q`. -/
def Evicts (e : CallEntry σ) (q : ℤ) : Prop := Resident e.before q ∧ ¬Resident e.after q

/-- The call took the last free buffer for some piece. -/
def TookLastBuffer (e : CallEntry σ) : Prop :=
  freeBuffers e.before = 1 ∧ ∃ p, ¬Resident e.before p ∧ Resident e.after p

/-- **One call evicts exactly one piece if it took the last free buffer, and none
otherwise**, as long as nothing was forgotten. -/
theorem Effect.evicts {env : Env σ} {info : TorrentInfo} {h : History σ}
    {st st' : MemoryStorage σ} {c : Call σ} {r : Reply} (he : Effect env st c r st')
    (hw : WellFormed info st) (hl : Ledger h st) (hf : forgotten h = 0) :
    (TookLastBuffer ⟨st, (c, r), st'⟩ → ∃! q, Evicts ⟨st, (c, r), st'⟩ q) ∧
      (¬TookLastBuffer ⟨st, (c, r), st'⟩ → ∀ q, ¬Evicts ⟨st, (c, r), st'⟩ q) := by
  have hslack := hl.slack_eq hw.toLinked
  rw [hf] at hslack
  rcases he.residents hw hl.room with
    ⟨-, -, hres⟩ | ⟨p, htakes, hs, -, hres⟩ | ⟨p, v, htakes, hs, hv, hvp, -, hres⟩
  · constructor
    · rintro ⟨-, p, hn, hp⟩
      exact absurd ((hres p).mp hp) hn
    · rintro - q ⟨hq, hq'⟩
      exact hq' ((hres q).mpr hq)
  · constructor
    · rintro ⟨hone, -⟩
      simp only at hone
      omega
    · rintro - q ⟨hq, hq'⟩
      exact hq' ((hres q).mpr (Or.inr hq))
  · constructor
    · rintro -
      refine ⟨v, ⟨hv, ?_⟩, ?_⟩
      · show ¬Resident st' v
        rw [hres]
        rintro (rfl | ⟨-, hne⟩)
        · exact hvp rfl
        · exact hne rfl
      · rintro q ⟨hq, hq'⟩
        by_contra hne
        exact hq' ((hres q).mpr (Or.inr ⟨hq, hne⟩))
    · intro hnot
      refine absurd ⟨?_, p, htakes.2.2.1, (hres p).mpr (Or.inl rfl)⟩ hnot
      show freeBuffers st = 1
      omega

/-- Nothing is forgotten without a growth. -/
theorem forgotten_eq_zero {h : History σ} (hg : ∀ e ∈ h, grows e = false) : forgotten h = 0 := by
  induction h with
  | nil => rfl
  | cons e h ih =>
      obtain ⟨he, hrest⟩ := List.forall_mem_cons.mp hg
      simp only [forgotten, he, Bool.false_eq_true, if_false]
      exact ih hrest

/-- **Eviction is triggered exactly when the pool is full**, whatever is reserved: in every
state inside a run without growth the test of `trim` holds iff every buffer is in use,
and a completed call evicts one piece if it took the last free buffer, else none. -/
theorem eviction_iff_last_buffer {env : Env σ} {info : TorrentInfo} {h : History σ}
    {st : MemoryStorage σ} (hr : StorageRun env info h st) (hg : ∀ e ∈ h, grows e = false) :
    (∀ c s, c.Valid st → (∀ n, c = .setMemorySize n → n ≤ st.capacity) → Inside env st c s →
      (s.isFull = true ↔ s.PoolFull)) ∧
    ∀ e ∈ h, (TookLastBuffer e → ∃! q, Evicts e q) ∧
      (¬TookLastBuffer e → ∀ q, ¬Evicts e q) := by
  constructor
  · intro c s hv hc hi
    obtain ⟨hw, hb⟩ := inside_balance hr hv hc hi
    have hfree := used_add_free hw.toLinked
    rw [Balanced, forgotten_eq_zero hg] at hb
    rw [isFull_eq, poolFull_iff, decide_eq_true_eq]
    omega
  · revert hg
    refine StorageRun.rule (J := fun h _ => (∀ e ∈ h, grows e = false) → ∀ e ∈ h,
      (TookLastBuffer e → ∃! q, Evicts e q) ∧ (¬TookLastBuffer e → ∀ q, ¬Evicts e q))
      (fun _ _ _ e he => absurd he List.not_mem_nil) ?_ hr
    intro h st c r st' hrun _ ih heff hg e he
    obtain ⟨-, hrest⟩ := List.forall_mem_cons.mp hg
    rcases List.mem_cons.mp he with rfl | he
    · exact heff.evicts hrun.wellFormed hrun.ledger (forgotten_eq_zero hrest)
    · exact ih hrest e he

/-- Two writes into a pool of two buffers: the second takes the last one. -/
theorem eviction_iff_last_buffer_two_writes :
    ∃ h st, playNew ticking 3 (quads 9) 0 () [.writev [[1]] 0 0, .writev [[2]] 1 0]
        = some (h, st) ∧
      (∀ c s, c.Valid st → (∀ n, c = .setMemorySize n → n ≤ st.capacity) →
        Inside ticking st c s → (s.isFull = true ↔ s.PoolFull)) ∧
      ∀ e ∈ h, (TookLastBuffer e → ∃! q, Evicts e q) ∧
        (¬TookLastBuffer e → ∀ q, ¬Evicts e q) := by
  have hplay : playNew ticking 3 (quads 9) 0 () [.writev [[1]] 0 0, .writev [[2]] 1 0]
      = some (_, _) := rfl
  exact ⟨_, _, hplay, eviction_iff_last_buffer (playNew_run (by decide) hplay) (by decide)⟩

/-! ## Needless evictions -/

/-- The number of pieces that own a buffer. -/
def residentPieces (st : MemoryStorage σ) : ℕ := st.pieces.countP MemoryPiece.isBuffered

/-- As many pieces are resident as buffers are in use. -/
theorem residentPieces_eq {st : MemoryStorage σ} (h : Linked st) :
    residentPieces st = usedBuffers st := by
  rw [residentPieces, usedBuffers, countP_eq_ncard, countP_eq_ncard]
  symm
  -- a used buffer is sent to the piece it names
  refine Set.ncard_congr (fun b _ => ((at? st.buffers b).map MemoryBuffer.pi).getD 0) ?_ ?_ ?_
  · rintro b ⟨bf, hb, hu⟩
    obtain ⟨pc, ho⟩ := h.owns_of_buffer hb hu
    refine ⟨pc, ?_, ?_⟩
    · simpa [hb] using ho.piece
    · have hne := h.bi_ne ho
      simp only [MemoryPiece.isBuffered, ho.bi, decide_eq_true_eq, ne_eq]
      exact hne
  · rintro b c ⟨bf, hb, hu⟩ ⟨cf, hc, hu'⟩ heq
    exact h.buffer_unique hb hc hu hu' (by simpa [hb, hc] using heq)
  · rintro p ⟨pc, hp, hbuf⟩
    have hne : pc.bi ≠ -1 := by simpa [MemoryPiece.isBuffered] using hbuf
    obtain ⟨bf, ho⟩ := h.owns_of_piece hp hne
    exact ⟨pc.bi, ⟨bf, ho.buffer, ho.used⟩, by simp [ho.buffer, ho.pi]⟩

/-- A round of `trim` in the call evicts a piece while the resident pieces, counted in
full, fit the capacity. -/
def NeedlessEviction (env : Env σ) (st : MemoryStorage σ) (c : Call σ) : Prop :=
  ∃ bufs p offset s₀ s s', c = .writev bufs p offset ∧ BeforeTrim env st bufs p offset s₀ ∧
    Relation.ReflTransGen (WhileLoop.Round isFull (trimBody env p)) s₀ s ∧
    WhileLoop.Round isFull (trimBody env p) s s' ∧
    (∃ q, Resident s q ∧ ¬Resident s' q) ∧ residentPieces s * s.pieceLength ≤ s.capacity

/-- The whole torrent fits the capacity, a piece takes a buffer, and the counters have
room for no more than that one. -/
def FillsFittingPool (env : Env σ) (st : MemoryStorage σ) (c : Call σ) : Prop :=
  st.pieceCount * st.pieceLength ≤ st.capacity ∧ (∃ p, Takes env st c p) ∧
    st.bufferLimit - st.bufferUsed ≤ 1

/-- Rounds that lead to a full state started in one. -/
theorem isFull_of_rounds {env : Env σ} {pi : ℤ} {s₀ s : MemoryStorage σ}
    (hr : Relation.ReflTransGen (WhileLoop.Round isFull (trimBody env pi)) s₀ s)
    (hs : s.isFull = true) : s₀.isFull = true := by
  rcases Relation.ReflTransGen.cases_head hr with rfl | ⟨t, hround, -⟩
  · exact hs
  · exact hround.1

/-- A pool whose every buffer is in use, by pieces that fit the capacity, has a buffer for
each piece. -/
theorem fits_of_full {info : TorrentInfo} {s : MemoryStorage σ} (hw : WellFormed info s)
    {n : ℤ} (hn : s.bufferSize ≤ n) (hfit : n * s.pieceLength ≤ s.capacity) :
    s.pieceCount * s.pieceLength ≤ s.capacity := by
  have hlen := info.pieceLength_pos
  have hsize := hw.bufferSize_eq
  rw [hw.pieceLength_eq] at hfit ⊢
  have hle : n ≤ s.capacity / info.pieceLength := by
    rw [Int.le_ediv_iff_mul_le hlen]
    exact hfit
  have hcount : s.pieceCount ≤ n := by
    rw [hw.pieceCount_eq]
    omega
  exact (mul_le_mul_of_nonneg_right hcount hlen.le).trans hfit

/-- **An eviction is needless iff the call fills the pool of a torrent that fits.** -/
theorem needlessEviction_iff {env : Env σ} {info : TorrentInfo} {h : History σ}
    {st st' : MemoryStorage σ} (hr : StorageRun env info h st) {c : Call σ} {r : Reply}
    (hs : Step env st (c, r) st') :
    NeedlessEviction env st c ↔ FillsFittingPool env st c := by
  have hw := hr.wellFormed
  have hroom := hr.ledger.room
  constructor
  · rintro ⟨bufs, p, offset, s₀, s, s', rfl, hbefore, hrounds, hround, -, hfit⟩
    obtain ⟨hws, hbal⟩ := inside_balance hr hs.1 (by simp) (.trimming hbefore hrounds)
    obtain ⟨st₁, pc, b, bf, ha, ho, h0, h1, rfl⟩ := hbefore.written hw hs.1
    obtain ⟨hw₂, hs₂⟩ := written_wellFormed hw ha ho h0 h1 bufs
    have hshape := hs₂.trans (trims_of_rounds hw₂.toLinked hrounds).1.sameShape
    -- the pool is full where the round begins
    have hfull := hround.1
    rw [isFull_eq, decide_eq_true_eq] at hfull
    rw [Balanced] at hbal
    rw [residentPieces_eq hws.toLinked] at hfit
    have hall := fits_of_full hws (by omega) hfit
    rw [hshape.pieceCount, hshape.pieceLength, hshape.capacity] at hall
    have hstart := isFull_of_rounds hrounds hround.1
    rw [isFull_eq, decide_eq_true_eq] at hstart
    rcases written_cases ha ho offset bufs with
      ⟨-, hslack, -⟩ | ⟨⟨pc₀, hp₀⟩, hn, href, hnot, hslack, -⟩
    · omega
    · refine ⟨hall, ⟨p, ⟨bufs, offset, rfl⟩, hw.piece_bounds hp₀, hn, href, hnot⟩, ?_⟩
      rw [slack] at hslack hroom hstart
      simp only [slack] at hslack
      omega
  · rintro ⟨hall, ⟨p, ⟨bufs, offset, rfl⟩, -, hn, href, hnot⟩, hslack⟩
    obtain ⟨hv, fuel, he⟩ := hs
    obtain ⟨pc, hp, h0, h1⟩ := ValidRange.exists_piece hv
    obtain ⟨⟨m, st₂⟩, hwrite, hpair⟩ := bind_eq_ok_iff.mp he
    obtain ⟨-, rfl⟩ := Prod.mk.inj (Except.ok.inj hpair)
    rcases writev_cases env hw hp h0 h1 bufs with
      ⟨-, href', -⟩ | ⟨-, -, hfull, -⟩ | ⟨st₁, pc₁, b, bf, ha, ho, hlen, hbefore, heq⟩
    · exact absurd href' href
    · exact absurd hfull hnot
    · rw [heq] at hwrite
      obtain ⟨st₃, hloop, hpair'⟩ := bind_eq_ok_iff.mp hwrite
      obtain ⟨-, rfl⟩ := Prod.mk.inj (Except.ok.inj hpair')
      obtain ⟨hrounds, hexit⟩ := WhileLoop.rounds_of_loop_eq_ok hloop
      have hstart : (st₁.written env p pc₁ b bf offset bufs).isFull = true := by
        rw [isFull_eq, decide_eq_true_eq]
        rcases written_cases ha ho offset bufs with ⟨hkept, -⟩ | ⟨-, -, -, -, hs₁, -⟩
        · exact absurd hkept hn
        · rw [hs₁, slack]
          omega
      -- the last round evicts: one that only lets time pass leaves the pool full
      rcases Relation.ReflTransGen.cases_tail hrounds with rfl | ⟨s, hrounds', hround⟩
      · rw [hstart] at hexit
        exact absurd hexit (by simp)
      · obtain ⟨hws, -⟩ := inside_balance hr hv (by simp) (.trimming hbefore hrounds')
        obtain ⟨hw₂, hs₂⟩ := written_wellFormed hw ha ho h0 (hlen ▸ h1) bufs
        have hshape := hs₂.trans (trims_of_rounds hw₂.toLinked hrounds').1.sameShape
        obtain ⟨t, ht, hrel⟩ := trimBody_cases env hws.toLinked p
        have hbody := hround.2
        rw [ht] at hbody
        obtain rfl := Except.ok.inj hbody
        refine ⟨bufs, p, offset, _, s, t, rfl, hbefore, hrounds', hround, ?_, ?_⟩
        · rcases hrel.cases with rfl | ⟨n, v, vc, d, df, hv', -, -, rfl⟩
          · have hsame : (s.wait 2).isFull = s.isFull := rfl
            rw [hsame, hround.1] at hexit
            exact absurd hexit (by simp)
          · refine ⟨v, ⟨vc, hv'.piece, ?_⟩, ?_⟩
            · rw [hv'.bi]
              exact (linked_wait hws.toLinked n).bi_ne hv'
            · rw [resident_evict (linked_wait hws.toLinked n) hv']
              exact fun hboth => hboth.2 rfl
        · rw [residentPieces_eq hws.toLinked, hshape.capacity]
          have hused := used_add_free hws.toLinked
          have hsize := hws.bufferSize_bounds.2
          have hlen' : 0 ≤ s.pieceLength := by
            rw [hws.pieceLength_eq]
            exact info.pieceLength_pos.le
          have hcount : (usedBuffers s : ℤ) ≤ s.pieceCount := by omega
          calc (usedBuffers s : ℤ) * s.pieceLength
              ≤ s.pieceCount * s.pieceLength := mul_le_mul_of_nonneg_right hcount hlen'
            _ = st.pieceCount * st.pieceLength := by rw [hshape.pieceCount, hshape.pieceLength]
            _ ≤ st.capacity := hall

/-- **No eviction of a run is needless iff no call fills the pool of a torrent that fits.** -/
theorem no_needless_eviction_iff {env : Env σ} {info : TorrentInfo} {h : History σ}
    {st : MemoryStorage σ} (hr : StorageRun env info h st) :
    (∀ e ∈ h, ¬NeedlessEviction env e.before e.label.1) ↔
      ∀ e ∈ h, ¬FillsFittingPool env e.before e.label.1 := by
  apply forall₂_congr
  intro e he
  obtain ⟨⟨h', hr'⟩, hs⟩ := hr.step_of_mem he
  rw [needlessEviction_iff hr' hs]

/-- Two pieces of four bytes in eight bytes of memory. -/
theorem no_needless_eviction_iff_two_pieces :
    ∃ h st, playNew ticking 3 (quads 1) 8 () [.writev [[1, 2, 3, 4]] 0 0, .readv [[0]] 0 0]
        = some (h, st) ∧
      ((∀ e ∈ h, ¬NeedlessEviction ticking e.before e.label.1) ↔
        ∀ e ∈ h, ¬FillsFittingPool ticking e.before e.label.1) := by
  have hplay : playNew ticking 3 (quads 1) 8 () [.writev [[1, 2, 3, 4]] 0 0, .readv [[0]] 0 0]
      = some (_, _) := rfl
  exact ⟨_, _, hplay, no_needless_eviction_iff (playNew_run (by decide) hplay)⟩

/-- A torrent that fits its memory size loses the first piece when the second is written. -/
theorem fitting_torrent_loses_piece :
    ∃ h st, playNew ticking 3 (quads 1) 8 ()
        [.writev [[1, 2, 3, 4]] 0 0, .writev [[5, 6, 7, 8]] 1 0] = some (h, st) ∧
      st.pieceCount * st.pieceLength ≤ st.capacity ∧ ¬Resident st 0 ∧
      ∃ e ∈ h, NeedlessEviction ticking e.before e.label.1 := by
  have hplay : playNew ticking 3 (quads 1) 8 ()
      [.writev [[1, 2, 3, 4]] 0 0, .writev [[5, 6, 7, 8]] 1 0] = some (_, _) := rfl
  have hr := playNew_run (by decide) hplay
  obtain ⟨⟨h', hr'⟩, hs⟩ := hr.step_of_mem List.mem_cons_self
  refine ⟨_, _, hplay, by decide, by decide, _, List.mem_cons_self, ?_⟩
  refine (needlessEviction_iff hr' hs).mpr ⟨by decide, ⟨1, ⟨_, _, rfl⟩, by decide, by decide,
    by decide, ?_⟩, by decide⟩
  rw [poolFull_iff]
  decide

end Libtorrent
