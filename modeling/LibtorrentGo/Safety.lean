/-
# The links of a run

In every state a run reaches, pieces and buffers are linked by a partial bijection
(`PartialBijection`), and no valid call subscripts an array or copies a range outside
it (`InRange`).
-/
import LibtorrentGo.Ledger
import LibtorrentGo.Replay

open Subscript

namespace Libtorrent

open MemoryStorage

variable {σ : Type}

/-- Pieces and buffers are linked by a partial bijection. -/
structure PartialBijection (st : MemoryStorage σ) : Prop where
  piece_index : ∀ p pc, at? st.pieces p = some pc → pc.index = p
  buffer_index : ∀ b bf, at? st.buffers b = some bf → bf.index = b
  pool : (st.buffers.length : ℤ) = st.bufferSize ∧ st.bufferSize ≤ st.pieceCount
  link : ∀ p pc b, at? st.pieces p = some pc → (pc.bi = b ∧ b ≠ -1 ↔
    0 ≤ b ∧ b < st.buffers.length ∧
      ∃ bf, at? st.buffers b = some bf ∧ bf.isUsed = true ∧ bf.pi = p)
  unused_blank : ∀ b bf, at? st.buffers b = some bf → bf.isUsed = false →
    bf.pi = -1 ∧ ∀ x ∈ bf.buffer, x = 0
  unbuffered_empty : ∀ p pc, at? st.pieces p = some pc → pc.bi = -1 → pc.size = 0
  not_shared : ∀ p q pc qc, at? st.pieces p = some pc → at? st.pieces q = some qc →
    pc.bi ≠ -1 → pc.bi = qc.bi → p = q
  not_two : ∀ b c bf cf, at? st.buffers b = some bf → at? st.buffers c = some cf →
    bf.isUsed = true → cf.isUsed = true → bf.pi = cf.pi → b = c

/-- No valid call leaves an array. -/
def InRange (env : Env σ) (st : MemoryStorage σ) : Prop :=
  ∀ (c : Call σ) (fuel : ℕ), c.Valid st → exec env fuel st c ≠ .error .outOfRange

/-- A well-formed storage whose free buffers are blank is linked by a partial bijection. -/
theorem WellFormed.partialBijection {info : TorrentInfo} {st : MemoryStorage σ}
    (h : WellFormed info st) (hblank : Blank st) : PartialBijection st where
  piece_index := fun _ _ => h.piece_index
  buffer_index := fun _ _ => h.buffer_index
  pool := ⟨h.buffers_length, h.bufferSize_bounds.2⟩
  link := by
    intro p pc b hp
    constructor
    · rintro ⟨rfl, hb⟩
      obtain ⟨bf, ho⟩ := h.owns_of_piece hp hb
      have hbounds := at?_eq_some_bounds ho.buffer
      exact ⟨hbounds.1, hbounds.2, bf, ho.buffer, ho.used, ho.pi⟩
    · rintro ⟨h0, -, bf, hbf, hu, rfl⟩
      obtain ⟨pc', hp', hbi⟩ := h.buffer_link hbf hu
      rw [hp] at hp'
      obtain rfl := Option.some.inj hp'
      exact ⟨hbi, by omega⟩
  unused_blank := by
    intro b bf hb hu
    refine ⟨h.buffer_unnamed hb hu, ?_⟩
    intro x hx
    rw [hblank hb hu] at hx
    exact List.eq_of_mem_replicate hx
  unbuffered_empty := fun _ _ => h.piece_blank
  not_shared := by
    intro p q pc qc hp hq hb heq
    obtain ⟨bf, hbf, -, hpi⟩ := h.piece_link hp hb
    rw [heq] at hb hbf
    obtain ⟨cf, hcf, -, hqi⟩ := h.piece_link hq hb
    rw [hbf] at hcf
    obtain rfl := Option.some.inj hcf
    rw [← hpi, hqi]
  not_two := fun _ _ _ _ hb hc hu hu' hpi => h.buffer_unique hb hc hu hu' hpi

/-- A pool size is a number or the conversion fails. -/
theorem poolSize_ne_outOfRange (capacity pieceLength pieceCount : ℤ) :
    poolSize capacity pieceLength pieceCount ≠ .error .outOfRange := by
  unfold poolSize bufferCount
  cases MachineInt.doubleToInt _ <;> simp

/-- **The `while` of `trim` stays in range**, however long it runs. -/
theorem loop_ne_outOfRange (env : Env σ) (pi : ℤ) {st : MemoryStorage σ} (h : Linked st)
    (fuel : ℕ) :
    WhileLoop.loop isFull (trimBody env pi) .outOfFuel fuel st ≠ .error .outOfRange := by
  refine WhileLoop.loop_ne_error (I := Linked) (by decide) ?_ ?_ h
  · intro s s' hs hround
    obtain ⟨t, ht, hrel⟩ := trimBody_cases env hs pi
    have hbody := hround.2
    rw [ht] at hbody
    obtain rfl := Except.ok.inj hbody
    exact hrel.linked hs
  · intro s hs _
    obtain ⟨t, ht, -⟩ := trimBody_cases env hs pi
    simp [ht]

/-- **A valid `writev` stays in range.** -/
theorem writev_ne_outOfRange (env : Env σ) {info : TorrentInfo} {st : MemoryStorage σ}
    (h : WellFormed info st) {p offset : ℤ} (hv : ValidRange st p offset)
    (bufs : List (List Byte)) (fuel : ℕ) :
    writev env fuel st bufs p offset ≠ .error .outOfRange := by
  obtain ⟨pc, hp, h0, h1⟩ := hv.exists_piece
  rcases writev_cases env h hp h0 h1 bufs with
    ⟨-, -, heq⟩ | ⟨-, -, -, heq⟩ | ⟨st₁, pc₁, b, bf, ha, ho, hlen, -, heq⟩
  · simp [heq]
  · simp [heq]
  · have hl := (written_wellFormed h ha ho h0 (hlen ▸ h1) bufs).1.toLinked
    have hne := loop_ne_outOfRange env p hl fuel
    rw [heq]
    cases hloop : WhileLoop.loop isFull (trimBody env p) .outOfFuel fuel
        (st₁.written env p pc₁ b bf offset bufs) with
    | ok s => simp
    | error e =>
        rw [hloop] at hne
        simpa using hne

/-- **A valid `readv` stays in range**, and returns. -/
theorem readv_returns (env : Env σ) {info : TorrentInfo} {st : MemoryStorage σ}
    (h : WellFormed info st) {p offset : ℤ} (hv : ValidRange st p offset)
    (bufs : List (List Byte)) : ∃ r, readv env st bufs p offset = .ok r := by
  obtain ⟨pc, hp, h0, h1⟩ := hv.exists_piece
  by_cases hb : pc.bi = -1
  · exact ⟨_, readv_of_not_resident env h.toLinked hp hb bufs offset⟩
  · obtain ⟨bf, ho⟩ := h.owns_of_piece hp hb
    obtain ⟨-, hfit, hint⟩ := h.piece_fits ho.piece ho.buffer
    exact ⟨_, readv_of_owns env h.toLinked ho bufs h0 (by omega) hint⟩

/-- **A valid `read` stays in range**, and returns. -/
theorem read_returns (env : Env σ) {info : TorrentInfo} {st : MemoryStorage σ}
    (h : WellFormed info st) {p size offset : ℤ} {readBuf : List Byte}
    (hv : ValidRange st p offset) (hs : 0 ≤ size) (hs' : size ≤ readBuf.length) :
    ∃ r, read env st readBuf size p offset = .ok r := by
  obtain ⟨pc, hp, h0, h1⟩ := hv.exists_piece
  by_cases hinc : pc.bi = -1 ∨ pc.intSize < pc.length
  · exact ⟨_, read_of_incomplete env h.toLinked hp hinc readBuf size offset⟩
  · obtain ⟨hb, hc⟩ := not_or.mp hinc
    obtain ⟨bf, ho⟩ := h.owns_of_piece hp hb
    obtain ⟨-, hfit, hint⟩ := h.piece_fits ho.piece ho.buffer
    rw [read_in_range env h.toLinked ho (not_lt.mp hc) hs hs' h0 (by omega) hint]
    split <;> exact ⟨_, rfl⟩

/-- **A well-formed storage stays in range.** -/
theorem WellFormed.inRange {env : Env σ} {info : TorrentInfo} {st : MemoryStorage σ}
    (h : WellFormed info st) : InRange env st := by
  intro c fuel hv
  have hinit : ¬(!st.isInitialized) = true := by simp [h.initialized]
  cases c with
  | writev bufs p offset =>
      have hne := writev_ne_outOfRange env h hv bufs fuel
      cases hw : writev env fuel st bufs p offset with
      | ok v => simp [exec, hw]
      | error e =>
          rw [hw] at hne
          simpa [exec, hw] using hne
  | readv bufs p offset =>
      obtain ⟨r, hr⟩ := readv_returns env h hv bufs
      simp [exec, hr]
  | read readBuf size p offset =>
      obtain ⟨r, hr⟩ := read_returns env h hv.1 hv.2.1 hv.2.2
      simp [exec, hr]
  | setMemorySize s =>
      by_cases hle : s ≤ st.capacity
      · simp [exec, setMemorySize_of_le hle]
      · cases hn : poolSize s st.pieceLength st.pieceCount with
        | ok n => simp [exec, setMemorySize_of_lt (not_le.mp hle) hn]
        | error e =>
            have hne := poolSize_ne_outOfRange s st.pieceLength st.pieceCount
            rw [hn] at hne
            simpa [exec, MemoryStorage.setMemorySize, hle, hn] using hne
  | updateReaderPieces pieces =>
      obtain ⟨bits, hbits, -⟩ := readerBits h hv
      simp [exec, MemoryStorage.updateReaderPieces, h.initialized, hbits]
  | updateReservedPieces pieces =>
      obtain ⟨bits, hbits, -⟩ := reservedBits h hv
      simp [exec, MemoryStorage.updateReservedPieces, h.initialized, hbits]
  | setTorrentHandle t => simp [exec]
  | outside torrent => simp [exec]

/-! ## Every run -/

/-- **Pieces and buffers are linked by a partial bijection in every state of a run**, and
every subscript of a valid call is in range there. -/
theorem run_partial_bijection {env : Env σ} {info : TorrentInfo} {h : History σ}
    {st : MemoryStorage σ} (hr : StorageRun env info h st) :
    PartialBijection st ∧ InRange env st :=
  ⟨hr.wellFormed.partialBijection hr.blank, hr.wellFormed.inRange⟩

/-- The state after a write that evicted a piece, and a growth. -/
theorem run_partial_bijection_grown :
    ∃ h st, playNew ticking 3 (quads 9) 0 ()
        [.writev [[1, 2]] 0 0, .writev [[3]] 1 3, .setMemorySize 8] = some (h, st) ∧
      PartialBijection st ∧ InRange ticking st := by
  have hplay : playNew ticking 3 (quads 9) 0 ()
      [.writev [[1, 2]] 0 0, .writev [[3]] 1 3, .setMemorySize 8] = some (_, _) := rfl
  exact ⟨_, _, hplay, run_partial_bijection (playNew_run (by decide) hplay)⟩

end Libtorrent
