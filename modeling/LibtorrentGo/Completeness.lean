/-
# When `read` takes a piece for complete

`read` tests `pieces[p].size < pieces[p].length`, where `size` is the number of bytes
stored since the piece acquired its buffer.  A byte that is stored for another time is
counted for another time, so the test passes as soon as the repeated bytes make up for
the missing ones (`passes_iff`).  Hence it says that the whole piece was stored exactly
in the runs that do not get so far (`completeness_test_iff`).

The count is kept in an `int`.  From `2 ^ 31` bytes on it is the number they wrap around
to that is compared with the length.
-/
import LibtorrentGo.Contents

open MachineInt Subscript Tenancy

namespace Libtorrent

open MemoryStorage

variable {σ : Type}

/-! ## The test -/

/-- The number of offsets of piece `p` that were not stored to since it acquired a buffer. -/
def missing (es : List (Event ℤ Byte)) (p length : ℤ) : ℕ :=
  (Finset.range length.toNat \ covered es p).card

/-- Nothing is missing when every byte was stored. -/
theorem missing_eq_zero_iff (es : List (Event ℤ Byte)) (p length : ℤ) :
    missing es p length = 0 ↔ ∀ o < length.toNat, (latest es p o).isSome = true := by
  rw [missing, Finset.card_eq_zero, Finset.sdiff_eq_empty_iff_subset]
  constructor
  · intro hsub o ho
    exact (mem_covered_iff es p o).mp (hsub (Finset.mem_range.mpr ho))
  · intro hall o ho
    exact (mem_covered_iff es p o).mpr (hall o (Finset.mem_range.mp ho))

/-- The `int` that `read` compares with the length counts the bytes stored. -/
theorem Simulates.intSize_eq {st : MemoryStorage σ} {es : List (Event ℤ Byte)}
    (hs : Simulates st es) {p : ℤ} {pc : MemoryPiece} (hp : at? st.pieces p = some pc)
    (hb : pc.bi ≠ -1) : pc.intSize = toInt (total es p) := by
  rw [MemoryPiece.intSize, hs.size p pc hp hb]

/-- What is missing of a piece and what was repeated add up to its length and the count. -/
theorem missing_add_total {st : MemoryStorage σ} {es : List (Event ℤ Byte)}
    (hs : Simulates st es) {p : ℤ} {pc : MemoryPiece} (hp : at? st.pieces p = some pc)
    (hb : pc.bi ≠ -1) :
    missing es p pc.length + total es p = pc.length.toNat + repeats es p := by
  have hsub : covered es p ⊆ Finset.range pc.length.toNat := by
    intro o ho
    exact Finset.mem_range.mpr (hs.within p pc hp hb o ho)
  have hparts : missing es p pc.length + (covered es p).card = pc.length.toNat := by
    rw [missing, Finset.card_sdiff_add_card_eq_card hsub, Finset.card_range]
  have htotal := total_eq es p
  omega

/-- **The test passes when as many bytes were repeated as are missing**, as long as the count
fits an `int`. -/
theorem passes_iff {st : MemoryStorage σ} {es : List (Event ℤ Byte)} (hs : Simulates st es)
    {p : ℤ} {pc : MemoryPiece} (hp : at? st.pieces p = some pc) (hb : pc.bi ≠ -1)
    (h0 : 0 ≤ pc.length) (hfits : (total es p : ℤ) ≤ intMax) :
    pc.length ≤ pc.intSize ↔ missing es p pc.length ≤ repeats es p := by
  have hparts := missing_add_total hs hp hb
  have hmin : intMin ≤ (total es p : ℤ) := le_trans (by decide) (Int.natCast_nonneg _)
  rw [hs.intSize_eq hp hb, toInt_of_range hmin hfits]
  omega

/-- `read` returns -1 unless the piece is resident and passes the test. -/
theorem read_ne_neg_one_iff (env : Env σ) {info : TorrentInfo} {st : MemoryStorage σ}
    (hw : WellFormed info st) {p : ℤ} {pc : MemoryPiece} (hp : at? st.pieces p = some pc)
    (readBuf : List Byte) (size offset : ℤ) :
    (∀ out st', read env st readBuf size p offset ≠ .ok (-1, out, st')) ↔
      pc.bi ≠ -1 ∧ pc.length ≤ pc.intSize := by
  constructor
  · intro hread
    by_contra hnot
    refine hread _ _ (read_of_incomplete env hw.toLinked hp ?_ readBuf size offset)
    by_cases hb : pc.bi = -1
    · exact Or.inl hb
    · exact Or.inr (not_le.mp fun hle => hnot ⟨hb, hle⟩)
  · rintro ⟨hb, hle⟩ out st' hread
    obtain ⟨bf, ho⟩ := hw.owns_of_piece hp hb
    rw [read_of_complete env hw.toLinked ho hle] at hread
    simp only at hread
    split at hread
    · exact absurd (Prod.mk.inj (Except.ok.inj hread)).1 (by decide)
    · rename_i havail
      obtain ⟨bytes, hcopy, hret⟩ := bind_eq_ok_iff.mp hread
      obtain ⟨rfl, -⟩ := Prod.mk.inj (Except.ok.inj hret)
      -- a copy of -1 bytes is out of range
      rw [if_pos (by omega), memcpy, if_neg (by omega)] at hcopy
      exact absurd hcopy (by simp)

/-! ## The runs -/

/-- What was stored for piece `p` since it acquired its buffer does not mislead the test.  Up
to the largest `int`, fewer bytes were stored to offsets stored to before than offsets are
missing, unless none is missing at all; beyond it, the number they wrap around to reaches
the length if none is missing, and only then. -/
def CountsRight (es : List (Event ℤ Byte)) (p length : ℤ) : Prop :=
  ((total es p : ℤ) ≤ intMax ∧ (missing es p length = 0 ∨ repeats es p < missing es p length)) ∨
  (intMax < (total es p : ℤ) ∧ (missing es p length = 0 ↔ length ≤ toInt (total es p)))

/-- Then the test tells whether anything is missing, and only then. -/
theorem countsRight_iff {st : MemoryStorage σ} {es : List (Event ℤ Byte)} (hs : Simulates st es)
    {p : ℤ} {pc : MemoryPiece} (hp : at? st.pieces p = some pc) (hb : pc.bi ≠ -1)
    (h0 : 0 ≤ pc.length) :
    CountsRight es p pc.length ↔ (pc.length ≤ pc.intSize ↔ missing es p pc.length = 0) := by
  rw [CountsRight]
  rcases le_or_gt (total es p : ℤ) intMax with hfits | hwraps
  · rw [passes_iff hs hp hb h0 hfits]
    omega
  · rw [hs.intSize_eq hp hb]
    simp only [hwraps, not_le.mpr hwraps, false_and, true_and, false_or]
    exact iff_comm

/-- **`read` fails exactly when the piece is not there in full** in the runs whose count of the
piece is right. -/
theorem completeness_test_iff {env : Env σ} {info : TorrentInfo} {h : History σ}
    {st : MemoryStorage σ} (hr : StorageRun env info h st) {p : ℤ} {pc : MemoryPiece}
    (hp : at? st.pieces p = some pc) (readBuf : List Byte) (size offset : ℤ) :
    ((∀ out st', read env st readBuf size p offset ≠ .ok (-1, out, st')) ↔
      Resident st p ∧ ∀ o < pc.length.toNat, (latest (events h) p o).isSome = true) ↔
    (¬Resident st p ∨ CountsRight (events h) p pc.length) := by
  have hw := hr.wellFormed
  rw [read_ne_neg_one_iff env hw hp, ← missing_eq_zero_iff]
  by_cases hb : pc.bi = -1
  · have hres : ¬Resident st p := (not_resident_iff hp).mpr hb
    constructor
    · exact fun _ => Or.inl hres
    · exact fun _ => ⟨fun hread => absurd hb hread.1, fun hall => absurd hall.1 hres⟩
  · have hres : Resident st p := ⟨pc, hp, hb⟩
    obtain ⟨bf, ho⟩ := hw.owns_of_piece hp hb
    obtain ⟨hpos, -, -⟩ := hw.piece_fits ho.piece ho.buffer
    rw [countsRight_iff hr.simulates hp hb (by omega)]
    constructor
    · intro hiff
      exact Or.inr ⟨fun hle => (hiff.mp ⟨hb, hle⟩).2, fun hzero => (hiff.mpr ⟨hres, hzero⟩).2⟩
    · rintro (hnot | hright)
      · exact absurd hres hnot
      · exact ⟨fun hread => ⟨hres, hright.mp hread.2⟩, fun hall => ⟨hb, hright.mpr hall.2⟩⟩

/-- A piece in two blocks, of which the first is delivered again at once. -/
theorem completeness_test_iff_blocks :
    ∃ h st pc, playNew ticking 3 (quads 9) 0 () [.writev [[1, 2]] 0 0, .writev [[1]] 0 0,
        .writev [[3, 4]] 0 2] = some (h, st) ∧ at? st.pieces 0 = some pc ∧
      (((∀ out st', read ticking st [0, 0, 0, 0] 4 0 0 ≠ .ok (-1, out, st')) ↔
        Resident st 0 ∧ ∀ o < pc.length.toNat, (latest (events h) 0 o).isSome = true) ↔
      (¬Resident st 0 ∨ CountsRight (events h) 0 pc.length)) := by
  have hplay : playNew ticking 3 (quads 9) 0 () [.writev [[1, 2]] 0 0, .writev [[1]] 0 0,
      .writev [[3, 4]] 0 2] = some (_, _) := rfl
  exact ⟨_, _, _, hplay, rfl, completeness_test_iff (playNew_run (by decide) hplay) rfl _ _ _⟩

/-- When the first of two blocks is delivered twice, `read` takes the piece for complete and
copies zeros for the second. -/
theorem repeated_block_passes :
    ∃ h st, playNew ticking 3 (quads 9) 0 () [.writev [[1, 2]] 0 0, .writev [[1, 2]] 0 0]
        = some (h, st) ∧ StorageRun ticking (quads 9) h st ∧
      (read ticking st [9, 9, 9, 9] 4 0 0).map (fun v => (v.1, v.2.1)) = .ok (4, [1, 2, 0, 0]) ∧
      latest (events h) 0 2 = none ∧ latest (events h) 0 3 = none ∧
      ¬((∀ out st', read ticking st [9, 9, 9, 9] 4 0 0 ≠ .ok (-1, out, st')) ↔
        Resident st 0 ∧ ∀ o < 4, (latest (events h) 0 o).isSome = true) := by
  have hplay : playNew ticking 3 (quads 9) 0 () [.writev [[1, 2]] 0 0, .writev [[1, 2]] 0 0]
      = some (_, _) := rfl
  have hr := playNew_run (by decide) hplay
  refine ⟨_, _, hplay, hr, by decide, by decide, by decide, ?_⟩
  intro hiff
  refine absurd ((hiff.mp ?_).2 2 (by decide)) (by decide)
  intro out st' hread
  have hret := congrArg (Except.map fun v => (v.1, v.2.1)) hread
  exact absurd (hret.symm.trans (by decide : _ = .ok (4, [1, 2, 0, 0]))) (by simp [Except.map])

end Libtorrent
