/-
# What a call leaves alone

A call concerns the piece it names, and through `trim` the pieces it evicts; every other
piece keeps its record and its buffer (`Effect.untouched`).
-/
import LibtorrentGo.Eviction

open Splice Subscript

namespace Libtorrent

open MemoryStorage

variable {σ : Type}

/-! ## Untouched pieces -/

/-- Piece `q` has the record and the buffer it had. -/
structure Untouched (st st' : MemoryStorage σ) (q : ℤ) : Prop where
  piece : at? st'.pieces q = at? st.pieces q
  buffer : bufferOf st' q = bufferOf st q

namespace Untouched

variable {env : Env σ} {st : MemoryStorage σ} {q : ℤ}

theorem refl (st : MemoryStorage σ) (q : ℤ) : Untouched st st q := ⟨rfl, rfl⟩

theorem trans {s₁ s₂ s₃ : MemoryStorage σ} (h : Untouched s₁ s₂ q) (h' : Untouched s₂ s₃ q) :
    Untouched s₁ s₃ q :=
  ⟨h'.piece.trans h.piece, h'.buffer.trans h.buffer⟩

/-- What is neither a piece nor a buffer does not matter. -/
theorem of_eq {st' : MemoryStorage σ} (hp : st'.pieces = st.pieces)
    (hb : st'.buffers = st.buffers) : Untouched st st' q := by
  constructor
  · rw [hp]
  · unfold bufferOf
    rw [hp, hb]

/-- An untouched piece is where it was. -/
theorem resident_iff {st' : MemoryStorage σ} (h : Untouched st st' q) :
    Resident st' q ↔ Resident st q := by
  unfold Resident
  rw [h.piece]

/-- Placing a piece touches no other. -/
theorem place (h : Linked st) {p b : ℤ} {pc : MemoryPiece} {bf : MemoryBuffer}
    (hp : at? st.pieces p = some pc) (hpb : pc.bi = -1) (hb : at? st.buffers b = some bf)
    (hu : bf.isUsed = false) (reserved : Bool) (hq : q ≠ p) :
    Untouched st (st.place env p pc b bf reserved) q := by
  constructor
  · exact at?_put_ne hq.symm _
  · rw [bufferOf_place h hp hpb hb hu, if_neg hq]

/-- Storing bytes touches no other piece. -/
theorem store (h : Linked st) {p b : ℤ} {pc : MemoryPiece} {bf : MemoryBuffer}
    (ho : Owns st p pc b bf) (off : ℕ) (bytes : List Byte) (hq : q ≠ p) :
    Untouched st (st.store env p pc b bf off bytes) q := by
  constructor
  · exact at?_put_ne hq.symm _
  · rw [bufferOf_store h ho, if_neg hq]

/-- Reading touches no other piece. -/
theorem touch (h : Linked st) {p b : ℤ} {pc : MemoryPiece} {bf : MemoryBuffer}
    (ho : Owns st p pc b bf) (upTo : ℤ) (hq : q ≠ p) :
    Untouched st (st.touch env p pc b bf upTo) q := by
  constructor
  · exact at?_put_ne hq.symm _
  · rw [bufferOf_touch h ho, if_neg hq]

/-- Evicting a piece touches no other. -/
theorem evict (h : Linked st) {p b : ℤ} {pc : MemoryPiece} {bf : MemoryBuffer}
    (ho : Owns st p pc b bf) (hq : q ≠ p) : Untouched st (st.evict env p pc b bf) q := by
  constructor
  · exact at?_put_ne hq.symm _
  · rw [bufferOf_evict h ho, if_neg hq]

end Untouched

/-! ## Calls -/

/-- The call ended the residency of a piece that was not reserved. -/
def Dropped (st st' : MemoryStorage σ) (q : ℤ) : Prop :=
  Resident st q ∧ ¬Resident st' q ∧ ¬st.Reserved q

/-- **`trim(pi)` touches nobody but the pieces it evicts**, which are not reserved and not
`pi`. -/
theorem MemoryStorage.Trims.untouched {env : Env σ} {pi : ℤ} {info : TorrentInfo}
    {st st' : MemoryStorage σ} (ht : Trims env pi st st') (hw : WellFormed info st) (q : ℤ) :
    Untouched st st' q ∨ (Dropped st st' q ∧ q ≠ pi) := by
  have hinv := ht.rule (I := fun s => s.reservedPieces = st.reservedPieces ∧
    (Untouched st s q ∨ (Dropped st s q ∧ q ≠ pi))) ?_ hw ⟨rfl, Or.inl (.refl st q)⟩
  · exact hinv.2.2
  · rintro s s' hs ⟨hreserved, hq⟩ - hround
    refine ⟨hround.sameShape.reserved.trans hreserved, ?_⟩
    rcases hround.cases with rfl | ⟨n, v, pc, b, bf, ho, hres, hne, rfl⟩
    · rcases hq with hsame | hgone
      · exact Or.inl (hsame.trans (.of_eq rfl rfl))
      · exact Or.inr hgone
    · have hl := linked_wait hs.toLinked n
      by_cases hqv : q = v
      · -- the victim of this round was resident until now, so it was untouched
        subst hqv
        right
        have hr : Resident s q := ho.resident hl
        refine ⟨⟨?_, ?_, ?_⟩, hne⟩
        · rcases hq with hsame | hgone
          · exact hsame.resident_iff.mp hr
          · exact absurd hr hgone.1.2.1
        · rw [resident_evict hl ho]
          exact fun hboth => hboth.2 rfl
        · rw [Reserved, ← hreserved]
          exact hres
      · have hwait : Untouched s (s.wait n) q := .of_eq rfl rfl
        have hstep : Untouched s ((s.wait n).evict env v pc b bf) q :=
          hwait.trans (.evict hl ho hqv)
        rcases hq with hsame | ⟨⟨hr, hgone, hfree⟩, hne'⟩
        · exact Or.inl (hsame.trans hstep)
        · right
          refine ⟨⟨hr, ?_, hfree⟩, hne'⟩
          rw [hstep.resident_iff]
          exact hgone

/-- The piece a transfer is about. -/
def Call.piece? : Call σ → Option ℤ
  | .writev _ piece _ => some piece
  | .readv _ piece _ => some piece
  | .read _ _ piece _ => some piece
  | _ => none

/-- Until it trims, a `writev` touches its own piece only. -/
theorem untouched_written {env : Env σ} {info : TorrentInfo} {st st₁ : MemoryStorage σ}
    {p b : ℤ} {pc : MemoryPiece} {bf : MemoryBuffer} (hw : WellFormed info st)
    (ha : Acquired env st p st₁) (ho : Owns st₁ p pc b bf) (offset : ℤ)
    (bufs : List (List Byte)) {q : ℤ} (hq : q ≠ p) :
    Untouched st (st₁.written env p pc b bf offset bufs) q := by
  obtain ⟨hw₁, -⟩ := ha.wellFormed hw
  have hstore : Untouched st₁ (st₁.written env p pc b bf offset bufs) q :=
    .store hw₁.toLinked ho _ _ hq
  cases ha with
  | kept _ => exact hstore
  | placed hp hb _ hfree =>
      exact (Untouched.place hw.toLinked hp hb hfree.buffer hfree.free _ hq).trans hstore

/-- **A call touches only the piece it is about and the pieces it evicts**, which are not
reserved. -/
theorem Effect.untouched {env : Env σ} {info : TorrentInfo} {st st' : MemoryStorage σ}
    {c : Call σ} {r : Reply} (he : Effect env st c r st') (hw : WellFormed info st) {q : ℤ}
    (hq : c.piece? ≠ some q) : Untouched st st' q ∨ Dropped st st' q := by
  have other : ∀ {p : ℤ}, (some p : Option ℤ) ≠ some q → q ≠ p :=
    fun hne heq => hne (congrArg some heq.symm)
  cases he with
  | @accepted bufs p offset _ _ _ _ _ ha ho h0 h1 ht _ =>
      obtain ⟨hw₂, hs₂⟩ := written_wellFormed hw ha ho h0 h1 bufs
      have hbefore := untouched_written hw ha ho offset bufs (other hq)
      rcases ht.untouched hw₂ q with hsame | ⟨⟨hr, hgone, hfree⟩, -⟩
      · exact Or.inl (hbefore.trans hsame)
      · right
        refine ⟨hbefore.resident_iff.mp hr, hgone, ?_⟩
        rw [← hs₂.reserved_iff]
        exact hfree
  | scattered ho _ _ => exact Or.inl (.touch hw.toLinked ho _ (other hq))
  | copied ho _ _ _ _ =>
      left
      have hread : Untouched st ({ st with isReading := true } : MemoryStorage σ) q :=
        .of_eq rfl rfl
      exact hread.trans (.touch (hw.withTorrent st.torrent st.mHandle st.t true).toLinked
        (ho.frame rfl rfl) _ (other hq))
  | grown _ _ => exact Or.inl ⟨rfl, bufferOf_grow hw.toLinked _ _ q⟩
  | _ => exact Or.inl (.of_eq rfl rfl)

end Libtorrent
