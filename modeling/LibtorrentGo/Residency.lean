/-
# What a piece holds

`bufferOf st p` is the buffer a piece owns, if it owns one.  The four updates of linked
state change it at one piece only (`bufferOf_place`, `bufferOf_store`, `bufferOf_touch`,
`bufferOf_evict`), and so they change who is resident at one piece only.
-/
import LibtorrentGo.Calls

open Splice Subscript

namespace Libtorrent

open MemoryStorage

variable {σ : Type}

/-! ## The buffer of a piece -/

/-- The buffer piece `p` owns. -/
def bufferOf (st : MemoryStorage σ) (p : ℤ) : Option MemoryBuffer :=
  match at? st.pieces p with
  | some pc => if pc.bi = -1 then none else at? st.buffers pc.bi
  | none => none

/-- An owner's buffer. -/
theorem bufferOf_eq {st : MemoryStorage σ} (h : Linked st) {p b : ℤ} {pc : MemoryPiece}
    {bf : MemoryBuffer} (ho : Owns st p pc b bf) : bufferOf st p = some bf := by
  have hne := h.bi_ne ho
  rw [bufferOf, ho.piece]
  simp only
  rw [ho.bi, if_neg hne]
  exact ho.buffer

/-- A piece without a buffer. -/
theorem bufferOf_eq_none {st : MemoryStorage σ} {p : ℤ} {pc : MemoryPiece}
    (hp : at? st.pieces p = some pc) (hb : pc.bi = -1) : bufferOf st p = none := by
  rw [bufferOf, hp]
  exact if_pos hb

/-- A piece that holds a buffer owns it. -/
theorem owns_of_bufferOf {st : MemoryStorage σ} (h : Linked st) {p : ℤ} {bf : MemoryBuffer}
    (hb : bufferOf st p = some bf) : ∃ pc, Owns st p pc pc.bi bf := by
  unfold bufferOf at hb
  cases hp : at? st.pieces p with
  | none => simp [hp] at hb
  | some pc =>
      simp only [hp] at hb
      split at hb
      · exact absurd hb (by simp)
      · rename_i hne
        obtain ⟨cf, ho⟩ := h.owns_of_piece hp hne
        obtain rfl := ho.buffer_eq hb
        exact ⟨pc, ho⟩

/-- A piece is resident iff it holds a buffer. -/
theorem resident_iff {st : MemoryStorage σ} (h : Linked st) (p : ℤ) :
    Resident st p ↔ (bufferOf st p).isSome = true := by
  constructor
  · rintro ⟨pc, hp, hb⟩
    obtain ⟨bf, ho⟩ := h.owns_of_piece hp hb
    rw [bufferOf_eq h ho]
    rfl
  · intro hs
    obtain ⟨bf, hbf⟩ := Option.isSome_iff_exists.mp hs
    obtain ⟨pc, ho⟩ := owns_of_bufferOf h hbf
    exact ⟨pc, ho.piece, h.bi_ne ho⟩

/-- A piece is not resident iff its record names no buffer. -/
theorem not_resident_iff {st : MemoryStorage σ} {p : ℤ} {pc : MemoryPiece}
    (hp : at? st.pieces p = some pc) : ¬Resident st p ↔ pc.bi = -1 := by
  constructor
  · intro hn
    by_contra hb
    exact hn ⟨pc, hp, hb⟩
  · rintro hb ⟨pc', hp', hb'⟩
    rw [hp] at hp'
    obtain rfl := Option.some.inj hp'
    exact hb' hb

/-- A resident piece owns a buffer. -/
theorem Resident.owns {st : MemoryStorage σ} {p : ℤ} (hr : Resident st p) (h : Linked st) :
    ∃ pc bf, Owns st p pc pc.bi bf := by
  obtain ⟨pc, hp, hb⟩ := hr
  obtain ⟨bf, ho⟩ := h.owns_of_piece hp hb
  exact ⟨pc, bf, ho⟩

/-- A resident piece has a valid number. -/
theorem Resident.bounds {st : MemoryStorage σ} {p : ℤ} (hr : Resident st p) (h : Linked st) :
    0 ≤ p ∧ p < st.pieceCount := by
  obtain ⟨pc, hp, -⟩ := hr
  exact h.piece_bounds hp

/-! ## What the updates change -/

/-- Relinking a piece and a buffer changes what that piece holds. -/
theorem bufferOf_relink {st : MemoryStorage σ} (h : Linked st) {p b : ℤ} {pc : MemoryPiece}
    {bf : MemoryBuffer} (pc' : MemoryPiece) (bf' : MemoryBuffer)
    (hp : at? st.pieces p = some pc) (hb : at? st.buffers b = some bf)
    (hold : Paired p pc b bf) (hnew : Paired p pc' b bf') (q : ℤ) :
    bufferOf { st with pieces := put st.pieces p pc', buffers := put st.buffers b bf' } q =
      if q = p then (if pc'.bi = -1 then none else some bf') else bufferOf st q := by
  have hb0 := (h.buffer_bounds hb).1
  unfold bufferOf
  simp only
  rw [at?_put hp]
  by_cases hq : q = p
  · rw [if_pos hq, if_pos hq]
    simp only
    rcases hnew with ⟨hnb, -, -⟩ | ⟨hnb, -⟩
    · rw [if_neg (by omega), if_neg (by omega), hnb, at?_put_self hb]
    · rw [if_pos hnb, if_pos hnb]
  · rw [if_neg hq, if_neg hq]
    cases hqc : at? st.pieces q with
    | none => rfl
    | some qc =>
        simp only
        by_cases hqb : qc.bi = -1
        · rw [if_pos hqb, if_pos hqb]
        · rw [if_neg hqb, if_neg hqb]
          apply at?_put_ne
          -- the buffer of `q` names `q`, and `b` names `p` or nothing
          rintro rfl
          obtain ⟨cf, hcf, hcu, hcpi⟩ := h.piece_link hqc hqb
          rw [hb] at hcf
          obtain rfl := Option.some.inj hcf
          rcases hold with ⟨-, -, hbp⟩ | ⟨-, -, hbu, -⟩
          · exact hq (by rw [← hcpi, hbp])
          · rw [hbu] at hcu
            exact absurd hcu (by simp)

/-- Placing a piece gives it a buffer. -/
theorem bufferOf_place {env : Env σ} {st : MemoryStorage σ} (h : Linked st) {p b : ℤ}
    {pc : MemoryPiece} {bf : MemoryBuffer} (hp : at? st.pieces p = some pc) (hpb : pc.bi = -1)
    (hb : at? st.buffers b = some bf) (hu : bf.isUsed = false) (reserved : Bool) (q : ℤ) :
    bufferOf (st.place env p pc b bf reserved) q =
      if q = p then
        some { bf with isUsed := true, pi := p, accessed := some (env.clock st.ticks) }
      else bufferOf st q := by
  have hb0 := (h.buffer_bounds hb).1
  have hrel := bufferOf_relink h { pc with bi := b }
    { bf with isUsed := true, pi := p, accessed := some (env.clock st.ticks) } hp hb
    (h.paired_of_free hp hpb hb hu) (Or.inl ⟨rfl, rfl, rfl⟩) q
  rw [if_neg (show ¬({ pc with bi := b } : MemoryPiece).bi = -1 by simp only; omega)] at hrel
  exact hrel

/-- Storing bytes changes the buffer of their piece. -/
theorem bufferOf_store {env : Env σ} {st : MemoryStorage σ} (h : Linked st) {p b : ℤ}
    {pc : MemoryPiece} {bf : MemoryBuffer} (ho : Owns st p pc b bf) (off : ℕ)
    (bytes : List Byte) (q : ℤ) :
    bufferOf (st.store env p pc b bf off bytes) q =
      if q = p then
        some { bf with
          buffer := splice bf.buffer off bytes
          accessed := some (env.clock st.ticks) }
      else bufferOf st q := by
  have hne := h.bi_ne ho
  have hrel := bufferOf_relink h { pc with size := pc.size + bytes.length }
    { bf with buffer := splice bf.buffer off bytes, accessed := some (env.clock st.ticks) }
    ho.piece ho.buffer (Linked.paired_of_owns ho) (Or.inl ⟨ho.bi, ho.used, ho.pi⟩) q
  rw [if_neg (show ¬({ pc with size := pc.size + bytes.length } : MemoryPiece).bi = -1 by
    rw [← ho.bi] at hne; exact hne)] at hrel
  exact hrel

/-- Reading a piece changes the access time of its buffer. -/
theorem bufferOf_touch {env : Env σ} {st : MemoryStorage σ} (h : Linked st) {p b : ℤ}
    {pc : MemoryPiece} {bf : MemoryBuffer} (ho : Owns st p pc b bf) (upTo q : ℤ) :
    bufferOf (st.touch env p pc b bf upTo) q =
      if q = p then some { bf with accessed := some (env.clock st.ticks) }
      else bufferOf st q := by
  have hne := h.bi_ne ho
  have hbi : (if pc.isCompleted && upTo ≥ pc.intSize then { pc with isRead := true } else pc).bi
      = b := by
    split <;> exact ho.bi
  have hrel := bufferOf_relink h
    (if pc.isCompleted && upTo ≥ pc.intSize then { pc with isRead := true } else pc)
    { bf with accessed := some (env.clock st.ticks) }
    ho.piece ho.buffer (Linked.paired_of_owns ho) (Or.inl ⟨hbi, ho.used, ho.pi⟩) q
  rw [hbi, if_neg hne] at hrel
  exact hrel

/-- Evicting a piece takes its buffer away. -/
theorem bufferOf_evict {env : Env σ} {st : MemoryStorage σ} (h : Linked st) {p b : ℤ}
    {pc : MemoryPiece} {bf : MemoryBuffer} (ho : Owns st p pc b bf) (q : ℤ) :
    bufferOf (st.evict env p pc b bf) q = if q = p then none else bufferOf st q := by
  have hrel := bufferOf_relink h pc.reset (bf.reset (env.clock st.ticks)) ho.piece ho.buffer
    (Linked.paired_of_owns ho) (Or.inr ⟨rfl, rfl, rfl, rfl⟩) q
  exact hrel

/-- A growth leaves every piece its buffer. -/
theorem bufferOf_grow {st : MemoryStorage σ} (h : Linked st) (s n p : ℤ) :
    bufferOf (st.grow s n) p = bufferOf st p := by
  unfold bufferOf
  show (match at? st.pieces p with
    | some pc => if pc.bi = -1 then none else at? (st.grow s n).buffers pc.bi
    | none => none) = _
  cases hp : at? st.pieces p with
  | none => rfl
  | some pc =>
      simp only
      by_cases hb : pc.bi = -1
      · rw [if_pos hb, if_pos hb]
      · obtain ⟨bf, ho⟩ := h.owns_of_piece hp hb
        rw [if_neg hb, if_neg hb, at?_grow ho.buffer s n, ho.buffer]

/-! ## Who is resident -/

/-- Placing a piece makes it resident. -/
theorem resident_place {env : Env σ} {st : MemoryStorage σ} (h : Linked st) {p b : ℤ}
    {pc : MemoryPiece} {bf : MemoryBuffer} (hp : at? st.pieces p = some pc) (hpb : pc.bi = -1)
    (hb : at? st.buffers b = some bf) (hu : bf.isUsed = false) (reserved : Bool) (q : ℤ) :
    Resident (st.place env p pc b bf reserved) q ↔ q = p ∨ Resident st q := by
  rw [resident_iff (h.place hp hpb hb hu reserved), resident_iff h,
    bufferOf_place h hp hpb hb hu]
  by_cases hq : q = p
  · simp [hq]
  · simp [hq]

/-- Storing bytes keeps everybody where they are. -/
theorem resident_store {env : Env σ} {st : MemoryStorage σ} (h : Linked st) {p b : ℤ}
    {pc : MemoryPiece} {bf : MemoryBuffer} (ho : Owns st p pc b bf) (off : ℕ)
    (bytes : List Byte) (q : ℤ) :
    Resident (st.store env p pc b bf off bytes) q ↔ Resident st q := by
  rw [resident_iff (h.store ho off bytes), resident_iff h, bufferOf_store h ho]
  by_cases hq : q = p
  · simp [hq, bufferOf_eq h ho]
  · simp [hq]

/-- So does reading. -/
theorem resident_touch {env : Env σ} {st : MemoryStorage σ} (h : Linked st) {p b : ℤ}
    {pc : MemoryPiece} {bf : MemoryBuffer} (ho : Owns st p pc b bf) (upTo q : ℤ) :
    Resident (st.touch env p pc b bf upTo) q ↔ Resident st q := by
  rw [resident_iff (h.touch ho upTo), resident_iff h, bufferOf_touch h ho]
  by_cases hq : q = p
  · simp [hq, bufferOf_eq h ho]
  · simp [hq]

/-- Evicting a piece ends its residency, and nobody else's. -/
theorem resident_evict {env : Env σ} {st : MemoryStorage σ} (h : Linked st) {p b : ℤ}
    {pc : MemoryPiece} {bf : MemoryBuffer} (ho : Owns st p pc b bf) (q : ℤ) :
    Resident (st.evict env p pc b bf) q ↔ Resident st q ∧ q ≠ p := by
  rw [resident_iff (h.evict ho), resident_iff h, bufferOf_evict h ho]
  by_cases hq : q = p
  · simp [hq]
  · simp [hq]

namespace MemoryStorage

/-! ## Rounds of `trim`, by what they evict -/

/-- No search of a round of `trim(pi)` finds anything. -/
def NoVictim (env : Env σ) (st : MemoryStorage σ) (pi : ℤ) : Prop :=
  (st.wait 1).NoneOlder env pi true (env.clock st.ticks) ∧
    (st.wait 2).NoneOlder env pi false (env.clock (st.ticks + 1))

/-- Piece `v` is first in line for a round of `trim(pi)`: the piece of the oldest candidate
of priority 0, or of the oldest candidate at all when there is none of priority 0. -/
def NextVictim (env : Env σ) (st : MemoryStorage σ) (pi v : ℤ) : Prop :=
  ∃ b bf, bf.pi = v ∧ ((st.wait 1).Oldest env pi true (env.clock st.ticks) b bf ∨
    (st.wait 1).NoneOlder env pi true (env.clock st.ticks) ∧
      (st.wait 2).Oldest env pi false (env.clock (st.ticks + 1)) b bf)

/-- **A round of `trim(pi)`** lets time pass, or evicts the piece that is first in line,
which is not reserved and not `pi`. -/
theorem Trimmed.search {env : Env σ} {pi : ℤ} {st st' : MemoryStorage σ}
    (ht : Trimmed env pi st st') :
    (st.NoVictim env pi ∧ st' = st.wait 2) ∨
    ∃ n v pc b bf, st.NextVictim env pi v ∧ Owns (st.wait n) v pc b bf ∧ ¬st.Reserved v ∧
      v ≠ pi ∧ st' = (st.wait n).evict env v pc b bf := by
  cases ht with
  | spin hnone hnone' => exact Or.inl ⟨⟨hnone, hnone'⟩, rfl⟩
  | unread ho hold =>
      right
      obtain ⟨-, hres, hne, -⟩ := hold.candidate
      rw [ho.pi] at hres hne
      exact ⟨1, _, _, _, _, ⟨_, _, ho.pi, Or.inl hold⟩,
        ho.frame rfl rfl, hres, hne, rfl⟩
  | lru ho hnone hold =>
      right
      obtain ⟨-, hres, hne, -⟩ := hold.candidate
      rw [ho.pi] at hres hne
      exact ⟨2, _, _, _, _, ⟨_, _, ho.pi, Or.inr ⟨hnone, hold⟩⟩,
        ho.frame rfl rfl, hres, hne, rfl⟩

/-- A round of `trim(pi)` lets time pass, or evicts a piece that is not reserved and not
`pi`. -/
theorem Trimmed.cases {env : Env σ} {pi : ℤ} {st st' : MemoryStorage σ}
    (ht : Trimmed env pi st st') :
    st' = st.wait 2 ∨ ∃ n v pc b bf, Owns (st.wait n) v pc b bf ∧ ¬st.Reserved v ∧ v ≠ pi ∧
      st' = (st.wait n).evict env v pc b bf := by
  rcases ht.search with ⟨-, h⟩ | ⟨n, v, pc, b, bf, -, h⟩
  · exact Or.inl h
  · exact Or.inr ⟨n, v, pc, b, bf, h⟩

/-- `trim(pi)` spares `pi`. -/
theorem Trims.resident {env : Env σ} {pi : ℤ} {info : TorrentInfo} {st st' : MemoryStorage σ}
    (ht : Trims env pi st st') (h : WellFormed info st) (hr : Resident st pi) :
    Resident st' pi := by
  refine (ht.rule (I := fun s => Resident s pi) ?_ h hr).2
  intro s s' hs hrs _ hround
  rcases hround.cases with rfl | ⟨n, v, pc, b, bf, ho, -, hne, rfl⟩
  · exact hrs
  · exact (resident_evict (linked_wait hs.toLinked n) ho pi).mpr ⟨hrs, hne.symm⟩

end MemoryStorage

end Libtorrent
