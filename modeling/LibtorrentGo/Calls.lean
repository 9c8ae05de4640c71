/-
# Calls and runs

`Effect env st c r st'` lists everything a completed call can do to a well-formed
storage, one constructor for each outcome; `effect_of_exec` says that it does nothing
else, and every invariant of the later files is a case analysis on it.

A `StorageRun` is a storage constructed for a torrent with a memory size `≥ 0`, followed
by valid calls that completed, one after another, with what is outside the storage
changing at will between them.
-/
import LibtorrentGo.Runs
import LibtorrentGo.WellFormed

open MachineInt Splice Subscript

namespace Libtorrent

open MemoryStorage

variable {σ : Type}

namespace MemoryStorage

/-! ## Rounds of `trim` -/

/-- Any number of rounds of the `while` of `trim(pi)`. -/
def Trims (env : Env σ) (pi : ℤ) : MemoryStorage σ → MemoryStorage σ → Prop :=
  Relation.ReflTransGen fun s s' => s.isFull = true ∧ Trimmed env pi s s'

/-- **Rule for the `while` of `trim`**: what every round preserves of a well-formed state
holds behind it. -/
theorem Trims.rule {env : Env σ} {pi : ℤ} {info : TorrentInfo} {I : MemoryStorage σ → Prop}
    (round : ∀ s s', WellFormed info s → I s → s.isFull = true → Trimmed env pi s s' → I s')
    {st st' : MemoryStorage σ} (h : WellFormed info st) (hI : I st) (ht : Trims env pi st st') :
    WellFormed info st' ∧ I st' := by
  induction ht with
  | refl => exact ⟨h, hI⟩
  | tail _ hr ih => exact ⟨ih.1.trimmed hr.2, round _ _ ih.1 ih.2 hr.1 hr.2⟩

/-- Rounds of `trim` keep the shape. -/
theorem Trims.sameShape {env : Env σ} {pi : ℤ} {st st' : MemoryStorage σ}
    (ht : Trims env pi st st') : SameShape st st' := by
  induction ht with
  | refl => exact .refl _
  | tail _ hr ih => exact ih.trans hr.2.sameShape

/-- Rounds of the `while` are rounds of `trim`. -/
theorem trims_of_rounds {env : Env σ} {pi : ℤ} {st s : MemoryStorage σ} (h : Linked st)
    (hr : Relation.ReflTransGen (WhileLoop.Round isFull (trimBody env pi)) st s) :
    Trims env pi st s ∧ Linked s := by
  induction hr with
  | refl => exact ⟨.refl, h⟩
  | tail _ hround ih =>
      obtain ⟨t, ht, hrel⟩ := trimBody_cases env ih.2 pi
      have hbody := hround.2
      rw [ht] at hbody
      obtain rfl := Except.ok.inj hbody
      exact ⟨ih.1.tail ⟨hround.1, hrel⟩, hrel.linked ih.2⟩

/-- A `while` that exits has made rounds of `trim` until the test failed. -/
theorem trims_of_loop {env : Env σ} {pi : ℤ} {st st' : MemoryStorage σ} (h : Linked st)
    {fuel : ℕ} (hl : WhileLoop.loop isFull (trimBody env pi) .outOfFuel fuel st = .ok st') :
    Trims env pi st st' ∧ st'.isFull = false := by
  obtain ⟨hrounds, hexit⟩ := WhileLoop.rounds_of_loop_eq_ok hl
  exact ⟨(trims_of_rounds h hrounds).1, hexit⟩

/-- With a capacity `≥ 0`, the end of `writev` is the `while` of `trim`. -/
theorem writevTrim_eq (env : Env σ) (fuel : ℕ) {st : MemoryStorage σ} (h : 0 ≤ st.capacity)
    (piece : ℤ) :
    writevTrim env fuel st piece =
      WhileLoop.loop isFull (trimBody env piece) .outOfFuel fuel st := by
  cases hf : st.isFull with
  | false => simp [writevTrim, hf, WhileLoop.loop_of_not_guard hf]
  | true =>
      have hc : ¬st.capacity < 0 := not_lt.mpr h
      simp [writevTrim, trim, hf, hc]

/-! ## Writing, as a whole -/

/-- What `get_write_buffer` leaves when it succeeds. -/
inductive Acquired (env : Env σ) (st : MemoryStorage σ) (p : ℤ) : MemoryStorage σ → Prop
  | kept : Resident st p → Acquired env st p st
  | placed {pc : MemoryPiece} {b : ℤ} {bf : MemoryBuffer} :
      at? st.pieces p = some pc → pc.bi = -1 → ¬st.Refused env p → FirstFree st b bf →
      Acquired env st p (st.place env p pc b bf (decide (st.Reserved p)))

/-- Acquiring a buffer keeps the invariant and the shape. -/
theorem Acquired.wellFormed {env : Env σ} {info : TorrentInfo} {st st₁ : MemoryStorage σ} {p : ℤ}
    (ha : Acquired env st p st₁) (h : WellFormed info st) :
    WellFormed info st₁ ∧ SameShape st st₁ := by
  cases ha with
  | kept _ => exact ⟨h, .refl st⟩
  | placed hp hb _ hfree =>
      exact ⟨h.place hp hb hfree.buffer hfree.free _, sameShape_place env hp hfree.buffer _⟩

/-- Acquiring a buffer takes a blank one, if any. -/
theorem Acquired.blank {env : Env σ} {st st₁ : MemoryStorage σ} {p : ℤ}
    (ha : Acquired env st p st₁) (h : Blank st) : Blank st₁ := by
  cases ha with
  | kept _ => exact h
  | placed _ _ _ hfree => exact h.place hfree.buffer _

/-- The state of an accepted `writev` before it trims. -/
def written (env : Env σ) (st : MemoryStorage σ) (p : ℤ) (pc : MemoryPiece) (b : ℤ)
    (bf : MemoryBuffer) (offset : ℤ) (bufs : List (List Byte)) : MemoryStorage σ :=
  st.store env p pc b bf offset.toNat (fitting pc.length offset bufs)

/-- The state in which a `writev` made in `st` reaches its last `if`. -/
def BeforeTrim (env : Env σ) (st : MemoryStorage σ) (bufs : List (List Byte)) (p offset : ℤ)
    (s : MemoryStorage σ) : Prop :=
  ∃ n st₁ st₂, getWriteBuffer env st p = .ok (true, st₁) ∧
    writevCopy p bufs offset 0 st₁ = .ok (n, st₂) ∧ writevAccount env st₂ p n = .ok s

/-- **`writev`, in full.**  It is refused by the reader rule, finds no free buffer, or
acquires a buffer, stores what fits and enters the `while` of `trim`. -/
theorem writev_cases (env : Env σ) {info : TorrentInfo} {st : MemoryStorage σ}
    (h : WellFormed info st) {p : ℤ} {pc : MemoryPiece} (hp : at? st.pieces p = some pc)
    {offset : ℤ} (h0 : 0 ≤ offset) (h1 : offset ≤ pc.length) (bufs : List (List Byte)) :
    (pc.bi = -1 ∧ st.Refused env p ∧
      ∀ fuel, writev env fuel st bufs p offset = .ok (0, restorePiece env st p)) ∨
    (pc.bi = -1 ∧ ¬st.Refused env p ∧ st.PoolFull ∧
      ∀ fuel, writev env fuel st bufs p offset = .ok (0, st)) ∨
    ∃ st₁ pc₁ b bf, Acquired env st p st₁ ∧ Owns st₁ p pc₁ b bf ∧ pc₁.length = pc.length ∧
      BeforeTrim env st bufs p offset (st₁.written env p pc₁ b bf offset bufs) ∧
      ∀ fuel, writev env fuel st bufs p offset =
        (do
          let st' ← WhileLoop.loop isFull (trimBody env p) .outOfFuel fuel
            (st₁.written env p pc₁ b bf offset bufs)
          pure (((fitting pc.length offset bufs).length : ℤ), st')) := by
  have hinit : ¬(!st.isInitialized) = true := by simp [h.initialized]
  have accepts : ∀ {st₁ : MemoryStorage σ} {pc₁ : MemoryPiece} {b : ℤ} {bf : MemoryBuffer},
      getWriteBuffer env st p = .ok (true, st₁) → WellFormed info st₁ → SameShape st st₁ →
      Owns st₁ p pc₁ b bf → pc₁.length = pc.length →
      BeforeTrim env st bufs p offset (st₁.written env p pc₁ b bf offset bufs) ∧
      ∀ fuel, writev env fuel st bufs p offset =
        (do
          let st' ← WhileLoop.loop isFull (trimBody env p) .outOfFuel fuel
            (st₁.written env p pc₁ b bf offset bufs)
          pure (((fitting pc.length offset bufs).length : ℤ), st')) := by
    intro st₁ pc₁ b bf hget h₁ hs₁ ho hlen
    obtain ⟨-, hfit, hint⟩ := h₁.piece_fits ho.piece ho.buffer
    have hstores := writev_stores env ho bufs h0 (by omega) hfit (by omega)
    obtain ⟨⟨n, st₂⟩, hcopy, hacc⟩ := bind_eq_ok_iff.mp hstores
    obtain ⟨st₃, hacc, hpair⟩ := bind_eq_ok_iff.mp hacc
    obtain ⟨rfl, rfl⟩ := Prod.mk.inj (Except.ok.inj hpair)
    refine ⟨⟨_, st₁, st₂, hget, hcopy, hacc⟩, fun fuel => ?_⟩
    have hcap : 0 ≤ (st₁.written env p pc₁ b bf offset bufs).capacity := h₁.capacity_nonneg
    have htrim := writevTrim_eq env fuel hcap p
    rw [hlen] at hcopy hacc
    simp only [written, hlen] at htrim ⊢
    simp only [writev, if_neg hinit, hget, ok_bind, Bool.not_true, Bool.false_eq_true, if_false,
      hcopy, hacc, htrim]
  rcases getWriteBuffer_cases env h.toLinked hp with
    ⟨hb, hget⟩ | ⟨hb, href, hget⟩ | ⟨hb, href, hfull, hget⟩ | ⟨hb, href, b, bf, hfree, hget⟩
  · right
    right
    obtain ⟨bf, ho⟩ := h.owns_of_piece hp hb
    exact ⟨st, pc, pc.bi, bf, .kept ⟨pc, hp, hb⟩, ho, rfl,
      accepts hget h (.refl st) ho rfl⟩
  · left
    refine ⟨hb, href, fun fuel => ?_⟩
    simp only [writev, if_neg hinit, hget, ok_bind, Bool.not_false, if_true, pure_eq_ok]
  · right
    left
    refine ⟨hb, href, hfull, fun fuel => ?_⟩
    simp only [writev, if_neg hinit, hget, ok_bind, Bool.not_false, if_true, pure_eq_ok]
  · right
    right
    have ha : Acquired env st p (st.place env p pc b bf (decide (st.Reserved p))) :=
      .placed hp hb href hfree
    obtain ⟨h₁, hs₁⟩ := ha.wellFormed h
    have ho : Owns (st.place env p pc b bf (decide (st.Reserved p))) p { pc with bi := b } b
        { bf with isUsed := true, pi := p, accessed := some (env.clock st.ticks) } :=
      ⟨at?_put_self hp _, rfl, at?_put_self hfree.buffer _, rfl, rfl⟩
    exact ⟨_, _, b, _, ha, ho, rfl, accepts hget h₁ hs₁ ho rfl⟩

/-- The state before the `while` of `trim` is well formed and has the old shape. -/
theorem written_wellFormed {env : Env σ} {info : TorrentInfo} {st st₁ : MemoryStorage σ} {p b : ℤ}
    {pc : MemoryPiece} {bf : MemoryBuffer} (h : WellFormed info st)
    (ha : Acquired env st p st₁) (ho : Owns st₁ p pc b bf) {offset : ℤ} (h0 : 0 ≤ offset)
    (h1 : offset ≤ pc.length) (bufs : List (List Byte)) :
    WellFormed info (st₁.written env p pc b bf offset bufs) ∧
      SameShape st (st₁.written env p pc b bf offset bufs) := by
  obtain ⟨h₁, hs₁⟩ := ha.wellFormed h
  have hfit := h₁.fitting_fits ho h0 h1 bufs
  exact ⟨h₁.store ho hfit, hs₁.trans (sameShape_store env ho hfit)⟩

end MemoryStorage

/-! ## Valid calls -/

/-- A valid piece number with an offset inside the piece, its end included. -/
def ValidRange (st : MemoryStorage σ) (piece offset : ℤ) : Prop :=
  match at? st.pieces piece with
  | some p => 0 ≤ offset ∧ offset ≤ p.length
  | none => False

/-- The calls that keep to the interface: valid pieces, offsets inside them, and for
`read` a destination of the size asked for. -/
def Call.Valid (st : MemoryStorage σ) : Call σ → Prop
  | .writev _ piece offset => ValidRange st piece offset
  | .readv _ piece offset => ValidRange st piece offset
  | .read readBuf size piece offset =>
      ValidRange st piece offset ∧ 0 ≤ size ∧ size ≤ readBuf.length
  | .setMemorySize _ => True
  | .updateReaderPieces pieces => ∀ p ∈ pieces, 0 ≤ p ∧ p < st.pieceCount
  | .updateReservedPieces pieces => ∀ p ∈ pieces, 0 ≤ p ∧ p < st.pieceCount
  | .setTorrentHandle _ => True
  | .outside _ => True

instance (st : MemoryStorage σ) (piece offset : ℤ) : Decidable (ValidRange st piece offset) :=
  match h : at? st.pieces piece with
  | some p => decidable_of_iff (0 ≤ offset ∧ offset ≤ p.length) (by simp [ValidRange, h])
  | none => isFalse (by simp [ValidRange, h])

instance (st : MemoryStorage σ) : (c : Call σ) → Decidable (c.Valid st)
  | .writev _ piece offset => inferInstanceAs (Decidable (ValidRange st piece offset))
  | .readv _ piece offset => inferInstanceAs (Decidable (ValidRange st piece offset))
  | .read readBuf size piece offset =>
      inferInstanceAs (Decidable (ValidRange st piece offset ∧ 0 ≤ size ∧ size ≤ readBuf.length))
  | .setMemorySize _ => isTrue trivial
  | .updateReaderPieces pieces =>
      inferInstanceAs (Decidable (∀ p ∈ pieces, 0 ≤ p ∧ p < st.pieceCount))
  | .updateReservedPieces pieces =>
      inferInstanceAs (Decidable (∀ p ∈ pieces, 0 ≤ p ∧ p < st.pieceCount))
  | .setTorrentHandle _ => isTrue trivial
  | .outside _ => isTrue trivial

/-- A valid range lies in a piece. -/
theorem ValidRange.exists_piece {st : MemoryStorage σ} {piece offset : ℤ}
    (h : ValidRange st piece offset) :
    ∃ pc, at? st.pieces piece = some pc ∧ 0 ≤ offset ∧ offset ≤ pc.length := by
  unfold ValidRange at h
  cases hp : at? st.pieces piece with
  | none =>
      rw [hp] at h
      exact absurd h id
  | some pc =>
      rw [hp] at h
      exact ⟨pc, rfl, h⟩

/-! ## Effects -/

/-- Everything a completed call does. -/
inductive Effect (env : Env σ) (st : MemoryStorage σ) : Call σ → Reply → MemoryStorage σ → Prop
  /-- a `writev` the reader rule turns away -/
  | refused {bufs : List (List Byte)} {p offset : ℤ} {pc : MemoryPiece} :
      at? st.pieces p = some pc → pc.bi = -1 → st.Refused env p →
      Effect env st (.writev bufs p offset) ⟨0, []⟩
        { st with torrent := restoredTorrent env st p }
  /-- a `writev` that finds every buffer in use -/
  | noBuffer {bufs : List (List Byte)} {p offset : ℤ} {pc : MemoryPiece} :
      at? st.pieces p = some pc → pc.bi = -1 → ¬st.Refused env p → st.PoolFull →
      Effect env st (.writev bufs p offset) ⟨0, []⟩ st
  /-- a `writev` that is accepted -/
  | accepted {bufs : List (List Byte)} {p offset b : ℤ} {pc : MemoryPiece} {bf : MemoryBuffer}
      {st₁ st' : MemoryStorage σ} :
      Acquired env st p st₁ → Owns st₁ p pc b bf → 0 ≤ offset → offset ≤ pc.length →
      Trims env p (st₁.written env p pc b bf offset bufs) st' → st'.isFull = false →
      Effect env st (.writev bufs p offset) ⟨(fitting pc.length offset bufs).length, []⟩ st'
  /-- a `readv` of a piece that is not there -/
  | missed {bufs : List (List Byte)} {p offset : ℤ} {pc : MemoryPiece} :
      at? st.pieces p = some pc → pc.bi = -1 →
      Effect env st (.readv bufs p offset) ⟨0, bufs⟩ st
  /-- a `readv` of a resident piece -/
  | scattered {bufs : List (List Byte)} {p offset b : ℤ} {pc : MemoryPiece} {bf : MemoryBuffer} :
      Owns st p pc b bf → 0 ≤ offset → offset ≤ pc.length →
      Effect env st (.readv bufs p offset)
        ⟨min (bf.buffer.length - offset) bufs.flatten.length,
          scatter bufs (bf.buffer.drop offset.toNat)⟩
        (st.touch env p pc b bf
          (offset + min (bf.buffer.length - offset) bufs.flatten.length))
  /-- a `read` of a piece that is not complete -/
  | incomplete {readBuf : List Byte} {size p offset : ℤ} {pc : MemoryPiece} :
      at? st.pieces p = some pc → pc.bi = -1 ∨ pc.intSize < pc.length →
      Effect env st (.read readBuf size p offset) ⟨-1, [readBuf]⟩
        { st with isReading := true, torrent := restoredTorrent env st p }
  /-- a `read` at the end of the buffer -/
  | atEnd {readBuf : List Byte} {size p offset b : ℤ} {pc : MemoryPiece} {bf : MemoryBuffer} :
      Owns st p pc b bf → pc.length ≤ pc.intSize → offset = bf.buffer.length →
      Effect env st (.read readBuf size p offset) ⟨0, [readBuf]⟩ { st with isReading := true }
  /-- a `read` that copies -/
  | copied {readBuf : List Byte} {size p offset b : ℤ} {pc : MemoryPiece} {bf : MemoryBuffer} :
      Owns st p pc b bf → pc.length ≤ pc.intSize → 0 ≤ offset → offset < bf.buffer.length →
      0 ≤ size →
      Effect env st (.read readBuf size p offset)
        ⟨size, [splice readBuf 0
          ((bf.buffer.drop offset.toNat).take (min size (bf.buffer.length - offset)).toNat)]⟩
        (({ st with isReading := true } : MemoryStorage σ).touch env p pc b bf
          (offset + min size (bf.buffer.length - offset)))
  /-- a memory size that is no growth -/
  | notGrown {s : ℤ} : s ≤ st.capacity → Effect env st (.setMemorySize s) .none st
  /-- a growth -/
  | grown {s n : ℤ} : st.capacity < s → poolSize s st.pieceLength st.pieceCount = .ok n →
      Effect env st (.setMemorySize s) .none (st.grow s n)
  /-- new reader pieces -/
  | readers {pieces : List ℤ} {bits : List Bool} : bits.length = st.readerPieces.length →
      (∀ p, at? bits p = some true ↔ p ∈ pieces) →
      Effect env st (.updateReaderPieces pieces) .none { st with readerPieces := bits }
  /-- new reserved pieces -/
  | reserves {pieces : List ℤ} {bits : List Bool} : bits.length = st.reservedPieces.length →
      (∀ p, at? bits p = some true ↔ p ∈ pieces) →
      Effect env st (.updateReservedPieces pieces) .none
        { st with reservedPieces := bits, bufferReserved := pieces.length }
  /-- a handle -/
  | handle {t : Bool} : Effect env st (.setTorrentHandle t) .none (st.setTorrentHandle t)
  /-- a change of the torrent -/
  | outside {torrent : σ} : Effect env st (.outside torrent) .none { st with torrent := torrent }

/-- The reader bits of a valid call. -/
theorem readerBits {info : TorrentInfo} {st : MemoryStorage σ} (h : WellFormed info st)
    {pieces : List ℤ} (hv : ∀ p ∈ pieces, 0 ≤ p ∧ p < st.pieceCount) :
    ∃ bits, setBits (List.replicate st.readerPieces.length false) pieces = .ok bits ∧
      bits.length = st.readerPieces.length ∧ ∀ p, at? bits p = some true ↔ p ∈ pieces := by
  have hbounds : ∀ p ∈ pieces,
      0 ≤ p ∧ p < (List.replicate st.readerPieces.length false).length := by
    intro p hp
    have hvp := hv p hp
    rw [List.length_replicate, h.readers_length]
    omega
  obtain ⟨bits, hbits, hlen, hiff⟩ := setBits_eq_ok hbounds
  refine ⟨bits, hbits, by rw [hlen, List.length_replicate], fun p => ?_⟩
  rw [hiff p, or_iff_left (at?_replicate_false_ne _ p)]

/-- The reservation bits of a valid call. -/
theorem reservedBits {info : TorrentInfo} {st : MemoryStorage σ} (h : WellFormed info st)
    {pieces : List ℤ} (hv : ∀ p ∈ pieces, 0 ≤ p ∧ p < st.pieceCount) :
    ∃ bits, setBits (List.replicate st.reservedPieces.length false) pieces = .ok bits ∧
      bits.length = st.reservedPieces.length ∧ ∀ p, at? bits p = some true ↔ p ∈ pieces := by
  obtain ⟨bits, hbits, hlen, hiff⟩ := readerBits h hv
  have hsame : st.reservedPieces.length = st.readerPieces.length := by
    have h1 := h.readers_length
    have h2 := h.reserved_length
    omega
  rw [hsame]
  exact ⟨bits, hbits, hlen, hiff⟩

/-- **A completed call has one of these effects.** -/
theorem effect_of_exec {env : Env σ} {info : TorrentInfo} {st st' : MemoryStorage σ}
    (h : WellFormed info st) {c : Call σ} (hv : c.Valid st) {fuel : ℕ} {r : Reply}
    (he : exec env fuel st c = .ok (r, st')) : Effect env st c r st' := by
  cases c with
  | writev bufs p offset =>
      obtain ⟨⟨n, st₂⟩, hw, hpair⟩ := bind_eq_ok_iff.mp he
      obtain ⟨rfl, rfl⟩ := Prod.mk.inj (Except.ok.inj hpair)
      obtain ⟨pc, hp, h0, h1⟩ := ValidRange.exists_piece hv
      rcases writev_cases env h hp h0 h1 bufs with
        ⟨hb, href, heq⟩ | ⟨hb, href, hfull, heq⟩ | ⟨st₁, pc₁, b, bf, ha, ho, hlen, -, heq⟩
      · rw [heq, restorePiece_eq] at hw
        obtain ⟨rfl, rfl⟩ := Prod.mk.inj (Except.ok.inj hw)
        exact .refused hp hb href
      · rw [heq] at hw
        obtain ⟨rfl, rfl⟩ := Prod.mk.inj (Except.ok.inj hw)
        exact .noBuffer hp hb href hfull
      · rw [heq] at hw
        obtain ⟨st₃, hloop, hpair'⟩ := bind_eq_ok_iff.mp hw
        obtain ⟨rfl, rfl⟩ := Prod.mk.inj (Except.ok.inj hpair')
        have hl := (written_wellFormed h ha ho h0 (hlen ▸ h1) bufs).1.toLinked
        obtain ⟨htrims, hexit⟩ := trims_of_loop hl hloop
        rw [← hlen]
        exact .accepted ha ho h0 (hlen ▸ h1) htrims hexit
  | readv bufs p offset =>
      obtain ⟨⟨n, bufs', st₂⟩, hr, hpair⟩ := bind_eq_ok_iff.mp he
      obtain ⟨rfl, rfl⟩ := Prod.mk.inj (Except.ok.inj hpair)
      obtain ⟨pc, hp, h0, h1⟩ := ValidRange.exists_piece hv
      by_cases hb : pc.bi = -1
      · rw [readv_of_not_resident env h.toLinked hp hb] at hr
        obtain ⟨rfl, hrest⟩ := Prod.mk.inj (Except.ok.inj hr)
        obtain ⟨rfl, rfl⟩ := Prod.mk.inj hrest
        exact .missed hp hb
      · obtain ⟨bf, ho⟩ := h.owns_of_piece hp hb
        obtain ⟨-, hfit, hint⟩ := h.piece_fits ho.piece ho.buffer
        rw [readv_of_owns env h.toLinked ho bufs h0 (by omega) hint] at hr
        obtain ⟨rfl, hrest⟩ := Prod.mk.inj (Except.ok.inj hr)
        obtain ⟨rfl, rfl⟩ := Prod.mk.inj hrest
        exact .scattered ho h0 h1
  | read readBuf size p offset =>
      obtain ⟨⟨n, readBuf', st₂⟩, hr, hpair⟩ := bind_eq_ok_iff.mp he
      obtain ⟨rfl, rfl⟩ := Prod.mk.inj (Except.ok.inj hpair)
      obtain ⟨hrange, hs, hs'⟩ := hv
      obtain ⟨pc, hp, h0, h1⟩ := hrange.exists_piece
      by_cases hinc : pc.bi = -1 ∨ pc.intSize < pc.length
      · rw [read_of_incomplete env h.toLinked hp hinc] at hr
        obtain ⟨rfl, hrest⟩ := Prod.mk.inj (Except.ok.inj hr)
        obtain ⟨rfl, rfl⟩ := Prod.mk.inj hrest
        exact .incomplete hp hinc
      · obtain ⟨hb, hc⟩ := not_or.mp hinc
        obtain ⟨bf, ho⟩ := h.owns_of_piece hp hb
        obtain ⟨-, hfit, hint⟩ := h.piece_fits ho.piece ho.buffer
        rw [read_in_range env h.toLinked ho (not_lt.mp hc) hs hs' h0 (by omega) hint] at hr
        split at hr
        · rename_i hend
          obtain ⟨rfl, hrest⟩ := Prod.mk.inj (Except.ok.inj hr)
          obtain ⟨rfl, rfl⟩ := Prod.mk.inj hrest
          exact .atEnd ho (not_lt.mp hc) hend
        · rename_i hend
          obtain ⟨rfl, hrest⟩ := Prod.mk.inj (Except.ok.inj hr)
          obtain ⟨rfl, rfl⟩ := Prod.mk.inj hrest
          exact .copied ho (not_lt.mp hc) h0 (by omega) hs
  | setMemorySize s =>
      obtain ⟨st₂, hs, hpair⟩ := bind_eq_ok_iff.mp he
      obtain ⟨rfl, rfl⟩ := Prod.mk.inj (Except.ok.inj hpair)
      rcases setMemorySize_eq_ok_iff.mp hs with ⟨hle, rfl⟩ | ⟨hlt, n, hn, rfl⟩
      · exact .notGrown hle
      · exact .grown hlt hn
  | updateReaderPieces pieces =>
      have hinit : ¬(!st.isInitialized) = true := by simp [h.initialized]
      obtain ⟨st₂, hs, hpair⟩ := bind_eq_ok_iff.mp he
      obtain ⟨rfl, rfl⟩ := Prod.mk.inj (Except.ok.inj hpair)
      obtain ⟨bits, hbits, hlen, hiff⟩ := readerBits h hv
      rw [MemoryStorage.updateReaderPieces, if_neg hinit, hbits] at hs
      obtain rfl := Except.ok.inj hs
      exact .readers hlen hiff
  | updateReservedPieces pieces =>
      have hinit : ¬(!st.isInitialized) = true := by simp [h.initialized]
      obtain ⟨st₂, hs, hpair⟩ := bind_eq_ok_iff.mp he
      obtain ⟨rfl, rfl⟩ := Prod.mk.inj (Except.ok.inj hpair)
      obtain ⟨bits, hbits, hlen, hiff⟩ := reservedBits h hv
      rw [MemoryStorage.updateReservedPieces, if_neg hinit, hbits] at hs
      obtain rfl := Except.ok.inj hs
      exact .reserves hlen hiff
  | setTorrentHandle t =>
      obtain ⟨rfl, rfl⟩ := Prod.mk.inj (Except.ok.inj he)
      exact .handle
  | outside torrent =>
      obtain ⟨rfl, rfl⟩ := Prod.mk.inj (Except.ok.inj he)
      exact .outside

/-- **A completed call keeps the invariant.** -/
theorem Effect.wellFormed {env : Env σ} {info : TorrentInfo} {st st' : MemoryStorage σ}
    {c : Call σ} {r : Reply} (he : Effect env st c r st') (h : WellFormed info st) :
    WellFormed info st' := by
  cases he with
  | refused _ _ _ => exact h.withTorrent _ st.mHandle st.t st.isReading
  | noBuffer _ _ _ _ => exact h
  | accepted ha ho h0 h1 ht _ =>
      obtain ⟨hw, -⟩ := written_wellFormed h ha ho h0 h1 _
      exact (ht.rule (I := fun _ => True) (fun _ _ _ _ _ _ => trivial) hw trivial).1
  | missed _ _ => exact h
  | scattered ho _ _ => exact h.touch ho _
  | incomplete _ _ => exact h.withTorrent _ st.mHandle st.t true
  | atEnd _ _ _ => exact h.withTorrent st.torrent st.mHandle st.t true
  | copied ho _ _ _ _ =>
      exact (h.withTorrent st.torrent st.mHandle st.t true).touch (ho.frame rfl rfl) _
  | notGrown _ => exact h
  | grown hs hn => exact (h.grow hs hn).1
  | readers hlen _ => exact h.withBits hlen rfl st.bufferReserved
  | reserves hlen _ => exact h.withBits rfl hlen _
  | handle => exact h.withTorrent st.torrent true _ st.isReading
  | outside => exact h.withTorrent _ st.mHandle st.t st.isReading

/-- **A completed call leaves what is not in use blank.** -/
theorem Effect.blank {env : Env σ} {info : TorrentInfo} {st st' : MemoryStorage σ}
    {c : Call σ} {r : Reply} (he : Effect env st c r st') (h : WellFormed info st)
    (hblank : Blank st) : Blank st' := by
  cases he with
  | accepted ha ho h0 h1 ht _ =>
      obtain ⟨hw, -⟩ := written_wellFormed h ha ho h0 h1 _
      exact (ht.rule (fun _ _ _ hb _ hround => hround.blank hb) hw
        ((ha.blank hblank).store ho _ _)).2
  | scattered ho _ _ => exact hblank.touch ho _
  | copied ho _ _ _ _ =>
      have hread : Blank ({ st with isReading := true } : MemoryStorage σ) := hblank.frame rfl
      exact hread.touch (ho.frame rfl rfl) _
  | grown _ _ => exact hblank.grow _ _
  | noBuffer _ _ _ _ => exact hblank
  | missed _ _ => exact hblank
  | notGrown _ => exact hblank
  | refused _ _ _ => exact hblank.frame rfl
  | incomplete _ _ => exact hblank.frame rfl
  | atEnd _ _ _ => exact hblank.frame rfl
  | readers _ _ => exact hblank.frame rfl
  | reserves _ _ => exact hblank.frame rfl
  | handle => exact hblank.frame rfl
  | outside => exact hblank.frame rfl

/-! ## Runs -/

/-- A storage as its constructor returns it, for some memory size `≥ 0`. -/
def Init (info : TorrentInfo) (st : MemoryStorage σ) : Prop :=
  ∃ memorySize mHandle t torrent, 0 ≤ memorySize ∧
    MemoryStorage.new info memorySize mHandle t torrent = .ok st

/-- A valid call that completes with a reply. -/
def Step (env : Env σ) (st : MemoryStorage σ) (l : Call σ × Reply) (st' : MemoryStorage σ) :
    Prop :=
  l.1.Valid st ∧ ∃ fuel, exec env fuel st l.1 = .ok (l.2, st')

/-- The completed calls of a run, newest first. -/
abbrev History (σ : Type) : Type := List (Runs.Entry (MemoryStorage σ) (Call σ × Reply))

/-- A constructed storage and the calls it completed. -/
abbrev StorageRun (env : Env σ) (info : TorrentInfo) : History σ → MemoryStorage σ → Prop :=
  Runs.Run (Init info) (Step env)

/-- A constructed storage is well formed. -/
theorem Init.wellFormed {info : TorrentInfo} {st : MemoryStorage σ} (h : Init info st) :
    WellFormed info st := by
  obtain ⟨memorySize, mHandle, t, torrent, hm, hnew⟩ := h
  exact wellFormed_new hm hnew

/-- No piece of a constructed storage has a buffer. -/
theorem Init.unbuffered {info : TorrentInfo} {st : MemoryStorage σ} (h : Init info st) {p : ℤ}
    {pc : MemoryPiece} (hp : at? st.pieces p = some pc) : pc.bi = -1 := by
  obtain ⟨memorySize, mHandle, t, torrent, hm, hnew⟩ := h
  obtain ⟨n, hn, hst⟩ := bind_eq_ok_iff.mp hnew
  obtain rfl := Except.ok.inj hst
  obtain ⟨k, -, rfl⟩ := List.mem_map.mp (mem_of_at? hp)
  rfl

/-- No buffer of a constructed storage holds a byte. -/
theorem Init.blank {info : TorrentInfo} {st : MemoryStorage σ} (h : Init info st) : Blank st := by
  intro b bf hb _
  obtain ⟨memorySize, mHandle, t, torrent, hm, hnew⟩ := h
  obtain ⟨n, -, -, -, -, -, hbuffers⟩ := new_eq_ok hnew
  rw [hbuffers] at hb
  rw [eq_new_of_newBuffers hb]
  simp [MemoryBuffer.new]

/-- A step from a well-formed state has one of the effects above. -/
theorem Step.effect {env : Env σ} {info : TorrentInfo} {st st' : MemoryStorage σ}
    {l : Call σ × Reply} (hs : Step env st l st') (h : WellFormed info st) :
    Effect env st l.1 l.2 st' := by
  obtain ⟨hv, fuel, he⟩ := hs
  exact effect_of_exec h hv he

/-- **Every state of a run is well formed.** -/
theorem StorageRun.wellFormed {env : Env σ} {info : TorrentInfo} {h : History σ}
    {st : MemoryStorage σ} (hr : StorageRun env info h st) : WellFormed info st :=
  hr.invariant (fun _ h0 => h0.wellFormed) (fun _ _ _ hw hs => (hs.effect hw).wellFormed hw)

/-- **In every state of a run, what is not in use is blank.** -/
theorem StorageRun.blank {env : Env σ} {info : TorrentInfo} {h : History σ}
    {st : MemoryStorage σ} (hr : StorageRun env info h st) : Blank st := by
  have hboth : WellFormed info st ∧ Blank st := by
    refine hr.invariant (I := fun st => WellFormed info st ∧ Blank st) ?_ ?_
    · intro st₀ h0
      exact ⟨h0.wellFormed, h0.blank⟩
    · rintro s l s' ⟨hw, hb⟩ hs
      exact ⟨(hs.effect hw).wellFormed hw, (hs.effect hw).blank hw hb⟩
  exact hboth.2

/-- **Run rule for storages**: a relation between history and state that holds of every
constructed storage and is kept by every effect holds of every run. -/
theorem StorageRun.rule {env : Env σ} {info : TorrentInfo}
    {J : History σ → MemoryStorage σ → Prop} (start : ∀ st, Init info st → J [] st)
    (next : ∀ h st c r st', StorageRun env info h st →
      StorageRun env info (⟨st, (c, r), st'⟩ :: h) st' → J h st → Effect env st c r st' →
      J (⟨st, (c, r), st'⟩ :: h) st')
    {h : History σ} {st : MemoryStorage σ} (hr : StorageRun env info h st) : J h st :=
  Runs.Run.rule start
    (fun h st l st' hrun hJ hs => next h st l.1 l.2 st' hrun (.next hrun hs) hJ
      (hs.effect (StorageRun.wellFormed hrun))) hr

/-- The calls completed from the state `st₀` on. -/
abbrev Continuation (env : Env σ) (st₀ : MemoryStorage σ) : History σ → MemoryStorage σ → Prop :=
  Runs.Run (fun st => st = st₀) (Step env)

/-- **Rule for what follows**: a relation between history and state that holds of a reached
state and is kept by every effect holds of every continuation. -/
theorem Continuation.rule {env : Env σ} {info : TorrentInfo} {h₀ : History σ}
    {st₀ : MemoryStorage σ} (hr₀ : StorageRun env info h₀ st₀)
    {J : History σ → MemoryStorage σ → Prop} (start : J [] st₀)
    (next : ∀ h st c r st', StorageRun env info (h ++ h₀) st → Continuation env st₀ h st →
      J h st → Effect env st c r st' → J (⟨st, (c, r), st'⟩ :: h) st')
    {h : History σ} {st : MemoryStorage σ} (hr : Continuation env st₀ h st) : J h st := by
  refine Runs.Run.rule ?_ ?_ hr
  · rintro st rfl
    exact start
  · intro h st l st' hrun hJ hs
    have hrun' : StorageRun env info (h ++ h₀) st := hr₀.append hrun
    exact next h st l.1 l.2 st' hrun' hrun hJ (hs.effect hrun'.wellFormed)

end Libtorrent
