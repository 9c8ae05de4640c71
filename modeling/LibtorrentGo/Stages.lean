/-
# The states inside a call

`Inside env st c s` says that a call `c` made in state `st` goes through `s`: behind
`get_write_buffer`, behind any number of its chunks, when it enters `trim`, behind any
number of rounds of the `while`, and when it returns.  What the counters are there
(`inside_balance`) is what they are between calls.
-/
import LibtorrentGo.Ledger

open Splice Subscript

namespace Libtorrent

open MemoryStorage

variable {σ : Type}

/-- The states a call goes through. -/
inductive Inside (env : Env σ) (st : MemoryStorage σ) : Call σ → MemoryStorage σ → Prop
  | entry {c : Call σ} : Inside env st c st
  | acquired {bufs : List (List Byte)} {p offset : ℤ} {got : Bool} {s : MemoryStorage σ} :
      getWriteBuffer env st p = .ok (got, s) → Inside env st (.writev bufs p offset) s
  | copying {bufs : List (List Byte)} {p offset n : ℤ} {k : ℕ} {st₁ s : MemoryStorage σ} :
      getWriteBuffer env st p = .ok (true, st₁) →
      writevCopy p (bufs.take k) offset 0 st₁ = .ok (n, s) →
      Inside env st (.writev bufs p offset) s
  | trimming {bufs : List (List Byte)} {p offset : ℤ} {s₀ s : MemoryStorage σ} :
      BeforeTrim env st bufs p offset s₀ →
      Relation.ReflTransGen (WhileLoop.Round isFull (trimBody env p)) s₀ s →
      Inside env st (.writev bufs p offset) s
  | reading {readBuf : List Byte} {size p offset : ℤ} :
      Inside env st (.read readBuf size p offset) { st with isReading := true }
  | exit {c : Call σ} {fuel : ℕ} {r : Reply} {s : MemoryStorage σ} :
      exec env fuel st c = .ok (r, s) → Inside env st c s

/-! ## Revised records -/

namespace MemoryStorage

/-- Piece `p` and buffer `b` have new records. -/
def revise (st : MemoryStorage σ) (p : ℤ) (pc : MemoryPiece) (b : ℤ) (bf : MemoryBuffer)
    (ticks : ℕ) : MemoryStorage σ :=
  { st with pieces := put st.pieces p pc, buffers := put st.buffers b bf, ticks := ticks }

end MemoryStorage

/-- Records that name each other as the old ones did change nothing but contents. -/
theorem WellFormed.revise {info : TorrentInfo} {st : MemoryStorage σ} (h : WellFormed info st)
    {p b : ℤ} {pc : MemoryPiece} {bf : MemoryBuffer} (ho : Owns st p pc b bf)
    (pc' : MemoryPiece) (bf' : MemoryBuffer)
    (hp : pc'.bi = pc.bi ∧ pc'.index = pc.index ∧ pc'.length = pc.length)
    (hb : bf'.isUsed = bf.isUsed ∧ bf'.pi = bf.pi ∧ bf'.index = bf.index ∧
      bf'.buffer.length = bf.buffer.length) (ticks : ℕ) :
    WellFormed info (st.revise p pc' b bf' ticks) ∧
      usedBuffers (st.revise p pc' b bf' ticks) = usedBuffers st ∧
      ∀ q, Resident (st.revise p pc' b bf' ticks) q ↔ Resident st q := by
  obtain ⟨hbi, hindex, hlength⟩ := hp
  obtain ⟨hused, hpi, hbindex, hblength⟩ := hb
  refine ⟨h.of_sameShape ?_ ?_, ?_, ?_⟩
  · exact (h.relink pc' bf' ho.piece ho.buffer (Linked.paired_of_owns ho)
      (Or.inl ⟨hbi.trans ho.bi, hused.trans ho.used, hpi.trans ho.pi⟩) hindex hbindex).frame
      ticks st.torrent st.isReading st.bufferUsed st.bufferLimit
  · exact ⟨rfl, rfl, rfl, rfl, rfl, rfl, rfl, map_put_of_eq ho.piece hlength,
      map_put_of_eq ho.buffer hblength⟩
  · have hcount := countP_put ho.buffer bf' (fun bf => bf.isUsed)
    rw [hused] at hcount
    exact Nat.add_right_cancel hcount
  · intro q
    show (∃ qc, at? (put st.pieces p pc') q = some qc ∧ qc.bi ≠ -1) ↔ Resident st q
    rw [at?_put ho.piece]
    by_cases hq : q = p
    · rw [if_pos hq, hq]
      have hne := h.bi_ne ho
      rw [← ho.bi] at hne
      constructor
      · exact fun _ => ⟨pc, ho.piece, hne⟩
      · exact fun _ => ⟨pc', rfl, by rw [hbi]; exact hne⟩
    · rw [if_neg hq]
      rfl

/-! ## What is known there -/

/-- What `get_write_buffer` leaves when it succeeds is an acquired buffer. -/
theorem acquired_of_getWriteBuffer {env : Env σ} {info : TorrentInfo} {st st₁ : MemoryStorage σ}
    (h : WellFormed info st) {p : ℤ} {pc : MemoryPiece} (hp : at? st.pieces p = some pc)
    (hget : getWriteBuffer env st p = .ok (true, st₁)) :
    Acquired env st p st₁ ∧ ∃ pc₁ b bf, Owns st₁ p pc₁ b bf ∧ pc₁.length = pc.length := by
  rcases getWriteBuffer_cases env h.toLinked hp with
    ⟨hb, heq⟩ | ⟨hb, -, heq⟩ | ⟨hb, -, -, heq⟩ | ⟨hb, href, b, bf, hfree, heq⟩
  · rw [heq] at hget
    obtain ⟨-, rfl⟩ := Prod.mk.inj (Except.ok.inj hget)
    obtain ⟨bf, ho⟩ := h.owns_of_piece hp hb
    exact ⟨.kept ⟨pc, hp, hb⟩, pc, pc.bi, bf, ho, rfl⟩
  · rw [heq] at hget
    exact absurd (Prod.mk.inj (Except.ok.inj hget)).1 (by simp)
  · rw [heq] at hget
    exact absurd (Prod.mk.inj (Except.ok.inj hget)).1 (by simp)
  · rw [heq] at hget
    obtain ⟨-, rfl⟩ := Prod.mk.inj (Except.ok.inj hget)
    exact ⟨.placed hp hb href hfree, _, b, _,
      ⟨at?_put_self hp _, rfl, at?_put_self hfree.buffer _, rfl, rfl⟩, rfl⟩

/-- Behind any number of chunks, the buffer of the piece has been spliced into. -/
theorem copied_eq {env : Env σ} {info : TorrentInfo} {st st₁ s : MemoryStorage σ}
    (h : WellFormed info st) {p offset n : ℤ} (hv : ValidRange st p offset)
    {bufs : List (List Byte)} (hget : getWriteBuffer env st p = .ok (true, st₁))
    (hcopy : writevCopy p bufs offset 0 st₁ = .ok (n, s)) :
    ∃ pc b bf, Acquired env st p st₁ ∧ Owns st₁ p pc b bf ∧ 0 ≤ offset ∧ offset ≤ pc.length ∧
      n = (fitting pc.length offset bufs).length ∧
      s = { st₁ with buffers := put st₁.buffers b { bf with
        buffer := splice bf.buffer offset.toNat (fitting pc.length offset bufs) } } := by
  obtain ⟨pc₀, hp, h0, h1⟩ := hv.exists_piece
  obtain ⟨ha, pc, b, bf, ho, hlen⟩ := acquired_of_getWriteBuffer h hp hget
  obtain ⟨hw₁, -⟩ := ha.wellFormed h
  obtain ⟨-, hfit, hint⟩ := hw₁.piece_fits ho.piece ho.buffer
  have hcopy' := writevCopy_eq ho bufs (n := 0) h0 (by omega) hfit (by omega)
  rw [hcopy'] at hcopy
  obtain ⟨hn, hs⟩ := Prod.mk.inj (Except.ok.inj hcopy)
  exact ⟨pc, b, bf, ha, ho, h0, by omega, by rw [← hn, zero_add], hs.symm⟩

/-- The last `if` of a `writev` is reached with the bytes stored. -/
theorem MemoryStorage.BeforeTrim.written {env : Env σ} {info : TorrentInfo} {st s : MemoryStorage σ}
    (h : WellFormed info st) {p offset : ℤ} (hv : ValidRange st p offset)
    {bufs : List (List Byte)} (hb : BeforeTrim env st bufs p offset s) :
    ∃ st₁ pc b bf, Acquired env st p st₁ ∧ Owns st₁ p pc b bf ∧ 0 ≤ offset ∧
      offset ≤ pc.length ∧ s = st₁.written env p pc b bf offset bufs := by
  obtain ⟨n, st₁, st₂, hget, hcopy, hacc⟩ := hb
  obtain ⟨pc, b, bf, ha, ho, h0, h1, -⟩ := copied_eq h hv hget hcopy
  obtain ⟨hw₁, -⟩ := ha.wellFormed h
  obtain ⟨-, hfit, hint⟩ := hw₁.piece_fits ho.piece ho.buffer
  have hstores := writev_stores env ho bufs h0 h1 hfit (by omega)
  rw [hcopy, ok_bind] at hstores
  simp only [hacc, ok_bind, pure_eq_ok] at hstores
  exact ⟨st₁, pc, b, bf, ha, ho, h0, h1, (Prod.mk.inj (Except.ok.inj hstores)).2⟩

/-! ## The balance of the counters -/

/-- Used buffers and slack add up to the pool and what the last growth forgot. -/
def Balanced (owed : ℕ) (st : MemoryStorage σ) : Prop :=
  (usedBuffers st : ℤ) + slack st = st.bufferSize + owed

/-- A state with a ledger is balanced. -/
theorem Ledger.balanced {h : History σ} {st : MemoryStorage σ} (hl : Ledger h st) :
    Balanced (forgotten h) st := by
  have hu := hl.used
  have hm := hl.limit
  rw [Balanced, slack]
  omega

/-- Acquiring a buffer keeps the balance. -/
theorem MemoryStorage.Acquired.balanced {env : Env σ} {owed : ℕ} {st st₁ : MemoryStorage σ} {p : ℤ}
    (ha : Acquired env st p st₁) (h : Balanced owed st) : Balanced owed st₁ := by
  cases ha with
  | kept _ => exact h
  | @placed pc b bf _ _ _ hfree =>
      have hcount : usedBuffers (st.place env p pc b bf (decide (st.Reserved p)))
          = usedBuffers st + 1 := usedBuffers_place hfree.buffer hfree.free _
      rw [Balanced, hcount, slack_place]
      rw [Balanced] at h
      push_cast
      show _ = st.bufferSize + (owed : ℤ)
      omega

/-- Rounds of `trim` keep the balance. -/
theorem MemoryStorage.Trims.balanced {env : Env σ} {pi : ℤ} {info : TorrentInfo} {owed : ℕ}
    {st s : MemoryStorage σ} (ht : Trims env pi st s) (hw : WellFormed info st)
    (h : Balanced owed st) : Balanced owed s := by
  refine (ht.rule (I := Balanced owed) ?_ hw h).2
  intro s s' _ hs _ hround
  rcases hround.cases with rfl | ⟨n, v, pc, b, bf, ho, -, -, rfl⟩
  · exact hs
  · have hcount : usedBuffers ((s.wait n).evict env v pc b bf) + 1 = usedBuffers s :=
      usedBuffers_evict ho
    rw [Balanced, slack_evict]
    rw [Balanced, ← hcount] at hs
    push_cast at hs
    have hslack : slack (s.wait n) = slack s := rfl
    show _ = s.bufferSize + (owed : ℤ)
    omega

/-- **The counters are balanced in every state inside a call** that is no growth. -/
theorem inside_balance {env : Env σ} {info : TorrentInfo} {h : History σ}
    {st s : MemoryStorage σ} (hr : StorageRun env info h st) {c : Call σ} (hv : c.Valid st)
    (hc : ∀ n, c = .setMemorySize n → n ≤ st.capacity) (hi : Inside env st c s) :
    WellFormed info s ∧ Balanced (forgotten h) s := by
  have hw := hr.wellFormed
  have hb := hr.ledger.balanced
  cases hi with
  | entry => exact ⟨hw, hb⟩
  | @acquired bufs p offset got s hget =>
      obtain ⟨pc, hp, h0, h1⟩ := ValidRange.exists_piece hv
      rcases getWriteBuffer_cases env hw.toLinked hp with
        ⟨hbi, heq⟩ | ⟨hbi, -, heq⟩ | ⟨hbi, -, -, heq⟩ | ⟨hbi, href, b, bf, hfree, heq⟩
      all_goals
        rw [heq] at hget
        obtain ⟨-, rfl⟩ := Prod.mk.inj (Except.ok.inj hget)
      · exact ⟨hw, hb⟩
      · rw [restorePiece_eq]
        exact ⟨hw.withTorrent _ st.mHandle st.t st.isReading, hb⟩
      · exact ⟨hw, hb⟩
      · have ha : Acquired env st p (st.place env p pc b bf (decide (st.Reserved p))) :=
          .placed hp hbi href hfree
        exact ⟨(ha.wellFormed hw).1, ha.balanced hb⟩
  | @copying bufs p offset n k st₁ s hget hcopy =>
      obtain ⟨pc, b, bf, ha, ho, h0, h1, -, rfl⟩ := copied_eq hw hv hget hcopy
      have hb₁ := ha.balanced hb
      obtain ⟨hw₁, -⟩ := ha.wellFormed hw
      have hfit := hw₁.fitting_fits ho h0 h1 (bufs.take k)
      have hrevise := hw₁.revise ho pc { bf with
        buffer := splice bf.buffer offset.toNat (fitting pc.length offset (bufs.take k)) }
        ⟨rfl, rfl, rfl⟩ ⟨rfl, rfl, rfl, length_splice hfit⟩ st₁.ticks
      rw [revise, put_at? ho.piece] at hrevise
      obtain ⟨hw₂, hused, -⟩ := hrevise
      refine ⟨hw₂, ?_⟩
      rw [Balanced, hused]
      exact hb₁
  | @trimming bufs p offset s₀ s hbefore hrounds =>
      obtain ⟨st₁, pc, b, bf, ha, ho, h0, h1, rfl⟩ := hbefore.written hw hv
      obtain ⟨hw₂, -⟩ := written_wellFormed hw ha ho h0 h1 bufs
      have hb₁ := ha.balanced hb
      have hb₂ : Balanced (forgotten h) (st₁.written env p pc b bf offset bufs) := by
        rw [Balanced, written, usedBuffers_store ho]
        exact hb₁
      obtain ⟨ht, -⟩ := trims_of_rounds hw₂.toLinked hrounds
      exact ⟨(ht.rule (I := fun _ => True) (fun _ _ _ _ _ _ => trivial) hw₂ trivial).1,
        ht.balanced hw₂ hb₂⟩
  | reading => exact ⟨hw.withTorrent st.torrent st.mHandle st.t true, hb⟩
  | @exit c fuel r s he =>
      have hr' : StorageRun env info (⟨st, (c, r), s⟩ :: h) s := .next hr ⟨hv, fuel, he⟩
      refine ⟨hr'.wellFormed, ?_⟩
      have hf : forgotten ((⟨st, (c, r), s⟩ : CallEntry σ) :: h) = forgotten h := by
        have hg : grows (⟨st, (c, r), s⟩ : CallEntry σ) = false := by
          cases c with
          | setMemorySize n => simpa [grows] using hc n rfl
          | _ => rfl
        simp [forgotten, hg]
      rw [← hf]
      exact hr'.ledger.balanced

end Libtorrent
