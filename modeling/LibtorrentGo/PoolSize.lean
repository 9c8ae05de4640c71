/-
# The size of the pool

The constructor and `set_memory_size` compute the number of buffers from the memory size
through a truncated quotient, a sum of doubles and a conversion to `int`, and cap it by
the number of pieces.  They do not keep it from falling below zero, and they do not look
whether the conversion is defined.

`PoolSound` is what a pool should satisfy after each call.  It does throughout a sequence
of growth requests exactly if the first size is above minus three piece lengths and every
size asks for a count that fits an `int` (`sound_throughout_iff`).
-/
import LibtorrentGo.Replay

open MachineInt Subscript

namespace Libtorrent

open MemoryStorage

variable {σ : Type}

/-! ## Sound pools -/

/-- A pool of the torrent `info` that the capacity accounts for: its size is within
bounds, its buffers are numbered, the size is the one exact arithmetic gives for a capacity
that is not negative, and no smaller capacity would have given more buffers. -/
structure PoolSound (info : TorrentInfo) (st : MemoryStorage σ) : Prop where
  nonneg : 0 ≤ st.bufferSize
  le_numPieces : st.bufferSize ≤ info.numPieces
  buffers_length : (st.buffers.length : ℤ) = st.bufferSize
  buffer_index : ∀ b bf, at? st.buffers b = some bf → bf.index = b
  bufferSize_eq : 0 ≤ st.capacity →
    st.bufferSize = min info.numPieces (st.capacity / info.pieceLength + 2)
  monotone : ∀ c n, c ≤ st.capacity → poolSize c info.pieceLength info.numPieces = .ok n →
    n ≤ st.bufferSize

/-- The storage constructed with the size `memorySize`, after `set_memory_size` was called
with the sizes `sizes`. -/
def sized (info : TorrentInfo) (memorySize : ℤ) (sizes : List ℤ) (mHandle t : Bool)
    (torrent : σ) : Except Fault (MemoryStorage σ) := do
  let st ← MemoryStorage.new info memorySize mHandle t torrent
  sizes.foldlM setMemorySize st

/-- The constructor and every one of the calls return, and leave a sound pool. -/
def SoundThroughout (info : TorrentInfo) (memorySize : ℤ) (sizes : List ℤ) (mHandle t : Bool)
    (torrent : σ) : Prop :=
  ∀ done, done <+: sizes →
    ∃ st, sized info memorySize done mHandle t torrent = .ok st ∧ PoolSound info st

/-- The number of buffers the size `s` asks for fits an `int`. -/
def CountFits (info : TorrentInfo) (s : ℤ) : Prop := s < (intMax - 1) * info.pieceLength

instance (info : TorrentInfo) (s : ℤ) : Decidable (CountFits info s) :=
  inferInstanceAs (Decidable (_ < _))

/-! ## The invariant of the sizes -/

/-- A sound pool whose size is the capped quotient, also for a negative capacity. -/
structure Sized (info : TorrentInfo) (st : MemoryStorage σ) : Prop where
  pieceCount_eq : st.pieceCount = info.numPieces
  pieceLength_eq : st.pieceLength = info.pieceLength
  low : -2 ≤ st.capacity.tdiv info.pieceLength
  fits : CountFits info st.capacity
  bufferSize_eq : st.bufferSize = min info.numPieces (st.capacity.tdiv info.pieceLength + 2)
  buffers_length : (st.buffers.length : ℤ) = st.bufferSize
  buffer_index : ∀ b bf, at? st.buffers b = some bf → bf.index = b

/-- The bound on the size, as one on the count. -/
theorem countFits_iff_le {info : TorrentInfo} {s : ℤ} :
    CountFits info s ↔ s.tdiv info.pieceLength ≤ intMax - 2 := by
  unfold CountFits
  rw [show intMax - 1 = intMax - 2 + 1 by omega,
    ← tdiv_le_iff info.pieceLength_pos (by decide)]

/-- Where the count does not fit an `int` no pool size comes out. -/
theorem countFits_iff {info : TorrentInfo} {s : ℤ} (hlow : -2 ≤ s.tdiv info.pieceLength) :
    CountFits info s ↔ ∃ n, poolSize s info.pieceLength info.numPieces = .ok n := by
  rw [countFits_iff_le]
  constructor
  · intro hle
    have hmin : intMin ≤ s.tdiv info.pieceLength + 2 := by
      unfold intMin
      omega
    exact ⟨_, poolSize_eq_ok_iff.mpr ⟨⟨hmin, by omega⟩, rfl⟩⟩
  · rintro ⟨n, hn⟩
    have hmax := (poolSize_eq_ok_iff.mp hn).1.2
    omega

/-- **A pool with its capped quotient is sound.** -/
theorem Sized.sound {info : TorrentInfo} {st : MemoryStorage σ} (h : Sized info st) :
    PoolSound info st where
  nonneg := by
    have hlow := h.low
    have hcount := info.one_le_numPieces
    rw [h.bufferSize_eq]
    omega
  le_numPieces := by
    rw [h.bufferSize_eq]
    exact min_le_left _ _
  buffers_length := h.buffers_length
  buffer_index := h.buffer_index
  bufferSize_eq := by
    intro hc
    rw [h.bufferSize_eq, Int.tdiv_eq_ediv_of_nonneg hc]
  monotone := by
    intro c n hc hn
    have hq := tdiv_le_tdiv info.pieceLength_pos hc
    rw [(poolSize_eq_ok_iff.mp hn).2, h.bufferSize_eq]
    omega

/-! ## Construction -/

/-- **A constructed pool has its capped quotient.** -/
theorem sized_new {info : TorrentInfo} {memorySize : ℤ} {mHandle t : Bool} {torrent : σ}
    {st : MemoryStorage σ} (h : MemoryStorage.new info memorySize mHandle t torrent = .ok st)
    (hlow : -2 ≤ memorySize.tdiv info.pieceLength) : Sized info st := by
  obtain ⟨n, hn, hcap, hcount, hlen, hsize, hbufs⟩ := new_eq_ok h
  have hn' := (poolSize_eq_ok_iff.mp hn).2
  have hone := info.one_le_numPieces
  refine ⟨hcount, hlen, ?_, ?_, ?_, ?_, ?_⟩
  · rw [hcap]
    exact hlow
  · rw [hcap]
    exact (countFits_iff hlow).mpr ⟨n, hn⟩
  · rw [hsize, hcap, hn']
  · rw [hbufs, hsize, length_newBuffers]
    omega
  · intro b bf hb
    rw [hbufs] at hb
    rw [index_newBuffers hb, zero_add]

/-- **When the constructor leaves a sound pool.** -/
theorem exists_sound_new_iff {info : TorrentInfo} {memorySize : ℤ} (mHandle t : Bool)
    (torrent : σ) :
    (∃ st, MemoryStorage.new info memorySize mHandle t torrent = .ok st ∧ PoolSound info st) ↔
      -2 ≤ memorySize.tdiv info.pieceLength ∧ CountFits info memorySize := by
  constructor
  · rintro ⟨st, hst, hsound⟩
    obtain ⟨n, hn, -, -, -, hsize, -⟩ := new_eq_ok hst
    have hlow : -2 ≤ memorySize.tdiv info.pieceLength := by
      have hn' := (poolSize_eq_ok_iff.mp hn).2
      have hnonneg := hsound.nonneg
      omega
    exact ⟨hlow, (countFits_iff hlow).mpr ⟨n, hn⟩⟩
  · rintro ⟨hlow, hfits⟩
    obtain ⟨n, hn⟩ := (countFits_iff hlow).mp hfits
    have hst : MemoryStorage.new info memorySize mHandle t torrent = .ok _ :=
      bind_eq_ok_iff.mpr ⟨n, hn, rfl⟩
    exact ⟨_, hst, (sized_new hst hlow).sound⟩

/-! ## Growth -/

/-- **Growing keeps the capped quotient.** -/
theorem Sized.grow {info : TorrentInfo} {st : MemoryStorage σ} (h : Sized info st) {s n : ℤ}
    (hs : st.capacity < s) (hn : poolSize s st.pieceLength st.pieceCount = .ok n) :
    Sized info (st.grow s n) := by
  rw [h.pieceLength_eq, h.pieceCount_eq] at hn
  have hn' := (poolSize_eq_ok_iff.mp hn).2
  have hq := tdiv_le_tdiv info.pieceLength_pos hs.le
  have hlow := h.low
  have hone := info.one_le_numPieces
  have hsize := h.bufferSize_eq
  have hlen := h.buffers_length
  have hlow' : -2 ≤ s.tdiv info.pieceLength := hlow.trans hq
  refine ⟨h.pieceCount_eq, h.pieceLength_eq, hlow', (countFits_iff hlow').mpr ⟨n, hn⟩, hn',
    ?_, ?_⟩
  · show ((st.buffers ++ newBuffers st.bufferSize n st.pieceLength).length : ℤ) = n
    rw [List.length_append, length_newBuffers]
    omega
  · intro b bf hb
    rcases buffer_of_grow hb with hold | ⟨-, rfl⟩
    · exact h.buffer_index b bf hold
    · show st.bufferSize + (b - st.buffers.length) = b
      omega

/-- **A call that returns** was asked for a count that fits an `int`, and keeps the capped
quotient. -/
theorem Sized.next {info : TorrentInfo} {st st' : MemoryStorage σ} (h : Sized info st) {s : ℤ}
    (hs : setMemorySize st s = .ok st') : CountFits info s ∧ Sized info st' := by
  rcases setMemorySize_eq_ok_iff.mp hs with ⟨hle, rfl⟩ | ⟨hlt, n, hn, rfl⟩
  · -- no growth, and the capacity fits
    exact ⟨lt_of_le_of_lt hle h.fits, h⟩
  · have hgrow := h.grow hlt hn
    exact ⟨hgrow.fits, hgrow⟩

/-- **A call that is asked for** such a count returns. -/
theorem Sized.exists_next {info : TorrentInfo} {st : MemoryStorage σ} (h : Sized info st) {s : ℤ}
    (hs : CountFits info s) : ∃ st', setMemorySize st s = .ok st' := by
  rcases le_or_gt s st.capacity with hle | hlt
  · exact ⟨st, setMemorySize_of_le hle⟩
  · have hlow := h.low.trans (tdiv_le_tdiv info.pieceLength_pos hlt.le)
    obtain ⟨n, hn⟩ := (countFits_iff hlow).mp hs
    rw [← h.pieceLength_eq, ← h.pieceCount_eq] at hn
    exact ⟨_, setMemorySize_of_lt hlt hn⟩

/-- **A sequence of calls** leaves sound pools iff all their counts fit an `int`. -/
theorem Sized.foldlM_iff {info : TorrentInfo} {st : MemoryStorage σ} (h : Sized info st)
    (sizes : List ℤ) :
    (∀ done, done <+: sizes →
        ∃ st', done.foldlM setMemorySize st = .ok st' ∧ PoolSound info st') ↔
      ∀ s ∈ sizes, CountFits info s := by
  induction sizes generalizing st with
  | nil =>
      constructor
      · intro _ s hs
        exact absurd hs List.not_mem_nil
      · intro _ done hdone
        obtain rfl := List.prefix_nil.mp hdone
        exact ⟨st, rfl, h.sound⟩
  | cons s sizes ih =>
      rw [List.forall_mem_cons]
      constructor
      · intro hall
        obtain ⟨st₂, hst₂, -⟩ := hall [s] (List.prefix_append [s] sizes)
        obtain ⟨st₁, hst₁, -⟩ := bind_eq_ok_iff.mp hst₂
        obtain ⟨hfits, h₁⟩ := h.next hst₁
        refine ⟨hfits, (ih h₁).mp ?_⟩
        intro done hdone
        obtain ⟨st', hst', hsound⟩ := hall (s :: done) ((List.prefix_cons_inj s).mpr hdone)
        rw [List.foldlM_cons, hst₁, ok_bind] at hst'
        exact ⟨st', hst', hsound⟩
      · rintro ⟨hfits, hrest⟩ done hdone
        obtain ⟨st₁, hst₁⟩ := h.exists_next hfits
        rcases List.prefix_cons_iff.mp hdone with rfl | ⟨done', rfl, hdone'⟩
        · exact ⟨st, rfl, h.sound⟩
        · rw [List.foldlM_cons, hst₁, ok_bind]
          exact (ih (h.next hst₁).2).mpr hrest done' hdone'

/-! ## When the pool is sound throughout -/

/-- **When every call leaves a sound pool**: iff the first size is above minus three piece
lengths, and the count of buffers that it and every later size ask for fits an `int`. -/
theorem sound_throughout_iff (info : TorrentInfo) (memorySize : ℤ) (sizes : List ℤ)
    (mHandle t : Bool) (torrent : σ) :
    SoundThroughout info memorySize sizes mHandle t torrent ↔
      -(3 * info.pieceLength) < memorySize ∧ ∀ s ∈ memorySize :: sizes, CountFits info s := by
  have hlow : -(3 * info.pieceLength) < memorySize ↔
      -2 ≤ memorySize.tdiv info.pieceLength := by
    rw [neg_le_tdiv_iff info.pieceLength_pos (by decide)]
    rfl
  rw [hlow, List.forall_mem_cons]
  constructor
  · intro hall
    obtain ⟨st, hst, hsound⟩ := hall [] (List.nil_prefix)
    obtain ⟨st₀, hst₀, hrest⟩ := bind_eq_ok_iff.mp hst
    obtain rfl := Except.ok.inj hrest
    obtain ⟨hlow', hfits⟩ := (exists_sound_new_iff mHandle t torrent).mp ⟨st₀, hst₀, hsound⟩
    refine ⟨hlow', hfits, ((sized_new hst₀ hlow').foldlM_iff sizes).mp ?_⟩
    intro done hdone
    obtain ⟨st', hst', hsound'⟩ := hall done hdone
    rw [sized, hst₀, ok_bind] at hst'
    exact ⟨st', hst', hsound'⟩
  · rintro ⟨hlow', hfits, hrest⟩ done hdone
    obtain ⟨st₀, hst₀, -⟩ := (exists_sound_new_iff mHandle t torrent).mpr ⟨hlow', hfits⟩
    rw [sized, hst₀, ok_bind]
    exact ((sized_new hst₀ hlow').foldlM_iff sizes).mpr hrest done hdone

/-- A torrent of ten pieces of four bytes constructed with the size minus one hundred has a
pool of minus twenty-three buffers, and growing it to eight numbers the first buffer minus
twenty-three; with the size `2^40` the count has no value as an `int`. -/
theorem pool_below_zero :
    (∃ st, sized (quads 9) (-100) [] false false () = .ok st ∧ st.bufferSize = -23 ∧
      st.buffers = []) ∧
    (∃ st, sized (quads 9) (-100) [8] false false () = .ok st ∧ st.bufferSize = 4 ∧
      st.buffers.length = 27 ∧ st.buffers.head?.map MemoryBuffer.index = some (-23)) ∧
    sized (quads 9) (2 ^ 40) [] false false () = .error .conversion ∧
    ¬SoundThroughout (quads 9) (-100) [] false false () ∧
    ¬SoundThroughout (quads 9) 8 [2 ^ 40] false false () := by
  refine ⟨⟨_, rfl, rfl, rfl⟩, ⟨_, rfl, rfl, rfl, rfl⟩, rfl, ?_, ?_⟩
  · intro hall
    obtain ⟨st, hst, hsound⟩ := hall [] List.nil_prefix
    have hsize : (sized (quads 9) (-100) [] false false ()).map MemoryStorage.bufferSize
      = .ok (-23) := rfl
    rw [hst] at hsize
    have hneg : st.bufferSize = -23 := Except.ok.inj hsize
    have hnonneg := hsound.nonneg
    omega
  · intro hall
    obtain ⟨st, hst, -⟩ := hall [2 ^ 40] (List.prefix_refl _)
    have herr : sized (quads 9) 8 [2 ^ 40] false false () = .error .conversion := rfl
    rw [hst] at herr
    exact absurd herr (by simp)

end Libtorrent
