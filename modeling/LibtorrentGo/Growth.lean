/-
# Growth requests

A `set_memory_size` is ignored, or only moves the capacity and the limit, or adds buffers
behind those there are.  Whichever it is, two of them in a row leave what the one with the
greater size would have left (`absorbs_setMemorySize`), so that any list of them, in any
order, comes to one call with its maximum, and none of them disturbs a piece or a buffer
(`growth_collapses`).

This holds in every reached state, whatever is resident there and whatever the counters say.
-/
import LibtorrentGo.Absorbing
import LibtorrentGo.PoolSize
import LibtorrentGo.Regular

open Absorbing MachineInt Subscript

namespace Libtorrent

open MemoryStorage

variable {σ : Type}

/-! ## Growing twice -/

/-- Buffers that are added in two portions. -/
theorem newBuffers_append {lo mid hi : ℤ} (length : ℤ) (h0 : lo ≤ mid) (h1 : mid ≤ hi) :
    newBuffers lo mid length ++ newBuffers mid hi length = newBuffers lo hi length := by
  have hsplit : (hi - lo).toNat = (mid - lo).toNat + (hi - mid).toNat := by omega
  unfold newBuffers
  rw [hsplit, List.range_add, List.map_append, List.map_map]
  congr 2
  funext k
  show MemoryBuffer.new (mid + k) length =
    MemoryBuffer.new (lo + (((mid - lo).toNat + k : ℕ) : ℤ)) length
  congr 1
  omega

/-- Two growths are one. -/
theorem grow_grow {st : MemoryStorage σ} {s n s' n' : ℤ} (h0 : st.bufferSize ≤ n)
    (h1 : n ≤ n') : (st.grow s n).grow s' n' = st.grow s' n' := by
  have hbuffers : (st.buffers ++ newBuffers st.bufferSize n st.pieceLength) ++
      newBuffers n n' st.pieceLength =
        st.buffers ++ newBuffers st.bufferSize n' st.pieceLength := by
    rw [List.append_assoc, newBuffers_append st.pieceLength h0 h1]
  unfold grow
  rw [← hbuffers]

/-- A size above the capacity whose count fits an `int` gives a pool size. -/
theorem Regular.exists_poolSize {env : Env σ} {info : TorrentInfo} {st : MemoryStorage σ}
    (h : Regular env info st) {s : ℤ} (hs : st.capacity < s) (hfits : CountFits info s) :
    ∃ n, poolSize s st.pieceLength st.pieceCount = .ok n := by
  have hq := tdiv_le_tdiv info.pieceLength_pos hs.le
  have hmin := (poolSize_eq_ok_iff.mp h.poolSize_eq).1.1
  have hmax := countFits_iff_le.mp hfits
  rw [h.pieceLength_eq, h.pieceCount_eq]
  exact ⟨_, poolSize_eq_ok_iff.mpr ⟨⟨by omega, by omega⟩, rfl⟩⟩

/-- **Growth requests absorb each other.** -/
theorem absorbs_setMemorySize (env : Env σ) (info : TorrentInfo) :
    Absorbs (setMemorySize (σ := σ)) (Regular env info) (CountFits info) where
  served := by
    intro st s h hfits
    rcases le_or_gt s st.capacity with hle | hlt
    · exact ⟨st, setMemorySize_of_le hle, h⟩
    · obtain ⟨n, hn⟩ := h.exists_poolSize hlt hfits
      exact ⟨_, setMemorySize_of_lt hlt hn, (h.grow hlt hn).1⟩
  absorbed := by
    intro st st' s s' h hfits hfits' hs
    rcases setMemorySize_eq_ok_iff.mp hs with ⟨hle, rfl⟩ | ⟨hlt, n, hn, rfl⟩
    · -- the first request is ignored
      rcases le_total s s' with hss | hss
      · rw [max_eq_right hss]
      · rw [max_eq_left hss, setMemorySize_of_le hle, setMemorySize_of_le (hss.trans hle)]
    · rcases le_or_gt s' s with hss | hss
      · -- the second one is
        rw [max_eq_left hss, hs]
        exact setMemorySize_of_le hss
      · obtain ⟨hgrown, hle⟩ := h.grow hlt hn
        obtain ⟨n', hn'⟩ := h.exists_poolSize (hlt.trans hss) hfits'
        have hle' := (hgrown.grow hss hn').2
        rw [max_eq_right hss.le, setMemorySize_of_lt (hlt.trans hss) hn']
        have htwice : setMemorySize (st.grow s n) s' = .ok ((st.grow s n).grow s' n') :=
          setMemorySize_of_lt hss hn'
        rw [htwice, grow_grow hle hle']

/-! ## What is left alone -/

/-- Every piece and every buffer of `st` is the same in `st'`, which may have more buffers. -/
structure Undisturbed (st st' : MemoryStorage σ) : Prop where
  pieces : st'.pieces = st.pieces
  buffers : ∀ b bf, at? st.buffers b = some bf → at? st'.buffers b = some bf

/-- **A `set_memory_size` disturbs nothing.** -/
theorem undisturbed_setMemorySize {st st' : MemoryStorage σ} {s : ℤ}
    (hs : setMemorySize st s = .ok st') : Undisturbed st st' := by
  rcases setMemorySize_eq_ok_iff.mp hs with ⟨-, rfl⟩ | ⟨-, n, -, rfl⟩
  · exact ⟨rfl, fun _ _ hb => hb⟩
  · exact ⟨rfl, fun _ _ hb => at?_grow hb s n⟩

/-! ## Lists of requests -/

/-- **Growth requests commute and collapse.**  A list of sizes whose counts fit an `int`, asked
for in any order, leaves what one call with its maximum leaves, and none of the calls disturbs
a piece or a buffer. -/
theorem growth_collapses {env : Env σ} {info : TorrentInfo} {st : MemoryStorage σ}
    (hr : Reached env info st) {sizes order : List ℤ} {m : ℤ}
    (hfits : ∀ s ∈ sizes, CountFits info s) (hmax : IsGreatest {s | s ∈ sizes} m)
    (horder : order.Perm sizes) :
    ∃ st', setMemorySize st m = .ok st' ∧ order.foldlM setMemorySize st = .ok st' ∧
      ∀ done s rest, order = done ++ s :: rest →
        ∃ st₁ st₂, done.foldlM setMemorySize st = .ok st₁ ∧ setMemorySize st₁ s = .ok st₂ ∧
          Undisturbed st₁ st₂ := by
  have hreg := hr.regular
  have habs := absorbs_setMemorySize env info
  obtain ⟨st', hst', -⟩ := habs.served hreg (hfits m hmax.1)
  refine ⟨st', hst', ?_, ?_⟩
  · rw [habs.foldlM_eq_of_perm hreg hfits hmax horder, hst']
  · intro done s rest hsplit
    have hmem : ∀ r ∈ done ++ s :: rest, CountFits info r := by
      intro r hr
      rw [← hsplit] at hr
      exact hfits r (horder.mem_iff.mp hr)
    obtain ⟨st₁, h₁, hreg₁⟩ := habs.exists_foldlM hreg fun r hr =>
      hmem r (List.mem_append_left _ hr)
    obtain ⟨st₂, h₂, -⟩ := habs.served hreg₁
      (hmem s (List.mem_append_right done List.mem_cons_self))
    exact ⟨st₁, st₂, h₁, h₂, undisturbed_setMemorySize h₂⟩

/-- Three requests, with a reserved piece in one of two buffers. -/
theorem growth_collapses_three :
    ∃ h st, playNew ticking 3 (quads 9) 0 () [.updateReservedPieces [0], .writev [[1]] 0 0]
        = some (h, st) ∧
      ∃ st', setMemorySize st 40 = .ok st' ∧ [16, 40, 8].foldlM setMemorySize st = .ok st' ∧
        ∀ done s rest, [16, 40, 8] = done ++ s :: rest →
          ∃ st₁ st₂, done.foldlM setMemorySize st = .ok st₁ ∧ setMemorySize st₁ s = .ok st₂ ∧
            Undisturbed st₁ st₂ := by
  have hplay : playNew ticking 3 (quads 9) 0 () [.updateReservedPieces [0], .writev [[1]] 0 0]
      = some (_, _) := rfl
  have hle : ∀ s ∈ ([8, 16, 40] : List ℤ), s ≤ 40 := by decide
  have hmax : IsGreatest {s | s ∈ ([8, 16, 40] : List ℤ)} 40 := ⟨by decide, hle⟩
  exact ⟨_, _, hplay, growth_collapses (playNew_reached hplay) (by decide) hmax (by decide)⟩

end Libtorrent
