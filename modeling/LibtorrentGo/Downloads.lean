/-
# How often a piece is needed again

A piece that was evicted and is wanted again has to be written again, which is to say
downloaded.  How often that happens is the price of the replacement policy, and the policy is
as good as any: a storage that keeps `k` pieces gives a buffer to a piece without one at most
`k / (k + 1 - m)` times as often as any other way of serving the same accesses fetches a piece
while it holds `m` at most, be it one that foresees them all, but for what it takes to fill the
pool (`refills_le`).
-/
import LibtorrentGo.Paging
import LibtorrentGo.WorkingSet

open Paging Subscript

namespace Libtorrent

open MemoryStorage

variable {σ : Type}

/-- The call touched a piece that had no buffer: it gave it one. -/
def refilled (e : CallEntry σ) : Bool :=
  match touched e with
  | some p => decide (¬Resident e.before p)
  | none => false

/-- How many calls of a run gave a piece a buffer. -/
def refills (h : History σ) : ℕ := h.countP refilled

section Ordinary

variable {env : Env σ} {info : TorrentInfo} {memorySize : ℤ} {mHandle t : Bool} {torrent : σ}
  {h : History σ} {st : MemoryStorage σ}

/-- The pieces a storage holds are the ones requested last. -/
theorem ConstructedRun.mem_recent_iff (hclock : StrictMono env.clock) (hsteady : Steady env)
    (hm : 0 ≤ memorySize) (hr : ConstructedRun env info memorySize mHandle t torrent h st)
    (hcalls : ∀ e ∈ h, e.label.1.Ordinary memorySize)
    (hwanted : ∀ e ∈ h, e.label.1.FindsWanted env e.before) (q : ℤ) :
    q ∈ recent (kept info memorySize) (h.filterMap touched) ↔ Resident st q := by
  have hqueue := ConstructedRun.queue_eq hclock hsteady hm hr hcalls hwanted
  rw [← ((ConstructedRun.storageRun hm hr).ranked hclock).residents, hqueue, recent_eq,
    List.mem_reverse, touches]

/-- As many are requested last as there are buffers in use. -/
theorem ConstructedRun.length_recent (hclock : StrictMono env.clock) (hsteady : Steady env)
    (hm : 0 ≤ memorySize) (hr : ConstructedRun env info memorySize mHandle t torrent h st)
    (hcalls : ∀ e ∈ h, e.label.1.Ordinary memorySize)
    (hwanted : ∀ e ∈ h, e.label.1.FindsWanted env e.before) :
    (recent (kept info memorySize) (h.filterMap touched)).length = usedBuffers st := by
  have hqueue := ConstructedRun.queue_eq hclock hsteady hm hr hcalls hwanted
  rw [← Ranked.length_eq hclock hsteady (ConstructedRun.storageRun hm hr), hqueue, recent_eq,
    List.length_reverse, touches]

/-- **What a run gives buffers to is what it missed** of its accesses. -/
theorem ConstructedRun.refills_eq (hclock : StrictMono env.clock) (hsteady : Steady env)
    (hm : 0 ≤ memorySize) (hr : ConstructedRun env info memorySize mHandle t torrent h st)
    (hcalls : ∀ e ∈ h, e.label.1.Ordinary memorySize)
    (hwanted : ∀ e ∈ h, e.label.1.FindsWanted env e.before) :
    refills h = misses (kept info memorySize) (h.filterMap touched) := by
  induction hr with
  | start _ => rfl
  | @next g s s' l hrun hstep ih =>
      have hrest := (List.forall_mem_cons.mp hcalls).2
      have hwrest := (List.forall_mem_cons.mp hwanted).2
      have hold := ih hrest hwrest
      unfold refills at hold ⊢
      rw [List.countP_cons, hold, refilled]
      cases ht : touched ⟨s, l, s'⟩ with
      | none =>
          rw [List.filterMap_cons_none ht]
          rfl
      | some p =>
          have hmem := ConstructedRun.mem_recent_iff hclock hsteady hm hrun hrest hwrest p
          rw [List.filterMap_cons_some ht, misses]
          by_cases hp : Resident s p
          · simp [hmem.mpr hp, hp]
          · simp [mt hmem.mp hp, hp]

/-- **No storage of `m` pieces fetches much less.**  Of ordinary calls on a storage that keeps
`k` pieces, let any other one serve the accesses, holding at most `m` pieces at a time and
fetching `n` in all: `k + 1 - m` times the number of calls that gave a piece a buffer is at most
`k` times `n`, up to what the pieces amount to that are held in the end. -/
theorem refills_le (hclock : StrictMono env.clock) (hsteady : Steady env) (hm : 0 ≤ memorySize)
    (hr : ConstructedRun env info memorySize mHandle t torrent h st)
    (hcalls : ∀ e ∈ h, e.label.1.Ordinary memorySize)
    (hwanted : ∀ e ∈ h, e.label.1.FindsWanted env e.before) {m n : ℕ} {S : Finset ℤ}
    (hserved : Served m (h.filterMap touched) S n) :
    (kept info memorySize + 1 - m) * refills h + kept info memorySize * S.card ≤
      kept info memorySize * n + (kept info memorySize + 1 - m) * usedBuffers st := by
  rw [ConstructedRun.refills_eq hclock hsteady hm hr hcalls hwanted,
    ← ConstructedRun.length_recent hclock hsteady hm hr hcalls hwanted]
  exact misses_le (kept info memorySize) hserved

end Ordinary

/-- Three pieces in turn and the first one again, where two are kept: the storage gives a buffer
four times, and one that foresees the last access fetches three times. -/
theorem refills_le_three_pieces :
    StrictMono picking.clock ∧ Steady picking ∧
    ∃ h st, playNew picking 3 (quads 9) 4 ⟨[], []⟩ [.setTorrentHandle true, .writev [[1]] 0 0,
        .writev [[2]] 1 0, .writev [[3]] 2 0, .outside ⟨[], [(0, 4)]⟩, .writev [[1]] 0 0]
          = some (h, st) ∧
      refills h = 4 ∧ kept (quads 9) 4 = 2 ∧
      (kept (quads 9) 4 + 1 - 2) * refills h + kept (quads 9) 4 * ({0, 2} : Finset ℤ).card ≤
        kept (quads 9) 4 * 3 + (kept (quads 9) 4 + 1 - 2) * usedBuffers st := by
  have hplay : playNew picking 3 (quads 9) 4 ⟨[], []⟩ [.setTorrentHandle true,
    .writev [[1]] 0 0, .writev [[2]] 1 0, .writev [[3]] 2 0, .outside ⟨[], [(0, 4)]⟩,
    .writev [[1]] 0 0] = some (_, _) := rfl
  have hsteady : Steady picking := fun _ _ _ _ => rfl
  have hserved : Served 2 [0, 2, 1, 0] ({0, 2} : Finset ℤ) 3 := by
    have hfirst : Served 2 [0] ({0} : Finset ℤ) 1 := .next 0 .start (by decide) (by decide)
    have hsecond : Served 2 [1, 0] ({0, 1} : Finset ℤ) 2 := .next 1 hfirst (by decide) (by decide)
    have hthird : Served 2 [2, 1, 0] ({0, 2} : Finset ℤ) 3 :=
      .next 2 hsecond (by decide) (by decide)
    exact .next 0 hthird (by decide) (by decide)
  refine ⟨strictMono_picking, hsteady, _, _, hplay, by decide, by decide, ?_⟩
  exact refills_le strictMono_picking hsteady (by decide) (playNew_constructed hplay)
    (by decide) (by decide) hserved

end Libtorrent
