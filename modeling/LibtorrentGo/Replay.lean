/-
# Playing calls

`play` runs a list of calls on a storage, one after another, as a program would.  What it
returns for a constructed storage is a run (`playNew_run`), so that a run can be given by
its calls.
-/
import LibtorrentGo.Regular

open MachineInt Subscript

namespace Libtorrent

variable {σ : Type}

/-- A call with at most `fuel` rounds of `trim`; nothing is returned where it is not valid
or does not complete. -/
def tryCall (env : Env σ) (fuel : ℕ) (st : MemoryStorage σ) (c : Call σ) :
    Option ((Call σ × Reply) × MemoryStorage σ) :=
  if c.Valid st then
    match exec env fuel st c with
    | .ok (r, st') => some ((c, r), st')
    | .error _ => none
  else none

/-- A call that is tried with success is a step. -/
theorem step_of_tryCall {env : Env σ} {fuel : ℕ} {st st' : MemoryStorage σ} {c : Call σ}
    {l : Call σ × Reply} (h : tryCall env fuel st c = some (l, st')) : Step env st l st' := by
  unfold tryCall at h
  split at h
  · rename_i hv
    cases he : exec env fuel st c with
    | error e => simp [he] at h
    | ok v =>
        simp only [he, Option.some.injEq, Prod.mk.injEq] at h
        obtain ⟨rfl, rfl⟩ := h
        exact ⟨hv, fuel, he⟩
  · exact absurd h (by simp)

/-- Plays the calls `cs` behind the history `h`. -/
def play (env : Env σ) (fuel : ℕ) :
    List (Call σ) → History σ → MemoryStorage σ → Option (History σ × MemoryStorage σ) :=
  Runs.replay (tryCall env fuel)

/-- Plays the calls `cs` on the storage the constructor returns. -/
def playNew (env : Env σ) (fuel : ℕ) (info : TorrentInfo) (memorySize : ℤ) (torrent : σ)
    (cs : List (Call σ)) : Option (History σ × MemoryStorage σ) :=
  match MemoryStorage.new info memorySize false false torrent with
  | .ok st => play env fuel cs [] st
  | .error _ => none

/-- **Calls played on a constructed storage are a run.** -/
theorem playNew_run {env : Env σ} {info : TorrentInfo} {fuel : ℕ} {memorySize : ℤ} {torrent : σ}
    {cs : List (Call σ)} {h : History σ} {st : MemoryStorage σ} (hm : 0 ≤ memorySize)
    (hp : playNew env fuel info memorySize torrent cs = some (h, st)) :
    StorageRun env info h st := by
  unfold playNew at hp
  cases hn : MemoryStorage.new info memorySize false false torrent with
  | error e => simp [hn] at hp
  | ok st₀ =>
      simp only [hn] at hp
      exact Runs.replay_run (fun _ _ _ _ => step_of_tryCall)
        (.start ⟨memorySize, false, false, torrent, hm, hn⟩) hp

/-- Calls played in a state follow it. -/
theorem play_run (env : Env σ) (fuel : ℕ) (cs : List (Call σ)) {st₀ st : MemoryStorage σ}
    {h : History σ} (hp : play env fuel cs [] st₀ = some (h, st)) : Continuation env st₀ h st :=
  Runs.replay_run (fun _ _ _ _ => step_of_tryCall) (.start rfl) hp

/-- Whatever the memory size, the calls lead to a reached state. -/
theorem playNew_reached {env : Env σ} {info : TorrentInfo} {fuel : ℕ} {memorySize : ℤ}
    {torrent : σ} {cs : List (Call σ)} {h : History σ} {st : MemoryStorage σ}
    (hp : playNew env fuel info memorySize torrent cs = some (h, st)) : Reached env info st := by
  unfold playNew at hp
  cases hn : MemoryStorage.new info memorySize false false torrent with
  | error e => simp [hn] at hp
  | ok st₀ =>
      simp only [hn] at hp
      have hrun := play_run env fuel cs hp
      refine Runs.Run.invariant (I := Reached env info) ?_ ?_ hrun
      · rintro st rfl
        exact .constructed hn
      · rintro st l st' hst ⟨-, fuel', he⟩
        exact hst.called he

/-! ## A torrent to play with -/

/-- A torrent of `n` pieces of four bytes. -/
def quads (n : ℕ) : TorrentInfo where
  numPieces := n + 1
  pieceLength := 4
  pieceSize := fun _ => 4
  one_le_numPieces := by omega
  pieceLength_pos := by decide
  pieceLength_le := by decide
  pieceSize_pos := fun _ _ _ => by decide
  pieceSize_le := fun _ _ _ => le_rfl

/-- A torrent of `n` pieces of four bytes and a last one of two. -/
def quadsAndPair (n : ℕ) : TorrentInfo where
  numPieces := n + 1
  pieceLength := 4
  pieceSize := fun i => if i = n then 2 else 4
  one_le_numPieces := by omega
  pieceLength_pos := by decide
  pieceLength_le := by decide
  pieceSize_pos := fun i _ _ => by split <;> decide
  pieceSize_le := fun i _ _ => by split <;> decide

/-- A clock that ticks at every reading, and a torrent that wants every piece. -/
def ticking : Env Unit where
  clock := fun n => n
  piecePriority := fun _ _ _ => 4
  resetPieceDeadline := fun s _ => s
  setPiecePriority := fun s _ _ => s
  weDontHave := fun s _ => s

/-- Its readings strictly increase. -/
theorem strictMono_ticking : StrictMono ticking.clock := fun _ _ h => Int.ofNat_lt.mpr h

/-- A torrent that keeps the pieces it has and the priorities set so far, newest first;
pieces whose priority was never set have priority 4. -/
structure Picker where
  had : List ℤ
  priorities : List (ℤ × ℤ)
  deriving DecidableEq, Repr

/-- The clock that ticks at every reading, with such a torrent. -/
def picking : Env Picker where
  clock := fun n => n
  piecePriority := fun _ s i => (s.priorities.lookup i).getD 4
  resetPieceDeadline := fun s _ => s
  setPiecePriority := fun s i v => { s with priorities := (i, v) :: s.priorities }
  weDontHave := fun s i => { s with had := s.had.filter fun j => j ≠ i }

/-- Its readings strictly increase as well. -/
theorem strictMono_picking : StrictMono picking.clock := fun _ _ h => Int.ofNat_lt.mpr h

end Libtorrent
