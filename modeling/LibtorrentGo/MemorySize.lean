/-
# The memory size of a torrent

Formalises `set_memory_storage` of `add_torrent_params.i` and
`memory_storage_constructor`.  The first is called on the params of one torrent, but it
leaves the size in the variable `memory_size` of the whole process, where the
constructor of the next storage finds it, whichever torrent that is for.

A history is any interleaving of the two steps for any number of torrents, newest step
first.
-/
import LibtorrentGo.Replay

namespace Libtorrent

variable {ι σ : Type}

/-- The steps that configure and construct storages. -/
inductive ConfigStep (ι : Type) where
  /-- `set_memory_storage(size)` on the params of torrent `i` -/
  | setMemoryStorage (i : ι) (size : ℤ) : ConfigStep ι
  /-- `memory_storage_constructor` for torrent `i` -/
  | construct (i : ι) : ConfigStep ι
  deriving DecidableEq, Repr

/-- The torrent a step is for. -/
def ConfigStep.torrent : ConfigStep ι → ι
  | .setMemoryStorage i _ => i
  | .construct i => i

/-- `memory_size`, and the params whose `storage` is `memory_storage_constructor`. -/
structure Process (ι : Type) where
  memorySize : ℤ
  storage : ι → Bool

variable [DecidableEq ι]

namespace Process

/-- The process as it starts. -/
def start : Process ι := ⟨0, fun _ => false⟩

/-- `add_torrent_params::set_memory_storage` on the params of torrent `i`. -/
def setMemoryStorage (s : Process ι) (i : ι) (size : ℤ) : Process ι where
  memorySize := size
  storage := Function.update s.storage i true

/-- What the process does in one step; a construction reads it only. -/
def step (s : Process ι) : ConfigStep ι → Process ι
  | .setMemoryStorage i size => s.setMemoryStorage i size
  | .construct _ => s

/-- The process after a history. -/
def after : List (ConfigStep ι) → Process ι
  | [] => start
  | c :: cs => (after cs).step c

/-- `memory_storage_constructor` for torrent `i`, called if its params say so. -/
def memoryStorageConstructor (s : Process ι) (info : ι → TorrentInfo) (i : ι)
    (mHandle t : Bool) (torrent : σ) : Option (Except Fault (MemoryStorage σ)) :=
  if s.storage i then some (MemoryStorage.new (info i) s.memorySize mHandle t torrent) else none

end Process

open Process

/-- The size most recently set on the params of torrent `i`. -/
def ownSize (i : ι) : List (ConfigStep ι) → Option ℤ
  | [] => none
  | .setMemoryStorage j size :: cs => if j = i then some size else ownSize i cs
  | .construct _ :: cs => ownSize i cs

/-- The size most recently set on any params. -/
def lastSize : List (ConfigStep ι) → Option ℤ
  | [] => none
  | .setMemoryStorage _ size :: _ => some size
  | .construct _ :: cs => lastSize cs

/-- The steps for torrent `i` alone. -/
def ownSteps (i : ι) (cs : List (ConfigStep ι)) : List (ConfigStep ι) :=
  cs.filter fun c => c.torrent = i

/-! ## What a construction finds -/

/-- A construction finds the last size anyone set. -/
theorem memorySize_after (cs : List (ConfigStep ι)) :
    (after cs).memorySize = (lastSize cs).getD 0 := by
  induction cs with
  | nil => rfl
  | cons c cs ih =>
      cases c with
      | setMemoryStorage i size => rfl
      | construct i => exact ih

/-- The params of a torrent ask for a memory storage once a size was set on them. -/
theorem storage_after (i : ι) (cs : List (ConfigStep ι)) :
    (after cs).storage i = (ownSize i cs).isSome := by
  induction cs with
  | nil => rfl
  | cons c cs ih =>
      cases c with
      | construct j => exact ih
      | setMemoryStorage j size =>
          show Function.update (after cs).storage j true i = _
          by_cases hj : j = i
          · subst hj
            simp [ownSize]
          · rw [Function.update_of_ne (Ne.symm hj), ih, ownSize, if_neg hj]

/-- A size set on one torrent's params was set. -/
theorem lastSize_isSome {i : ι} {cs : List (ConfigStep ι)} (h : (ownSize i cs).isSome = true) :
    (lastSize cs).isSome = true := by
  induction cs with
  | nil => exact h
  | cons c cs ih =>
      cases c with
      | setMemoryStorage j size => rfl
      | construct j => exact ih h

/-- A torrent's own steps set the sizes that were set on its params. -/
theorem ownSize_ownSteps (i : ι) (cs : List (ConfigStep ι)) :
    ownSize i (ownSteps i cs) = ownSize i cs ∧ lastSize (ownSteps i cs) = ownSize i cs := by
  induction cs with
  | nil => exact ⟨rfl, rfl⟩
  | cons c cs ih =>
      obtain ⟨hown, hlast⟩ := ih
      by_cases hi : c.torrent = i
      · have hcons : ownSteps i (c :: cs) = c :: ownSteps i cs :=
          List.filter_cons_of_pos (by simpa using hi)
        rw [hcons]
        cases c with
        | setMemoryStorage j size =>
            have hj : j = i := hi
            simp [ownSize, lastSize, hj]
        | construct j => exact ⟨hown, hlast⟩
      · have hcons : ownSteps i (c :: cs) = ownSteps i cs :=
          List.filter_cons_of_neg (by simpa using hi)
        rw [hcons]
        cases c with
        | setMemoryStorage j size =>
            have hj : ¬j = i := hi
            rw [ownSize, if_neg hj]
            exact ⟨hown, hlast⟩
        | construct j => exact ⟨hown, hlast⟩

/-- The capacity of a constructed storage is the size its constructor found. -/
theorem capacity_new {info : TorrentInfo} {memorySize : ℤ} {mHandle t : Bool} {torrent : σ}
    {st : MemoryStorage σ} (h : MemoryStorage.new info memorySize mHandle t torrent = .ok st) :
    st.capacity = memorySize := by
  obtain ⟨-, -, hcapacity, -⟩ := new_eq_ok h
  exact hcapacity

/-! ## The size of a torrent's own storage -/

/-- The storage constructed for torrent `i` behind the history `cs` has the capacity last
set on the torrent's own params, and as many buffers as if the torrent were alone. -/
def OwnStorage (info : ι → TorrentInfo) (cs : List (ConfigStep ι)) (i : ι) (mHandle t : Bool)
    (torrent : σ) (st : MemoryStorage σ) : Prop :=
  ownSize i cs = some st.capacity ∧
    ∃ alone, (after (ownSteps i cs)).memoryStorageConstructor info i mHandle t torrent
      = some (.ok alone) ∧ alone.bufferSize = st.bufferSize

/-- **When a torrent gets its own memory size**: the storage constructed for a torrent on
whose params a size was set is its own iff the last size set on any params is the last
one set on these. -/
theorem own_storage_iff {info : ι → TorrentInfo} {cs : List (ConfigStep ι)} {i : ι}
    {mHandle t : Bool} {torrent : σ} {st : MemoryStorage σ} (hown : (ownSize i cs).isSome = true)
    (hst : (after cs).memoryStorageConstructor info i mHandle t torrent = some (.ok st)) :
    OwnStorage info cs i mHandle t torrent st ↔ lastSize cs = ownSize i cs := by
  obtain ⟨own, hown'⟩ := Option.isSome_iff_exists.mp hown
  obtain ⟨last, hlast⟩ := Option.isSome_iff_exists.mp (lastSize_isSome hown)
  have hset : (after cs).storage i = true := by rw [storage_after, hown]
  rw [memoryStorageConstructor, if_pos hset, memorySize_after, hlast, Option.getD_some] at hst
  have hnew := Option.some.inj hst
  have hcap := capacity_new hnew
  constructor
  · rintro ⟨hcapacity, -⟩
    rw [hlast, hcapacity, hcap]
  · intro hsame
    rw [hlast] at hsame
    refine ⟨by rw [← hsame, hcap], st, ?_, rfl⟩
    obtain ⟨hsteps, hlast'⟩ := ownSize_ownSteps i cs
    have hset' : (after (ownSteps i cs)).storage i = true := by
      rw [storage_after, hsteps, hown]
    rw [memoryStorageConstructor, if_pos hset', memorySize_after, hlast', ← hsame,
      Option.getD_some, hnew]

/-- One torrent configured and constructed, with another configured before. -/
theorem own_storage_iff_last :
    ∃ st, (after [.setMemoryStorage true 8, .setMemoryStorage false 400]).memoryStorageConstructor
        (fun _ : Bool => quads 9) true false false () = some (.ok st) ∧
      (OwnStorage (fun _ : Bool => quads 9) [.setMemoryStorage true 8, .setMemoryStorage false 400]
          true false false () st ↔
        lastSize [.setMemoryStorage true 8, .setMemoryStorage false 400] =
          ownSize true [.setMemoryStorage true 8, .setMemoryStorage false 400]) := by
  have hst : (after [.setMemoryStorage true 8,
      .setMemoryStorage false 400]).memoryStorageConstructor (fun _ : Bool => quads 9) true false
        false () = some (.ok _) := rfl
  exact ⟨_, hst, own_storage_iff (by decide) hst⟩

/-- Two torrents are configured, then the first is constructed: it has the size of the
second, and ten buffers instead of four. -/
theorem own_size_overwritten :
    ∃ st, (after [.setMemoryStorage false 400, .setMemoryStorage true 8]).memoryStorageConstructor
        (fun _ : Bool => quads 9) true false false () = some (.ok st) ∧
      ownSize true [.setMemoryStorage false 400, .setMemoryStorage true 8] = some 8 ∧
      st.capacity = 400 ∧ st.bufferSize = 10 ∧
      ¬OwnStorage (fun _ : Bool => quads 9)
        [.setMemoryStorage false 400, .setMemoryStorage true 8] true false false () st := by
  have hst : (after [.setMemoryStorage false 400,
      .setMemoryStorage true 8]).memoryStorageConstructor (fun _ : Bool => quads 9) true false
        false () = some (.ok _) := rfl
  refine ⟨_, hst, by decide, by decide, by decide, ?_⟩
  rintro ⟨hown, -⟩
  exact absurd hown (by decide)

end Libtorrent
