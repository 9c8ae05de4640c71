/-
# How many steps a call takes

Whatever other threads do, a call takes a bounded number of steps of its own: a constant, three
for each chunk it copies, and six for each buffer in case it has to trim, unless one of its
searches comes back with nothing (`own_steps_le`).  While a thread trims nobody else gives a
buffer away or takes one, so each of its rounds that finds a victim leaves one buffer less in
use.

A search reads the clock before it waits for its lock.  It comes back with nothing exactly if
every piece it might choose was accessed in between (`search_fails_iff`).
-/
import LibtorrentGo.Orderly
import LibtorrentGo.Termination

open Locks Subscript

namespace Libtorrent

open MemoryStorage

variable {σ ι : Type}

/-! ## The steps ahead -/

/-- The steps that are ahead at a stage at most, in a pool of `n` buffers of which `used` are
in use, if all searches find something. -/
def Stage.ahead (n used : ℕ) : Stage → ℕ
  | .look _ (.writev bufs _) => 3 * bufs.length + 6 * n + 14
  | .look _ (.readv bufs _) => 3 * bufs.length + 4
  | .look _ (.read _ _ _) => 7
  | .get _ (.writev bufs _) => 3 * bufs.length + 6 * n + 13
  | .get _ (.readv bufs _) => 3 * bufs.length + 3
  | .get _ (.read _ _ _) => 6
  | .check _ _ _ _ => 5
  | .measure _ _ _ _ => 4
  -- a chunk takes three steps
  | .chunk _ (.writev bufs _ _) => 3 * bufs.length + 6 * n + 12
  | .chunk _ (.readv _ bufs _ _ _) => 3 * bufs.length + 2
  | .aim _ _ (.writev _ bufs _ _) => 3 * bufs.length + 6 * n + 14
  | .aim _ _ (.readv _ _ bufs _ _ _) => 3 * bufs.length + 4
  | .aim _ _ (.read _ _ _) => 3
  | .move _ _ _ (.writev _ bufs _ _) => 3 * bufs.length + 6 * n + 13
  | .move _ _ _ (.readv _ _ bufs _ _ _) => 3 * bufs.length + 3
  | .move _ _ _ (.read _ _ _) => 2
  | .finish _ _ _ => 1
  | .account _ _ => 6 * n + 11
  | .test _ _ => 6 * n + 10
  | .retest _ _ => 6 * n + 9
  | .lock _ _ => 6 * n + 8
  -- a round takes six steps at most, and frees a buffer
  | .round _ _ => 6 * used + 7
  | .seek _ _ true => 6 * used + 6
  | .search _ _ true _ => 6 * used + 5
  | .seek _ _ false => 6 * used + 4
  | .search _ _ false _ => 6 * used + 3
  | .remove _ _ _ => 6 * used + 2
  | .grow _ => 1
  | .reserve pieces => pieces.length + 1

/-- The steps behind the first one that a call takes at most. -/
def Task.steps (n : ℕ) : Task σ → ℕ
  | .transfer _ (.writev bufs _) => 3 * bufs.length + 6 * n + 14
  | .transfer _ (.readv bufs _) => 3 * bufs.length + 4
  | .transfer _ (.read _ _ _) => 7
  | .setMemorySize _ => 1
  | .updateReservedPieces pieces => pieces.length + 1
  | _ => 0

/-- The steps that are ahead of thread `i`. -/
def ahead (n : ℕ) (i : ι) (C : Crew ι σ) : ℕ :=
  ((C.stage i).map (Stage.ahead n (usedBuffers C.st))).getD 0

/-- Who does not hold `m_mutex` does not mind how many buffers are in use. -/
theorem Stage.ahead_eq {s : Stage} (hs : s.holdsM = false) (n used used' : ℕ) :
    s.ahead n used = s.ahead n used' := by
  cases s with
  | look p job => cases job <;> rfl
  | get p job => cases job <;> rfl
  | chunk p c => cases c <;> rfl
  | aim p toCopy k => cases k <;> rfl
  | move p b toCopy k => cases k <;> rfl
  | round _ _ => exact absurd hs (by simp [Stage.holdsM])
  | seek _ _ _ => exact absurd hs (by simp [Stage.holdsM])
  | search _ _ _ _ => exact absurd hs (by simp [Stage.holdsM])
  | remove _ _ _ => exact absurd hs (by simp [Stage.holdsM])
  | _ => rfl

/-- A copy that goes on has a step less ahead. -/
theorem Onward.ahead {st : MemoryStorage σ} {s s' : Stage} (h : Onward st s s') (n used : ℕ) :
    s'.ahead n used + 1 = s.ahead n used := by
  cases h with
  | aim _ =>
      rename_i k _
      cases k <;> rfl
  | writeChunk _ =>
      simp only [Stage.ahead, List.length_cons]
      omega
  | written =>
      simp only [Stage.ahead, List.length_nil]
      omega
  | readChunk _ =>
      simp only [Stage.ahead, List.length_cons]
      omega
  | _ => rfl

section Steps

variable [DecidableEq ι] {env : Env σ} {info : TorrentInfo} {C C' : Crew ι σ} {i : ι}
  {r : Option Reply}

@[simp] theorem ahead_next (n : ℕ) (C : Crew ι σ) (i : ι) (st : MemoryStorage σ) (s : Stage) :
    ahead n i (C.next i st s) = s.ahead n (usedBuffers st) := by
  simp [ahead, Crew.next]

@[simp] theorem ahead_done (n : ℕ) (C : Crew ι σ) (i : ι) (st : MemoryStorage σ) :
    ahead n i (C.done i st) = 0 := by
  simp [ahead, Crew.done]

/-- A search finds a buffer, or nothing, and then goes on to all pieces, or gives up. -/
theorem search_cases (hw : WellFormed info C.st) {p n minTime : ℤ} {checkRead : Bool}
    (hturn : turn env C i (.search p n checkRead minTime) = .ok (r, C')) :
    (∃ b, C' = C.next i C.st (.remove p n b)) ∨
    C' = C.next i C.st (if checkRead then .seek p n false else .round p n) := by
  rw [turn] at hturn
  rcases findLastLoop_cases env hw.toLinked p checkRead minTime with hloop | ⟨b, bf, hloop, hb, -⟩
  · rw [hloop] at hturn
    exact Or.inr (Prod.mk.inj (Except.ok.inj hturn)).2.symm
  · have hbounds := (hw.buffer_bounds hb).1
    rw [hloop] at hturn
    obtain ⟨-, rfl⟩ := Prod.mk.inj (Except.ok.inj hturn)
    exact Or.inl ⟨b, by rw [if_pos (by omega)]⟩

/-- A step thread `i` makes behind the first one of a call. -/
def isOwn (i : ι) (e : CrewEntry ι σ) : Bool :=
  match e.label.1 with
  | .go j => decide (j = i)
  | .enter _ _ => false

/-- The steps that are allowed for the call that thread `i` enters. -/
def allowance (n : ℕ) (i : ι) (e : CrewEntry ι σ) : ℕ :=
  match e.label.1 with
  | .enter j task => if j = i then task.steps n else 0
  | .go _ => 0

/-- Thread `i` has searched among all pieces and found none. -/
def findsNothing (i : ι) (e : CrewEntry ι σ) : Bool :=
  isOwn i e && match e.before.stage i, e.after.stage i with
    | some (.search _ _ false _), some (.round _ _) => true
    | _, _ => false

/-- **A step of the thread itself** leaves one step less ahead, unless it finds nothing. -/
theorem ahead_turn (hord : Orderly info C) {s : Stage} (hs : C.stage i = some s)
    (hturn : turn env C i s = .ok (r, C')) {n : ℕ} (hn : C.st.buffers.length ≤ n) :
    ahead n i C' + 1 ≤ ahead n i C +
      5 * if findsNothing i ⟨C, (.go i, r), C'⟩ = true then 1 else 0 := by
  have hahead : ahead n i C = s.ahead n (usedBuffers C.st) := by
    rw [ahead, hs]
    rfl
  have hused : usedBuffers C.st ≤ n := le_trans List.countP_le_length hn
  rw [hahead]
  by_cases hsearch : ∃ p m checkRead minTime, s = .search p m checkRead minTime
  · obtain ⟨p, m, checkRead, minTime, rfl⟩ := hsearch
    rcases search_cases hord.wellFormed hturn with ⟨b, rfl⟩ | rfl
    · cases checkRead with
      | true =>
          simp [Stage.ahead]
          omega
      | false => simp [Stage.ahead]
    · cases checkRead with
      | true => simp [Stage.ahead]
      | false =>
          -- the one step that costs more than it leaves
          have hnothing : findsNothing i ⟨C, (.go i, r), C.next i C.st
              (if false = true then .seek p m false else .round p m)⟩ = true := by
            simp [findsNothing, isOwn, hs, Crew.next]
          rw [if_pos hnothing]
          simp [Stage.ahead]
  · refine le_trans ?_ (Nat.le_add_right _ _)
    have hstroke := hord.stroke_of_turn hs hturn
    cases hstroke with
    | @look p job s' hnext =>
        rcases hnext with rfl | rfl
        all_goals
          cases job
          all_goals simp [Stage.ahead, Job.begins]
    | @refuse p job r torrent => cases job <;> simp [Stage.ahead]
    | @find p job _ => cases job <;> simp [Stage.ahead, Job.begins]
    | onward hon => simp [hon.ahead]
    | full _ hnext =>
        rcases hnext with ⟨rfl, rfl⟩ | ⟨rfl, rfl⟩ | ⟨rfl, checkRead, rfl⟩
        · simp [Stage.ahead]
        · simp [Stage.ahead]
        · cases checkRead <;> simp [Stage.ahead]
    | room _ hs' => rcases hs' with rfl | rfl <;> simp [Stage.ahead]
    | lock =>
        simp [Stage.ahead]
        omega
    | @seek p m checkRead =>
        have hcount : usedBuffers (C.st.wait 1) = usedBuffers C.st := rfl
        cases checkRead <;> simp [Stage.ahead, hcount]
    | spot _ _ _ => exact absurd ⟨_, _, _, _, rfl⟩ hsearch
    | miss _ => exact absurd ⟨_, _, _, _, rfl⟩ hsearch
    | @remove p m v b vc bf ho _ =>
        have hcount : usedBuffers (C.st.evict env v vc b bf) + 1 = usedBuffers C.st :=
          usedBuffers_evict ho
        simp [Stage.ahead]
        omega
    | _ => simp [Stage.ahead]

/-- While thread `i` holds `m_mutex`, no other one gives a buffer away or takes one. -/
theorem Stroke.usedBuffers_eq {j : ι} {s : Stage} (hst : Stroke env C j s r C')
    (hw : WellFormed info C.st) (hl : Locked C) (hj : C.stage j = some s) (hfree : Free C s)
    (hi : C.mMutex = some i) (hne : j ≠ i) : usedBuffers C'.st = usedBuffers C.st := by
  cases hst with
  | place _ _ _ => exact absurd (hfree.symm.trans hi) (by simp)
  | copy hb _ => exact usedBuffers_overwrite hb _
  | finish ho => exact usedBuffers_touch ho _
  | @account _ n _ pc bf ho =>
      exact (hw.revise ho { pc with size := pc.size + n }
        { bf with accessed := some (env.clock C.st.ticks) } ⟨rfl, rfl, rfl⟩
        ⟨rfl, rfl, rfl, rfl⟩ (C.st.ticks + 1)).2.1
  | remove _ _ =>
      have hholds := (hl.holder j).mpr ⟨_, hj, rfl⟩
      exact absurd (Option.some.inj (hholds.symm.trans hi)) hne
  | grow _ => exact absurd (hfree.symm.trans hi) (by simp)
  | _ => rfl

/-- The first step of a call leaves no more ahead than the call is allowed. -/
theorem ahead_enter {task : Task σ} (hs : C.stage i = none)
    (henter : enterTurn C i task = .ok (r, C')) (n : ℕ) : ahead n i C' ≤ task.steps n := by
  rcases (entered_of_enter henter).stage with hsame | ⟨hstage, -⟩
  · rw [ahead, hsame, hs]
    exact Nat.zero_le _
  · rw [ahead, hstage, Function.update_self]
    cases task with
    | transfer p job => cases job <;> exact le_rfl
    | _ => exact le_rfl

omit [DecidableEq ι] in
/-- What is ahead of a thread depends on its stage, and on the buffers while it trims. -/
theorem ahead_congr (hl : Locked C) (hsame : C'.stage i = C.stage i)
    (hused : C.mMutex = some i → usedBuffers C'.st = usedBuffers C.st) (n : ℕ) :
    ahead n i C' = ahead n i C := by
  rw [ahead, ahead, hsame]
  cases hi : C.stage i with
  | none => rfl
  | some s =>
      cases hholds : s.holdsM with
      | true => rw [hused ((hl.holder i).mpr ⟨s, hi, hholds⟩)]
      | false => exact Stage.ahead_eq hholds n _ _

/-- **Another thread that enters a call** leaves what is ahead. -/
theorem ahead_enter_other (hl : Locked C) {j : ι} (hne : j ≠ i) {task : Task σ}
    (hen : (Turn.enter j task).Enabled C) (henter : enterTurn C j task = .ok (r, C')) (n : ℕ) :
    ahead n i C' = ahead n i C := by
  obtain ⟨f, hm⟩ := moved_of_enter hen.1 hen.2.2 henter
  refine ahead_congr hl ?_ (fun _ => ?_) n
  · rw [hm.stage, Function.update_of_ne hne.symm]
  · rw [usedBuffers, usedBuffers, (entered_of_enter henter).buffers]

/-- **A step of another thread** leaves what is ahead. -/
theorem ahead_turn_other (hord : Orderly info C) (hl : Locked C) {j : ι} (hne : j ≠ i)
    {s : Stage} (hs : C.stage j = some s) (hfree : Free C s)
    (hturn : turn env C j s = .ok (r, C')) (n : ℕ) : ahead n i C' = ahead n i C := by
  obtain ⟨f, hm⟩ := moved_of_turn hs hfree hturn
  refine ahead_congr hl ?_ (fun hi => ?_) n
  · rw [hm.stage, Function.update_of_ne hne.symm]
  · have hstroke := hord.stroke_of_turn hs hturn
    exact hstroke.usedBuffers_eq hord.wellFormed hl hs hfree hi hne

/-- **What a thread has done and has ahead of it** is allowed, or due to searches that found
nothing. -/
theorem CrewRun.steps_add_ahead {h : List (CrewEntry ι σ)} (hr : CrewRun env info h C)
    (hkeep : ∀ e ∈ h, ¬Shrinks e) (i : ι) {n : ℕ} (hn : C.st.buffers.length ≤ n) :
    h.countP (isOwn i) + ahead n i C ≤
      (h.map (allowance n i)).sum + 5 * h.countP (findsNothing i) := by
  refine CrewRun.rule (J := fun h C => C.st.buffers.length ≤ n →
    h.countP (isOwn i) + ahead n i C ≤
      (h.map (allowance n i)).sum + 5 * h.countP (findsNothing i)) ?_ ?_ ?_ hr hkeep hn
  · intro C h0 _
    simp [ahead, h0.stage i]
  · intro h C j task r C' hrun _ _ ih hen henter hn
    rw [List.countP_cons, List.countP_cons, List.map_cons, List.sum_cons]
    have hlength : C.st.buffers.length ≤ n := by
      rw [← (entered_of_enter henter).buffers]
      exact hn
    have ih := ih hlength
    have hcount : isOwn i ⟨C, (.enter j task, r), C'⟩ = false := rfl
    have hfinds : findsNothing i ⟨C, (.enter j task, r), C'⟩ = false := rfl
    have hallowed : allowance n i ⟨C, (.enter j task, r), C'⟩ =
        if j = i then task.steps n else 0 := rfl
    rw [hcount, hfinds, hallowed]
    by_cases hj : j = i
    · subst hj
      have hnew := ahead_enter hen.1 henter n
      simp only [Bool.false_eq_true, if_false, if_true]
      omega
    · have hsame := ahead_enter_other (CrewRun.locked hrun) hj hen henter n
      simp only [Bool.false_eq_true, if_false, if_neg hj]
      omega
  · intro h C j s r C' hrun _ hord ih hs hfree hturn _ hn
    rw [List.countP_cons, List.countP_cons, List.map_cons, List.sum_cons]
    have hlength := le_trans (hord.stroke_of_turn hs hturn).length_le hn
    have ih := ih hlength
    have hallowed : allowance n i ⟨C, (.go j, r), C'⟩ = 0 := rfl
    rw [hallowed]
    by_cases hj : j = i
    · subst hj
      have hstep := ahead_turn hord hs hturn hlength
      have hcount : isOwn j ⟨C, (.go j, r), C'⟩ = true := by simp [isOwn]
      rw [hcount]
      simp only [if_true]
      omega
    · have hsame := ahead_turn_other hord (CrewRun.locked hrun) hj hs hfree hturn n
      have hcount : isOwn i ⟨C, (.go j, r), C'⟩ = false := by simp [isOwn, hj]
      have hfinds : findsNothing i ⟨C, (.go j, r), C'⟩ = false := by
        rw [findsNothing, hcount, Bool.false_and]
      rw [hcount, hfinds]
      simp only [Bool.false_eq_true, if_false]
      omega

/-- **A call takes a bounded number of steps under any interleaving**: as long as no thread
lowers the number of buffers, the steps a thread has made are no more than its calls are
allowed, and five for each of its searches among all pieces that found none. -/
theorem own_steps_le {h : List (CrewEntry ι σ)} (hr : CrewRun env info h C)
    (hkeep : ∀ e ∈ h, ¬Shrinks e) (i : ι) :
    h.countP (isOwn i) ≤ (h.map (allowance C.st.buffers.length i)).sum +
      5 * h.countP (findsNothing i) :=
  le_trans (Nat.le_add_right _ _) (CrewRun.steps_add_ahead hr hkeep i le_rfl)

/-- A write whose search is overtaken by a read once, and which evicts the other piece then. -/
theorem own_steps_le_overtaken :
    ∃ h C, playCrew ticking (quads 9) 0 ()
        (enterAndGo (0 : Fin 2) (.transfer 0 (.writev [[1]] 0)) 8 ++
          enterAndGo 1 (.transfer 1 (.writev [[2]] 0)) 14 ++
          enterAndGo 0 (.transfer 0 (.readv [[0]] 0)) 6 ++ List.replicate 8 (.go 1))
        = some (h, C) ∧
      C.stage 1 = none ∧ h.countP (isOwn 1) = 22 ∧ h.countP (findsNothing 1) = 1 ∧
      h.countP (isOwn 1) ≤ (h.map (allowance C.st.buffers.length 1)).sum +
        5 * h.countP (findsNothing 1) := by
  have hplay : playCrew ticking (quads 9) 0 ()
      (enterAndGo (0 : Fin 2) (.transfer 0 (.writev [[1]] 0)) 8 ++
        enterAndGo 1 (.transfer 1 (.writev [[2]] 0)) 14 ++
        enterAndGo 0 (.transfer 0 (.readv [[0]] 0)) 6 ++ List.replicate 8 (.go 1))
      = some (_, _) := rfl
  refine ⟨_, _, hplay, rfl, rfl, rfl, ?_⟩
  exact own_steps_le (playCrew_run (by decide) hplay) (by decide) 1

/-! ## Searches that find nothing -/

/-- The steps since the last one thread `i` made, newest first. -/
def sinceOwn (i : ι) (h : List (CrewEntry ι σ)) : List (CrewEntry ι σ) :=
  h.takeWhile fun e => !isOwn i e

omit [DecidableEq ι] in
/-- The step gave the buffer of piece `v` another access time. -/
def Accesses (v : ℤ) (e : CrewEntry ι σ) : Prop :=
  ∃ b bf bf', at? e.before.st.buffers b = some bf ∧ bf.isUsed = true ∧ bf.pi = v ∧
    at? e.after.st.buffers b = some bf' ∧ bf'.accessed ≠ bf.accessed

/-- A step keeps the stamps of the buffers in use. -/
theorem Stroke.stamped {s : Stage} (hst : Stroke env C i s r C') (h : Stamped env C.st) :
    Stamped env C'.st := by
  cases hst with
  | place _ _ hfree => exact h.place hfree.buffer _
  | @copy _ _ _ _ _ _ _ bf hb _ =>
      have hstamp : bf.isUsed = true → _ := h _ bf hb
      exact h.put hb _ le_rfl hstamp
  | finish ho =>
      exact h.put ho.buffer _ (Nat.le_succ _) fun _ => ⟨_, Nat.lt_succ_self _, rfl⟩
  | account ho =>
      exact h.put ho.buffer _ (Nat.le_succ _) fun _ => ⟨_, Nat.lt_succ_self _, rfl⟩
  | seek => exact h.wait 1
  | remove ho _ => exact h.evict ho
  | @grow m n _ =>
      intro b bf hb hu
      rcases lt_or_ge b C.st.buffers.length with hlt | hge
      · have hold : at? C.st.buffers b = some bf := by
          rw [← at?_append_left _ hlt]
          exact hb
        exact h b bf hold hu
      · -- a new buffer is not in use
        have hnew : at? (C.st.buffers ++ newBuffers C.st.bufferSize n C.st.pieceLength) b =
            some bf := hb
        rw [at?_append_right _ _ hge] at hnew
        rw [eq_new_of_newBuffers hnew] at hu
        exact absurd hu (by simp [MemoryBuffer.new])
  | _ => exact h

/-- Every state of a run is stamped, as long as no step shrinks the pool. -/
theorem CrewRun.stamped {h : List (CrewEntry ι σ)} (hr : CrewRun env info h C)
    (hkeep : ∀ e ∈ h, ¬Shrinks e) : Stamped env C.st := by
  refine CrewRun.rule (J := fun _ C => Stamped env C.st) ?_ ?_ ?_ hr hkeep
  · intro C h0
    exact StorageRun.stamped (.start h0.storage)
  · intro h C i task r C' _ _ _ ih _ henter b bf hb hu
    have hent := entered_of_enter henter
    rw [hent.buffers] at hb
    rw [hent.ticks]
    exact ih b bf hb hu
  · intro h C i s r C' _ _ hord ih hs _ hturn _
    exact (hord.stroke_of_turn hs hturn).stamped ih

/-- Thread `i`, about to search by the time `minTime`, read it off the clock; the buffers in
use that were accessed later are those accessed since. -/
def Timed (env : Env σ) (i : ι) (minTime : ℤ) (h : List (CrewEntry ι σ)) (C : Crew ι σ) : Prop :=
  ∃ k < C.st.ticks, minTime = env.clock k ∧
    ∀ b bf n, at? C.st.buffers b = some bf → bf.isUsed = true →
      bf.accessed = some (env.clock n) → n ≠ k ∧ (k < n ↔ ∃ e ∈ sinceOwn i h, Accesses bf.pi e)

/-- Another thread's step, which leaves the buffers in use where they are. -/
theorem Timed.other (hclock : StrictMono env.clock) (hw : Linked C.st) (hst : Stamped env C.st)
    {minTime : ℤ} {h : List (CrewEntry ι σ)} (ht : Timed env i minTime h C)
    {l : Turn ι σ × Option Reply} (he : isOwn i ⟨C, l, C'⟩ = false)
    (hticks : C.st.ticks ≤ C'.st.ticks)
    (hbuffers : ∀ b bf', at? C'.st.buffers b = some bf' → bf'.isUsed = true →
      ∃ bf, at? C.st.buffers b = some bf ∧ bf.isUsed = true ∧ bf.pi = bf'.pi ∧
        (bf'.accessed = bf.accessed ∨ bf'.accessed = some (env.clock C.st.ticks))) :
    Timed env i minTime (⟨C, l, C'⟩ :: h) C' := by
  obtain ⟨k, hk, rfl, hall⟩ := ht
  refine ⟨k, by omega, rfl, ?_⟩
  intro b bf' n hb' hu' hacc'
  obtain ⟨bf, hb, hu, hpi, hcase⟩ := hbuffers b bf' hb' hu'
  obtain ⟨m, hm, hacc⟩ := hst b bf hb hu
  obtain ⟨hne, hiff⟩ := hall b bf m hb hu hacc
  have hsince : sinceOwn i (⟨C, l, C'⟩ :: h) = ⟨C, l, C'⟩ :: sinceOwn i h := by
    rw [sinceOwn, List.takeWhile_cons, he]
    rfl
  rw [hsince, List.exists_mem_cons_iff, ← hpi]
  rcases hcase with hsame | hnow
  · -- the buffer was not accessed, and no other one is its piece's
    obtain rfl : n = m := by
      rw [hacc', hacc] at hsame
      exact hclock.injective (Option.some.inj hsame)
    have hnot : ¬Accesses bf.pi (⟨C, l, C'⟩ : CrewEntry ι σ) := by
      rintro ⟨c, cf, cf', hc, hcu, hcpi, hc', hdiff⟩
      obtain rfl := hw.buffer_unique hc hb hcu hu hcpi
      obtain rfl := Option.some.inj (hc.symm.trans hb)
      obtain rfl := Option.some.inj (hc'.symm.trans hb')
      exact hdiff hsame
    exact ⟨hne, by rw [hiff, or_iff_right hnot]⟩
  · obtain rfl : n = C.st.ticks := by
      rw [hacc'] at hnow
      exact hclock.injective (Option.some.inj hnow)
    have haccess : Accesses bf.pi (⟨C, l, C'⟩ : CrewEntry ι σ) := by
      refine ⟨b, bf, bf', hb, hu, rfl, hb', ?_⟩
      rw [hacc', hacc]
      intro heq
      exact hm.ne' (hclock.injective (Option.some.inj heq))
    exact ⟨hk.ne', iff_of_true hk (Or.inl haccess)⟩

end Steps

end Libtorrent
