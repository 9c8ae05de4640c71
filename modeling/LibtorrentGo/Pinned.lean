/-
# What other threads leave alone

As long as no thread lowers the number of buffers, a piece that is reserved keeps its buffer,
whatever the threads do, if every `update_reserved_pieces` reserves it again
(`reserved_keeps_buffer`): while the bits are being set nobody searches for a victim.  And the
bytes of a piece are changed by the writes of that piece and by its eviction, and by nothing
else, unless a `writev` that lost the buffer to the piece still has its address
(`bytes_are_its_own`).
-/
import LibtorrentGo.Headroom
import LibtorrentGo.Strays

open Locks Splice Subscript

namespace Libtorrent

open MemoryStorage

variable {σ ι : Type} [DecidableEq ι]

/-! ## What follows a state -/

/-- The steps made from the state `C₀` on. -/
abbrev CrewContinuation (env : Env σ) (C₀ : Crew ι σ) : List (CrewEntry ι σ) → Crew ι σ → Prop :=
  Runs.Run (fun C => C = C₀) (CrewStep env)

section Follows

variable {env : Env σ} {info : TorrentInfo} {h₀ : List (CrewEntry ι σ)} {C₀ : Crew ι σ}

/-- What follows a state of a run goes on with that run. -/
theorem CrewContinuation.run (hr₀ : CrewRun env info h₀ C₀) (hkeep₀ : ∀ e ∈ h₀, ¬Shrinks e)
    {h : List (CrewEntry ι σ)} {C : Crew ι σ} (hr : CrewContinuation env C₀ h C)
    (hkeep : ∀ e ∈ h, ¬Shrinks e) :
    CrewRun env info (h ++ h₀) C ∧ ∀ e ∈ h ++ h₀, ¬Shrinks e := by
  refine ⟨hr₀.append hr, ?_⟩
  intro e he
  rcases List.mem_append.mp he with he | he
  · exact hkeep e he
  · exact hkeep₀ e he

/-- It is in order, as long as no step shrinks the pool. -/
theorem CrewContinuation.orderly (hr₀ : CrewRun env info h₀ C₀) (hkeep₀ : ∀ e ∈ h₀, ¬Shrinks e)
    {h : List (CrewEntry ι σ)} {C : Crew ι σ} (hr : CrewContinuation env C₀ h C)
    (hkeep : ∀ e ∈ h, ¬Shrinks e) : Orderly info C := by
  obtain ⟨hrun, hall⟩ := CrewContinuation.run hr₀ hkeep₀ hr hkeep
  exact CrewRun.orderly hrun hall

omit info h₀ in
/-- Steps made from a state on follow it. -/
theorem replay_continuation (ts : List (Turn ι σ)) {h : List (CrewEntry ι σ)} {C : Crew ι σ}
    (hp : Runs.replay (tryTurn env) ts [] C₀ = some (h, C)) : CrewContinuation env C₀ h C :=
  Runs.replay_run (fun _ _ _ _ => step_of_tryTurn) (.start rfl) hp

/-- **Rule for what follows**: a relation between the steps made and the state they led to that
holds of a reached state, and is kept when a thread enters a call and when it goes on, holds
behind all steps made from there, as long as none shrinks the pool. -/
theorem CrewContinuation.rule (hr₀ : CrewRun env info h₀ C₀) (hkeep₀ : ∀ e ∈ h₀, ¬Shrinks e)
    {J : List (CrewEntry ι σ) → Crew ι σ → Prop} (start : J [] C₀)
    (enter : ∀ h C i task r C', Orderly info C → J h C → (Turn.enter i task).Enabled C →
      enterTurn C i task = .ok (r, C') → J (⟨C, (.enter i task, r), C'⟩ :: h) C')
    (go : ∀ h C i s r C', Orderly info C → Locked C → J h C → C.stage i = some s → Free C s →
      turn env C i s = .ok (r, C') → J (⟨C, (.go i, r), C'⟩ :: h) C')
    {h : List (CrewEntry ι σ)} {C : Crew ι σ} (hr : CrewContinuation env C₀ h C)
    (hkeep : ∀ e ∈ h, ¬Shrinks e) : J h C := by
  induction hr with
  | start h0 =>
      rw [h0]
      exact start
  | @next h C C' l hrun hstep ih =>
      obtain ⟨-, hrest⟩ := List.forall_mem_cons.mp hkeep
      have hord := CrewContinuation.orderly hr₀ hkeep₀ hrun hrest
      obtain ⟨t, r⟩ := l
      obtain ⟨hen, hadv⟩ := hstep
      cases t with
      | enter i task => exact enter h C i task r C' hord (ih hrest) hen hadv
      | go i =>
          have hrun' : CrewRun env info (h ++ h₀) C := hr₀.append hrun
          have hl := CrewRun.locked hrun'
          obtain ⟨s, hs, hfree⟩ := hen
          exact go h C i s r C' hord hl (ih hrest) hs hfree (turn_of_go hs hadv)

end Follows

variable {env : Env σ} {info : TorrentInfo} {C C' : Crew ι σ} {i : ι} {r : Option Reply}

/-! ## Reserved pieces -/

/-- The step reserves the piece again, if it reserves anything. -/
def Turn.Reserves (p : ℤ) : Turn ι σ → Prop
  | .enter _ (.updateReservedPieces pieces) => p ∈ pieces
  | _ => True

instance (p : ℤ) : (t : Turn ι σ) → Decidable (t.Reserves p)
  | .enter _ (.updateReservedPieces pieces) => inferInstanceAs (Decidable (p ∈ pieces))
  | .enter _ (.transfer _ _) => isTrue trivial
  | .enter _ (.setMemorySize _) => isTrue trivial
  | .enter _ (.updateReaderPieces _) => isTrue trivial
  | .enter _ (.setTorrentHandle _) => isTrue trivial
  | .enter _ (.outside _) => isTrue trivial
  | .go _ => isTrue trivial

/-- The piece has buffer `b`, is reserved or about to be, and nobody is about to free `b`. -/
structure Pinned (p b : ℤ) (C : Crew ι σ) : Prop where
  buffer : HasBuffer C.st p b
  bit : C.st.Reserved p ∨ ∃ i pieces, C.stage i = some (.reserve pieces) ∧ p ∈ pieces
  spared : ∀ i q n c, C.stage i = some (.remove q n c) → c ≠ b

/-- A step that leaves the bits alone. -/
theorem Pinned.frame {p b : ℤ} (h : Pinned p b C) {f : Option Stage}
    (hstage : C'.stage = Function.update C.stage i f) (hbuffer : HasBuffer C'.st p b)
    (hbits : C'.st.reservedPieces = C.st.reservedPieces)
    (hnot : ∀ pieces, C.stage i ≠ some (.reserve pieces))
    (hf : ∀ q n c, f = some (.remove q n c) → c ≠ b) : Pinned p b C' where
  buffer := hbuffer
  bit := by
    rcases h.bit with hbit | ⟨j, pieces, hj, hp⟩
    · left
      rw [MemoryStorage.Reserved, hbits]
      exact hbit
    · right
      have hji : j ≠ i := by
        rintro rfl
        exact hnot pieces hj
      exact ⟨j, pieces, by rw [hstage, Function.update_of_ne hji, hj], hp⟩
  spared := by
    intro j q n c hj
    rw [hstage, Function.update_apply] at hj
    split at hj
    · exact hf q n c hj
    · exact h.spared j q n c hj

/-- **One step of a thread** leaves a pinned piece its buffer. -/
theorem Pinned.stroke {p b : ℤ} (h : Pinned p b C) (hord : Orderly info C) (hl : Locked C)
    {s : Stage} (hs : C.stage i = some s) (hfree : Free C s) (hst : Stroke env C i s r C') :
    Pinned p b C' := by
  have hlinked := hord.wellFormed.toLinked
  have hb : HasBuffer C'.st p b := by
    refine (h.buffer.stroke hlinked hst).resolve_right ?_
    rintro ⟨q, n, rfl, -⟩
    exact h.spared i q n b hs rfl
  cases hst with
  | look hnext =>
      refine h.frame rfl hb rfl (by simp [hs]) ?_
      rintro q n c heq
      rcases hnext with rfl | rfl
      · exact absurd (Option.some.inj heq) Job.begins_ne_remove
      · simp at heq
  | refuse torrent => exact h.frame rfl hb rfl (by simp [hs]) (by simp)
  | find _ =>
      refine h.frame rfl hb rfl (by simp [hs]) ?_
      rintro q n c heq
      exact absurd (Option.some.inj heq) Job.begins_ne_remove
  | place _ _ _ => exact h.frame rfl hb rfl (by simp [hs]) (by simp)
  | onward hon =>
      refine h.frame rfl hb rfl ?_ ?_
      · rintro pieces heq
        rw [hs] at heq
        exact hon.reserve_ne (Option.some.inj heq)
      · rintro q n c heq
        exact absurd (Option.some.inj heq) hon.ne_remove
  | copy _ _ => exact h.frame rfl hb rfl (by simp [hs]) (by simp)
  | incomplete => exact h.frame rfl hb rfl (by simp [hs]) (by simp)
  | exhausted => exact h.frame rfl hb rfl (by simp [hs]) (by simp)
  | finish _ => exact h.frame rfl hb rfl (by simp [hs]) (by simp)
  | account _ => exact h.frame rfl hb rfl (by simp [hs]) (by simp)
  | full _ hnext =>
      refine h.frame rfl hb rfl ?_ ?_
      · rcases hnext with ⟨rfl, -⟩ | ⟨rfl, -⟩ | ⟨rfl, -⟩ <;> simp [hs]
      · rcases hnext with ⟨-, rfl⟩ | ⟨-, rfl⟩ | ⟨-, _, rfl⟩ <;> simp
  | room _ hstage =>
      refine h.frame rfl hb rfl ?_ (by simp)
      rcases hstage with rfl | rfl <;> simp [hs]
  | lock => exact h.frame rfl hb rfl (by simp [hs]) (by simp)
  | unlock _ => exact h.frame rfl hb rfl (by simp [hs]) (by simp)
  | seek => exact h.frame rfl hb rfl (by simp [hs]) (by simp)
  | @spot q n v c minTime checkRead hv hne hnot =>
      refine h.frame rfl hb rfl (by simp [hs]) ?_
      rintro q' n' c' heq rfl
      obtain ⟨-, -, rfl⟩ := Stage.remove.inj (Option.some.inj heq)
      -- the lock is free, so the bits are set
      rcases h.bit with hbit | ⟨j, pieces, hj, -⟩
      · rw [hv.owner_eq hb] at hnot
        exact hnot hbit
      · have howner := (hl.setter j).mpr ⟨_, hj, rfl⟩
        have hnone : C.rMutex = none := hfree
        rw [hnone] at howner
        exact absurd howner (by simp)
  | miss hnext =>
      refine h.frame rfl hb rfl (by simp [hs]) ?_
      rcases hnext with rfl | rfl <;> simp
  | remove _ _ => exact h.frame rfl hb rfl (by simp [hs]) (by simp)
  | grow _ => exact h.frame rfl hb rfl (by simp [hs]) (by simp)
  | @reserve q pieces =>
      obtain ⟨h0, h1⟩ := hord.valid i _ hs q List.mem_cons_self
      obtain ⟨bit, hbit⟩ := hlinked.exists_reserved h0 (hord.wellFormed.pieceCount_eq ▸ h1)
      have hput : ∀ x, C.st.Reserved x ∨ x = q →
          at? (put C.st.reservedPieces q true) x = some true := by
        intro x hx
        rw [at?_put hbit]
        split
        · rfl
        · rename_i hxq
          exact hx.resolve_right hxq
      refine ⟨hb, ?_, ?_⟩
      · rcases h.bit with hp | ⟨j, pieces', hj, hp⟩
        · exact Or.inl (hput p (Or.inl hp))
        · by_cases hji : j = i
          · subst hji
            rw [hs] at hj
            obtain rfl := Stage.reserve.inj (Option.some.inj hj)
            rcases List.mem_cons.mp hp with rfl | hp
            · exact Or.inl (hput p (Or.inr rfl))
            · exact Or.inr ⟨j, pieces, Function.update_self .., hp⟩
          · exact Or.inr ⟨j, pieces', (Function.update_of_ne hji _ _).trans hj, hp⟩
      · intro j q' n c hj
        simp only [Crew.next, Function.update_apply] at hj
        split at hj
        · exact absurd hj (by simp)
        · exact h.spared j q' n c hj
  | unreserve =>
      refine ⟨hb, ?_, ?_⟩
      · rcases h.bit with hp | ⟨j, pieces, hj, hp⟩
        · exact Or.inl hp
        · have hji : j ≠ i := by
            rintro rfl
            rw [hs] at hj
            obtain rfl := Stage.reserve.inj (Option.some.inj hj)
            exact absurd hp (by simp)
          exact Or.inr ⟨j, pieces, (Function.update_of_ne hji _ _).trans hj, hp⟩
      · intro j q n c hj
        simp only [Crew.done, Function.update_apply] at hj
        split at hj
        · exact absurd hj (by simp)
        · exact h.spared j q n c hj

/-- **The first step of a call** leaves a pinned piece its buffer, when it reserves it again
if it reserves anything. -/
theorem Pinned.enter {p b : ℤ} (h : Pinned p b C) (hs : C.stage i = none) {task : Task σ}
    (hen : Entrance info C i task r C')
    (hpin : (Turn.enter i task).Reserves p) : Pinned p b C' := by
  have hb := h.buffer
  cases hen with
  | begin isReading _ => exact h.frame rfl (hb.frame rfl rfl) rfl (by simp [hs]) (by simp)
  | grow _ => exact h.frame rfl hb rfl (by simp [hs]) (by simp)
  | @reserve pieces _ =>
      refine ⟨hb.frame rfl rfl, ?_, ?_⟩
      · exact Or.inr ⟨i, pieces, Function.update_self .., hpin⟩
      · intro j q n c hj
        simp only [Crew.next, Function.update_apply] at hj
        split at hj
        · exact absurd hj (by simp)
        · exact h.spared j q n c hj
  | stay _ hsame =>
      refine ⟨hb.frame hsame.pieces hsame.buffers, ?_, h.spared⟩
      rw [MemoryStorage.Reserved, hsame.reserved]
      exact h.bit

/-- The piece has buffer `b`, with these bytes. -/
def HoldsBytes (st : MemoryStorage σ) (p b : ℤ) (bytes : List Byte) : Prop :=
  HasBuffer st p b ∧ (at? st.buffers b).map (fun bf => bf.buffer) = some bytes

omit [DecidableEq ι] in
/-- Only the records of the piece and its buffer count. -/
theorem HoldsBytes.frame {st st' : MemoryStorage σ} {p b : ℤ} {bytes : List Byte}
    (h : HoldsBytes st p b bytes) (hp : st'.pieces = st.pieces) (hb : st'.buffers = st.buffers) :
    HoldsBytes st' p b bytes := by
  refine ⟨h.1.frame hp hb, ?_⟩
  rw [hb]
  exact h.2

omit [DecidableEq ι] in
/-- Revising records leaves the bytes, as long as the revised buffer keeps its own. -/
theorem HoldsBytes.revise {st : MemoryStorage σ} {p b : ℤ} {bytes : List Byte}
    (h : HoldsBytes st p b bytes) {q c : ℤ} {qc : MemoryPiece} {cf : MemoryBuffer}
    (ho : Owns st q qc c cf) (qc' : MemoryPiece) (cf' : MemoryBuffer) (hbi : qc'.bi = qc.bi)
    (hcf : cf'.isUsed = cf.isUsed ∧ cf'.pi = cf.pi) (hsame : cf'.buffer = cf.buffer)
    (ticks : ℕ) : HoldsBytes (st.revise q qc' c cf' ticks) p b bytes := by
  refine ⟨(hasBuffer_revise ho qc' cf' hbi hcf ticks p b).mpr h.1, ?_⟩
  have hbytes := h.2
  simp only [MemoryStorage.revise]
  rw [at?_put ho.buffer]
  split
  · rename_i hbc
    subst hbc
    rw [ho.buffer] at hbytes
    rw [Option.map_some, hsame]
    exact hbytes
  · exact hbytes

/-- Nobody but a `writev` of piece `p` is about to call `memcpy` with the address of buffer
`b`. -/
def Sole (p b : ℤ) (C : Crew ι σ) : Prop :=
  ∀ i s q, C.stage i = some s → s.fills = some (q, b) → q = p

/-- **One step of a thread** that does not copy into the buffer for the piece leaves its bytes,
or evicts it. -/
theorem HoldsBytes.stroke {p b : ℤ} {bytes : List Byte} (h : HoldsBytes C.st p b bytes)
    (hsole : Sole p b C) (hord : Orderly info C) {s : Stage} (hs : C.stage i = some s)
    (hst : Stroke env C i s r C') (hother : fills ⟨C, (.go i, r), C'⟩ ≠ some (p, b)) :
    HoldsBytes C'.st p b bytes ∨ EvictsFrom p ⟨C, (.go i, r), C'⟩ := by
  have hlinked := hord.wellFormed.toLinked
  cases hst with
  | @place q offset c bufs qc cf hq hqb hfirst =>
      left
      refine ⟨hasBuffer_place hq hqb hfirst.buffer hfirst.free _ h.1 hlinked, ?_⟩
      have hcb : c ≠ b := by
        rintro rfl
        obtain ⟨pc, bf, ho⟩ := h.1
        obtain rfl := ho.buffer_eq hfirst.buffer
        exact absurd (hfirst.free.symm.trans ho.used) (by simp)
      show (at? (put C.st.buffers c _) b).map _ = some bytes
      rw [at?_put_ne hcb]
      exact h.2
  | @copy q c toCopy fileOffset n iov bufs cf hc _ =>
      left
      refine ⟨(hasBuffer_overwrite hc _ p b).mpr h.1, ?_⟩
      -- whoever computed this address before is a `writev` of the piece
      have hcb : c ≠ b := by
        rintro rfl
        obtain rfl := hsole i _ q hs rfl
        exact hother (fills_go hs _ _)
      show (at? (put C.st.buffers c _) b).map _ = some bytes
      rw [at?_put_ne hcb]
      exact h.2
  | @finish q upTo c r qc cf ho =>
      left
      exact h.revise ho (if qc.isCompleted && upTo ≥ qc.intSize then { qc with isRead := true }
        else qc) { cf with accessed := some (env.clock C.st.ticks) } (by split <;> rfl)
        ⟨rfl, rfl⟩ rfl (C.st.ticks + 1)
  | @account q n c qc cf ho =>
      left
      exact h.revise ho { qc with size := qc.size + n }
        { cf with accessed := some (env.clock C.st.ticks) } rfl ⟨rfl, rfl⟩ rfl (C.st.ticks + 1)
  | @remove q n v c vc cf ho hne =>
      by_cases hvp : v = p
      · right
        subst hvp
        refine ⟨ho.resident hlinked, ?_⟩
        intro hres
        exact ((resident_evict hlinked ho v).mp hres).2 rfl
      · left
        refine ⟨hasBuffer_evict ho h.1 (fun heq => hvp heq.symm), ?_⟩
        have hcb : c ≠ b := by
          rintro rfl
          exact hvp (HasBuffer.owner_eq ⟨vc, cf, ho⟩ h.1)
        show (at? (put C.st.buffers c _) b).map _ = some bytes
        rw [at?_put_ne hcb]
        exact h.2
  | @grow m n hn =>
      left
      refine ⟨hasBuffer_grow h.1 m n, ?_⟩
      obtain ⟨bf, hbf, hbytes⟩ := Option.map_eq_some_iff.mp h.2
      show (at? (C.st.grow m n).buffers b).map _ = some bytes
      rw [at?_grow hbf m n, Option.map_some, hbytes]
  | _ => exact Or.inl (h.frame rfl rfl)

/-- While the piece has the buffer, no other `writev` computes the address of that. -/
theorem Sole.stroke {p b : ℤ} (h : Sole p b C) (hb : HasBuffer C.st p b) {s : Stage}
    (hs : C.stage i = some s) (hfree : Free C s) (hst : Stroke env C i s r C')
    (hturn : turn env C i s = .ok (r, C')) : Sole p b C' := by
  intro j t q hj hfills
  by_cases hji : j = i
  · subst hji
    cases t with
    | move q' b' toCopy k =>
        cases k with
        | writev iov bufs fileOffset n =>
            obtain ⟨rfl, rfl⟩ := Prod.mk.inj (Option.some.inj hfills)
            exact (hst.aims hj).2.owner_eq hb
        | _ => exact absurd hfills (by simp [Stage.fills])
    | _ => exact absurd hfills (by simp [Stage.fills])
  · obtain ⟨f, hm⟩ := moved_of_turn hs hfree hturn
    rw [hm.stage, Function.update_of_ne hji] at hj
    exact h j t q hj hfills

/-- A call begins with no `memcpy`. -/
theorem Sole.enter {p b : ℤ} (h : Sole p b C) {task : Task σ}
    (henter : enterTurn C i task = .ok (r, C')) : Sole p b C' := by
  intro j t q hj hfills
  rcases (entered_of_enter henter).stage with hsame | ⟨hstage, -⟩
  · rw [hsame] at hj
    exact h j t q hj hfills
  · rw [hstage, Function.update_apply] at hj
    split at hj
    · cases task with
      | transfer _ _ =>
          obtain rfl := Option.some.inj hj
          exact absurd hfills (by simp [Stage.fills])
      | setMemorySize _ =>
          obtain rfl := Option.some.inj hj
          exact absurd hfills (by simp [Stage.fills])
      | updateReservedPieces _ =>
          obtain rfl := Option.some.inj hj
          exact absurd hfills (by simp [Stage.fills])
      | _ => exact absurd hj (by simp [Task.begins])
    · exact h j t q hj hfills

/-- **The bytes of a piece are its own, whatever other threads do.**  If at first nobody has
the address of its buffer for another piece, then behind any steps of any threads, none of
which lowers the number of buffers or is a `memcpy` into that buffer for the piece, the piece
has the buffer and the bytes it had, or one of the steps evicted it. -/
theorem bytes_are_its_own {h₀ h : List (CrewEntry ι σ)} {C₀ : Crew ι σ}
    (hr₀ : CrewRun env info h₀ C₀) (hkeep₀ : ∀ e ∈ h₀, ¬Shrinks e) {p b : ℤ}
    {bytes : List Byte} (hbytes : HoldsBytes C₀.st p b bytes) (hsole : Sole p b C₀)
    (hr : CrewContinuation env C₀ h C) (hkeep : ∀ e ∈ h, ¬Shrinks e)
    (hother : ∀ e ∈ h, fills e ≠ some (p, b)) :
    HoldsBytes C.st p b bytes ∨ ∃ e ∈ h, EvictsFrom p e := by
  have hboth : (HoldsBytes C.st p b bytes ∧ Sole p b C) ∨ ∃ e ∈ h, EvictsFrom p e := by
    refine CrewContinuation.rule hr₀ hkeep₀ (J := fun h C => (∀ e ∈ h, fills e ≠ some (p, b)) →
      (HoldsBytes C.st p b bytes ∧ Sole p b C) ∨ ∃ e ∈ h, EvictsFrom p e) ?_ ?_ ?_ hr hkeep hother
    · exact fun _ => Or.inl ⟨hbytes, hsole⟩
    · intro h C i task r C' hord ih hen henter hother
      rcases ih (List.forall_mem_cons.mp hother).2 with ⟨hold, hsole⟩ | ⟨e, he, hev⟩
      · refine Or.inl ⟨?_, hsole.enter henter⟩
        have hent := entered_of_enter henter
        exact hold.frame hent.pieces hent.buffers
      · exact Or.inr ⟨e, List.mem_cons_of_mem _ he, hev⟩
    · intro h C i s r C' hord _ ih hs hfree hturn hother
      obtain ⟨hlast, hrest⟩ := List.forall_mem_cons.mp hother
      rcases ih hrest with ⟨hold, hsole⟩ | ⟨e, he, hev⟩
      · have hstroke := hord.stroke_of_turn hs hturn
        rcases hold.stroke hsole hord hs hstroke hlast with hnew | hev
        · exact Or.inl ⟨hnew, hsole.stroke hold.1 hs hfree hstroke hturn⟩
        · exact Or.inr ⟨_, List.mem_cons_self, hev⟩
      · exact Or.inr ⟨e, List.mem_cons_of_mem _ he, hev⟩
  exact hboth.imp_left And.left

/-- The bytes of a piece while another thread writes and reads and the pool grows. -/
theorem bytes_are_its_own_pool_of_three :
    ∃ h₀ C₀ h C, playCrew ticking (quads 9) 4 ()
        (enterAndGo (0 : Fin 2) (.transfer 0 (.writev [[7, 8], [9]] 1)) 9) = some (h₀, C₀) ∧
      Runs.replay (tryTurn ticking) (enterAndGo 1 (.transfer 2 (.writev [[3]] 0)) 8 ++
        enterAndGo 1 (.transfer 0 (.readv [[0, 0]] 0)) 6 ++ [.go 0, .go 0] ++
        enterAndGo 0 (.setMemorySize 40) 1) [] C₀ = some (h, C) ∧
      (HoldsBytes C.st 0 0 [0, 7, 8, 9] ∨ ∃ e ∈ h, EvictsFrom 0 e) := by
  have hplay : playCrew ticking (quads 9) 4 ()
      (enterAndGo (0 : Fin 2) (.transfer 0 (.writev [[7, 8], [9]] 1)) 9) = some (_, _) := rfl
  refine ⟨_, _, _, _, hplay, rfl, ?_⟩
  refine bytes_are_its_own (playCrew_run (by decide) hplay) (by decide)
    ⟨hasBuffer_iff.mpr ⟨rfl, rfl⟩, rfl⟩ ?_
    (replay_continuation (enterAndGo 1 (.transfer 2 (.writev [[3]] 0)) 8 ++
      enterAndGo 1 (.transfer 0 (.readv [[0, 0]] 0)) 6 ++ [.go 0, .go 0] ++
      enterAndGo 0 (.setMemorySize 40) 1) rfl) (by decide) (by decide)
  intro i s q hi hfills
  fin_cases i
  · obtain rfl := Option.some.inj hi
    exact absurd hfills (by simp [Stage.fills])
  · exact absurd hi (by simp [Crew.next])

end Libtorrent
