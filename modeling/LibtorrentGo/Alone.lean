/-
# One thread at a time

A thread that is left alone takes the steps of its call in a row, and makes the call of the
sequential model (`alone_eq`): it returns what that returns, and leaves the storage as that
leaves it.
-/
import LibtorrentGo.Threads

open MachineInt Subscript

namespace Libtorrent

open MemoryStorage

variable {σ ι : Type}

section Steps

variable [DecidableEq ι]

/-- Thread `i` makes its steps in a row until it returns. -/
inductive Alone (env : Env σ) (i : ι) : Crew ι σ → Reply → Crew ι σ → Prop
  | last {C C' : Crew ι σ} {s : Stage} {r : Reply} : C.stage i = some s → Free C s →
      turn env C i s = .ok (some r, C') → Alone env i C r C'
  | step {C C' C'' : Crew ι σ} {s : Stage} {r : Reply} : C.stage i = some s → Free C s →
      turn env C i s = .ok (none, C') → Alone env i C' r C'' → Alone env i C r C''

/-- The crew `C` with thread `i` at stage `s` over `st`, holding `m_mutex` if the stage says
so. -/
def Crew.placed (C : Crew ι σ) (i : ι) (st : MemoryStorage σ) (s : Stage) : Crew ι σ :=
  { st := st
    mMutex := if s.holdsM then some i else none
    rMutex := if s.holdsR then some i else none
    stage := Function.update C.stage i (some s) }

variable {env : Env σ} {C : Crew ι σ} {i : ι}

/-- A thread that goes on to a stage that holds the same locks. -/
theorem Alone.go {st : MemoryStorage σ} {s : Stage} {r : Reply} {C' : Crew ι σ}
    (st' : MemoryStorage σ) (s' : Stage)
    (hm : s'.holdsM = s.holdsM) (hr : s'.holdsR = s.holdsR) (hfree : Free (C.placed i st s) s)
    (hturn : turn env (C.placed i st s) i s = .ok (none, (C.placed i st s).next i st' s'))
    (h : Alone env i (C.placed i st' s') r C') : Alone env i (C.placed i st s) r C' := by
  refine .step (Function.update_self ..) hfree hturn ?_
  simp only [Crew.placed, Crew.next, Function.update_idem] at h ⊢
  rw [hm, hr] at h
  exact h

/-- A thread that holds no lock returns. -/
theorem Crew.placed_done (hstage : C.stage i = none) (hm : C.mMutex = none)
    (hr : C.rMutex = none) (st st' : MemoryStorage σ) {s : Stage} (hsm : s.holdsM = false)
    (hsr : s.holdsR = false) : (C.placed i st s).done i st' = { C with st := st' } := by
  simp only [Crew.placed, Crew.done, hsm, hsr, Function.update_idem]
  rw [Function.update_eq_self_iff.mpr hstage.symm, hm, hr]
  rfl

/-- A thread that enters a crew of which nobody holds a lock. -/
theorem Crew.next_eq_placed (hm : C.mMutex = none) (hr : C.rMutex = none)
    (st : MemoryStorage σ) {s : Stage} (hsm : s.holdsM = false) (hsr : s.holdsR = false) :
    C.next i st s = C.placed i st s := by
  simp only [Crew.next, Crew.placed, hsm, hsr, hm, hr]
  rfl

/-- The steps of a round of `trim`. -/
theorem alone_round {p n : ℤ} {st st' : MemoryStorage σ} {r : Reply} {C' : Crew ι σ}
    (hfull : st.isFull = true) (hbody : trimBody env p st = .ok st')
    (h : Alone env i (C.placed i st' (.round p n)) r C') :
    Alone env i (C.placed i st (.round p n)) r C' := by
  have removes : ∀ {s : MemoryStorage σ} {b : ℤ}, removePiece env s b = .ok st' →
      Alone env i (C.placed i s (.remove p n b)) r C' := by
    intro s b hb
    refine .go st' (.round p n) rfl rfl trivial ?_ h
    rw [turn, show (C.placed i s (.remove p n b)).st = s from rfl, hb]
    rfl
  have searches : ∀ {s : MemoryStorage σ} {cr : Bool} {b : ℤ} {s₁ : MemoryStorage σ},
      findLastBuffer env s p cr = .ok (b, s₁) →
      Alone env i (C.placed i s₁ (if b ≠ -1 then .remove p n b
        else if cr then .seek p n false else .round p n)) r C' →
      Alone env i (C.placed i s (.seek p n cr)) r C' := by
    intro s cr b s₁ hfind hrest
    obtain ⟨bi, hloop, hret⟩ := bind_eq_ok_iff.mp hfind
    obtain ⟨rfl, rfl⟩ := Prod.mk.inj (Except.ok.inj hret)
    refine .go (s.wait 1) (.search p n cr (env.clock s.ticks)) rfl rfl trivial rfl ?_
    refine .go (s.wait 1) _ ?_ ?_ rfl ?_ hrest
    · split <;> [rfl; (split <;> rfl)]
    · split <;> [rfl; (split <;> rfl)]
    · have hfound : findLastLoop env (s.wait 1) p cr (s.wait 1).buffers (-1) (env.clock s.ticks)
          = .ok bi := hloop
      rw [turn, show (C.placed i (s.wait 1) _).st = s.wait 1 from rfl, hfound]
      rfl
  refine .go st (.seek p n (!st.readerPieces.isEmpty)) rfl rfl trivial ?_ ?_
  · rw [turn, show (C.placed i st (.round p n)).st = st from rfl, if_pos hfull]
  · -- the last search, behind which nothing is found at worst
    have last : ∀ {s : MemoryStorage σ},
        (findLastBuffer env s p false >>= fun v =>
          if v.1 ≠ -1 then removePiece env v.2 v.1 else pure v.2) = .ok st' →
        Alone env i (C.placed i s (.seek p n false)) r C' := by
      intro s hs
      obtain ⟨⟨c, s₂⟩, hfind, hrest⟩ := bind_eq_ok_iff.mp hs
      refine searches hfind ?_
      by_cases hc : c ≠ -1
      · simp only [if_pos hc] at hrest ⊢
        exact removes hrest
      · simp only [if_neg hc] at hrest ⊢
        obtain rfl := Except.ok.inj hrest
        exact h
    rw [trimBody] at hbody
    cases hread : !st.readerPieces.isEmpty with
    | true =>
        rw [if_pos hread] at hbody
        obtain ⟨⟨b, s₁⟩, hfirst, hbody⟩ := bind_eq_ok_iff.mp hbody
        refine searches hfirst ?_
        by_cases hb : b ≠ -1
        · simp only [if_pos hb] at hbody ⊢
          exact removes hbody
        · simp only [if_neg hb] at hbody ⊢
          exact last hbody
    | false =>
        rw [if_neg (by simp [hread])] at hbody
        exact last hbody

/-- The copy loop of `writev`, three steps for each chunk. -/
theorem alone_writevCopy {p fileOffset n m : ℤ} {bufs : List (List Byte)}
    {st st' : MemoryStorage σ} {r : Reply} {C' : Crew ι σ}
    (hcopy : writevCopy p bufs fileOffset n st = .ok (m, st'))
    (h : Alone env i (C.placed i st' (.account p m)) r C') :
    Alone env i (C.placed i st (.chunk p (.writev bufs fileOffset n))) r C' := by
  induction bufs generalizing fileOffset n st with
  | nil =>
      obtain ⟨rfl, rfl⟩ := Prod.mk.inj (Except.ok.inj hcopy)
      exact .go st (.account p n) rfl rfl trivial rfl h
  | cons iov bufs ih =>
      obtain ⟨pc, hp, hcopy⟩ := bind_eq_ok_iff.mp hcopy
      obtain ⟨bf, hb, hcopy⟩ := bind_eq_ok_iff.mp hcopy
      obtain ⟨bytes, hbytes, hcopy⟩ := bind_eq_ok_iff.mp hcopy
      set toCopy := toInt (min (toSize (pc.length - fileOffset)) iov.length) with hto
      refine .go st (.aim p toCopy (.writev iov bufs fileOffset n)) rfl rfl trivial ?_ ?_
      · rw [turn, chunkTurn, show (C.placed i st _).st = st from rfl, hp]
        rfl
      refine .go st (.move p pc.bi toCopy (.writev iov bufs fileOffset n)) rfl rfl trivial ?_ ?_
      · rw [turn, show (C.placed i st _).st = st from rfl, hp, ok_bind, hb]
        rfl
      refine .go { st with buffers := put st.buffers pc.bi { bf with buffer := bytes } }
        (.chunk p (.writev bufs (fileOffset + toCopy) (n + toCopy))) rfl rfl trivial ?_ (ih hcopy)
      rw [turn, moveTurn, show (C.placed i st _).st = st from rfl, hb, ok_bind, hbytes]
      rfl

/-- The copy loop of `readv`, three steps for each chunk. -/
theorem alone_readvCopy {p offset fileOffset n m : ℤ} {filled bufs out : List (List Byte)}
    {st : MemoryStorage σ} {r : Reply} {C' : Crew ι σ}
    (hcopy : readvCopy st p bufs fileOffset n = .ok (m, out))
    (h : Alone env i (C.placed i st (.finish p (offset + m) ⟨m, filled ++ out⟩)) r C') :
    Alone env i (C.placed i st (.chunk p (.readv filled bufs offset fileOffset n))) r C' := by
  induction bufs generalizing filled fileOffset n out with
  | nil =>
      obtain ⟨rfl, rfl⟩ := Prod.mk.inj (Except.ok.inj hcopy)
      rw [List.append_nil] at h
      exact .go st (.finish p (offset + n) ⟨n, filled⟩) rfl rfl trivial rfl h
  | cons iov bufs ih =>
      obtain ⟨pc, hp, hcopy⟩ := bind_eq_ok_iff.mp hcopy
      obtain ⟨bf, hb, hcopy⟩ := bind_eq_ok_iff.mp hcopy
      obtain ⟨iov', hiov, hcopy⟩ := bind_eq_ok_iff.mp hcopy
      obtain ⟨⟨m', out'⟩, hrest, hret⟩ := bind_eq_ok_iff.mp hcopy
      obtain ⟨rfl, rfl⟩ := Prod.mk.inj (Except.ok.inj hret)
      set toCopy := toInt (min (toSize (bf.buffer.length - fileOffset)) iov.length) with hto
      refine .go st (.aim p toCopy (.readv filled iov bufs offset fileOffset n)) rfl rfl trivial
        ?_ ?_
      · rw [turn, chunkTurn, show (C.placed i st _).st = st from rfl, hp, ok_bind, hb]
        rfl
      refine .go st (.move p pc.bi toCopy (.readv filled iov bufs offset fileOffset n)) rfl rfl
        trivial ?_ ?_
      · rw [turn, show (C.placed i st _).st = st from rfl, hp, ok_bind, hb]
        rfl
      refine .go st (.chunk p (.readv (filled ++ [iov']) bufs offset (fileOffset + toCopy)
        (n + toCopy))) rfl rfl trivial ?_ (ih hrest ?_)
      · rw [turn, moveTurn, show (C.placed i st _).st = st from rfl, hb, ok_bind, hiov]
        rfl
      · rw [List.append_assoc, List.singleton_append]
        exact h

/-- The first look decides whether to wait for the lock. -/
theorem alone_look {p : ℤ} {pc : MemoryPiece} {job : Job} {st : MemoryStorage σ} {r : Reply}
    {C' : Crew ι σ} (hp : subscript st.pieces p = .ok pc)
    (hcopy : pc.isBuffered = true → Alone env i (C.placed i st (job.begins p)) r C')
    (hget : pc.isBuffered = false → Alone env i (C.placed i st (.get p job)) r C') :
    Alone env i (C.placed i st (.look p job)) r C' := by
  cases hb : pc.isBuffered with
  | true =>
      refine .go st (job.begins p) job.begins_holdsM job.begins_holdsR trivial ?_ (hcopy hb)
      rw [turn, show (C.placed i st (.look p job)).st = st from rfl, hp, ok_bind, if_pos hb]
      rfl
  | false =>
      refine .go st (.get p job) rfl rfl trivial ?_ (hget hb)
      rw [turn, show (C.placed i st (.look p job)).st = st from rfl, hp, ok_bind,
        if_neg (by simp [hb])]
      rfl

/-- A buffered piece is found at once. -/
theorem getBuffer_of_buffered (env : Env σ) {st : MemoryStorage σ} {p : ℤ} {pc : MemoryPiece}
    (hp : subscript st.pieces p = .ok pc) (hb : pc.isBuffered = true) (isWrite : Bool) :
    getBuffer env st p isWrite = .ok (true, st) := by
  rw [getBuffer, hp, ok_bind, if_pos hb]
  rfl

section Returning

variable (hstage : C.stage i = none) (hm : C.mMutex = none) (hr : C.rMutex = none)

include hstage hm hr

/-- The `while` of `trim`, and the return behind it. -/
theorem alone_trim {p n : ℤ} {fuel : ℕ} {st st' : MemoryStorage σ}
    (hloop : WhileLoop.loop isFull (trimBody env p) .outOfFuel fuel st = .ok st') :
    Alone env i (C.placed i st (.round p n)) ⟨n, []⟩ { C with st := st' } := by
  obtain ⟨hrounds, hexit⟩ := WhileLoop.rounds_of_loop_eq_ok hloop
  clear hloop
  induction hrounds using Relation.ReflTransGen.head_induction_on with
  | refl =>
      refine .last (Function.update_self ..) trivial ?_
      rw [turn, show (C.placed i st' (.round p n)).st = st' from rfl, if_neg (by simp [hexit])]
      simp only [Crew.placed, Crew.done, Stage.holdsR, Function.update_idem]
      rw [Function.update_eq_self_iff.mpr hstage.symm, hm]
      simp [hr]
  | head hround _ ih => exact alone_round hround.1 hround.2 ih

/-- A read that ends. -/
theorem alone_finish {p upTo : ℤ} {st st' : MemoryStorage σ} {r : Reply}
    (hfinish : finishRead env st p upTo = .ok st') :
    Alone env i (C.placed i st (.finish p upTo r)) r { C with st := st' } := by
  refine .last (Function.update_self ..) trivial ?_
  rw [turn, show (C.placed i st (.finish p upTo r)).st = st from rfl, hfinish,
    ← Crew.placed_done hstage hm hr st st' (s := .finish p upTo r) rfl rfl]
  rfl

/-- What `read` does once it has its buffer. -/
theorem alone_readCopy {p size offset n : ℤ} {readBuf out : List Byte}
    {st st' : MemoryStorage σ} (hcopy : readCopy env st readBuf size p offset = .ok (n, out, st')) :
    Alone env i (C.placed i st (.check p readBuf size offset)) ⟨n, [out]⟩
      { C with st := st' } := by
  obtain ⟨pc, hp, hcopy⟩ := bind_eq_ok_iff.mp hcopy
  split at hcopy
  · -- the piece is not complete
    rename_i hinc
    obtain ⟨rfl, hpair⟩ := Prod.mk.inj (Except.ok.inj hcopy)
    obtain ⟨rfl, rfl⟩ := Prod.mk.inj hpair
    refine .last (Function.update_self ..) trivial ?_
    rw [turn, show (C.placed i st (.check p readBuf size offset)).st = st from rfl, hp, ok_bind,
      if_pos hinc, ← Crew.placed_done hstage hm hr st (restorePiece env st p)
        (s := .check p readBuf size offset) rfl rfl]
    rfl
  · rename_i hcomplete
    refine .go st (.measure p readBuf size offset) rfl rfl trivial ?_ ?_
    · rw [turn, show (C.placed i st (.check p readBuf size offset)).st = st from rfl, hp, ok_bind,
        if_neg hcomplete]
      rfl
    obtain ⟨bf, hb, hcopy⟩ := bind_eq_ok_iff.mp hcopy
    simp only at hcopy
    split at hcopy
    · -- there is nothing behind the offset
      rename_i hnone
      obtain ⟨rfl, hpair⟩ := Prod.mk.inj (Except.ok.inj hcopy)
      obtain ⟨rfl, rfl⟩ := Prod.mk.inj hpair
      refine .last (Function.update_self ..) trivial ?_
      rw [turn, show (C.placed i st (.measure p readBuf size offset)).st = st from rfl, hp,
        ok_bind, hb, ok_bind]
      simp only
      rw [if_pos hnone, ← Crew.placed_done hstage hm hr st st
        (s := .measure p readBuf size offset) rfl rfl]
      rfl
    · rename_i hsome
      obtain ⟨out', hout, hcopy⟩ := bind_eq_ok_iff.mp hcopy
      obtain ⟨st₁, hfinish, hret⟩ := bind_eq_ok_iff.mp hcopy
      obtain ⟨rfl, hpair⟩ := Prod.mk.inj (Except.ok.inj hret)
      obtain ⟨rfl, rfl⟩ := Prod.mk.inj hpair
      set available := toInt (toSize (bf.buffer.length - offset)) with havail
      set toCopy := if available > size then size else available with hto
      refine .go st (.aim p toCopy (.read readBuf size offset)) rfl rfl trivial ?_ ?_
      · rw [turn, show (C.placed i st (.measure p readBuf size offset)).st = st from rfl, hp,
          ok_bind, hb, ok_bind]
        simp only
        rw [if_neg hsome]
        rfl
      refine .go st (.move p pc.bi toCopy (.read readBuf size offset)) rfl rfl trivial ?_ ?_
      · rw [turn, show (C.placed i st _).st = st from rfl, hp, ok_bind, hb]
        rfl
      refine .go st (.finish p (offset + toCopy) ⟨size, [out']⟩) rfl rfl trivial ?_
        (alone_finish hstage hm hr hfinish)
      rw [turn, moveTurn, show (C.placed i st _).st = st from rfl, hb, ok_bind, hout]
      rfl

/-- What `writev` does once it has its buffer. -/
theorem alone_writev {p offset n : ℤ} {bufs : List (List Byte)} {fuel : ℕ}
    {st st₁ st₂ st' : MemoryStorage σ} (hcopy : writevCopy p bufs offset 0 st = .ok (n, st₁))
    (hacc : writevAccount env st₁ p n = .ok st₂) (htrim : writevTrim env fuel st₂ p = .ok st') :
    Alone env i (C.placed i st (.chunk p (.writev bufs offset 0))) ⟨n, []⟩
      { C with st := st' } := by
  refine alone_writevCopy hcopy ?_
  refine .go st₂ (.test p n) rfl rfl trivial ?_ ?_
  · rw [turn, show (C.placed i st₁ (.account p n)).st = st₁ from rfl, hacc]
    rfl
  unfold writevTrim at htrim
  by_cases hfull : st₂.isFull = true
  · rw [if_pos hfull] at htrim
    refine .go st₂ (.retest p n) rfl rfl trivial ?_ ?_
    · rw [turn, show (C.placed i st₂ (.test p n)).st = st₂ from rfl, if_pos hfull]
    unfold MemoryStorage.trim at htrim
    by_cases hcap : (st₂.capacity < 0 || !st₂.isFull) = true
    · rw [if_pos hcap] at htrim
      obtain rfl := Except.ok.inj htrim
      refine .last (Function.update_self ..) trivial ?_
      rw [turn, show (C.placed i st₂ (.retest p n)).st = st₂ from rfl, if_pos hcap,
        Crew.placed_done hstage hm hr st₂ st₂ rfl rfl]
    · rw [if_neg hcap] at htrim
      refine .go st₂ (.lock p n) rfl rfl trivial ?_ ?_
      · rw [turn, show (C.placed i st₂ (.retest p n)).st = st₂ from rfl, if_neg hcap]
      have hrounds : Alone env i (C.placed i st₂ (.round p n)) ⟨n, []⟩ _ :=
        alone_trim hstage hm hr htrim
      refine .step (Function.update_self ..) rfl rfl ?_
      simp only [Crew.placed, Crew.next, Stage.holdsM, Stage.holdsR, Function.update_idem,
        if_true] at hrounds ⊢
      exact hrounds
  · rw [if_neg hfull] at htrim
    obtain rfl := Except.ok.inj htrim
    refine .last (Function.update_self ..) trivial ?_
    rw [turn, show (C.placed i st₂ (.test p n)).st = st₂ from rfl, if_neg hfull,
      Crew.placed_done hstage hm hr st₂ st₂ rfl rfl]

/-- The loop of `update_reserved_pieces`. -/
theorem alone_reserve {pieces : List ℤ} {st : MemoryStorage σ} {bits : List Bool}
    (hbits : setBits st.reservedPieces pieces = .ok bits) :
    Alone env i (C.placed i st (.reserve pieces)) .none
      { C with st := { st with
        reservedPieces := bits
        bufferReserved := st.bufferReserved + pieces.length } } := by
  induction pieces generalizing st with
  | nil =>
      obtain rfl := Except.ok.inj hbits
      refine .last (Function.update_self ..) trivial ?_
      rw [turn, show (C.placed i st (.reserve [])).st = st from rfl]
      simp only [Crew.placed, Crew.done, Stage.holdsM, Function.update_idem]
      rw [Function.update_eq_self_iff.mpr hstage.symm, hr]
      simp [hm]
  | cons p pieces ih =>
      obtain ⟨r, hp, hrest⟩ := bind_eq_ok_iff.mp hbits
      set st₁ : MemoryStorage σ := { st with
        reservedPieces := put st.reservedPieces p true
        bufferReserved := st.bufferReserved + 1 } with hst₁
      have hstep : st.reserve p = .ok st₁ := by
        rw [MemoryStorage.reserve, hp]
        rfl
      have hlength : st₁.bufferReserved + pieces.length =
          st.bufferReserved + (p :: pieces).length := by
        rw [List.length_cons, hst₁]
        push_cast
        ring
      have hrest' := @ih st₁ hrest
      rw [hlength] at hrest'
      refine .go st₁ (.reserve pieces) rfl rfl trivial ?_ hrest'
      rw [turn, show (C.placed i st (.reserve (p :: pieces))).st = st from rfl, hstep]
      rfl

/-- A write, from its first look on. -/
theorem alone_look_writev {p offset n : ℤ} {bufs : List (List Byte)} {fuel : ℕ}
    {st st' : MemoryStorage σ} (hinit : st.isInitialized = true)
    (hw : MemoryStorage.writev env fuel st bufs p offset = .ok (n, st')) :
    Alone env i (C.placed i st (.look p (.writev bufs offset))) ⟨n, []⟩ { C with st := st' } := by
  rw [MemoryStorage.writev, if_neg (by simp [hinit])] at hw
  obtain ⟨⟨got, st₁⟩, hget, hw⟩ := bind_eq_ok_iff.mp hw
  obtain ⟨pc, hp, -⟩ := bind_eq_ok_iff.mp hget
  have writes : got = true →
      Alone env i (C.placed i st₁ ((Job.writev bufs offset).begins p)) ⟨n, []⟩
        { C with st := st' } := by
    rintro rfl
    obtain ⟨⟨m, st₂⟩, hcopy, hw⟩ := bind_eq_ok_iff.mp hw
    obtain ⟨st₃, hacc, hw⟩ := bind_eq_ok_iff.mp hw
    obtain ⟨st₄, htrim, hret⟩ := bind_eq_ok_iff.mp hw
    obtain ⟨rfl, rfl⟩ := Prod.mk.inj (Except.ok.inj hret)
    exact alone_writev hstage hm hr hcopy hacc htrim
  apply alone_look hp
  · intro hb
    rw [getWriteBuffer, getBuffer_of_buffered env hp hb] at hget
    obtain ⟨rfl, rfl⟩ := Prod.mk.inj (Except.ok.inj hget)
    exact writes rfl
  · intro _
    cases got with
    | true =>
        refine .go st₁ ((Job.writev bufs offset).begins p) rfl rfl rfl ?_ (writes rfl)
        rw [turn, getTurn, show (C.placed i st (.get p _)).st = st from rfl, hget]
        rfl
    | false =>
        obtain ⟨rfl, rfl⟩ := Prod.mk.inj (Except.ok.inj hw)
        refine .last (Function.update_self ..) rfl ?_
        rw [turn, getTurn, show (C.placed i st (.get p _)).st = st from rfl, hget,
          ← Crew.placed_done hstage hm hr st st₁ (s := .get p (.writev bufs offset)) rfl rfl]
        rfl

/-- A scattered read, from its first look on. -/
theorem alone_look_readv {p offset n : ℤ} {bufs out : List (List Byte)}
    {st st' : MemoryStorage σ} (hinit : st.isInitialized = true)
    (hread : MemoryStorage.readv env st bufs p offset = .ok (n, out, st')) :
    Alone env i (C.placed i st (.look p (.readv bufs offset))) ⟨n, out⟩ { C with st := st' } := by
  rw [MemoryStorage.readv, if_neg (by simp [hinit])] at hread
  obtain ⟨⟨got, st₁⟩, hget, hread⟩ := bind_eq_ok_iff.mp hread
  obtain ⟨pc, hp, -⟩ := bind_eq_ok_iff.mp hget
  have reads : got = true →
      Alone env i (C.placed i st₁ ((Job.readv bufs offset).begins p)) ⟨n, out⟩
        { C with st := st' } := by
    rintro rfl
    obtain ⟨⟨m, out'⟩, hcopy, hread⟩ := bind_eq_ok_iff.mp hread
    obtain ⟨st₂, hfinish, hret⟩ := bind_eq_ok_iff.mp hread
    obtain ⟨rfl, hpair⟩ := Prod.mk.inj (Except.ok.inj hret)
    obtain ⟨rfl, rfl⟩ := Prod.mk.inj hpair
    refine alone_readvCopy hcopy ?_
    exact alone_finish hstage hm hr hfinish
  apply alone_look hp
  · intro hb
    rw [getReadBuffer, getBuffer_of_buffered env hp hb] at hget
    obtain ⟨rfl, rfl⟩ := Prod.mk.inj (Except.ok.inj hget)
    exact reads rfl
  · intro _
    cases got with
    | true =>
        refine .go st₁ ((Job.readv bufs offset).begins p) rfl rfl rfl ?_ (reads rfl)
        rw [turn, getTurn, show (C.placed i st (.get p _)).st = st from rfl, hget]
        rfl
    | false =>
        obtain ⟨rfl, hpair⟩ := Prod.mk.inj (Except.ok.inj hread)
        obtain ⟨rfl, rfl⟩ := Prod.mk.inj hpair
        refine .last (Function.update_self ..) rfl ?_
        rw [turn, getTurn, show (C.placed i st (.get p _)).st = st from rfl, hget,
          ← Crew.placed_done hstage hm hr st st₁ (s := .get p (.readv bufs offset)) rfl rfl]
        rfl

/-- A read, from its first look on. -/
theorem alone_look_read {p offset size n : ℤ} {readBuf out : List Byte}
    {st st' : MemoryStorage σ} (hinit : st.isInitialized = true)
    (hread : MemoryStorage.read env st readBuf size p offset = .ok (n, out, st')) :
    Alone env i (C.placed i { st with isReading := true } (.look p (.read readBuf size offset)))
      ⟨n, [out]⟩ { C with st := st' } := by
  rw [MemoryStorage.read, if_neg (by simp [hinit])] at hread
  generalize ({ st with isReading := true } : MemoryStorage σ) = st at hread ⊢
  obtain ⟨⟨got, st₁⟩, hget, hread⟩ := bind_eq_ok_iff.mp hread
  obtain ⟨pc, hp, -⟩ := bind_eq_ok_iff.mp hget
  have reads : got = true →
      Alone env i (C.placed i st₁ ((Job.read readBuf size offset).begins p)) ⟨n, [out]⟩
        { C with st := st' } := by
    rintro rfl
    exact alone_readCopy hstage hm hr hread
  apply alone_look hp
  · intro hb
    rw [getReadBuffer, getBuffer_of_buffered env hp hb] at hget
    obtain ⟨rfl, rfl⟩ := Prod.mk.inj (Except.ok.inj hget)
    exact reads rfl
  · intro _
    cases got with
    | true =>
        refine .go st₁ ((Job.read readBuf size offset).begins p) rfl rfl rfl ?_ (reads rfl)
        rw [turn, getTurn, show (C.placed i st (.get p _)).st = st from rfl, hget]
        rfl
    | false =>
        obtain ⟨rfl, hpair⟩ := Prod.mk.inj (Except.ok.inj hread)
        obtain ⟨rfl, rfl⟩ := Prod.mk.inj hpair
        refine .last (Function.update_self ..) rfl ?_
        rw [turn, getTurn, show (C.placed i st (.get p _)).st = st from rfl, hget,
          ← Crew.placed_done hstage hm hr st (restorePiece env st₁ p)
            (s := .get p (.read readBuf size offset)) rfl rfl]
        rfl

/-- **A thread that is left alone makes the call of the sequential model**: it returns what
that returns, and leaves the storage as that leaves it. -/
theorem alone_eq {task : Task σ} {fuel : ℕ} {r : Reply} {st' : MemoryStorage σ}
    (hinit : C.st.isInitialized = true)
    (hexec : exec env fuel C.st task.call = .ok (r, st')) :
    enterTurn C i task = .ok (some r, { C with st := st' }) ∨
    ∃ C₁, enterTurn C i task = .ok (none, C₁) ∧ Alone env i C₁ r { C with st := st' } := by
  have hnot : ¬(!C.st.isInitialized) = true := by simp [hinit]
  cases task with
  | transfer p job =>
      right
      cases job with
      | writev bufs offset =>
          obtain ⟨⟨n, st₁⟩, hw, hret⟩ := bind_eq_ok_iff.mp hexec
          obtain ⟨rfl, rfl⟩ := Prod.mk.inj (Except.ok.inj hret)
          refine ⟨_, by rw [enterTurn, if_neg hnot], ?_⟩
          rw [Crew.next_eq_placed hm hr C.st rfl rfl]
          exact alone_look_writev hstage hm hr hinit hw
      | readv bufs offset =>
          obtain ⟨⟨n, out, st₁⟩, hread, hret⟩ := bind_eq_ok_iff.mp hexec
          obtain ⟨rfl, rfl⟩ := Prod.mk.inj (Except.ok.inj hret)
          refine ⟨_, by rw [enterTurn, if_neg hnot], ?_⟩
          rw [Crew.next_eq_placed hm hr C.st rfl rfl]
          exact alone_look_readv hstage hm hr hinit hread
      | read readBuf size offset =>
          obtain ⟨⟨n, out, st₁⟩, hread, hret⟩ := bind_eq_ok_iff.mp hexec
          obtain ⟨rfl, rfl⟩ := Prod.mk.inj (Except.ok.inj hret)
          refine ⟨_, by rw [enterTurn, if_neg hnot], ?_⟩
          rw [Crew.next_eq_placed hm hr _ rfl rfl]
          exact alone_look_read hstage hm hr hinit hread
  | setMemorySize s =>
      obtain ⟨st₁, hs, hret⟩ := bind_eq_ok_iff.mp hexec
      obtain ⟨rfl, rfl⟩ := Prod.mk.inj (Except.ok.inj hret)
      rw [setMemorySize_eq] at hs
      by_cases hle : s ≤ C.st.capacity
      · left
        rw [if_pos hle] at hs
        obtain rfl := Except.ok.inj hs
        rw [enterTurn, if_pos hle]
      · right
        rw [if_neg hle] at hs
        refine ⟨_, by rw [enterTurn, if_neg hle], ?_⟩
        rw [Crew.next_eq_placed hm hr C.st rfl rfl]
        refine .last (Function.update_self ..) rfl ?_
        rw [turn, show (C.placed i C.st (.grow s)).st = C.st from rfl, hs,
          ← Crew.placed_done hstage hm hr C.st st₁ (s := .grow s) rfl rfl]
        rfl
  | updateReservedPieces pieces =>
      right
      obtain ⟨st₁, hs, hret⟩ := bind_eq_ok_iff.mp hexec
      obtain ⟨rfl, rfl⟩ := Prod.mk.inj (Except.ok.inj hret)
      rw [MemoryStorage.updateReservedPieces, if_neg hnot] at hs
      obtain ⟨bits, hbits, hst⟩ := bind_eq_ok_iff.mp hs
      obtain rfl := Except.ok.inj hst
      refine ⟨_, by rw [enterTurn, if_neg hnot], ?_⟩
      have hcleared : setBits C.st.clearReserved.reservedPieces pieces = .ok bits := hbits
      have hloop : Alone env i (C.placed i C.st.clearReserved (.reserve pieces)) .none _ :=
        alone_reserve hstage hm hr hcleared
      have hentered : ({ C with rMutex := some i } : Crew ι σ).next i C.st.clearReserved
          (.reserve pieces) = C.placed i C.st.clearReserved (.reserve pieces) := by
        simp only [Crew.next, Crew.placed, Stage.holdsM, Stage.holdsR, hm]
        rfl
      rw [hentered]
      simpa [clearReserved] using hloop
  | updateReaderPieces pieces =>
      left
      obtain ⟨st₁, hs, hret⟩ := bind_eq_ok_iff.mp hexec
      obtain ⟨rfl, rfl⟩ := Prod.mk.inj (Except.ok.inj hret)
      rw [enterTurn, hs]
      rfl
  | setTorrentHandle t =>
      left
      obtain ⟨rfl, rfl⟩ := Prod.mk.inj (Except.ok.inj hexec)
      rfl
  | outside torrent =>
      left
      obtain ⟨rfl, rfl⟩ := Prod.mk.inj (Except.ok.inj hexec)
      rfl

omit hstage hm hr in
/-- A write, while another thread is about to look for its buffer. -/
theorem alone_eq_write :
    ∃ st r st', MemoryStorage.new (quads 9) 0 true true () = .ok st ∧
      exec ticking 3 st (.writev [[1, 2], [3]] 4 1) = .ok (r, st') ∧
      ∃ C : Crew (Fin 2) Unit, C.st = st ∧ C.stage 1 = some (.get 2 (.readv [[0]] 0)) ∧
        (enterTurn C 0 (.transfer 4 (.writev [[1, 2], [3]] 1)) =
            .ok (some r, { C with st := st' }) ∨
          ∃ C₁, enterTurn C 0 (.transfer 4 (.writev [[1, 2], [3]] 1)) = .ok (none, C₁) ∧
            Alone ticking 0 C₁ r { C with st := st' }) := by
  refine ⟨_, _, _, rfl, rfl, ⟨_, none, none, Function.update (fun _ => none) 1 (some (.get 2
    (.readv [[0]] 0)))⟩, rfl, rfl, ?_⟩
  exact @alone_eq Unit (Fin 2) _ ticking _ 0 rfl rfl rfl
    (.transfer 4 (.writev [[1, 2], [3]] 1)) 3 _ _ rfl rfl

end Returning

end Steps

end Libtorrent
