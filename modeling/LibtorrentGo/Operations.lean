/-
# What the operations do to linked state

One lemma for each function of the storage, from which everything else about it
follows; no later file unfolds the functions again.

* `getReadBuffer_eq`, `getWriteBuffer_cases`: acquiring a buffer;
* `findLastBuffer_finds`, `findLastBuffer_cases`: the search for a victim, by way of
  `EarliestScan`;
* `removePiece_eq`: an eviction;
* `trimBody_cases`: one round of `trim`, which evicts the oldest candidate or, for
  lack of one, only lets time pass.
-/
import LibtorrentGo.EarliestScan
import LibtorrentGo.Links

open EarliestScan MachineInt Splice Subscript

namespace Libtorrent

variable {σ : Type}

/-! ## Sequencing -/

@[simp] theorem ok_bind {ε α β : Type} (a : α) (f : α → Except ε β) :
    (Except.ok a >>= f) = f a := rfl

@[simp] theorem error_bind {ε α β : Type} (e : ε) (f : α → Except ε β) :
    (Except.error e >>= f) = Except.error e := rfl

@[simp] theorem pure_eq_ok {ε α : Type} (a : α) : (pure a : Except ε α) = .ok a := rfl

/-- A sequence that returns has two parts that return. -/
theorem bind_eq_ok_iff {ε α β : Type} {x : Except ε α} {f : α → Except ε β} {b : β} :
    (x >>= f) = .ok b ↔ ∃ a, x = .ok a ∧ f a = .ok b := by
  cases x with
  | error e => simp
  | ok a => simp

/-- A subscript in range. -/
theorem subscript_eq {α : Type} {xs : List α} {i : ℤ} {a : α} (h : at? xs i = some a) :
    subscript xs i = .ok a := by
  simp [subscript, h]

/-- A subscript that succeeds is in range. -/
theorem at?_of_subscript {α : Type} {xs : List α} {i : ℤ} {a : α} (h : subscript xs i = .ok a) :
    at? xs i = some a := by
  unfold subscript at h
  split at h
  · rename_i b hb
    rw [hb, Except.ok.inj h]
  · exact absurd h (by simp)

/-- The subscript `buffers[pieces[p].bi]` is in range only where `p` owns that buffer. -/
theorem owns_of_subscripts {st : MemoryStorage σ} (h : Linked st) {p : ℤ} {pc : MemoryPiece}
    {bf : MemoryBuffer} (hp : subscript st.pieces p = .ok pc)
    (hb : subscript st.buffers pc.bi = .ok bf) : Owns st p pc pc.bi bf := by
  have hp' := at?_of_subscript hp
  have hb' := at?_of_subscript hb
  have hbounds := h.buffer_bounds hb'
  obtain ⟨bf', ho⟩ := h.owns_of_piece hp' (by omega)
  obtain rfl := ho.buffer_eq hb'
  exact ho

namespace MemoryStorage

/-! ## Acquiring a buffer -/

/-- A valid piece is reserved. -/
def Reserved (st : MemoryStorage σ) (p : ℤ) : Prop := at? st.reservedPieces p = some true

instance (st : MemoryStorage σ) (p : ℤ) : Decidable (st.Reserved p) :=
  inferInstanceAs (Decidable (_ = _))

/-- The reader rule: once something was read, a piece of priority 0 gets no buffer. -/
def Refused (env : Env σ) (st : MemoryStorage σ) (p : ℤ) : Prop :=
  st.isReading = true ∧ isReadered env st p = false

instance (env : Env σ) (st : MemoryStorage σ) (p : ℤ) : Decidable (st.Refused env p) :=
  inferInstanceAs (Decidable (_ ∧ _))

/-- Every buffer of the pool is in use. -/
def PoolFull (st : MemoryStorage σ) : Prop :=
  ∀ b bf, at? st.buffers b = some bf → bf.isUsed = true

/-- Buffer `b` is the first free one. -/
structure FirstFree (st : MemoryStorage σ) (b : ℤ) (bf : MemoryBuffer) : Prop where
  buffer : at? st.buffers b = some bf
  free : bf.isUsed = false
  first : ∀ c cf, c < b → at? st.buffers c = some cf → cf.isUsed = true

/-- A reader gets the buffer its piece has. -/
theorem getReadBuffer_eq (env : Env σ) {st : MemoryStorage σ} {p : ℤ} {pc : MemoryPiece}
    (hp : at? st.pieces p = some pc) :
    getReadBuffer env st p = .ok (pc.isBuffered, st) := by
  simp only [getReadBuffer, getBuffer, subscript_eq hp, ok_bind]
  cases pc.isBuffered <;> rfl

/-- The loop of `get_buffer` takes the first free buffer, if there is one. -/
theorem claimBuffer_cases (env : Env σ) {st : MemoryStorage σ} (h : Linked st) {p : ℤ}
    {pc : MemoryPiece} (hp : at? st.pieces p = some pc) (k : ℕ) {i : ℤ} (h0 : 0 ≤ i)
    (hk : i + k = st.bufferSize)
    (hpre : ∀ c cf, c < i → at? st.buffers c = some cf → cf.isUsed = true) :
    (st.PoolFull ∧ claimBuffer env p k i st = .ok st) ∨
    ∃ b bf, FirstFree st b bf ∧
      claimBuffer env p k i st = .ok (st.place env p pc b bf (decide (st.Reserved p))) := by
  induction k generalizing i with
  | zero =>
      left
      refine ⟨fun c cf hc => hpre c cf ?_ hc, rfl⟩
      have := (h.buffer_bounds hc).2
      omega
  | succ k ih =>
      obtain ⟨bf, hb⟩ : ∃ bf, at? st.buffers i = some bf := by
        apply exists_at?_eq_some h0
        rw [h.buffers_length]
        omega
      cases hu : bf.isUsed with
      | true =>
          have hstep : claimBuffer env p (k + 1) i st = claimBuffer env p k (i + 1) st := by
            simp [claimBuffer, subscript_eq hb, hu]
          rw [hstep]
          refine ih (by omega) (by omega) ?_
          intro c cf hc hcf
          rcases lt_or_eq_of_le (show c ≤ i by omega) with hlt | rfl
          · exact hpre c cf hlt hcf
          · rw [hb] at hcf
            obtain rfl := Option.some.inj hcf
            exact hu
      | false =>
          right
          have hbounds := h.piece_bounds hp
          obtain ⟨r, hr⟩ := h.exists_reserved hbounds.1 hbounds.2
          have hpi := h.piece_index hp
          have hbi := h.buffer_index hb
          refine ⟨i, bf, ⟨hb, hu, hpre⟩, ?_⟩
          subst hpi
          simp only [claimBuffer, subscript_eq hb, subscript_eq hp, subscript_eq hr, ok_bind, hu,
            Bool.false_eq_true, if_false, place, Reserved, hr, hbi, Option.some.injEq]
          cases r <;> simp

/-- **Acquiring a buffer to write.**  A buffered piece keeps its buffer; otherwise the
reader rule may refuse it, the pool may be full, or the first free buffer is taken. -/
theorem getWriteBuffer_cases (env : Env σ) {st : MemoryStorage σ} (h : Linked st) {p : ℤ}
    {pc : MemoryPiece} (hp : at? st.pieces p = some pc) :
    (pc.bi ≠ -1 ∧ getWriteBuffer env st p = .ok (true, st)) ∨
    (pc.bi = -1 ∧ st.Refused env p ∧
      getWriteBuffer env st p = .ok (false, restorePiece env st p)) ∨
    (pc.bi = -1 ∧ ¬st.Refused env p ∧ st.PoolFull ∧
      getWriteBuffer env st p = .ok (false, st)) ∨
    (pc.bi = -1 ∧ ¬st.Refused env p ∧ ∃ b bf, FirstFree st b bf ∧
      getWriteBuffer env st p =
        .ok (true, st.place env p pc b bf (decide (st.Reserved p)))) := by
  have hpi := h.piece_index hp
  by_cases hb : pc.bi = -1
  · right
    have hnb : pc.isBuffered = false := by simp [MemoryPiece.isBuffered, hb]
    by_cases href : st.Refused env p
    · left
      refine ⟨hb, href, ?_⟩
      obtain ⟨hread, hprio⟩ := href
      simp [getWriteBuffer, getBuffer, subscript_eq hp, hnb, hread, hpi, hprio]
    · right
      have hadmit : (st.isReading && !isReadered env st pc.index) = false := by
        rw [hpi]
        simp only [Refused, not_and, Bool.not_eq_false] at href
        cases hread : st.isReading with
        | false => rfl
        | true => simp [href hread]
      have hsize : 0 ≤ st.bufferSize := by
        rw [← h.buffers_length]
        omega
      have hclaim := claimBuffer_cases env h hp st.bufferSize.toNat le_rfl (by omega)
        (fun c cf hc hcf => by
          have := (h.buffer_bounds hcf).1
          omega)
      rcases hclaim with ⟨hfull, heq⟩ | ⟨b, bf, hfree, heq⟩
      · left
        refine ⟨hb, href, hfull, ?_⟩
        simp only [getWriteBuffer, getBuffer, subscript_eq hp, ok_bind, hnb, Bool.false_eq_true,
          if_false, Bool.not_true, hadmit, heq, pure_eq_ok]
      · right
        refine ⟨hb, href, b, bf, hfree, ?_⟩
        have hb0 := (h.buffer_bounds hfree.buffer).1
        have hp' : at? (st.place env p pc b bf (decide (st.Reserved p))).pieces p
            = some { pc with bi := b } := at?_put_self hp _
        have hbuf : MemoryPiece.isBuffered { pc with bi := b } = true := by
          simp only [MemoryPiece.isBuffered, decide_eq_true_eq, ne_eq]
          omega
        simp only [getWriteBuffer, getBuffer, subscript_eq hp, ok_bind, hnb, Bool.false_eq_true,
          if_false, Bool.not_true, hadmit, heq, subscript_eq hp', hbuf, pure_eq_ok]
  · left
    refine ⟨hb, ?_⟩
    have hbuf : pc.isBuffered = true := by simp [MemoryPiece.isBuffered, hb]
    simp [getWriteBuffer, getBuffer, subscript_eq hp, hbuf]

/-! ## The search for a victim -/

/-- A buffer `find_last_buffer(pi, check_read)` may choose, its access time aside. -/
def Candidate (env : Env σ) (st : MemoryStorage σ) (pi : ℤ) (checkRead : Bool)
    (bf : MemoryBuffer) : Prop :=
  bf.isUsed = true ∧ ¬st.Reserved bf.pi ∧ bf.pi ≠ pi ∧
    (checkRead = true → isReadered env st bf.pi = false)

instance (env : Env σ) (st : MemoryStorage σ) (pi : ℤ) (checkRead : Bool) (bf : MemoryBuffer) :
    Decidable (st.Candidate env pi checkRead bf) :=
  inferInstanceAs (Decidable (_ ∧ _ ∧ _ ∧ _))

/-- The access time of a candidate. -/
def age (env : Env σ) (st : MemoryStorage σ) (pi : ℤ) (checkRead : Bool) (bf : MemoryBuffer) :
    Option ℤ :=
  if st.Candidate env pi checkRead bf then bf.accessed else none

/-- The buffers in use are assigned, and the reservations of their pieces can be read. -/
structure Searchable (st : MemoryStorage σ) : Prop where
  initialized : st.isInitialized = true
  assigned : ∀ bf ∈ st.buffers, bf.isUsed = true → bf.isAssigned = true
  reservation : ∀ bf ∈ st.buffers, bf.isUsed = true → ∃ r, at? st.reservedPieces bf.pi = some r

/-- Linked buffers can be searched. -/
theorem searchable {st : MemoryStorage σ} (h : Linked st) : Searchable st := by
  have bounds : ∀ bf ∈ st.buffers, bf.isUsed = true → 0 ≤ bf.pi ∧ bf.pi < st.pieceCount := by
    intro bf hb hu
    obtain ⟨b, hb⟩ := exists_at?_of_mem hb
    obtain ⟨pc, ho⟩ := h.owns_of_buffer hb hu
    exact h.piece_bounds ho.piece
  refine ⟨h.initialized, ?_, ?_⟩
  · intro bf hb hu
    have hbounds := bounds bf hb hu
    simp only [MemoryBuffer.isAssigned, decide_eq_true_eq, ne_eq]
    omega
  · intro bf hb hu
    have hbounds := bounds bf hb hu
    exact h.exists_reserved hbounds.1 hbounds.2

/-- The `if` of the search asks whether a candidate was accessed before `minTime`. -/
theorem isOlder_eq (env : Env σ) {st : MemoryStorage σ} (h : Searchable st) {bf : MemoryBuffer}
    (hb : bf ∈ st.buffers) (pi : ℤ) (checkRead : Bool) (minTime : ℤ) :
    isOlder env st pi checkRead bf minTime =
      .ok (decide (st.Candidate env pi checkRead bf) && bf.accessedBefore minTime) := by
  cases hu : bf.isUsed with
  | false => simp [isOlder, Candidate, hu]
  | true =>
      obtain ⟨r, hr⟩ := h.reservation bf hb hu
      have hassigned := h.assigned bf hb hu
      simp only [isOlder, hu, hassigned, isReserved, h.initialized, subscript_eq hr, Candidate,
        Reserved, hr, Bool.and_self, if_true, Bool.not_true, Bool.false_eq_true, if_false,
        ok_bind, pure_eq_ok, Except.ok.injEq]
      cases r <;> cases checkRead <;> simp

/-- The loop of `find_last_buffer` is a scan for the earliest access. -/
theorem findLastLoop_eq (env : Env σ) {st : MemoryStorage σ} (h : Searchable st) (pi : ℤ)
    (checkRead : Bool) {bs : List MemoryBuffer} (hbs : ∀ bf ∈ bs, bf ∈ st.buffers)
    (best : Option MemoryBuffer) {bi : ℤ} (minTime : ℤ)
    (hbi : bi = (best.map (·.index)).getD (-1)) :
    findLastLoop env st pi checkRead bs bi minTime =
      .ok (((scan (st.age env pi checkRead) bs best minTime).map (·.index)).getD (-1)) := by
  induction bs generalizing best bi minTime with
  | nil => simp [findLastLoop, scan, hbi]
  | cons bf bs ih =>
      obtain ⟨hbf, hbs⟩ := List.forall_mem_cons.mp hbs
      simp only [findLastLoop, isOlder_eq env h hbf, ok_bind, scan, age]
      by_cases hc : st.Candidate env pi checkRead bf
      · cases ha : bf.accessed with
        | none =>
            simp only [MemoryBuffer.accessedBefore, ha, Bool.and_false, Bool.false_eq_true,
              if_false, if_pos hc]
            exact ih hbs best minTime hbi
        | some t =>
            simp only [MemoryBuffer.accessedBefore, ha, hc, decide_true, Bool.true_and,
              decide_eq_true_eq, if_true, Option.getD_some]
            split
            · exact ih hbs (some bf) t rfl
            · exact ih hbs best minTime hbi
      · simp only [hc, decide_false, Bool.false_and, Bool.false_eq_true, if_false]
        exact ih hbs best minTime hbi

/-- No candidate was accessed before `now`. -/
def NoneOlder (env : Env σ) (st : MemoryStorage σ) (pi : ℤ) (checkRead : Bool) (now : ℤ) : Prop :=
  ∀ b bf t, at? st.buffers b = some bf → st.Candidate env pi checkRead bf →
    bf.accessed = some t → now ≤ t

/-- Buffer `b` is a candidate accessed before `now`, and the first of those accessed the
longest ago. -/
structure Oldest (env : Env σ) (st : MemoryStorage σ) (pi : ℤ) (checkRead : Bool) (now b : ℤ)
    (bf : MemoryBuffer) : Prop where
  buffer : at? st.buffers b = some bf
  candidate : st.Candidate env pi checkRead bf
  oldest : ∃ t, bf.accessed = some t ∧ t < now ∧
    ∀ c cf u, at? st.buffers c = some cf → st.Candidate env pi checkRead cf →
      cf.accessed = some u → t < u ∨ t = u ∧ b ≤ c

/-- Time passes while `n` clock readings are made. -/
def wait (st : MemoryStorage σ) (n : ℕ) : MemoryStorage σ := { st with ticks := st.ticks + n }

/-- Waiting keeps the links. -/
theorem linked_wait {st : MemoryStorage σ} (h : Linked st) (n : ℕ) : Linked (st.wait n) :=
  h.frame (st.ticks + n) st.torrent st.isReading st.bufferUsed st.bufferLimit

/-- A scan that finds nothing has seen no candidate that was accessed before `now`. -/
theorem noneOlder_of_scan {env : Env σ} {st : MemoryStorage σ} {pi : ℤ} {checkRead : Bool}
    {now : ℤ} (hs : scan (st.age env pi checkRead) st.buffers none now = none) :
    st.NoneOlder env pi checkRead now := by
  intro b bf t hb hc ha
  refine (scan_eq_none_iff _ _ _).mp hs bf (mem_of_at? hb) t ?_
  rw [age, if_pos hc, ha]

/-- A scan that finds a buffer has found the first of those accessed the longest ago. -/
theorem oldest_of_scan {env : Env σ} {st : MemoryStorage σ} {pi : ℤ} {checkRead : Bool}
    {now : ℤ} {bf : MemoryBuffer}
    (hs : scan (st.age env pi checkRead) st.buffers none now = some bf) :
    ∃ b, st.Oldest env pi checkRead now b bf := by
  obtain ⟨l₁, l₂, t, hsplit, ht, hlt, hbefore, hbehind⟩ := scan_none_eq_some hs
  have hb : at? st.buffers l₁.length = some bf := by
    rw [at?_natCast, hsplit, List.getElem?_append_right le_rfl, Nat.sub_self]
    rfl
  have hc : st.Candidate env pi checkRead bf := by
    by_contra hc
    rw [age, if_neg hc] at ht
    exact absurd ht (by simp)
  rw [age, if_pos hc] at ht
  refine ⟨l₁.length, hb, hc, t, ht, hlt, ?_⟩
  intro c cf u hcf hcc hcu
  have hage : st.age env pi checkRead cf = some u := by
    rw [age, if_pos hcc, hcu]
  rw [hsplit] at hcf
  rcases lt_or_ge c l₁.length with hlt' | hge
  · left
    rw [at?_append_left _ hlt'] at hcf
    exact hbefore cf (mem_of_at? hcf) u hage
  · have hle : t ≤ u := by
      rw [at?_append_right _ _ hge] at hcf
      rcases List.mem_cons.mp (mem_of_at? hcf) with rfl | hmem
      · rw [ht] at hcu
        exact (Option.some.inj hcu).le
      · exact hbehind cf hmem u hage
    rcases lt_or_eq_of_le hle with hlt' | heq
    · exact Or.inl hlt'
    · exact Or.inr ⟨heq, hge⟩

/-- **The search**: `find_last_buffer` returns -1 when no candidate was accessed before the
current time, and otherwise the index of one that was accessed the longest ago. -/
theorem findLastBuffer_finds (env : Env σ) {st : MemoryStorage σ} (h : Searchable st) (pi : ℤ)
    (checkRead : Bool) :
    (findLastBuffer env st pi checkRead = .ok (-1, st.wait 1) ∧
      (st.wait 1).NoneOlder env pi checkRead (env.clock st.ticks)) ∨
    ∃ b bf, findLastBuffer env st pi checkRead = .ok (bf.index, st.wait 1) ∧
      (st.wait 1).Oldest env pi checkRead (env.clock st.ticks) b bf := by
  have hl : Searchable (st.wait 1) := ⟨h.initialized, h.assigned, h.reservation⟩
  have hstart : (-1 : ℤ) = ((none : Option MemoryBuffer).map (·.index)).getD (-1) := rfl
  have hloop := findLastLoop_eq env hl pi checkRead (fun _ hb => hb) none (env.clock st.ticks)
    hstart
  have hfind : findLastBuffer env st pi checkRead =
      .ok (((scan ((st.wait 1).age env pi checkRead) (st.wait 1).buffers none
        (env.clock st.ticks)).map (·.index)).getD (-1), st.wait 1) := by
    show (do
      let bi ← findLastLoop env (st.wait 1) pi checkRead (st.wait 1).buffers (-1)
        (env.clock st.ticks)
      pure (bi, st.wait 1)) = _
    rw [hloop]
    rfl
  rw [hfind]
  cases hs : scan ((st.wait 1).age env pi checkRead) (st.wait 1).buffers none
      (env.clock st.ticks) with
  | none => exact Or.inl ⟨rfl, noneOlder_of_scan hs⟩
  | some bf =>
      obtain ⟨b, hold⟩ := oldest_of_scan hs
      exact Or.inr ⟨b, bf, rfl, hold⟩

/-- In a linked state, the index of a buffer is where it stands. -/
theorem findLastBuffer_cases (env : Env σ) {st : MemoryStorage σ} (h : Linked st) (pi : ℤ)
    (checkRead : Bool) :
    (findLastBuffer env st pi checkRead = .ok (-1, st.wait 1) ∧
      (st.wait 1).NoneOlder env pi checkRead (env.clock st.ticks)) ∨
    ∃ b bf, findLastBuffer env st pi checkRead = .ok (b, st.wait 1) ∧
      (st.wait 1).Oldest env pi checkRead (env.clock st.ticks) b bf := by
  rcases findLastBuffer_finds env (searchable h) pi checkRead with hnone | ⟨b, bf, hfind, hold⟩
  · exact Or.inl hnone
  · have hindex := h.buffer_index hold.buffer
    rw [hindex] at hfind
    exact Or.inr ⟨b, bf, hfind, hold⟩

/-! ## Evicting -/

/-- Removing the piece that a buffer names. -/
theorem removePiece_of_names (env : Env σ) {st : MemoryStorage σ} {b : ℤ} {pc : MemoryPiece}
    {bf : MemoryBuffer} (hp : at? st.pieces bf.pi = some pc) (hb : at? st.buffers b = some bf)
    (h0 : 0 ≤ bf.pi) (h1 : bf.pi < st.pieceCount) :
    removePiece env st b = .ok (st.evict env bf.pi pc b bf) := by
  have hguard : bf.pi ≠ -1 ∧ bf.pi < st.pieceCount := by omega
  simp only [removePiece, subscript_eq hb, ok_bind, if_pos hguard, subscript_eq hp,
    pure_eq_ok, restorePiece_eq]
  rfl

/-- Removing the piece of a linked buffer evicts it. -/
theorem removePiece_eq (env : Env σ) {st : MemoryStorage σ} (h : Linked st) {p b : ℤ}
    {pc : MemoryPiece} {bf : MemoryBuffer} (ho : Owns st p pc b bf) :
    removePiece env st b = .ok (st.evict env p pc b bf) := by
  have hbounds := h.piece_bounds ho.piece
  obtain ⟨hp, -, hb, -, rfl⟩ := ho
  exact removePiece_of_names env hp hb hbounds.1 hbounds.2

/-- The effect of one round of the `while` in `trim(pi)`. -/
inductive Trimmed (env : Env σ) (pi : ℤ) (st : MemoryStorage σ) : MemoryStorage σ → Prop
  /-- no search finds anything -/
  | spin : (st.wait 1).NoneOlder env pi true (env.clock st.ticks) →
      (st.wait 2).NoneOlder env pi false (env.clock (st.ticks + 1)) →
      Trimmed env pi st (st.wait 2)
  /-- the search among the pieces of priority 0 finds `b` -/
  | unread {p b : ℤ} {pc : MemoryPiece} {bf : MemoryBuffer} :
      Owns st p pc b bf → (st.wait 1).Oldest env pi true (env.clock st.ticks) b bf →
      Trimmed env pi st ((st.wait 1).evict env p pc b bf)
  /-- it does not, and the search among all pieces finds `b` -/
  | lru {p b : ℤ} {pc : MemoryPiece} {bf : MemoryBuffer} :
      Owns st p pc b bf → (st.wait 1).NoneOlder env pi true (env.clock st.ticks) →
      (st.wait 2).Oldest env pi false (env.clock (st.ticks + 1)) b bf →
      Trimmed env pi st ((st.wait 2).evict env p pc b bf)

/-- A bitset with bits is not empty. -/
theorem readers_nonempty {st : MemoryStorage σ} (h : 0 < (st.readerPieces.length : ℤ)) :
    st.readerPieces.isEmpty = false := by
  rw [List.isEmpty_eq_false_iff]
  apply List.ne_nil_of_length_pos
  omega

/-- A round whose first search finds a buffer removes its piece. -/
theorem trimBody_of_first {env : Env σ} {st s : MemoryStorage σ} {pi bi : ℤ}
    (hreaders : st.readerPieces.isEmpty = false)
    (hfind : findLastBuffer env st pi true = .ok (bi, s)) (hbi : bi ≠ -1) :
    trimBody env pi st = removePiece env s bi := by
  simp only [trimBody, hreaders, hfind, Bool.not_false, if_true, ok_bind, ne_eq, hbi,
    not_false_eq_true]

/-- A round whose first search finds nothing goes by the second. -/
theorem trimBody_of_second {env : Env σ} {st s s' : MemoryStorage σ} {pi bi : ℤ}
    (hreaders : st.readerPieces.isEmpty = false)
    (hfind : findLastBuffer env st pi true = .ok (-1, s))
    (hfind' : findLastBuffer env s pi false = .ok (bi, s')) :
    trimBody env pi st = if bi ≠ -1 then removePiece env s' bi else .ok s' := by
  simp only [trimBody, hreaders, hfind, hfind', Bool.not_false, if_true, ok_bind, pure_eq_ok,
    ne_eq, not_true_eq_false, if_false]

/-- **One round of `trim`** returns, and its effect is one of the three above. -/
theorem trimBody_cases (env : Env σ) {st : MemoryStorage σ} (h : Linked st) (pi : ℤ) :
    ∃ st', trimBody env pi st = .ok st' ∧ Trimmed env pi st st' := by
  have hreaders : st.readerPieces.isEmpty = false := by
    have h1 := h.readers_length
    have h2 := h.pieces_length
    exact readers_nonempty (by omega)
  have evicts : ∀ {n : ℕ} {cr : Bool} {now b : ℤ} {bf : MemoryBuffer},
      (st.wait n).Oldest env pi cr now b bf → b ≠ -1 ∧ ∃ pc, Owns st bf.pi pc b bf ∧
        removePiece env (st.wait n) b = .ok ((st.wait n).evict env bf.pi pc b bf) := by
    intro n cr now b bf hold
    obtain ⟨pc, ho⟩ := h.owns_of_buffer (b := b) hold.buffer hold.candidate.1
    have ho' : Owns (st.wait n) bf.pi pc b bf := ho.frame rfl rfl
    exact ⟨h.bi_ne ho, pc, ho, removePiece_eq env (linked_wait h n) ho'⟩
  rcases findLastBuffer_cases env h pi true with ⟨hfind, hnone⟩ | ⟨b, bf, hfind, hold⟩
  · rcases findLastBuffer_cases env (linked_wait h 1) pi false with
      ⟨hfind', hnone'⟩ | ⟨b, bf, hfind', hold'⟩
    · refine ⟨st.wait 2, ?_, .spin hnone hnone'⟩
      rw [trimBody_of_second hreaders hfind hfind', if_neg (by simp)]
      rfl
    · obtain ⟨hb, pc, ho, hremove⟩ := evicts (n := 2) hold'
      refine ⟨_, ?_, .lru ho hnone hold'⟩
      rw [trimBody_of_second hreaders hfind hfind', if_pos hb]
      exact hremove
  · obtain ⟨hb, pc, ho, hremove⟩ := evicts (n := 1) hold
    refine ⟨_, ?_, .unread ho hold⟩
    rw [trimBody_of_first hreaders hfind hb]
    exact hremove

/-- A round of `trim` keeps the links. -/
theorem Trimmed.linked {env : Env σ} {pi : ℤ} {st st' : MemoryStorage σ}
    (ht : Trimmed env pi st st') (h : Linked st) : Linked st' := by
  have moved : ∀ {n : ℕ} {p b : ℤ} {pc : MemoryPiece} {bf : MemoryBuffer},
      Owns st p pc b bf → Owns (st.wait n) p pc b bf :=
    fun ho => ho.frame rfl rfl
  cases ht with
  | spin _ _ => exact linked_wait h 2
  | unread ho _ => exact (linked_wait h 1).evict (moved ho)
  | lru ho _ _ => exact (linked_wait h 2).evict (moved ho)

/-- A round of `trim` leaves what is not in use blank. -/
theorem Trimmed.blank {env : Env σ} {pi : ℤ} {st st' : MemoryStorage σ}
    (ht : Trimmed env pi st st') (h : Blank st) : Blank st' := by
  cases ht with
  | spin _ _ => exact h.frame rfl
  | unread ho _ => exact (h.frame rfl : Blank (st.wait 1)).evict (ho.frame rfl rfl)
  | lru ho _ _ => exact (h.frame rfl : Blank (st.wait 2)).evict (ho.frame rfl rfl)

end MemoryStorage

end Libtorrent
