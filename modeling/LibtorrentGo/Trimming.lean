/-
# What `trim` does

`trim(pi)` evicts one piece a round until the limit is kept again.  Here it runs on any
linked storage with a torrent handle, not only inside a `writev`: the counters may ask for
any number of evictions, as long as so many pieces can be evicted and the clock has moved
on since the last access (`Behind`).

What a round does is stated once (`trim_round`).  `Evictions` records the rounds, and what
they amount to follows by induction on it (`Evictions.emptied`).
-/
import LibtorrentGo.Termination

open Subscript

namespace Libtorrent

open MemoryStorage

variable {σ : Type}

/-! ## The effect of `trim` -/

/-- The number of used buffers with pieces that are not reserved and not `pi`. -/
def evictableBuffers (st : MemoryStorage σ) (pi : ℤ) : ℕ :=
  st.buffers.countP fun bf => decide (bf.isUsed = true ∧ ¬st.Reserved bf.pi ∧ bf.pi ≠ pi)

/-- The torrent after each of the pieces `vs` was restored once, in this order. -/
def restoredOnce (env : Env σ) (s : σ) (vs : List ℤ) : σ :=
  vs.foldl (fun s v => env.weDontHave (env.setPiecePriority (env.resetPieceDeadline s v) v 0) v) s

/-- Piece `v` has priority 0, if any piece has that could be evicted instead. -/
def LowFirst (env : Env σ) (st : MemoryStorage σ) (pi v : ℤ) : Prop :=
  ∀ w, Evictable st pi w → env.piecePriority (st.ticks + 1) st.torrent w = 0 →
    env.piecePriority (st.ticks + 1) st.torrent v = 0

/-- `st'` is `st` without the pieces `vs`, which were evicted in this order. -/
structure Emptied (env : Env σ) (pi : ℤ) (st : MemoryStorage σ) (vs : List ℤ)
    (st' : MemoryStorage σ) : Prop where
  /-- they are distinct, and could be evicted -/
  nodup : vs.Nodup
  evictable : ∀ v ∈ vs, Evictable st pi v
  /-- each of them and its buffer are reset -/
  cleared : ∀ v ∈ vs, ∀ pc b bf, Owns st v pc b bf →
    at? st'.pieces v = some pc.reset ∧ ∃ time, at? st'.buffers b = some (bf.reset time)
  /-- each of them is restored once -/
  torrent : st'.torrent = restoredOnce env st.torrent vs
  /-- none has a priority other than 0 when a piece of priority 0 is left to be evicted -/
  lowFirst : ∀ before v behind, vs = before ++ v :: behind →
    ∃ n, (st.ticks < n ∧ n < st'.ticks) ∧ ∀ w, Evictable st pi w → w ∉ before →
      env.piecePriority n (restoredOnce env st.torrent before) w = 0 →
        env.piecePriority n (restoredOnce env st.torrent before) v = 0
  /-- every other piece and every other buffer is untouched -/
  pieces : ∀ q, q ∉ vs → at? st'.pieces q = at? st.pieces q
  buffers : ∀ b, (∀ v ∈ vs, ∀ pc bf, ¬Owns st v pc b bf) → at? st'.buffers b = at? st.buffers b
  /-- so is everything else -/
  frame : st' = { st with
    pieces := st'.pieces
    buffers := st'.buffers
    bufferUsed := st.bufferUsed - vs.length
    ticks := st'.ticks
    torrent := st'.torrent }
  linked : Linked st'

/-! ## One round -/

/-- With a handle, a piece is not readered iff its priority is 0. -/
theorem isReadered_eq_false_iff {env : Env σ} {st : MemoryStorage σ} (h : Linked st)
    (hhandle : st.mHandle = true) (q : ℤ) :
    isReadered env st q = false ↔ env.piecePriority st.ticks st.torrent q = 0 := by
  simp [isReadered, h.initialized, hhandle]

/-- Where a buffer is counted, a piece can be evicted. -/
theorem exists_evictable {st : MemoryStorage σ} (h : Linked st) {pi : ℤ}
    (hsome : 0 < evictableBuffers st pi) : ∃ q, Evictable st pi q := by
  obtain ⟨bf, hmem, hbf⟩ := List.countP_pos_iff.mp hsome
  obtain ⟨hu, hres, hne⟩ := of_decide_eq_true hbf
  obtain ⟨b, hb⟩ := exists_at?_of_mem hmem
  obtain ⟨pc, hpc, hbi⟩ := h.buffer_link hb hu
  have hb0 := (h.buffer_bounds hb).1
  exact ⟨bf.pi, hne, ⟨pc, hpc, by omega⟩, hres⟩

/-- **A round of `trim(pi)`** with something to evict evicts a piece, one of priority 0 if
there is one. -/
theorem trim_round {env : Env σ} {st : MemoryStorage σ} (h : Linked st)
    (hhandle : st.mHandle = true) (hclock : Behind env st) (pi : ℤ)
    (hsome : 0 < evictableBuffers st pi) :
    ∃ n v pc b bf, 0 < n ∧ trimBody env pi st = .ok ((st.wait n).evict env v pc b bf) ∧
      Owns st v pc b bf ∧ Evictable st pi v ∧ LowFirst env st pi v := by
  obtain ⟨st', hbody, ht⟩ := trimBody_cases env h pi
  have hlow : ∀ q, isReadered env (st.wait 1) q = false ↔
      env.piecePriority (st.ticks + 1) st.torrent q = 0 :=
    isReadered_eq_false_iff (linked_wait h 1) hhandle
  cases ht with
  | spin _ hnone =>
      -- the second search would have found what can be evicted
      obtain ⟨q, hq⟩ := exists_evictable h hsome
      obtain ⟨pc, bf, ho⟩ := hq.2.1.owns h
      have hcand := (candidate_iff h ho env 2 pi false).mpr ⟨hq, by simp⟩
      exact absurd hnone (not_noneOlder hclock (Nat.le_succ _) ho.buffer hcand)
  | @unread v b pc bf ho hold =>
      obtain ⟨hv, hread⟩ := (candidate_iff h ho env 1 pi true).mp hold.candidate
      refine ⟨1, v, pc, b, bf, by decide, hbody, ho, hv, ?_⟩
      intro w _ _
      exact (hlow v).mp (hread rfl)
  | @lru v b pc bf ho hnone hold =>
      obtain ⟨hv, -⟩ := (candidate_iff h ho env 2 pi false).mp hold.candidate
      refine ⟨2, v, pc, b, bf, by decide, hbody, ho, hv, ?_⟩
      intro w hw hzero
      -- the first search would have found `w`
      obtain ⟨wc, cf, hwo⟩ := hw.2.1.owns h
      have hcand := (candidate_iff h hwo env 1 pi true).mpr ⟨hw, fun _ => (hlow w).mpr hzero⟩
      exact absurd hnone (not_noneOlder hclock le_rfl hwo.buffer hcand)

/-! ## What an eviction leaves -/

section Evict

variable {env : Env σ} {st : MemoryStorage σ} {v b : ℤ} {pc : MemoryPiece} {bf : MemoryBuffer}

/-- The clock stays ahead of the buffers in use. -/
theorem Behind.evict (h : Behind env st) (ho : Owns st v pc b bf) (n : ℕ) :
    Behind env ((st.wait n).evict env v pc b bf) := by
  intro m hm c cf hc hu
  have hm' : st.ticks + n + 1 ≤ m := hm
  rw [MemoryStorage.evict, at?_put (show at? (st.wait n).buffers b = some bf from ho.buffer)] at hc
  split at hc
  · -- the evicted buffer is not in use
    obtain rfl := Option.some.inj hc
    exact absurd hu (by simp [MemoryBuffer.reset])
  · exact h m (by omega) c cf hc hu

/-- One buffer less can be emptied. -/
theorem evictableBuffers_evict (env : Env σ) {pi : ℤ} (ho : Owns st v pc b bf)
    (hv : Evictable st pi v) (n : ℕ) :
    evictableBuffers ((st.wait n).evict env v pc b bf) pi + 1 = evictableBuffers st pi := by
  obtain ⟨hne, -, hres⟩ := hv
  have hcount := countP_put ho.buffer (bf.reset (env.clock (st.ticks + n)))
    (fun bf => decide (bf.isUsed = true ∧ ¬st.Reserved bf.pi ∧ bf.pi ≠ pi))
  simp only [ho.used, ho.pi, hres, hne, MemoryBuffer.reset, Bool.false_eq_true, not_false_eq_true,
    ne_eq, and_self, decide_true, if_true, false_and, decide_false, if_false, add_zero] at hcount
  exact hcount

/-- What can be evicted afterwards is what could be, without the piece. -/
theorem evictable_evict {pi : ℤ} (h : Linked st) (ho : Owns st v pc b bf) (n : ℕ) (w : ℤ) :
    Evictable ((st.wait n).evict env v pc b bf) pi w ↔ Evictable st pi w ∧ w ≠ v := by
  have hwait : Owns (st.wait n) v pc b bf := ho.frame rfl rfl
  unfold Evictable
  rw [resident_evict (linked_wait h n) hwait]
  show w ≠ pi ∧ (Resident st w ∧ w ≠ v) ∧ ¬st.Reserved w ↔ _
  tauto

/-- Every other piece keeps its buffer. -/
theorem Owns.evict (ho : Owns st v pc b bf) (n : ℕ) {w c : ℤ} {wc : MemoryPiece}
    {cf : MemoryBuffer} (hw : Owns st w wc c cf) (hne : w ≠ v) :
    Owns ((st.wait n).evict env v pc b bf) w wc c cf := by
  have hcb : b ≠ c := by
    rintro rfl
    obtain rfl := ho.buffer_eq hw.buffer
    exact hne (by rw [← hw.pi, ho.pi])
  exact ⟨(at?_put_ne hne.symm _).trans hw.piece, hw.bi, (at?_put_ne hcb _).trans hw.buffer,
    hw.used, hw.pi⟩

/-- And nobody gets one. -/
theorem Owns.of_evict (ho : Owns st v pc b bf) (n : ℕ) {w c : ℤ} {wc : MemoryPiece}
    {cf : MemoryBuffer} (hw : Owns ((st.wait n).evict env v pc b bf) w wc c cf) :
    Owns st w wc c cf ∧ c ≠ b := by
  have hbuffer := hw.buffer
  have hpiece := hw.piece
  have hc := at?_eq_some_bounds hbuffer
  rw [MemoryStorage.evict,
    at?_put (show at? (st.wait n).buffers b = some bf from ho.buffer)] at hbuffer
  rw [MemoryStorage.evict,
    at?_put (show at? (st.wait n).pieces v = some pc from ho.piece)] at hpiece
  split at hbuffer
  · obtain rfl := Option.some.inj hbuffer
    exact absurd hw.used (by simp [MemoryBuffer.reset])
  · rename_i hcb
    split at hpiece
    · -- the evicted piece has no buffer
      obtain rfl := Option.some.inj hpiece
      have hbi : (-1 : ℤ) = c := hw.bi
      omega
    · exact ⟨⟨hpiece, hw.bi, hbuffer, hw.used, hw.pi⟩, hcb⟩

/-- The piece is restored. -/
theorem torrent_evict (hhandle : st.mHandle = true) (ht : st.t = true) (n : ℕ) :
    ((st.wait n).evict env v pc b bf).torrent = restoredOnce env st.torrent [v] := by
  show restoredTorrent env (st.wait n) v = _
  unfold restoredTorrent
  rw [if_neg (by simp [wait, hhandle, ht])]
  rfl

end Evict

/-! ## Any number of rounds -/

/-- The rounds of `trim(pi)` that evict the pieces `vs`, in this order. -/
inductive Evictions (env : Env σ) (pi : ℤ) :
    MemoryStorage σ → List ℤ → MemoryStorage σ → Prop
  | done (st : MemoryStorage σ) : Evictions env pi st [] st
  | round {st st' : MemoryStorage σ} {v b : ℤ} {pc : MemoryPiece} {bf : MemoryBuffer}
      {vs : List ℤ} (n : ℕ) : 0 < n → Linked st → Owns st v pc b bf → Evictable st pi v →
      LowFirst env st pi v → Evictions env pi ((st.wait n).evict env v pc b bf) vs st' →
      Evictions env pi st (v :: vs) st'

namespace Evictions

variable {env : Env σ} {pi : ℤ} {st st' : MemoryStorage σ} {vs : List ℤ}

/-- The clock does not go back. -/
theorem ticks_le (he : Evictions env pi st vs st') : st.ticks ≤ st'.ticks := by
  induction he with
  | done st => exact le_rfl
  | @round st st' v b pc bf vs n _ _ _ _ _ _ ih =>
      have hticks : st.ticks + n + 1 ≤ st'.ticks := ih
      omega

/-- The links are kept. -/
theorem linked (he : Evictions env pi st vs st') (h : Linked st) : Linked st' := by
  induction he with
  | done st => exact h
  | round n _ _ ho _ _ _ ih =>
      exact ih ((linked_wait h n).evict (ho.frame rfl rfl))

/-- What is evicted could be evicted, and is evicted once. -/
theorem evictable (he : Evictions env pi st vs st') :
    vs.Nodup ∧ ∀ v ∈ vs, Evictable st pi v := by
  induction he with
  | done st => exact ⟨List.nodup_nil, fun v hv => absurd hv List.not_mem_nil⟩
  | @round st st' v b pc bf vs n _ h ho hv _ _ ih =>
      obtain ⟨hnodup, hall⟩ := ih
      have hrest : ∀ w ∈ vs, Evictable st pi w ∧ w ≠ v :=
        fun w hw => (evictable_evict h ho n w).mp (hall w hw)
      refine ⟨List.nodup_cons.mpr ⟨fun hmem => (hrest v hmem).2 rfl, hnodup⟩, ?_⟩
      exact List.forall_mem_cons.mpr ⟨hv, fun w hw => (hrest w hw).1⟩

/-- Pieces that are not evicted keep their records. -/
theorem pieces (he : Evictions env pi st vs st') (q : ℤ) (hq : q ∉ vs) :
    at? st'.pieces q = at? st.pieces q := by
  induction he with
  | done st => rfl
  | @round st st' v b pc bf vs n _ h ho hv _ _ ih =>
      obtain ⟨hne, hq'⟩ := not_or.mp (fun hor => hq (List.mem_cons.mpr hor))
      rw [ih hq']
      exact at?_put_ne (Ne.symm hne) _

/-- Buffers that no evicted piece owns keep theirs. -/
theorem buffers (he : Evictions env pi st vs st') (b : ℤ)
    (hb : ∀ v ∈ vs, ∀ pc bf, ¬Owns st v pc b bf) : at? st'.buffers b = at? st.buffers b := by
  induction he with
  | done st => rfl
  | @round st st' v c pc cf vs n _ h ho hv _ _ ih =>
      obtain ⟨hhead, hrest⟩ := List.forall_mem_cons.mp hb
      have hcb : c ≠ b := by
        rintro rfl
        exact hhead pc cf ho
      rw [ih fun w hw wc wf hown => hrest w hw wc wf (ho.of_evict n hown).1]
      exact at?_put_ne hcb _

/-- Evicted pieces and their buffers are reset. -/
theorem cleared (he : Evictions env pi st vs st') :
    ∀ v ∈ vs, ∀ pc b bf, Owns st v pc b bf →
      at? st'.pieces v = some pc.reset ∧ ∃ time, at? st'.buffers b = some (bf.reset time) := by
  induction he with
  | done st => exact fun v hv => absurd hv List.not_mem_nil
  | @round st st' v c pc cf vs n _ h ho hv _ he ih =>
      intro w hw wc b bf hown
      rcases eq_or_ne w v with rfl | hne
      · -- the piece of this round, which no later round concerns
        obtain ⟨rfl, rfl, rfl⟩ := ho.unique hown
        have hgone : w ∉ vs := fun hmem =>
          ((evictable_evict h ho n w).mp (he.evictable.2 w hmem)).2 rfl
        refine ⟨?_, env.clock (st.ticks + n), ?_⟩
        · rw [he.pieces w hgone]
          exact at?_put_self ho.piece _
        · rw [he.buffers c fun u _ uc uf hu => (ho.of_evict n hu).2 rfl]
          exact at?_put_self ho.buffer _
      · have hmem : w ∈ vs := (List.mem_cons.mp hw).resolve_left hne
        exact ih w hmem wc b bf (ho.evict n hown hne)

/-- Every evicted piece is restored once. -/
theorem torrent (he : Evictions env pi st vs st') (hhandle : st.mHandle = true)
    (ht : st.t = true) : st'.torrent = restoredOnce env st.torrent vs := by
  induction he with
  | done st => rfl
  | @round st st' v b pc bf vs n _ _ _ _ _ _ ih =>
      rw [ih hhandle ht, torrent_evict hhandle ht n]
      rfl

/-- Pieces of priority 0 go first. -/
theorem lowFirst (he : Evictions env pi st vs st') (hhandle : st.mHandle = true)
    (ht : st.t = true) {before behind : List ℤ} {v : ℤ} (hvs : vs = before ++ v :: behind) :
    ∃ n, (st.ticks < n ∧ n < st'.ticks) ∧ ∀ w, Evictable st pi w → w ∉ before →
      env.piecePriority n (restoredOnce env st.torrent before) w = 0 →
        env.piecePriority n (restoredOnce env st.torrent before) v = 0 := by
  induction he generalizing before with
  | done st => exact absurd hvs (by simp)
  | @round st st' u b pc bf vs n hn h ho hu hlow he ih =>
      have hticks : st.ticks + n + 1 ≤ st'.ticks := he.ticks_le
      cases before with
      | nil =>
          obtain ⟨rfl, -⟩ := List.cons.inj hvs
          refine ⟨st.ticks + 1, by omega, ?_⟩
          intro w hw _
          exact hlow w hw
      | cons u' before =>
          obtain ⟨rfl, hvs'⟩ := List.cons.inj hvs
          obtain ⟨m, ⟨hm, hm'⟩, hall⟩ := ih hhandle ht hvs'
          have hticks' : st.ticks + n + 1 < m := hm
          refine ⟨m, by omega, ?_⟩
          intro w hw hnot hzero
          obtain ⟨hne, hnot'⟩ := not_or.mp (fun hor => hnot (List.mem_cons.mpr hor))
          have hfirst : restoredOnce env st.torrent (u :: before) =
              restoredOnce env ((st.wait n).evict env u pc b bf).torrent before := by
            rw [torrent_evict hhandle ht n]
            rfl
          rw [hfirst] at hzero ⊢
          exact hall w ((evictable_evict h ho n w).mpr ⟨hw, hne⟩) hnot' hzero

/-- Nothing else changes, but the number of used buffers. -/
theorem frame (he : Evictions env pi st vs st') : st' = { st with
    pieces := st'.pieces
    buffers := st'.buffers
    bufferUsed := st.bufferUsed - vs.length
    ticks := st'.ticks
    torrent := st'.torrent } := by
  induction he with
  | done st => simp
  | @round st st' v b pc bf vs n _ _ _ _ _ _ ih =>
      have hused : (st.bufferUsed - 1) - (vs.length : ℤ) =
          st.bufferUsed - ((v :: vs).length : ℕ) := by
        rw [List.length_cons]
        omega
      rw [← hused]
      exact ih

/-- **What rounds of `trim` amount to.** -/
theorem emptied (he : Evictions env pi st vs st') (h : Linked st) (hhandle : st.mHandle = true)
    (ht : st.t = true) : Emptied env pi st vs st' where
  nodup := he.evictable.1
  evictable := he.evictable.2
  cleared := he.cleared
  torrent := he.torrent hhandle ht
  lowFirst := fun _ _ _ => he.lowFirst hhandle ht
  pieces := he.pieces
  buffers := he.buffers
  frame := he.frame
  linked := he.linked h

end Evictions

/-! ## The loop -/

/-- **The `while` makes as many rounds as the counters ask for**, when so many pieces can be
evicted. -/
theorem loop_evicts {env : Env σ} {pi : ℤ} {st : MemoryStorage σ} (h : Linked st)
    (hhandle : st.mHandle = true) (hclock : Behind env st) {k : ℕ}
    (hk : (k : ℤ) = st.bufferUsed - st.bufferLimit + 1) (hmany : k ≤ evictableBuffers st pi) :
    ∃ vs st', Evictions env pi st vs st' ∧ vs.length = k ∧ ∀ fuel, k ≤ fuel →
      WhileLoop.loop isFull (trimBody env pi) .outOfFuel fuel st = .ok st' := by
  induction k generalizing st with
  | zero =>
      have hexit : st.isFull = false := by
        rw [isFull_eq, slack]
        exact decide_eq_false (by omega)
      exact ⟨[], st, .done st, rfl, fun fuel _ => WhileLoop.loop_of_not_guard hexit fuel⟩
  | succ k ih =>
      have hfull : st.isFull = true := by
        rw [isFull_eq, slack]
        exact decide_eq_true (by omega)
      obtain ⟨n, v, pc, b, bf, hn, hbody, ho, hv, hlow⟩ :=
        trim_round h hhandle hclock pi (by omega)
      have hcount := evictableBuffers_evict env ho hv n
      have hlinked : Linked ((st.wait n).evict env v pc b bf) :=
        (linked_wait h n).evict (ho.frame rfl rfl)
      have hk' : (k : ℤ) = (st.bufferUsed - 1) - st.bufferLimit + 1 := by omega
      obtain ⟨vs, st', he, hlen, hloop⟩ :=
        ih hlinked hhandle (hclock.evict ho n) hk' (by omega)
      refine ⟨v :: vs, st', .round n hn h ho hv hlow he, by rw [List.length_cons, hlen], ?_⟩
      intro fuel hfuel
      obtain ⟨fuel, rfl⟩ : ∃ f, fuel = f + 1 := ⟨fuel - 1, by omega⟩
      rw [WhileLoop.loop_of_round ⟨hfull, hbody⟩]
      exact hloop fuel (by omega)

/-- **The effect of `trim(pi)`** on a linked storage with a torrent handle, whose counters ask
for `k` evictions while at least `k` used buffers hold pieces that are not reserved and not
`pi`: `k` rounds are enough, they evict `k` pieces, and the limit is kept again. -/
theorem trim_empties {env : Env σ} {st : MemoryStorage σ} (h : Linked st)
    (hcapacity : 0 ≤ st.capacity) (hhandle : st.mHandle = true) (ht : st.t = true)
    (hclock : Behind env st) {k : ℕ} (hk : (k : ℤ) = st.bufferUsed - st.bufferLimit + 1)
    (hpos : 1 ≤ k) (pi : ℤ) (hmany : k ≤ evictableBuffers st pi) :
    ∃ vs st', (∀ fuel, k ≤ fuel → trim env fuel st pi = .ok st') ∧ vs.length = k ∧
      st'.bufferUsed = st'.bufferLimit - 1 ∧ Emptied env pi st vs st' := by
  obtain ⟨vs, st', he, hlen, hloop⟩ := loop_evicts h hhandle hclock hk hmany
  have hemptied := he.emptied h hhandle ht
  refine ⟨vs, st', ?_, hlen, ?_, hemptied⟩
  · intro fuel hfuel
    have hfull : st.isFull = true := by
      rw [isFull_eq, slack]
      exact decide_eq_true (by omega)
    rw [trim, if_neg (by simp [hfull, hcapacity])]
    exact hloop fuel hfuel
  · have hused := congrArg MemoryStorage.bufferUsed hemptied.frame
    have hlimit := congrArg MemoryStorage.bufferLimit hemptied.frame
    simp only at hused hlimit
    omega

/-- Three resident pieces, the second of priority 0, under a limit of two buffers. -/
theorem trim_empties_two :
    ∃ h st, playNew picking 3 (quads 9) 8 ⟨[], []⟩ [.setTorrentHandle true, .writev [[1]] 0 0,
        .writev [[2]] 1 0, .writev [[3]] 2 0, .outside ⟨[], [(1, 0)]⟩] = some (h, st) ∧
      ∃ vs st', (∀ fuel, 2 ≤ fuel → trim picking fuel { st with bufferLimit := 2 } 0 = .ok st') ∧
        vs.length = 2 ∧ st'.bufferUsed = st'.bufferLimit - 1 ∧
        Emptied picking 0 { st with bufferLimit := 2 } vs st' := by
  obtain ⟨⟨h, st⟩, hplay⟩ : ∃ r, playNew picking 3 (quads 9) 8 ⟨[], []⟩
      [.setTorrentHandle true, .writev [[1]] 0 0, .writev [[2]] 1 0, .writev [[3]] 2 0,
        .outside ⟨[], [(1, 0)]⟩] = some r := ⟨_, rfl⟩
  have hfields : (playNew picking 3 (quads 9) 8 ⟨[], []⟩
      [.setTorrentHandle true, .writev [[1]] 0 0, .writev [[2]] 1 0, .writev [[3]] 2 0,
        .outside ⟨[], [(1, 0)]⟩]).map (fun r => (r.2.capacity, r.2.mHandle, r.2.t, r.2.bufferUsed,
          evictableBuffers { r.2 with bufferLimit := 2 } 0)) = some (8, true, true, 3, 2) := rfl
  rw [hplay] at hfields
  obtain ⟨hcapacity, hhandle, ht, hused, hcount⟩ :
      st.capacity = 8 ∧ st.mHandle = true ∧ st.t = true ∧ st.bufferUsed = 3 ∧
        evictableBuffers { st with bufferLimit := 2 } 0 = 2 := by simpa using hfields
  have hr := playNew_run (by decide) hplay
  have hstamped : Stamped picking { st with bufferLimit := 2 } := hr.stamped
  exact ⟨h, st, hplay, trim_empties (k := 2)
    (hr.wellFormed.toLinked.frame st.ticks st.torrent st.isReading st.bufferUsed 2)
    (by simp [hcapacity]) hhandle ht (hstamped.behind strictMono_picking) (by simp [hused])
    (by decide) 0 hcount.ge⟩

end Libtorrent
