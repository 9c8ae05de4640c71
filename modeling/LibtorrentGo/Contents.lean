/-
# What a run stores

A run of calls tells a story of places that pieces come to and leave: a `writev` gives
its piece a place if it had none, stores what it accepted, and releases the piece that
`trim` evicts (`events`).  Every storage a run leads to holds, for each resident piece,
what that story says (`StorageRun.simulates`), so that `readv` delivers at each offset
what was stored there last (`reads_latest`).
-/
import LibtorrentGo.Eviction
import LibtorrentGo.Tenancy

open Splice Subscript Tenancy

namespace Libtorrent

open MemoryStorage

variable {σ : Type}

/-! ## The events of a call -/

/-- The pieces whose residency the call ended. -/
def evicted (e : CallEntry σ) : List ℤ :=
  ((List.range e.before.pieces.length).map fun n : ℕ => (n : ℤ)).filter fun q =>
    decide (Resident e.before q ∧ ¬Resident e.after q)

/-- The events of a completed call, newest first: a `writev` behind which its piece is
resident acquired a buffer for it if it had none, and stored as many bytes as it
returned; the pieces that are not resident any more were released. -/
def callEvents (e : CallEntry σ) : List (Event ℤ Byte) :=
  (evicted e).map .release ++
    match e.label.1 with
    | .writev bufs p offset =>
        if Resident e.after p then
          .store p offset.toNat (bufs.flatten.take e.label.2.ret.toNat) ::
            if Resident e.before p then [] else [.acquire p]
        else []
    | _ => []

/-- The events of a run, newest first. -/
def events : History σ → List (Event ℤ Byte)
  | [] => []
  | e :: h => callEvents e ++ events h

/-- The pieces a call evicts. -/
theorem mem_evicted_iff {e : CallEntry σ} (h : Linked e.before) (q : ℤ) :
    q ∈ evicted e ↔ Resident e.before q ∧ ¬Resident e.after q := by
  rw [evicted, List.mem_filter, decide_eq_true_eq, List.mem_map]
  constructor
  · exact fun hq => hq.2
  · intro hq
    refine ⟨?_, hq⟩
    have hbounds := hq.1.bounds h
    have hlen := h.pieces_length
    refine ⟨q.toNat, List.mem_range.mpr (by omega), Int.toNat_of_nonneg hbounds.1⟩

/-- Where nobody leaves, nobody is evicted. -/
theorem evicted_eq_nil {e : CallEntry σ} (h : ∀ q, Resident e.before q → Resident e.after q) :
    evicted e = [] := by
  rw [evicted, List.filter_eq_nil_iff]
  intro q _ hq
  obtain ⟨hb, ha⟩ := of_decide_eq_true hq
  exact ha (h q hb)

/-! ## What a storage holds -/

/-- A buffer holds what a place holds. -/
def Holds : Option MemoryBuffer → Option (ℕ → Byte) → Prop
  | some bf, some f => ∀ o < bf.buffer.length, bf.buffer[o]? = some (f o)
  | none, none => True
  | _, _ => False

/-- A storage holds what the events say. -/
structure Simulates (st : MemoryStorage σ) (es : List (Event ℤ Byte)) : Prop where
  held : ∀ p, Holds (bufferOf st p) (contents 0 es p)
  size : ∀ p pc, at? st.pieces p = some pc → pc.bi ≠ -1 → pc.size = total es p
  within : ∀ p pc, at? st.pieces p = some pc → pc.bi ≠ -1 → ∀ o ∈ covered es p, o < pc.length.toNat

namespace Simulates

variable {env : Env σ} {st : MemoryStorage σ} {es : List (Event ℤ Byte)}

/-- What is neither a piece nor a buffer does not matter. -/
theorem frame (h : Simulates st es) {st' : MemoryStorage σ} (hp : st'.pieces = st.pieces)
    (hb : st'.buffers = st.buffers) : Simulates st' es where
  held := fun p => by
    rw [bufferOf, hp, hb]
    exact h.held p
  size := fun p pc => by
    rw [hp]
    exact h.size p pc
  within := fun p pc => by
    rw [hp]
    exact h.within p pc

/-- Placing a piece acquires a place for it. -/
theorem place (h : Simulates st es) (hl : Linked st) (hblank : Blank st) {p b : ℤ}
    {pc : MemoryPiece} {bf : MemoryBuffer} (hp : at? st.pieces p = some pc) (hpb : pc.bi = -1)
    (hb : at? st.buffers b = some bf) (hu : bf.isUsed = false) (r : Bool) :
    Simulates (st.place env p pc b bf r) (.acquire p :: es) where
  held := by
    intro q
    rw [bufferOf_place hl hp hpb hb hu, contents_acquire]
    by_cases hq : q = p
    · rw [if_pos hq, if_pos hq]
      intro o ho
      show bf.buffer[o]? = some 0
      rw [hblank hb hu, List.getElem?_replicate, if_pos ho]
    · rw [if_neg hq, if_neg hq]
      exact h.held q
  size := by
    intro q qc hq hqb
    have hq' : at? (put st.pieces p { pc with bi := b }) q = some qc := hq
    rw [at?_put hp] at hq'
    by_cases hqp : q = p
    · rw [if_pos hqp] at hq'
      obtain rfl := Option.some.inj hq'
      rw [total, if_pos hqp.symm]
      have hsize : pc.size = 0 := hl.piece_blank hp hpb
      exact hsize
    · rw [if_neg hqp] at hq'
      rw [total, if_neg (Ne.symm hqp)]
      exact h.size q qc hq' hqb
  within := by
    intro q qc hq hqb
    have hq' : at? (put st.pieces p { pc with bi := b }) q = some qc := hq
    rw [at?_put hp] at hq'
    by_cases hqp : q = p
    · rw [covered, if_pos hqp.symm]
      simp
    · rw [if_neg hqp] at hq'
      rw [covered, if_neg (Ne.symm hqp)]
      exact h.within q qc hq' hqb

/-- Storing bytes stores them. -/
theorem store (h : Simulates st es) (hl : Linked st) {p b : ℤ} {pc : MemoryPiece}
    {bf : MemoryBuffer} (ho : Owns st p pc b bf) {off : ℕ} {bytes : List Byte}
    (hpiece : off + bytes.length ≤ pc.length.toNat)
    (hfit : off + bytes.length ≤ bf.buffer.length) :
    Simulates (st.store env p pc b bf off bytes) (.store p off bytes :: es) where
  held := by
    intro q
    rw [bufferOf_store hl ho, contents_store]
    by_cases hq : q = p
    · rw [if_pos hq, if_pos hq]
      have hheld := h.held p
      rw [bufferOf_eq hl ho] at hheld
      cases hc : contents 0 es p with
      | none =>
          rw [hc] at hheld
          exact absurd hheld id
      | some f =>
          rw [hc] at hheld
          intro o hlt
          have hlt' : o < bf.buffer.length := by
            have hlen := length_splice hfit
            simp only at hlt
            omega
          show (splice bf.buffer off bytes)[o]? = some (overlay off bytes f o)
          rw [getElem?_splice hfit, overlay]
          by_cases ho' : off ≤ o ∧ o < off + bytes.length
          · have hin : o - off < bytes.length := by omega
            rw [if_pos ho', if_pos ho'.1, List.getElem?_eq_getElem hin, Option.getD_some]
          · rw [if_neg ho', hheld o hlt']
            split
            · rw [List.getElem?_eq_none (by omega), Option.getD_none]
            · rfl
    · rw [if_neg hq, if_neg hq]
      exact h.held q
  size := by
    intro q qc hq hqb
    have hq' : at? (put st.pieces p { pc with size := pc.size + bytes.length }) q = some qc := hq
    rw [at?_put ho.piece] at hq'
    by_cases hqp : q = p
    · rw [if_pos hqp] at hq'
      obtain rfl := Option.some.inj hq'
      rw [total, if_pos hqp.symm, hqp]
      have hsize := h.size p pc ho.piece (by rw [ho.bi]; exact hl.bi_ne ho)
      push_cast
      rw [← hsize]
    · rw [if_neg hqp] at hq'
      rw [total, if_neg (Ne.symm hqp)]
      exact h.size q qc hq' hqb
  within := by
    intro q qc hq hqb
    have hq' : at? (put st.pieces p { pc with size := pc.size + bytes.length }) q = some qc := hq
    rw [at?_put ho.piece] at hq'
    by_cases hqp : q = p
    · rw [if_pos hqp] at hq'
      obtain rfl := Option.some.inj hq'
      rw [covered, if_pos hqp.symm, hqp]
      intro o hmem
      rcases Finset.mem_union.mp hmem with hold | hnew
      · exact h.within p pc ho.piece (by rw [ho.bi]; exact hl.bi_ne ho) o hold
      · have hlt := (Finset.mem_Ico.mp hnew).2
        show o < pc.length.toNat
        omega
    · rw [if_neg hqp] at hq'
      rw [covered, if_neg (Ne.symm hqp)]
      exact h.within q qc hq' hqb

/-- Reading changes nothing that is held. -/
theorem touch (h : Simulates st es) (hl : Linked st) {p b : ℤ} {pc : MemoryPiece}
    {bf : MemoryBuffer} (ho : Owns st p pc b bf) (upTo : ℤ) :
    Simulates (st.touch env p pc b bf upTo) es := by
  have hpiece : ∀ {q qc}, at? (st.touch env p pc b bf upTo).pieces q = some qc →
      ∃ qc', at? st.pieces q = some qc' ∧ qc'.bi = qc.bi ∧ qc'.size = qc.size ∧
        qc'.length = qc.length := by
    intro q qc hq
    have hq' : at? (put st.pieces p
        (if pc.isCompleted && upTo ≥ pc.intSize then { pc with isRead := true } else pc)) q
        = some qc := hq
    rw [at?_put ho.piece] at hq'
    split at hq'
    · rename_i hqp
      obtain rfl := Option.some.inj hq'
      refine ⟨pc, by rw [hqp]; exact ho.piece, ?_⟩
      split <;> exact ⟨rfl, rfl, rfl⟩
    · exact ⟨qc, hq', rfl, rfl, rfl⟩
  constructor
  · intro q
    rw [bufferOf_touch hl ho]
    by_cases hq : q = p
    · rw [if_pos hq, hq]
      have hheld := h.held p
      rw [bufferOf_eq hl ho] at hheld
      cases hc : contents 0 es p with
      | none =>
          rw [hc] at hheld
          exact hheld
      | some f =>
          rw [hc] at hheld
          exact hheld
    · rw [if_neg hq]
      exact h.held q
  · intro q qc hq hqb
    obtain ⟨qc', hq', hbi, hsize, -⟩ := hpiece hq
    rw [← hsize]
    exact h.size q qc' hq' (by rw [hbi]; exact hqb)
  · intro q qc hq hqb
    obtain ⟨qc', hq', hbi, -, hlen⟩ := hpiece hq
    rw [← hlen]
    exact h.within q qc' hq' (by rw [hbi]; exact hqb)

/-- Evicting a piece releases it. -/
theorem evict (h : Simulates st es) (hl : Linked st) {v b : ℤ} {vc : MemoryPiece}
    {bf : MemoryBuffer} (ho : Owns st v vc b bf) {vs : List ℤ} (hvs : ∀ q, q ∈ vs ↔ q = v) :
    Simulates (st.evict env v vc b bf) (vs.map .release ++ es) := by
  have hpiece : ∀ {q qc}, at? (st.evict env v vc b bf).pieces q = some qc → qc.bi ≠ -1 →
      at? st.pieces q = some qc ∧ q ∉ vs := by
    intro q qc hq hqb
    have hq' : at? (put st.pieces v vc.reset) q = some qc := hq
    rw [at?_put ho.piece] at hq'
    split at hq'
    · obtain rfl := Option.some.inj hq'
      exact absurd rfl hqb
    · rename_i hqv
      exact ⟨hq', fun hmem => hqv ((hvs q).mp hmem)⟩
  constructor
  · intro q
    rw [bufferOf_evict hl ho, contents_releases]
    by_cases hq : q = v
    · rw [if_pos hq, if_pos ((hvs q).mpr hq)]
      trivial
    · rw [if_neg hq, if_neg (fun hmem => hq ((hvs q).mp hmem))]
      exact h.held q
  · intro q qc hq hqb
    obtain ⟨hq', hnot⟩ := hpiece hq hqb
    rw [total_releases hnot]
    exact h.size q qc hq' hqb
  · intro q qc hq hqb
    obtain ⟨hq', hnot⟩ := hpiece hq hqb
    rw [covered_releases hnot]
    exact h.within q qc hq' hqb

end Simulates

/-! ## Every run -/

/-- A call behind which nobody left and nothing was written has no events. -/
theorem callEvents_eq_nil {e : CallEntry σ} (h : ∀ q, Resident e.before q → Resident e.after q)
    (hw : ∀ bufs p offset, e.label.1 = .writev bufs p offset → ¬Resident e.after p) :
    callEvents e = [] := by
  rw [callEvents, evicted_eq_nil h]
  cases hc : e.label.1 with
  | writev bufs p offset =>
      simp only
      rw [if_neg (hw bufs p offset hc)]
      rfl
  | _ => rfl

/-- **An accepted `writev` does what its events say.** -/
theorem Simulates.accepted {env : Env σ} {info : TorrentInfo} {st st₁ st' : MemoryStorage σ}
    {es : List (Event ℤ Byte)} (h : Simulates st es) (hw : WellFormed info st)
    (hblank : Blank st) (hroom : 0 < slack st) {bufs : List (List Byte)} {p offset b : ℤ}
    {pc : MemoryPiece} {bf : MemoryBuffer} (ha : Acquired env st p st₁)
    (ho : Owns st₁ p pc b bf) (h0 : 0 ≤ offset) (h1 : offset ≤ pc.length)
    (ht : Trims env p (st₁.written env p pc b bf offset bufs) st')
    (hexit : st'.isFull = false) :
    Simulates st' (callEvents ⟨st, (.writev bufs p offset,
      ⟨(fitting pc.length offset bufs).length, []⟩), st'⟩ ++ es) := by
  obtain ⟨hw₁, -⟩ := ha.wellFormed hw
  obtain ⟨hw₂, -⟩ := written_wellFormed hw ha ho h0 h1 bufs
  have hres : ∀ q, Resident (st₁.written env p pc b bf offset bufs) q ↔ q = p ∨ Resident st q :=
    residents_written hw ha ho bufs
  -- behind the copy, the piece was acquired if it had to be, and the bytes are stored
  have hacquired : Simulates st₁ ((if Resident st p then [] else [.acquire p]) ++ es) := by
    cases ha with
    | kept hkept =>
        rw [if_pos hkept]
        exact h
    | placed hp hb _ hfree =>
        rw [if_neg ((not_resident_iff hp).mpr hb)]
        exact h.place hw.toLinked hblank hp hb hfree.buffer hfree.free _
  have hlen := length_fitting pc.length h1 bufs
  have hstored : Simulates (st₁.written env p pc b bf offset bufs)
      (.store p offset.toNat (fitting pc.length offset bufs) ::
        ((if Resident st p then [] else [.acquire p]) ++ es)) :=
    hacquired.store hw₁.toLinked ho (by omega) (hw₁.fitting_fits ho h0 h1 bufs)
  have hafter : Resident st' p := by
    refine ht.resident hw₂ ?_
    rw [hres]
    exact Or.inl rfl
  rw [callEvents]
  simp only
  rw [if_pos hafter, take_fitting, List.append_assoc, List.cons_append]
  rcases accepted_cases hw hroom ha ho h0 h1 ht hexit with
    ⟨rfl, hstay⟩ | ⟨n, v, vc, c, cf, -, hv, -, -, rfl, hgone⟩
  · rw [evicted_eq_nil hstay]
    exact hstored
  · refine (hstored.frame rfl rfl : Simulates ((st₁.written env p pc b bf offset bufs).wait n)
      _).evict (linked_wait hw₂.toLinked n) hv ?_
    intro q
    rw [mem_evicted_iff hw.toLinked]
    exact hgone q

/-- A constructed storage holds nothing. -/
theorem Init.simulates {info : TorrentInfo} {st : MemoryStorage σ} (h : Init info st) :
    Simulates st [] := by
  constructor
  · intro p
    cases hp : at? st.pieces p with
    | none =>
        rw [bufferOf, hp]
        trivial
    | some pc =>
        rw [bufferOf_eq_none hp (h.unbuffered hp)]
        trivial
  · intro p pc hp hb
    exact absurd (h.unbuffered hp) hb
  · intro p pc hp hb
    exact absurd (h.unbuffered hp) hb

/-- **Every storage a run leads to holds what the events of the run say.** -/
theorem StorageRun.simulates {env : Env σ} {info : TorrentInfo} {h : History σ}
    {st : MemoryStorage σ} (hr : StorageRun env info h st) : Simulates st (events h) := by
  refine StorageRun.rule (J := fun h st => Simulates st (events h))
    (fun _ h0 => h0.simulates) ?_ hr
  intro h st c r st' hrun _ ih heff
  have hw := hrun.wellFormed
  have quiet : ∀ {d : Call σ} {r : Reply} {s : MemoryStorage σ},
      (∀ q, Resident s q ↔ Resident st q) →
      (∀ bufs p offset, d = .writev bufs p offset → ¬Resident s p) → Simulates s (events h) →
      Simulates s (events (⟨st, (d, r), s⟩ :: h)) := by
    intro d r s hres hwrite hs
    rw [events, callEvents_eq_nil (fun q => (hres q).mpr) hwrite]
    exact hs
  cases heff with
  | refused hp hb _ =>
      refine quiet (fun q => Iff.rfl) ?_ (ih.frame rfl rfl)
      intro bufs q offset heq
      obtain ⟨-, rfl, -⟩ := Call.writev.inj heq
      exact (not_resident_iff hp).mpr hb
  | noBuffer hp hb _ _ =>
      refine quiet (fun q => Iff.rfl) ?_ ih
      intro bufs q offset heq
      obtain ⟨-, rfl, -⟩ := Call.writev.inj heq
      exact (not_resident_iff hp).mpr hb
  | accepted ha ho h0 h1 ht hexit =>
      exact ih.accepted hw hrun.blank hrun.ledger.room ha ho h0 h1 ht hexit
  | missed _ _ => exact quiet (fun q => Iff.rfl) (by simp) ih
  | scattered ho _ _ =>
      exact quiet (resident_touch hw.toLinked ho _) (by simp) (ih.touch hw.toLinked ho _)
  | incomplete _ _ => exact quiet (fun q => Iff.rfl) (by simp) (ih.frame rfl rfl)
  | atEnd _ _ _ => exact quiet (fun q => Iff.rfl) (by simp) (ih.frame rfl rfl)
  | copied ho _ _ _ _ =>
      have ho' : Owns ({ st with isReading := true } : MemoryStorage σ) _ _ _ _ :=
        ho.frame rfl rfl
      have hl' := (hw.withTorrent st.torrent st.mHandle st.t true).toLinked
      have hread : Simulates ({ st with isReading := true } : MemoryStorage σ) (events h) :=
        ih.frame rfl rfl
      exact quiet (resident_touch hl' ho' _) (by simp) (hread.touch hl' ho' _)
  | notGrown _ => exact quiet (fun q => Iff.rfl) (by simp) ih
  | @grown s n hs hn =>
      refine quiet (fun q => Iff.rfl) (by simp) ⟨?_, ih.size, ih.within⟩
      intro p
      rw [bufferOf_grow hw.toLinked]
      exact ih.held p
  | readers _ _ => exact quiet (fun q => Iff.rfl) (by simp) (ih.frame rfl rfl)
  | reserves _ _ => exact quiet (fun q => Iff.rfl) (by simp) (ih.frame rfl rfl)
  | handle => exact quiet (fun q => Iff.rfl) (by simp) (ih.frame rfl rfl)
  | outside => exact quiet (fun q => Iff.rfl) (by simp) (ih.frame rfl rfl)

/-! ## What `readv` delivers -/

/-- The pieces that have a place are the resident ones. -/
theorem Simulates.resident_iff {st : MemoryStorage σ} {es : List (Event ℤ Byte)}
    (h : Simulates st es) (hl : Linked st) (p : ℤ) :
    Resident st p ↔ ∃ f, contents 0 es p = some f := by
  have hheld := h.held p
  rw [Libtorrent.resident_iff hl]
  cases hb : bufferOf st p <;> cases hc : contents 0 es p
  · simp
  · rw [hb, hc] at hheld
    exact absurd hheld id
  · rw [hb, hc] at hheld
    exact absurd hheld id
  · simp

/-- **`readv` delivers what was stored last.** -/
theorem reads_latest {env : Env σ} {info : TorrentInfo} {st : MemoryStorage σ}
    {es : List (Event ℤ Byte)} (hw : WellFormed info st) (hs : Simulates st es) {p : ℤ}
    {pc : MemoryPiece} (hp : at? st.pieces p = some pc) (hb : pc.bi ≠ -1)
    (bufs : List (List Byte)) {offset : ℤ} (h0 : 0 ≤ offset)
    (h1 : offset + bufs.flatten.length ≤ pc.length) :
    ∃ out st', readv env st bufs p offset = .ok (bufs.flatten.length, out, st') ∧
      out.map List.length = bufs.map List.length ∧ ∀ i < bufs.flatten.length,
        out.flatten[i]? = some ((latest es p (offset.toNat + i)).getD 0) := by
  obtain ⟨bf, ho⟩ := hw.owns_of_piece hp hb
  obtain ⟨-, hfit, hint⟩ := hw.piece_fits ho.piece ho.buffer
  have hread := readv_of_owns env hw.toLinked ho bufs h0 (by omega) hint
  rw [min_eq_right (by omega)] at hread
  refine ⟨_, _, hread, map_length_scatter _ _, ?_⟩
  intro i hi
  have henough : bufs.flatten.length ≤ (bf.buffer.drop offset.toNat).length := by
    rw [List.length_drop]
    omega
  rw [flatten_scatter_of_le henough, List.getElem?_take, if_pos hi, List.getElem?_drop]
  have hheld := hs.held p
  rw [bufferOf_eq hw.toLinked ho] at hheld
  cases hc : contents 0 es p with
  | none =>
      rw [hc] at hheld
      exact absurd hheld id
  | some f =>
      rw [hc] at hheld
      rw [hheld (offset.toNat + i) (by omega), contents_eq hc]

/-- A `writev` that returns a positive count leaves its piece resident, and stored no more
than the piece has room for. -/
theorem Effect.stored {env : Env σ} {info : TorrentInfo} {st st' : MemoryStorage σ}
    (hw : WellFormed info st) {bufs : List (List Byte)} {p offset n : ℤ}
    (he : Effect env st (.writev bufs p offset) ⟨n, []⟩ st') (hpos : 0 < n) :
    Resident st' p ∧ 0 ≤ offset ∧ n ≤ bufs.flatten.length ∧ offset + n ≤ info.pieceSize p := by
  cases he with
  | refused _ _ _ => exact absurd hpos (lt_irrefl 0)
  | noBuffer _ _ _ _ => exact absurd hpos (lt_irrefl 0)
  | @accepted _ _ _ b pc bf st₁ _ ha ho h0 h1 ht _ =>
      obtain ⟨hw₁, -⟩ := ha.wellFormed hw
      obtain ⟨hw₂, -⟩ := written_wellFormed hw ha ho h0 h1 bufs
      have hlen := length_fitting pc.length h1 bufs
      have hsize := hw₁.piece_length ho.piece
      refine ⟨ht.resident hw₂ ?_, h0, by omega, by omega⟩
      rw [residents_written hw ha ho bufs]
      exact Or.inl rfl

/-- Behind a `writev`, what was stored last in its range is what it wrote. -/
theorem latest_callEvents_writev {st st' : MemoryStorage σ} (hl : Linked st)
    {bufs : List (List Byte)} {p offset n : ℤ} (hres : Resident st' p)
    (hn : n ≤ bufs.flatten.length) (es : List (Event ℤ Byte)) {i : ℕ} (hi : (i : ℤ) < n) :
    latest (callEvents ⟨st, (.writev bufs p offset, ⟨n, []⟩), st'⟩ ++ es) p (offset.toNat + i) =
      bufs.flatten[i]? := by
  have hstays : p ∉ evicted (⟨st, (.writev bufs p offset, ⟨n, []⟩), st'⟩ : CallEntry σ) := by
    intro hmem
    exact ((mem_evicted_iff hl p).mp hmem).2 hres
  have hlen : (bufs.flatten.take n.toNat).length = n.toNat := by
    rw [List.length_take]
    omega
  have hin : p = p ∧ offset.toNat ≤ offset.toNat + i ∧
      offset.toNat + i < offset.toNat + (bufs.flatten.take n.toNat).length := by
    rw [hlen]
    omega
  rw [callEvents, List.append_assoc, latest_releases hstays]
  simp only
  rw [if_pos hres, List.cons_append, latest, if_pos hin, Nat.add_sub_cancel_left,
    List.getElem?_take, if_pos (by omega)]

/-- **The memory storage refines a map from resident pieces to byte strings.**  The
resident pieces are those with a place in the run's events; `readv` delivers what was
stored last since the piece acquired its buffer, 0 where nothing was, and nothing of a
piece that is not resident; and what a `writev` accepted can be read back at once. -/
theorem storage_refines_map {env : Env σ} {info : TorrentInfo} {h : History σ}
    {st : MemoryStorage σ} (hr : StorageRun env info h st) {p : ℤ} {pc : MemoryPiece}
    (hp : at? st.pieces p = some pc) :
    (Resident st p ↔ ∃ f, contents 0 (events h) p = some f) ∧
    (Resident st p → ∀ bufs offset, 0 ≤ offset → offset + bufs.flatten.length ≤ pc.length →
      ∃ out st', readv env st bufs p offset = .ok (bufs.flatten.length, out, st') ∧
        out.map List.length = bufs.map List.length ∧ ∀ i < bufs.flatten.length,
          out.flatten[i]? = some ((latest (events h) p (offset.toNat + i)).getD 0)) ∧
    (¬Resident st p → ∀ bufs offset, readv env st bufs p offset = .ok (0, bufs, st)) ∧
    (∀ fuel bufs offset n st', 0 ≤ offset → offset ≤ pc.length →
      writev env fuel st bufs p offset = .ok (n, st') → 0 < n →
      Resident st' p ∧ ∀ dst : List (List Byte), dst.flatten.length = n →
        ∃ out st'', readv env st' dst p offset = .ok (n, out, st'') ∧
          out.flatten = bufs.flatten.take n.toNat) := by
  have hw := hr.wellFormed
  have hs := hr.simulates
  refine ⟨hs.resident_iff hw.toLinked p, ?_, ?_, ?_⟩
  · rintro ⟨pc', hp', hb⟩ bufs offset h0 h1
    rw [hp] at hp'
    obtain rfl := Option.some.inj hp'
    exact reads_latest hw hs hp hb bufs h0 h1
  · intro hn bufs offset
    exact readv_of_not_resident env hw.toLinked hp ((not_resident_iff hp).mp hn) bufs offset
  · intro fuel bufs offset n st' h0 h1 hwrite hpos
    -- the call extends the run, and its events end with the bytes it stored
    have hv : (Call.writev bufs p offset : Call σ).Valid st := by
      show ValidRange st p offset
      rw [ValidRange, hp]
      exact ⟨h0, h1⟩
    have hexec : exec env fuel st (.writev bufs p offset) = .ok (⟨n, []⟩, st') := by
      simp [exec, hwrite]
    have hr' : StorageRun env info (⟨st, (.writev bufs p offset, ⟨n, []⟩), st'⟩ :: h) st' :=
      .next hr ⟨hv, fuel, hexec⟩
    have hw' := hr'.wellFormed
    obtain ⟨hres, -, hn, hroom⟩ := (effect_of_exec hw hv hexec).stored hw hpos
    refine ⟨hres, fun dst hdst => ?_⟩
    obtain ⟨pc', hp', hb'⟩ := hres
    have hlen := hw'.piece_length hp'
    obtain ⟨out, st'', hread, hsizes, hout⟩ :=
      reads_latest hw' hr'.simulates hp' hb' dst h0 (by omega)
    rw [hdst] at hread
    refine ⟨out, st'', hread, ?_⟩
    have houtlen : out.flatten.length = dst.flatten.length := by
      rw [List.length_flatten, List.length_flatten, hsizes]
    apply List.ext_getElem?
    intro i
    rw [List.getElem?_take]
    by_cases hi : i < dst.flatten.length
    · rw [hout i hi, events,
        latest_callEvents_writev hw.toLinked ⟨pc', hp', hb'⟩ hn (events h) (by omega),
        if_pos (by omega), List.getElem?_eq_getElem (by omega), Option.getD_some]
    · rw [List.getElem?_eq_none (by omega), if_neg (by omega)]

/-- A piece written, overwritten in part, evicted by the third, and written again. -/
theorem storage_refines_map_again :
    ∃ h st pc, playNew ticking 3 (quads 9) 0 () [.writev [[1, 2], [3]] 0 0, .writev [[4]] 0 1,
        .writev [[5]] 1 0, .writev [[6]] 2 0, .writev [[7]] 0 2] = some (h, st) ∧
      at? st.pieces 0 = some pc ∧
      (Resident st 0 ↔ ∃ f, contents 0 (events h) 0 = some f) ∧
      (Resident st 0 → ∀ bufs offset, 0 ≤ offset → offset + bufs.flatten.length ≤ pc.length →
        ∃ out st', readv ticking st bufs 0 offset = .ok (bufs.flatten.length, out, st') ∧
          out.map List.length = bufs.map List.length ∧ ∀ i < bufs.flatten.length,
            out.flatten[i]? = some ((latest (events h) 0 (offset.toNat + i)).getD 0)) ∧
      (¬Resident st 0 → ∀ bufs offset, readv ticking st bufs 0 offset = .ok (0, bufs, st)) ∧
      (∀ fuel bufs offset n st', 0 ≤ offset → offset ≤ pc.length →
        writev ticking fuel st bufs 0 offset = .ok (n, st') → 0 < n →
        Resident st' 0 ∧ ∀ dst : List (List Byte), dst.flatten.length = n →
          ∃ out st'', readv ticking st' dst 0 offset = .ok (n, out, st'') ∧
            out.flatten = bufs.flatten.take n.toNat) := by
  have hplay : playNew ticking 3 (quads 9) 0 () [.writev [[1, 2], [3]] 0 0, .writev [[4]] 0 1,
      .writev [[5]] 1 0, .writev [[6]] 2 0, .writev [[7]] 0 2] = some (_, _) := rfl
  exact ⟨_, _, _, hplay, rfl, storage_refines_map (playNew_run (by decide) hplay) rfl⟩

end Libtorrent
