/-
# What the picker is told

`restored env e` lists the pieces for which the call `e` ran `restore_piece`: a `writev`
the reader rule turns away and a `read` of a piece that is not complete restore their own
piece, and `trim` restores what it evicts.  That this is what a call does to the torrent
is `Effect.torrent`.

A restored piece is one the picker will ask for again, so the storage must have forgotten
it.  It has, unless a `read` found the piece in a buffer but not complete
(`restores_forget_iff`).
-/
import LibtorrentGo.Contents
import LibtorrentGo.Replay
import LibtorrentGo.Transfers

open Subscript

namespace Libtorrent

open MemoryStorage

variable {σ : Type}

/-! ## Restored pieces -/

/-- What the two tests at the start of `read` look for: no buffer, or too few bytes. -/
def Incomplete (st : MemoryStorage σ) (p : ℤ) : Prop :=
  match at? st.pieces p with
  | some pc => pc.bi = -1 ∨ pc.intSize < pc.length
  | none => False

instance (st : MemoryStorage σ) (p : ℤ) : Decidable (Incomplete st p) :=
  match h : at? st.pieces p with
  | some pc => decidable_of_iff (pc.bi = -1 ∨ pc.intSize < pc.length) (by simp [Incomplete, h])
  | none => isFalse (by simp [Incomplete, h])

/-- A piece is incomplete iff its record says so. -/
theorem incomplete_iff {st : MemoryStorage σ} {p : ℤ} {pc : MemoryPiece}
    (hp : at? st.pieces p = some pc) : Incomplete st p ↔ pc.bi = -1 ∨ pc.intSize < pc.length := by
  unfold Incomplete
  rw [hp]

/-- The piece a call gives up on. -/
def turnedDown (env : Env σ) (e : CallEntry σ) : List ℤ :=
  match e.label.1 with
  | .writev _ p _ => if ¬Resident e.before p ∧ e.before.Refused env p then [p] else []
  | .read _ _ p _ => if Incomplete e.before p then [p] else []
  | _ => []

/-- The pieces a call restores. -/
def restored (env : Env σ) (e : CallEntry σ) : List ℤ := turnedDown env e ++ evicted e

/-- The torrent behind `restore_piece` of each piece of a list. -/
def restoreAll (env : Env σ) (st : MemoryStorage σ) (ps : List ℤ) : σ :=
  ps.foldl (fun s p => (restorePiece env { st with torrent := s } p).torrent) st.torrent

/-- One piece evicted is all that is evicted. -/
theorem evicted_eq_singleton {e : CallEntry σ} (h : Linked e.before) {v : ℤ}
    (hv : ∀ q, Resident e.before q ∧ ¬Resident e.after q ↔ q = v) : evicted e = [v] := by
  have hnodup : (evicted e).Nodup := by
    unfold evicted
    apply List.Nodup.filter
    exact List.nodup_range.map fun n m heq => Int.ofNat_inj.mp heq
  apply List.perm_singleton.mp
  rw [List.perm_ext_iff_of_nodup hnodup (List.nodup_singleton v)]
  intro q
  rw [mem_evicted_iff h, List.mem_singleton]
  exact hv q

/-- Acquiring a buffer and storing bytes leave the torrent and its handle alone. -/
theorem torrent_written {env : Env σ} {st st₁ : MemoryStorage σ} {p : ℤ}
    (ha : Acquired env st p st₁) (b offset : ℤ) (pc : MemoryPiece) (bf : MemoryBuffer)
    (bufs : List (List Byte)) :
    (st₁.written env p pc b bf offset bufs).torrent = st.torrent ∧
      (st₁.written env p pc b bf offset bufs).mHandle = st.mHandle ∧
      (st₁.written env p pc b bf offset bufs).t = st.t ∧
      (st₁.written env p pc b bf offset bufs).isReading = st.isReading := by
  cases ha with
  | kept _ => exact ⟨rfl, rfl, rfl, rfl⟩
  | placed _ _ _ _ => exact ⟨rfl, rfl, rfl, rfl⟩

/-- **What a call does to the torrent** is to restore the pieces that `restored` lists. -/
theorem Effect.torrent {env : Env σ} {info : TorrentInfo} {st st' : MemoryStorage σ}
    {c : Call σ} {r : Reply} (he : Effect env st c r st') (hw : WellFormed info st)
    (hroom : 0 < slack st) (hc : ∀ torrent, c ≠ .outside torrent) :
    st'.torrent = restoreAll env st (restored env ⟨st, (c, r), st'⟩) := by
  have nothing : ∀ {d : Call σ} {r : Reply} {s : MemoryStorage σ},
      turnedDown env ⟨st, (d, r), s⟩ = [] → (∀ q, Resident st q → Resident s q) →
      s.torrent = st.torrent → s.torrent = restoreAll env st (restored env ⟨st, (d, r), s⟩) := by
    intro d r s hdown hstay htorrent
    unfold restored
    rw [hdown, evicted_eq_nil hstay]
    exact htorrent
  have oneself : ∀ {d : Call σ} {r : Reply} {s : MemoryStorage σ} {p : ℤ},
      turnedDown env ⟨st, (d, r), s⟩ = [p] → (∀ q, Resident st q → Resident s q) →
      s.torrent = restoredTorrent env st p →
      s.torrent = restoreAll env st (restored env ⟨st, (d, r), s⟩) := by
    intro d r s p hdown hstay htorrent
    unfold restored
    rw [hdown, evicted_eq_nil hstay, htorrent]
    show _ = (restorePiece env { st with torrent := st.torrent } p).torrent
    rw [restorePiece_eq]
  have complete : ∀ {p b : ℤ} {pc : MemoryPiece} {bf : MemoryBuffer}, Owns st p pc b bf →
      pc.length ≤ pc.intSize → ¬Incomplete st p := by
    intro p b pc bf ho hsize
    rw [incomplete_iff ho.piece, ho.bi]
    rintro (hb | hlt)
    · exact hw.toLinked.bi_ne ho hb
    · omega
  cases he with
  | refused hp hb href =>
      exact oneself (if_pos ⟨(not_resident_iff hp).mpr hb, href⟩) (fun _ hq => hq) rfl
  | noBuffer hp hb href hfull =>
      exact nothing (if_neg fun hboth => href hboth.2) (fun _ hq => hq) rfl
  | @accepted bufs p offset b pc bf st₁ _ ha ho h0 h1 ht hexit =>
      have hadmitted : ¬(¬Resident st p ∧ st.Refused env p) := by
        rintro ⟨hn, href⟩
        cases ha with
        | kept hkept => exact hn hkept
        | placed _ _ hadmit _ => exact hadmit href
      obtain ⟨htorrent, hhandle, ht', -⟩ :=
        torrent_written ha b offset pc bf bufs
      rcases accepted_cases hw hroom ha ho h0 h1 ht hexit with
        ⟨rfl, hstay⟩ | ⟨n, v, vc, c, cf, -, hv, -, -, rfl, hgone⟩
      · exact nothing (if_neg hadmitted) hstay htorrent
      · -- the piece `trim` evicts is restored on the torrent the call was made with
        have hdown : ∀ {r : Reply} {s : MemoryStorage σ},
            turnedDown env ⟨st, (.writev bufs p offset, r), s⟩ = [] := if_neg hadmitted
        unfold restored
        rw [hdown, evicted_eq_singleton hw.toLinked hgone]
        show restoredTorrent env ((st₁.written env p pc b bf offset bufs).wait n) v
          = (restorePiece env { st with torrent := st.torrent } v).torrent
        rw [restorePiece_eq]
        unfold restoredTorrent
        simp only [wait, htorrent, hhandle, ht']
  | missed _ _ => exact nothing rfl (fun _ hq => hq) rfl
  | scattered ho _ _ =>
      exact nothing rfl (fun q hq => (resident_touch hw.toLinked ho _ q).mpr hq) rfl
  | incomplete hp hinc =>
      exact oneself (if_pos ((incomplete_iff hp).mpr hinc)) (fun _ hq => hq) rfl
  | atEnd ho hsize _ => exact nothing (if_neg (complete ho hsize)) (fun _ hq => hq) rfl
  | @copied readBuf size p offset b pc bf ho hsize _ _ _ =>
      have ho' : Owns ({ st with isReading := true } : MemoryStorage σ) p pc b bf :=
        ho.frame rfl rfl
      have hl' := (hw.withTorrent st.torrent st.mHandle st.t true).toLinked
      exact nothing (if_neg (complete ho hsize))
        (fun q hq => (resident_touch hl' ho' _ q).mpr hq) rfl
  | notGrown _ => exact nothing rfl (fun _ hq => hq) rfl
  | grown _ _ => exact nothing rfl (fun _ hq => hq) rfl
  | readers _ _ => exact nothing rfl (fun _ hq => hq) rfl
  | reserves _ _ => exact nothing rfl (fun _ hq => hq) rfl
  | handle => exact nothing rfl (fun _ hq => hq) rfl
  | @outside torrent => exact absurd rfl (hc torrent)

/-- Every call but `set_torrent_handle` leaves the handle alone, and none lowers the reader
flag. -/
theorem Effect.flags {env : Env σ} {info : TorrentInfo} {st st' : MemoryStorage σ}
    {c : Call σ} {r : Reply} (he : Effect env st c r st') (hw : WellFormed info st)
    (hroom : 0 < slack st) :
    ((∀ t, c ≠ .setTorrentHandle t) → st'.mHandle = st.mHandle ∧ st'.t = st.t) ∧
      (st.mHandle = true → st'.mHandle = true) ∧ (st.isReading = true → st'.isReading = true) := by
  cases he with
  | @accepted bufs p offset b pc bf st₁ _ ha ho h0 h1 ht hexit =>
      obtain ⟨-, hhandle, ht', hreading⟩ := torrent_written ha b offset pc bf bufs
      rcases accepted_cases hw hroom ha ho h0 h1 ht hexit with
        ⟨rfl, -⟩ | ⟨n, v, vc, c, cf, -, -, -, -, rfl, -⟩
      · exact ⟨fun _ => ⟨hhandle, ht'⟩, fun h => hhandle.trans h, fun h => hreading.trans h⟩
      · exact ⟨fun _ => ⟨hhandle, ht'⟩, fun h => hhandle.trans h, fun h => hreading.trans h⟩
  | @handle t => exact ⟨fun hne => absurd rfl (hne t), fun _ => rfl, id⟩
  | incomplete _ _ => exact ⟨fun _ => ⟨rfl, rfl⟩, id, fun _ => rfl⟩
  | atEnd _ _ _ => exact ⟨fun _ => ⟨rfl, rfl⟩, id, fun _ => rfl⟩
  | copied _ _ _ _ _ => exact ⟨fun _ => ⟨rfl, rfl⟩, id, fun _ => rfl⟩
  | _ => exact ⟨fun _ => ⟨rfl, rfl⟩, id, id⟩

/-! ## What a call adds to a piece -/

/-- What a `writev` to piece `p` returned. -/
def gained (e : CallEntry σ) (p : ℤ) : ℤ :=
  match e.label.1 with
  | .writev _ q _ => if q = p then e.label.2.ret else 0
  | _ => 0

/-- The call is a `writev` to piece `p` that was given a buffer. -/
def AcceptsWrite (e : CallEntry σ) (p : ℤ) : Prop :=
  (∃ bufs offset, e.label.1 = .writev bufs p offset) ∧ Resident e.after p

/-- A piece with a record keeps one. -/
theorem Effect.exists_before {env : Env σ} {info : TorrentInfo} {st st' : MemoryStorage σ}
    {c : Call σ} {r : Reply} (he : Effect env st c r st') (hw : WellFormed info st) {p : ℤ}
    {pc' : MemoryPiece} (hp' : at? st'.pieces p = some pc') :
    ∃ pc, at? st.pieces p = some pc := by
  have hw' := he.wellFormed hw
  obtain ⟨h0, h1⟩ := hw'.piece_bounds hp'
  rw [hw'.pieceCount_eq, ← hw.pieceCount_eq] at h1
  exact hw.exists_piece h0 h1

/-- **The size of a piece that is not evicted grows by what its `writev`s return.** -/
theorem Effect.size {env : Env σ} {info : TorrentInfo} {st st' : MemoryStorage σ}
    {c : Call σ} {r : Reply} (he : Effect env st c r st') (hw : WellFormed info st)
    (hblank : Blank st) {p : ℤ} {pc pc' : MemoryPiece} (hp : at? st.pieces p = some pc)
    (hp' : at? st'.pieces p = some pc') (hstay : Resident st p → Resident st' p) :
    pc'.size = pc.size + gained ⟨st, (c, r), st'⟩ p := by
  have same : at? st'.pieces p = at? st.pieces p → pc'.size = pc.size := by
    intro heq
    rw [heq, hp] at hp'
    rw [Option.some.inj hp']
  have touched : ∀ {s : MemoryStorage σ} {q b upTo : ℤ} {qc : MemoryPiece} {bf : MemoryBuffer},
      s.pieces = st.pieces → Owns s q qc b bf → st' = s.touch env q qc b bf upTo →
      pc'.size = pc.size := by
    rintro s q b upTo qc bf hs ho rfl
    by_cases hq : p = q
    · subst hq
      rw [← hs, ho.piece] at hp
      obtain rfl := Option.some.inj hp
      have hput : at? (put s.pieces p
          (if qc.isCompleted && upTo ≥ qc.intSize then { qc with isRead := true } else qc)) p
          = some pc' := hp'
      rw [at?_put_self ho.piece] at hput
      rw [← Option.some.inj hput]
      split <;> rfl
    · apply same
      rw [← hs]
      exact at?_put_ne (Ne.symm hq) _
  have nothing : ∀ {d : Call σ} {r : Reply} {s : MemoryStorage σ},
      gained ⟨st, (d, r), s⟩ p = 0 → pc'.size = pc.size →
      pc'.size = pc.size + gained ⟨st, (d, r), s⟩ p := by
    intro d r s hzero hsize
    rw [hzero, add_zero]
    exact hsize
  cases he with
  | refused _ _ _ => exact nothing (ite_self 0) (same rfl)
  | noBuffer _ _ _ _ => exact nothing (ite_self 0) (same rfl)
  | @accepted bufs q offset b qc bf st₁ _ ha ho h0 h1 ht hexit =>
      by_cases hq : q = p
      · subst hq
        obtain ⟨-, ⟨pc'', bf', ho', hsize, -⟩, -⟩ := spliced_of_accepted hw hblank hp ha ho h0 h1 ht
        obtain rfl := ho'.piece_eq hp'
        show _ = pc.size + if q = q then _ else 0
        rw [if_pos rfl]
        exact hsize
      · apply nothing
        · exact if_neg hq
        · have he : Effect env st (.writev bufs q offset) _ st' :=
            .accepted ha ho h0 h1 ht hexit
          rcases he.untouched hw (fun heq => hq (Option.some.inj heq)) with hu | ⟨hr, hgone, -⟩
          · exact same hu.piece
          · exact absurd (hstay hr) hgone
  | missed _ _ => exact nothing rfl (same rfl)
  | scattered ho _ _ => exact nothing rfl (touched rfl ho rfl)
  | incomplete _ _ => exact nothing rfl (same rfl)
  | atEnd _ _ _ => exact nothing rfl (same rfl)
  | @copied readBuf size q offset b qc bf ho _ _ _ _ =>
      have ho' : Owns ({ st with isReading := true } : MemoryStorage σ) q qc b bf :=
        ho.frame rfl rfl
      exact nothing rfl (touched (s := { st with isReading := true }) rfl ho' rfl)
  | notGrown _ => exact nothing rfl (same rfl)
  | grown _ _ => exact nothing rfl (same rfl)
  | readers _ _ => exact nothing rfl (same rfl)
  | reserves _ _ => exact nothing rfl (same rfl)
  | handle => exact nothing rfl (same rfl)
  | outside => exact nothing rfl (same rfl)

/-- A piece that becomes resident was written to. -/
theorem Effect.resident_after {env : Env σ} {info : TorrentInfo} {st st' : MemoryStorage σ}
    {c : Call σ} {r : Reply} (he : Effect env st c r st') (hw : WellFormed info st)
    (hroom : 0 < slack st) {p : ℤ} (hp : Resident st' p) :
    Resident st p ∨ AcceptsWrite ⟨st, (c, r), st'⟩ p := by
  rcases he.residents hw hroom with
    ⟨-, -, hres⟩ | ⟨q, htakes, -, -, hres⟩ | ⟨q, v, htakes, -, -, -, -, hres⟩
  · exact Or.inl ((hres p).mp hp)
  · rcases (hres p).mp hp with rfl | hbefore
    · exact Or.inr ⟨htakes.1, hp⟩
    · exact Or.inl hbefore
  · rcases (hres p).mp hp with rfl | hbefore
    · exact Or.inr ⟨htakes.1, hp⟩
    · exact Or.inl hbefore.1

/-! ## What is forgotten -/

/-- The call is a `read` of piece `p` that finds it in a buffer, but not complete. -/
def ReadsShort (e : CallEntry σ) (p : ℤ) : Prop :=
  (∃ readBuf size offset, e.label.1 = .read readBuf size p offset) ∧
    Resident e.before p ∧ Incomplete e.before p

/-- Piece `p` was restored, and no `writev` to it was accepted since. -/
def AwaitsData (env : Env σ) : History σ → ℤ → Prop
  | [], _ => False
  | e :: h, p => p ∈ restored env e ∨ (AwaitsData env h p ∧ ¬AcceptsWrite e p)

/-- What the `writev`s to piece `p` returned since it was last restored. -/
def delivered (env : Env σ) : History σ → ℤ → ℤ
  | [], _ => 0
  | e :: h, p => if p ∈ restored env e then 0 else delivered env h p + gained e p

/-- What was restored is forgotten, and what is counted was delivered since. -/
structure Forgets (env : Env σ) (h : History σ) (st : MemoryStorage σ) (p : ℤ) : Prop where
  forgotten : AwaitsData env h p →
    ¬Resident st p ∧ ∀ pc, at? st.pieces p = some pc → pc.size = 0
  counted : ∀ pc, at? st.pieces p = some pc → pc.size = delivered env h p

/-- A restored piece has no buffer, unless a `read` found it in one. -/
theorem Effect.not_resident_of_restored {env : Env σ} {info : TorrentInfo}
    {st st' : MemoryStorage σ} {c : Call σ} {r : Reply} (he : Effect env st c r st')
    (hw : WellFormed info st) {p : ℤ} (hmem : p ∈ restored env ⟨st, (c, r), st'⟩)
    (hn : ¬ReadsShort ⟨st, (c, r), st'⟩ p) :
    ¬Resident st' p := by
  rcases List.mem_append.mp hmem with hdown | hgone
  · cases c with
    | writev bufs q offset =>
        have hdown' : p ∈ if ¬Resident st q ∧ st.Refused env q then [q] else [] := hdown
        split at hdown'
        · rename_i hq
          obtain rfl := List.mem_singleton.mp hdown'
          obtain ⟨-, hst⟩ := he.turnedAway ⟨hq.1, Or.inr hq.2⟩
          rw [hst]
          exact hq.1
        · exact absurd hdown' List.not_mem_nil
    | read readBuf size q offset =>
        have hdown' : p ∈ if Incomplete st q then [q] else [] := hdown
        split at hdown'
        · rename_i hq
          obtain rfl := List.mem_singleton.mp hdown'
          have hnot : ¬Resident st p := fun hr => hn ⟨⟨readBuf, size, offset, rfl⟩, hr, hq⟩
          cases he with
          | incomplete _ _ => exact hnot
          | atEnd ho _ _ =>
              exact absurd (ho.resident hw.toLinked) hnot
          | copied ho _ _ _ _ =>
              exact absurd (ho.resident hw.toLinked) hnot
        · exact absurd hdown' List.not_mem_nil
    | _ => exact absurd hdown List.not_mem_nil
  · exact ((mem_evicted_iff hw.toLinked p).mp hgone).2

/-- A call that does not read a piece short keeps what was restored forgotten. -/
theorem Forgets.next {env : Env σ} {info : TorrentInfo} {h : History σ}
    {st st' : MemoryStorage σ} {c : Call σ} {r : Reply} {p : ℤ} (hf : Forgets env h st p)
    (he : Effect env st c r st') (hw : WellFormed info st) (hblank : Blank st)
    (hroom : 0 < slack st) (hn : ¬ReadsShort ⟨st, (c, r), st'⟩ p) :
    Forgets env (⟨st, (c, r), st'⟩ :: h) st' p := by
  have hw' := he.wellFormed hw
  have hempty : ¬Resident st' p → ∀ pc, at? st'.pieces p = some pc → pc.size = 0 :=
    fun hnot pc hpc => hw'.piece_blank hpc ((not_resident_iff hpc).mp hnot)
  by_cases hmem : p ∈ restored env ⟨st, (c, r), st'⟩
  · have hnot := he.not_resident_of_restored hw hmem hn
    constructor
    · intro _
      exact ⟨hnot, hempty hnot⟩
    · intro pc hpc
      rw [hempty hnot pc hpc, delivered, if_pos hmem]
  · constructor
    · rintro (hnow | ⟨hawaits, hwrite⟩)
      · exact absurd hnow hmem
      · have hnot : ¬Resident st' p := by
          intro hr
          rcases he.resident_after hw hroom hr with hbefore | haccepts
          · exact (hf.forgotten hawaits).1 hbefore
          · exact hwrite haccepts
        exact ⟨hnot, hempty hnot⟩
    · intro pc' hpc'
      obtain ⟨pc, hpc⟩ := he.exists_before hw hpc'
      have hstay : Resident st p → Resident st' p := by
        intro hr
        by_contra hgone
        apply hmem
        exact List.mem_append_right _ ((mem_evicted_iff hw.toLinked p).mpr ⟨hr, hgone⟩)
      rw [he.size hw hblank hpc hpc' hstay, hf.counted pc hpc, delivered, if_neg hmem]

/-- **When the storage forgets what it tells the picker to be missing**: at every stage of a
run, a restored piece has no buffer and size 0 until a `writev` to it is accepted, and its
size counts what was delivered since, iff no `read` finds the piece in a buffer but not
complete. -/
theorem restores_forget_iff {env : Env σ} {info : TorrentInfo} {h : History σ}
    {st : MemoryStorage σ} (hr : StorageRun env info h st) (p : ℤ) :
    (∀ x ∈ Runs.stages h st, Forgets env x.1 x.2 p) ↔ ∀ e ∈ h, ¬ReadsShort e p := by
  have hiff := hr.stages_iff (P := fun g t => Forgets env g t p)
    (Q := fun _ e => ¬ReadsShort e p) ?_ ?_
  · rw [hiff]
    exact Runs.forall_suffix_iff (Q := fun e => ¬ReadsShort e p)
  · intro s h0
    refine ⟨fun hawaits => absurd hawaits id, fun pc hpc => ?_⟩
    exact h0.wellFormed.piece_blank hpc (h0.unbuffered hpc)
  · rintro g t ⟨c, r⟩ t' - hrun hs hf
    have hrun' : StorageRun env info g t := hrun
    have hw := hrun'.wellFormed
    have he := hs.effect hw
    constructor
    · -- a piece that is read short is restored, and stays where it is
      rintro hf' ⟨⟨readBuf, size, offset, hcall⟩, hres, hinc⟩
      obtain rfl : c = .read readBuf size p offset := hcall
      have hmem : p ∈ restored env ⟨t, (.read readBuf size p offset, r), t'⟩ := by
        apply List.mem_append_left
        show p ∈ if Incomplete t p then [p] else []
        rw [if_pos hinc]
        exact List.mem_singleton_self p
      apply (hf'.forgotten (Or.inl hmem)).1
      rcases he.residents hw hrun'.ledger.room with
        ⟨-, -, hsame⟩ | ⟨q, htakes, -⟩ | ⟨q, v, htakes, -⟩
      · exact (hsame p).mpr hres
      · obtain ⟨⟨bufs, offset', heq⟩, -⟩ := htakes
        exact absurd heq (by simp)
      · obtain ⟨⟨bufs, offset', heq⟩, -⟩ := htakes
        exact absurd heq (by simp)
    · intro hn
      exact hf.next he hw hrun'.blank hrun'.ledger.room hn

/-- A piece that is written, read, evicted by the third and asked for again. -/
theorem restores_forget_iff_evicted :
    ∃ h st, playNew ticking 3 (quads 9) 0 () [.setTorrentHandle true, .writev [[1, 2, 3, 4]] 0 0,
        .read [0] 1 0 0, .writev [[5]] 1 0, .read [0] 1 0 0] = some (h, st) ∧
      ((∀ x ∈ Runs.stages h st, Forgets ticking x.1 x.2 0) ↔ ∀ e ∈ h, ¬ReadsShort e 0) := by
  have hplay : playNew ticking 3 (quads 9) 0 () [.setTorrentHandle true,
      .writev [[1, 2, 3, 4]] 0 0, .read [0] 1 0 0, .writev [[5]] 1 0, .read [0] 1 0 0]
      = some (_, _) := rfl
  exact ⟨_, _, hplay, restores_forget_iff (playNew_run (by decide) hplay) 0⟩

/-- A piece with two bytes of four is read: the picker is told that it is missing, and the
storage keeps it.  When the picker has all four delivered again, six are counted. -/
theorem short_read_counts_twice :
    ∃ h st pc, playNew ticking 3 (quads 9) 0 () [.setTorrentHandle true, .writev [[1, 2]] 0 0,
        .read [0] 1 0 0, .writev [[1, 2, 3, 4]] 0 0] = some (h, st) ∧
      StorageRun ticking (quads 9) h st ∧ st.mHandle = true ∧ st.t = true ∧
      at? st.pieces 0 = some pc ∧ pc.size = 6 ∧ delivered ticking h 0 = 4 ∧
      ¬∀ x ∈ Runs.stages h st, Forgets ticking x.1 x.2 0 := by
  have hplay : playNew ticking 3 (quads 9) 0 () [.setTorrentHandle true, .writev [[1, 2]] 0 0,
      .read [0] 1 0 0, .writev [[1, 2, 3, 4]] 0 0] = some (_, _) := rfl
  refine ⟨_, _, _, hplay, playNew_run (by decide) hplay, rfl, rfl, rfl, by decide, by decide, ?_⟩
  intro hall
  have hcounted := (hall _ List.mem_cons_self).counted _ rfl
  exact absurd hcounted (by decide)

end Libtorrent
