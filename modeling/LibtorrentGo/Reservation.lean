/-
# Reserved pieces stay

`Retains st st' p` says that piece `p` has kept its buffer and holds no less in it.  A
completed call retains every resident piece that is reserved when it is made
(`Effect.retains`), and so does every run of calls while the piece stays reserved
(`reserved_stays`), whatever the clock shows and the torrent asks for.
-/
import LibtorrentGo.Replay
import LibtorrentGo.Transfers

open Splice Subscript

namespace Libtorrent

open MemoryStorage

variable {σ : Type}

/-- Piece `p` has the buffer it had, and no less in it. -/
def Retains (st st' : MemoryStorage σ) (p : ℤ) : Prop :=
  ∃ b pc bf pc' bf', Owns st p pc b bf ∧ Owns st' p pc' b bf' ∧ pc.size ≤ pc'.size

namespace Retains

variable {st st' : MemoryStorage σ} {p : ℤ}

/-- A resident piece has what it has. -/
theorem refl (h : Linked st) (hr : Resident st p) : Retains st st p := by
  obtain ⟨pc, bf, ho⟩ := hr.owns h
  exact ⟨pc.bi, pc, bf, pc, bf, ho, ho, le_rfl⟩

/-- What is retained twice is retained. -/
theorem trans {st'' : MemoryStorage σ} (h : Retains st st' p) (h' : Retains st' st'' p) :
    Retains st st'' p := by
  obtain ⟨b, pc₁, bf₁, pc₂, bf₂, ho₁, ho₂, hle⟩ := h
  obtain ⟨c, pc₃, bf₃, pc₄, bf₄, ho₃, ho₄, hle'⟩ := h'
  obtain ⟨rfl, rfl, rfl⟩ := ho₂.unique ho₃
  exact ⟨b, pc₁, bf₁, pc₄, bf₄, ho₁, ho₄, hle.trans hle'⟩

/-- What is retained is resident. -/
theorem resident (h : Retains st st' p) (hl : Linked st') : Resident st' p := by
  obtain ⟨b, -, -, pc', bf', -, ho', -⟩ := h
  exact ho'.resident hl

/-- An untouched piece retains its buffer. -/
theorem of_untouched (h : Linked st) (h' : Linked st') (hu : Untouched st st' p)
    (hr : Resident st p) : Retains st st' p := by
  obtain ⟨pc, bf, ho⟩ := hr.owns h
  have hbuffer := hu.buffer
  rw [bufferOf_eq h ho] at hbuffer
  obtain ⟨pc', ho'⟩ := owns_of_bufferOf h' hbuffer
  obtain rfl := ho'.piece_eq (hu.piece.trans ho.piece)
  exact ⟨pc.bi, pc, bf, pc, bf, ho, ho', le_rfl⟩

/-- A piece that is read retains its buffer. -/
theorem touch {env : Env σ} {b : ℤ} {pc : MemoryPiece} {bf : MemoryBuffer}
    (ho : Owns st p pc b bf) (upTo : ℤ) : Retains st (st.touch env p pc b bf upTo) p := by
  refine ⟨b, pc, bf, _, _, ho, ⟨at?_put_self ho.piece _, ?_, at?_put_self ho.buffer _, ho.used,
    ho.pi⟩, ?_⟩
  · split <;> exact ho.bi
  · split <;> exact le_rfl

end Retains

/-- An untouched piece has the bytes it had. -/
theorem contentOf_untouched {st st' : MemoryStorage σ} {p : ℤ} (h : Untouched st st' p)
    (hlen : st'.pieceLength = st.pieceLength) : contentOf st' p = contentOf st p := by
  unfold contentOf
  rw [h.buffer, hlen]

/-- So has a piece that is read. -/
theorem contentOf_touch {env : Env σ} {st : MemoryStorage σ} (h : Linked st) {p b : ℤ}
    {pc : MemoryPiece} {bf : MemoryBuffer} (ho : Owns st p pc b bf) (upTo : ℤ) :
    contentOf (st.touch env p pc b bf upTo) p = contentOf st p := by
  unfold contentOf
  rw [bufferOf_touch h ho, if_pos rfl, bufferOf_eq h ho]

/-- **A completed call retains what is resident and reserved**, and changes its bytes only if
it is a `writev` to that piece. -/
theorem Effect.retains {env : Env σ} {info : TorrentInfo} {st st' : MemoryStorage σ}
    {c : Call σ} {r : Reply} (he : Effect env st c r st') (hw : WellFormed info st)
    (hblank : Blank st) {p : ℤ} (hr : Resident st p) (hres : st.Reserved p) :
    Retains st st' p ∧
      ((∀ bufs offset, c ≠ .writev bufs p offset) → contentOf st' p = contentOf st p) := by
  have hw' := he.wellFormed hw
  have hlen : st'.pieceLength = st.pieceLength := by
    rw [hw'.pieceLength_eq, hw.pieceLength_eq]
  have same : Untouched st st' p → Retains st st' p ∧
      ((∀ bufs offset, c ≠ .writev bufs p offset) → contentOf st' p = contentOf st p) :=
    fun hu => ⟨.of_untouched hw.toLinked hw'.toLinked hu hr, fun _ => contentOf_untouched hu hlen⟩
  by_cases hpiece : c.piece? = some p
  · cases he with
    | refused hp hb _ =>
        obtain rfl := Option.some.inj hpiece
        exact absurd hr ((not_resident_iff hp).mpr hb)
    | noBuffer hp hb _ _ =>
        obtain rfl := Option.some.inj hpiece
        exact absurd hr ((not_resident_iff hp).mpr hb)
    | @accepted bufs q offset b pc bf st₁ _ ha ho h0 h1 ht _ =>
        obtain rfl := Option.some.inj hpiece
        obtain ⟨pc₀, bf₀, ho₀⟩ := hr.owns hw.toLinked
        obtain ⟨hcount, ⟨pc', bf', ho', hsize, -, hslot⟩, -⟩ :=
          spliced_of_accepted hw hblank ho₀.piece ha ho h0 h1 ht
        rw [hslot (hw.toLinked.bi_ne ho₀)] at ho'
        refine ⟨⟨pc₀.bi, pc₀, bf₀, pc', bf', ho₀, ho', by omega⟩, fun hnot => ?_⟩
        exact absurd rfl (hnot bufs offset)
    | missed hp hb =>
        obtain rfl := Option.some.inj hpiece
        exact absurd hr ((not_resident_iff hp).mpr hb)
    | scattered ho _ _ =>
        obtain rfl := Option.some.inj hpiece
        exact ⟨.touch ho _, fun _ => contentOf_touch hw.toLinked ho _⟩
    | incomplete _ _ => exact same (.of_eq rfl rfl)
    | atEnd _ _ _ => exact same (.of_eq rfl rfl)
    | @copied readBuf size q offset b pc bf ho _ _ _ _ =>
        obtain rfl := Option.some.inj hpiece
        -- raising the flag leaves the piece alone, and then it is read
        have hw₁ := hw.withTorrent st.torrent st.mHandle st.t true
        have ho₁ : Owns ({ st with isReading := true } : MemoryStorage σ) q pc b bf :=
          ho.frame rfl rfl
        have hflag : Untouched st ({ st with isReading := true } : MemoryStorage σ) q :=
          .of_eq rfl rfl
        refine ⟨(Retains.of_untouched hw.toLinked hw₁.toLinked hflag hr).trans (.touch ho₁ _),
          fun _ => ?_⟩
        rw [contentOf_touch hw₁.toLinked ho₁]
        exact contentOf_untouched hflag rfl
    | _ => exact absurd hpiece (by simp [Call.piece?])
  · rcases he.untouched hw hpiece with hu | ⟨-, -, hfree⟩
    · exact same hu
    · exact absurd hres hfree

/-- **A resident piece that stays reserved is never evicted.**  From any reached state on,
while the piece is reserved it keeps its buffer, its size does not decrease, and its bytes
are the same unless a `writev` was made to it. -/
theorem reserved_stays {env : Env σ} {info : TorrentInfo} {h₀ : History σ}
    {st₀ : MemoryStorage σ} (hr₀ : StorageRun env info h₀ st₀) {p : ℤ} (hp : Resident st₀ p)
    {h : History σ} {st : MemoryStorage σ} (hr : Continuation env st₀ h st)
    (hres : ∀ s ∈ Runs.states h st, s.Reserved p) :
    Retains st₀ st p ∧
      ((∀ e ∈ h, ∀ bufs offset, e.label.1 ≠ .writev bufs p offset) →
        contentOf st p = contentOf st₀ p) := by
  revert hres
  refine Continuation.rule (J := fun h st => (∀ s ∈ Runs.states h st, s.Reserved p) →
    Retains st₀ st p ∧ ((∀ e ∈ h, ∀ bufs offset, e.label.1 ≠ .writev bufs p offset) →
      contentOf st p = contentOf st₀ p)) hr₀ ?_ ?_ hr
  · intro _
    exact ⟨.refl hr₀.wellFormed.toLinked hp, fun _ => rfl⟩
  · intro h st c r st' hrun _ ih he hres
    have hbefore : ∀ s ∈ Runs.states h st, s.Reserved p :=
      fun s hs => hres s (List.mem_cons_of_mem _ hs)
    obtain ⟨hkept, hbytes⟩ := ih hbefore
    have hw := hrun.wellFormed
    obtain ⟨hstep, hsame⟩ :=
      he.retains hw hrun.blank (hkept.resident hw.toLinked) (hbefore st List.mem_cons_self)
    refine ⟨hkept.trans hstep, fun hnone => ?_⟩
    obtain ⟨hlast, hrest⟩ := List.forall_mem_cons.mp hnone
    rw [hsame hlast, hbytes hrest]

/-- A reserved piece is there when the one that was placed behind it is gone. -/
theorem reserved_stays_while_another_goes :
    ∃ h₀ st₀ h st, playNew ticking 3 (quads 9) 4 () [.updateReservedPieces [0], .writev [[1]] 0 0]
        = some (h₀, st₀) ∧ Resident st₀ 0 ∧
      play ticking 3 [.writev [[2]] 1 0, .updateReservedPieces [3, 0], .writev [[3]] 2 0] [] st₀
        = some (h, st) ∧
      (∀ s ∈ Runs.states h st, s.Reserved 0) ∧ Retains st₀ st 0 ∧
      ((∀ e ∈ h, ∀ bufs offset, e.label.1 ≠ .writev bufs 0 offset) →
        contentOf st 0 = contentOf st₀ 0) := by
  have hplay₀ : playNew ticking 3 (quads 9) 4 () [.updateReservedPieces [0], .writev [[1]] 0 0]
      = some (_, _) := rfl
  exact ⟨_, _, _, _, hplay₀, by decide, rfl, by decide,
    reserved_stays (playNew_run (by decide) hplay₀) (by decide)
      (play_run ticking 3 [.writev [[2]] 1 0, .updateReservedPieces [3, 0], .writev [[3]] 2 0] rfl)
      (by decide)⟩

end Libtorrent
