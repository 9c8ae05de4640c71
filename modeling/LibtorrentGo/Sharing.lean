/-
# What threads store together

Pieces come and leave and bytes are stored at single steps of the threads: a piece acquires its
place when `get_buffer` gives it a buffer, bytes are stored by each `memcpy` of a `writev`, and
a piece is released when `trim` removes it.  A run of threads tells these events in the order
of its steps (`tale`).

A `memcpy` goes to the address that was computed before, and may go astray: to a buffer that
its piece has lost.  In a run in which none does, each piece that has a buffer holds what the
tale says (`CrewRun.told`).
-/
import LibtorrentGo.Contents
import LibtorrentGo.Orderly

open Splice Subscript Tenancy

namespace Libtorrent

open MemoryStorage

variable {σ ι : Type}

/-! ## The events of a step -/

/-- The events of a step. -/
def turnEvents (e : CrewEntry ι σ) : List (Event ℤ Byte) :=
  match e.label.1 with
  | .enter _ _ => []
  | .go i =>
      match e.before.stage i with
      | some (.get p _) =>
          if ¬Resident e.before.st p ∧ Resident e.after.st p then [.acquire p] else []
      | some (.move p _ toCopy (.writev iov _ fileOffset _)) =>
          [.store p fileOffset.toNat (iov.take toCopy.toNat)]
      | some (.remove _ _ b) => ((at? e.before.st.buffers b).map fun bf => .release bf.pi).toList
      | _ => []

/-- The events of a run of threads, newest first. -/
def tale (h : List (CrewEntry ι σ)) : List (Event ℤ Byte) :=
  h.flatMap turnEvents

/-- A `memcpy` of a `writev` goes to a buffer that its piece does not have. -/
def GoesAstray (e : CrewEntry ι σ) : Prop :=
  ∃ p b, fills e = some (p, b) ∧ ¬HasBuffer e.before.st p b

instance (st : MemoryStorage σ) (p b : ℤ) : Decidable (HasBuffer st p b) :=
  decidable_of_iff _ hasBuffer_iff.symm

instance (e : CrewEntry ι σ) : Decidable (GoesAstray e) :=
  match hf : fills e with
  | none => isFalse (by simp [GoesAstray, hf])
  | some (p, b) => decidable_of_iff (¬HasBuffer e.before.st p b) (by
      simp only [GoesAstray, hf, Option.some.injEq, Prod.mk.injEq]
      constructor
      · exact fun hnot => ⟨p, b, ⟨rfl, rfl⟩, hnot⟩
      · rintro ⟨_, _, ⟨rfl, rfl⟩, hnot⟩
        exact hnot)

/-- Each piece that has a buffer holds in it what the events say. -/
def Told (es : List (Event ℤ Byte)) (st : MemoryStorage σ) : Prop :=
  ∀ p, Holds (bufferOf st p) (contents 0 es p)

/-- A buffer is known by its bytes. -/
theorem Holds.congr {bf bf' : MemoryBuffer} (hb : bf'.buffer = bf.buffer)
    {place : Option (ℕ → Byte)} (h : Holds (some bf) place) : Holds (some bf') place := by
  cases place with
  | none => exact h
  | some f =>
      intro o ho
      rw [hb] at ho ⊢
      exact h o ho

/-- Storing bytes in a buffer lays them over what it held. -/
theorem Holds.store {bf : MemoryBuffer} {place : Option (ℕ → Byte)} (h : Holds (some bf) place)
    {off : ℕ} {bytes : List Byte} (hfit : off + bytes.length ≤ bf.buffer.length)
    {bf' : MemoryBuffer} (hb : bf'.buffer = splice bf.buffer off bytes) :
    Holds (some bf') (place.map (overlay off bytes)) := by
  cases place with
  | none => exact absurd h id
  | some f =>
      intro o ho
      rw [hb] at ho ⊢
      have hlen := length_splice hfit
      have hold : bf.buffer[o]? = some (f o) := h o (by omega)
      rw [getElem?_splice hfit, overlay]
      by_cases ho' : off ≤ o ∧ o < off + bytes.length
      · have hin : o - off < bytes.length := by omega
        rw [if_pos ho', if_pos ho'.1, List.getElem?_eq_getElem hin, Option.getD_some]
      · rw [if_neg ho', hold]
        split
        · rw [List.getElem?_eq_none (by omega), Option.getD_none]
        · rfl

/-- Revised records are where the old ones were. -/
theorem bufferOf_revise {st : MemoryStorage σ} (hl : Linked st) {p b : ℤ} {pc : MemoryPiece}
    {bf : MemoryBuffer} (ho : Owns st p pc b bf) (pc' : MemoryPiece) (bf' : MemoryBuffer)
    (hbi : pc'.bi = pc.bi) (hb : bf'.isUsed = bf.isUsed ∧ bf'.pi = bf.pi) (ticks : ℕ) (q : ℤ) :
    bufferOf (st.revise p pc' b bf' ticks) q = if q = p then some bf' else bufferOf st q := by
  have hrel := bufferOf_relink hl pc' bf' ho.piece ho.buffer (Linked.paired_of_owns ho)
    (Or.inl ⟨hbi.trans ho.bi, hb.1.trans ho.used, hb.2.trans ho.pi⟩) q
  have hne : pc'.bi ≠ -1 := by
    rw [hbi, ho.bi]
    exact hl.bi_ne ho
  rw [if_neg hne] at hrel
  exact hrel

namespace Told

variable {st : MemoryStorage σ} {es : List (Event ℤ Byte)}

/-- What is neither a piece nor a buffer does not matter. -/
theorem frame (h : Told es st) {st' : MemoryStorage σ} (hp : st'.pieces = st.pieces)
    (hb : st'.buffers = st.buffers) : Told es st' := by
  intro p
  rw [bufferOf, hp, hb]
  exact h p

/-- Revised records that keep the bytes hold what the old ones held. -/
theorem revise (h : Told es st) (hl : Linked st) {p b : ℤ} {pc : MemoryPiece} {bf : MemoryBuffer}
    (ho : Owns st p pc b bf) (pc' : MemoryPiece) (bf' : MemoryBuffer) (hbi : pc'.bi = pc.bi)
    (hb : bf'.isUsed = bf.isUsed ∧ bf'.pi = bf.pi) (hbytes : bf'.buffer = bf.buffer)
    (ticks : ℕ) : Told es (st.revise p pc' b bf' ticks) := by
  intro q
  rw [bufferOf_revise hl ho pc' bf' hbi hb]
  by_cases hq : q = p
  · have hheld := h p
    rw [bufferOf_eq hl ho] at hheld
    rw [if_pos hq, hq]
    exact hheld.congr hbytes
  · rw [if_neg hq]
    exact h q

/-- A `memcpy` stores its bytes. -/
theorem copy (h : Told es st) (hl : Linked st) {p b : ℤ} {pc : MemoryPiece} {bf : MemoryBuffer}
    (ho : Owns st p pc b bf) {off : ℕ} {bytes : List Byte}
    (hfit : off + bytes.length ≤ bf.buffer.length) :
    Told (.store p off bytes :: es) (st.overwrite b bf (splice bf.buffer off bytes)) := by
  have hsame : st.overwrite b bf (splice bf.buffer off bytes) =
      st.revise p pc b { bf with buffer := splice bf.buffer off bytes } st.ticks := by
    rw [MemoryStorage.revise, put_at? ho.piece]
    rfl
  rw [hsame]
  intro q
  rw [bufferOf_revise hl ho pc { bf with buffer := splice bf.buffer off bytes } rfl ⟨rfl, rfl⟩,
    contents_store]
  by_cases hq : q = p
  · have hheld := h p
    rw [bufferOf_eq hl ho] at hheld
    rw [if_pos hq, if_pos hq]
    exact hheld.store hfit rfl
  · rw [if_neg hq, if_neg hq]
    exact h q

/-- A buffer that is given to a piece is blank. -/
theorem place (h : Told es st) (hl : Linked st) (hblank : Blank st) {env : Env σ} {p b : ℤ}
    {pc : MemoryPiece} {bf : MemoryBuffer} (hp : at? st.pieces p = some pc) (hpb : pc.bi = -1)
    (hb : at? st.buffers b = some bf) (hu : bf.isUsed = false) (reserved : Bool) :
    Told (.acquire p :: es) (st.place env p pc b bf reserved) := by
  intro q
  rw [bufferOf_place hl hp hpb hb hu, contents_acquire]
  by_cases hq : q = p
  · rw [if_pos hq, if_pos hq]
    intro o ho
    show bf.buffer[o]? = some 0
    rw [hblank hb hu, List.getElem?_replicate, if_pos ho]
  · rw [if_neg hq, if_neg hq]
    exact h q

/-- A piece that is removed holds nothing. -/
theorem evict (h : Told es st) (hl : Linked st) {env : Env σ} {v b : ℤ} {vc : MemoryPiece}
    {bf : MemoryBuffer} (ho : Owns st v vc b bf) :
    Told (.release v :: es) (st.evict env v vc b bf) := by
  intro q
  rw [bufferOf_evict hl ho, contents_release]
  by_cases hq : q = v
  · rw [if_pos hq, if_pos hq]
    trivial
  · rw [if_neg hq, if_neg hq]
    exact h q

end Told

/-! ## Every run -/

section Steps

variable [DecidableEq ι] {env : Env σ} {info : TorrentInfo} {C C' : Crew ι σ} {i : ι}
  {r : Option Reply}

/-- **One step of a thread** does what its events say, unless it goes astray. -/
theorem Told.turn {es : List (Event ℤ Byte)} (h : Told es C.st) (hord : Orderly info C)
    (hblank : Blank C.st) {s : Stage} (hs : C.stage i = some s) (hst : Stroke env C i s r C')
    (hstays : ¬GoesAstray ⟨C, (.go i, r), C'⟩) :
    Told (turnEvents ⟨C, (.go i, r), C'⟩ ++ es) C'.st := by
  have hl := hord.wellFormed.toLinked
  have silent : (∀ p job, s ≠ .get p job) → (∀ p n b, s ≠ .remove p n b) → s.fills = none →
      turnEvents ⟨C, (.go i, r), C'⟩ = [] := by
    intro hget hremove hfills
    simp only [turnEvents, hs]
    split
    · rename_i heq
      exact absurd (Option.some.inj heq) (hget _ _)
    · rename_i heq
      obtain rfl := Option.some.inj heq
      exact absurd hfills (by simp [Stage.fills])
    · rename_i heq
      exact absurd (Option.some.inj heq) (hremove _ _ _)
    · rfl
  have keeps : ∀ {p : ℤ} {job : Job}, s = .get p job →
      (¬Resident C.st p → ¬Resident C'.st p) → turnEvents ⟨C, (.go i, r), C'⟩ = [] := by
    rintro p job rfl hres
    simp only [turnEvents, hs]
    exact if_neg fun hboth => hres hboth.1 hboth.2
  cases hst with
  | look hnext =>
      rw [silent (by simp) (by simp) rfl]
      exact h
  | refuse torrent =>
      rw [keeps rfl fun hnot => hnot]
      exact h.frame rfl rfl
  | find hres =>
      rw [keeps rfl fun hnot => hnot]
      exact h
  | @place p offset b bufs pc bf hp hpb hfree =>
      have hevents : turnEvents ⟨C, (.go i, none), C.next i
          (C.st.place env p pc b bf (decide (C.st.Reserved p)))
            (.chunk p (.writev bufs offset 0))⟩ = [.acquire p] := by
        simp only [turnEvents, hs]
        refine if_pos ⟨(not_resident_iff hp).mpr hpb, ?_⟩
        exact (resident_place hl hp hpb hfree.buffer hfree.free _ p).mpr (Or.inl rfl)
      rw [hevents]
      exact h.place hl hblank hp hpb hfree.buffer hfree.free _
  | onward hon =>
      rw [silent (fun _ _ heq => by subst heq; cases hon) (fun _ _ _ heq => by subst heq; cases hon)
        hon.fills]
      exact h
  | @copy p b toCopy fileOffset n iov bufs bf hb hfit =>
      have hevents : turnEvents ⟨C, (.go i, none), C.next i
          (C.st.overwrite b bf (splice bf.buffer fileOffset.toNat (iov.take toCopy.toNat)))
            (.chunk p (.writev bufs (fileOffset + toCopy) (n + toCopy)))⟩ =
          [.store p fileOffset.toNat (iov.take toCopy.toNat)] := by
        simp only [turnEvents, hs]
      have hhas : HasBuffer C.st p b := by
        by_contra hnot
        exact hstays ⟨p, b, fills_go hs _ _, hnot⟩
      obtain ⟨pc, cf, ho⟩ := hhas
      obtain rfl := ho.buffer_eq hb
      rw [hevents]
      exact h.copy hl ho hfit
  | @finish p upTo b r pc bf ho =>
      rw [silent (by simp) (by simp) rfl]
      exact h.revise hl ho _ { bf with accessed := some (env.clock C.st.ticks) }
        (by split <;> rfl) ⟨rfl, rfl⟩ rfl (C.st.ticks + 1)
  | @account p n b pc bf ho =>
      rw [silent (by simp) (by simp) rfl]
      exact h.revise hl ho { pc with size := pc.size + n }
        { bf with accessed := some (env.clock C.st.ticks) } rfl ⟨rfl, rfl⟩ rfl (C.st.ticks + 1)
  | full _ hnext =>
      rw [silent (by rcases hnext with ⟨rfl, -⟩ | ⟨rfl, -⟩ | ⟨rfl, -⟩ <;> simp)
        (by rcases hnext with ⟨rfl, -⟩ | ⟨rfl, -⟩ | ⟨rfl, -⟩ <;> simp)
        (by rcases hnext with ⟨rfl, -⟩ | ⟨rfl, -⟩ | ⟨rfl, -⟩ <;> rfl)]
      exact h
  | room _ hstage =>
      rw [silent (by rcases hstage with rfl | rfl <;> simp)
        (by rcases hstage with rfl | rfl <;> simp) (by rcases hstage with rfl | rfl <;> rfl)]
      exact h
  | @remove p n v b vc bf ho _ =>
      have hevents : turnEvents ⟨C, (.go i, none),
          C.next i (C.st.evict env v vc b bf) (.round p n)⟩ = [.release v] := by
        simp only [turnEvents, hs, ho.buffer, Option.map_some, Option.toList_some, ho.pi]
      rw [hevents]
      exact h.evict hl ho
  | @grow m n hn =>
      rw [silent (by simp) (by simp) rfl]
      intro p
      show Holds (bufferOf (C.st.grow m n) p) _
      rw [bufferOf_grow hl]
      exact h p
  | _ =>
      rw [silent (by simp) (by simp) rfl]
      exact h.frame rfl rfl

/-- A `memcpy` that does not go astray soils nothing. -/
theorem Stroke.not_soils {s : Stage} (hst : Stroke env C i s r C') (hs : C.stage i = some s)
    (hstays : ¬GoesAstray ⟨C, (.go i, r), C'⟩) : ¬Soils ⟨C, (.go i, r), C'⟩ := by
  rintro ⟨p, b, bf, hfills, hb, hu, -⟩
  have hhas : HasBuffer C.st p b := by
    by_contra hnot
    exact hstays ⟨p, b, hfills, hnot⟩
  obtain ⟨pc, cf, ho⟩ := hhas
  rw [fills_go hs] at hfills
  obtain ⟨bf', bytes, hb', hC⟩ := hst.eq_overwrite hfills
  rw [hC] at hb
  obtain ⟨df, hdf, heq⟩ := exists_of_overwrite hb' hb
  obtain rfl := ho.buffer_eq hdf
  rw [heq] at hu
  exact absurd (hu.symm.trans ho.used) (by simp)

/-- **Every state of a run** holds what the run tells, as long as no step shrinks the pool or goes
astray. -/
theorem CrewRun.told {h : List (CrewEntry ι σ)} (hr : CrewRun env info h C)
    (hkeep : ∀ e ∈ h, ¬Shrinks e) (hstays : ∀ e ∈ h, ¬GoesAstray e) :
    Told (tale h) C.st ∧ Blank C.st := by
  refine CrewRun.rule (J := fun h C => (∀ e ∈ h, ¬GoesAstray e) →
    Told (tale h) C.st ∧ Blank C.st) ?_ ?_ ?_ hr hkeep hstays
  · intro C h0 _
    refine ⟨?_, h0.storage.blank⟩
    intro p
    cases hp : at? C.st.pieces p with
    | none =>
        rw [bufferOf, hp]
        trivial
    | some pc =>
        rw [bufferOf_eq_none hp (h0.storage.unbuffered hp)]
        trivial
  · intro h C i task r C' _ _ _ ih _ henter hstays
    obtain ⟨htold, hblank⟩ := ih (List.forall_mem_cons.mp hstays).2
    have hent := entered_of_enter henter
    exact ⟨htold.frame hent.pieces hent.buffers, hblank.frame hent.buffers⟩
  · intro h C i s r C' _ _ hord ih hs _ hturn _ hstays
    obtain ⟨hlast, hrest⟩ := List.forall_mem_cons.mp hstays
    obtain ⟨htold, hblank⟩ := ih hrest
    have hstroke := hord.stroke_of_turn hs hturn
    exact ⟨htold.turn hord hblank hs hstroke hlast,
      hstroke.blank hs hblank (hstroke.not_soils hs hlast)⟩

/-! ## What reads deliver -/

omit [DecidableEq ι] in
/-- The bytes of a piece that has a buffer are those the events stored last. -/
theorem Told.byte {st : MemoryStorage σ} {es : List (Event ℤ Byte)} (h : Told es st)
    (hl : Linked st) {p b : ℤ} {pc : MemoryPiece} {bf : MemoryBuffer} (ho : Owns st p pc b bf)
    {o : ℕ} (hlt : o < bf.buffer.length) : bf.buffer[o]? = some ((latest es p o).getD 0) := by
  have hheld := h p
  rw [bufferOf_eq hl ho] at hheld
  cases hc : contents 0 es p with
  | none =>
      rw [hc] at hheld
      exact absurd hheld id
  | some f =>
      rw [hc] at hheld
      rw [hheld o hlt, contents_eq hc]

omit [DecidableEq ι] in
/-- The pieces that have a place are the resident ones. -/
theorem Told.resident_iff {st : MemoryStorage σ} {es : List (Event ℤ Byte)} (h : Told es st)
    (hl : Linked st) (p : ℤ) : Resident st p ↔ ∃ f, contents 0 es p = some f := by
  have hheld := h p
  rw [Libtorrent.resident_iff hl]
  cases hb : bufferOf st p <;> cases hc : contents 0 es p
  · simp
  · rw [hb, hc] at hheld
    exact absurd hheld id
  · rw [hb, hc] at hheld
    exact absurd hheld id
  · simp

end Steps

end Libtorrent
