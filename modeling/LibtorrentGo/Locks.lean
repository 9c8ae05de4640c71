/-
# Locks with an order

Processes are at stages, a stage holds some locks and waits for at most one.  `Held` says
that the owner of a lock is the process whose stage holds it, and `Held.move` that this is
kept when one process goes to another stage, taking the lock or giving it back.

Where every process that holds a lock waits only for locks of a higher rank, and ranks are
bounded, a process that waits has one behind it, the owner of the lock it waits for or the
owner of the lock that one waits for and so on, that does not wait (`exists_not_blocked`).
-/
import Mathlib

namespace Locks

variable {ι S L : Type*}

/-! ## Who holds a lock -/

/-- The owner of the lock is the process whose stage holds it. -/
def Held (owner : Option ι) (stage : ι → Option S) (holds : S → Bool) : Prop :=
  ∀ i, owner = some i ↔ ∃ s, stage i = some s ∧ holds s = true

/-- A lock nobody holds is free where no process is at any stage. -/
theorem held_none {stage : ι → Option S} (hs : ∀ i, stage i = none) (holds : S → Bool) :
    Held none stage holds := by
  intro i
  constructor
  · intro h
    exact absurd h (by simp)
  · rintro ⟨s, h, -⟩
    rw [hs i] at h
    exact absurd h (by simp)

/-- The process holds the lock, if it is at a stage that does. -/
def keeps (holds : S → Bool) (s : Option S) : Bool := s.any holds

/-- What a lock whose owner is `owner` becomes when process `i` goes from `s` to `s'`. -/
def passOn (holds : S → Bool) (owner : Option ι) (i : ι) (s s' : Option S) : Option ι :=
  if keeps holds s' = keeps holds s then owner
  else if keeps holds s' then some i else none

variable [DecidableEq ι]

/-- **A process that moves**, and waits for the lock it takes until that is free, passes it
on as it should. -/
theorem Held.move {holds : S → Bool} {owner : Option ι} {stage : ι → Option S}
    (h : Held owner stage holds) (i : ι) (s' : Option S)
    (hfree : keeps holds (stage i) = false → keeps holds s' = true → owner = none) :
    Held (passOn holds owner i (stage i) s') (Function.update stage i s') holds := by
  have hkeeps : ∀ j, owner = some j ↔ keeps holds (stage j) = true := by
    intro j
    rw [h j, keeps]
    cases hs : stage j with
    | none => simp
    | some s => simp
  have hgoal : ∀ j, passOn holds owner i (stage i) s' = some j ↔
      keeps holds (Function.update stage i s' j) = true := by
    intro j
    unfold passOn
    by_cases hji : j = i
    · subst hji
      rw [Function.update_self]
      cases hold : keeps holds (stage j) <;> cases hnew : keeps holds s'
      · simpa [hold] using hkeeps j
      · simp
      · simp
      · simpa [hold] using hkeeps j
    · rw [Function.update_of_ne hji]
      cases hold : keeps holds (stage i) <;> cases hnew : keeps holds s'
      · simpa using hkeeps j
      · -- the lock was free
        have hnone := hfree hold hnew
        have hj := hkeeps j
        rw [hnone] at hj
        have hij : ¬i = j := fun heq => hji heq.symm
        simpa [hij] using hj
      · -- the lock was the one of `i`
        have hi := (hkeeps i).mpr hold
        have hj := hkeeps j
        rw [hi] at hj
        have hij : ¬i = j := fun heq => hji heq.symm
        simpa [hij] using hj
      · simpa using hkeeps j
  intro j
  rw [hgoal j, keeps]
  cases Function.update stage i s' j with
  | none => simp
  | some s => simp

/-- How many processes are at a stage of the given kind. -/
def census [Fintype ι] (kind : S → Bool) (stage : ι → Option S) : ℕ :=
  (Finset.univ.filter fun i => keeps kind (stage i) = true).card

/-- **A process that moves** is counted where it goes and not where it was. -/
theorem census_move [Fintype ι] (kind : S → Bool) (stage : ι → Option S) (i : ι)
    (s' : Option S) :
    census kind (Function.update stage i s') + (if keeps kind (stage i) then 1 else 0) =
      census kind stage + (if keeps kind s' then 1 else 0) := by
  have hsplit : ∀ f : ι → Option S, census kind f =
      (if keeps kind (f i) then 1 else 0) +
        ∑ j ∈ Finset.univ.erase i, if keeps kind (f j) then 1 else 0 := by
    intro f
    rw [census, Finset.card_filter]
    exact (Finset.add_sum_erase _ _ (Finset.mem_univ i)).symm
  have hrest : ∑ j ∈ Finset.univ.erase i,
        (if keeps kind (Function.update stage i s' j) then 1 else 0) =
      ∑ j ∈ Finset.univ.erase i, if keeps kind (stage j) then 1 else 0 := by
    refine Finset.sum_congr rfl fun j hj => ?_
    rw [Function.update_of_ne (Finset.ne_of_mem_erase hj)]
  rw [hsplit, hsplit stage, Function.update_self, hrest]
  omega

omit [DecidableEq ι]

/-! ## Nobody waits for ever -/

/-- Process `i` waits for a lock that somebody owns. -/
def Blocked (owner : L → Option ι) (waits : ι → Option L) (i : ι) : Prop :=
  ∃ l, waits i = some l ∧ owner l ≠ none

/-- **No deadlock.**  If who holds a lock waits only for locks of a higher rank, and ranks are
bounded, then behind every process there is one that is not blocked: itself, or the owner of
a lock. -/
theorem exists_not_blocked {owner : L → Option ι} {waits : ι → Option L} {rank : L → ℕ}
    {bound : ℕ} (hbound : ∀ l, rank l ≤ bound)
    (horder : ∀ i l l', owner l = some i → waits i = some l' → rank l < rank l') (i : ι) :
    ∃ j, (j = i ∨ ∃ l, owner l = some j) ∧ ¬Blocked owner waits j := by
  -- an owner of a lock has such a process behind it, by induction on how far its rank is
  -- from the bound
  have owners : ∀ k l j, bound - rank l ≤ k → owner l = some j →
      ∃ j', (∃ l, owner l = some j') ∧ ¬Blocked owner waits j' := by
    intro k
    induction k with
    | zero =>
        intro l j hk hj
        refine ⟨j, ⟨l, hj⟩, ?_⟩
        rintro ⟨l', hw, -⟩
        have hlt := horder j l l' hj hw
        have hle := hbound l'
        omega
    | succ k ih =>
        intro l j hk hj
        by_cases hb : Blocked owner waits j
        · obtain ⟨l', hw, hne⟩ := hb
          obtain ⟨j', hj'⟩ := Option.ne_none_iff_exists'.mp hne
          have hlt := horder j l l' hj hw
          exact ih l' j' (by omega) hj'
        · exact ⟨j, ⟨l, hj⟩, hb⟩
  by_cases hb : Blocked owner waits i
  · obtain ⟨l, -, hne⟩ := hb
    obtain ⟨j, hj⟩ := Option.ne_none_iff_exists'.mp hne
    obtain ⟨j', hj', hnot⟩ := owners _ l j le_rfl hj
    exact ⟨j', Or.inr hj', hnot⟩
  · exact ⟨i, Or.inl rfl, hb⟩

end Locks
