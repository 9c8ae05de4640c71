/-
# While loops with fuel

`loop guard body timeout n s` runs `while (guard) body` from `s` for at most `n`
rounds in the `Except` monad.  An iteration that raises an error raises it at
once; running out of rounds raises `timeout`, so that "the loop returns" reads
"some number of rounds is enough", and "the loop spins" reads "no number is".

The rules are the usual ones: a returned state was reached by rounds and the guard
fails there (`rounds_of_loop_eq_ok`), a variant gives termination (`loop_terminates`),
and a set of states the body cannot leave gives divergence (`loop_diverges`).
-/
import Mathlib

namespace WhileLoop

variable {S ε : Type*} (guard : S → Bool) (body : S → Except ε S) (timeout : ε)

/-- At most `n` rounds of `while (guard) body`. -/
def loop : ℕ → S → Except ε S
  | 0, s => if guard s then .error timeout else .ok s
  | n + 1, s =>
      if guard s then
        match body s with
        | .error e => .error e
        | .ok s' => loop n s'
      else .ok s

/-- One round that is entered and returns. -/
def Round (s s' : S) : Prop := guard s = true ∧ body s = .ok s'

variable {guard body timeout}

/-- A loop whose guard fails returns at once. -/
theorem loop_of_not_guard {s : S} (h : guard s = false) (n : ℕ) :
    loop guard body timeout n s = .ok s := by
  cases n <;> simp [loop, h]

/-- A loop whose guard holds runs its body first. -/
theorem loop_of_round {s s' : S} (h : Round guard body s s') (n : ℕ) :
    loop guard body timeout (n + 1) s = loop guard body timeout n s' := by
  simp [loop, h.1, h.2]

/-- A returned state was reached by rounds, and the guard fails there. -/
theorem rounds_of_loop_eq_ok {n : ℕ} {s s' : S} (h : loop guard body timeout n s = .ok s') :
    Relation.ReflTransGen (Round guard body) s s' ∧ guard s' = false := by
  induction n generalizing s with
  | zero =>
      cases hg : guard s with
      | true => simp [loop, hg] at h
      | false =>
          rw [loop_of_not_guard hg] at h
          obtain rfl := Except.ok.inj h
          exact ⟨.refl, hg⟩
  | succ n ih =>
      cases hg : guard s with
      | false =>
          rw [loop_of_not_guard hg] at h
          obtain rfl := Except.ok.inj h
          exact ⟨.refl, hg⟩
      | true =>
          cases hb : body s with
          | error e => simp [loop, hg, hb] at h
          | ok t =>
              rw [loop_of_round ⟨hg, hb⟩] at h
              obtain ⟨hrun, hexit⟩ := ih h
              exact ⟨.head ⟨hg, hb⟩ hrun, hexit⟩

/-- **Invariant rule.**  What every round preserves holds of the returned state. -/
theorem loop_invariant {I : S → Prop} (step : ∀ s s', I s → Round guard body s s' → I s')
    {n : ℕ} {s s' : S} (hs : I s) (h : loop guard body timeout n s = .ok s') : I s' := by
  obtain ⟨hrun, -⟩ := rounds_of_loop_eq_ok h
  clear h
  induction hrun with
  | refl => exact hs
  | tail _ hround ih => exact step _ _ ih hround

/-- **Error rule.**  Under an invariant that rules out an error of the body, the
loop does not raise that error either. -/
theorem loop_ne_error {I : S → Prop} {e : ε} (he : e ≠ timeout)
    (step : ∀ s s', I s → Round guard body s s' → I s')
    (safe : ∀ s, I s → guard s = true → body s ≠ .error e) {n : ℕ} {s : S} (hs : I s) :
    loop guard body timeout n s ≠ .error e := by
  induction n generalizing s with
  | zero =>
      cases hg : guard s with
      | true =>
          simp only [loop, hg, if_true]
          exact fun h => he (Except.error.inj h).symm
      | false => simp [loop, hg]
  | succ n ih =>
      cases hg : guard s with
      | false => simp [loop, hg]
      | true =>
          cases hb : body s with
          | error e' =>
              have hne := safe s hs hg
              rw [hb] at hne
              simpa [loop, hg, hb] using hne
          | ok t =>
              rw [loop_of_round ⟨hg, hb⟩]
              exact ih (step s t hs ⟨hg, hb⟩)

/-- **Termination rule.**  A loop whose every round returns and decreases a variant
returns. -/
theorem loop_terminates {I : S → Prop} (variant : S → ℕ)
    (step : ∀ s, I s → guard s = true →
      ∃ s', body s = .ok s' ∧ I s' ∧ variant s' < variant s) {s : S} (hs : I s) :
    ∃ n s', loop guard body timeout n s = .ok s' := by
  induction hk : variant s using Nat.strong_induction_on generalizing s with
  | _ k ih =>
      cases hg : guard s with
      | false => exact ⟨0, s, loop_of_not_guard hg 0⟩
      | true =>
          obtain ⟨t, hb, ht, hlt⟩ := step s hs hg
          obtain ⟨n, s', hn⟩ := ih (variant t) (by omega) ht rfl
          exact ⟨n + 1, s', by rw [loop_of_round ⟨hg, hb⟩, hn]⟩

/-- **Divergence rule.**  A loop that cannot leave a set of states in which its guard
holds exhausts any amount of fuel. -/
theorem loop_diverges {J : S → Prop} (guarded : ∀ s, J s → guard s = true)
    (step : ∀ s, J s → ∃ s', body s = .ok s' ∧ J s') {s : S} (hs : J s) (n : ℕ) :
    loop guard body timeout n s = .error timeout := by
  induction n generalizing s with
  | zero => simp [loop, guarded s hs]
  | succ n ih =>
      obtain ⟨t, hb, ht⟩ := step s hs
      rw [loop_of_round ⟨guarded s hs, hb⟩]
      exact ih ht

end WhileLoop
