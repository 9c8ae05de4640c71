/-
# Scanning for the earliest element below a bound

`scan key xs best bound` goes through `xs` once and keeps the element whose key is
strictly below everything seen so far, `bound` included; elements without a key are
passed over.  The scan finds something iff some key is below the bound, and what it
finds is then a least element; of two with the same key the one that comes first.
-/
import Mathlib

namespace EarliestScan

variable {α τ : Type*} [LinearOrder τ]

/-- One pass through `xs` for the element with the least key below `bound`. -/
def scan (key : α → Option τ) : List α → Option α → τ → Option α
  | [], best, _ => best
  | x :: xs, best, bound =>
      match key x with
      | some t => if t < bound then scan key xs (some x) t else scan key xs best bound
      | none => scan key xs best bound

/-- A scan that found something keeps it or improves it. -/
theorem scan_some_isSome (key : α → Option τ) (xs : List α) (x : α) (bound : τ) :
    (scan key xs (some x) bound).isSome = true := by
  induction xs generalizing x bound with
  | nil => rfl
  | cons y xs ih =>
      unfold scan
      split
      · split
        · exact ih _ _
        · exact ih _ _
      · exact ih _ _

/-- **Completeness of the scan.**  Nothing is found iff no key is below the bound. -/
theorem scan_eq_none_iff (key : α → Option τ) (xs : List α) (bound : τ) :
    scan key xs none bound = none ↔ ∀ x ∈ xs, ∀ t, key x = some t → bound ≤ t := by
  induction xs with
  | nil => simp [scan]
  | cons y xs ih =>
      simp only [List.forall_mem_cons]
      cases hk : key y with
      | none =>
          simp only [scan, hk, ih]
          simp
      | some t =>
          simp only [scan, hk, Option.some.injEq, forall_eq']
          split
          · rename_i hlt
            have hsome := scan_some_isSome key xs y t
            constructor
            · intro h
              rw [h] at hsome
              exact absurd hsome (by simp)
            · rintro ⟨hle, -⟩
              exact absurd hlt (not_lt.mpr hle)
          · rename_i hge
            rw [ih]
            exact ⟨fun h => ⟨not_lt.mp hge, h⟩, fun h => h.2⟩

/-- `x` has the least key in `xs` and one below the bound, and it is the first to have it. -/
def FirstLeast (key : α → Option τ) (bound : τ) (xs : List α) (x : α) : Prop :=
  ∃ l₁ l₂ t, xs = l₁ ++ x :: l₂ ∧ key x = some t ∧ t < bound ∧
    (∀ y ∈ l₁, ∀ u, key y = some u → t < u) ∧ ∀ y ∈ l₂, ∀ u, key y = some u → t ≤ u

/-- A longer list has the same first least element when what is added in front is greater. -/
theorem FirstLeast.cons {key : α → Option τ} {bound bound' : τ} {xs : List α} {x y : α}
    (h : FirstLeast key bound xs x) (hb : bound ≤ bound')
    (hy : ∀ u, key y = some u → bound ≤ u) : FirstLeast key bound' (y :: xs) x := by
  obtain ⟨l₁, l₂, t, rfl, ht, hlt, hbefore, hbehind⟩ := h
  refine ⟨y :: l₁, l₂, t, rfl, ht, hlt.trans_le hb, ?_, hbehind⟩
  rw [List.forall_mem_cons]
  exact ⟨fun u hu => hlt.trans_le (hy u hu), hbefore⟩

/-- What a scan returns is what it came with, below which nothing was seen, or the first
least element below the bound. -/
theorem scan_eq_some {key : α → Option τ} {xs : List α} {best : Option α} {bound : τ} {x : α}
    (h : scan key xs best bound = some x) :
    (best = some x ∧ ∀ y ∈ xs, ∀ u, key y = some u → bound ≤ u) ∨
    FirstLeast key bound xs x := by
  induction xs generalizing best bound with
  | nil =>
      left
      exact ⟨h, fun y hy => absurd hy List.not_mem_nil⟩
  | cons y xs ih =>
      -- an element that is passed over bounds nothing from below
      have pass : (∀ u, key y = some u → bound ≤ u) →
          (best = some x ∧ ∀ z ∈ xs, ∀ u, key z = some u → bound ≤ u) ∨
            FirstLeast key bound xs x →
          (best = some x ∧ ∀ z ∈ y :: xs, ∀ u, key z = some u → bound ≤ u) ∨
            FirstLeast key bound (y :: xs) x := by
        rintro hy (⟨hbest, hall⟩ | hfirst)
        · exact Or.inl ⟨hbest, List.forall_mem_cons.mpr ⟨hy, hall⟩⟩
        · exact Or.inr (hfirst.cons le_rfl hy)
      cases hk : key y with
      | none =>
          simp only [scan, hk] at h
          exact pass (fun u hu => by simp [hk] at hu) (ih h)
      | some t =>
          simp only [scan, hk] at h
          split at h
          · rename_i hlt
            right
            rcases ih h with ⟨hbest, hall⟩ | hfirst
            · obtain rfl := Option.some.inj hbest
              exact ⟨[], xs, t, rfl, hk, hlt, by simp, hall⟩
            · refine hfirst.cons hlt.le (fun u hu => ?_)
              rw [hk] at hu
              exact (Option.some.inj hu).le
          · rename_i hge
            refine pass (fun u hu => ?_) (ih h)
            rw [hk] at hu
            obtain rfl := Option.some.inj hu
            exact not_lt.mp hge

/-- **Soundness of the scan.**  What is found is the first element with the least key, and
that is below the bound. -/
theorem scan_none_eq_some {key : α → Option τ} {xs : List α} {bound : τ} {x : α}
    (h : scan key xs none bound = some x) : FirstLeast key bound xs x := by
  rcases scan_eq_some h with ⟨habs, -⟩ | hfound
  · exact absurd habs (by simp)
  · exact hfound

end EarliestScan
