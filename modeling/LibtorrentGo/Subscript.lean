/-
# Arrays subscripted by signed integers

A C++ program subscripts its vectors with plain `int`s and keeps `-1` for "no
such element".  Here a vector is a list and the subscript an integer: `at?`
reads an element, `put` overwrites one, and both treat a negative subscript
like one past the end.

The lemmas are the read-over-write laws, the counting law of an overwrite, and
extensionality; nothing in this file depends on what is stored.
-/
import Mathlib

namespace Subscript

variable {α : Type*}

/-! ## Reading -/

/-- The element at an integer subscript, if the subscript is in range. -/
def at? (xs : List α) (i : ℤ) : Option α :=
  if 0 ≤ i then xs[i.toNat]? else none

/-- A natural subscript reads what the list reads. -/
@[simp] theorem at?_natCast (xs : List α) (n : ℕ) : at? xs (n : ℤ) = xs[n]? := by
  simp [at?]

/-- A read that succeeds was in range. -/
theorem at?_eq_some_bounds {xs : List α} {i : ℤ} {a : α} (h : at? xs i = some a) :
    0 ≤ i ∧ i < xs.length := by
  unfold at? at h
  split at h
  · rename_i hi
    obtain ⟨hlt, -⟩ := List.getElem?_eq_some_iff.mp h
    omega
  · exact absurd h (by simp)

/-- A read in range succeeds. -/
theorem exists_at?_eq_some {xs : List α} {i : ℤ} (h0 : 0 ≤ i) (h1 : i < xs.length) :
    ∃ a, at? xs i = some a := by
  have hlt : i.toNat < xs.length := by omega
  exact ⟨xs[i.toNat], by rw [at?, if_pos h0, List.getElem?_eq_getElem hlt]⟩

/-- A read fails exactly when the subscript is out of range. -/
theorem at?_eq_none_iff {xs : List α} {i : ℤ} :
    at? xs i = none ↔ i < 0 ∨ (xs.length : ℤ) ≤ i := by
  unfold at?
  split
  · rw [List.getElem?_eq_none_iff]
    omega
  · simp only [true_iff]
    omega

/-- What is read is an element of the list. -/
theorem mem_of_at? {xs : List α} {i : ℤ} {a : α} (h : at? xs i = some a) : a ∈ xs := by
  unfold at? at h
  split at h
  · exact List.mem_of_getElem? h
  · exact absurd h (by simp)

/-- Every element of the list is read at some subscript. -/
theorem exists_at?_of_mem {xs : List α} {a : α} (h : a ∈ xs) : ∃ i, at? xs i = some a := by
  obtain ⟨n, hn⟩ := List.mem_iff_getElem?.mp h
  exact ⟨(n : ℤ), by rw [at?_natCast, hn]⟩

/-! ## Overwriting -/

/-- The list with the element at an integer subscript replaced. -/
def put (xs : List α) (i : ℤ) (a : α) : List α :=
  if 0 ≤ i then xs.set i.toNat a else xs

@[simp] theorem length_put (xs : List α) (i : ℤ) (a : α) : (put xs i a).length = xs.length := by
  unfold put
  split <;> simp

/-- The overwritten element is what was put there. -/
theorem at?_put_self {xs : List α} {i : ℤ} {b : α} (h : at? xs i = some b) (a : α) :
    at? (put xs i a) i = some a := by
  obtain ⟨h0, h1⟩ := at?_eq_some_bounds h
  have hlt : i.toNat < xs.length := by omega
  rw [at?, put, if_pos h0, if_pos h0, List.getElem?_set_self hlt]

/-- Every other element is untouched. -/
theorem at?_put_ne {xs : List α} {i j : ℤ} (h : i ≠ j) (a : α) :
    at? (put xs i a) j = at? xs j := by
  unfold at? put
  split
  · split
    · rw [List.getElem?_set_ne (by omega)]
    · rfl
  · rfl

/-- Reading back after an overwrite, both cases at once. -/
theorem at?_put {xs : List α} {i : ℤ} {b : α} (h : at? xs i = some b) (a : α) (j : ℤ) :
    at? (put xs i a) j = if j = i then some a else at? xs j := by
  split
  · rename_i hj
    rw [hj, at?_put_self h]
  · rename_i hj
    exact at?_put_ne (fun e => hj e.symm) a

/-- Putting back what was there changes nothing. -/
theorem put_at? {xs : List α} {i : ℤ} {a : α} (h : at? xs i = some a) : put xs i a = xs := by
  obtain ⟨h0, h1⟩ := at?_eq_some_bounds h
  rw [at?, if_pos h0] at h
  obtain ⟨hlt, hval⟩ := List.getElem?_eq_some_iff.mp h
  rw [put, if_pos h0, ← hval, List.set_getElem_self]

/-- The later of two overwrites of one element wins. -/
@[simp] theorem put_put (xs : List α) (i : ℤ) (a b : α) : put (put xs i a) i b = put xs i b := by
  unfold put
  split
  · rw [List.set_set]
  · rfl

/-! ## Counting and comparing -/

/-- Overwriting one element moves a count by that element alone. -/
theorem countP_put {xs : List α} {i : ℤ} {b : α} (h : at? xs i = some b) (a : α) (p : α → Bool) :
    (put xs i a).countP p + (if p b then 1 else 0) = xs.countP p + (if p a then 1 else 0) := by
  obtain ⟨h0, -⟩ := at?_eq_some_bounds h
  rw [at?, if_pos h0] at h
  obtain ⟨hlt, hval⟩ := List.getElem?_eq_some_iff.mp h
  rw [put, if_pos h0, List.countP_set hlt, hval]
  have hpos : (if p b then 1 else 0) ≤ xs.countP p := by
    split
    · rename_i hb
      exact List.countP_pos_iff.mpr ⟨b, List.mem_of_getElem? h, hb⟩
    · exact Nat.zero_le _
  omega

/-- Two lists that read alike everywhere are equal. -/
theorem ext_at? {xs ys : List α} (h : ∀ i, at? xs i = at? ys i) : xs = ys := by
  apply List.ext_getElem?
  intro n
  simpa using h n

/-- Reading an extended list inside its old part. -/
theorem at?_append_left {xs : List α} (ys : List α) {i : ℤ} (h : i < xs.length) :
    at? (xs ++ ys) i = at? xs i := by
  unfold at?
  split
  · rw [List.getElem?_append_left (by omega)]
  · rfl

/-- Reading an extended list past its old part. -/
theorem at?_append_right (xs ys : List α) {i : ℤ} (h : (xs.length : ℤ) ≤ i) :
    at? (xs ++ ys) i = at? ys (i - xs.length) := by
  unfold at?
  rw [if_pos (by omega), if_pos (by omega), List.getElem?_append_right (by omega)]
  congr 1
  omega

/-! ## Mapped and generated lists -/

/-- Reading a mapped list. -/
@[simp] theorem at?_map {β : Type*} (f : α → β) (xs : List α) (i : ℤ) :
    at? (xs.map f) i = (at? xs i).map f := by
  unfold at?
  split
  · rw [List.getElem?_map]
  · rfl

/-- Overwriting an element by one with the same image leaves the mapped list alone. -/
theorem map_put_of_eq {β : Type*} {f : α → β} {xs : List α} {i : ℤ} {a b : α}
    (h : at? xs i = some b) (hf : f a = f b) : (put xs i a).map f = xs.map f := by
  apply ext_at?
  intro j
  rw [at?_map, at?_map, at?_put h]
  split
  · rename_i hj
    rw [hj, h, Option.map_some, Option.map_some, hf]
  · rfl

/-- Reading a list that was generated from its subscripts. -/
theorem at?_map_range (n : ℕ) (f : ℕ → α) (i : ℤ) :
    at? ((List.range n).map f) i = if 0 ≤ i ∧ i < n then some (f i.toNat) else none := by
  rw [at?_map]
  split
  · rename_i h
    rw [at?, if_pos h.1, List.getElem?_range (by omega), Option.map_some]
  · rename_i h
    rw [at?_eq_none_iff.mpr (by rw [List.length_range]; omega), Option.map_none]

/-! ## Counting by subscripts -/

/-- The subscripts of the elements that satisfy `p` are finitely many. -/
theorem finite_subscripts (xs : List α) (p : α → Bool) :
    {i : ℤ | ∃ a, at? xs i = some a ∧ p a = true}.Finite := by
  apply (Set.finite_Ico (0 : ℤ) xs.length).subset
  rintro i ⟨a, ha, -⟩
  exact at?_eq_some_bounds ha

/-- Counting elements is counting their subscripts. -/
theorem countP_eq_ncard (xs : List α) (p : α → Bool) :
    xs.countP p = {i : ℤ | ∃ a, at? xs i = some a ∧ p a = true}.ncard := by
  induction xs using List.reverseRecOn with
  | nil =>
      have hempty : {i : ℤ | ∃ a, at? ([] : List α) i = some a ∧ p a = true} = ∅ := by
        ext i
        simp [at?]
      rw [hempty, Set.ncard_empty, List.countP_nil]
  | append_singleton xs a ih =>
      have hsplit : ∀ (i : ℤ) (c : α), at? (xs ++ [a]) i = some c ↔
          at? xs i = some c ∨ (i = xs.length ∧ c = a) := by
        intro i c
        rcases lt_trichotomy i xs.length with hlt | rfl | hgt
        · rw [at?_append_left _ hlt]
          simp [hlt.ne]
        · rw [at?_append_right _ _ le_rfl, sub_self, at?_eq_none_iff.mpr (Or.inr le_rfl)]
          simp [at?, eq_comm]
        · have h1 : at? (xs ++ [a]) i = none := by
            rw [at?_eq_none_iff, List.length_append, List.length_singleton]
            right
            push_cast
            omega
          rw [h1, at?_eq_none_iff.mpr (Or.inr hgt.le)]
          simp [hgt.ne']
      rw [List.countP_append, ih]
      cases hp : p a with
      | false =>
          rw [List.countP_singleton, hp, if_neg (by simp), add_zero]
          congr 1
          ext i
          simp only [Set.mem_ofPred_eq, hsplit]
          constructor
          · rintro ⟨c, hc, hpc⟩
            exact ⟨c, Or.inl hc, hpc⟩
          · rintro ⟨c, hc | ⟨-, rfl⟩, hpc⟩
            · exact ⟨c, hc, hpc⟩
            · rw [hp] at hpc
              exact absurd hpc (by simp)
      | true =>
          have hinsert : {i : ℤ | ∃ c, at? (xs ++ [a]) i = some c ∧ p c = true} =
              insert (xs.length : ℤ) {i : ℤ | ∃ c, at? xs i = some c ∧ p c = true} := by
            ext i
            simp only [Set.mem_ofPred_eq, Set.mem_insert_iff, hsplit]
            constructor
            · rintro ⟨c, hc | ⟨hi, -⟩, hpc⟩
              · exact Or.inr ⟨c, hc, hpc⟩
              · exact Or.inl hi
            · rintro (hi | ⟨c, hc, hpc⟩)
              · exact ⟨a, Or.inr ⟨hi, rfl⟩, hp⟩
              · exact ⟨c, Or.inl hc, hpc⟩
          have hnot : (xs.length : ℤ) ∉ {i : ℤ | ∃ c, at? xs i = some c ∧ p c = true} := by
            rintro ⟨c, hc, -⟩
            exact absurd (at?_eq_some_bounds hc).2 (lt_irrefl _)
          rw [hinsert, Set.ncard_insert_of_notMem hnot (finite_subscripts xs p),
            List.countP_singleton, hp, if_pos rfl]

end Subscript
