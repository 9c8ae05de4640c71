/-
# Shelves

A shelf is a list of values that have keys, no two the same, the value used the longest
ago first.  `keep` puts a value at the end, in the place of the one with its key if there
is one, and `remove` takes the value with a key out.  Seen through `find` the two are
updates at one key (`find_keep`, `find_remove`); seen through the keys they are the touch
and the drop of a recency queue (`map_keep`, `map_remove`).
-/
import Mathlib

namespace Shelf

variable {α κ : Type*} [DecidableEq κ] (key : α → κ)

/-- The value with key `k`. -/
def find (k : κ) (l : List α) : Option α := l.find? fun a => key a = k

/-- The shelf without the value with key `k`. -/
def remove (k : κ) (l : List α) : List α := l.filter fun a => key a ≠ k

/-- The shelf with `a` as the value used last. -/
def keep (a : α) (l : List α) : List α := remove key (key a) l ++ [a]

variable {key}

/-! ## By key -/

/-- Something is found iff its key is on the shelf. -/
theorem find_isSome_iff {k : κ} {l : List α} : (find key k l).isSome = true ↔ k ∈ l.map key := by
  rw [find, List.find?_isSome, List.mem_map]
  simp

/-- Nothing is found iff the key is not on the shelf. -/
theorem find_eq_none_iff {k : κ} {l : List α} : find key k l = none ↔ k ∉ l.map key := by
  rw [← find_isSome_iff, Bool.not_eq_true, Option.isSome_eq_false_iff, Option.isNone_iff_eq_none]

/-- A value taken out is not found any more, and every other one is. -/
theorem find_remove (k j : κ) (l : List α) :
    find key j (remove key k l) = if j = k then none else find key j l := by
  by_cases hj : j = k
  · rw [if_pos hj, find, remove, List.find?_filter, List.find?_eq_none]
    intro a _
    simp [hj]
  · rw [if_neg hj, find, remove, List.find?_filter, find]
    congr 1
    funext a
    by_cases ha : key a = j
    · simp [ha, hj]
    · simp [ha]

/-- A value kept is found under its key, and every other one as before. -/
theorem find_keep (a : α) (j : κ) (l : List α) :
    find key j (keep key a l) = if j = key a then some a else find key j l := by
  unfold keep
  rw [find, List.find?_append]
  show (find key j (remove key (key a) l)).or _ = _
  rw [find_remove]
  by_cases hj : j = key a
  · simp [hj]
  · rw [if_neg hj, if_neg hj]
    cases find key j l with
    | some b => rfl
    | none =>
        rw [Option.none_or, List.find?_eq_none]
        intro b hb
        rw [List.mem_singleton.mp hb]
        simpa using Ne.symm hj

/-! ## The keys -/

/-- The keys behind a removal. -/
theorem map_remove (k : κ) (l : List α) :
    (remove key k l).map key = (l.map key).filter fun j => j ≠ k := by
  rw [remove, List.filter_map]
  rfl

/-- The keys behind a value that is kept. -/
theorem map_keep (a : α) (l : List α) :
    (keep key a l).map key = (l.map key).filter (fun j => j ≠ key a) ++ [key a] := by
  rw [keep, List.map_append, map_remove]
  rfl

/-- Removing a key that is not there changes nothing. -/
theorem remove_of_not_mem {k : κ} {l : List α} (h : k ∉ l.map key) : remove key k l = l := by
  apply List.filter_eq_self.mpr
  intro a ha
  apply decide_eq_true
  rintro rfl
  exact h (List.mem_map_of_mem ha)

/-- Removing a key that is there makes the shelf one shorter. -/
theorem length_remove {k : κ} {l : List α} (hnodup : (l.map key).Nodup) (h : k ∈ l.map key) :
    (remove key k l).length + 1 = l.length := by
  have hlength : (remove key k l).length = ((l.map key).filter fun j => j ≠ k).length := by
    rw [← map_remove, List.length_map]
  have herase : ((l.map key).filter fun j => j ≠ k) = (l.map key).erase k := by
    rw [hnodup.erase_eq_filter]
    apply List.filter_congr
    intro j _
    simp [bne, BEq.beq]
  rw [hlength, herase, List.length_erase_of_mem h, List.length_map]
  have hpos := List.length_pos_of_mem h
  rw [List.length_map] at hpos
  omega

/-- Keeping a value in the place of another one changes nothing in the length. -/
theorem length_keep {a : α} {l : List α} (hnodup : (l.map key).Nodup) (h : key a ∈ l.map key) :
    (keep key a l).length = l.length := by
  rw [keep, List.length_append, List.length_singleton]
  exact length_remove hnodup h

/-- A value with a new key makes the shelf one longer. -/
theorem keep_of_not_mem {a : α} {l : List α} (h : key a ∉ l.map key) :
    keep key a l = l ++ [a] := by
  rw [keep, remove_of_not_mem h]

end Shelf
