/-
# Splicing one list into another

`splice xs off ys` is `xs` with the elements from `off` on replaced by `ys`, the
effect of a `memcpy` into the middle of an array.  Two adjacent splices are one
splice of the concatenation, which is what a copy loop over a list of chunks
needs.  `scatter bufs data` is the loop the other way round: it fills the chunks of
`bufs` in order with the elements of `data`, until one of the two runs out.
-/
import Mathlib

namespace Splice

variable {α : Type*}

/-- `xs` with `ys` written over it from position `off` on. -/
def splice (xs : List α) (off : ℕ) (ys : List α) : List α :=
  xs.take off ++ ys ++ xs.drop (off + ys.length)

/-- Writing nothing changes nothing. -/
@[simp] theorem splice_nil (xs : List α) (off : ℕ) : splice xs off [] = xs := by
  simp [splice]

/-- A splice that fits keeps the length. -/
theorem length_splice {xs ys : List α} {off : ℕ} (h : off + ys.length ≤ xs.length) :
    (splice xs off ys).length = xs.length := by
  simp only [splice, List.length_append, List.length_take, List.length_drop]
  omega

/-- Before the written range nothing changes. -/
theorem getElem?_splice_lt {xs ys : List α} {off i : ℕ} (h : off + ys.length ≤ xs.length)
    (hi : i < off) : (splice xs off ys)[i]? = xs[i]? := by
  have hlen : (xs.take off).length = off := by
    rw [List.length_take]
    omega
  rw [splice, List.append_assoc, List.getElem?_append_left (by omega), List.getElem?_take,
    if_pos hi]

/-- Inside the written range the new elements stand. -/
theorem getElem?_splice_mid {xs ys : List α} {off i : ℕ} (h : off + ys.length ≤ xs.length)
    (hi : i < ys.length) : (splice xs off ys)[off + i]? = ys[i]? := by
  have hlen : (xs.take off).length = off := by
    rw [List.length_take]
    omega
  rw [splice, List.append_assoc, List.getElem?_append_right (by omega), hlen,
    Nat.add_sub_cancel_left, List.getElem?_append_left hi]

/-- Past the written range nothing changes. -/
theorem getElem?_splice_ge {xs ys : List α} {off i : ℕ} (h : off + ys.length ≤ xs.length)
    (hi : off + ys.length ≤ i) : (splice xs off ys)[i]? = xs[i]? := by
  have hlen : (xs.take off ++ ys).length = off + ys.length := by
    rw [List.length_append, List.length_take]
    omega
  rw [splice, List.getElem?_append_right (by omega), hlen, List.getElem?_drop]
  congr 1
  omega

/-- **Reading back a splice**, all three cases at once. -/
theorem getElem?_splice {xs ys : List α} {off : ℕ} (h : off + ys.length ≤ xs.length) (i : ℕ) :
    (splice xs off ys)[i]? =
      if off ≤ i ∧ i < off + ys.length then ys[i - off]? else xs[i]? := by
  split
  · rename_i hi
    obtain ⟨j, rfl⟩ : ∃ j, i = off + j := ⟨i - off, by omega⟩
    rw [getElem?_splice_mid h (by omega), Nat.add_sub_cancel_left]
  · rename_i hi
    rcases Nat.lt_or_ge i off with hlt | hge
    · exact getElem?_splice_lt h hlt
    · exact getElem?_splice_ge h (by omega)

/-- **Adjacent splices compose**: writing `ys` and then `zs` right behind it writes
`ys ++ zs`. -/
theorem splice_splice {xs ys zs : List α} {off : ℕ}
    (h : off + ys.length + zs.length ≤ xs.length) :
    splice (splice xs off ys) (off + ys.length) zs = splice xs off (ys ++ zs) := by
  have h₁ : off + ys.length ≤ xs.length := by omega
  have h₂ : off + ys.length + zs.length ≤ (splice xs off ys).length := by
    rw [length_splice h₁]
    exact h
  have h₃ : off + (ys ++ zs).length ≤ xs.length := by
    rw [List.length_append]
    omega
  apply List.ext_getElem?
  intro i
  rw [getElem?_splice h₂, getElem?_splice h₁, getElem?_splice h₃, List.length_append]
  by_cases hz : off + ys.length ≤ i ∧ i < off + ys.length + zs.length
  · rw [if_pos hz, if_pos (by omega), List.getElem?_append_right (by omega)]
    congr 1
    omega
  · by_cases hy : off ≤ i ∧ i < off + ys.length
    · rw [if_neg hz, if_pos hy, if_pos (by omega), List.getElem?_append_left (by omega)]
    · rw [if_neg hz, if_neg hy, if_neg (by omega)]

/-- The chunks of `bufs` overwritten in order by the elements of `data`. -/
def scatter : List (List α) → List α → List (List α)
  | [], _ => []
  | buf :: bufs, data =>
      splice buf 0 (data.take buf.length) :: scatter bufs (data.drop buf.length)

/-- Scattering keeps every chunk at its length. -/
theorem map_length_scatter (bufs : List (List α)) (data : List α) :
    (scatter bufs data).map List.length = bufs.map List.length := by
  induction bufs generalizing data with
  | nil => rfl
  | cons buf bufs ih =>
      have hfit : 0 + (data.take buf.length).length ≤ buf.length := by
        rw [List.length_take]
        omega
      simp only [scatter, List.map_cons, ih, length_splice hfit]

/-- **Scattering, seen through concatenation**: however the destination is split into
chunks, together they receive the data from the start, as far as it goes, and keep
the rest. -/
theorem flatten_scatter (bufs : List (List α)) (data : List α) :
    (scatter bufs data).flatten
      = splice bufs.flatten 0 (data.take bufs.flatten.length) := by
  induction bufs generalizing data with
  | nil => simp [scatter, splice]
  | cons buf bufs ih =>
      simp only [scatter, List.flatten_cons, ih, splice, List.take_zero, List.nil_append,
        Nat.zero_add, List.length_append, List.length_take, List.length_drop]
      rcases Nat.le_total data.length buf.length with hle | hge
      · -- the data ends inside the first chunk
        rw [List.drop_eq_nil_of_le hle, List.take_nil, List.nil_append,
          show data.length - buf.length = 0 by omega, Nat.min_zero, List.drop_zero,
          List.take_of_length_le hle, List.take_of_length_le (by omega),
          Nat.min_eq_right hle, Nat.min_eq_right (by omega : data.length ≤ _),
          List.drop_append_of_le_length hle, List.append_assoc]
      · rw [Nat.min_eq_left hge, List.drop_length, List.append_nil, List.take_add,
          List.append_assoc, List.drop_append,
          List.drop_of_length_le (by omega : buf.length ≤ _), List.nil_append,
          show min (buf.length + bufs.flatten.length) data.length - buf.length
            = min bufs.flatten.length (data.length - buf.length) by omega]

/-- With data enough, the chunks receive as much of it as they have room for. -/
theorem flatten_scatter_of_le {bufs : List (List α)} {data : List α}
    (h : bufs.flatten.length ≤ data.length) :
    (scatter bufs data).flatten = data.take bufs.flatten.length := by
  rw [flatten_scatter, splice, List.take_zero, List.nil_append, List.length_take,
    List.drop_of_length_le (by omega), List.append_nil]

end Splice
