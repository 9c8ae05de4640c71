/-
# Places that keys come to and leave

A key acquires a place, which is blank, values are stored there at offsets, and the key
is released.  `contents` says what each key holds after a list of such events, newest
event first; `latest` finds the value most recently stored for a key at an offset since
it last acquired a place.  The two agree (`contents_eq`).

The second half measures how much of a place has been stored to: the values stored
(`total`) are the offsets stored to (`covered`) and the values stored at an offset for
another time (`repeats`).
-/
import Mathlib

namespace Tenancy

variable {K V : Type*}

/-- What happens to places. -/
inductive Event (K V : Type*) where
  | acquire (k : K) : Event K V
  | store (k : K) (off : ℕ) (vs : List V) : Event K V
  | release (k : K) : Event K V

/-- What the keys hold that have a place. -/
abbrev Contents (K V : Type*) : Type _ := K → Option (ℕ → V)

/-- The values `vs` laid over `f` from `off` on. -/
def overlay (off : ℕ) (vs : List V) (f : ℕ → V) (o : ℕ) : V :=
  if off ≤ o then (vs[o - off]?).getD (f o) else f o

variable [DecidableEq K] (blank : V)

/-- What the keys hold behind an event. -/
def step (m : Contents K V) : Event K V → Contents K V
  | .acquire k => Function.update m k (some fun _ => blank)
  | .store k off vs => Function.update m k ((m k).map (overlay off vs))
  | .release k => Function.update m k none

/-- What the keys hold behind a list of events. -/
def contents : List (Event K V) → Contents K V
  | [] => fun _ => none
  | e :: es => step blank (contents es) e

/-- The value stored last for `k` at offset `o`, since `k` last acquired a place. -/
def latest : List (Event K V) → K → ℕ → Option V
  | [], _, _ => none
  | .acquire j :: es, k, o => if j = k then none else latest es k o
  | .release j :: es, k, o => if j = k then none else latest es k o
  | .store j off vs :: es, k, o =>
      if j = k ∧ off ≤ o ∧ o < off + vs.length then vs[o - off]? else latest es k o

variable {blank}

/-! ## Events one at a time -/

/-- Acquiring a place gives the key a blank one. -/
theorem contents_acquire (j : K) (es : List (Event K V)) (k : K) :
    contents blank (.acquire j :: es) k =
      if k = j then some fun _ => blank else contents blank es k := by
  show Function.update _ _ _ k = _
  rw [Function.update_apply]

/-- Storing changes what the key holds. -/
theorem contents_store (j : K) (off : ℕ) (vs : List V) (es : List (Event K V)) (k : K) :
    contents blank (.store j off vs :: es) k =
      if k = j then (contents blank es j).map (overlay off vs) else contents blank es k := by
  show Function.update _ _ _ k = _
  rw [Function.update_apply]

/-- Releasing a key takes its place away. -/
theorem contents_release (j : K) (es : List (Event K V)) (k : K) :
    contents blank (.release j :: es) k = if k = j then none else contents blank es k := by
  show Function.update _ _ _ k = _
  rw [Function.update_apply]

/-- Releasing many keys. -/
theorem contents_releases (ks : List K) (es : List (Event K V)) (k : K) :
    contents blank (ks.map .release ++ es) k = if k ∈ ks then none else contents blank es k := by
  induction ks with
  | nil => simp
  | cons j ks ih =>
      rw [List.map_cons, List.cons_append, contents_release, ih]
      by_cases hk : k = j
      · simp [hk]
      · simp [hk]

/-- **What a key holds is what was stored last**, and blank where nothing was. -/
theorem contents_eq {es : List (Event K V)} {k : K} {f : ℕ → V}
    (h : contents blank es k = some f) (o : ℕ) : f o = (latest es k o).getD blank := by
  induction es generalizing f with
  | nil => exact absurd h (by simp [contents])
  | cons e es ih =>
      cases e with
      | acquire j =>
          rw [contents_acquire] at h
          by_cases hk : k = j
          · rw [if_pos hk] at h
            obtain rfl := Option.some.inj h
            rw [latest, if_pos hk.symm, Option.getD_none]
          · rw [if_neg hk] at h
            rw [latest, if_neg (Ne.symm hk)]
            exact ih h
      | release j =>
          rw [contents_release] at h
          by_cases hk : k = j
          · rw [if_pos hk] at h
            exact absurd h (by simp)
          · rw [if_neg hk] at h
            rw [latest, if_neg (Ne.symm hk)]
            exact ih h
      | store j off vs =>
          rw [contents_store] at h
          by_cases hk : k = j
          · rw [if_pos hk, ← hk] at h
            obtain ⟨g, hg, rfl⟩ := Option.map_eq_some_iff.mp h
            rw [latest, overlay]
            by_cases ho : off ≤ o ∧ o < off + vs.length
            · have hlt : o - off < vs.length := by omega
              rw [if_pos ho.1, if_pos ⟨hk.symm, ho⟩, List.getElem?_eq_getElem hlt,
                Option.getD_some, Option.getD_some]
            · have hno : ¬(j = k ∧ off ≤ o ∧ o < off + vs.length) := fun hall => ho hall.2
              rw [if_neg hno, ← ih hg]
              split
              · rw [List.getElem?_eq_none (by omega), Option.getD_none]
              · rfl
          · rw [if_neg hk] at h
            rw [latest, if_neg (fun hall => hk hall.1.symm)]
            exact ih h

/-- Releasing keys changes nothing for the others. -/
theorem latest_releases {ks : List K} {k : K} (hk : k ∉ ks) (es : List (Event K V)) (o : ℕ) :
    latest (ks.map .release ++ es) k o = latest es k o := by
  induction ks with
  | nil => rfl
  | cons j ks ih =>
      obtain ⟨hj, hks⟩ := not_or.mp (fun hor => hk (List.mem_cons.mpr hor))
      rw [List.map_cons, List.cons_append, latest, if_neg (Ne.symm hj), ih hks]

/-! ## How much was stored -/

/-- The offsets stored to since `k` last acquired a place. -/
def covered : List (Event K V) → K → Finset ℕ
  | [], _ => ∅
  | .acquire j :: es, k => if j = k then ∅ else covered es k
  | .release j :: es, k => if j = k then ∅ else covered es k
  | .store j off vs :: es, k =>
      if j = k then covered es k ∪ Finset.Ico off (off + vs.length) else covered es k

/-- The number of values stored since then. -/
def total : List (Event K V) → K → ℕ
  | [], _ => 0
  | .acquire j :: es, k => if j = k then 0 else total es k
  | .release j :: es, k => if j = k then 0 else total es k
  | .store j _ vs :: es, k => if j = k then total es k + vs.length else total es k

/-- How many of these went to an offset that had been stored to. -/
def repeats : List (Event K V) → K → ℕ
  | [], _ => 0
  | .acquire j :: es, k => if j = k then 0 else repeats es k
  | .release j :: es, k => if j = k then 0 else repeats es k
  | .store j off vs :: es, k =>
      if j = k then repeats es k + (covered es k ∩ Finset.Ico off (off + vs.length)).card
      else repeats es k

/-- The covered offsets are those where something is found. -/
theorem mem_covered_iff (es : List (Event K V)) (k : K) (o : ℕ) :
    o ∈ covered es k ↔ (latest es k o).isSome = true := by
  induction es with
  | nil => simp [covered, latest]
  | cons e es ih =>
      cases e with
      | acquire j =>
          by_cases hj : j = k
          · simp [covered, latest, hj]
          · simpa [covered, latest, hj] using ih
      | release j =>
          by_cases hj : j = k
          · simp [covered, latest, hj]
          · simpa [covered, latest, hj] using ih
      | store j off vs =>
          by_cases hj : j = k
          · rw [covered, if_pos hj, Finset.mem_union, Finset.mem_Ico, ih, latest]
            by_cases ho : off ≤ o ∧ o < off + vs.length
            · have hlt : o - off < vs.length := by omega
              rw [if_pos ⟨hj, ho⟩, List.getElem?_eq_getElem hlt]
              simp [ho]
            · rw [if_neg (fun hall => ho hall.2)]
              simp [ho]
          · rw [covered, if_neg hj, ih, latest, if_neg (fun hall => hj hall.1)]

/-- **What is stored is covered or repeated.** -/
theorem total_eq (es : List (Event K V)) (k : K) :
    total es k = (covered es k).card + repeats es k := by
  induction es with
  | nil => rfl
  | cons e es ih =>
      cases e with
      | acquire j =>
          by_cases hj : j = k
          · simp [total, covered, repeats, hj]
          · simpa [total, covered, repeats, hj] using ih
      | release j =>
          by_cases hj : j = k
          · simp [total, covered, repeats, hj]
          · simpa [total, covered, repeats, hj] using ih
      | store j off vs =>
          by_cases hj : j = k
          · rw [total, covered, repeats, if_pos hj, if_pos hj, if_pos hj, ih]
            have hcard := Finset.card_union_add_card_inter (covered es k)
              (Finset.Ico off (off + vs.length))
            rw [Nat.card_Ico, Nat.add_sub_cancel_left] at hcard
            omega
          · rw [total, covered, repeats, if_neg hj, if_neg hj, if_neg hj, ih]

/-- Releasing keys counts nothing for the others. -/
theorem total_releases {ks : List K} {k : K} (hk : k ∉ ks) (es : List (Event K V)) :
    total (ks.map .release ++ es) k = total es k := by
  induction ks with
  | nil => rfl
  | cons j ks ih =>
      obtain ⟨hj, hks⟩ := not_or.mp (fun hor => hk (List.mem_cons.mpr hor))
      rw [List.map_cons, List.cons_append, total, if_neg (Ne.symm hj), ih hks]

/-- Nor does it change what is covered for them. -/
theorem covered_releases {ks : List K} {k : K} (hk : k ∉ ks) (es : List (Event K V)) :
    covered (ks.map .release ++ es) k = covered es k := by
  induction ks with
  | nil => rfl
  | cons j ks ih =>
      obtain ⟨hj, hks⟩ := not_or.mp (fun hor => hk (List.mem_cons.mpr hor))
      rw [List.map_cons, List.cons_append, covered, if_neg (Ne.symm hj), ih hks]

end Tenancy
