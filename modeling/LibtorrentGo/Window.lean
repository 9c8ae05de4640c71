/-
# Windows on a recency queue

A queue of at most `k` keys that takes in one key more at its end loses the one at its front.
Used on its own it is a window on the queue that forgets nothing: the last `k` keys of it
(`rtake_toEnd`).  Of two such queues, the longer one is always ahead of the shorter one
(`Nested`): it has all the keys of the shorter one, in the same order, even if keys are moved
to the end where they are there to be moved (`Nested.hit`).
-/
import LibtorrentGo.Recency

namespace Recency

variable {α : Type*}

/-! ## The last keys -/

/-- The last keys of a queue lie in its second part, if that is long enough. -/
theorem rtake_append {p q : List α} {k : ℕ} (h : k ≤ q.length) :
    (p ++ q).rtake k = q.rtake k := by
  rw [List.rtake, List.rtake, List.length_append, List.drop_append,
    List.drop_eq_nil_of_le (by omega), List.nil_append]
  congr 1
  omega

/-- A queue that is not longer is its own window. -/
theorem rtake_eq_self {q : List α} {k : ℕ} (h : q.length ≤ k) : q.rtake k = q := by
  rw [List.rtake, Nat.sub_eq_zero_of_le h, List.drop_zero]

/-- A window is not longer than it may be. -/
theorem length_rtake_le (q : List α) (k : ℕ) : (q.rtake k).length ≤ k := by
  rw [List.rtake, List.length_drop]
  omega

/-- Dropping less of a longer list leaves more. -/
theorem drop_sublist_drop {q q' : List α} (h : q.Sublist q') {m n : ℕ} (hmn : n ≤ m) :
    (q.drop m).Sublist (q'.drop n) :=
  (List.drop_sublist_drop_left q hmn).trans (h.drop n)

section Moving

variable [DecidableEq α]

/-! ## Moving to the end -/

/-- The queue with `a` at its end. -/
def toEnd (a : α) (q : List α) : List α := q.filter (fun b => b ≠ a) ++ [a]

/-- A touch moves its key to the end. -/
theorem queue_touch (a : α) (es : List (Event α)) :
    queue (.touch a :: es) = toEnd a (queue es) := rfl

/-- The end is part of the queue. -/
@[simp] theorem mem_toEnd {a b : α} {q : List α} : b ∈ toEnd a q ↔ b = a ∨ b ∈ q := by
  simp only [toEnd, List.mem_append, List.mem_filter, List.mem_singleton, decide_eq_true_eq]
  by_cases h : b = a
  · simp [h]
  · simp [h]

/-- A key that was not there makes the queue longer. -/
theorem toEnd_of_not_mem {a : α} {q : List α} (h : a ∉ q) : toEnd a q = q ++ [a] := by
  rw [toEnd, List.filter_eq_self.mpr]
  intro b hb
  apply decide_eq_true
  rintro rfl
  exact h hb

/-- A key that was there leaves the queue as long as it was. -/
theorem length_toEnd {a : α} {q : List α} (hq : q.Nodup) (h : a ∈ q) :
    (toEnd a q).length = q.length := by
  have herase : q.filter (fun b => b ≠ a) = q.erase a := by
    rw [hq.erase_eq_filter]
    apply List.filter_congr
    intro b _
    by_cases hb : b = a <;> simp [hb]
  have hpos := List.length_pos_of_mem h
  rw [toEnd, herase, List.length_append, List.length_erase_of_mem h, List.length_singleton]
  omega

/-- A queue grows by one key at most. -/
theorem length_toEnd_le (a : α) (q : List α) : (toEnd a q).length ≤ q.length + 1 := by
  have hfilter := List.length_filter_le (fun b => decide (b ≠ a)) q
  rw [toEnd, List.length_append, List.length_singleton]
  omega

/-- No key is twice in the queue of any events. -/
theorem nodup_queue (es : List (Event α)) : (queue es).Nodup := (sorted_lastTouch es).nodup

/-! ## Windows -/

/-- **A window moves with its queue**: what it shows once a key was moved to the end it
would show as well if the keys it did not show had been forgotten. -/
theorem rtake_toEnd {q : List α} (hq : q.Nodup) (k : ℕ) (a : α) :
    (toEnd a (q.rtake k)).rtake k = (toEnd a q).rtake k := by
  rcases Nat.le_total q.length k with hle | hge
  · rw [rtake_eq_self hle]
  · set p := q.take (q.length - k) with hp
    have hsplit : q = p ++ q.rtake k := (List.take_append_drop (q.length - k) q).symm
    have hlength : (q.rtake k).length = k := by
      rw [List.rtake, List.length_drop]
      omega
    generalize q.rtake k = w at hsplit hlength
    rw [hsplit] at hq
    rw [hsplit, toEnd, toEnd, List.filter_append, List.append_assoc]
    by_cases hmem : a ∈ w
    · -- the key was shown, so the window is still full
      have hfull := length_toEnd hq.of_append_right hmem
      exact (rtake_append (by rw [← hlength, ← hfull]; rfl)).symm
    · cases k with
      | zero => rw [List.rtake_zero, List.rtake_zero]
      | succ j =>
          have hkeep : w.filter (fun b => b ≠ a) = w := by
            have hend := toEnd_of_not_mem hmem
            exact List.append_cancel_right hend
          rw [hkeep, ← List.append_assoc, List.rtake_concat_succ, List.rtake_concat_succ,
            rtake_append (by omega)]

end Moving

/-! ## Two windows -/

/-- The queue `q` of at most `k` keys lies in the queue `q'` of at most `k'`, and unless it is
full it is all of it. -/
structure Nested (k k' : ℕ) (q q' : List α) : Prop where
  sub : q.Sublist q'
  fill : q.length < k → q = q'
  fits : q.length ≤ k
  fits' : q'.length ≤ k'

/-- Both queues are empty at first. -/
theorem Nested.nil (k k' : ℕ) : Nested k k' ([] : List α) [] :=
  ⟨List.Sublist.refl [], fun _ => rfl, Nat.zero_le k, Nat.zero_le k'⟩

namespace Nested

variable [DecidableEq α] {k k' : ℕ} {q q' : List α}

/-- Moving a key to the end keeps one queue in the other. -/
theorem toEnd_sublist (h : q.Sublist q') (a : α) : (toEnd a q).Sublist (toEnd a q') :=
  (h.filter _).append (List.Sublist.refl [a])

/-- **A key that both queues take in**, dropping what does not fit any more. -/
theorem take (h : Nested k k' q q') (hle : k ≤ k') (hq : q'.Nodup) (a : α) :
    Nested k k' ((toEnd a q).rtake k) ((toEnd a q').rtake k') := by
  have hlen := length_toEnd_le a q
  have hlen' := length_toEnd_le a q'
  have hfits := h.fits
  have hfits' := h.fits'
  -- unless the shorter queue is full, the two are the same
  have hsame : q.length < k → (toEnd a q).rtake k = (toEnd a q').rtake k' := by
    intro hlt
    obtain rfl := h.fill hlt
    rw [rtake_eq_self (by omega), rtake_eq_self (by omega)]
  refine ⟨?_, ?_, length_rtake_le _ _, length_rtake_le _ _⟩
  · by_cases hlt : q.length < k
    · rw [hsame hlt]
    · apply drop_sublist_drop (toEnd_sublist h.sub a)
      by_cases hmem : a ∈ q
      · have heq' := length_toEnd hq (h.sub.subset hmem)
        omega
      · rw [toEnd_of_not_mem hmem, List.length_append, List.length_singleton]
        omega
  · intro hlt
    apply hsame
    have hpos : q.length ≤ (toEnd a q).length := by
      by_cases hmem : a ∈ q
      · exact (length_toEnd (hq.sublist h.sub) hmem).ge
      · rw [toEnd_of_not_mem hmem, List.length_append]
        exact Nat.le_add_right _ _
    rw [List.rtake, List.length_drop] at hlt
    omega

/-- **A key that is moved where it is there**, in one of the queues or in both. -/
theorem hit (h : Nested k k' q q') (hq : q'.Nodup) (a : α) :
    Nested k k' (if a ∈ q then toEnd a q else q) (if a ∈ q' then toEnd a q' else q') := by
  by_cases hmem : a ∈ q
  · have hmem' := h.sub.subset hmem
    rw [if_pos hmem, if_pos hmem']
    have hlen := length_toEnd (hq.sublist h.sub) hmem
    have hlen' := length_toEnd hq hmem'
    refine ⟨toEnd_sublist h.sub a, ?_, hlen.le.trans h.fits, hlen'.le.trans h.fits'⟩
    intro hlt
    rw [h.fill (by omega)]
  · rw [if_neg hmem]
    by_cases hmem' : a ∈ q'
    · rw [if_pos hmem']
      have hlen' := length_toEnd hq hmem'
      refine ⟨?_, ?_, h.fits, hlen'.le.trans h.fits'⟩
      · have hkeep := (toEnd_sublist h.sub a)
        rw [toEnd_of_not_mem hmem] at hkeep
        exact (List.sublist_append_left q [a]).trans hkeep
      · intro hlt
        exact absurd (h.fill hlt ▸ hmem') hmem
    · rw [if_neg hmem']
      exact h

end Nested

end Recency
