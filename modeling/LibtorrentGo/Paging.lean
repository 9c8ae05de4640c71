/-
# Paging

Requests for keys come one after another.  `recent k` keeps the `k` keys requested last, the
newest one first, and `misses k` counts the requests for keys it has not kept.  Any other way
of serving the requests holds at most `m` keys at a time, among them the one just requested,
and fetches what it did not hold before (`Served`).

However it foresees the requests, it does not do much better: with `m ≤ k`, the misses are at
most `k / (k + 1 - m)` times its fetches, but for what it takes to fill `k` places
(`misses_le`).  The proof weighs the keys kept that the other one does not hold (`weight`), the
newest one with `k` and the oldest one with 1 at least.
-/
import LibtorrentGo.Window

namespace Paging

variable {α : Type*} [DecidableEq α]

/-! ## Requests -/

/-- The `k` keys requested last, the newest one first; the requests come newest first. -/
def recent (k : ℕ) : List α → List α
  | [] => []
  | a :: as => (a :: (recent k as).erase a).take k

/-- The requests for keys that were not among the `k` keys requested last before. -/
def misses (k : ℕ) : List α → ℕ
  | [] => 0
  | a :: as => misses k as + if a ∈ recent k as then 0 else 1

/-- `S` is held behind the requests by one who held at most `m` keys at a time, each of them when
it was requested, and fetched `n` keys in all. -/
inductive Served (m : ℕ) : List α → Finset α → ℕ → Prop
  | start : Served m [] ∅ 0
  | next {as : List α} {S T : Finset α} {n : ℕ} (a : α) : Served m as S n → a ∈ T → T.card ≤ m →
      Served m (a :: as) T (n + (T \ S).card)

/-- No more than `k` keys are kept. -/
theorem length_recent_le (k : ℕ) (as : List α) : (recent k as).length ≤ k := by
  cases as with
  | nil => exact Nat.zero_le k
  | cons a as => exact List.length_take_le k _

/-- No key is kept twice. -/
theorem nodup_recent (k : ℕ) (as : List α) : (recent k as).Nodup := by
  induction as with
  | nil => exact List.nodup_nil
  | cons a as ih =>
      have hcons : (a :: (recent k as).erase a).Nodup :=
        List.nodup_cons.mpr ⟨ih.not_mem_erase, ih.erase a⟩
      exact hcons.sublist (List.take_sublist k _)

/-- **The keys requested last are a window** on the recency queue of the requests. -/
theorem recent_eq (k : ℕ) (as : List α) :
    recent k as = ((Recency.queue (as.map .touch)).rtake k).reverse := by
  induction as with
  | nil => simp [recent, Recency.queue]
  | cons a as ih =>
      have herase : ∀ l : List α, l.Nodup →
          (l.reverse.erase a).reverse = l.filter fun b => b ≠ a := by
        intro l hl
        rw [(List.nodup_reverse.mpr hl).erase_eq_filter, ← List.filter_reverse,
          List.reverse_reverse]
        apply List.filter_congr
        intro b _
        by_cases hb : b = a <;> simp [hb]
      set w := (Recency.queue (as.map .touch)).rtake k with hw
      have hnodup : w.Nodup := (Recency.nodup_queue _).sublist (List.drop_sublist _ _)
      have hend : Recency.toEnd a w = (a :: w.reverse.erase a).reverse := by
        rw [Recency.toEnd, ← herase w hnodup, List.reverse_cons]
      rw [List.map_cons, Recency.queue_touch, ← Recency.rtake_toEnd (Recency.nodup_queue _) k a,
        ← hw, hend, recent, ih, List.rtake_eq_reverse_take_reverse, List.reverse_reverse,
        List.reverse_reverse]

/-! ## Weights -/

/-- The keys of `l` that are not in `S`, the first of them weighed with `k` if it is the first
key of `l`, with one less if it is the second, and so on. -/
def weight (S : Finset α) : ℕ → List α → ℕ
  | _, [] => 0
  | k, x :: xs => (if x ∈ S then 0 else k) + weight S (k - 1) xs

/-- Nothing is weighed with 0. -/
theorem weight_zero (S : Finset α) (l : List α) : weight S 0 l = 0 := by
  induction l with
  | nil => rfl
  | cons x xs ih => simp [weight, ih]

/-- Keys behind the first `k` weigh nothing. -/
theorem weight_take (S : Finset α) (k : ℕ) (l : List α) : weight S k (l.take k) = weight S k l := by
  induction l generalizing k with
  | nil => rw [List.take_nil]
  | cons x xs ih =>
      cases k with
      | zero => rw [weight_zero, weight_zero]
      | succ k => rw [List.take_succ_cons, weight, weight, Nat.add_sub_cancel, ih]

/-- Greater weights weigh more. -/
theorem weight_mono (S : Finset α) {j k : ℕ} (h : j ≤ k) (l : List α) :
    weight S j l ≤ weight S k l := by
  induction l generalizing j k with
  | nil => exact le_rfl
  | cons x xs ih =>
      have htail := ih (Nat.sub_le_sub_right h 1)
      simp only [weight]
      split <;> omega

/-- **Every key that is weighed** loses one when all weights do. -/
theorem weight_pred (S : Finset α) {k : ℕ} {l : List α} (h : l.length ≤ k) :
    weight S (k - 1) l + (l.filter fun x => x ∉ S).length = weight S k l := by
  induction l generalizing k with
  | nil => rfl
  | cons x xs ih =>
      have hlength : xs.length + 1 ≤ k := h
      have htail := ih (show xs.length ≤ k - 1 by omega)
      by_cases hx : x ∈ S
      · simp only [weight, hx, if_true, List.filter_cons, not_true_eq_false, decide_false,
          Bool.false_eq_true, if_false]
        omega
      · simp only [weight, hx, if_false, List.filter_cons, not_false_eq_true, decide_true, if_true,
          List.length_cons]
        omega

/-- A key that is moved to the front without being weighed makes nothing heavier. -/
theorem weight_erase_le {S : Finset α} {a : α} (ha : a ∈ S) (k : ℕ) {l : List α} (hl : a ∈ l) :
    weight S k (a :: l.erase a) ≤ weight S k l := by
  induction l generalizing k with
  | nil => exact absurd hl List.not_mem_nil
  | cons x xs ih =>
      by_cases hx : x = a
      · rw [hx, List.erase_cons_head]
      · have hxs : a ∈ xs := (List.mem_cons.mp hl).resolve_left (Ne.symm hx)
        have htail := ih (k - 1) hxs
        rw [List.erase_cons_tail (by simpa using hx)]
        simp only [weight, ha, if_true, Nat.zero_add] at htail ⊢
        split <;> omega

/-- Keys that are let go are weighed, with `k` at most. -/
theorem weight_sdiff (S T : Finset α) (k : ℕ) {l : List α} (hl : l.Nodup) :
    weight T k l ≤ weight S k l + k * (S \ T).card := by
  have hcount : weight T k l ≤ weight S k l + k * (l.filter fun x => x ∈ S \ T).length := by
    clear hl
    induction l generalizing k with
    | nil => exact Nat.zero_le _
    | cons x xs ih =>
        have htail := ih (k - 1)
        have hmono : (k - 1) * (xs.filter fun x => x ∈ S \ T).length ≤
            k * (xs.filter fun x => x ∈ S \ T).length := Nat.mul_le_mul_right _ (Nat.sub_le k 1)
        by_cases hx : x ∈ S \ T
        · have hlength : ((x :: xs).filter fun x => x ∈ S \ T).length =
              (xs.filter fun x => x ∈ S \ T).length + 1 := by
            rw [List.filter_cons, if_pos (by simpa using hx), List.length_cons]
          rw [hlength, Nat.mul_succ]
          simp only [weight]
          split <;> split <;> omega
        · have hkeep : ((x :: xs).filter fun x => x ∈ S \ T) = xs.filter fun x => x ∈ S \ T :=
            List.filter_cons_of_neg (by simpa using hx)
          have hin : x ∈ S → x ∈ T := fun hS => by
            by_contra hT
            exact hx (Finset.mem_sdiff.mpr ⟨hS, hT⟩)
          rw [hkeep]
          simp only [weight]
          split
          · split <;> omega
          · rename_i hT
            rw [if_neg (fun hS => hT (hin hS))]
            omega
  refine hcount.trans (Nat.add_le_add_left (Nat.mul_le_mul_left k ?_) _)
  rw [← List.toFinset_card_of_nodup (hl.filter _)]
  apply Finset.card_le_card
  intro x hx
  exact of_decide_eq_true (List.mem_filter.mp (List.mem_toFinset.mp hx)).2

/-! ## Against any other -/

/-- When `k` keys are kept, as many are weighed as the other one can not hold. -/
theorem le_length_filter {S : Finset α} {k m : ℕ} {l : List α} (hl : l.Nodup) (hk : l.length = k)
    (hm : S.card ≤ m) {a : α} (ha : a ∈ S) (hnot : a ∉ l) :
    k + 1 - m ≤ (l.filter fun x => x ∉ S).length := by
  have hsplit := List.length_eq_length_filter_add (l := l) fun x => decide (x ∈ S)
  have hheld : (l.filter fun x => x ∈ S).length ≤ S.card - 1 := by
    rw [← List.toFinset_card_of_nodup (hl.filter _), ← Finset.card_erase_of_mem ha]
    apply Finset.card_le_card
    intro x hx
    obtain ⟨hxl, hxS⟩ := List.mem_filter.mp (List.mem_toFinset.mp hx)
    refine Finset.mem_erase.mpr ⟨?_, of_decide_eq_true hxS⟩
    rintro rfl
    exact hnot hxl
  have hpos := Finset.card_pos.mpr ⟨a, ha⟩
  have hrest : (l.filter fun x => !decide (x ∈ S)).length = (l.filter fun x => x ∉ S).length := by
    congr 1
    apply List.filter_congr
    intro x _
    simp
  omega

/-- **One request.**  What is kept grows heavier by nothing, and on a miss it grows lighter by
what the other one can not hold, or longer. -/
theorem weight_recent {S : Finset α} (k : ℕ) {m : ℕ} (as : List α) {a : α} (ha : a ∈ S)
    (hm : S.card ≤ m) :
    (k + 1 - m) * (if a ∈ recent k as then 0 else 1) + weight S k (recent k (a :: as)) +
        (k + 1 - m) * (recent k as).length ≤
      weight S k (recent k as) + (k + 1 - m) * (recent k (a :: as)).length := by
  have hnodup := nodup_recent k as
  have hlength := length_recent_le k as
  have hpos := Finset.card_pos.mpr ⟨a, ha⟩
  set l := recent k as with hl
  rw [recent, ← hl, weight_take, List.length_take, List.length_cons]
  by_cases hmem : a ∈ l
  · have hlen := List.length_pos_of_mem hmem
    have hweight := weight_erase_le ha k hmem
    rw [if_pos hmem, List.length_erase_of_mem hmem, min_eq_right (by omega),
      Nat.sub_add_cancel hlen]
    omega
  · have hnew : weight S k (a :: l) = weight S (k - 1) l := by
      rw [weight, if_pos ha, Nat.zero_add]
    rw [if_neg hmem, List.erase_of_not_mem hmem, hnew, Nat.mul_one]
    by_cases hfull : l.length = k
    · have hlight := weight_pred S hlength
      have hmany := le_length_filter hnodup hfull hm ha hmem
      rw [min_eq_left (by omega), hfull]
      omega
    · have hmono := weight_mono S (Nat.sub_le k 1) l
      rw [min_eq_right (by omega), Nat.mul_succ]
      omega

/-- **No way of serving the requests does much better** than to keep the keys requested last. -/
theorem misses_le (k : ℕ) {m n : ℕ} {as : List α} {S : Finset α} (h : Served m as S n) :
    (k + 1 - m) * misses k as + k * S.card ≤ k * n + (k + 1 - m) * (recent k as).length := by
  -- the weight of what the other one does not hold is paid for by its fetches
  suffices hpaid : (k + 1 - m) * misses k as + weight S k (recent k as) + k * S.card ≤
      k * n + (k + 1 - m) * (recent k as).length by omega
  induction h with
  | start => simp [misses, recent, weight]
  | @next as S T n a hserved ha hm ih =>
      have hrequest := weight_recent k as ha hm
      have hmoved := weight_sdiff S T k (nodup_recent k as)
      have hcards : k * T.card + k * (S \ T).card = k * (T \ S).card + k * S.card := by
        rw [← Nat.mul_add, ← Nat.mul_add, Finset.card_sdiff_add_card, Nat.add_comm T.card,
          Finset.card_sdiff_add_card, Finset.union_comm]
      rw [misses, Nat.mul_add, Nat.mul_add]
      omega

end Paging
