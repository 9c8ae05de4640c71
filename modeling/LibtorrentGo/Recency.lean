/-
# Recency queues

Keys are touched and dropped in the course of a history (`Event`, newest first).  `queue`
keeps the keys in use in the order of their last touches: a touch moves its key to the end,
a drop takes it out.  A policy with two classes takes the first low key of the queue that is
not spared, and for lack of one the first key that is not spared (`victim`).

A program that stamps its keys instead of queueing them finds the same victim as long as the
stamps increase along the queue (`victim_eq_some_iff`), which touches and drops preserve
(`sorted_touch`, `sorted_drops`).  That the queue is in the order of the last touches is a
case of this (`sorted_lastTouch`).
-/
import Mathlib

namespace Recency

variable {α κ : Type*}

/-! ## Queues -/

/-- What happens to a key. -/
inductive Event (α : Type*) where
  | touch (a : α) : Event α
  | drop (a : α) : Event α
  deriving DecidableEq, Repr

section Queue

variable [DecidableEq α]

/-- The keys in use, the least recently touched one first. -/
def queue : List (Event α) → List α
  | [] => []
  | .touch a :: es => (queue es).filter (fun b => b ≠ a) ++ [a]
  | .drop a :: es => (queue es).filter fun b => b ≠ a

/-- How long the history was when a key was last touched. -/
def lastTouch (a : α) : List (Event α) → ℕ
  | [] => 0
  | .touch b :: es => if a = b then es.length + 1 else lastTouch a es
  | .drop _ :: es => lastTouch a es

/-- A touched key is in the queue. -/
@[simp] theorem mem_queue_touch (a b : α) (es : List (Event α)) :
    b ∈ queue (.touch a :: es) ↔ b = a ∨ b ∈ queue es := by
  simp only [queue, List.mem_append, List.mem_filter, List.mem_singleton, decide_eq_true_eq]
  by_cases h : b = a
  · simp [h]
  · simp [h]

/-- Dropping several keys. -/
theorem queue_drops (as : List α) (es : List (Event α)) :
    queue (as.map .drop ++ es) = (queue es).filter fun b => b ∉ as := by
  induction as with
  | nil => simp
  | cons a as ih =>
      show (queue (as.map .drop ++ es)).filter (fun b => b ≠ a) = _
      rw [ih, List.filter_filter]
      apply List.filter_congr
      intro b _
      simp [not_or]

/-- Dropped keys are not in the queue. -/
@[simp] theorem mem_queue_drops (as : List α) (b : α) (es : List (Event α)) :
    b ∈ queue (as.map .drop ++ es) ↔ b ∈ queue es ∧ b ∉ as := by
  rw [queue_drops, List.mem_filter, decide_eq_true_eq]

/-- The last touch lies in the history. -/
theorem lastTouch_le (a : α) (es : List (Event α)) : lastTouch a es ≤ es.length := by
  induction es with
  | nil => exact le_rfl
  | cons e es ih =>
      cases e with
      | touch b =>
          unfold lastTouch
          rw [List.length_cons]
          split <;> omega
      | drop b =>
          unfold lastTouch
          rw [List.length_cons]
          omega

end Queue

/-! ## Sorted queues -/

section Sorted

variable [LinearOrder κ]

/-- The stamps of a queue strictly increase. -/
def Sorted (stamp : α → κ) (q : List α) : Prop := q.Pairwise fun a b => stamp a < stamp b

/-- No two keys of a sorted queue have the same stamp. -/
theorem Sorted.eq_of_stamp_eq {stamp : α → κ} {q : List α} (h : Sorted stamp q) {a b : α}
    (ha : a ∈ q) (hb : b ∈ q) (heq : stamp a = stamp b) : a = b := by
  have hnodup : (q.map stamp).Nodup := by
    apply List.pairwise_map.mpr
    exact h.imp ne_of_lt
  exact List.inj_on_of_nodup_map hnodup ha hb heq

/-- Stamps that agree on the queue are sorted alike. -/
theorem Sorted.congr {stamp stamp' : α → κ} {q : List α} (h : Sorted stamp q)
    (hsame : ∀ a ∈ q, stamp' a = stamp a) : Sorted stamp' q := by
  apply List.Pairwise.imp_of_mem _ h
  intro a b ha hb hlt
  rw [hsame a ha, hsame b hb]
  exact hlt

/-- No key of a sorted queue is there twice. -/
theorem Sorted.nodup {stamp : α → κ} {q : List α} (h : Sorted stamp q) : q.Nodup := by
  apply List.Pairwise.imp _ h
  rintro a b hlt rfl
  exact lt_irrefl _ hlt

/-- **A key moved to the end** leaves the stamps sorted, if it is stamped later than all
others and these keep their stamps. -/
theorem Sorted.moveToEnd [DecidableEq α] {stamp stamp' : α → κ} {q : List α}
    (h : Sorted stamp q) {a : α} (hsame : ∀ b ∈ q, b ≠ a → stamp' b = stamp b)
    (hlast : ∀ b ∈ q, b ≠ a → stamp b < stamp' a) :
    Sorted stamp' (q.filter (fun b => b ≠ a) ++ [a]) := by
  have hfilter : Sorted stamp (q.filter fun b => b ≠ a) := h.filter _
  apply List.pairwise_append.mpr
  refine ⟨?_, List.pairwise_singleton _ a, ?_⟩
  · apply hfilter.congr
    intro b hb
    obtain ⟨hmem, hne⟩ := List.mem_filter.mp hb
    exact hsame b hmem (of_decide_eq_true hne)
  · intro b hb c hc
    obtain rfl := List.mem_singleton.mp hc
    obtain ⟨hmem, hne⟩ := List.mem_filter.mp hb
    rw [hsame b hmem (of_decide_eq_true hne)]
    exact hlast b hmem (of_decide_eq_true hne)

/-- **The first key that satisfies a test** is the one with the smallest stamp. -/
theorem Sorted.find?_eq_some_iff {stamp : α → κ} {q : List α} (h : Sorted stamp q)
    {p : α → Bool} {v : α} :
    q.find? p = some v ↔
      (v ∈ q ∧ p v = true) ∧ ∀ w ∈ q, p w = true → stamp v ≤ stamp w := by
  have first : ∀ u, q.find? p = some u →
      (u ∈ q ∧ p u = true) ∧ ∀ w ∈ q, p w = true → stamp u ≤ stamp w := by
    intro u hu
    obtain ⟨hpu, before, behind, rfl, hnone⟩ := List.find?_eq_some_iff_append.mp hu
    refine ⟨⟨by simp, hpu⟩, ?_⟩
    intro w hw hpw
    rcases List.mem_append.mp hw with hbefore | hrest
    · have hnot := hnone w hbefore
      rw [hpw] at hnot
      exact absurd hnot (by simp)
    · rcases List.mem_cons.mp hrest with rfl | hbehind
      · exact le_rfl
      · have htail := (List.pairwise_append.mp h).2.1
        exact (List.rel_of_pairwise_cons htail hbehind).le
  constructor
  · exact first v
  · rintro ⟨⟨hv, hpv⟩, hleast⟩
    cases hfind : q.find? p with
    | none => exact absurd hpv (List.find?_eq_none.mp hfind v hv)
    | some u =>
        obtain ⟨⟨hu, hpu⟩, hleast'⟩ := first u hfind
        have hstamp := le_antisymm (hleast' v hv hpv) (hleast u hu hpu)
        rw [h.eq_of_stamp_eq hu hv hstamp]

variable [DecidableEq α]

/-- **A touch** keeps the stamps sorted, if it stamps its key later than all others. -/
theorem sorted_touch {stamp : α → κ} {es : List (Event α)} (h : Sorted stamp (queue es)) {a : α}
    {k : κ} (hlast : ∀ b ∈ queue es, stamp b < k) :
    Sorted (Function.update stamp a k) (queue (.touch a :: es)) := by
  have hsame : ∀ b, b ≠ a → Function.update stamp a k b = stamp b :=
    fun b hb => Function.update_of_ne hb k stamp
  have hold : Sorted (Function.update stamp a k) ((queue es).filter fun b => b ≠ a) := by
    have hfilter : Sorted stamp ((queue es).filter fun b => b ≠ a) := h.filter _
    apply hfilter.congr
    intro b hb
    exact hsame b (of_decide_eq_true (List.mem_filter.mp hb).2)
  apply List.pairwise_append.mpr
  refine ⟨hold, List.pairwise_singleton _ a, ?_⟩
  intro b hb c hc
  obtain rfl := List.mem_singleton.mp hc
  obtain ⟨hmem, hne⟩ := List.mem_filter.mp hb
  rw [Function.update_self, hsame b (of_decide_eq_true hne)]
  exact hlast b hmem

/-- **Drops** keep the stamps sorted, whatever the stamps of the dropped keys become. -/
theorem sorted_drops {stamp stamp' : α → κ} {es : List (Event α)} (h : Sorted stamp (queue es))
    (as : List α) (hsame : ∀ b ∈ queue es, b ∉ as → stamp' b = stamp b) :
    Sorted stamp' (queue (as.map .drop ++ es)) := by
  rw [queue_drops]
  have hfilter : Sorted stamp ((queue es).filter fun b => b ∉ as) := h.filter _
  apply hfilter.congr
  intro b hb
  obtain ⟨hmem, hnot⟩ := List.mem_filter.mp hb
  exact hsame b hmem (of_decide_eq_true hnot)

/-- **The queue is in the order of the last touches.** -/
theorem sorted_lastTouch (es : List (Event α)) : Sorted (fun a => lastTouch a es) (queue es) := by
  induction es with
  | nil => exact List.Pairwise.nil
  | cons e es ih =>
      cases e with
      | drop a => exact sorted_drops ih [a] fun _ _ _ => rfl
      | touch a =>
          have hupdate : (fun b => lastTouch b (.touch a :: es)) =
              Function.update (fun b => lastTouch b es) a (es.length + 1) := by
            funext b
            rw [Function.update_apply]
            rfl
          rw [hupdate]
          exact sorted_touch ih fun b _ => Nat.lt_succ_of_le (lastTouch_le b es)

end Sorted

/-! ## Victims -/

section Victim

variable (low spared : α → Prop) [DecidablePred low] [DecidablePred spared]

/-- The first low key that is not spared, and for lack of one the first key that is not. -/
def victim (q : List α) : Option α :=
  match q.find? fun a => decide (low a ∧ ¬spared a) with
  | some a => some a
  | none => q.find? fun a => decide (¬spared a)

/-- Key `v` is not spared, it is low if any such key is, and no other one of its class has
an earlier stamp. -/
structure Chosen [LE κ] (stamp : α → κ) (q : List α) (v : α) : Prop where
  mem : v ∈ q
  free : ¬spared v
  lowFirst : ∀ w ∈ q, ¬spared w → low w → low v
  earliest : ∀ w ∈ q, ¬spared w → (low w ↔ low v) → stamp v ≤ stamp w

variable {low spared}

/-- **The victim by stamps**: where the stamps increase along the queue, the victim is the
key of the preferred class with the earliest stamp. -/
theorem victim_eq_some_iff [LinearOrder κ] {stamp : α → κ} {q : List α} (h : Sorted stamp q)
    {v : α} : victim low spared q = some v ↔ Chosen low spared stamp q v := by
  unfold victim
  cases hfind : q.find? fun a => decide (low a ∧ ¬spared a) with
  | some u =>
      obtain ⟨⟨hu, hpu⟩, hleast⟩ := h.find?_eq_some_iff.mp hfind
      obtain ⟨hlow, hfree⟩ := of_decide_eq_true hpu
      simp only [Option.some.injEq]
      constructor
      · rintro rfl
        refine ⟨hu, hfree, fun _ _ _ _ => hlow, ?_⟩
        intro w hw hwfree hclass
        exact hleast w hw (decide_eq_true ⟨hclass.mpr hlow, hwfree⟩)
      · intro hv
        -- both are low, so each of them is the earlier one
        have hvlow := hv.lowFirst u hu hfree hlow
        have hle := hleast v hv.mem (decide_eq_true ⟨hvlow, hv.free⟩)
        have hle' := hv.earliest u hu hfree (iff_of_true hlow hvlow)
        exact h.eq_of_stamp_eq hu hv.mem (le_antisymm hle hle')
  | none =>
      have hnone : ∀ w ∈ q, ¬spared w → ¬low w := by
        intro w hw hfree hlow
        exact List.find?_eq_none.mp hfind w hw (decide_eq_true ⟨hlow, hfree⟩)
      simp only
      rw [h.find?_eq_some_iff]
      constructor
      · rintro ⟨⟨hv, hpv⟩, hleast⟩
        refine ⟨hv, of_decide_eq_true hpv, ?_, ?_⟩
        · intro w hw hfree hlow
          exact absurd hlow (hnone w hw hfree)
        · intro w hw hfree _
          exact hleast w hw (decide_eq_true hfree)
      · intro hv
        refine ⟨⟨hv.mem, decide_eq_true hv.free⟩, ?_⟩
        intro w hw hpw
        have hfree := of_decide_eq_true hpw
        exact hv.earliest w hw hfree (iff_of_false (hnone w hw hfree) (hnone v hv.mem hv.free))

end Victim

end Recency
