/-
# Requests that absorb each other

A server is asked for values of a linear order, one after another; `f s a` is the state in
which the request for `a` leaves it.  The requests absorb each other when two of them in a
row come to one request for the greater.  Then a list of them comes to one request for its
maximum (`foldlM_eq`), in whatever order it is made (`foldlM_eq_of_perm`).
-/
import Mathlib

namespace Absorbing

variable {S A ε : Type*} [LinearOrder A]

/-- In the states `I` the requests `R` are served, and absorb each other. -/
structure Absorbs (f : S → A → Except ε S) (I : S → Prop) (R : A → Prop) : Prop where
  served : ∀ {s a}, I s → R a → ∃ s', f s a = .ok s' ∧ I s'
  absorbed : ∀ {s s' a b}, I s → R a → R b → f s a = .ok s' → f s' b = f s (max a b)

namespace Absorbs

variable {f : S → A → Except ε S} {I : S → Prop} {R : A → Prop}

/-- A list of requests is served. -/
theorem exists_foldlM (h : Absorbs f I R) {s : S} (hs : I s) {as : List A}
    (hR : ∀ a ∈ as, R a) : ∃ s', as.foldlM f s = .ok s' ∧ I s' := by
  induction as generalizing s with
  | nil => exact ⟨s, rfl, hs⟩
  | cons a as ih =>
      obtain ⟨ha, hR⟩ := List.forall_mem_cons.mp hR
      obtain ⟨s₁, h₁, hs₁⟩ := h.served hs ha
      rw [List.foldlM_cons, h₁]
      exact ih hs₁ hR

/-- **A list of requests comes to one for its maximum.** -/
theorem foldlM_eq (h : Absorbs f I R) {s : S} (hs : I s) {as : List A} {m : A}
    (hR : ∀ a ∈ as, R a) (hm : IsGreatest {a | a ∈ as} m) : as.foldlM f s = f s m := by
  cases as with
  | nil => exact absurd hm.1 List.not_mem_nil
  | cons a as =>
      -- the first two requests are absorbed until one is left
      induction as generalizing a with
      | nil =>
          obtain rfl := List.mem_singleton.mp hm.1
          rw [List.foldlM_cons]
          cases f s m <;> rfl
      | cons b as ih =>
          obtain ⟨ha, hR⟩ := List.forall_mem_cons.mp hR
          obtain ⟨hb, hR⟩ := List.forall_mem_cons.mp hR
          obtain ⟨s₁, h₁, -⟩ := h.served hs ha
          have hmax : R (max a b) := by
            rcases max_choice a b with heq | heq
            · rw [heq]
              exact ha
            · rw [heq]
              exact hb
          have hm' : IsGreatest {x | x ∈ max a b :: as} m := by
            obtain ⟨hmem, hle⟩ := hm
            have hab : max a b ≤ m :=
              max_le (hle List.mem_cons_self) (hle (List.mem_cons_of_mem a List.mem_cons_self))
            have hrest : ∀ x ∈ as, x ≤ m := fun x hx =>
              hle (List.mem_cons_of_mem a (List.mem_cons_of_mem b hx))
            refine ⟨?_, List.forall_mem_cons.mpr ⟨hab, hrest⟩⟩
            rcases List.mem_cons.mp hmem with rfl | hmem
            · exact List.mem_cons.mpr (Or.inl (le_antisymm (le_max_left m b) hab))
            rcases List.mem_cons.mp hmem with rfl | hmem
            · exact List.mem_cons.mpr (Or.inl (le_antisymm (le_max_right a m) hab))
            · exact List.mem_cons_of_mem _ hmem
          calc (a :: b :: as).foldlM f s
              = (f s₁ b >>= fun s' => as.foldlM f s') := by
                rw [List.foldlM_cons, h₁]
                show (b :: as).foldlM f s₁ = _
                rw [List.foldlM_cons]
            _ = (max a b :: as).foldlM f s := by
                rw [h.absorbed hs ha hb h₁, List.foldlM_cons]
            _ = f s m := ih (max a b) (List.forall_mem_cons.mpr ⟨hmax, hR⟩) hm'

/-- **The order of the requests does not matter.** -/
theorem foldlM_eq_of_perm (h : Absorbs f I R) {s : S} (hs : I s) {as bs : List A} {m : A}
    (hR : ∀ a ∈ as, R a) (hm : IsGreatest {a | a ∈ as} m) (hp : bs.Perm as) :
    bs.foldlM f s = f s m := by
  have hmem : {a | a ∈ bs} = {a | a ∈ as} := by
    ext a
    exact hp.mem_iff
  apply h.foldlM_eq hs
  · intro a ha
    exact hR a (hp.mem_iff.mp ha)
  · rw [hmem]
    exact hm

end Absorbs

end Absorbing
