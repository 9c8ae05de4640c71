/-
# Runs of a transition system with their history

A `Run init step h s` starts in a state that satisfies `init`, takes labelled
steps, and ends in `s`; `h` lists the steps it took, newest first, each with the
state before it and the state after it.  Statements about "what happened since"
are recursive functions of the history, and the run rules carry an invariant
that relates the history to the state it led to.
-/
import Mathlib

namespace Runs

/-- One step of a run: the state before it, its label and the state after it. -/
structure Entry (S L : Type*) where
  before : S
  label : L
  after : S

variable {S L : Type*}

/-- Finite runs, with the list of their steps, newest first. -/
inductive Run (init : S → Prop) (step : S → L → S → Prop) : List (Entry S L) → S → Prop
  | start {s : S} : init s → Run init step [] s
  | next {h : List (Entry S L)} {s s' : S} {l : L} :
      Run init step h s → step s l s' → Run init step (⟨s, l, s'⟩ :: h) s'

variable {init : S → Prop} {step : S → L → S → Prop}

namespace Run

/-- **Run rule.**  A relation between history and state that holds at the start and
is preserved by every step taken from a reached state holds of every run. -/
theorem rule {J : List (Entry S L) → S → Prop} (start : ∀ s, init s → J [] s)
    (next : ∀ h s l s', Run init step h s → J h s → step s l s' → J (⟨s, l, s'⟩ :: h) s')
    {h : List (Entry S L)} {s : S} (hr : Run init step h s) : J h s := by
  induction hr with
  | start h0 => exact start _ h0
  | next hrun hstep ih => exact next _ _ _ _ hrun ih hstep

/-- **Invariant rule.**  What holds at the start and is preserved by every step holds
of every reached state. -/
theorem invariant {I : S → Prop} (start : ∀ s, init s → I s)
    (next : ∀ s l s', I s → step s l s' → I s')
    {h : List (Entry S L)} {s : S} (hr : Run init step h s) : I s :=
  hr.rule (J := fun _ s => I s) start (fun _ s l s' _ hs hstep => next s l s' hs hstep)

/-- A run can be stopped before any of its steps. -/
theorem before {h g : List (Entry S L)} {s : S} (hr : Run init step h s) {e : Entry S L}
    (hsuffix : (e :: g) <:+ h) :
    Run init step g e.before ∧ step e.before e.label e.after := by
  induction hr with
  | start _ => exact absurd (List.suffix_nil.mp hsuffix) (by simp)
  | next hrun hstep ih =>
      rcases List.suffix_cons_iff.mp hsuffix with heq | hsuffix
      · obtain ⟨rfl, rfl⟩ := List.cons.inj heq
        exact ⟨hrun, hstep⟩
      · exact ih hsuffix

/-- The entries of a run's history are steps from reached states. -/
theorem step_of_mem {h : List (Entry S L)} {s : S} (hr : Run init step h s)
    {e : Entry S L} (he : e ∈ h) :
    (∃ h', Run init step h' e.before) ∧ step e.before e.label e.after := by
  obtain ⟨l₁, g, rfl⟩ := List.append_of_mem he
  obtain ⟨hrun, hstep⟩ := hr.before ⟨l₁, rfl⟩
  exact ⟨⟨g, hrun⟩, hstep⟩

/-- Two runs, the second from where the first ended, are one. -/
theorem append {h₀ h : List (Entry S L)} {s₀ s : S} (hr₀ : Run init step h₀ s₀)
    (hr : Run (fun t => t = s₀) step h s) : Run init step (h ++ h₀) s := by
  induction hr with
  | start h0 =>
      rw [h0]
      exact hr₀
  | next _ hstep ih => exact .next ih hstep

end Run

/-! ## Replaying -/

/-- Takes the steps that `next` finds for a list of actions, behind the history `h`. -/
def replay {A : Type*} (next : S → A → Option (L × S)) :
    List A → List (Entry S L) → S → Option (List (Entry S L) × S)
  | [], h, s => some (h, s)
  | a :: as, h, s =>
      match next s a with
      | some (l, s') => replay next as (⟨s, l, s'⟩ :: h) s'
      | none => none

/-- **Replayed actions extend a run**, when what `next` finds are steps. -/
theorem replay_run {A : Type*} {next : S → A → Option (L × S)}
    (hnext : ∀ s a l s', next s a = some (l, s') → step s l s') {as : List A}
    {h h' : List (Entry S L)} {s s' : S} (hr : Run init step h s)
    (hp : replay next as h s = some (h', s')) : Run init step h' s' := by
  induction as generalizing h s with
  | nil =>
      obtain ⟨rfl, rfl⟩ := Prod.mk.inj (Option.some.inj hp)
      exact hr
  | cons a as ih =>
      rw [replay] at hp
      cases ha : next s a with
      | none => simp [ha] at hp
      | some v =>
          simp only [ha] at hp
          exact ih (.next hr (hnext s a v.1 v.2 ha)) hp

/-! ## What holds throughout a run -/

/-- The states a run went through, newest first. -/
def states (h : List (Entry S L)) (s : S) : List S := s :: h.map Entry.before

/-- What is asked of the heads of all ends of a list is asked of its members. -/
theorem forall_suffix_iff {A : Type*} {Q : A → Prop} {l : List A} :
    (∀ a l', (a :: l') <:+ l → Q a) ↔ ∀ a ∈ l, Q a := by
  constructor
  · intro hall a ha
    obtain ⟨l₁, l₂, rfl⟩ := List.append_of_mem ha
    exact hall a l₂ ⟨l₁, rfl⟩
  · intro hall a l' hsuffix
    exact hall a (hsuffix.subset List.mem_cons_self)

/-- The stages of a run, newest first: the steps taken so far and the state they led to. -/
def stages : List (Entry S L) → S → List (List (Entry S L) × S)
  | [], s => [([], s)]
  | e :: h, s => (e :: h, s) :: stages h e.before

/-- The states a run went through are those of its stages. -/
theorem map_snd_stages (h : List (Entry S L)) (s : S) :
    (stages h s).map Prod.snd = states h s := by
  induction h generalizing s with
  | nil => rfl
  | cons e h ih =>
      show s :: (stages h e.before).map Prod.snd = s :: e.before :: h.map Entry.before
      rw [ih]
      rfl

/-- **Rule for what holds at every stage.**  If `P` holds at the start, and a step from a
stage where it holds keeps it iff `Q`, then it holds at every stage iff `Q` of every step. -/
theorem Run.stages_iff {P : List (Entry S L) → S → Prop}
    {Q : List (Entry S L) → Entry S L → Prop} {h : List (Entry S L)} {s : S}
    (hr : Run init step h s) (start : ∀ s, init s → P [] s)
    (next : ∀ g t l t', (⟨t, l, t'⟩ :: g) <:+ h → Run init step g t → step t l t' → P g t →
      (P (⟨t, l, t'⟩ :: g) t' ↔ Q g ⟨t, l, t'⟩)) :
    (∀ x ∈ stages h s, P x.1 x.2) ↔ ∀ e g, (e :: g) <:+ h → Q g e := by
  induction hr with
  | @start s h0 =>
      constructor
      · intro _ e g hsuffix
        exact absurd (List.suffix_nil.mp hsuffix) (by simp)
      · intro _ x hx
        obtain rfl := List.mem_singleton.mp hx
        exact start s h0
  | @next h s s' l hrun hstep ih =>
      have hrest := ih fun g t l t' hsuffix =>
        next g t l t' (hsuffix.trans (List.suffix_cons _ _))
      have hstages : (∀ x ∈ stages (⟨s, l, s'⟩ :: h) s', P x.1 x.2) ↔
          P (⟨s, l, s'⟩ :: h) s' ∧ ∀ x ∈ stages h s, P x.1 x.2 :=
        List.forall_mem_cons
      have hsuffixes : (∀ e g, (e :: g) <:+ (⟨s, l, s'⟩ :: h) → Q g e) ↔
          Q h ⟨s, l, s'⟩ ∧ ∀ e g, (e :: g) <:+ h → Q g e := by
        constructor
        · intro hall
          refine ⟨hall _ h (List.suffix_refl _), ?_⟩
          intro e g hsuffix
          exact hall e g (hsuffix.trans (List.suffix_cons _ _))
        · rintro ⟨hhead, htail⟩ e g hsuffix
          rcases List.suffix_cons_iff.mp hsuffix with heq | hsuffix
          · obtain ⟨rfl, rfl⟩ := List.cons.inj heq
            exact hhead
          · exact htail e g hsuffix
      have hlast : (h, s) ∈ stages h s := by
        cases h <;> exact List.mem_cons_self
      rw [hstages, hsuffixes, hrest]
      apply and_congr_left
      intro htail
      exact next h s l s' (List.suffix_refl _) hrun hstep (hrest.mpr htail (h, s) hlast)

/-- **Rule for what holds throughout**, of a property of states. -/
theorem Run.throughout_iff {P : S → Prop} {Q : List (Entry S L) → Entry S L → Prop}
    {h : List (Entry S L)} {s : S} (hr : Run init step h s) (start : ∀ s, init s → P s)
    (next : ∀ g t l t', (⟨t, l, t'⟩ :: g) <:+ h → Run init step g t → step t l t' → P t →
      (P t' ↔ Q g ⟨t, l, t'⟩)) :
    (∀ t ∈ states h s, P t) ↔ ∀ e g, (e :: g) <:+ h → Q g e := by
  rw [← map_snd_stages, List.forall_mem_map]
  exact hr.stages_iff (P := fun _ t => P t) start next

end Runs
