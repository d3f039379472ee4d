import Mathlib.Logic.Relation
import Mathlib.Data.List.Basic

/-!
# Labelled paths of a step relation

A system is a relation `step s a t`: from the state `s`, the step labelled `a` may lead to `t`. A
path lists the labels and the states of a finite run, so that a property of a run can speak of
every state that it visits (`Path.invariant`), of the labels taken so far (`Path.history`), and of
a condition that each step meets in the state it starts from (`Meets`).

`Path.always_iff_meets` is the rule for exact conditions. Where, from good states, a step leads to
a good state if and only if a condition holds before it, the states of a run are all good if and
only if all its steps meet the condition.
-/

namespace Transition

variable {σ α : Type*}

/-- `l` lists the labels and the states of a run of `step` that starts at the given state. -/
def Path (step : σ → α → σ → Prop) : σ → List (α × σ) → Prop
  | _, [] => True
  | s, (a, t) :: l => step s a t ∧ Path step t l

/-- The state in which a run ends. -/
def last : σ → List (α × σ) → σ
  | s, [] => s
  | _, (_, t) :: l => last t l

/-- Every step of the run meets the condition `C` in the state from which it is taken. -/
def Meets (C : σ → α → Prop) : σ → List (α × σ) → Prop
  | _, [] => True
  | s, (a, t) :: l => C s a ∧ Meets C t l

/-- Whether every step meets a condition can be computed. -/
instance decidableMeets {C : σ → α → Prop} [∀ s a, Decidable (C s a)] :
    ∀ s l, Decidable (Meets C s l)
  | _, [] => inferInstanceAs (Decidable True)
  | s, (a, t) :: l =>
    have := decidableMeets (C := C) t l
    inferInstanceAs (Decidable (C s a ∧ Meets C t l))

/-- A condition on the labels alone. -/
theorem meets_of_forall {C : α → Prop} {s : σ} {l : List (α × σ)} (h : ∀ x ∈ l, C x.1) :
    Meets (fun _ a => C a) s l := by
  induction l generalizing s with
  | nil => trivial
  | cons x l ih =>
    obtain ⟨hx, hl⟩ := List.forall_mem_cons.mp h
    exact ⟨hx, ih hl⟩

/-- A run of a relation is one of any that allows more. -/
theorem Path.mono {step step' : σ → α → σ → Prop} (h : ∀ s a t, step s a t → step' s a t) {s : σ}
    {l : List (α × σ)} (hl : Path step s l) : Path step' s l := by
  induction l generalizing s with
  | nil => trivial
  | cons x l ih => exact ⟨h _ _ _ hl.1, ih hl.2⟩

/-- A run whose steps all meet a condition is a run of the steps that meet it. -/
theorem Path.and_meets {step : σ → α → σ → Prop} {C : σ → α → Prop} {s : σ} {l : List (α × σ)}
    (hl : Path step s l) (hC : Meets C s l) : Path (fun s a t => step s a t ∧ C s a) s l := by
  induction l generalizing s with
  | nil => trivial
  | cons x l ih => exact ⟨⟨hl.1, hC.1⟩, ih hl.2 hC.2⟩

/-- And the other way round. -/
theorem Path.of_and {step : σ → α → σ → Prop} {C : σ → α → Prop} {s : σ} {l : List (α × σ)}
    (hl : Path (fun s a t => step s a t ∧ C s a) s l) : Path step s l ∧ Meets C s l := by
  induction l generalizing s with
  | nil => exact ⟨trivial, trivial⟩
  | cons x l ih =>
    obtain ⟨hpath, hmeets⟩ := ih hl.2
    exact ⟨⟨hl.1.1, hpath⟩, hl.1.2, hmeets⟩

/-- The visible labels of a run: those that `label` gives to its steps. -/
def trace {β : Type*} (label : σ → α → Option β) : σ → List (α × σ) → List β
  | _, [] => []
  | s, (a, t) :: l => (label s a).toList ++ trace label t l

/-- What the steps of a run yield, in order. -/
def collect {β : Type*} (f : σ → α → List β) : σ → List (α × σ) → List β
  | _, [] => []
  | s, (a, t) :: l => f s a ++ collect f t l

/-- What is collected was yielded by a step of the run. -/
theorem exists_of_mem_collect {β : Type*} {f : σ → α → List β} {s : σ} {l : List (α × σ)} {b : β}
    (h : b ∈ collect f s l) : ∃ x ∈ l, ∃ t, b ∈ f t x.1 := by
  induction l generalizing s with
  | nil => exact (List.not_mem_nil h).elim
  | cons x l ih =>
    rcases List.mem_append.mp h with hb | hb
    · exact ⟨x, List.mem_cons_self, s, hb⟩
    · obtain ⟨y, hy, t, ht⟩ := ih hb
      exact ⟨y, List.mem_cons_of_mem x hy, t, ht⟩

/-- The rule for properties of a state together with what the run has yielded up to it. -/
theorem Path.invariant_collect {β : Type*} {step : σ → α → σ → Prop} {f : σ → α → List β}
    {I : List β → σ → Prop} (hstep : ∀ xs s a t, I xs s → step s a t → I (xs ++ f s a) t) {s : σ}
    {l : List (α × σ)} (xs : List β) (h0 : I xs s) (hl : Path step s l) :
    I (xs ++ collect f s l) (last s l) := by
  induction l generalizing s xs with
  | nil => simpa [last, collect] using h0
  | cons x l ih =>
    have hrest := ih _ (hstep _ _ _ _ h0 hl.1) hl.2
    rwa [List.append_assoc] at hrest

/-- A step with the label, if there is one, and no move otherwise. -/
def StutterStep {τ β : Type*} (step : τ → β → τ → Prop) (u : τ) : Option β → τ → Prop
  | some b, u' => step u b u'
  | none, u' => u' = u

/-- Some run of `step` leads from `s` to `t`. -/
def Reachable (step : σ → α → σ → Prop) (s t : σ) : Prop :=
  ∃ l, Path step s l ∧ last s l = t

/-- The state in which a composed run ends. -/
theorem last_append (s : σ) (l m : List (α × σ)) : last s (l ++ m) = last (last s l) m := by
  induction l generalizing s with
  | nil => rfl
  | cons x l ih => exact ih x.2

/-- A composed run is a run followed by a run from where it ends. -/
theorem path_append {step : σ → α → σ → Prop} {s : σ} {l m : List (α × σ)} :
    Path step s (l ++ m) ↔ Path step s l ∧ Path step (last s l) m := by
  induction l generalizing s with
  | nil => simp [Path, last]
  | cons x l ih =>
    simp only [List.cons_append, Path, last]
    rw [ih, and_assoc]

/-- The state in which a run ends is the one it starts from or one that it visits. -/
theorem last_mem (s : σ) (l : List (α × σ)) : last s l = s ∨ ∃ x ∈ l, x.2 = last s l := by
  induction l generalizing s with
  | nil => exact .inl rfl
  | cons x l ih =>
    right
    rcases ih x.2 with h | ⟨y, hy, h⟩
    · exact ⟨x, List.mem_cons_self, h.symm⟩
    · exact ⟨y, List.mem_cons_of_mem _ hy, h⟩

/-- A property that the start has and every step keeps holds in every state of a run. -/
theorem Path.invariant {step : σ → α → σ → Prop} {I : σ → Prop}
    (hstep : ∀ s a t, I s → step s a t → I t) {s : σ} {l : List (α × σ)} (h0 : I s)
    (hl : Path step s l) : (∀ x ∈ l, I x.2) ∧ I (last s l) := by
  induction l generalizing s with
  | nil => exact ⟨by simp, h0⟩
  | cons x l ih =>
    have h1 := hstep _ _ _ h0 hl.1
    obtain ⟨hall, hlast⟩ := ih h1 hl.2
    exact ⟨List.forall_mem_cons.mpr ⟨h1, hall⟩, hlast⟩

/-- A property that the start has and every step keeps holds in every reachable state. -/
theorem Reachable.invariant {step : σ → α → σ → Prop} {I : σ → Prop}
    (hstep : ∀ s a t, I s → step s a t → I t) {s t : σ} (h0 : I s) (h : Reachable step s t) :
    I t := by
  obtain ⟨l, hl, rfl⟩ := h
  exact (hl.invariant hstep h0).2

/-- Every state is reachable from itself. -/
theorem Reachable.refl (step : σ → α → σ → Prop) (s : σ) : Reachable step s s :=
  ⟨[], trivial, rfl⟩

/-- One more step from a reachable state reaches a state. -/
theorem Reachable.step {step : σ → α → σ → Prop} {s t u : σ} {a : α} (h : Reachable step s t)
    (hu : step t a u) : Reachable step s u := by
  obtain ⟨l, hl, rfl⟩ := h
  exact ⟨l ++ [(a, u)], path_append.mpr ⟨hl, hu, trivial⟩, by rw [last_append]; rfl⟩

/-- Reachability composes. -/
theorem Reachable.trans {step : σ → α → σ → Prop} {s t u : σ} (h : Reachable step s t)
    (h' : Reachable step t u) : Reachable step s u := by
  obtain ⟨l, hl, rfl⟩ := h
  obtain ⟨m, hm, rfl⟩ := h'
  exact ⟨l ++ m, path_append.mpr ⟨hl, hm⟩, last_append s l m⟩

/-- The rule for goals that can be reached from wherever a run leads. Where every state that is
short of the goal can lead to one that is closer to it, the goal is reachable. -/
theorem Reachable.of_decreasing {step : σ → α → σ → Prop} {I G : σ → Prop} (f : σ → ℕ)
    (h : ∀ s, I s → ¬ G s → ∃ t, Reachable step s t ∧ I t ∧ f t < f s) {s : σ} (h0 : I s) :
    ∃ t, Reachable step s t ∧ I t ∧ G t := by
  induction hn : f s using Nat.strongRecOn generalizing s with
  | ind n ih =>
    by_cases hG : G s
    · exact ⟨s, Reachable.refl step s, h0, hG⟩
    · obtain ⟨t, ht, hI, hlt⟩ := h s h0 hG
      obtain ⟨u, hu, hgoal⟩ := ih (f t) (hn ▸ hlt) hI rfl
      exact ⟨u, ht.trans hu, hgoal⟩

/-- Reachability, for `calc`. -/
instance {step : σ → α → σ → Prop} : Trans (Reachable step) (Reachable step) (Reachable step) :=
  ⟨Reachable.trans⟩

/-- The steps with the given labels lead from `s` to `t`. -/
def Takes (step : σ → α → σ → Prop) (as : List α) (s t : σ) : Prop :=
  ∃ l, l.map Prod.fst = as ∧ Path step s l ∧ last s l = t

/-- No step leads to the state itself. -/
theorem Takes.refl (step : σ → α → σ → Prop) (s : σ) : Takes step [] s s :=
  ⟨[], rfl, trivial, rfl⟩

/-- A single step. -/
theorem Takes.single {step : σ → α → σ → Prop} {s t : σ} {a : α} (h : step s a t) :
    Takes step [a] s t :=
  ⟨[(a, t)], rfl, ⟨h, trivial⟩, rfl⟩

/-- The labels of a composed run. -/
theorem Takes.trans {step : σ → α → σ → Prop} {as bs : List α} {s t u : σ}
    (h : Takes step as s t) (h' : Takes step bs t u) : Takes step (as ++ bs) s u := by
  obtain ⟨l, rfl, hl, rfl⟩ := h
  obtain ⟨m, rfl, hm, rfl⟩ := h'
  exact ⟨l ++ m, List.map_append, path_append.mpr ⟨hl, hm⟩, last_append s l m⟩

/-- Composed runs, for `calc`. -/
instance {step : σ → α → σ → Prop} {as bs : List α} :
    Trans (Takes step as) (Takes step bs) (Takes step (as ++ bs)) :=
  ⟨Takes.trans⟩

/-- A property that every step keeps when its condition is met holds in every state of a run
whose steps all meet their conditions. -/
theorem Path.invariant_of_meets {step : σ → α → σ → Prop} {C : σ → α → Prop} {I : σ → Prop}
    (hstep : ∀ s a t, I s → C s a → step s a t → I t) {s : σ} {l : List (α × σ)} (h0 : I s)
    (hl : Path step s l) (hC : Meets C s l) : (∀ x ∈ l, I x.2) ∧ I (last s l) := by
  induction l generalizing s with
  | nil => exact ⟨by simp, h0⟩
  | cons x l ih =>
    have h1 := hstep _ _ _ h0 hC.1 hl.1
    obtain ⟨hall, hlast⟩ := ih h1 hl.2 hC.2
    exact ⟨List.forall_mem_cons.mpr ⟨h1, hall⟩, hlast⟩

/-- The rule for exact conditions. `I` holds along every run. From a state where `P` holds, a step
keeps `P` exactly when it meets `C`. Then `P` holds throughout a run exactly when every step of
the run meets `C`. -/
theorem Path.always_iff_meets {step : σ → α → σ → Prop} {C : σ → α → Prop} {I P : σ → Prop}
    (hI : ∀ s a t, I s → step s a t → I t)
    (hP : ∀ s a t, I s → P s → step s a t → (P t ↔ C s a)) {s : σ} {l : List (α × σ)}
    (h0 : I s) (hs : P s) (hl : Path step s l) : (∀ x ∈ l, P x.2) ↔ Meets C s l := by
  induction l generalizing s with
  | nil => simp [Meets]
  | cons x l ih =>
    have hx := hP _ _ _ h0 hs hl.1
    rw [List.forall_mem_cons, Meets]
    constructor
    · rintro ⟨h1, hall⟩
      exact ⟨hx.mp h1, (ih (hI _ _ _ h0 hl.1) h1 hl.2).mp hall⟩
    · rintro ⟨hC, hm⟩
      have h1 := hx.mpr hC
      exact ⟨h1, (ih (hI _ _ _ h0 hl.1) h1 hl.2).mpr hm⟩

/-- What is tracked of a run by its labels alone, from `o` with `next`, meets the condition `C`
before every step. -/
def Tracks {τ : Type*} (next : τ → α → τ) (C : τ → α → Prop) : τ → List α → Prop
  | _, [] => True
  | o, a :: as => C o a ∧ Tracks next C (next o a) as

/-- The rule for exact conditions on the labels. `R` relates a state to what is tracked by the
labels that led to it, while `P` holds. From a state where `P` holds, a step keeps `P` exactly when
what is tracked meets `C`. Then `P` holds throughout a run exactly when what is tracked always meets
`C`. -/
theorem Path.always_iff_tracks {τ : Type*} {step : σ → α → σ → Prop} {next : τ → α → τ}
    {C : τ → α → Prop} {R : σ → τ → Prop} {P : σ → Prop}
    (hP : ∀ s a t o, R s o → P s → step s a t → (P t ↔ C o a))
    (hR : ∀ s a t o, R s o → P s → step s a t → P t → R t (next o a)) {s : σ} {o : τ}
    {l : List (α × σ)} (h0 : R s o) (hs : P s) (hl : Path step s l) :
    (∀ x ∈ l, P x.2) ↔ Tracks next C o (l.map Prod.fst) := by
  induction l generalizing s o with
  | nil => simp [Tracks]
  | cons x l ih =>
    have hx := hP _ _ _ _ h0 hs hl.1
    rw [List.forall_mem_cons, List.map_cons, Tracks]
    constructor
    · rintro ⟨h1, hall⟩
      exact ⟨hx.mp h1, (ih (hR _ _ _ _ h0 hs hl.1 h1) h1 hl.2).mp hall⟩
    · rintro ⟨hC, htracks⟩
      have h1 := hx.mpr hC
      exact ⟨h1, (ih (hR _ _ _ _ h0 hs hl.1 h1) h1 hl.2).mpr htracks⟩

/-- The rule for properties of a state together with the labels that led to it: `I pre s` for the
labels `pre` taken before the run extends to the labels of the run. -/
theorem Path.history {step : σ → α → σ → Prop} {I : List α → σ → Prop}
    (hstep : ∀ pre s a t, I pre s → step s a t → I (pre ++ [a]) t) {s : σ} {l : List (α × σ)}
    (pre : List α) (h0 : I pre s) (hl : Path step s l) :
    I (pre ++ l.map Prod.fst) (last s l) := by
  induction l generalizing s pre with
  | nil => simpa [last] using h0
  | cons x l ih =>
    have h1 := ih _ (hstep _ _ _ _ h0 hl.1) hl.2
    simpa [last] using h1

/-- A part of the visible labels is the visible labels of a coarser view. -/
theorem filterMap_trace {β γ : Type*} (label : σ → α → Option β) (f : β → Option γ) (s : σ)
    (l : List (α × σ)) :
    (trace label s l).filterMap f = trace (fun s a => (label s a).bind f) s l := by
  induction l generalizing s with
  | nil => rfl
  | cons x l ih =>
    rw [trace, List.filterMap_append, ih, trace]
    congr 1
    cases hb : label s x.1 with
    | none => rfl
    | some b => cases hc : f b <;> simp [hc]

/-- Labels that do not depend on the state. -/
theorem trace_of_label {β : Type*} (f : α → Option β) (s : σ) (l : List (α × σ)) :
    trace (fun _ a => f a) s l = (l.map Prod.fst).filterMap f := by
  induction l generalizing s with
  | nil => rfl
  | cons x l ih =>
    rw [trace, ih, List.map_cons]
    cases hb : f x.1 with
    | none => rw [List.filterMap_cons_none hb]; rfl
    | some b => rw [List.filterMap_cons_some hb]; rfl

/-- A history that every step extends by its visible label is extended by a run by its visible
labels. -/
theorem Path.trace_eq {β : Type*} {step : σ → α → σ → Prop} {label : σ → α → Option β}
    {f : σ → List β} (hstep : ∀ s a t, step s a t → f t = f s ++ (label s a).toList) {s : σ}
    {l : List (α × σ)} (hl : Path step s l) : f (last s l) = f s ++ trace label s l := by
  induction l generalizing s with
  | nil => simp [last, trace]
  | cons x l ih => rw [last, ih hl.2, hstep _ _ _ hl.1, trace, List.append_assoc]

/-- Simulation with silent steps. Where every step from related states is matched by a step of the
other system with the same visible label, or by none if it has no label, every run is matched by a
run with the same visible labels. -/
theorem Path.simulation {τ β : Type*} {step : σ → α → σ → Prop} {step' : τ → β → τ → Prop}
    {L : σ → α → Option β} {R : σ → τ → Prop}
    (hsim : ∀ s a t u, R s u → step s a t →
      ∃ u', R t u' ∧ StutterStep step' u (L s a) u')
    {s : σ} {u : τ} {l : List (α × σ)} (h0 : R s u) (hl : Path step s l) :
    ∃ m, Path step' u m ∧ m.map Prod.fst = trace L s l ∧ R (last s l) (last u m) := by
  induction l generalizing s u with
  | nil => exact ⟨[], trivial, rfl, h0⟩
  | cons x l ih =>
    obtain ⟨a, t⟩ := x
    obtain ⟨u', hR, hmatch⟩ := hsim s a t u h0 hl.1
    obtain ⟨m, hm, htrace, hlast⟩ := ih hR hl.2
    cases hb : L s a with
    | none =>
      rw [hb] at hmatch
      obtain rfl : u' = u := hmatch
      exact ⟨m, hm, by rw [htrace, trace, hb]; rfl, hlast⟩
    | some b =>
      rw [hb] at hmatch
      exact ⟨(b, u') :: m, ⟨hmatch, hm⟩, by rw [List.map_cons, htrace, trace, hb]; rfl, hlast⟩

/-- The run of a partial function that takes these steps, if they are possible. -/
def follow (step : σ → α → Option σ) : σ → List α → Option (List (α × σ))
  | _, [] => some []
  | s, a :: as => (step s a).bind fun t => (follow step t as).map ((a, t) :: ·)

/-- What follows the steps is a run that takes them. -/
theorem path_of_follow {step : σ → α → Option σ} {s : σ} {as : List α} {l : List (α × σ)}
    (h : follow step s as = some l) :
    l.map Prod.fst = as ∧ Path (fun s a t => step s a = some t) s l := by
  induction as generalizing s l with
  | nil =>
    obtain rfl : [] = l := by simpa [follow] using h
    exact ⟨rfl, trivial⟩
  | cons a as ih =>
    simp only [follow, Option.bind_eq_some_iff, Option.map_eq_some_iff] at h
    obtain ⟨t, ht, m, hm, rfl⟩ := h
    obtain ⟨hfst, hpath⟩ := ih hm
    exact ⟨by rw [List.map_cons, hfst], ht, hpath⟩

/-- A run that takes given steps, with what can be computed of it. -/
theorem exists_run (step : σ → α → Option σ) (s : σ) (as : List α) (P : List (α × σ) → Prop)
    [DecidablePred P] (h : (follow step s as).any (P ·) = true) :
    ∃ l, l.map Prod.fst = as ∧ Path (fun s a t => step s a = some t) s l ∧ P l := by
  obtain ⟨l, hl, hP⟩ := (Option.any_eq_true _ _).mp h
  obtain ⟨hfst, hpath⟩ := path_of_follow hl
  exact ⟨l, hfst, hpath, of_decide_eq_true hP⟩

/-- A run that takes given steps, and what can be computed of where it ends. -/
theorem exists_path {β : Type*} (step : σ → α → Option σ) (s : σ) (as : List α) (f : σ → β) {b : β}
    (h : (follow step s as).map (fun l => f (last s l)) = some b) :
    ∃ l, l.map Prod.fst = as ∧ Path (fun s a t => step s a = some t) s l ∧ f (last s l) = b := by
  obtain ⟨l, hl, hb⟩ := Option.map_eq_some_iff.mp h
  obtain ⟨hfst, hpath⟩ := path_of_follow hl
  exact ⟨l, hfst, hpath, hb⟩

end Transition
