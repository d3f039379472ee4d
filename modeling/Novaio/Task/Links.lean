import Mathlib.Data.List.Nodup
import Novaio.Task.Direct

/-!
# How the frames of tasks are linked

A coroutine that awaits a task is the continuation of the task, until the task has ended. The task
is younger, so that from a coroutine the continuations lead to older and older frames: its callers,
each of which awaits one of the others. Every step keeps this (`TaskMachine.Consistent.step`), and
when a task has ended, what awaits it goes on with its outcome, once.
-/

namespace Novaio

open Transition Interaction

variable {ν ε : Type*}

/-- A coroutine that is neither at its end nor in an await. -/
def Control.Here : Control ν ε → Prop
  | .awaiting _ _ | .final => False
  | .initial _ | .running _ _ | .suspended _ => True

namespace TaskMachine

variable {s t : TaskMachine ν ε}

/-- How the frames are linked, and what has been continued. -/
structure Consistent (s : TaskMachine ν ε) : Prop where
  /-- A task that is awaited has not ended, and its continuation is what awaits it. -/
  awaiting {h m : ℕ} {contexts : List (Context ν ε)} : h < s.next →
    (s.frames h).control = .awaiting m contexts → m < s.next ∧
      (s.frames m).promise.continuation = some h ∧ (s.frames m).control ≠ .final
  /-- The continuation of a task is older, and awaits it until it has ended. -/
  continuation {m p : ℕ} : m < s.next → (s.frames m).promise.continuation = some p →
    p < m ∧ ((s.frames m).control ≠ .final →
      ∃ contexts, (s.frames p).control = .awaiting m contexts)
  /-- A task that has not ended has no exception. -/
  exception_none {m : ℕ} : m < s.next → (s.frames m).control ≠ .final →
    (s.frames m).promise.exception = none
  /-- A task that is not started has its body before it, and nothing awaits it. -/
  initial {m : ℕ} {body : Code ν ε} : m < s.next → (s.frames m).control = .initial body →
    (s.frames m).body = body ∧ (s.frames m).promise.continuation = none
  /-- Only frames in use have got inputs. -/
  resumptions_lt {r : List ℕ × Outcome ν ε} {h : ℕ} : r ∈ s.resumptions → h ∈ r.1 → h < s.next
  /-- What was continued has ended with this outcome. -/
  of_continued {m : ℕ} {o : Outcome ν ε} : (m, o) ∈ s.continued → m < s.next ∧
    (s.frames m).control = .final ∧ (s.frames m).promise.awaitResume = o ∧
      (s.frames m).promise.continuation ≠ none
  /-- Each task is continued once. -/
  continued_nodup : (s.continued.map Prod.fst).Nodup
  /-- A task that has ended is continued, if anything awaits it. -/
  continued_of_final {m : ℕ} : m < s.next → (s.frames m).control = .final →
    (s.frames m).promise.continuation ≠ none → ∃ o, (m, o) ∈ s.continued

/-! ## The callers of a coroutine -/

/-- A larger bound gives no more callers. -/
theorem Consistent.callers_succ (hs : s.Consistent) {n h : ℕ} (hn : h < n) (hlt : h < s.next) :
    s.callers (n + 1) h = s.callers n h := by
  induction n generalizing h with
  | zero => omega
  | succ n ih =>
    rw [callers, callers]
    cases hp : (s.frames h).promise.continuation with
    | none => rfl
    | some p =>
      have hph := (hs.continuation hlt hp).1
      simp only
      rw [ih (by omega) (by omega)]

/-- A frame, and the callers of what awaits it. -/
theorem Consistent.callers_cons (hs : s.Consistent) {h : ℕ} (hlt : h < s.next) :
    s.callers s.next h = h :: match (s.frames h).promise.continuation with
      | some p => s.callers s.next p
      | none => [] := by
  obtain ⟨n, hn⟩ : ∃ n, s.next = n + 1 := ⟨s.next - 1, by omega⟩
  rw [hn, callers]
  cases hp : (s.frames h).promise.continuation with
  | none => rfl
  | some p =>
    have hph := (hs.continuation hlt hp).1
    simp only
    rw [hs.callers_succ (by omega) (by omega)]

/-- A frame is the first of its callers. -/
theorem Consistent.mem_callers_self (hs : s.Consistent) {h : ℕ} (hlt : h < s.next) :
    h ∈ s.callers s.next h := by
  rw [hs.callers_cons hlt]
  exact List.mem_cons_self

/-- The callers of a frame are in use. -/
theorem Consistent.callers_lt (hs : s.Consistent) {h n : ℕ} (hlt : h < s.next)
    (hn : n ∈ s.callers s.next h) : n < s.next := by
  induction h using Nat.strongRecOn with
  | ind h ih =>
    rw [hs.callers_cons hlt] at hn
    rcases List.mem_cons.mp hn with rfl | hn
    · exact hlt
    · cases hp : (s.frames h).promise.continuation with
      | none => simp [hp] at hn
      | some p =>
        have hph := (hs.continuation hlt hp).1
        rw [hp] at hn
        exact ih p hph (by omega) hn

/-- What awaits a caller is a caller. -/
theorem Consistent.callers_trans (hs : s.Consistent) {h m n : ℕ} (hlt : h < s.next)
    (hm : m ∈ s.callers s.next h) (hn : (s.frames m).promise.continuation = some n) :
    n ∈ s.callers s.next h := by
  induction h using Nat.strongRecOn with
  | ind h ih =>
    rw [hs.callers_cons hlt] at hm ⊢
    rcases List.mem_cons.mp hm with rfl | hm
    · have hlt' := (hs.continuation hlt hn).1
      rw [hn]
      exact List.mem_cons_of_mem _ (hs.mem_callers_self (by omega))
    · cases hp : (s.frames h).promise.continuation with
      | none => simp [hp] at hm
      | some p =>
        have hph := (hs.continuation hlt hp).1
        rw [hp] at hm
        exact List.mem_cons_of_mem _ (ih p hph (by omega) hm)

/-- The callers of a coroutine that has not ended have not either: each awaits one of them. -/
theorem Consistent.callers_awaiting (hs : s.Consistent) {h n : ℕ} (hlt : h < s.next)
    (hlive : (s.frames h).control ≠ .final) (hn : n ∈ s.callers s.next h) (hne : n ≠ h) :
    ∃ m ∈ s.callers s.next h, ∃ contexts, (s.frames n).control = .awaiting m contexts := by
  induction h using Nat.strongRecOn with
  | ind h ih =>
    rw [hs.callers_cons hlt] at hn ⊢
    rcases List.mem_cons.mp hn with rfl | hn
    · exact absurd rfl hne
    · cases hp : (s.frames h).promise.continuation with
      | none => simp [hp] at hn
      | some p =>
        obtain ⟨hph, hawait⟩ := hs.continuation hlt hp
        obtain ⟨contexts, hc⟩ := hawait hlive
        rw [hp] at hn
        by_cases hnp : n = p
        · subst hnp
          exact ⟨h, List.mem_cons_self, contexts, hc⟩
        · obtain ⟨m, hm, hmc⟩ := ih p hph (by omega) (by rw [hc]; nofun) hn hnp
          exact ⟨m, List.mem_cons_of_mem _ hm, hmc⟩

/-! ## The steps -/

/-- The steps, one by one: where each is possible, and what it leads to. -/
inductive StepCase [Inhabited ν] (s : TaskMachine ν ε) : TaskStep ν ε → TaskMachine ν ε → Prop where
  | create {body : Code ν ε} : StepCase s (.create body) (s.create body)
  | start {h : ℕ} {body : Code ν ε} (hlt : h < s.next)
    (hc : (s.frames h).control = .initial body) : StepCase s (.start h) (s.start h body)
  /-- A step inside of a body, which leaves what is left. -/
  | inside {h : ℕ} {code code' : Code ν ε} {contexts contexts' : List (Context ν ε)}
    (hlt : h < s.next) (hc : (s.frames h).control = .running code contexts)
    (hplug : plug contexts code.direct = plug contexts' code'.direct) :
    StepCase s (.run h) (s.goto h (.running code' contexts'))
  | suspend {h : ℕ} {contexts : List (Context ν ε)} (hlt : h < s.next)
    (hc : (s.frames h).control = .running .suspend contexts) :
    StepCase s (.run h) (s.goto h (.suspended contexts))
  | call {h : ℕ} {task : Code ν ε} {contexts : List (Context ν ε)} (hlt : h < s.next)
    (hc : (s.frames h).control = .running (.await task) contexts) :
    StepCase s (.run h) ((s.create task).awaitSuspend h s.next task contexts)
  | finish {h : ℕ} {o : Outcome ν ε} (hlt : h < s.next)
    (hc : (s.frames h).control = .running o.code []) : StepCase s (.run h) (s.finish h o)
  | resume {h : ℕ} {contexts : List (Context ν ε)} {input : Outcome ν ε} (hlt : h < s.next)
    (hc : (s.frames h).control = .suspended contexts) :
    StepCase s (.resume h input) { s.goto h (.running input.code contexts) with
      resumptions := s.resumptions ++ [(s.callers s.next h, input)] }

/-- The end of a part of a body, in its contexts. -/
theorem StepCase.endPart [Inhabited ν] {h : ℕ} {o : Outcome ν ε} {contexts : List (Context ν ε)}
    (hlt : h < s.next) (hc : (s.frames h).control = .running o.code contexts) :
    StepCase s (.run h) (s.endPart h o contexts) := by
  cases contexts with
  | nil => exact .finish hlt hc
  | cons context contexts => exact .inside hlt hc (by rw [Outcome.direct_code]; rfl)

/-- A step is one of these. -/
theorem StepCase.of_step [Inhabited ν] {a : TaskStep ν ε} (h : taskStep s a t) :
    StepCase s a t := by
  unfold taskStep at h
  cases a with
  | create body =>
    obtain rfl := Option.some.inj h
    exact .create
  | start k =>
    simp only [step] at h
    split at h
    · rename_i body hc
      simp only [Option.ite_none_right_eq_some, Option.some.injEq] at h
      obtain ⟨hlt, rfl⟩ := h
      exact .start hlt hc
    · cases h
  | run k =>
    simp only [step] at h
    split at h
    · rename_i code contexts hc
      simp only [Option.ite_none_right_eq_some, Option.some.injEq] at h
      obtain ⟨hlt, rfl⟩ := h
      cases code with
      | pure v => exact .endPart (o := .value v) hlt hc
      | throw e => exact .endPart (o := .exception e) hlt hc
      | suspend => exact .suspend hlt hc
      | await task => exact .call hlt hc
      | bind code rest => exact .inside hlt hc (by rw [Code.direct_bind]; rfl)
      | tryCatch code handler => exact .inside hlt hc (by rw [Code.direct_tryCatch]; rfl)
    · cases h
  | resume k input =>
    simp only [step] at h
    split at h
    · rename_i contexts hc
      simp only [Option.ite_none_right_eq_some, Option.some.injEq] at h
      obtain ⟨hlt, rfl⟩ := h
      exact .resume hlt hc
    · cases h

/-! ## The links are kept -/

/-- There is nothing at the start. -/
theorem new_consistent [Inhabited ν] : (new : TaskMachine ν ε).Consistent := by
  constructor <;> simp [new]

namespace Consistent

/-- A coroutine goes on without an await, perhaps with an input. -/
theorem goto (hs : s.Consistent) {h : ℕ} {c : Control ν ε} (hold : (s.frames h).control.Here)
    (hc : c.Here) (hinit : ∀ body, c ≠ .initial body) {rs : List (List ℕ × Outcome ν ε)}
    (hrs : ∀ r ∈ rs, ∀ n ∈ r.1, n < s.next) :
    { s.goto h c with resumptions := rs }.Consistent := by
  have hself : ((s.goto h c).frames h).control = c := by simp [TaskMachine.goto, modify]
  have hother : ∀ n, n ≠ h → (s.goto h c).frames n = s.frames n := fun n hn => by
    simp [TaskMachine.goto, modify, hn]
  have hpromise : ∀ n, ((s.goto h c).frames n).promise = (s.frames n).promise := by
    intro n
    by_cases hn : n = h
    · subst hn
      simp [TaskMachine.goto, modify]
    · rw [hother n hn]
  -- The step neither ends a frame nor changes who awaits whom.
  have hfinal : ∀ n, ((s.goto h c).frames n).control = .final ↔ (s.frames n).control = .final := by
    intro n
    by_cases hn : n = h
    · subst hn
      rw [hself]
      constructor
      · rintro rfl
        exact absurd hc id
      · intro heq
        rw [heq] at hold
        exact absurd hold id
    · rw [hother n hn]
  have hawait : ∀ n m contexts, ((s.goto h c).frames n).control = .awaiting m contexts ↔
      (s.frames n).control = .awaiting m contexts := by
    intro n m contexts
    by_cases hn : n = h
    · subst hn
      rw [hself]
      constructor
      · rintro rfl
        exact absurd hc id
      · intro heq
        rw [heq] at hold
        exact absurd hold id
    · rw [hother n hn]
  constructor
  case awaiting =>
    intro n m contexts hlt hn
    obtain ⟨hm, hcont, hlive⟩ := hs.awaiting hlt ((hawait n m contexts).mp hn)
    refine ⟨hm, ?_, fun heq => hlive ((hfinal m).mp heq)⟩
    show ((s.goto h c).frames m).promise.continuation = some n
    rw [hpromise, hcont]
  case continuation =>
    intro m p hlt hm
    obtain ⟨hpm, hawaited⟩ := hs.continuation hlt ((congrArg _ (hpromise m)).symm.trans hm)
    refine ⟨hpm, fun hlive => ?_⟩
    obtain ⟨contexts, hp⟩ := hawaited fun heq => hlive ((hfinal m).mpr heq)
    exact ⟨contexts, (hawait p m contexts).mpr hp⟩
  case exception_none =>
    intro m hlt hlive
    show ((s.goto h c).frames m).promise.exception = none
    rw [hpromise]
    exact hs.exception_none hlt fun heq => hlive ((hfinal m).mpr heq)
  case initial =>
    intro m body hlt hm
    by_cases hmh : m = h
    · subst hmh
      exact absurd (hself.symm.trans hm) (hinit body)
    · have hframe := hother m hmh
      show ((s.goto h c).frames m).body = body ∧ _
      rw [hframe]
      exact hs.initial hlt ((congrArg _ hframe).symm.trans hm)
  case resumptions_lt => exact fun hr hn => hrs _ hr _ hn
  case of_continued =>
    intro m o hm
    obtain ⟨hlt, hend, hresult, hcont⟩ := hs.of_continued hm
    refine ⟨hlt, (hfinal m).mpr hend, ?_, ?_⟩
    · show ((s.goto h c).frames m).promise.awaitResume = o
      rw [hpromise, hresult]
    · show ((s.goto h c).frames m).promise.continuation ≠ none
      rw [hpromise]
      exact hcont
  case continued_nodup => exact hs.continued_nodup
  case continued_of_final =>
    intro m hlt hm hcont
    refine hs.continued_of_final hlt ((hfinal m).mp hm) ?_
    rw [← hpromise]
    exact hcont

/-- A new task. -/
theorem create [Inhabited ν] (hs : s.Consistent) (body : Code ν ε) :
    (s.create body).Consistent := by
  have hother : ∀ n, n < s.next → (s.create body).frames n = s.frames n := fun n hn =>
    Function.update_of_ne (Nat.ne_of_lt hn) _ _
  have hnew : (s.create body).frames s.next = ⟨body, .initial body, { value := default }⟩ :=
    Function.update_self ..
  -- A frame is the new one, which nothing refers to, or an old one, which stays.
  have hcases : ∀ n, n < (s.create body).next → n = s.next ∨ n < s.next := by
    intro n hn
    have hle : n < s.next + 1 := hn
    omega
  have hnext : (s.create body).next = s.next + 1 := rfl
  constructor
  case awaiting =>
    intro n m contexts hlt hn
    rcases hcases n hlt with rfl | hlt
    · simp [hnew] at hn
    · rw [hother n hlt] at hn
      obtain ⟨hm, hcont, hlive⟩ := hs.awaiting hlt hn
      rw [hother m hm]
      exact ⟨by omega, hcont, hlive⟩
  case continuation =>
    intro m p hlt hm
    rcases hcases m hlt with rfl | hlt
    · simp [hnew] at hm
    · rw [hother m hlt] at hm ⊢
      obtain ⟨hpm, hawaited⟩ := hs.continuation hlt hm
      rw [hother p (by omega)]
      exact ⟨hpm, hawaited⟩
  case exception_none =>
    intro m hlt hlive
    rcases hcases m hlt with rfl | hlt
    · rw [hnew]
    · rw [hother m hlt] at hlive ⊢
      exact hs.exception_none hlt hlive
  case initial =>
    intro m body' hlt hm
    rcases hcases m hlt with rfl | hlt
    · rw [hnew] at hm ⊢
      exact ⟨Control.initial.inj hm, rfl⟩
    · rw [hother m hlt] at hm ⊢
      exact hs.initial hlt hm
  case resumptions_lt =>
    intro r n hr hn
    have hlt := hs.resumptions_lt hr hn
    omega
  case of_continued =>
    intro m o hm
    obtain ⟨hlt, hrest⟩ := hs.of_continued hm
    rw [hother m hlt]
    exact ⟨by omega, hrest⟩
  case continued_nodup => exact hs.continued_nodup
  case continued_of_final =>
    intro m hlt hm hcont
    rcases hcases m hlt with rfl | hlt
    · simp [hnew] at hm
    · rw [hother m hlt] at hm hcont
      exact hs.continued_of_final hlt hm hcont

/-- A task that has not been started is awaited. -/
theorem awaitSuspend (hs : s.Consistent) {h m : ℕ} {code body : Code ν ε}
    {contexts contexts' : List (Context ν ε)} (hlt : h < m) (hmlt : m < s.next)
    (hc : (s.frames h).control = .running code contexts')
    (hm : (s.frames m).control = .initial body) :
    (s.awaitSuspend h m body contexts).Consistent := by
  have hne : h ≠ m := Nat.ne_of_lt hlt
  obtain ⟨hbody, hnone⟩ := hs.initial hmlt hm
  have hh : (s.awaitSuspend h m body contexts).frames h =
      { s.frames h with control := .awaiting m contexts } := by
    simp [TaskMachine.awaitSuspend, TaskMachine.start, TaskMachine.goto, modify, hne]
  have hmm : (s.awaitSuspend h m body contexts).frames m =
      { s.frames m with
        control := .running body []
        promise := { (s.frames m).promise with continuation := some h } } := by
    simp [TaskMachine.awaitSuspend, TaskMachine.start, TaskMachine.goto, modify, hne, hne.symm]
  have hother : ∀ n, n ≠ h → n ≠ m → (s.awaitSuspend h m body contexts).frames n = s.frames n := by
    intro n hnh hnm
    simp [TaskMachine.awaitSuspend, TaskMachine.start, TaskMachine.goto, modify, hnh, hnm]
  -- No other coroutine awaits the task, which has no continuation, or the one that runs now does.
  have hnoawait : ∀ n contexts, n < s.next → (s.frames n).control ≠ .awaiting m contexts := by
    intro n contexts hn heq
    have hcont := (hs.awaiting hn heq).2.1
    rw [hnone] at hcont
    cases hcont
  constructor
  case awaiting =>
    intro n k contexts' hn hk
    by_cases hnh : n = h
    · subst hnh
      rw [hh] at hk
      obtain ⟨rfl, rfl⟩ := Control.awaiting.inj hk
      rw [hmm]
      exact ⟨hmlt, rfl, nofun⟩
    · by_cases hnm : n = m
      · subst hnm
        simp [hmm] at hk
      · rw [hother n hnh hnm] at hk
        obtain ⟨hklt, hcont, hlive⟩ := hs.awaiting hn hk
        -- What another coroutine awaits is not the new task.
        have hkm : k ≠ m := by
          rintro rfl
          exact hnoawait n _ hn hk
        refine ⟨hklt, ?_⟩
        by_cases hkh : k = h
        · subst hkh
          rw [hh]
          exact ⟨hcont, nofun⟩
        · rw [hother k hkh hkm]
          exact ⟨hcont, hlive⟩
  case continuation =>
    intro k p hk hp
    by_cases hkm : k = m
    · subst hkm
      rw [hmm] at hp
      obtain rfl := Option.some.inj hp
      exact ⟨hlt, fun _ => ⟨contexts, by rw [hh]⟩⟩
    · have hp' : (s.frames k).promise.continuation = some p := by
        by_cases hkh : k = h
        · subst hkh
          rwa [hh] at hp
        · rwa [hother k hkh hkm] at hp
      obtain ⟨hpk, hawaited⟩ := hs.continuation hk hp'
      refine ⟨hpk, fun hlive => ?_⟩
      have hlive' : (s.frames k).control ≠ .final := by
        by_cases hkh : k = h
        · subst hkh
          rw [hc]
          nofun
        · rwa [hother k hkh hkm] at hlive
      obtain ⟨contexts'', hpc⟩ := hawaited hlive'
      -- A coroutine that awaits is neither the one that ran nor the new task.
      have hph : p ≠ h := by
        rintro rfl
        rw [hc] at hpc
        cases hpc
      have hpm : p ≠ m := by
        rintro rfl
        rw [hm] at hpc
        cases hpc
      exact ⟨contexts'', by rw [hother p hph hpm, hpc]⟩
  case exception_none =>
    intro k hk hlive
    by_cases hkm : k = m
    · subst hkm
      rw [hmm]
      exact hs.exception_none hk (by rw [hm]; nofun)
    · by_cases hkh : k = h
      · subst hkh
        rw [hh]
        exact hs.exception_none hk (by rw [hc]; nofun)
      · rw [hother k hkh hkm] at hlive ⊢
        exact hs.exception_none hk hlive
  case initial =>
    intro k body' hk hkc
    by_cases hkm : k = m
    · subst hkm
      simp [hmm] at hkc
    · by_cases hkh : k = h
      · subst hkh
        simp [hh] at hkc
      · rw [hother k hkh hkm] at hkc ⊢
        exact hs.initial hk hkc
  case resumptions_lt => exact fun hr hn => hs.resumptions_lt hr hn
  case of_continued =>
    intro k o hko
    obtain ⟨hk, hend, hrest⟩ := hs.of_continued hko
    have hkh : k ≠ h := by
      rintro rfl
      rw [hc] at hend
      cases hend
    have hkm : k ≠ m := by
      rintro rfl
      rw [hm] at hend
      cases hend
    rw [hother k hkh hkm]
    exact ⟨hk, hend, hrest⟩
  case continued_nodup => exact hs.continued_nodup
  case continued_of_final =>
    intro k hk hend hcont
    by_cases hkm : k = m
    · subst hkm
      simp [hmm] at hend
    · by_cases hkh : k = h
      · subst hkh
        simp [hh] at hend
      · rw [hother k hkh hkm] at hend hcont
        exact hs.continued_of_final hk hend hcont

/-- The end of a body: the outcome is in the promise, and what awaits the task goes on with it. -/
theorem finish_spec (hs : s.Consistent) {h : ℕ} {code : Code ν ε} {contexts : List (Context ν ε)}
    (hlt : h < s.next) (hc : (s.frames h).control = .running code contexts) (o : Outcome ν ε) :
    (s.finish h o).next = s.next ∧ (s.finish h o).resumptions = s.resumptions ∧
      ∃ f : Frame ν ε, f.body = (s.frames h).body ∧ f.control = .final ∧
        f.promise.continuation = (s.frames h).promise.continuation ∧ f.promise.awaitResume = o ∧
        (f.promise.continuation = none ∧ (s.finish h o).frames = Function.update s.frames h f ∧
            (s.finish h o).continued = s.continued ∨
          ∃ p contexts, f.promise.continuation = some p ∧ p ≠ h ∧ p < s.next ∧
            (s.frames p).control = .awaiting h contexts ∧
            (s.finish h o).frames = Function.update (Function.update s.frames h f) p
              { s.frames p with control := .running o.code contexts } ∧
            (s.finish h o).continued = s.continued ++ [(h, o)]) := by
  have hexc : (s.frames h).promise.exception = none := hs.exception_none hlt (by simp [hc])
  -- The promise takes the outcome, whatever it is.
  obtain ⟨f, hbody, hend, hcont, hresult, hfinish⟩ : ∃ f : Frame ν ε,
      f.body = (s.frames h).body ∧ f.control = .final ∧
        f.promise.continuation = (s.frames h).promise.continuation ∧ f.promise.awaitResume = o ∧
        s.finish h o = (s.modify h fun _ => f).finalSuspend h := by
    cases o with
    | value v =>
      refine ⟨⟨(s.frames h).body, .final, (s.frames h).promise.returnValue v⟩, rfl, rfl, rfl,
        ?_, ?_⟩
      · simp [Promise.returnValue, Promise.awaitResume, hexc]
      · simp [finish, finalSuspend, TaskMachine.goto, modify]
    | exception e =>
      refine ⟨⟨(s.frames h).body, .final, (s.frames h).promise.unhandledException e⟩, rfl, rfl, rfl,
        rfl, ?_⟩
      simp [finish, finalSuspend, TaskMachine.goto, modify]
  have hgoto : (s.modify h fun _ => f).goto h .final = s.modify h fun _ => f := by
    simp [TaskMachine.goto, modify, ← hend]
  rw [hfinish, finalSuspend, hgoto]
  have hh : (s.modify h fun _ => f).frames h = f := by simp [modify]
  cases hp : (s.frames h).promise.continuation with
  | none =>
    have hnone := hcont.trans hp
    simp only [hh, hnone]
    exact ⟨rfl, rfl, f, hbody, hend, hnone, hresult, .inl ⟨hnone, rfl, rfl⟩⟩
  | some p =>
    have hsome := hcont.trans hp
    -- Control passes to the continuation, which awaits this task.
    obtain ⟨hph, hawaited⟩ := hs.continuation hlt hp
    obtain ⟨contexts', hpc⟩ := hawaited (by simp [hc])
    have hne : p ≠ h := Nat.ne_of_lt hph
    have hpp : (s.modify h fun _ => f).frames p = s.frames p := by simp [modify, hne]
    simp only [hh, hsome, hpp, hpc]
    refine ⟨rfl, rfl, f, hbody, hend, hsome, hresult, .inr ⟨p, contexts', hsome, hne, by omega, hpc,
      ?_, ?_⟩⟩
    · simp only [resumeAwait, TaskMachine.goto, hh, hresult]
      simp [modify, hne]
    · simp only [resumeAwait, hh, hresult]
      rfl

/-- The end of a body is the end of its frame. -/
theorem finish_control (hs : s.Consistent) {h : ℕ} {code : Code ν ε}
    {contexts : List (Context ν ε)} (hlt : h < s.next)
    (hc : (s.frames h).control = .running code contexts) (o : Outcome ν ε) :
    ((s.finish h o).frames h).control = .final ∧
      ((s.finish h o).frames h).promise.awaitResume = o ∧
      ((s.finish h o).frames h).body = (s.frames h).body := by
  obtain ⟨-, -, f, hbody, hend, -, hresult, hcases⟩ := hs.finish_spec hlt hc o
  have hh : (s.finish h o).frames h = f := by
    rcases hcases with ⟨-, hframes, -⟩ | ⟨p, contexts', -, hne, -, -, hframes, -⟩
    · rw [hframes, Function.update_self]
    · rw [hframes, Function.update_of_ne hne.symm, Function.update_self]
  rw [hh]
  exact ⟨hend, hresult, hbody⟩

/-- Besides the frame that ends, only that of its continuation changes, which awaits it. -/
theorem finish_other (hs : s.Consistent) {h : ℕ} {code : Code ν ε}
    {contexts : List (Context ν ε)} (hlt : h < s.next)
    (hc : (s.frames h).control = .running code contexts) (o : Outcome ν ε) {n : ℕ} (hn : n ≠ h) :
    (s.finish h o).frames n = s.frames n ∨
      ∃ contexts, (s.frames h).promise.continuation = some n ∧
        (s.frames n).control = .awaiting h contexts ∧ (s.finish h o).frames n =
          { s.frames n with control := .running o.code contexts } := by
  obtain ⟨-, -, f, -, -, hcont, -, hcases⟩ := hs.finish_spec hlt hc o
  rcases hcases with ⟨-, hframes, -⟩ | ⟨p, contexts', hp, -, -, hpc, hframes, -⟩
  · rw [hframes, Function.update_of_ne hn]
    exact .inl rfl
  · by_cases hnp : n = p
    · subst hnp
      rw [hframes, Function.update_self]
      exact .inr ⟨contexts', hcont ▸ hp, hpc, rfl⟩
    · rw [hframes, Function.update_of_ne hnp, Function.update_of_ne hn]
      exact .inl rfl

/-- What awaits what stays as it is. -/
theorem finish_continuation (hs : s.Consistent) {h : ℕ} {code : Code ν ε}
    {contexts : List (Context ν ε)} (hlt : h < s.next)
    (hc : (s.frames h).control = .running code contexts) (o : Outcome ν ε) (n : ℕ) :
    ((s.finish h o).frames n).promise.continuation = (s.frames n).promise.continuation := by
  by_cases hn : n = h
  · obtain ⟨-, -, f, -, -, hcont, -, hcases⟩ := hs.finish_spec hlt hc o
    subst hn
    rcases hcases with ⟨-, hframes, -⟩ | ⟨p, contexts', -, hne, -, -, hframes, -⟩
    · rw [hframes, Function.update_self, hcont]
    · rw [hframes, Function.update_of_ne hne.symm, Function.update_self, hcont]
  · rcases hs.finish_other hlt hc o hn with heq | ⟨contexts, -, -, heq⟩ <;> rw [heq]

/-- The end of a body. -/
theorem finish (hs : s.Consistent) {h : ℕ} {code : Code ν ε} {contexts : List (Context ν ε)}
    (hlt : h < s.next) (hc : (s.frames h).control = .running code contexts) (o : Outcome ν ε) :
    (s.finish h o).Consistent := by
  obtain ⟨hnext, hres, f, -, -, hcont, -, hcases⟩ := hs.finish_spec hlt hc o
  obtain ⟨hend, hresult, -⟩ := hs.finish_control hlt hc o
  have hother := fun n hn => hs.finish_other hlt hc o (n := n) hn
  have hcontinuation := hs.finish_continuation hlt hc o
  -- What has not ended is another frame, which had not ended before either.
  have hlive : ∀ n, ((s.finish h o).frames n).control ≠ .final → n ≠ h ∧
      (s.frames n).control ≠ .final := by
    intro n hn
    have hne : n ≠ h := by
      rintro rfl
      exact hn hend
    rcases hother n hne with heq | ⟨contexts, -, hnc, -⟩
    · exact ⟨hne, heq ▸ hn⟩
    · exact ⟨hne, by rw [hnc]; nofun⟩
  have hsame : ∀ n, n ≠ h → (∀ contexts, (s.frames n).control ≠ .awaiting h contexts) →
      (s.finish h o).frames n = s.frames n := by
    intro n hn hnot
    rcases hother n hn with heq | ⟨contexts, -, hnc, -⟩
    · exact heq
    · exact absurd hnc (hnot contexts)
  have hrunning : (s.frames h).control ≠ .final := by
    rw [hc]
    nofun
  constructor
  case awaiting =>
    intro n m contexts' hn hm
    rw [hnext] at hn ⊢
    have hnh : n ≠ h := by
      rintro rfl
      rw [hend] at hm
      cases hm
    rcases hother n hnh with heq | ⟨contexts'', -, -, heq⟩
    · rw [heq] at hm
      obtain ⟨hmlt, hmc, hmlive⟩ := hs.awaiting hn hm
      refine ⟨hmlt, (hcontinuation m).trans hmc, ?_⟩
      -- What awaits the task that ends is its continuation, which runs on.
      have hmh : m ≠ h := by
        rintro rfl
        rcases hcases with ⟨hnone, -⟩ | ⟨p, contexts', hp, -, -, -, hframes, -⟩
        · rw [← hcont, hnone] at hmc
          cases hmc
        · rw [← hcont, hp] at hmc
          obtain rfl := Option.some.inj hmc
          rw [hframes, Function.update_self] at heq
          rw [← heq] at hm
          cases hm
      rcases hother m hmh with heq' | ⟨contexts'', -, -, heq'⟩ <;> rw [heq']
      · exact hmlive
      · nofun
    · rw [heq] at hm
      cases hm
  case continuation =>
    intro m q hm hq
    rw [hnext] at hm
    rw [hcontinuation] at hq
    obtain ⟨hqm, hawaited⟩ := hs.continuation hm hq
    refine ⟨hqm, fun hmlive => ?_⟩
    obtain ⟨hmh, hmlive⟩ := hlive m hmlive
    obtain ⟨contexts', hqc⟩ := hawaited hmlive
    refine ⟨contexts', ?_⟩
    rw [hsame q ?_ ?_, hqc]
    · rintro rfl
      rw [hc] at hqc
      cases hqc
    · intro contexts'' heq
      rw [hqc] at heq
      exact hmh (Control.awaiting.inj heq).1
  case exception_none =>
    intro m hm hmlive
    rw [hnext] at hm
    obtain ⟨hmh, hmlive⟩ := hlive m hmlive
    have hold := hs.exception_none hm hmlive
    rcases hother m hmh with heq | ⟨contexts', -, -, heq⟩ <;> rwa [heq]
  case initial =>
    intro m body hm hmc
    rw [hnext] at hm
    have hmh : m ≠ h := by
      rintro rfl
      rw [hend] at hmc
      cases hmc
    rcases hother m hmh with heq | ⟨contexts', -, -, heq⟩
    · rw [heq] at hmc ⊢
      exact hs.initial hm hmc
    · rw [heq] at hmc
      cases hmc
  case resumptions_lt =>
    intro r n hr hn
    rw [hnext]
    exact hs.resumptions_lt (hres ▸ hr) hn
  case of_continued =>
    intro m o' hm
    -- A task that had ended before is not concerned.
    have hold : (m, o') ∈ s.continued → m < (s.finish h o).next ∧
        ((s.finish h o).frames m).control = .final ∧
        ((s.finish h o).frames m).promise.awaitResume = o' ∧
        ((s.finish h o).frames m).promise.continuation ≠ none := by
      intro hm
      obtain ⟨hmlt, hmend, hrest⟩ := hs.of_continued hm
      rw [hnext, hsame m ?_ ?_]
      · exact ⟨hmlt, hmend, hrest⟩
      · rintro rfl
        exact hrunning hmend
      · rw [hmend]
        nofun
    rcases hcases with ⟨-, -, hlog⟩ | ⟨p, contexts', hp, -, -, -, -, hlog⟩ <;> rw [hlog] at hm
    · exact hold hm
    · rcases List.mem_append.mp hm with hm | hm
      · exact hold hm
      · obtain ⟨rfl, rfl⟩ := Prod.mk.inj (List.mem_singleton.mp hm)
        rw [hnext, hcontinuation, ← hcont, hp]
        exact ⟨hlt, hend, hresult, nofun⟩
  case continued_nodup =>
    rcases hcases with ⟨-, -, hlog⟩ | ⟨p, contexts', -, -, -, -, -, hlog⟩ <;> rw [hlog]
    · exact hs.continued_nodup
    · rw [List.map_append, List.nodup_append]
      refine ⟨hs.continued_nodup, by simp, ?_⟩
      rintro n hn k hk rfl
      rw [List.map_singleton, List.mem_singleton] at hk
      obtain ⟨⟨m, o'⟩, hm, rfl⟩ := List.mem_map.mp hn
      obtain rfl : m = h := hk
      exact hrunning (hs.of_continued hm).2.1
  case continued_of_final =>
    intro m hm hmend hmcont
    rw [hnext] at hm
    rw [hcontinuation] at hmcont
    by_cases hmh : m = h
    · subst hmh
      rcases hcases with ⟨hnone, -⟩ | ⟨p, contexts', -, -, -, -, -, hlog⟩
      · exact absurd (hcont ▸ hnone) hmcont
      · exact ⟨o, by rw [hlog]; simp⟩
    · rcases hother m hmh with heq | ⟨contexts', -, -, heq⟩
      · rw [heq] at hmend
        obtain ⟨o', ho'⟩ := hs.continued_of_final hm hmend hmcont
        rcases hcases with ⟨-, -, hlog⟩ | ⟨p, contexts', -, -, -, -, -, hlog⟩ <;> rw [hlog]
        · exact ⟨o', ho'⟩
        · exact ⟨o', List.mem_append_left _ ho'⟩
      · rw [heq] at hmend
        cases hmend

/-- Every step keeps the links. -/
theorem step [Inhabited ν] (hs : s.Consistent) {a : TaskStep ν ε} (hstep : taskStep s a t) :
    t.Consistent := by
  cases StepCase.of_step hstep with
  | create => exact hs.create _
  | @start h body hlt hc =>
    exact hs.goto (c := .running body []) (by rw [hc]; trivial) trivial nofun
      fun r hr n hn => hs.resumptions_lt hr hn
  | @inside h code code' contexts contexts' hlt hc hplug =>
    exact hs.goto (c := .running code' contexts') (by rw [hc]; trivial) trivial nofun
      fun r hr n hn => hs.resumptions_lt hr hn
  | @suspend h contexts hlt hc =>
    exact hs.goto (c := .suspended contexts) (by rw [hc]; trivial) trivial nofun
      fun r hr n hn => hs.resumptions_lt hr hn
  | @call h task contexts hlt hc =>
    have hnew : ((s.create task).frames s.next).control = .initial task := by
      simp [TaskMachine.create]
    have hold : ((s.create task).frames h).control = .running (.await task) contexts := by
      simp only [TaskMachine.create, Function.update_of_ne (Nat.ne_of_lt hlt), hc]
    exact (hs.create task).awaitSuspend hlt (Nat.lt_succ_self _) hold hnew
  | finish hlt hc => exact hs.finish hlt hc _
  | @resume h contexts input hlt hc =>
    refine hs.goto (c := .running input.code contexts) (by rw [hc]; trivial) trivial nofun ?_
    intro r hr n hn
    rcases List.mem_append.mp hr with hr | hr
    · exact hs.resumptions_lt hr hn
    · obtain rfl := List.mem_singleton.mp hr
      exact hs.callers_lt hlt hn

end Consistent

end TaskMachine

end Novaio
