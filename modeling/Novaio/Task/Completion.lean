import Novaio.Task.Rest

/-!
# Tasks get to their ends

A coroutine that runs gets to the outcome of the code that it executes, by its own steps, those of
the tasks that it awaits, and the resumptions of the operations that it asks for
(`Consistent.executes`, by induction on the code as `Code.evaluate` takes it). The frames below its
own stay as they are meanwhile, so that whatever awaits it is there when it ends. From where a task
is in any state it therefore gets to the end of its body (`TaskMachine.Sound.completes`).
-/

namespace Novaio

open Transition Interaction

variable {ν ε : Type*}

namespace TaskMachine

variable {s t u : TaskMachine ν ε} {h m : ℕ} {used used' : List (Outcome ν ε)}

/-- A coroutine and the tasks that it awaits have gone on, with these inputs. The coroutines that
are older are where they were. -/
structure Went [Inhabited ν] (s t : TaskMachine ν ε) (h : ℕ) (used : List (Outcome ν ε)) :
    Prop where
  reachable : Reachable taskStep s t
  consistent : t.Consistent
  next_le : s.next ≤ t.next
  older : ∀ n < h, t.frames n = s.frames n
  body : (t.frames h).body = (s.frames h).body
  promise : (t.frames h).promise = (s.frames h).promise
  inputs : ∀ n ∈ s.callers s.next h, t.inputs n = s.inputs n ++ used

/-- The callers of a frame do not change with what is younger. -/
theorem Consistent.callers_congr (hs : s.Consistent) (ht : t.Consistent) (hnext : s.next ≤ t.next)
    (hlt : h < s.next) (holder : ∀ n < h, t.frames n = s.frames n)
    (hpromise : (t.frames h).promise = (s.frames h).promise) :
    t.callers t.next h = s.callers s.next h := by
  induction h using Nat.strongRecOn with
  | ind h ih =>
    rw [hs.callers_cons hlt, ht.callers_cons (by omega), hpromise]
    cases hp : (s.frames h).promise.continuation with
    | none => rfl
    | some p =>
      have hph := (hs.continuation hlt hp).1
      simp only
      rw [ih p hph (by omega) (fun n hn => holder n (by omega)) (by rw [holder p hph])]

/-- What awaits a task is one of its callers, and so are the callers of that. -/
theorem Consistent.mem_callers_of_continuation (hs : s.Consistent) (hm : m < s.next)
    (hcont : (s.frames m).promise.continuation = some h) {n : ℕ} (hn : n ∈ s.callers s.next h) :
    n ∈ s.callers s.next m := by
  rw [hs.callers_cons hm, hcont]
  exact List.mem_cons_of_mem _ hn

/-- Where the coroutine is after it has moved. -/
theorem goto_control (s : TaskMachine ν ε) (h : ℕ) (c : Control ν ε) :
    ((s.goto h c).frames h).control = c := by simp [goto, modify]

variable [Inhabited ν]

namespace Went

/-- Nothing has happened. -/
theorem refl (hs : s.Consistent) (h : ℕ) : Went s s h [] :=
  ⟨Reachable.refl taskStep s, hs, Nat.le_refl _, fun _ _ => rfl, rfl, rfl, fun _ _ => by simp⟩

/-- One thing after another. -/
theorem trans (hs : s.Consistent) (hlt : h < s.next) (h1 : Went s t h used)
    (h2 : Went t u h used') : Went s u h (used ++ used') := by
  refine ⟨h1.reachable.trans h2.reachable, h2.consistent, Nat.le_trans h1.next_le h2.next_le,
    fun n hn => (h2.older n hn).trans (h1.older n hn), h2.body.trans h1.body,
    h2.promise.trans h1.promise, fun n hn => ?_⟩
  have hcallers := hs.callers_congr h1.consistent h1.next_le hlt h1.older h1.promise
  rw [h2.inputs n (hcallers ▸ hn), h1.inputs n hn, List.append_assoc]

/-- A step of the coroutine inside of its body. -/
theorem of_goto (hs : s.Consistent) {a : TaskStep ν ε} {c : Control ν ε}
    (hstep : taskStep s a (s.goto h c)) : Went s (s.goto h c) h [] := by
  refine ⟨(Reachable.refl taskStep s).step hstep, hs.step hstep, Nat.le_refl _, fun n hn => ?_,
    ?_, ?_, fun n _ => by simp [TaskMachine.inputs, goto, modify]⟩
  · simp [goto, modify, Nat.ne_of_lt hn]
  · simp [goto, modify]
  · simp [goto, modify]

end Went

/-- An operation that the coroutine asks for, and its resumption. -/
theorem Consistent.resumes (hs : s.Consistent) (hlt : h < s.next) {contexts : List (Context ν ε)}
    (hc : (s.frames h).control = .suspended contexts) (o : Outcome ν ε) :
    ∃ t, Went s t h [o] ∧ (t.frames h).control = .running o.code contexts := by
  let t : TaskMachine ν ε := { s.goto h (.running o.code contexts) with
    resumptions := s.resumptions ++ [(s.callers s.next h, o)] }
  have hstep : taskStep s (.resume h o) t := by simp [taskStep, TaskMachine.step, hc, hlt, t]
  refine ⟨t, ⟨(Reachable.refl taskStep s).step hstep, hs.step hstep, Nat.le_refl _, fun n hn => ?_,
    ?_, ?_, fun n hn => ?_⟩, goto_control s h _⟩
  · simp [t, TaskMachine.goto, modify, Nat.ne_of_lt hn]
  · simp [t, TaskMachine.goto, modify]
  · simp [t, TaskMachine.goto, modify]
  · simp [t, inputs, hn]

/-- The await of a task: the task runs, with the coroutine as its continuation. -/
theorem exists_call (hlt : h < s.next) {task : Code ν ε}
    {contexts : List (Context ν ε)}
    (hc : (s.frames h).control = .running (.await task) contexts) :
    ∃ t, taskStep s (.run h) t ∧ t.next = s.next + 1 ∧
      (t.frames h).control = .awaiting s.next contexts ∧
      t.frames s.next = ⟨task, .running task [], { value := default, continuation := some h }⟩ ∧
      (∀ n < s.next, n ≠ h → t.frames n = s.frames n) ∧
      (t.frames h).body = (s.frames h).body ∧ (t.frames h).promise = (s.frames h).promise ∧
      t.resumptions = s.resumptions := by
  have hne : h ≠ s.next := Nat.ne_of_lt hlt
  refine ⟨(s.create task).awaitSuspend h s.next task contexts,
    by simp [taskStep, step, hc, hlt, execute], rfl, ?_, ?_, ?_, ?_, ?_, rfl⟩
  · simp [awaitSuspend, start, goto, modify, hne]
  · simp [awaitSuspend, start, goto, modify, hne, hne.symm, create]
  · intro n hn hnh
    simp [awaitSuspend, start, goto, modify, hnh, Nat.ne_of_lt hn, create]
  · simp [awaitSuspend, start, goto, modify, hne, create]
  · simp [awaitSuspend, start, goto, modify, hne, create]

/-- The step in which a body ends. -/
theorem step_finish (hlt : m < s.next) {o : Outcome ν ε}
    (hc : (s.frames m).control = .running o.code []) : taskStep s (.run m) (s.finish m o) := by
  cases o with
  | value v =>
    have hc : (s.frames m).control = .running (.pure v) [] := hc
    simp [taskStep, step, hc, hlt, execute, endPart]
  | exception e =>
    have hc : (s.frames m).control = .running (.throw e) [] := hc
    simp [taskStep, step, hc, hlt, execute, endPart]

omit [Inhabited ν] in
/-- The end of a task: its outcome is in its promise, and what awaits it goes on with the
outcome. -/
theorem Consistent.returns (hs : s.Consistent) (hlt : m < s.next) {o : Outcome ν ε}
    (hc : (s.frames m).control = .running o.code []) {p : ℕ}
    (hp : (s.frames m).promise.continuation = some p) :
    ∃ contexts, (s.frames p).control = .awaiting m contexts ∧
      (s.finish m o).frames p = { s.frames p with control := .running o.code contexts } ∧
      (s.finish m o).continued = s.continued ++ [(m, o)] := by
  obtain ⟨-, -, f, -, -, hcont, -, hcases⟩ := hs.finish_spec hlt hc o
  rcases hcases with ⟨hnone, -⟩ | ⟨p', contexts, hp', -, -, hpc, hframes, hlog⟩
  · rw [hcont, hp] at hnone
    cases hnone
  · rw [hcont, hp] at hp'
    obtain rfl := Option.some.inj hp'
    exact ⟨contexts, hpc, by rw [hframes, Function.update_self], hlog⟩

/-- When the task that it awaits has ended, a coroutine has gone on with what the task has used. -/
theorem Went.returned (hs : s.Consistent) (hm : m < s.next) {contexts : List (Context ν ε)}
    (hc : (s.frames h).control = .awaiting m contexts)
    (hcont : (s.frames m).promise.continuation = some h) (hwent : Went s t m used)
    {o : Outcome ν ε} (ht : (t.frames m).control = .running o.code []) :
    ∃ u, Went s u h used ∧ (u.frames h).control = .running o.code contexts := by
  have hhm : h < m := (hs.continuation hm hcont).1
  have hmt : m < t.next := Nat.lt_of_lt_of_le hm hwent.next_le
  have hframe : t.frames h = s.frames h := hwent.older h hhm
  have hstep := step_finish hmt ht
  obtain ⟨hnext, hres, -⟩ := hwent.consistent.finish_spec hmt ht o
  obtain ⟨contexts', hc', hh, -⟩ := hwent.consistent.returns hmt ht (by rw [hwent.promise, hcont])
  -- The coroutine still awaits the task.
  rw [hframe, hc] at hc'
  obtain ⟨-, rfl⟩ := Control.awaiting.inj hc'
  rw [hframe] at hh
  refine ⟨t.finish m o, ⟨hwent.reachable.step hstep, hwent.consistent.step hstep, ?_, ?_, ?_, ?_,
    ?_⟩, by rw [hh]⟩
  · rw [hnext]
    exact hwent.next_le
  · intro n hn
    have hnm : n ≠ m := by omega
    rw [← hwent.older n (by omega)]
    rcases hwent.consistent.finish_other hmt ht o hnm with heq | ⟨contexts', hn', -, -⟩
    · exact heq
    · rw [hwent.promise, hcont] at hn'
      obtain rfl := Option.some.inj hn'
      omega
  · rw [hh]
  · rw [hh]
  · intro n hn
    have hinputs := hwent.inputs n (hs.mem_callers_of_continuation hm hcont hn)
    rw [← hinputs]
    unfold TaskMachine.inputs
    rw [hres]

/-- A part of a body ends, and its context goes on with the outcome. -/
theorem Consistent.endsPart (hs : s.Consistent) (hlt : h < s.next) {o : Outcome ν ε}
    {context : Context ν ε} {contexts : List (Context ν ε)}
    (hc : (s.frames h).control = .running o.code (context :: contexts)) :
    ∃ t, Went s t h [] ∧ (t.frames h).control = .running (context.resume o) contexts := by
  have hstep : taskStep s (.run h) (s.goto h (.running (context.resume o) contexts)) := by
    cases o with
    | value v =>
      have hc : (s.frames h).control = .running (.pure v) (context :: contexts) := hc
      simp [taskStep, TaskMachine.step, hc, hlt, execute, endPart]
    | exception e =>
      have hc : (s.frames h).control = .running (.throw e) (context :: contexts) := hc
      simp [taskStep, TaskMachine.step, hc, hlt, execute, endPart]
  exact ⟨_, Went.of_goto hs hstep, goto_control s h _⟩

/-- What a coroutine does until the code that it executes has its outcome. -/
def Executes (code : Code ν ε) : Prop :=
  ∀ (s : TaskMachine ν ε) (h : ℕ) (contexts : List (Context ν ε))
    (inputs rest : List (Outcome ν ε)) (o : Outcome ν ε), s.Consistent → h < s.next →
    (s.frames h).control = .running code contexts → code.evaluate inputs = some (o, rest) →
    ∃ t used, inputs = used ++ rest ∧ Went s t h used ∧
      (t.frames h).control = .running o.code contexts

/-- One part of a body after another. -/
theorem Executes.part {code whole : Code ν ε} (context : Context ν ε) (hcode : Executes code)
    (hrest : ∀ o, Executes (context.resume o))
    (hplug : ∀ (s : TaskMachine ν ε) h contexts, h < s.next →
      (s.frames h).control = .running whole contexts →
        taskStep s (.run h) (s.goto h (.running code (context :: contexts))))
    (heval : ∀ inputs, whole.evaluate inputs =
      (code.evaluate inputs).bind fun r => (context.resume r.1).evaluate r.2) :
    Executes whole := by
  intro s h contexts inputs rest o hs hlt hc hrun
  rw [heval, Option.bind_eq_some_iff] at hrun
  obtain ⟨⟨o₁, rest₁⟩, hfirst, hsecond⟩ := hrun
  have h1 := Went.of_goto hs (hplug s h contexts hlt hc)
  obtain ⟨t₂, used, hused, h2, hc2⟩ := hcode _ h (context :: contexts) inputs rest₁ o₁ h1.consistent
    hlt (goto_control s h _) hfirst
  have hlt2 : h < t₂.next := Nat.lt_of_lt_of_le hlt h2.next_le
  obtain ⟨t₃, h3, hc3⟩ := h2.consistent.endsPart hlt2 hc2
  obtain ⟨t₄, used', hused', h4, hc4⟩ := hrest o₁ t₃ h contexts rest₁ rest o h3.consistent
    (Nat.lt_of_lt_of_le hlt2 h3.next_le) hc3 hsecond
  refine ⟨t₄, used ++ used', by rw [hused, hused', List.append_assoc], ?_, hc4⟩
  have hall := ((h1.trans hs hlt h2).trans hs hlt h3).trans hs hlt h4
  simpa using hall

/-- A value, or an exception. -/
theorem Executes.of_outcome (o : Outcome ν ε) : Executes o.code := by
  intro s h contexts inputs rest o' hs hlt hc hrun
  obtain ⟨rfl, rfl⟩ : o = o' ∧ inputs = rest := by
    cases o <;> simpa [Outcome.code, Code.evaluate] using hrun
  exact ⟨s, [], rfl, Went.refl hs h, hc⟩

/-- A coroutine gets to the outcome of the code that it executes. By induction on the code. -/
theorem executes (code : Code ν ε) : Executes code := by
  induction code with
  | pure v => exact Executes.of_outcome (.value v)
  | throw e => exact Executes.of_outcome (.exception e)
  | suspend =>
    intro s h contexts inputs rest o hs hlt hc hrun
    cases inputs with
    | nil => simp [Code.evaluate] at hrun
    | cons input inputs =>
      obtain ⟨rfl, rfl⟩ : input = o ∧ inputs = rest := by simpa [Code.evaluate] using hrun
      have hstep : taskStep s (.run h) (s.goto h (.suspended contexts)) := by
        simp [taskStep, step, hc, hlt, execute]
      have h1 := Went.of_goto hs hstep
      obtain ⟨t, h2, hc2⟩ := h1.consistent.resumes hlt (goto_control s h _) input
      exact ⟨t, [input], rfl, h1.trans hs hlt h2, hc2⟩
  | await task ih =>
    intro s h contexts inputs rest o hs hlt hc hrun
    obtain ⟨t₁, hstep, hnext, hawait, hchild, hother, hbody, hpromise, hres⟩ := exists_call hlt hc
    have h1 : Went s t₁ h [] := by
      refine ⟨(Reachable.refl taskStep s).step hstep, hs.step hstep, by omega,
        fun n hn => hother n (by omega) (by omega), hbody, hpromise, fun n _ => ?_⟩
      simp [TaskMachine.inputs, hres]
    obtain ⟨t₂, used, hused, h2, hc2⟩ := ih t₁ s.next [] inputs rest o h1.consistent (by omega)
      (by rw [hchild]) hrun
    obtain ⟨t₃, h3, hc3⟩ := h2.returned h1.consistent (by omega) hawait (by rw [hchild]) hc2
    exact ⟨t₃, used, hused, h1.trans hs hlt h3, hc3⟩
  | bind code rest ih ihrest =>
    refine Executes.part (.rest rest) ih (fun o => ?_) (fun s h contexts hlt hc => ?_)
      fun inputs => ?_
    · cases o with
      | value v => exact ihrest v
      | exception e => exact Executes.of_outcome (.exception e)
    · simp [taskStep, step, hc, hlt, execute]
    · rw [Code.evaluate_eq_run, Code.direct_bind, Comp.run_bind]
      simp only [Code.evaluate_eq_run]
  | tryCatch code handler ih ihhandler =>
    refine Executes.part (.handler handler) ih (fun o => ?_)
      (fun s h contexts hlt hc => ?_) fun inputs => ?_
    · cases o with
      | value v => exact Executes.of_outcome (.value v)
      | exception e => exact ihhandler e
    · simp [taskStep, step, hc, hlt, execute]
    · rw [Code.evaluate_eq_run, Code.direct_tryCatch, Comp.run_bind]
      simp only [Code.evaluate_eq_run]

omit [Inhabited ν] in
/-- What is left inside of contexts takes its inputs before the contexts do. -/
theorem run_plug (contexts : List (Context ν ε)) (c : Comp (Outcome ν ε) (Outcome ν ε))
    (inputs : List (Outcome ν ε)) : (plug contexts c).run inputs =
      (c.run inputs).bind fun r => (plug contexts (.done r.1)).run r.2 := by
  induction contexts generalizing c inputs with
  | nil => cases hc : c.run inputs <;> simp [plug, hc, Comp.run]
  | cons context contexts ih =>
    rw [plug, ih, Comp.run_bind, Option.bind_assoc]
    congr 1
    funext r
    rw [plug, ih]
    rfl

/-- A coroutine gets to the end of its body. By induction on its contexts. -/
theorem executes_contexts (hs : s.Consistent) (hlt : h < s.next) {code : Code ν ε}
    {contexts : List (Context ν ε)} (hc : (s.frames h).control = .running code contexts)
    {inputs rest : List (Outcome ν ε)} {o : Outcome ν ε}
    (hrun : (plug contexts code.direct).run inputs = some (o, rest)) :
    ∃ t used, inputs = used ++ rest ∧ Went s t h used ∧
      (t.frames h).control = .running o.code [] := by
  induction contexts generalizing s code inputs with
  | nil => exact executes code s h [] inputs rest o hs hlt hc (by rwa [Code.evaluate_eq_run])
  | cons context contexts ih =>
    rw [run_plug, Option.bind_eq_some_iff] at hrun
    obtain ⟨⟨o₁, rest₁⟩, hfirst, hsecond⟩ := hrun
    simp only at hsecond
    rw [← Code.evaluate_eq_run] at hfirst
    obtain ⟨t₁, used, hused, h1, hc1⟩ := executes code s h _ inputs rest₁ o₁ hs hlt hc hfirst
    have hlt1 : h < t₁.next := Nat.lt_of_lt_of_le hlt h1.next_le
    obtain ⟨t₂, h2, hc2⟩ := h1.consistent.endsPart hlt1 hc1
    obtain ⟨t₃, used', hused', h3, hc3⟩ := ih h2.consistent (Nat.lt_of_lt_of_le hlt1 h2.next_le)
      hc2 hsecond
    refine ⟨t₃, used ++ used', by rw [hused, hused', List.append_assoc], ?_, hc3⟩
    have hall := (h1.trans hs hlt h2).trans hs hlt h3
    simpa using hall

/-- A task that has not ended gets to the end of its body, from wherever it is. By induction on what
is left of it. -/
theorem Rest.completes {r : Comp (Outcome ν ε) (Outcome ν ε)} (hr : s.Rest h r)
    (hs : s.Consistent) (hlt : h < s.next) (hlive : (s.frames h).control ≠ .final)
    {inputs rest : List (Outcome ν ε)} {o : Outcome ν ε} (hrun : r.run inputs = some (o, rest)) :
    ∃ t used, inputs = used ++ rest ∧ Went s t h used ∧
      (t.frames h).control = .running o.code [] := by
  induction hr generalizing inputs o rest with
  | @initial h body hc =>
    have hstep : taskStep s (.start h) (s.goto h (.running body [])) := by
      simp [taskStep, step, hc, hlt, start]
    have h1 := Went.of_goto hs hstep
    have hrun : (plug [] body.direct).run inputs = some (o, rest) := hrun
    obtain ⟨t, used, hused, h2, hc2⟩ :=
      executes_contexts h1.consistent hlt (goto_control s h _) hrun
    exact ⟨t, used, hused, h1.trans hs hlt h2, hc2⟩
  | @running h code contexts hc => exact executes_contexts hs hlt hc hrun
  | @suspended h contexts hc =>
    rw [plug_ask] at hrun
    cases inputs with
    | nil => simp [Comp.run] at hrun
    | cons input inputs =>
      obtain ⟨t₁, h1, hc1⟩ := hs.resumes hlt hc input
      obtain ⟨t₂, used, hused, h2, hc2⟩ := executes_contexts h1.consistent
        (Nat.lt_of_lt_of_le hlt h1.next_le) hc1 (by rwa [Outcome.direct_code])
      exact ⟨t₂, [input] ++ used, by rw [hused]; rfl, h1.trans hs hlt h2, hc2⟩
  | @awaiting h m contexts r hc hm ih =>
    rw [run_plug, Option.bind_eq_some_iff] at hrun
    obtain ⟨⟨o₁, rest₁⟩, hfirst, hsecond⟩ := hrun
    simp only at hsecond
    obtain ⟨hmlt, hcont, hmlive⟩ := hs.awaiting hlt hc
    obtain ⟨t₁, used, hused, h1, hc1⟩ := ih hmlt hmlive hfirst
    obtain ⟨t₂, h2, hc2⟩ := h1.returned hs hmlt hc hcont hc1
    obtain ⟨t₃, used', hused', h3, hc3⟩ := executes_contexts h2.consistent
      (Nat.lt_of_lt_of_le hlt h2.next_le) hc2 (by rwa [Outcome.direct_code])
    exact ⟨t₃, used ++ used', by rw [hused, hused', List.append_assoc], h2.trans hs hlt h3, hc3⟩
  | final hc => exact (hlive hc).elim

/-- A task gets to its end, with the inputs that its body takes as an ordinary function. -/
theorem Sound.completes (hsound : s.Sound) (hs : s.Consistent) (hlt : h < s.next)
    {inputs : List (Outcome ν ε)} {o : Outcome ν ε}
    (heval : (s.frames h).body.evaluate (s.inputs h ++ inputs) = some (o, [])) :
    ∃ t, Reachable taskStep s t ∧ (t.frames h).body = (s.frames h).body ∧
      t.inputs h = s.inputs h ++ inputs ∧ (t.frames h).control = .final ∧
      (t.frames h).promise.awaitResume = o := by
  obtain ⟨r, hr, hfeed⟩ := hsound h hlt
  rw [Code.evaluate_eq_run, Comp.run_append_of_feed hfeed] at heval
  by_cases hfinal : (s.frames h).control = .final
  · rw [hr.of_final hfinal] at heval
    obtain ⟨rfl, rfl⟩ : (s.frames h).promise.awaitResume = o ∧ inputs = [] := by
      simpa [Comp.run] using heval
    exact ⟨s, Reachable.refl taskStep s, rfl, by simp, hfinal, rfl⟩
  · obtain ⟨t, used, hused, h1, hc⟩ := hr.completes hs hlt hfinal heval
    have hltt : h < t.next := Nat.lt_of_lt_of_le hlt h1.next_le
    obtain ⟨hend, hresult, hbody⟩ := h1.consistent.finish_control hltt hc o
    obtain ⟨-, hres, -⟩ := h1.consistent.finish_spec hltt hc o
    refine ⟨t.finish h o, h1.reachable.step (step_finish hltt hc), hbody.trans h1.body, ?_, hend,
      hresult⟩
    have hinputs := h1.inputs h (hs.mem_callers_self hlt)
    rw [hused, List.append_nil, ← hinputs]
    unfold TaskMachine.inputs
    rw [hres]

end TaskMachine

end Novaio
