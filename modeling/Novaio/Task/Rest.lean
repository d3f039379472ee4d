import Novaio.Task.Links

/-!
# What is left of a task

In every state, what is left of a task is read off its frame: the part that it executes in its
contexts, or the rest of the task that it awaits in its contexts, and so on to the coroutine that
runs or is suspended (`TaskMachine.Rest`). A step of a coroutine leaves the rest of every task as it
is, at a call, at a return and inside of a body; the resumption of an operation gives its outcome to
the rest of the coroutine that is suspended for it and of its callers, and to no other. So the rest
of a task is at all times its body, run as an ordinary function on the inputs that it has got
(`TaskMachine.Sound`).
-/

namespace Novaio

open Transition Interaction

variable {ν ε : Type*}

namespace TaskMachine

variable {s t : TaskMachine ν ε}

/-- What is left of a task. -/
inductive Rest (s : TaskMachine ν ε) : ℕ → Comp (Outcome ν ε) (Outcome ν ε) → Prop where
  | initial {h : ℕ} {body : Code ν ε} (hc : (s.frames h).control = .initial body) :
    Rest s h body.direct
  | running {h : ℕ} {code : Code ν ε} {contexts : List (Context ν ε)}
    (hc : (s.frames h).control = .running code contexts) : Rest s h (plug contexts code.direct)
  | suspended {h : ℕ} {contexts : List (Context ν ε)}
    (hc : (s.frames h).control = .suspended contexts) : Rest s h (plug contexts (.ask .done))
  | awaiting {h m : ℕ} {contexts : List (Context ν ε)} {r : Comp (Outcome ν ε) (Outcome ν ε)}
    (hc : (s.frames h).control = .awaiting m contexts) (hm : Rest s m r) :
    Rest s h (plug contexts r)
  | final {h : ℕ} (hc : (s.frames h).control = .final) :
    Rest s h (.done (s.frames h).promise.awaitResume)

/-- What is left of a task is its body, run as an ordinary function on its inputs. -/
def Sound (s : TaskMachine ν ε) : Prop :=
  ∀ h < s.next, ∃ r, s.Rest h r ∧ (s.frames h).body.direct.feed (s.inputs h) = some r

/-! ## Steps and what is left -/

/-- Where what is left of the frames that change stays, what is left of every task does. -/
theorem Rest.transfer (hs : s.Consistent) (changed : ℕ → Prop)
    (hframes : ∀ n < s.next, ¬ changed n → t.frames n = s.frames n)
    (hrest : ∀ n, changed n → ∀ r, s.Rest n r → t.Rest n r) {n : ℕ} (hn : n < s.next)
    {r : Comp (Outcome ν ε) (Outcome ν ε)} (hr : s.Rest n r) : t.Rest n r := by
  induction hr with
  | @initial n body hc =>
    by_cases hnc : changed n
    · exact hrest n hnc _ (.initial hc)
    · exact .initial (by rw [hframes n hn hnc, hc])
  | @running n code contexts hc =>
    by_cases hnc : changed n
    · exact hrest n hnc _ (.running hc)
    · exact .running (by rw [hframes n hn hnc, hc])
  | @suspended n contexts hc =>
    by_cases hnc : changed n
    · exact hrest n hnc _ (.suspended hc)
    · exact .suspended (by rw [hframes n hn hnc, hc])
  | @awaiting n m contexts r hc hm ih =>
    by_cases hnc : changed n
    · exact hrest n hnc _ (.awaiting hc hm)
    · exact .awaiting (by rw [hframes n hn hnc, hc]) (ih (hs.awaiting hn hc).1)
  | @final n hc =>
    by_cases hnc : changed n
    · exact hrest n hnc _ (.final hc)
    · rw [← hframes n hn hnc]
      exact .final (by rw [hframes n hn hnc, hc])

/-- What is left of a task that runs. -/
theorem Rest.of_running {h : ℕ} {code : Code ν ε} {contexts : List (Context ν ε)}
    {r : Comp (Outcome ν ε) (Outcome ν ε)} (hr : s.Rest h r)
    (hc : (s.frames h).control = .running code contexts) : r = plug contexts code.direct := by
  cases hr with
  | running hc' =>
    rw [hc] at hc'
    obtain ⟨rfl, rfl⟩ := Control.running.inj hc'
    rfl
  | initial hc' => simp [hc] at hc'
  | suspended hc' => simp [hc] at hc'
  | awaiting hc' hm => simp [hc] at hc'
  | final hc' => simp [hc] at hc'

/-- What is left of a task that awaits another one. -/
theorem Rest.of_awaiting {h m : ℕ} {contexts : List (Context ν ε)}
    {r : Comp (Outcome ν ε) (Outcome ν ε)} (hr : s.Rest h r)
    (hc : (s.frames h).control = .awaiting m contexts) :
    ∃ r', s.Rest m r' ∧ r = plug contexts r' := by
  cases hr with
  | awaiting hc' hm =>
    rw [hc] at hc'
    obtain ⟨rfl, rfl⟩ := Control.awaiting.inj hc'
    exact ⟨_, hm, rfl⟩
  | initial hc' => simp [hc] at hc'
  | running hc' => simp [hc] at hc'
  | suspended hc' => simp [hc] at hc'
  | final hc' => simp [hc] at hc'

/-- What is left of a task that has ended. -/
theorem Rest.of_final {h : ℕ} {r : Comp (Outcome ν ε) (Outcome ν ε)} (hr : s.Rest h r)
    (hc : (s.frames h).control = .final) : r = .done (s.frames h).promise.awaitResume := by
  cases hr with
  | final hc' => rfl
  | initial hc' => simp [hc] at hc'
  | running hc' => simp [hc] at hc'
  | suspended hc' => simp [hc] at hc'
  | awaiting hc' hm => simp [hc] at hc'

/-! ## What is left is kept -/

/-- There is nothing at the start. -/
theorem new_sound [Inhabited ν] : (new : TaskMachine ν ε).Sound :=
  fun h hh => absurd hh (Nat.not_lt_zero h)

/-- A step without an input that keeps what is left, and the bodies. -/
theorem Sound.of_rest (hsound : s.Sound) (hres : t.resumptions = s.resumptions)
    (hbody : ∀ n < s.next, (t.frames n).body = (s.frames n).body)
    (hrest : ∀ n < s.next, ∀ r, s.Rest n r → t.Rest n r) (hnew : ∀ n < t.next, s.next ≤ n →
      t.Rest n (t.frames n).body.direct ∧ t.inputs n = []) : t.Sound := by
  intro n hn
  by_cases hlt : n < s.next
  · obtain ⟨r, hr, hfeed⟩ := hsound n hlt
    refine ⟨r, hrest n hlt r hr, ?_⟩
    rw [hbody n hlt]
    unfold inputs at hfeed ⊢
    rwa [hres]
  · obtain ⟨hr, hinputs⟩ := hnew n hn (Nat.not_lt.mp hlt)
    refine ⟨_, hr, ?_⟩
    rw [hinputs, Comp.feed]

/-- A frame that is not in use has no input. -/
theorem Consistent.inputs_eq_nil (hs : s.Consistent) {n : ℕ} (hn : s.next ≤ n) :
    s.inputs n = [] := by
  unfold inputs
  rw [List.filterMap_eq_nil_iff]
  intro r hr
  have hnot : n ∉ r.1 := fun hmem => absurd (hs.resumptions_lt hr hmem) (Nat.not_lt.mpr hn)
  rw [if_neg hnot]

/-- A coroutine goes on inside of its body, and keeps what is left. -/
theorem Sound.goto (hsound : s.Sound) (hs : s.Consistent) {h : ℕ} {c : Control ν ε}
    (hrest : ∀ r, s.Rest h r → (s.goto h c).Rest h r) : (s.goto h c).Sound := by
  refine hsound.of_rest rfl ?_ ?_ fun n hn hle => absurd hn (Nat.not_lt.mpr hle)
  · intro n hn
    by_cases hnh : n = h
    · subst hnh
      simp [TaskMachine.goto, modify]
    · simp [TaskMachine.goto, modify, hnh]
  · intro n hn r hr
    refine hr.transfer hs (· = h) ?_ ?_ hn
    · intro k hk hkh
      simp [TaskMachine.goto, modify, hkh]
    · rintro k rfl
      exact hrest

/-- A new task has its body before it. -/
theorem Sound.create [Inhabited ν] (hsound : s.Sound) (hs : s.Consistent) (body : Code ν ε) :
    (s.create body).Sound := by
  have hother : ∀ n < s.next, (s.create body).frames n = s.frames n := fun n hn =>
    Function.update_of_ne (Nat.ne_of_lt hn) _ _
  have hnew : (s.create body).frames s.next = ⟨body, .initial body, { value := default }⟩ :=
    Function.update_self ..
  refine hsound.of_rest rfl (fun n hn => by rw [hother n hn]) ?_ ?_
  · intro n hn r hr
    exact hr.transfer hs (fun _ => False) (fun k hk _ => hother k hk)
      (fun _ hk => absurd hk id) hn
  · intro n hn hle
    obtain rfl : n = s.next := Nat.le_antisymm (Nat.le_of_lt_succ hn) hle
    refine ⟨?_, hs.inputs_eq_nil (Nat.le_refl _)⟩
    rw [hnew]
    exact .initial (by rw [hnew])

/-- A call: what is left of the caller is what is left of the task, in its contexts. -/
theorem Sound.awaitSuspend (hsound : s.Sound) (hs : s.Consistent) {h m : ℕ} {body : Code ν ε}
    {contexts : List (Context ν ε)} (hlt : h < m) (hmlt : m < s.next)
    (hc : (s.frames h).control = .running (.await body) contexts)
    (hm : (s.frames m).control = .initial body) : (s.awaitSuspend h m body contexts).Sound := by
  have hne : h ≠ m := Nat.ne_of_lt hlt
  have hh : (s.awaitSuspend h m body contexts).frames h =
      { s.frames h with control := .awaiting m contexts } := by
    simp [TaskMachine.awaitSuspend, TaskMachine.start, TaskMachine.goto, modify, hne]
  have hmm : (s.awaitSuspend h m body contexts).frames m =
      { s.frames m with
        control := .running body []
        promise := { (s.frames m).promise with continuation := some h } } := by
    simp [TaskMachine.awaitSuspend, TaskMachine.start, TaskMachine.goto, modify, hne, hne.symm]
  have hother : ∀ n, n ≠ h → n ≠ m → (s.awaitSuspend h m body contexts).frames n = s.frames n := by
    intro n hnh hnm
    simp [TaskMachine.awaitSuspend, TaskMachine.start, TaskMachine.goto, modify, hnh, hnm]
  -- The task runs from the start of its body.
  have hrest : (s.awaitSuspend h m body contexts).Rest m body.direct :=
    .running (show _ = Control.running body [] by rw [hmm])
  refine hsound.of_rest rfl ?_ ?_ fun n hn hle => absurd hn (Nat.not_lt.mpr hle)
  · intro n hn
    by_cases hnh : n = h
    · rw [hnh, hh]
    · by_cases hnm : n = m
      · rw [hnm, hmm]
      · rw [hother n hnh hnm]
  · intro n hn r hr
    refine hr.transfer hs (fun k => k = h ∨ k = m) ?_ ?_ hn
    · intro k hk hkc
      exact hother k (fun e => hkc (.inl e)) fun e => hkc (.inr e)
    · rintro k (rfl | rfl) r hr
      · rw [hr.of_running hc]
        exact .awaiting (by rw [hh]) hrest
      · cases hr with
        | initial hc' =>
          rw [hm] at hc'
          obtain rfl := Control.initial.inj hc'
          exact hrest
        | running hc' => simp [hm] at hc'
        | suspended hc' => simp [hm] at hc'
        | awaiting hc' hr => simp [hm] at hc'
        | final hc' => simp [hm] at hc'

/-- A return: the outcome is what is left of the task, and what awaits it goes on with the outcome
in its contexts. -/
theorem Sound.finish (hsound : s.Sound) (hs : s.Consistent) {h : ℕ} {o : Outcome ν ε}
    (hlt : h < s.next) (hc : (s.frames h).control = .running o.code []) : (s.finish h o).Sound := by
  obtain ⟨hnext, hres, f, hbody, hend, hcont, hresult, hcases⟩ := hs.finish_spec hlt hc o
  -- What is left of the body is its outcome.
  have hdone : ∀ r, s.Rest h r → r = .done o := fun r hr => by
    rw [hr.of_running hc, Outcome.direct_code]
    rfl
  refine hsound.of_rest hres ?_ ?_ fun n hn hle => absurd hn (by omega)
  · intro n hn
    rcases hcases with ⟨-, hframes, -⟩ | ⟨p, contexts, -, hne, -, -, hframes, -⟩
    · rw [hframes, Function.update_apply]
      split_ifs with hnh
      · rw [hnh, hbody]
      · rfl
    · rw [hframes, Function.update_apply, Function.update_apply]
      split_ifs with hnp hnh
      · rw [hnp]
      · rw [hnh, hbody]
      · rfl
  · intro n hn r hr
    rcases hcases with ⟨-, hframes, -⟩ | ⟨p, contexts, -, hne, -, hpc, hframes, -⟩
    · have hrest : (s.finish h o).Rest h (.done o) := by
        have hh : (s.finish h o).frames h = f := by rw [hframes, Function.update_self]
        have hfinal : (s.finish h o).Rest h _ := .final (by rw [hh, hend])
        rwa [hh, hresult] at hfinal
      refine hr.transfer hs (· = h) ?_ ?_ hn
      · intro k hk hkh
        rw [hframes, Function.update_of_ne hkh]
      · rintro k rfl r hr
        rw [hdone r hr]
        exact hrest
    · have hrest : (s.finish h o).Rest h (.done o) := by
        have hh : (s.finish h o).frames h = f := by
          rw [hframes, Function.update_of_ne hne.symm, Function.update_self]
        have hfinal : (s.finish h o).Rest h _ := .final (by rw [hh, hend])
        rwa [hh, hresult] at hfinal
      refine hr.transfer hs (fun k => k = h ∨ k = p) ?_ ?_ hn
      · intro k hk hkc
        rw [hframes, Function.update_of_ne fun e => hkc (.inr e),
          Function.update_of_ne fun e => hkc (.inl e)]
      · rintro k (rfl | rfl) r hr
        · rw [hdone r hr]
          exact hrest
        · -- The continuation goes on with the outcome that it has been waiting for.
          obtain ⟨r', hr', rfl⟩ := hr.of_awaiting hpc
          rw [hdone r' hr', ← Outcome.direct_code]
          exact .running (by rw [hframes, Function.update_self])

/-- An operation resumes the coroutine that is suspended for it: what is left of the coroutine and
of its callers gets the outcome, and what is left of the other tasks stays. -/
theorem Rest.resume (hs : s.Consistent) {h : ℕ} {contexts : List (Context ν ε)}
    (hlt : h < s.next) (hc : (s.frames h).control = .suspended contexts) (o : Outcome ν ε) {n : ℕ}
    (hn : n < s.next) {r : Comp (Outcome ν ε) (Outcome ν ε)} (hr : s.Rest n r) :
    (n ∈ s.callers s.next h →
      ∃ next, r = .ask next ∧ (s.goto h (.running o.code contexts)).Rest n (next o)) ∧
    (n ∉ s.callers s.next h → (s.goto h (.running o.code contexts)).Rest n r) := by
  have hlive : (s.frames h).control ≠ .final := by rw [hc]; nofun
  have hself : ((s.goto h (.running o.code contexts)).frames h).control =
      .running o.code contexts := by simp [TaskMachine.goto, modify]
  have hother : ∀ k, k ≠ h → (s.goto h (.running o.code contexts)).frames k = s.frames k :=
    fun k hk => by simp [TaskMachine.goto, modify, hk]
  have hmem := hs.mem_callers_self hlt
  have hcallers : ∀ k, k ≠ h → k ∈ s.callers s.next h → ∃ m ∈ s.callers s.next h, ∃ contexts,
      (s.frames k).control = .awaiting m contexts := fun k hk hkc =>
    hs.callers_awaiting hlt hlive hkc hk
  -- By induction on what the frame has left: the frames that the resumption is for have asked for
  -- its outcome, and no others are concerned.
  induction hr with
  | @initial n body hnc =>
    have hnh : n ≠ h := fun e => by rw [e, hc] at hnc; cases hnc
    refine ⟨fun hmem => ?_, fun _ => .initial (by rw [hother n hnh, hnc])⟩
    obtain ⟨m, -, contexts', hm⟩ := hcallers n hnh hmem
    rw [hnc] at hm
    cases hm
  | @running n code contexts' hnc =>
    have hnh : n ≠ h := fun e => by rw [e, hc] at hnc; cases hnc
    refine ⟨fun hmem => ?_, fun _ => .running (by rw [hother n hnh, hnc])⟩
    obtain ⟨m, -, contexts', hm⟩ := hcallers n hnh hmem
    rw [hnc] at hm
    cases hm
  | @suspended n contexts' hnc =>
    by_cases hnh : n = h
    · subst hnh
      rw [hc] at hnc
      obtain rfl := Control.suspended.inj hnc
      refine ⟨fun _ => ⟨_, plug_ask _ _, ?_⟩, fun hnot => absurd hmem hnot⟩
      rw [← Outcome.direct_code]
      exact .running hself
    · refine ⟨fun hmem => ?_, fun _ => .suspended (by rw [hother n hnh, hnc])⟩
      obtain ⟨m, -, contexts', hm⟩ := hcallers n hnh hmem
      rw [hnc] at hm
      cases hm
  | @awaiting n m contexts' r hnc hrm ih =>
    have hnh : n ≠ h := fun e => by rw [e, hc] at hnc; cases hnc
    obtain ⟨hmlt, hmcont, -⟩ := hs.awaiting hn hnc
    obtain ⟨ihcaller, ihother⟩ := ih hmlt
    refine ⟨fun hmem => ?_, fun hnot => ?_⟩
    · obtain ⟨k, hk, contexts'', hkc⟩ := hcallers n hnh hmem
      rw [hnc] at hkc
      obtain ⟨rfl, rfl⟩ := Control.awaiting.inj hkc
      obtain ⟨next, rfl, hnext⟩ := ihcaller hk
      exact ⟨_, plug_ask _ _, .awaiting (by rw [hother n hnh, hnc]) hnext⟩
    · have hmnot : m ∉ s.callers s.next h := fun hk => hnot (hs.callers_trans hlt hk hmcont)
      exact .awaiting (by rw [hother n hnh, hnc]) (ihother hmnot)
  | @final n hnc =>
    have hnh : n ≠ h := fun e => by rw [e, hc] at hnc; cases hnc
    refine ⟨fun hmem => ?_, fun _ => ?_⟩
    · obtain ⟨m, -, contexts', hm⟩ := hcallers n hnh hmem
      rw [hnc] at hm
      cases hm
    · rw [← hother n hnh]
      exact .final (by rw [hother n hnh, hnc])

/-- What is left does not depend on the inputs that are recorded. -/
theorem Rest.with_resumptions {n : ℕ} {r : Comp (Outcome ν ε) (Outcome ν ε)} (hr : s.Rest n r)
    (rs : List (List ℕ × Outcome ν ε)) : { s with resumptions := rs }.Rest n r := by
  induction hr with
  | initial hc => exact .initial hc
  | running hc => exact .running hc
  | suspended hc => exact .suspended hc
  | awaiting hc _ ih => exact .awaiting hc ih
  | final hc => exact .final hc

/-- The resumption of an operation. -/
theorem Sound.resume (hsound : s.Sound) (hs : s.Consistent) {h : ℕ} {contexts : List (Context ν ε)}
    (hlt : h < s.next) (hc : (s.frames h).control = .suspended contexts) (o : Outcome ν ε) :
    { s.goto h (.running o.code contexts) with
      resumptions := s.resumptions ++ [(s.callers s.next h, o)] }.Sound := by
  intro n hn
  obtain ⟨r, hr, hfeed⟩ := hsound n hn
  obtain ⟨hcaller, hother⟩ := hr.resume hs hlt hc o hn
  have hbody : ((s.goto h (.running o.code contexts)).frames n).body = (s.frames n).body := by
    by_cases hnh : n = h
    · subst hnh
      simp [TaskMachine.goto, modify]
    · simp [TaskMachine.goto, modify, hnh]
  by_cases hmem : n ∈ s.callers s.next h
  · obtain ⟨next, rfl, hnext⟩ := hcaller hmem
    refine ⟨next o, hnext.with_resumptions _, ?_⟩
    have hfed := Comp.feed_concat o hfeed
    show ((s.goto h (.running o.code contexts)).frames n).body.direct.feed _ = _
    rw [hbody, ← hfed]
    simp [inputs, hmem]
  · refine ⟨r, (hother hmem).with_resumptions _, ?_⟩
    show ((s.goto h (.running o.code contexts)).frames n).body.direct.feed _ = _
    rw [hbody, ← hfeed]
    simp [inputs, hmem]

/-- Every step keeps what is left in agreement with the bodies. -/
theorem Sound.step [Inhabited ν] (hsound : s.Sound) (hs : s.Consistent) {a : TaskStep ν ε}
    (hstep : taskStep s a t) : t.Sound := by
  cases StepCase.of_step hstep with
  | create => exact hsound.create hs _
  | @start h body hlt hc =>
    refine hsound.goto hs fun r hr => ?_
    cases hr with
    | initial hc' =>
      rw [hc] at hc'
      obtain rfl := Control.initial.inj hc'
      exact .running (show _ = Control.running body [] by simp [TaskMachine.goto, modify])
    | running hc' => simp [hc] at hc'
    | suspended hc' => simp [hc] at hc'
    | awaiting hc' hm => simp [hc] at hc'
    | final hc' => simp [hc] at hc'
  | @inside h code code' contexts contexts' hlt hc hplug =>
    refine hsound.goto hs fun r hr => ?_
    rw [hr.of_running hc, hplug]
    exact .running (by simp [TaskMachine.goto, modify])
  | @suspend h contexts hlt hc =>
    refine hsound.goto hs fun r hr => ?_
    rw [hr.of_running hc]
    exact .suspended (by simp [TaskMachine.goto, modify])
  | @call h task contexts hlt hc =>
    have hnew : ((s.create task).frames s.next).control = .initial task := by
      simp [TaskMachine.create]
    have hold : ((s.create task).frames h).control = .running (.await task) contexts := by
      simp only [TaskMachine.create, Function.update_of_ne (Nat.ne_of_lt hlt), hc]
    exact (hsound.create hs task).awaitSuspend (hs.create task) hlt (Nat.lt_succ_self _) hold hnew
  | finish hlt hc => exact hsound.finish hs hlt hc
  | resume hlt hc => exact hsound.resume hs hlt hc _

/-- What awaits a task waits for a coroutine that runs, or for an operation. -/
theorem exists_leaf (hs : s.Consistent) {n : ℕ} (hn : n < s.next)
    {r : Comp (Outcome ν ε) (Outcome ν ε)} (hr : s.Rest n r) {m : ℕ} {contexts : List (Context ν ε)}
    (hc : (s.frames n).control = .awaiting m contexts) :
    ∃ k < s.next, n ∈ s.callers s.next k ∧ ((∃ code contexts,
      (s.frames k).control = .running code contexts) ∨ ∃ contexts,
      (s.frames k).control = .suspended contexts) := by
  induction hr generalizing m contexts with
  | initial hc' => rw [hc] at hc'; cases hc'
  | running hc' => rw [hc] at hc'; cases hc'
  | suspended hc' => rw [hc] at hc'; cases hc'
  | final hc' => rw [hc] at hc'; cases hc'
  | @awaiting n m' contexts' r hc' hrm ih =>
    obtain ⟨hmlt, hmcont, hmlive⟩ := hs.awaiting hn hc'
    have hself := hs.mem_callers_self hmlt
    cases hmc : (s.frames m').control with
    | initial body =>
      rw [(hs.initial hmlt hmc).2] at hmcont
      cases hmcont
    | running code contexts'' =>
      exact ⟨m', hmlt, hs.callers_trans hmlt hself hmcont, .inl ⟨code, contexts'', hmc⟩⟩
    | suspended contexts'' =>
      exact ⟨m', hmlt, hs.callers_trans hmlt hself hmcont, .inr ⟨contexts'', hmc⟩⟩
    | awaiting k contexts'' =>
      obtain ⟨j, hj, hmem, hleaf⟩ := ih hmlt hmc
      exact ⟨j, hj, hs.callers_trans hj hmem hmcont, hleaf⟩
    | final => exact absurd hmc hmlive

end TaskMachine

end Novaio
