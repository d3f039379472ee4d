import Novaio.CoMutex.Owner

/-!
# The places that a step of the mutex leads to

A step of a coroutine moves that coroutine, and at the end of `unlock` the waiter that is selected;
all others stay where they are.

Each coroutine goes around the four phases of its use of the mutex: outside of it, in `lock`, with
the lock, and in `unlock`. No step of another coroutine takes it from one phase to the next.
-/

namespace Novaio

/-- What a coroutine does with the mutex. -/
inductive LockPhase where
  | outside
  | locking
  | holding
  | unlocking
  deriving DecidableEq

/-- The phase that follows. -/
def LockPhase.next : LockPhase → LockPhase
  | outside => locking
  | locking => holding
  | holding => unlocking
  | unlocking => outside

/-- The phase of a coroutine at a place. -/
def LockPc.phase : LockPc → LockPhase
  | idle => .outside
  | compareExchange _ | suspended | selected => .locking
  | holding => .holding
  | exchange | compareExchangeStrong | exchangeAgain | reverse _ _ | select => .unlocking

/-- The phase in which a coroutine takes a step. -/
def LockOp.phase {κ σ : Type*} : LockOp κ σ → LockPhase
  | .load _ _ _ => .outside
  | .compareExchangeWeak _ _ | .resume _ => .locking
  | .unlock _ => .holding
  | .exchange _ | .compareExchangeStrong _ | .exchangeAgain _ | .reverse _ | .select _ _ =>
    .unlocking

namespace CoMutex

variable {κ σ : Type*} [DecidableEq κ] [DecidableEq σ] {m m' : CoMutex κ σ} {w : Waiting κ}
  {holder : Option κ} {op : LockOp κ σ} {k : κ}

/-- Where a step leads the coroutines: the one that takes it goes to another place, or it selects a
suspended one, and hands over its handle. -/
theorem pc_of_step (h : Rep m w holder) (hstep : lockStep m op m') :
    m.pc op.coroutine ≠ .suspended ∧
      ((m'.handovers = m.handovers ∧ ∃ pc, m'.pc = (m.goto op.coroutine pc).pc ∧
          (pc = .suspended → ∃ k spurious, op = .compareExchangeWeak k spurious)) ∨
        ∃ j current k, op = .select j current ∧ m.pc k = .suspended ∧
          (m.awaiters (m.address k)).awaitingCoroutine = some k ∧
          m'.handovers = m.handovers ++ handover current (m.awaiters (m.address k)) ∧
          m'.pc = ((m.goto j .idle).goto k .selected).pc) := by
  by_cases hselect : ∃ j current, op = .select j current
  · obtain ⟨j, current, rfl⟩ := hselect
    obtain ⟨hj, hm'⟩ := Option.ite_none_right_eq_some.mp hstep.1
    obtain rfl := Option.some.inj hm'
    obtain ⟨k, hhead, hcoroutine, hselected, hhandovers, -⟩ := select_spec h hj current
    obtain ⟨k₀, fifo, hqueue, -, hk₀, -⟩ := rep_select h hj current
    obtain rfl := (hselected k₀).mp hk₀
    have hpc : (m.select j current).pc = ((m.goto j .idle).goto k₀ .selected).pc := by
      simp only [select, hhead, hcoroutine]
    exact ⟨by simp [LockOp.coroutine, hj], .inr ⟨j, current, k₀, rfl,
      (h.mem_iff k₀).mp (hqueue ▸ List.mem_cons_self), hcoroutine, hhandovers, hpc⟩⟩
  · have hsame := (quiet_step hstep fun j current hop => hselect ⟨j, current, hop⟩).handovers
    suffices hpc : m.pc op.coroutine ≠ .suspended ∧ ∃ pc,
        m'.pc = (m.goto op.coroutine pc).pc ∧
          (pc = .suspended → ∃ k spurious, op = .compareExchangeWeak k spurious) from
      ⟨hpc.1, .inl ⟨hsame, hpc.2⟩⟩
    have hstep := hstep.1
    cases StepCase.of_step hstep with
    | load j a current hj => exact ⟨by simp [LockOp.coroutine, hj], _, rfl, by simp⟩
    | compareExchangeWeak j oldState spurious hj =>
      obtain ⟨pc, -, hpc⟩ := compareExchangeWeak_pc m j oldState spurious
      exact ⟨by simp [LockOp.coroutine, hj], pc, hpc, fun _ => ⟨j, spurious, rfl⟩⟩
    | resume j hj _ => exact ⟨by simp [LockOp.coroutine, hj], _, rfl, by simp⟩
    | unlock j hj =>
      refine ⟨by simp [LockOp.coroutine, hj], ?_⟩
      unfold unlock
      split_ifs <;> exact ⟨_, rfl, by simp⟩
    | exchange j hj =>
      refine ⟨by simp [LockOp.coroutine, hj], ?_⟩
      unfold exchange
      dsimp only
      split_ifs <;> exact ⟨_, rfl, by simp⟩
    | compareExchangeStrong j hj =>
      refine ⟨by simp [LockOp.coroutine, hj], ?_⟩
      unfold compareExchangeStrong
      split_ifs <;> exact ⟨_, rfl, by simp⟩
    | exchangeAgain j hj => exact ⟨by simp [LockOp.coroutine, hj], _, rfl, by simp⟩
    | reverse j current prev hj =>
      refine ⟨by simp [LockOp.coroutine, hj], ?_⟩
      unfold reverse
      split <;> exact ⟨_, rfl, by simp⟩
    | select j current _ => exact (hselect ⟨j, current, rfl⟩).elim

/-- A coroutine comes to be suspended by its own compare-and-exchange. -/
theorem suspended_of_step (h : Rep m w holder) (hstep : lockStep m op m')
    (hk : m'.pc k = .suspended) :
    m.pc k = .suspended ∨ ∃ spurious, op = .compareExchangeWeak k spurious := by
  obtain ⟨-, ⟨-, pc, hpc, hsuspends⟩ | ⟨j, current, k₀, rfl, hk₀, -, -, hpc⟩⟩ := pc_of_step h hstep
  · rw [hpc] at hk
    rcases eq_or_ne k op.coroutine with rfl | hne
    · rw [goto_pc_self] at hk
      obtain ⟨j, spurious, rfl⟩ := hsuspends hk
      exact .inr ⟨spurious, rfl⟩
    · rw [goto_pc_of_ne m pc hne] at hk
      exact .inl hk
  · rw [hpc] at hk
    rcases eq_or_ne k k₀ with rfl | hne
    · exact .inl hk₀
    · rw [goto_pc_of_ne _ _ hne] at hk
      rcases eq_or_ne k j with rfl | hne
      · simp [goto_pc_self] at hk
      · rw [goto_pc_of_ne m _ hne] at hk
        exact .inl hk

/-- A step hands nothing over, and every suspended coroutine stays so, or it selects one of them,
and hands over its handle. -/
theorem handover_of_step (h : Rep m w holder) (hstep : lockStep m op m') :
    (m'.handovers = m.handovers ∧ ∀ k, m.pc k = .suspended → m'.pc k = .suspended) ∨
      ∃ j current k, op = .select j current ∧ m.pc k = .suspended ∧ m'.pc k = .selected ∧
        (m.awaiters (m.address k)).awaitingCoroutine = some k ∧
        m'.handovers = m.handovers ++ handover current (m.awaiters (m.address k)) ∧
        ∀ k', k' ≠ k → m.pc k' = .suspended → m'.pc k' = .suspended := by
  obtain ⟨hcoroutine, hcases⟩ := pc_of_step h hstep
  -- The coroutine that takes the step is not suspended.
  have hne {k : κ} (hk : m.pc k = .suspended) : k ≠ op.coroutine := by
    rintro rfl
    exact hcoroutine hk
  rcases hcases with ⟨hsame, pc, hpc, -⟩ | ⟨j, current, k, rfl, hk, hawaiter, happend, hpc⟩
  · refine .inl ⟨hsame, fun k hk => ?_⟩
    rw [hpc, goto_pc_of_ne m pc (hne hk), hk]
  · refine .inr ⟨j, current, k, rfl, hk, ?_, hawaiter, happend, fun k' hk' hsuspended => ?_⟩
    · rw [hpc, goto_pc_self]
    · have hother : k' ≠ j := hne hsuspended
      rw [hpc, goto_pc_of_ne _ _ hk', goto_pc_of_ne _ _ hother, hsuspended]

/-- No step of another coroutine takes a coroutine to another phase. -/
theorem phase_of_ne (h : Rep m w holder) (hstep : lockStep m op m') (hne : k ≠ op.coroutine) :
    (m'.pc k).phase = (m.pc k).phase := by
  obtain ⟨-, ⟨-, pc, hpc, -⟩ | ⟨j, current, k₀, rfl, hk₀, -, -, hpc⟩⟩ := pc_of_step h hstep
  · rw [hpc, goto_pc_of_ne m pc hne]
  · rw [hpc]
    rcases eq_or_ne k k₀ with rfl | hother
    · rw [goto_pc_self, hk₀]
      rfl
    · have hne : k ≠ j := hne
      rw [goto_pc_of_ne _ _ hother, goto_pc_of_ne m _ hne]

/-- A step starts in its phase and leads to the next one at most. -/
theorem phase_of_step (h : Rep m w holder) (hstep : lockStep m op m') :
    (m.pc op.coroutine).phase = op.phase ∧
      ((m'.pc op.coroutine).phase = op.phase ∨ (m'.pc op.coroutine).phase = op.phase.next) := by
  obtain ⟨hstep, -⟩ := hstep
  -- The coroutine is where the step takes it.
  have hself (pc : LockPc) {m₁ : CoMutex κ σ} {k : κ} (hm₁ : m₁.pc = (m.goto k pc).pc) :
      (m₁.pc k).phase = pc.phase := by rw [hm₁, goto_pc_self]
  have hbefore {k : κ} {pc : LockPc} (hk : m.pc k = pc) : (m.pc k).phase = pc.phase := by rw [hk]
  cases StepCase.of_step hstep with
  | load k a current hk => exact ⟨hbefore hk, .inr (hself (.compareExchange _) rfl)⟩
  | compareExchangeWeak k oldState spurious hk =>
    refine ⟨hbefore hk, ?_⟩
    unfold compareExchangeWeak
    generalize toAwaiter (if oldState = lockedNoWaiters then 0 else oldState) = next
    dsimp only [LockOp.coroutine]
    split_ifs
    · exact .inr (hself .holding rfl)
    · exact .inl (hself (.compareExchange _) rfl)
    · exact .inl (hself .suspended rfl)
    · exact .inl (hself (.compareExchange _) rfl)
  | resume k hk _ => exact ⟨hbefore hk, .inr (hself .holding rfl)⟩
  | unlock k hk =>
    refine ⟨hbefore hk, .inr ?_⟩
    unfold unlock
    split_ifs
    · exact hself .exchange rfl
    · exact hself .select rfl
  | exchange k hk =>
    refine ⟨hbefore hk, .inl ?_⟩
    unfold exchange
    dsimp only [LockOp.coroutine]
    split_ifs
    · exact hself .compareExchangeStrong rfl
    · exact hself (.reverse _ _) rfl
  | compareExchangeStrong k hk =>
    refine ⟨hbefore hk, ?_⟩
    unfold compareExchangeStrong
    dsimp only [LockOp.coroutine]
    split_ifs
    · exact .inr (hself .idle rfl)
    · exact .inl (hself .exchangeAgain rfl)
  | exchangeAgain k hk => exact ⟨hbefore hk, .inl (hself (.reverse _ _) rfl)⟩
  | reverse k current prev hk =>
    refine ⟨hbefore hk, .inl ?_⟩
    unfold reverse
    dsimp only [LockOp.coroutine]
    split
    · exact hself (.reverse _ _) rfl
    · exact hself .select rfl
  | select k current hk =>
    obtain ⟨-, -, -, -, -, hidle, -⟩ := rep_select h hk current
    refine ⟨hbefore hk, .inr ?_⟩
    dsimp only [LockOp.coroutine]
    rw [hidle]
    rfl

/-- Only a call of `lock` gives a coroutine an awaiter, and writes a scheduler to one. -/
theorem scheduler_of_step (hstep : lockStep m op m') (hop : op.phase ≠ .outside) :
    m'.address = m.address ∧ ∀ a, (m'.awaiters a).scheduler = (m.awaiters a).scheduler := by
  obtain ⟨hstep, -⟩ := hstep
  -- A write to a link.
  have hnext (b : ℕ) (p : Option ℕ) (a : ℕ) :
      ((m.setAwaiter b ({ · with next := p })).awaiters a).scheduler =
        (m.awaiters a).scheduler := by
    rw [setAwaiter_awaiters]
    split_ifs with hab
    · rw [hab]
    · rfl
  cases StepCase.of_step hstep with
  | load k a current _ => exact (hop rfl).elim
  | compareExchangeWeak k oldState spurious _ =>
    unfold compareExchangeWeak
    generalize toAwaiter (if oldState = lockedNoWaiters then 0 else oldState) = next
    dsimp only
    split_ifs
    · exact ⟨rfl, fun _ => rfl⟩
    · exact ⟨rfl, fun _ => rfl⟩
    · exact ⟨rfl, hnext _ next⟩
    · exact ⟨rfl, hnext _ next⟩
  | resume k _ _ => exact ⟨rfl, fun _ => rfl⟩
  | unlock k _ =>
    unfold unlock
    split_ifs <;> exact ⟨rfl, fun _ => rfl⟩
  | exchange k _ =>
    unfold exchange
    dsimp only
    split_ifs <;> exact ⟨rfl, fun _ => rfl⟩
  | compareExchangeStrong k _ =>
    unfold compareExchangeStrong
    split_ifs <;> exact ⟨rfl, fun _ => rfl⟩
  | exchangeAgain k _ => exact ⟨rfl, fun _ => rfl⟩
  | reverse k current prev _ =>
    unfold reverse
    split
    · exact ⟨rfl, hnext _ prev⟩
    · exact ⟨rfl, fun _ => rfl⟩
  | select k current _ =>
    unfold select
    split
    · exact ⟨rfl, fun _ => rfl⟩
    · dsimp only
      split <;> exact ⟨rfl, fun _ => rfl⟩

omit [DecidableEq κ] [DecidableEq σ] in
/-- A coroutine has an awaiter while it is in `lock`. -/
theorem awaits_iff (pc : LockPc) : pc.Awaits ↔ pc.phase = .locking := by
  cases pc <;> simp [LockPc.Awaits, LockPc.phase]

/-- Every coroutine in `lock` has a scheduler in its awaiter. -/
def Scheduled (m : CoMutex κ σ) : Prop :=
  ∀ k, (m.pc k).Awaits → (m.awaiters (m.address k)).scheduler.isSome

/-- It stays so as long as `lock` is called on schedulers alone. -/
theorem Scheduled.step (h : m.Scheduled) (hrep : Rep m w holder) (hstep : lockStep m op m')
    (hcurrent : ∀ k a current, op = .load k a current → current.isSome) : m'.Scheduled := by
  intro k hk
  by_cases hop : op.phase = .outside
  · obtain ⟨j, a, current, rfl⟩ : ∃ j a current, op = .load j a current := by
      cases op <;> simp [LockOp.phase] at hop
      exact ⟨_, _, _, rfl⟩
    obtain ⟨hj, hm'⟩ := Option.ite_none_right_eq_some.mp hstep.1
    obtain rfl := Option.some.inj hm'
    rcases eq_or_ne k j with rfl | hne
    · simpa [load, goto, setAwaiter] using hcurrent k a current rfl
    · have hbefore : (m.pc k).Awaits := by
        rw [awaits_iff] at hk ⊢
        rwa [← phase_of_ne hrep hstep hne]
      have hfresh := hstep.2.2.2 k hbefore
      simpa [load, goto, setAwaiter, hne, hfresh] using h k hbefore
  · obtain ⟨haddress, hscheduler⟩ := scheduler_of_step hstep hop
    rw [haddress, hscheduler]
    refine h k ?_
    rw [awaits_iff] at hk ⊢
    rcases eq_or_ne k op.coroutine with rfl | hne
    · obtain ⟨hbefore, hafter | hafter⟩ := phase_of_step hrep hstep
      · rw [hbefore, ← hafter, hk]
      · rw [hk] at hafter
        cases hphase : op.phase <;> simp [hphase, LockPhase.next] at hafter hop
    · rwa [← phase_of_ne hrep hstep hne]

end CoMutex

end Novaio
