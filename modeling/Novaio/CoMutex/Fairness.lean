import Mathlib.Tactic.Common
import Novaio.CoMutex.Basic
import Novaio.Lib.Chain
import Novaio.Lib.Path

/-!
# Mutual exclusion and fairness of the mutex

The waiters are in up to four places: the list of `waiters_head_`, the stack whose top is `state_`,
and, while `unlock` turns a detached stack around, the part of it that is still to turn and the
part that is turned. `Waiting.queue` puts them in the order in which they came, and `Rep` says that
the memory holds them.

Each step of the coroutines keeps `Rep`. What a step does to the queue is what it does to the order
of the grants: a waiter comes in at the end, `unlock` takes one at the front, and turning a stack
around leaves the queue as it is.
-/

namespace Novaio

open Linked Transition

/-- The waiters: those of `waiters_head_`, those of the detached stack that are still to turn and
those that are turned, and those of the stack of `state_`. -/
structure Waiting (κ : Type*) where
  fifo : List κ
  rest : List κ
  turned : List κ
  stack : List κ

/-- The waiters in the order in which they came. -/
def Waiting.queue {κ : Type*} (w : Waiting κ) : List κ :=
  w.fifo ++ w.rest.reverse ++ w.turned ++ w.stack.reverse

namespace CoMutex

variable {κ σ : Type*} {m : CoMutex κ σ} {w : Waiting κ} {holder : Option κ} {k : κ}

/-- The links of the awaiters. -/
abbrev next (m : CoMutex κ σ) : ℕ → Option ℕ := fun a => (m.awaiters a).next

/-- The top of the stack of waiters that `state_` encodes. -/
def top (m : CoMutex κ σ) : Option ℕ := if m.state ≤ lockedNoWaiters then none else some m.state

/-- Where the waiters are while the holder of the lock is at a place. -/
def Phase (m : CoMutex κ σ) (w : Waiting κ) : LockPc → Prop
  | .exchange | .compareExchangeStrong => w.fifo = [] ∧ w.rest = [] ∧ w.turned = []
  | .exchangeAgain => w.fifo = [] ∧ w.rest = [] ∧ w.turned = [] ∧ m.state ≠ lockedNoWaiters
  | .reverse current prev => w.fifo = [] ∧ w.rest ++ w.turned ≠ [] ∧
      Chain m.next current (w.rest.map m.address) ∧ Chain m.next prev (w.turned.map m.address)
  | .select => w.fifo ≠ [] ∧ w.rest = [] ∧ w.turned = []
  | _ => w.rest = [] ∧ w.turned = []

/-- The memory holds the waiters, and `holder` is the coroutine that holds the lock. -/
structure Rep (m : CoMutex κ σ) (w : Waiting κ) (holder : Option κ) : Prop where
  holds_iff : ∀ k, (m.pc k).Holds ↔ holder = some k
  state_iff : m.state = unlocked ↔ holder = none
  stack : Chain m.next m.top (w.stack.map m.address)
  fifo : Chain m.next m.waitersHead (w.fifo.map m.address)
  phase : ∀ k, holder = some k → Phase m w (m.pc k)
  free : holder = none → w.queue = []
  order : m.acquisitions = m.granted ++ w.queue
  granted : ∀ k, holder = some k → m.granted.getLast? = some k
  nodup : w.queue.Nodup
  mem_iff : ∀ k, k ∈ w.queue ↔ m.pc k = .suspended
  address : ∀ k, (m.pc k).Awaits → lockedNoWaiters < m.address k ∧
    (m.awaiters (m.address k)).awaitingCoroutine = some k
  address_inj : ∀ k k', (m.pc k).Awaits → (m.pc k').Awaits → m.address k = m.address k' → k = k'

/-- A waiter is suspended, wherever it is. -/
theorem Rep.suspended (h : Rep m w holder)
    (hk : k ∈ w.fifo ∨ k ∈ w.rest ∨ k ∈ w.turned ∨ k ∈ w.stack) : m.pc k = .suspended := by
  rw [← h.mem_iff]
  simp only [Waiting.queue, List.mem_append, List.mem_reverse]
  tauto

/-- The memory holds the waiters after a change that leaves alone what they rest on: the addresses
and the links of the waiters, the heads of the lists, and who is suspended. -/
theorem Rep.frame {m' : CoMutex κ σ} (h : Rep m w holder)
    (hstate : m'.state = m.state) (hhead : m'.waitersHead = m.waitersHead)
    (horder : m'.acquisitions = m.acquisitions ∧ m'.granted = m.granted)
    (hlinks : ∀ k, m.pc k = .suspended → m'.address k = m.address k ∧
      m'.next (m.address k) = m.next (m.address k))
    (hsuspended : ∀ k, m'.pc k = .suspended ↔ m.pc k = .suspended)
    (hholds : ∀ k, (m'.pc k).Holds ↔ (m.pc k).Holds)
    (hphase : ∀ k, holder = some k → m'.pc k = m.pc k ∨ Phase m' w (m'.pc k))
    (haddress : ∀ k, (m'.pc k).Awaits → lockedNoWaiters < m'.address k ∧
      (m'.awaiters (m'.address k)).awaitingCoroutine = some k)
    (hinj : ∀ k k', (m'.pc k).Awaits → (m'.pc k').Awaits → m'.address k = m'.address k' →
      k = k') : Rep m' w holder := by
  -- A list of suspended waiters is linked as before.
  have hframe : ∀ {l : List κ} {p}, (∀ k ∈ l, m.pc k = .suspended) →
      Chain m.next p (l.map m.address) → Chain m'.next p (l.map m'.address) :=
    fun hl hc => hc.map_congr fun k hk => hlinks k (hl k hk)
  constructor
  case holds_iff => exact fun k => (hholds k).trans (h.holds_iff k)
  case state_iff =>
    rw [hstate]
    exact h.state_iff
  case stack =>
    have htop : m'.top = m.top := by rw [top, top, hstate]
    rw [htop]
    exact hframe (fun k hk => h.suspended (by tauto)) h.stack
  case fifo =>
    rw [hhead]
    exact hframe (fun k hk => h.suspended (by tauto)) h.fifo
  case phase =>
    intro k hk
    rcases hphase k hk with hpc | hp
    · have hp := h.phase k hk
      rw [hpc]
      -- The lists that the place of the holder speaks of are of suspended waiters.
      cases hm : m.pc k with
      | reverse current prev =>
        rw [hm] at hp
        obtain ⟨h1, h2, h3, h4⟩ := hp
        exact ⟨h1, h2, hframe (fun k hk => h.suspended (by tauto)) h3,
          hframe (fun k hk => h.suspended (by tauto)) h4⟩
      | exchangeAgain =>
        rw [hm] at hp
        exact ⟨hp.1, hp.2.1, hp.2.2.1, hstate ▸ hp.2.2.2⟩
      | _ =>
        rw [hm] at hp
        exact hp
    · exact hp
  case free => exact h.free
  case order =>
    rw [horder.1, horder.2]
    exact h.order
  case granted =>
    rw [horder.2]
    exact h.granted
  case nodup => exact h.nodup
  case mem_iff => exact fun k => (h.mem_iff k).trans (hsuspended k).symm
  case address => exact haddress
  case address_inj => exact hinj

variable [DecidableEq κ]

/-- The coroutine is at its new place. -/
@[simp]
theorem goto_pc_self (m : CoMutex κ σ) (k : κ) (pc : LockPc) : (m.goto k pc).pc k = pc :=
  Function.update_self _ _ _

/-- The other coroutines are where they were. -/
theorem goto_pc_of_ne (m : CoMutex κ σ) {k k' : κ} (pc : LockPc) (h : k' ≠ k) :
    (m.goto k pc).pc k' = m.pc k' := Function.update_of_ne h _ _

omit [DecidableEq κ] in
/-- The awaiter at the address has changed, and no other one. -/
theorem setAwaiter_awaiters (m : CoMutex κ σ) (a b : ℕ) (f : Awaiter κ σ → Awaiter κ σ) :
    (m.setAwaiter a f).awaiters b = if b = a then f (m.awaiters a) else m.awaiters b := by
  simp [setAwaiter, Function.update_apply]

/-- A coroutine goes from one place to another that differs neither in holding the lock nor in
waiting for it. -/
theorem Rep.goto (h : Rep m w holder) {pc : LockPc} (hholds : pc.Holds ↔ (m.pc k).Holds)
    (hawaits : pc.Awaits → (m.pc k).Awaits) (hfrom : m.pc k ≠ .suspended)
    (hto : pc ≠ .suspended) (hphase : holder = some k → Phase m w pc) :
    Rep (m.goto k pc) w holder := by
  have hawaits' : ∀ k', ((m.goto k pc).pc k').Awaits → (m.pc k').Awaits := by
    intro k'
    rcases eq_or_ne k' k with rfl | hne
    · rwa [goto_pc_self]
    · rw [goto_pc_of_ne m pc hne]
      exact id
  refine h.frame rfl rfl ⟨rfl, rfl⟩ (fun _ _ => ⟨rfl, rfl⟩) ?_ ?_ ?_
    (fun k' hk' => h.address k' (hawaits' k' hk'))
    (fun k' k'' hk' hk'' => h.address_inj k' k'' (hawaits' k' hk') (hawaits' k'' hk''))
  · intro k'
    rcases eq_or_ne k' k with rfl | hne
    · rw [goto_pc_self]
      exact iff_of_false hto hfrom
    · rw [goto_pc_of_ne m pc hne]
  · intro k'
    rcases eq_or_ne k' k with rfl | hne
    · rwa [goto_pc_self]
    · rw [goto_pc_of_ne m pc hne]
  · intro k' hk'
    rcases eq_or_ne k' k with rfl | hne
    · right
      rw [goto_pc_self]
      exact hphase hk'
    · left
      exact goto_pc_of_ne m pc hne

/-! ## The steps of `lock` -/

/-- A call of `lock`. -/
theorem rep_load (h : Rep m w holder) (hk : m.pc k = .idle) {a : ℕ} {current : Option σ}
    (ha : lockedNoWaiters < a) (hfresh : ∀ k', (m.pc k').Awaits → m.address k' ≠ a) :
    Rep (m.load k a current) w holder := by
  have hpc : ∀ k', k' ≠ k → (m.load k a current).pc k' = m.pc k' :=
    fun k' hne => goto_pc_of_ne _ _ hne
  have haddr : ∀ k', k' ≠ k → (m.load k a current).address k' = m.address k' :=
    fun k' hne => Function.update_of_ne hne _ _
  have hself : (m.load k a current).pc k = .compareExchange m.state ∧
      (m.load k a current).address k = a ∧
      (m.load k a current).awaiters a = { awaitingCoroutine := some k, scheduler := current } :=
    ⟨goto_pc_self _ _ _, Function.update_self _ _ _, Function.update_self _ _ _⟩
  -- The new awaiter is at an address of its own.
  have hmem : ∀ k', (m.pc k').Awaits →
      (m.load k a current).awaiters (m.address k') = m.awaiters (m.address k') :=
    fun k' hk' => Function.update_of_ne (hfresh k' hk') _ _
  have hidle : ∀ k', (m.pc k').Awaits → k' ≠ k := by
    rintro k' hk' rfl
    rw [hk] at hk'
    exact hk'
  -- The caller is in no list, and does not hold the lock.
  refine h.frame rfl rfl ⟨rfl, rfl⟩ ?_ ?_ ?_ ?_ ?_ ?_
  · intro k' hk'
    have haw : (m.pc k').Awaits := by
      rw [hk']
      trivial
    exact ⟨haddr k' (hidle k' haw), congrArg Awaiter.next (hmem k' haw)⟩
  · intro k'
    rcases eq_or_ne k' k with rfl | hne
    · rw [hself.1, hk]
      simp
    · rw [hpc k' hne]
  · intro k'
    rcases eq_or_ne k' k with rfl | hne
    · rw [hself.1, hk]
      rfl
    · rw [hpc k' hne]
  · intro k' hk'
    left
    apply hpc
    rintro rfl
    have := (h.holds_iff k').mpr hk'
    rw [hk] at this
    exact this
  · intro k' hk'
    rcases eq_or_ne k' k with rfl | hne
    · rw [hself.2.1, hself.2.2]
      exact ⟨ha, rfl⟩
    · rw [hpc k' hne] at hk'
      rw [haddr k' hne, hmem k' hk']
      exact h.address k' hk'
  · intro k' k'' hk' hk'' heq
    rcases eq_or_ne k' k with rfl | hne <;> rcases eq_or_ne k'' k' with rfl | hne'
    · rfl
    · rw [hpc k'' hne'] at hk''
      rw [hself.2.1, haddr k'' hne'] at heq
      exact (hfresh k'' hk'' heq.symm).elim
    · rfl
    · rw [hpc k' hne] at hk'
      rcases eq_or_ne k'' k with rfl | hne''
      · rw [hself.2.1, haddr k' hne] at heq
        exact (hfresh k' hk' heq).elim
      · rw [hpc k'' hne''] at hk''
        rw [haddr k' hne, haddr k'' hne''] at heq
        exact h.address_inj k' k'' hk' hk'' heq

omit [DecidableEq κ] in
/-- A locker writes the link of its own awaiter, which is in no list. -/
theorem rep_setNext (h : Rep m w holder) {oldState : ℕ} {p : Option ℕ}
    (hk : m.pc k = .compareExchange oldState) :
    Rep (m.setAwaiter (m.address k) ({ · with next := p })) w holder := by
  have hkaw : (m.pc k).Awaits := by
    rw [hk]
    trivial
  have hcoroutine : ∀ a, ((m.setAwaiter (m.address k) ({ · with next := p })).awaiters
      a).awaitingCoroutine = (m.awaiters a).awaitingCoroutine := by
    intro a
    rw [setAwaiter_awaiters]
    split_ifs with ha
    · rw [ha]
    · rfl
  refine h.frame rfl rfl ⟨rfl, rfl⟩ ?_ (fun _ => .rfl) (fun _ => .rfl) (fun _ _ => .inl rfl) ?_
    h.address_inj
  · intro k' hk'
    refine ⟨rfl, congrArg Awaiter.next (Function.update_of_ne ?_ _ _)⟩
    intro heq
    obtain rfl := h.address_inj k' k (by rw [hk']; trivial) hkaw heq
    rw [hk] at hk'
    simp at hk'
  · intro k' hk'
    rw [hcoroutine]
    exact h.address k' hk'

/-- The compare-and-exchange that takes a free mutex: the lock is granted at once. -/
theorem rep_acquire (h : Rep m w holder) (hk : m.pc k = .compareExchange unlocked)
    (hstate : m.state = unlocked) :
    Rep { m.goto k .holding with
      state := lockedNoWaiters
      acquisitions := m.acquisitions ++ [k]
      granted := m.granted ++ [k] } w (some k) := by
  obtain rfl := h.state_iff.mp hstate
  -- A free mutex has no waiters.
  have hempty := h.free rfl
  have hlists : w.fifo = [] ∧ w.rest = [] ∧ w.turned = [] ∧ w.stack = [] := by
    simpa [Waiting.queue] using hempty
  have hawaits : ∀ k', ((m.goto k .holding).pc k').Awaits → (m.pc k').Awaits := by
    intro k'
    rcases eq_or_ne k' k with rfl | hne
    · rw [goto_pc_self]
      exact False.elim
    · rw [goto_pc_of_ne m _ hne]
      exact id
  constructor
  case holds_iff =>
    intro k'
    rcases eq_or_ne k' k with rfl | hne
    · simp [LockPc.Holds]
    · have hno := h.holds_iff k'
      simp only [reduceCtorEq, iff_false] at hno
      simp only [goto_pc_of_ne m _ hne, Option.some.injEq, hne.symm, iff_false]
      exact hno
  case state_iff => simp [unlocked, lockedNoWaiters]
  case stack =>
    rw [hlists.2.2.2]
    rfl
  case fifo => exact h.fifo
  case phase =>
    intro k' hk'
    obtain rfl := Option.some.inj hk'
    rw [goto_pc_self]
    exact ⟨hlists.2.1, hlists.2.2.1⟩
  case free => simp
  case order =>
    rw [hempty, List.append_nil]
    simpa [hempty] using h.order
  case granted =>
    rintro k' hk'
    rw [← hk']
    exact List.getLast?_concat
  case nodup => exact h.nodup
  case mem_iff =>
    intro k'
    rw [h.mem_iff]
    rcases eq_or_ne k' k with rfl | hne
    · simp [hk]
    · simp only [goto_pc_of_ne m _ hne]
  case address => exact fun k' hk' => h.address k' (hawaits k' hk')
  case address_inj =>
    exact fun k' k'' hk' hk'' => h.address_inj k' k'' (hawaits k' hk') (hawaits k'' hk'')

/-- The compare-and-exchange that pushes an awaiter: the waiter comes in at the end of the queue. -/
theorem rep_push (h : Rep m w holder) {oldState : ℕ} (hk : m.pc k = .compareExchange oldState)
    (hold : oldState ≠ unlocked) (hstate : m.state = oldState)
    (hnext : m.next (m.address k) = m.top) :
    Rep { m.goto k .suspended with
      state := m.address k
      acquisitions := m.acquisitions ++ [k] } { w with stack := k :: w.stack } holder := by
  -- The address of an awaiter is not one of the two states without a waiter.
  have haddr : lockedNoWaiters < m.address k := (h.address k (by rw [hk]; trivial)).1
  have hlocked : holder ≠ none := fun hno => hold (hstate ▸ h.state_iff.mpr hno)
  have hqueue : Waiting.queue { w with stack := k :: w.stack } = w.queue ++ [k] := by
    simp [Waiting.queue]
  have hnot : k ∉ w.queue := by
    rw [h.mem_iff, hk]
    simp
  have hawaits : ∀ k', ((m.goto k .suspended).pc k').Awaits → (m.pc k').Awaits := by
    intro k'
    rcases eq_or_ne k' k with rfl | hne
    · rw [hk]
      exact fun _ => trivial
    · rw [goto_pc_of_ne m _ hne]
      exact id
  constructor
  case holds_iff =>
    intro k'
    rw [← h.holds_iff]
    rcases eq_or_ne k' k with rfl | hne
    · simp only [goto_pc_self, hk]
      exact .rfl
    · simp only [goto_pc_of_ne m _ hne]
  case state_iff =>
    refine iff_of_false ?_ hlocked
    unfold lockedNoWaiters at haddr
    unfold unlocked
    dsimp only
    omega
  case stack =>
    refine ⟨?_, ?_⟩
    · exact if_neg (Nat.not_le.mpr haddr)
    · show Chain m.next (m.next (m.address k)) _
      rw [hnext]
      exact h.stack
  case fifo => exact h.fifo
  case phase =>
    intro k' hk'
    have hne : k' ≠ k := by
      rintro rfl
      have := (h.holds_iff k').mpr hk'
      rw [hk] at this
      exact this
    have hp := h.phase k' hk'
    simp only [goto_pc_of_ne m _ hne]
    cases hm : m.pc k' with
    -- The second exchange finds a waiter, now as before.
    | exchangeAgain =>
      rw [hm] at hp
      exact ⟨hp.1, hp.2.1, hp.2.2.1, Nat.ne_of_gt haddr⟩
    | _ =>
      rw [hm] at hp
      exact hp
  case free => exact fun hno => (hlocked hno).elim
  case order =>
    show m.acquisitions ++ [k] = m.granted ++ _
    rw [hqueue, h.order, List.append_assoc]
  case granted => exact h.granted
  case nodup =>
    rw [hqueue]
    exact List.nodup_append.mpr ⟨h.nodup, List.nodup_singleton k, by
      rintro a ha b hb rfl
      exact hnot (List.mem_singleton.mp hb ▸ ha)⟩
  case mem_iff =>
    intro k'
    rw [hqueue, List.mem_append, List.mem_singleton, h.mem_iff]
    rcases eq_or_ne k' k with rfl | hne
    · simp
    · simp only [goto_pc_of_ne m _ hne, hne, or_false]
  case address => exact fun k' hk' => h.address k' (hawaits k' hk')
  case address_inj =>
    exact fun k' k'' hk' hk'' => h.address_inj k' k'' (hawaits k' hk') (hawaits k'' hk'')

/-- An iteration of the loop of `await_suspend`: it takes the free mutex, comes in at the end of
the queue, or is repeated. -/
theorem rep_compareExchangeWeak (h : Rep m w holder) {oldState : ℕ} (spurious : Bool)
    (hk : m.pc k = .compareExchange oldState) :
    ∃ w' holder', Rep (m.compareExchangeWeak k oldState spurious) w' holder' := by
  have hretry : ∀ {m' : CoMutex κ σ}, Rep m' w holder → m'.pc k = .compareExchange oldState →
      Rep (m'.goto k (.compareExchange m.state)) w holder := by
    intro m' h' hk'
    refine h'.goto (by rw [hk']; rfl) (fun _ => by rw [hk']; trivial) (by simp [hk']) (by simp) ?_
    intro hh
    have := (h'.holds_iff k).mpr hh
    rw [hk'] at this
    exact this.elim
  unfold compareExchangeWeak
  by_cases hfree : oldState = unlocked
  · obtain rfl := hfree
    rw [if_pos rfl]
    split_ifs with hcas
    · exact ⟨w, some k, rep_acquire h hk hcas.1⟩
    · exact ⟨w, holder, hretry h hk⟩
  · rw [if_neg hfree]
    dsimp only
    set p := toAwaiter (if oldState = lockedNoWaiters then 0 else oldState) with hp
    set m₁ := m.setAwaiter (m.address k) ({ · with next := p }) with hm₁
    have h₁ : Rep m₁ w holder := rep_setNext h hk
    by_cases hcas : m₁.state = oldState ∧ (!spurious) = true
    · refine ⟨{ w with stack := k :: w.stack }, holder, ?_⟩
      rw [if_pos hcas]
      apply rep_push h₁ hk hfree hcas.1
      -- The link written is the top of the stack that the exchange found.
      have hlink : m₁.next (m₁.address k) = p := by
        show (m₁.awaiters (m.address k)).next = p
        rw [hm₁, setAwaiter_awaiters, if_pos rfl]
      rw [hlink, hp, top, toAwaiter, hcas.1]
      unfold unlocked at hfree
      unfold lockedNoWaiters
      split_ifs <;> first | rfl | omega
    · refine ⟨w, holder, ?_⟩
      rw [if_neg hcas]
      exact hretry h₁ hk

/-- A selected waiter goes on. -/
theorem rep_resume (h : Rep m w holder) (hk : m.pc k = .selected) :
    Rep (m.goto k .holding) w holder := by
  refine h.goto (by rw [hk]; rfl) (fun ha => ha.elim) (by simp [hk]) (by simp) ?_
  intro hh
  have hphase := h.phase k hh
  rw [hk] at hphase
  exact hphase

/-! ## The steps of `unlock` -/

omit [DecidableEq κ] in
/-- Whoever is at a place of the holder holds the lock. -/
theorem Rep.holder_eq (h : Rep m w holder) (hk : (m.pc k).Holds) : holder = some k :=
  (h.holds_iff k).mp hk

/-- The holder goes to another place in `unlock` and moves waiters between the lists, without a
change of their order. -/
theorem Rep.relist {m' : CoMutex κ σ} {w' : Waiting κ} (h : Rep m w (some k)) (pc : LockPc)
    (hholds : pc.Holds) (hawaits : ¬ pc.Awaits) (hpc : m'.pc = (m.goto k pc).pc)
    (haddr : m'.address = m.address)
    (hcoroutine : ∀ a, (m'.awaiters a).awaitingCoroutine = (m.awaiters a).awaitingCoroutine)
    (horder : m'.acquisitions = m.acquisitions ∧ m'.granted = m.granted)
    (hstate : m'.state ≠ unlocked) (hqueue : w'.queue = w.queue)
    (hstack : Chain m'.next m'.top (w'.stack.map m.address))
    (hfifo : Chain m'.next m'.waitersHead (w'.fifo.map m.address)) (hphase : Phase m' w' pc) :
    Rep m' w' (some k) := by
  have hk := (h.holds_iff k).mpr rfl
  have hself : m'.pc k = pc := by rw [hpc, goto_pc_self]
  have hother : ∀ k', k' ≠ k → m'.pc k' = m.pc k' := fun k' hne => by
    rw [hpc, goto_pc_of_ne m _ hne]
  -- Only the holder moves, and it does not wait.
  have hlive : ∀ k', (m'.pc k').Awaits → (m.pc k').Awaits := by
    intro k' hk'
    rcases eq_or_ne k' k with rfl | hne
    · rw [hself] at hk'
      exact (hawaits hk').elim
    · rwa [hother k' hne] at hk'
  constructor
  case holds_iff =>
    intro k'
    rw [← h.holds_iff]
    rcases eq_or_ne k' k with rfl | hne
    · rw [hself]
      exact iff_of_true hholds hk
    · rw [hother k' hne]
  case state_iff => exact iff_of_false hstate (by simp)
  case stack => exact haddr ▸ hstack
  case fifo => exact haddr ▸ hfifo
  case phase =>
    intro k' hk'
    obtain rfl := Option.some.inj hk'
    rwa [hself]
  case free => simp
  case order =>
    rw [horder.1, horder.2, hqueue]
    exact h.order
  case granted => exact horder.2 ▸ h.granted
  case nodup => exact hqueue ▸ h.nodup
  case mem_iff =>
    intro k'
    rw [hqueue, h.mem_iff]
    rcases eq_or_ne k' k with rfl | hne
    · rw [hself]
      refine iff_of_false ?_ ?_
      · intro hs
        rw [hs] at hk
        exact hk
      · rintro rfl
        exact hholds
    · rw [hother k' hne]
  case address =>
    intro k' hk'
    rw [haddr, hcoroutine]
    exact h.address k' (hlive k' hk')
  case address_inj =>
    intro k' k'' hk' hk''
    rw [haddr]
    exact h.address_inj k' k'' (hlive k' hk') (hlive k'' hk'')

omit [DecidableEq κ] in
/-- The mutex is not free while there is a holder. -/
theorem Rep.state_ne (h : Rep m w (some k)) : m.state ≠ unlocked := by
  intro hstate
  simpa using h.state_iff.mp hstate

/-- The start of `unlock`. -/
theorem rep_unlock (h : Rep m w holder) (hk : m.pc k = .holding) :
    Rep (m.unlock k) w holder := by
  obtain rfl := h.holder_eq (k := k) (by rw [hk]; trivial)
  have hphase := h.phase k rfl
  rw [hk] at hphase
  have hhead := h.fifo.head
  have hgoto : ∀ pc : LockPc, pc.Holds → ¬ pc.Awaits → Phase m w pc →
      Rep (m.goto k pc) w (some k) := fun pc hholds hawaits hp =>
    h.relist _ hholds hawaits rfl rfl (fun _ => rfl) ⟨rfl, rfl⟩ h.state_ne rfl h.stack h.fifo
      (by cases pc <;> exact hp)
  unfold unlock
  split_ifs with hnone
  · refine hgoto _ trivial id ⟨?_, hphase⟩
    rw [hnone] at hhead
    simpa using hhead.symm
  · refine hgoto _ trivial id ⟨?_, hphase⟩
    intro hnil
    rw [hnil] at hhead
    exact hnone hhead

omit [DecidableEq κ] in
/-- The stack has waiters if and only if `state_` is the address of one. -/
theorem Rep.stack_eq_nil_iff (h : Rep m w (some k)) :
    w.stack = [] ↔ m.state = lockedNoWaiters := by
  have hhead := h.stack.head
  have hne := h.state_ne
  rw [top] at hhead
  unfold unlocked at hne
  constructor
  · intro hnil
    rw [hnil] at hhead
    split_ifs at hhead with hle
    · unfold lockedNoWaiters at *
      omega
    · simp at hhead
  · intro hstate
    rw [if_pos (by omega)] at hhead
    simpa using hhead.symm

/-- An exchange of `unlock` that finds a stack of waiters detaches it. -/
theorem rep_detach (h : Rep m w (some k))
    (hlists : w.fifo = [] ∧ w.rest = [] ∧ w.turned = []) (hstate : m.state ≠ lockedNoWaiters) :
    Rep { m.goto k (.reverse (toAwaiter m.state) none) with state := lockedNoWaiters }
      ⟨[], w.stack, [], []⟩ (some k) := by
  obtain ⟨hfifo, hrest, hturned⟩ := hlists
  have hhead : m.waitersHead = none := by
    have := h.fifo.head
    rwa [hfifo] at this
  have htop : toAwaiter m.state = m.top := by
    have h0 := h.state_ne
    unfold unlocked at h0
    unfold lockedNoWaiters at hstate
    rw [toAwaiter, top, if_neg h0, if_neg]
    unfold lockedNoWaiters
    omega
  refine h.relist (.reverse (toAwaiter m.state) none) trivial id rfl rfl (fun _ => rfl)
    ⟨rfl, rfl⟩ (by simp [unlocked, lockedNoWaiters]) ?_ rfl hhead ⟨rfl, ?_, ?_, rfl⟩
  · simp [Waiting.queue, hfifo, hrest, hturned]
  · rw [List.append_nil]
    exact mt h.stack_eq_nil_iff.mp hstate
  · rw [htop]
    exact h.stack

/-- The first exchange of `unlock`. -/
theorem rep_exchange (h : Rep m w holder) (hk : m.pc k = .exchange) :
    ∃ w', Rep (m.exchange k) w' holder := by
  obtain rfl := h.holder_eq (k := k) (by rw [hk]; trivial)
  have hphase := h.phase k rfl
  rw [hk] at hphase
  unfold exchange
  dsimp only
  split_ifs with hstate
  · refine ⟨w, h.relist .compareExchangeStrong trivial id rfl rfl (fun _ => rfl)
      ⟨rfl, rfl⟩ (by simp [goto, unlocked, lockedNoWaiters]) rfl ?_ h.fifo hphase⟩
    rw [h.stack_eq_nil_iff.mpr hstate]
    rfl
  · exact ⟨_, rep_detach h hphase hstate⟩

/-- The second exchange of `unlock`. -/
theorem rep_exchangeAgain (h : Rep m w holder) (hk : m.pc k = .exchangeAgain) :
    ∃ w', Rep (m.exchangeAgain k) w' holder := by
  obtain rfl := h.holder_eq (k := k) (by rw [hk]; trivial)
  have hphase := h.phase k rfl
  rw [hk] at hphase
  exact ⟨_, rep_detach h ⟨hphase.1, hphase.2.1, hphase.2.2.1⟩ hphase.2.2.2⟩

/-- An iteration of the loop of `unlock` turns one more waiter around, and the end of the loop puts
the waiters where they are taken from. -/
theorem rep_reverse (h : Rep m w holder) {current prev : Option ℕ}
    (hk : m.pc k = .reverse current prev) :
    ∃ w', Rep (m.reverse k current prev) w' holder ∧ w'.rest = w.rest.tail := by
  obtain rfl := h.holder_eq (k := k) (by rw [hk]; trivial)
  have hphase := h.phase k rfl
  rw [hk] at hphase
  obtain ⟨hfifo, hne, hrest, hturned⟩ := hphase
  cases current with
  | none =>
    have hnil : w.rest = [] := by simpa using hrest
    rw [hnil, List.nil_append] at hne
    refine ⟨⟨w.turned, [], [], w.stack⟩, h.relist .select trivial id rfl rfl
      (fun _ => rfl) ⟨rfl, rfl⟩ h.state_ne ?_ h.stack hturned ⟨hne, rfl, rfl⟩, by rw [hnil]; rfl⟩
    simp [Waiting.queue, hfifo, hnil]
  | some a =>
    obtain ⟨k₀, rest, hcons⟩ : ∃ k₀ rest, w.rest = k₀ :: rest := by
      cases hl : w.rest with
      | nil => simp [hl] at hrest
      | cons k₀ rest => exact ⟨k₀, rest, rfl⟩
    rw [hcons, List.map_cons] at hrest
    obtain ⟨ha, hrest⟩ := hrest
    obtain rfl := Option.some.inj ha
    have hsplit : w.queue =
        (w.fifo ++ rest.reverse) ++ k₀ :: (w.turned ++ w.stack.reverse) := by
      simp [Waiting.queue, hcons]
    have hnot : k₀ ∉ (w.fifo ++ rest.reverse) ++ (w.turned ++ w.stack.reverse) := by
      have := h.nodup
      rw [hsplit] at this
      exact (List.nodup_cons.mp (List.nodup_middle.mp this)).1
    simp only [List.mem_append, List.mem_reverse, not_or] at hnot
    obtain ⟨⟨-, hnrest⟩, hnturned, hnstack⟩ := hnot
    set m₁ := m.setAwaiter (m.address k₀) ({ · with next := prev }) with hm₁
    -- The write is to an awaiter of the list alone.
    have hother : ∀ {l : List κ} {p}, k₀ ∉ l → (∀ k' ∈ l, m.pc k' = .suspended) →
        Chain m.next p (l.map m.address) → Chain m₁.next p (l.map m.address) := by
      intro l p hl hs hc
      refine hc.map_congr fun k' hk' => ⟨rfl, ?_⟩
      have hne : m.address k' ≠ m.address k₀ := by
        intro heq
        have h₀ : m.pc k₀ = .suspended := h.suspended (by simp [hcons])
        obtain rfl := h.address_inj k' k₀ (by rw [hs k' hk']; trivial) (by rw [h₀]; trivial) heq
        exact hl hk'
      rw [next, hm₁, setAwaiter_awaiters, if_neg hne]
    have hlink : m₁.next (m.address k₀) = prev := by
      rw [next, hm₁, setAwaiter_awaiters, if_pos rfl]
    have hcoroutine : ∀ b, (m₁.awaiters b).awaitingCoroutine =
        (m.awaiters b).awaitingCoroutine := by
      intro b
      rw [hm₁, setAwaiter_awaiters]
      split_ifs with hb
      · rw [hb]
      · rfl
    refine ⟨{ w with rest := rest, turned := k₀ :: w.turned }, ?_, by rw [hcons]; rfl⟩
    refine h.relist (.reverse (m.next (m.address k₀)) (some (m.address k₀))) trivial id rfl
      rfl hcoroutine ⟨rfl, rfl⟩ h.state_ne ?_ ?_ ?_ ⟨hfifo, by simp, ?_, rfl, ?_⟩
    · simp [Waiting.queue, hcons]
    · exact hother hnstack (fun k' hk' => h.suspended (by tauto)) h.stack
    · have hhead : m.waitersHead = none := by simpa [hfifo] using h.fifo.head
      rw [hfifo]
      exact hhead
    · exact hother hnrest (fun k' hk' => h.suspended (by simp [hcons, hk'])) hrest
    · show Chain m₁.next (m₁.next (m.address k₀)) _
      rw [hlink]
      exact hother hnturned (fun k' hk' => h.suspended (by tauto)) hturned

/-- The compare-and-exchange of `unlock` frees the mutex only if nobody waits. -/
theorem rep_compareExchangeStrong (h : Rep m w holder) (hk : m.pc k = .compareExchangeStrong) :
    (m.state ≠ lockedNoWaiters ∧ Rep (m.goto k .exchangeAgain) w holder) ∨
      m.state = lockedNoWaiters ∧ w.queue = [] ∧
        Rep { m.goto k .idle with state := unlocked } w none := by
  obtain rfl := h.holder_eq (k := k) (by rw [hk]; trivial)
  have hphase := h.phase k rfl
  rw [hk] at hphase
  obtain ⟨hfifo, hrest, hturned⟩ := hphase
  -- The exchange succeeds only if no waiter has come since the first one.
  rcases eq_or_ne m.state lockedNoWaiters with hstate | hstate
  · right
    have hstack := h.stack_eq_nil_iff.mpr hstate
    have hqueue : w.queue = [] := by simp [Waiting.queue, hfifo, hrest, hturned, hstack]
    refine ⟨hstate, hqueue, ?_⟩
    have hpc : ∀ k', k' ≠ k → (m.goto k .idle).pc k' = m.pc k' :=
      fun k' hne => goto_pc_of_ne m _ hne
    have hlive : ∀ k', ((m.goto k .idle).pc k').Awaits → (m.pc k').Awaits := by
      intro k'
      rcases eq_or_ne k' k with rfl | hne
      · rw [goto_pc_self]
        exact False.elim
      · rw [hpc k' hne]
        exact id
    refine ⟨?_, iff_of_true rfl rfl, ?_, h.fifo, by simp, fun _ => hqueue, h.order, by simp,
      h.nodup, ?_, fun k' hk' => h.address k' (hlive k' hk'),
      fun k' k'' hk' hk'' => h.address_inj k' k'' (hlive k' hk') (hlive k'' hk'')⟩
    · intro k'
      simp only [reduceCtorEq, iff_false]
      rcases eq_or_ne k' k with rfl | hne
      · rw [goto_pc_self]
        exact id
      · rw [hpc k' hne, h.holds_iff]
        simpa using hne.symm
    · rw [hstack]
      rfl
    · intro k'
      rw [h.mem_iff]
      rcases eq_or_ne k' k with rfl | hne
      · simp [hk]
      · simp only [hpc k' hne]
  · left
    exact ⟨hstate, h.relist .exchangeAgain trivial id rfl rfl (fun _ => rfl) ⟨rfl, rfl⟩
      h.state_ne rfl h.stack h.fifo ⟨hfifo, hrest, hturned, hstate⟩⟩

/-- The end of `unlock` gives the lock to the waiter that came first. -/
theorem rep_select [DecidableEq σ] (h : Rep m w holder) (hk : m.pc k = .select)
    (current : Option σ) :
    ∃ k₀ fifo, w.queue = k₀ :: Waiting.queue { w with fifo := fifo } ∧
      (m.select k current).granted = m.granted ++ [k₀] ∧
      (m.select k current).pc k₀ = .selected ∧ (m.select k current).pc k = .idle ∧
      Rep (m.select k current) { w with fifo := fifo } (some k₀) := by
  obtain rfl := h.holder_eq (k := k) (by rw [hk]; trivial)
  have hphase := h.phase k rfl
  rw [hk] at hphase
  obtain ⟨hne, hrest, hturned⟩ := hphase
  -- The list of `waiters_head_` is not empty, and its head is the first to have come.
  obtain ⟨k₀, fifo, hcons⟩ := List.exists_cons_of_ne_nil hne
  have hfifo := h.fifo
  rw [hcons, List.map_cons] at hfifo
  obtain ⟨hhead, hfifo⟩ := hfifo
  have hqueue : w.queue = k₀ :: Waiting.queue { w with fifo := fifo } := by
    simp [Waiting.queue, hcons]
  have hnodup := h.nodup
  rw [hqueue] at hnodup
  obtain ⟨hnot, hnodup⟩ := List.nodup_cons.mp hnodup
  have hsuspended : m.pc k₀ = .suspended := h.suspended (by simp [hcons])
  have hk₀ : k₀ ≠ k := by
    rintro rfl
    rw [hk] at hsuspended
    simp at hsuspended
  have hcoroutine : (m.awaiters (m.address k₀)).awaitingCoroutine = some k₀ :=
    (h.address k₀ (by rw [hsuspended]; trivial)).2
  -- Two coroutines move: the holder returns from `unlock`, and the waiter is selected.
  have hselect : m.select k current =
      { (m.goto k .idle).goto k₀ .selected with
        granted := m.granted ++ [k₀]
        waitersHead := m.next (m.address k₀)
        handovers := m.handovers ++ handover current (m.awaiters (m.address k₀)) } := by
    simp only [select, hhead, hcoroutine]
    rfl
  have hpc₀ : ((m.goto k .idle).goto k₀ .selected).pc k₀ = .selected := goto_pc_self _ _ _
  have hpck : ((m.goto k .idle).goto k₀ .selected).pc k = .idle := by
    rw [goto_pc_of_ne _ _ hk₀.symm, goto_pc_self]
  have hpc : ∀ k', k' ≠ k₀ → k' ≠ k → ((m.goto k .idle).goto k₀ .selected).pc k' = m.pc k' :=
    fun k' h₀ hk' => by rw [goto_pc_of_ne _ _ h₀, goto_pc_of_ne _ _ hk']
  have hlive : ∀ k', (((m.goto k .idle).goto k₀ .selected).pc k').Awaits → (m.pc k').Awaits := by
    intro k'
    rcases eq_or_ne k' k₀ with rfl | h₀
    · rw [hsuspended]
      exact fun _ => trivial
    · rcases eq_or_ne k' k with rfl | h₁
      · rw [hpck]
        exact False.elim
      · rw [hpc k' h₀ h₁]
        exact id
  rw [hselect]
  refine ⟨k₀, fifo, hqueue, rfl, hpc₀, hpck, ?_, iff_of_false h.state_ne (by simp), h.stack,
    hfifo, ?_, by simp, ?_, ?_, hnodup, ?_, fun k' hk' => h.address k' (hlive k' hk'),
    fun k' k'' hk' hk'' => h.address_inj k' k'' (hlive k' hk') (hlive k'' hk'')⟩
  · intro k'
    rcases eq_or_ne k' k₀ with rfl | h₀
    · exact iff_of_true (by rw [hpc₀]; trivial) rfl
    · refine iff_of_false ?_ (by simpa using h₀.symm)
      rcases eq_or_ne k' k with rfl | h₁
      · rw [hpck]
        exact id
      · rw [hpc k' h₀ h₁, h.holds_iff]
        simpa using h₁.symm
  · intro k' hk'
    obtain rfl := Option.some.inj hk'
    rw [hpc₀]
    exact ⟨hrest, hturned⟩
  · show m.acquisitions = (m.granted ++ [k₀]) ++ _
    rw [h.order, hqueue]
    simp
  · rintro k' hk'
    rw [← hk']
    exact List.getLast?_concat
  · intro k'
    have hmem := h.mem_iff k'
    rw [hqueue, List.mem_cons] at hmem
    rcases eq_or_ne k' k₀ with rfl | h₀
    · exact iff_of_false hnot (by rw [hpc₀]; simp)
    · simp only [h₀, false_or] at hmem
      rw [hmem]
      rcases eq_or_ne k' k with rfl | h₁
      · simp only [hpck, hk]
        simp
      · simp only [hpc k' h₀ h₁]

/-! ## Runs -/

/-- The step lemma: every step keeps the waiters in memory. -/
theorem rep_step [DecidableEq σ] {m' : CoMutex κ σ} {op : LockOp κ σ} (h : Rep m w holder)
    (hstep : lockStep m op m') : ∃ w' holder', Rep m' w' holder' := by
  obtain ⟨hstep, hfresh⟩ := hstep
  cases StepCase.of_step hstep with
  | load k a current hk =>
    obtain ⟨hne, halign, hfresh⟩ := hfresh
    refine ⟨w, holder, rep_load h hk ?_ hfresh⟩
    unfold lockedNoWaiters
    omega
  | compareExchangeWeak k oldState spurious hk => exact rep_compareExchangeWeak h spurious hk
  | resume k hk _ => exact ⟨w, holder, rep_resume h hk⟩
  | unlock k hk => exact ⟨w, holder, rep_unlock h hk⟩
  | exchange k hk =>
    obtain ⟨w', h'⟩ := rep_exchange h hk
    exact ⟨w', holder, h'⟩
  | compareExchangeStrong k hk =>
    unfold compareExchangeStrong
    rcases rep_compareExchangeStrong h hk with ⟨hstate, h'⟩ | ⟨hstate, -, h'⟩
    · rw [if_neg hstate]
      exact ⟨w, holder, h'⟩
    · rw [if_pos hstate]
      exact ⟨w, none, h'⟩
  | exchangeAgain k hk =>
    obtain ⟨w', h'⟩ := rep_exchangeAgain h hk
    exact ⟨w', holder, h'⟩
  | reverse k current prev hk =>
    obtain ⟨w', h', -⟩ := rep_reverse h hk
    exact ⟨w', holder, h'⟩
  | select k current hk =>
    obtain ⟨k₀, fifo, -, -, -, -, h'⟩ := rep_select h hk current
    exact ⟨_, some k₀, h'⟩

omit [DecidableEq κ] in
/-- A new mutex has no waiters. -/
theorem new_rep (mem : ℕ → Awaiter κ σ) (address : κ → ℕ) :
    Rep (new mem address) ⟨[], [], [], []⟩ none := by
  refine ⟨?_, ?_, ?_, ?_, ?_, ?_, ?_, ?_, ?_, ?_, ?_, ?_⟩ <;>
    simp [new, Waiting.queue, LockPc.Holds, LockPc.Awaits, top, unlocked]

/-- The run lemma: the memory of a mutex in use holds its waiters. -/
theorem run_rep [DecidableEq σ] {mem : ℕ → Awaiter κ σ} {address : κ → ℕ}
    {l : List (LockOp κ σ × CoMutex κ σ)} (hl : Path lockStep (new mem address) l) :
    ∃ w holder, Rep (last (new mem address) l) w holder :=
  (hl.invariant (I := fun m => ∃ w holder, Rep m w holder)
    (fun _ _ _ ⟨_, _, h⟩ hstep => rep_step h hstep) ⟨_, _, new_rep mem address⟩).2

/-- Where an iteration of the loop of `await_suspend` leads to. -/
theorem compareExchangeWeak_pc (m : CoMutex κ σ) (k : κ) (oldState : ℕ) (spurious : Bool) :
    ∃ pc, pc ≠ LockPc.idle ∧
      (m.compareExchangeWeak k oldState spurious).pc = (m.goto k pc).pc := by
  unfold compareExchangeWeak
  generalize toAwaiter (if oldState = lockedNoWaiters then 0 else oldState) = p
  split_ifs
  · exact ⟨.holding, by simp, rfl⟩
  · exact ⟨.compareExchange m.state, by simp, rfl⟩
  · dsimp only
    split_ifs
    · exact ⟨.suspended, by simp, rfl⟩
    · exact ⟨.compareExchange m.state, by simp, rfl⟩

/-- The step with which a call of `unlock` returns: it frees the mutex if nobody waits, and
otherwise it gives the lock to the waiter that came first. -/
theorem unlock_returns_step [DecidableEq σ] {m' : CoMutex κ σ} {op : LockOp κ σ}
    (h : Rep m w holder) (hstep : lockStep m op m') (hk : (m.pc k).Holds)
    (hk' : m'.pc k = .idle) :
    (w.queue = [] ∧ m'.state = unlocked ∧ m'.granted = m.granted) ∨
      ∃ first rest, w.queue = first :: rest ∧ m'.pc first = .selected ∧
        m'.granted = m.granted ++ [first] := by
  obtain ⟨hstep, -⟩ := hstep
  -- Only the step of the holder itself moves it.
  have hgoto : ∀ {m₁ : CoMutex κ σ} (k₁) {pc}, m₁.pc = m.pc → pc ≠ .idle →
      (m₁.goto k₁ pc).pc k ≠ .idle := by
    intro m₁ k₁ pc hm₁ hpc
    rcases eq_or_ne k k₁ with rfl | hne
    · rwa [goto_pc_self]
    · rw [goto_pc_of_ne _ _ hne, hm₁]
      intro hidle
      rw [hidle] at hk
      exact hk
  cases StepCase.of_step hstep with
  | load k₁ a current _ => exact (hgoto k₁ rfl (by simp) hk').elim
  | compareExchangeWeak k₁ oldState spurious _ =>
    obtain ⟨pc, hpc, heq⟩ := compareExchangeWeak_pc m k₁ oldState spurious
    rw [heq] at hk'
    exact (hgoto _ rfl hpc hk').elim
  | resume k₁ _ _ => exact (hgoto k₁ rfl (by simp) hk').elim
  | unlock k₁ _ =>
    unfold unlock at hk'
    split_ifs at hk' <;> exact (hgoto k₁ rfl (by simp) hk').elim
  | exchange k₁ _ =>
    unfold exchange at hk'
    dsimp only at hk'
    split_ifs at hk' <;> exact (hgoto k₁ rfl (by simp) hk').elim
  | compareExchangeStrong k₁ hk₁ =>
    unfold compareExchangeStrong at hk' ⊢
    rcases rep_compareExchangeStrong h hk₁ with ⟨hstate, -⟩ | ⟨hstate, hqueue, -⟩
    · rw [if_neg hstate] at hk'
      exact (hgoto k₁ rfl (by simp) hk').elim
    · rw [if_pos hstate]
      exact .inl ⟨hqueue, rfl, rfl⟩
  | exchangeAgain k₁ _ => exact (hgoto k₁ rfl (by simp) hk').elim
  | reverse k₁ current prev _ =>
    unfold reverse at hk'
    split at hk' <;> exact (hgoto k₁ rfl (by simp) hk').elim
  | select k₁ current hk₁ =>
    obtain ⟨k₀, fifo, hqueue, hgranted, hpc, -, -⟩ := rep_select h hk₁ current
    exact .inr ⟨k₀, _, hqueue, hpc, hgranted⟩

/-- Steps of the coroutine `k` alone lead from `m` to a state in which it has returned from
`unlock`. -/
def CanReturn [DecidableEq σ] (k : κ) (m : CoMutex κ σ) : Prop :=
  ∃ l : List (LockOp κ σ × CoMutex κ σ), Path lockStep m l ∧ (∀ x ∈ l, x.1.coroutine = k) ∧
    (last m l).pc k = .idle

/-- One more step at the start. -/
theorem CanReturn.step [DecidableEq σ] {m' : CoMutex κ σ} {op : LockOp κ σ}
    (h : CanReturn k m') (hop : op.coroutine = k) (hstep : lockStep m op m') :
    CanReturn k m := by
  obtain ⟨l, hl, hk, hlast⟩ := h
  exact ⟨(op, m') :: l, ⟨hstep, hl⟩, List.forall_mem_cons.mpr ⟨hop, hk⟩, hlast⟩

/-- `unlock` returns from its last step. -/
theorem canReturn_select [DecidableEq σ] (h : Rep m w holder) (hk : m.pc k = .select) :
    CanReturn k m := by
  obtain ⟨k₀, fifo, -, -, -, hidle, -⟩ := rep_select h hk none
  exact ⟨[(.select k none, m.select k none)], ⟨⟨if_pos hk, trivial⟩, trivial⟩, by
    simp [LockOp.coroutine], hidle⟩

/-- `unlock` returns from its loop, which ends with the waiters that are still to turn. -/
theorem canReturn_reverse [DecidableEq σ] (current prev : Option ℕ) (h : Rep m w holder)
    (hk : m.pc k = .reverse current prev) : CanReturn k m := by
  have hstep : lockStep m (.reverse k) (m.reverse k current prev) := by
    refine ⟨?_, trivial⟩
    simp only [step, hk]
  generalize hn : w.rest.length = n
  induction n generalizing m w current prev with
  | zero =>
    have hphase := h.phase k (h.holder_eq (by rw [hk]; trivial))
    rw [hk] at hphase
    obtain ⟨-, -, hrest, -⟩ := hphase
    rw [List.length_eq_zero_iff.mp hn] at hrest
    obtain rfl : current = none := hrest
    obtain ⟨w', h', -⟩ := rep_reverse h hk
    exact (canReturn_select h' (goto_pc_self _ _ _)).step rfl hstep
  | succ n ih =>
    have hphase := h.phase k (h.holder_eq (by rw [hk]; trivial))
    rw [hk] at hphase
    obtain ⟨-, -, hrest, -⟩ := hphase
    obtain ⟨k₀, rest, hcons⟩ := List.exists_cons_of_length_eq_add_one hn
    rw [hcons] at hrest
    obtain ⟨rfl, -⟩ := hrest
    obtain ⟨w', h', htail⟩ := rep_reverse h hk
    have hk' : (m.reverse k (some (m.address k₀)) prev).pc k =
        .reverse (m.next (m.address k₀)) (some (m.address k₀)) := goto_pc_self _ _ _
    refine (ih _ _ h' hk' ⟨?_, trivial⟩ ?_).step rfl hstep
    · simp only [CoMutex.step, hk']
    · rw [htail, List.length_tail, hn, Nat.add_sub_cancel]

/-- `unlock` returns from the second exchange. -/
theorem canReturn_exchangeAgain [DecidableEq σ] (h : Rep m w holder)
    (hk : m.pc k = .exchangeAgain) : CanReturn k m := by
  obtain ⟨w', h'⟩ := rep_exchangeAgain h hk
  have hstep : lockStep m (.exchangeAgain k) (m.exchangeAgain k) := ⟨if_pos hk, trivial⟩
  exact (canReturn_reverse _ _ h' (goto_pc_self _ _ _)).step rfl hstep

/-- `unlock` returns from the compare-and-exchange. -/
theorem canReturn_compareExchangeStrong [DecidableEq σ] (h : Rep m w holder)
    (hk : m.pc k = .compareExchangeStrong) : CanReturn k m := by
  have hstep : lockStep m (.compareExchangeStrong k) (m.compareExchangeStrong k) :=
    ⟨if_pos hk, trivial⟩
  rcases rep_compareExchangeStrong h hk with ⟨hstate, h'⟩ | ⟨hstate, -, -⟩
  · rw [compareExchangeStrong, if_neg hstate] at hstep
    exact (canReturn_exchangeAgain h' (goto_pc_self _ _ _)).step rfl hstep
  · rw [compareExchangeStrong, if_pos hstate] at hstep
    exact ⟨[(_, _)], ⟨hstep, trivial⟩, by simp [LockOp.coroutine], goto_pc_self _ _ _⟩

/-- `unlock` returns from the first exchange. -/
theorem canReturn_exchange [DecidableEq σ] (h : Rep m w holder) (hk : m.pc k = .exchange) :
    CanReturn k m := by
  obtain ⟨w', h'⟩ := rep_exchange h hk
  have hstep : lockStep m (.exchange k) (m.exchange k) := ⟨if_pos hk, trivial⟩
  refine CanReturn.step ?_ rfl hstep
  by_cases hstate : m.state = lockedNoWaiters
  · refine canReturn_compareExchangeStrong h' ?_
    rw [exchange]
    simp only [hstate, if_true]
    exact goto_pc_self _ _ _
  · refine canReturn_reverse (toAwaiter m.state) none h' ?_
    rw [exchange]
    simp only [hstate, if_false]
    exact goto_pc_self _ _ _

/-- The holder can call `unlock`, and the call can return whatever the others have done. -/
theorem canReturn [DecidableEq σ] (h : Rep m w holder) (hk : (m.pc k).Holds)
    (hselected : m.pc k ≠ .selected) : CanReturn k m := by
  cases hpc : m.pc k with
  | holding =>
    have h' := rep_unlock h hpc
    have hstep : lockStep m (.unlock k) (m.unlock k) := ⟨if_pos hpc, trivial⟩
    unfold unlock at h' hstep
    split_ifs at h' hstep
    · exact (canReturn_exchange h' (goto_pc_self _ _ _)).step rfl hstep
    · exact (canReturn_select h' (goto_pc_self _ _ _)).step rfl hstep
  | exchange => exact canReturn_exchange h hpc
  | compareExchangeStrong => exact canReturn_compareExchangeStrong h hpc
  | exchangeAgain => exact canReturn_exchangeAgain h hpc
  | reverse current prev => exact canReturn_reverse current prev h hpc
  | select => exact canReturn_select h hpc
  | selected => exact (hselected hpc).elim
  | idle | compareExchange | suspended =>
    rw [hpc] at hk
    exact hk.elim

end CoMutex

open CoMutex

/-- Safety and fairness of the mutex, in every state that a run of the coroutines reaches. At most
one coroutine holds the lock, and it is the one that was granted the lock last. The grants are in
the order of the successful compare-and-exchange operations: those granted come first, and then
those waiting, each of them once. Where the mutex is free nobody waits, neither in the stack of
`state_` nor in `waiters_head_`. A call of `unlock` that returns has freed the mutex if nobody
waits, and has given the lock to the waiter that came first otherwise; it can always return. -/
theorem lock_safe_and_fair {κ σ : Type*} [DecidableEq κ] [DecidableEq σ]
    (mem : ℕ → Awaiter κ σ) (address : κ → ℕ) (l : List (LockOp κ σ × CoMutex κ σ))
    (hl : Path lockStep (new mem address) l) :
    let m := last (new mem address) l
    (∀ k k', (m.pc k).Holds → (m.pc k').Holds → k = k') ∧
    (∀ k, (m.pc k).Holds → m.granted.getLast? = some k) ∧
    (m.state = unlocked → m.top = none ∧ m.waitersHead = none) ∧
    (∀ k, (m.pc k).Holds → m.pc k ≠ .selected → CanReturn k m) ∧
    ∃ waiting : List κ, m.acquisitions = m.granted ++ waiting ∧ waiting.Nodup ∧
      (∀ k, k ∈ waiting ↔ m.pc k = .suspended) ∧ (m.state = unlocked → waiting = []) ∧
      ∀ op m' k, lockStep m op m' → (m.pc k).Holds → m'.pc k = .idle →
        (waiting = [] ∧ m'.state = unlocked ∧ m'.granted = m.granted) ∨
          ∃ first rest, waiting = first :: rest ∧ m'.pc first = .selected ∧
            m'.granted = m.granted ++ [first] := by
  -- The lists of the waiters in the last state, and its holder.
  obtain ⟨w, holder, h⟩ := run_rep hl
  have hfree : (last (new mem address) l).state = unlocked → w.queue = [] :=
    fun hstate => h.free (h.state_iff.mp hstate)
  refine ⟨?_, fun k hk => h.granted k (h.holder_eq hk), ?_, fun k hk => canReturn h hk,
    w.queue, h.order, h.nodup, h.mem_iff, hfree,
    fun op m' k hstep hk hk' => unlock_returns_step h hstep hk hk'⟩
  · intro k k' hk hk'
    exact Option.some.inj ((h.holder_eq hk).symm.trans (h.holder_eq hk'))
  · -- Without a holder all the lists are empty.
    intro hstate
    have hlists : w.fifo = [] ∧ w.rest = [] ∧ w.turned = [] ∧ w.stack = [] := by
      simpa [Waiting.queue] using hfree hstate
    have hstack := h.stack.head
    have hfifo := h.fifo.head
    rw [hlists.2.2.2] at hstack
    rw [hlists.1] at hfifo
    exact ⟨hstack, hfifo⟩

/-- Two coroutines lock the mutex, and the first unlocks it. -/
theorem lock_safe_and_fair_two :
    ∃ l : List (LockOp ℕ ℕ × CoMutex ℕ ℕ), Path lockStep (new (fun _ => {}) id) l ∧
      l.map Prod.fst = [.load 0 8 none, .compareExchangeWeak 0 false, .load 1 16 none,
        .compareExchangeWeak 1 false, .unlock 0, .exchange 0, .reverse 0, .reverse 0,
        .select 0 none] ∧
      (last (new (fun _ => {}) id) l).granted = [0, 1] ∧
      ∀ k k', ((last (new (fun _ => {}) id) l).pc k).Holds →
        ((last (new (fun _ => {}) id) l).pc k').Holds → k = k' := by
  -- One coroutine takes the lock, the other one waits for it, and the first one unlocks.
  set m₀ : CoMutex ℕ ℕ := new (fun _ => {}) id
  set m₁ := m₀.load 0 8 none
  set m₂ := m₁.compareExchangeWeak 0 unlocked false
  set m₃ := m₂.load 1 16 none
  set m₄ := m₃.compareExchangeWeak 1 lockedNoWaiters false
  set m₅ := m₄.unlock 0
  set m₆ := m₅.exchange 0
  set m₇ := m₆.reverse 0 (some 16) none
  set m₈ := m₇.reverse 0 none (some 16)
  have hl : Path lockStep m₀ [(.load 0 8 none, m₁), (.compareExchangeWeak 0 false, m₂),
      (.load 1 16 none, m₃), (.compareExchangeWeak 1 false, m₄), (.unlock 0, m₅),
      (.exchange 0, m₆), (.reverse 0, m₇), (.reverse 0, m₈),
      (.select 0 none, m₈.select 0 none)] := by
    refine ⟨⟨rfl, by decide, by decide, ?_⟩, ⟨rfl, trivial⟩, ⟨rfl, by decide, by decide, ?_⟩,
      ⟨rfl, trivial⟩, ⟨rfl, trivial⟩, ⟨rfl, trivial⟩, ⟨rfl, trivial⟩, ⟨rfl, trivial⟩,
      ⟨rfl, trivial⟩, trivial⟩
    · exact fun k hk => hk.elim
    · -- The awaiter of the first coroutine is gone, so that any other address is free.
      intro k hk
      rcases eq_or_ne k 0 with rfl | hne
      · exact hk.elim
      · have hidle : m₂.pc k = m₀.pc k :=
          (goto_pc_of_ne m₁ .holding hne).trans (goto_pc_of_ne _ _ hne)
        rw [hidle] at hk
        exact hk.elim
  exact ⟨_, hl, rfl, rfl, (lock_safe_and_fair _ _ _ hl).1⟩

end Novaio
