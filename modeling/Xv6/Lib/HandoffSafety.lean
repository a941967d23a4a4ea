import Xv6.Lib.Handoff

/-!
# Safety of the hand-over protocol

Spinlocks exclude each other, so that what a thread has found out about an object
stays true while it holds the spinlock.  A key in a queue is the key of a waiter
whose wake-up is still to come; so is a key that has been taken from a queue and
not been used.  A mutex that is taken belongs to exactly one thread, which has it
or has been picked to get it.
-/

namespace Handoff

open Function

variable {Thread Key Mutex Cond : Type} {s' : State Thread Key Mutex Cond}

/-- What a view says about a queue, it says while holding its spinlock. -/
structure View.Consistent (view : View Key Mutex Cond) : Prop where
  listed : ∀ {o}, view.waits = some (o, .listed) → view.inside = some o
  carries : ∀ {o key}, view.carries = some (o, key) → view.inside = some o
  knows : ∀ {fact}, view.knows = some fact → view.inside = some fact.obj

namespace State

/-- The wake-up of a waiter is still to come. -/
def Pending (s : State Thread Key Mutex Cond) (o : Obj Mutex Cond) (self : Thread) : Prop :=
  s.key self ∈ s.queue o ∨ ∃ other, (s.view other).carries = some (o, s.key self)

/-- A waiter whose key has been taken from the queue. -/
def Dequeued (s : State Thread Key Mutex Cond) (o : Obj Mutex Cond) (self : Thread) : Prop :=
  (∃ stage, (s.view self).waits = some (o, stage)) ∧ s.key self ∉ s.queue o

end State

/-- The two ways to be in charge of a mutex: to have it, or to be woken up to get
it. -/
inductive Claim (Thread : Type) where
  | owner (thread : Thread)
  | heir (thread : Thread)

def State.Claims (s : State Thread Key Mutex Cond) (m : Mutex) : Claim Thread → Prop
  | .owner self => (s.view self).owns m = true
  | .heir self => s.Dequeued (.mutex m) self

/-- The spinlocks. -/
structure Guarded (s : State Thread Key Mutex Cond) : Prop where
  consistent : ∀ thread, (s.view thread).Consistent
  locked : ∀ {thread o}, (s.view thread).inside = some o → s.locked o = true
  exclusive : ∀ {thread other o}, (s.view thread).inside = some o →
    (s.view other).inside = some o → thread = other
  known : ∀ {thread fact}, (s.view thread).knows = some fact → s.Holds fact

/-- The queues and the park flags. -/
structure Queued (s : State Thread Key Mutex Cond) : Prop where
  keys : ∀ {thread other}, s.member thread = true → s.member other = true →
    s.key thread = s.key other → thread = other
  outsiders : ∀ {thread}, s.member thread = false → (s.view thread).Idle
  nodup : ∀ o, (s.queue o).Nodup
  waiter : ∀ {o key}, key ∈ s.queue o →
    ∃ thread stage, s.key thread = key ∧ (s.view thread).waits = some (o, stage)
  carried : ∀ {thread o key}, (s.view thread).carries = some (o, key) → key ∉ s.queue o ∧
    ∃ waiter stage, s.key waiter = key ∧ (s.view waiter).waits = some (o, stage) ∧
      stage ≠ .listed
  listed : ∀ {thread o}, (s.view thread).waits = some (o, .listed) →
    s.key thread ∈ s.queue o
  quiet : ∀ {thread}, s.member thread = true → (s.view thread).waits = none →
    s.flags thread = {}
  waiting : ∀ {thread o stage}, (s.view thread).waits = some (o, stage) →
    ∃ pending : Bool, (pending = true ↔ s.Pending o thread) ∧
      s.flags thread = stage.flags pending

/-- A mutex. -/
structure Token (s : State Thread Key Mutex Cond) (m : Mutex) : Prop where
  queue : s.flag m = false → s.queue (.mutex m) = []
  free : s.flag m = false → ∀ claim, ¬s.Claims m claim
  taken : s.flag m = true → ∃ claim, ∀ other, s.Claims m other ↔ other = claim

structure Inv (s : State Thread Key Mutex Cond) : Prop where
  guarded : Guarded s
  queued : Queued s
  token : ∀ m, Token s m

/-! ## Consequences -/

section Consequences

variable {s : State Thread Key Mutex Cond} {self thread other : Thread}
  {o : Obj Mutex Cond} {stage : Stage} {m : Mutex} {claim : Claim Thread}

section
variable (queued : Queued s)
include queued

theorem Queued.member_of_waits
    (waits : (s.view thread).waits = some (o, stage)) : s.member thread = true := by
  by_contra outsider
  have idle := queued.outsiders (by simpa using outsider)
  simp [idle.waits] at waits

section
variable (member : s.member self = true)
include member

/-- A key belongs to at most one waiter. -/
theorem Queued.waiter_unique
    (waits : (s.view thread).waits = some (o, stage)) (same : s.key thread = s.key self) :
    thread = self :=
  queued.keys (queued.member_of_waits waits) member same

/-- A thread that does not wait has its key in no queue. -/
theorem Queued.unlisted
    (waits : (s.view self).waits = none) (o : Obj Mutex Cond) : s.key self ∉ s.queue o := by
  intro listed
  obtain ⟨waiter, stage, same, waiting⟩ := queued.waiter listed
  obtain rfl := queued.waiter_unique member waiting same
  simp [waits] at waiting

/-- A key that is carried is that of a thread that waits for the same object and
has announced that it parks. -/
theorem Queued.carried_waiter (carries : (s.view other).carries = some (o, s.key self)) :
    ∃ stage, (s.view self).waits = some (o, stage) ∧ stage ≠ .listed := by
  obtain ⟨-, waiter, stage, same, waiting, announced⟩ := queued.carried carries
  obtain rfl := queued.waiter_unique member waiting same
  exact ⟨stage, waiting, announced⟩

end

/-- A waiter that runs after `park` has been woken up. -/
theorem Queued.resumed (waits : (s.view self).waits = some (o, .parked))
    (enabled : s.Enabled self .resume) : ¬s.Pending o self := by
  intro isPending
  obtain ⟨pending, iff, flags⟩ := queued.waiting waits
  have runs : (s.flags self).isParked = false := enabled
  rw [flags, iff.mpr isPending] at runs
  cases runs

end

theorem holds_congr {fact : Fact Mutex Cond} (queue : s'.queue fact.obj = s.queue fact.obj)
    (flag : ∀ m, fact.obj = .mutex m → s'.flag m = s.flag m) : s'.Holds fact ↔ s.Holds fact := by
  cases fact with
  | free m | taken m => simp only [State.Holds, flag m rfl]
  | empty o | nonempty o => simp only [Fact.obj] at queue; simp only [State.Holds, queue]

section
variable (token : Token s m)
include token

/-- A mutex for which nothing changes. -/
theorem Token.congr
    (flag : s'.flag m = s.flag m) (queue : s.flag m = false → s'.queue (.mutex m) = [])
    (claims : ∀ claim, s'.Claims m claim ↔ s.Claims m claim) : Token s' m where
  queue free := queue (flag ▸ free)
  free free claim := mt (claims claim).mp (token.free (flag ▸ free) claim)
  taken taken := by
    obtain ⟨claim, iff⟩ := token.taken (flag ▸ taken)
    exact ⟨claim, fun other => (claims other).trans (iff other)⟩

theorem Token.flag_of_claims (claims : s.Claims m claim) : s.flag m = true := by
  by_contra free
  exact token.free (by simpa using free) claim claims

/-- One thread is in charge of a mutex, in one way. -/
theorem Token.unique {other : Claim Thread}
    (claims : s.Claims m claim) (otherClaims : s.Claims m other) : claim = other := by
  obtain ⟨only, iff⟩ := token.taken (token.flag_of_claims claims)
  exact ((iff claim).mp claims).trans ((iff other).mp otherClaims).symm

theorem Token.heir_unique (heir : s.Dequeued (.mutex m) thread)
    (otherHeir : s.Dequeued (.mutex m) other) : thread = other := by
  have claims : s.Claims m (.heir thread) := heir
  exact Claim.heir.inj (token.unique claims otherHeir)

theorem Token.owner_unique (owns : (s.view thread).owns m = true)
    (otherOwns : (s.view other).owns m = true) : thread = other := by
  have claims : s.Claims m (.owner thread) := owns
  exact Claim.owner.inj (token.unique claims otherOwns)

/-- A mutex that has an owner is not on its way to a waiter. -/
theorem Token.no_heir (owns : (s.view thread).owns m = true) : ¬s.Dequeued (.mutex m) other := by
  intro heir
  have claims : s.Claims m (.owner thread) := owns
  have heirClaims : s.Claims m (.heir other) := heir
  cases token.unique claims heirClaims

end

/-- A mutex that gets one new claim, which replaces the one that there may be. -/
theorem Token.moves (old claim : Claim Thread)
    (flag : s'.flag m = true) (claims : s'.Claims m claim)
    (before : ∀ other, s.Claims m other → other = old)
    (origin : ∀ other, s'.Claims m other → other = claim ∨ s.Claims m other ∧ other ≠ old) :
    Token s' m where
  queue free := by simp [flag] at free
  free free := by simp [flag] at free
  taken _ := by
    refine ⟨claim, fun other => ⟨fun otherClaims => ?_, fun same => same ▸ claims⟩⟩
    rcases origin other otherClaims with new | ⟨kept, different⟩
    · exact new
    · exact absurd (before other kept) different

end Consequences

section See

variable [DecidableEq Thread] {s : State Thread Key Mutex Cond} {self : Thread}
  {view : View Key Mutex Cond}

@[simp] theorem see_self (s : State Thread Key Mutex Cond) (self : Thread)
    (view : View Key Mutex Cond) : (s.see self view).view self = view := by
  simp [State.see]

theorem see_of_ne {other : Thread} (different : other ≠ self) :
    (s.see self view).view other = s.view other := by
  simp [State.see, update_of_ne different]

@[simp] theorem see_key (s : State Thread Key Mutex Cond) (self : Thread)
    (view : View Key Mutex Cond) : (s.see self view).key = s.key := rfl

@[simp] theorem see_member (s : State Thread Key Mutex Cond) (self : Thread)
    (view : View Key Mutex Cond) : (s.see self view).member = s.member := rfl

@[simp] theorem see_flags (s : State Thread Key Mutex Cond) (self : Thread)
    (view : View Key Mutex Cond) : (s.see self view).flags = s.flags := rfl

@[simp] theorem see_locked (s : State Thread Key Mutex Cond) (self : Thread)
    (view : View Key Mutex Cond) : (s.see self view).locked = s.locked := rfl

@[simp] theorem see_queue (s : State Thread Key Mutex Cond) (self : Thread)
    (view : View Key Mutex Cond) : (s.see self view).queue = s.queue := rfl

@[simp] theorem see_flag (s : State Thread Key Mutex Cond) (self : Thread)
    (view : View Key Mutex Cond) : (s.see self view).flag = s.flag := rfl

end See

variable [DecidableEq Thread] [DecidableEq Key] [DecidableEq Mutex] [DecidableEq Cond]

section Act

variable (s : State Thread Key Mutex Cond) (self : Thread) (event : Event Key Mutex Cond)

@[simp] theorem act_view : (s.act self event).view = s.view := by
  cases event <;> rfl

@[simp] theorem act_key : (s.act self event).key = s.key := by
  cases event <;> rfl

@[simp] theorem act_member : (s.act self event).member = s.member := by
  cases event <;> rfl

end Act

variable {s : State Thread Key Mutex Cond} {self : Thread} {event : Event Key Mutex Cond}
  {view view' : View Key Mutex Cond} {o' : Obj Mutex Cond} {key : Key}

/-! ## Spinlocks -/

omit [DecidableEq Key] [DecidableEq Cond] in
theorem Effect.consistent (effect : Effect event view view') (consistent : view.Consistent) :
    view'.Consistent := by
  obtain ⟨listed, carries, knows⟩ := consistent
  cases effect <;> constructor <;> grind [Fact.obj]

/-- The spinlock a thread holds changes with the spinlock. -/
theorem Effect.inside (effect : Effect event (s.view self) view') :
    (∃ o, event = .acquire o ∧ view'.inside = some o) ∨
    (∃ o, event = .release o ∧ (s.view self).inside = some o ∧ view'.inside = none) ∨
    ((s.act self event).locked = s.locked ∧ view'.inside = (s.view self).inside) := by
  cases effect with
  | acquire => exact .inl ⟨_, rfl, rfl⟩
  | release inside => exact .inr (.inl ⟨_, rfl, inside, rfl⟩)
  | _ => exact .inr (.inr ⟨rfl, rfl⟩)

/-- What a spinlock protects is changed by its holder only. -/
theorem Effect.frame {o : Obj Mutex Cond} (effect : Effect event (s.view self) view')
    (outside : (s.view self).inside ≠ some o) :
    (s.act self event).queue o = s.queue o ∧
      ∀ m, o = .mutex m → (s.act self event).flag m = s.flag m := by
  cases effect with
  | take inside | clear inside =>
    refine ⟨rfl, ?_⟩
    rintro m rfl
    exact update_of_ne (by rintro rfl; exact outside inside) _ _
  | enqueue inside | handOver inside | signal inside =>
    exact ⟨update_of_ne (by rintro rfl; exact outside inside) _ _, fun _ _ => rfl⟩
  | _ => exact ⟨rfl, fun _ _ => rfl⟩

theorem Guarded.exec (guarded : Guarded s) (enabled : s.Enabled self event)
    (effect : Effect event (s.view self) view') : Guarded ((s.act self event).see self view') where
  consistent := by
    intro other
    by_cases same : other = self
    · subst same
      simpa using effect.consistent (guarded.consistent other)
    · simpa [see_of_ne same] using guarded.consistent other
  locked := by
    intro other o inside
    by_cases same : other = self
    · subst same
      rw [see_self] at inside
      rcases effect.inside with ⟨o', rfl, now⟩ | ⟨o', -, -, now⟩ | ⟨locked, now⟩
      · obtain rfl : o' = o := by simpa [now] using inside
        simp [State.act]
      · simp [now] at inside
      · rw [see_locked, locked]
        exact guarded.locked (now ▸ inside)
    · simp only [see_of_ne same, act_view] at inside
      rcases effect.inside with ⟨o', rfl, -⟩ | ⟨o', rfl, holds, -⟩ | ⟨locked, -⟩
      · by_cases here : o = o'
        · simp [State.act, here]
        · simpa [State.act, update_of_ne here] using guarded.locked inside
      · have here : o ≠ o' := by
          rintro rfl
          exact same (guarded.exclusive inside holds)
        simpa [State.act, update_of_ne here] using guarded.locked inside
      · rw [see_locked, locked]
        exact guarded.locked inside
  exclusive := by
    have key : ∀ {other o}, other ≠ self → (s.view other).inside = some o →
        view'.inside ≠ some o := by
      intro other o different inside now
      rcases effect.inside with ⟨o', rfl, now'⟩ | ⟨o', -, -, now'⟩ | ⟨-, now'⟩
      · obtain rfl : o' = o := by simpa [now'] using now
        have free : s.locked o' = false := enabled
        simp [guarded.locked inside] at free
      · simp [now'] at now
      · exact different (guarded.exclusive inside (now' ▸ now))
    intro first second o firstInside secondInside
    by_cases isFirst : first = self
    · by_cases isSecond : second = self
      · rw [isFirst, isSecond]
      · subst isFirst
        simp only [see_self, see_of_ne isSecond, act_view] at firstInside secondInside
        exact absurd firstInside (key isSecond secondInside)
    · simp only [see_of_ne isFirst, act_view] at firstInside
      by_cases isSecond : second = self
      · subst isSecond
        rw [see_self] at secondInside
        exact absurd secondInside (key isFirst firstInside)
      · simp only [see_of_ne isSecond, act_view] at secondInside
        exact guarded.exclusive firstInside secondInside
  known := by
    intro other fact knows
    by_cases same : other = self
    · subst same
      rw [see_self] at knows
      cases effect with
      | look inside outcome =>
        rcases outcome with rfl | rfl
        · cases knows
        · cases knows
          exact enabled
      | take | clear | enqueue | handOver | signal => cases knows
      | _ => exact guarded.known knows
    · simp only [see_of_ne same, act_view] at knows
      have inside := (guarded.consistent other).knows knows
      have frame := effect.frame fun holds => same (guarded.exclusive inside holds)
      exact (holds_congr frame.1 frame.2).mpr (guarded.known knows)

/-! ## Queues and park flags -/

section Queued

variable {thread : Thread} {o : Obj Mutex Cond} {stage : Stage}

/-- A waiter goes on waiting for the same object until it is woken up. -/
theorem Queued.waits_kept (queued : Queued s) (enabled : s.Enabled self event)
    (effect : Effect event (s.view self) view')
    (waits : (s.view thread).waits = some (o, stage)) (pending : s.Pending o thread) :
    ∃ stage', (((s.act self event).see self view').view thread).waits = some (o, stage') ∧
      (stage ≠ .listed → stage' ≠ .listed) := by
  by_cases same : thread = self
  · subst same
    rw [see_self]
    cases effect with
    | enqueue _ none => simp [none] at waits
    | setpark _ listed =>
      obtain ⟨rfl, rfl⟩ : _ = o ∧ _ = stage := by simpa [listed] using waits
      exact ⟨.armed, rfl, by simp⟩
    | park armed =>
      obtain ⟨rfl, rfl⟩ : _ = o ∧ _ = stage := by simpa [armed] using waits
      exact ⟨.parked, rfl, by simp⟩
    | inherit parked | wake parked =>
      obtain ⟨rfl, rfl⟩ : _ = o ∧ _ = stage := by simpa [parked] using waits
      exact absurd pending (queued.resumed parked enabled)
    | _ => exact ⟨stage, waits, id⟩
  · rw [see_of_ne same, act_view]
    exact ⟨stage, waits, id⟩

section
omit [DecidableEq Key] [DecidableEq Cond]

theorem Effect.dequeues (effect : Effect (.dequeue o key) view view') :
    view.inside = some o ∧ view.knows = some (.nonempty o) ∧ view.carries = none ∧
      view'.carries = some (o, key) ∧ ∀ stage, view.waits ≠ some (o, stage) := by
  cases effect with
  | handOver inside knows owns carries waits => exact ⟨inside, knows, carries, rfl, waits⟩
  | signal inside knows carries waits => exact ⟨inside, knows, carries, rfl, waits⟩

theorem Effect.handsOver {m : Mutex} (effect : Effect (.dequeue (.mutex m) key) view view') :
    view.owns m = true ∧ view'.owns m = false := by
  cases effect with
  | handOver inside knows owns => exact ⟨owns, by simp⟩

theorem Effect.enqueues (effect : Effect (.enqueue o) view view') : view.inside = some o := by
  cases effect with
  | enqueue inside => exact inside

/-- A thread waits for the object in whose queue it has entered its key. -/
theorem Effect.waits_from (effect : Effect event view view')
    (waits : view'.waits = some (o, stage)) :
    event = .enqueue o ∨ ∃ stage, view.waits = some (o, stage) := by
  cases effect with
  | enqueue =>
    cases waits
    exact .inl rfl
  | setpark _ listed =>
    cases waits
    exact .inr ⟨_, listed⟩
  | park armed =>
    cases waits
    exact .inr ⟨_, armed⟩
  | inherit | wake => cases waits
  | _ => exact .inr ⟨_, waits⟩

theorem Effect.unparks (effect : Effect (.unpark key) view view') :
    ∃ o, view.carries = some (o, key) := by
  cases effect with
  | unpark _ carries => exact ⟨_, carries⟩

end

/-- A key that is taken from a queue is still to be used. -/
theorem pending_dequeue (enabled : s.Enabled self (.dequeue o' key))
    (effect : Effect (.dequeue o' key) (s.view self) view') :
    ((s.act self (.dequeue o' key)).see self view').Pending o thread ↔
      s.Pending o thread := by
  obtain ⟨rest, queue⟩ := enabled
  obtain ⟨-, -, uncarried, carries, -⟩ := effect.dequeues
  constructor
  · rintro (listed | ⟨other, carried⟩)
    · refine .inl ?_
      by_cases here : o = o'
      · subst here
        rw [queue]
        exact List.mem_cons_of_mem _ (by simpa [State.act, queue] using listed)
      · simpa [State.act, update_of_ne here] using listed
    · by_cases same : other = self
      · subst same
        obtain ⟨rfl, rfl⟩ : o' = o ∧ key = s.key thread := by simpa [carries] using carried
        refine .inl ?_
        rw [queue]
        exact .head _
      · exact .inr ⟨other, by simpa [see_of_ne same] using carried⟩
  · rintro (listed | ⟨other, carried⟩)
    · by_cases here : o = o'
      · subst here
        rw [queue] at listed
        rcases List.mem_cons.mp listed with first | later
        · exact .inr ⟨self, by simp [carries, first]⟩
        · exact .inl (by simpa [State.act, queue] using later)
      · exact .inl (by simpa [State.act, update_of_ne here] using listed)
    · have same : other ≠ self := by
        rintro rfl
        simp [uncarried] at carried
      exact .inr ⟨other, by simpa [see_of_ne same] using carried⟩

section
variable (queued : Queued s)
include queued

/-- What is pending changes for the thread that is woken up only. -/
theorem Queued.pending_kept (member : s.member self = true)
    (enabled : s.Enabled self event) (effect : Effect event (s.view self) view')
    (waits : (s.view thread).waits = some (o, stage)) (notWoken : event ≠ .unpark (s.key thread)) :
    ((s.act self event).see self view').Pending o thread ↔ s.Pending o thread := by
  have unchanged : view'.carries = (s.view self).carries → ∀ other,
      (((s.act self event).see self view').view other).carries = (s.view other).carries := by
    intro same other
    by_cases isSelf : other = self
    · rw [isSelf, see_self, same]
    · rw [see_of_ne isSelf, act_view]
  cases effect with
  | @enqueue _ o' inside idle =>
    have different : s.key thread ≠ s.key self := by
      intro same
      obtain rfl := queued.waiter_unique member waits same
      simp [idle] at waits
    simp only [State.Pending, unchanged rfl, see_key, act_key, see_queue]
    by_cases here : o = o'
    · subst here
      simp [State.act, different]
    · simp [State.act, update_of_ne here]
  | handOver inside knows owns uncarried notWaiting =>
    exact pending_dequeue enabled (.handOver inside knows owns uncarried notWaiting)
  | signal inside knows uncarried notWaiting =>
    exact pending_dequeue enabled (.signal inside knows uncarried notWaiting)
  | @unpark _ o' key inside carries =>
    have different : s.key thread ≠ key := fun same => notWoken (same ▸ rfl)
    refine or_congr .rfl (exists_congr fun other => ?_)
    by_cases isSelf : other = self
    · subst isSelf
      simp [carries, different.symm]
    · simp [see_of_ne isSelf]
  | _ => simp only [State.Pending, unchanged rfl]; rfl

/-- The thread that is woken up has nothing pending any more. -/
theorem Queued.not_pending (guarded : Guarded s)
    (carries : (s.view self).carries = some (o, key)) (isKey : s.key thread = key)
    (dropped : view'.carries = none) :
    ¬((s.act self (.unpark key)).see self view').Pending o thread := by
  rintro (listed | ⟨other, carried⟩)
  · exact (queued.carried carries).1 (isKey ▸ listed)
  · by_cases isSelf : other = self
    · subst isSelf
      simp [dropped] at carried
    · simp only [see_of_ne isSelf, act_view] at carried
      have inside := (guarded.consistent other).carries carried
      exact isSelf (guarded.exclusive inside ((guarded.consistent self).carries carries))

private theorem nodup_exec (member : s.member self = true)
    (effect : Effect event (s.view self) view') (o : Obj Mutex Cond) :
    ((s.act self event).queue o).Nodup := by
  have tail : ∀ o', ((update s.queue o' (s.queue o').tail) o).Nodup := by
    intro o'
    by_cases here : o = o'
    · subst here
      simpa using (queued.nodup o).tail
    · simpa [update_of_ne here] using queued.nodup o
  cases effect with
  | @enqueue _ o' _ idle =>
    by_cases here : o = o'
    · subst here
      have fresh := queued.unlisted member idle o
      simp only [State.act, update_self]
      exact (queued.nodup o).append (List.nodup_singleton _)
        (List.disjoint_singleton.mpr fresh)
    · simpa [State.act, update_of_ne here] using queued.nodup o
  | handOver | signal => exact tail _
  | _ => exact queued.nodup o

private theorem waiter_exec (enabled : s.Enabled self event)
    (effect : Effect event (s.view self) view') (listed : key ∈ (s.act self event).queue o) :
    ∃ thread stage, s.key thread = key ∧
      (((s.act self event).see self view').view thread).waits = some (o, stage) := by
  have old : key ∈ s.queue o → ∃ thread stage, s.key thread = key ∧
      (((s.act self event).see self view').view thread).waits = some (o, stage) := by
    intro listed
    obtain ⟨thread, stage, rfl, waits⟩ := queued.waiter listed
    obtain ⟨stage', waits', -⟩ := queued.waits_kept enabled effect waits (.inl listed)
    exact ⟨thread, stage', rfl, waits'⟩
  have tail : ∀ o', key ∈ (update s.queue o' (s.queue o').tail) o →
      key ∈ s.queue o := by
    intro o' listed
    by_cases here : o = o'
    · subst here
      exact List.mem_of_mem_tail (by simpa using listed)
    · simpa [update_of_ne here] using listed
  cases effect with
  | @enqueue _ o' =>
    by_cases here : o = o'
    · subst here
      simp only [State.act, update_self, List.mem_append,
        List.mem_singleton] at listed
      rcases listed with before | rfl
      · exact old before
      · exact ⟨self, .listed, rfl, by simp⟩
    · exact old (by simpa [State.act, update_of_ne here] using listed)
  | handOver | signal => exact old (tail _ listed)
  | _ => exact old listed

private theorem carried_exec (guarded : Guarded s)
    (enabled : s.Enabled self event) (effect : Effect event (s.view self) view')
    (carries : (((s.act self event).see self view').view thread).carries = some (o, key)) :
    key ∉ (s.act self event).queue o ∧
      ∃ waiter stage, s.key waiter = key ∧
        (((s.act self event).see self view').view waiter).waits = some (o, stage) ∧
        stage ≠ .listed := by
  -- a key that was carried before, while its queue stays as it is
  have old : (s.view thread).carries = some (o, key) →
      (s.act self event).queue o = s.queue o → key ∉ (s.act self event).queue o ∧
      ∃ waiter stage, s.key waiter = key ∧
        (((s.act self event).see self view').view waiter).waits = some (o, stage) ∧
        stage ≠ .listed := by
    intro carries queue
    obtain ⟨unlisted, waiter, stage, rfl, waits, announced⟩ := queued.carried carries
    obtain ⟨stage', waits', announced'⟩ :=
      queued.waits_kept enabled effect waits (.inr ⟨thread, carries⟩)
    exact ⟨queue ▸ unlisted, waiter, stage', rfl, waits', announced' announced⟩
  by_cases isSelf : thread = self
  · subst isSelf
    rw [see_self] at carries
    cases event with
    | dequeue o' key' =>
      obtain ⟨inside, -, -, carries', notWaiting⟩ := effect.dequeues
      obtain ⟨rfl, rfl⟩ : o' = o ∧ key' = key := by simpa [carries'] using carries
      obtain ⟨rest, queue⟩ := enabled
      have nodup := queued.nodup o'
      rw [queue, List.nodup_cons] at nodup
      refine ⟨by simpa [State.act, queue] using nodup.1, ?_⟩
      obtain ⟨waiter, stage, rfl, waits⟩ := queued.waiter (queue ▸ List.mem_cons_self)
      have different : waiter ≠ thread := by
        rintro rfl
        exact notWaiting stage waits
      refine ⟨waiter, stage, rfl, by simpa [see_of_ne different] using waits, ?_⟩
      rintro rfl
      exact different (guarded.exclusive ((guarded.consistent waiter).listed waits) inside)
    | enqueue o' =>
      cases effect with
      | enqueue _ _ uncarried => simp [uncarried] at carries
    | _ => cases effect <;> first | exact old carries rfl | cases carries
  · simp only [see_of_ne isSelf, act_view] at carries
    have inside := (guarded.consistent thread).carries carries
    exact old carries (effect.frame fun holds => isSelf (guarded.exclusive inside holds)).1

private theorem listed_exec (guarded : Guarded s) (effect : Effect event (s.view self) view')
    (waits : (((s.act self event).see self view').view thread).waits = some (o, .listed)) :
    s.key thread ∈ (s.act self event).queue o := by
  by_cases isSelf : thread = self
  · subst isSelf
    rw [see_self] at waits
    cases effect with
    | enqueue =>
      cases waits
      simp [State.act]
    | handOver inside _ _ _ notWaiting | signal inside _ _ notWaiting =>
      have inside' := (guarded.consistent thread).listed waits
      obtain rfl : _ = o := by simpa [inside] using inside'
      exact absurd waits (notWaiting _)
    | setpark | park | inherit | wake => cases waits
    | _ => exact queued.listed waits
  · simp only [see_of_ne isSelf, act_view] at waits
    have inside := (guarded.consistent thread).listed waits
    rw [(effect.frame fun holds => isSelf (guarded.exclusive inside holds)).1]
    exact queued.listed waits

end

/-- The flags of other threads are changed by `unpark` only. -/
private theorem act_flags (effect : Effect event (s.view self) view')
    (other : thread ≠ self ∨ (s.view self).waits = none)
    (notWoken : event ≠ .unpark (s.key thread)) :
    (s.act self event).flags thread = s.flags thread := by
  cases effect with
  | setpark _ waits | park waits =>
    rcases other with different | none
    · exact update_of_ne different _ _
    · simp [none] at waits
  | @unpark _ _ key =>
    refine if_neg fun woken => notWoken ?_
    rw [woken.2]
  | _ => rfl

private theorem quiet_exec (queued : Queued s) (enabled : s.Enabled self event)
    (effect : Effect event (s.view self) view') (member : s.member thread = true)
    (waits : (((s.act self event).see self view').view thread).waits = none) :
    (s.act self event).flags thread = {} := by
  -- a thread that did not wait before is not the one that is woken up
  have old : (s.view thread).waits = none → (s.act self event).flags thread = {} := by
    intro idle
    rw [act_flags effect, queued.quiet member idle]
    · by_cases isSelf : thread = self
      · exact .inr (isSelf ▸ idle)
      · exact .inl isSelf
    · rintro rfl
      cases effect with
      | unpark _ carries =>
        obtain ⟨stage, waiting, -⟩ := queued.carried_waiter member carries
        simp [idle] at waiting
  by_cases isSelf : thread = self
  · subst isSelf
    rw [see_self] at waits
    cases effect with
    | inherit parked | wake parked =>
      obtain ⟨pending, iff, flags⟩ := queued.waiting parked
      have done : pending = false := by
        simpa using mt iff.mp (queued.resumed parked enabled)
      subst done
      exact flags
    | enqueue | setpark | park => cases waits
    | _ => exact old waits
  · exact old (by simpa [see_of_ne isSelf] using waits)

private theorem waiting_exec (queued : Queued s) (guarded : Guarded s)
    (member : s.member self = true) (enabled : s.Enabled self event)
    (effect : Effect event (s.view self) view')
    (waits : (((s.act self event).see self view').view thread).waits = some (o, stage)) :
    ∃ pending : Bool,
      (pending = true ↔ ((s.act self event).see self view').Pending o thread) ∧
      (s.act self event).flags thread = stage.flags pending := by
  -- a waiter whose stage and flags stay as they are
  have old : (s.view thread).waits = some (o, stage) →
      event ≠ .unpark (s.key thread) →
      (s.act self event).flags thread = s.flags thread → ∃ pending : Bool,
      (pending = true ↔ ((s.act self event).see self view').Pending o thread) ∧
      (s.act self event).flags thread = stage.flags pending := by
    intro waits notWoken flags
    obtain ⟨pending, iff, flags'⟩ := queued.waiting waits
    exact ⟨pending, iff.trans (queued.pending_kept member enabled effect waits notWoken).symm,
      flags.trans flags'⟩
  by_cases woken : event = .unpark (s.key thread)
  · subst woken
    cases effect with
    | @unpark _ o' _ inside carries =>
      have waits' : (s.view thread).waits = some (o, stage) := by
        by_cases isSelf : thread = self
        · subst isSelf
          simpa using waits
        · simpa [see_of_ne isSelf] using waits
      have isMember := queued.member_of_waits waits'
      obtain ⟨stage', waiting, announced⟩ := queued.carried_waiter isMember carries
      obtain ⟨rfl, rfl⟩ : o = o' ∧ stage = stage' := by simpa [waits'] using waiting
      obtain ⟨pending, iff, flags⟩ := queued.waiting waits'
      have before : pending = true := iff.mpr (.inr ⟨self, carries⟩)
      refine ⟨false, ?_, ?_⟩
      · simpa using queued.not_pending guarded carries rfl rfl
      · rw [← unpark_pending announced, ← before, ← flags]
        exact if_pos ⟨isMember, rfl⟩
  · by_cases isSelf : thread = self
    · subst isSelf
      rw [see_self] at waits
      cases effect with
      | enqueue inside idle uncarried known =>
        cases waits
        refine ⟨true, iff_of_true rfl (.inl ?_), queued.quiet member idle⟩
        simp [State.act]
      | setpark inside listed =>
        cases waits
        obtain ⟨pending, iff, flags⟩ := queued.waiting listed
        refine ⟨true, ?_, ?_⟩
        · rw [queued.pending_kept member enabled (.setpark inside listed) listed woken]
          exact iff_of_true rfl (.inl (queued.listed listed))
        · simp [State.act, flags]
      | park armed =>
        cases waits
        obtain ⟨pending, iff, flags⟩ := queued.waiting armed
        refine ⟨pending, ?_, by simp [State.act, flags]⟩
        rw [queued.pending_kept member enabled (.park armed) armed woken]
        exact iff
      | inherit | wake => cases waits
      | unpark => exact old waits woken (if_neg fun same => woken (by rw [same.2]))
      | _ => exact old waits woken rfl
    · simp only [see_of_ne isSelf, act_view] at waits
      exact old waits woken (act_flags effect (.inl isSelf) woken)

theorem Queued.exec (queued : Queued s) (guarded : Guarded s)
    (member : s.member self = true) (enabled : s.Enabled self event)
    (effect : Effect event (s.view self) view') : Queued ((s.act self event).see self view') where
  keys := by
    intro thread other isMember otherMember same
    simp only [see_member, see_key, act_member, act_key] at isMember otherMember same
    exact queued.keys isMember otherMember same
  outsiders := by
    intro thread outsider
    rw [see_member, act_member] at outsider
    have different : thread ≠ self := by
      rintro rfl
      simp [member] at outsider
    rw [see_of_ne different, act_view]
    exact queued.outsiders outsider
  nodup := nodup_exec queued member effect
  waiter := by
    intro o key listed
    simpa using waiter_exec queued enabled effect listed
  carried := by
    intro thread o key carries
    simpa using carried_exec queued guarded enabled effect carries
  listed := by
    intro thread o waits
    simpa using listed_exec queued guarded effect waits
  quiet := by
    intro thread isMember waits
    exact quiet_exec queued enabled effect (by simpa using isMember) waits
  waiting := waiting_exec queued guarded member enabled effect

end Queued

section Dequeued

variable {thread : Thread} {o : Obj Mutex Cond}

/-- Nothing changes for threads that go on waiting with their keys where they are. -/
private theorem dequeued_congr
    (waits : (∃ stage, view'.waits = some (o, stage)) ↔
      ∃ stage, (s.view self).waits = some (o, stage))
    (queue : ∀ stage, (s.view thread).waits = some (o, stage) →
      (s.key thread ∈ (s.act self event).queue o ↔ s.key thread ∈ s.queue o)) :
    ((s.act self event).see self view').Dequeued o thread ↔ s.Dequeued o thread := by
  have waits' : (∃ stage, (((s.act self event).see self view').view thread).waits =
      some (o, stage)) ↔ ∃ stage, (s.view thread).waits = some (o, stage) := by
    by_cases isSelf : thread = self
    · subst isSelf
      rw [see_self, waits]
    · rw [see_of_ne isSelf, act_view]
  simp only [State.Dequeued, waits', see_key, act_key, see_queue]
  exact and_congr_right fun ⟨stage, waiting⟩ => not_congr (queue stage waiting)

private theorem dequeued_dequeue (queued : Queued s) (enabled : s.Enabled self (.dequeue o' key))
    (waits : view'.waits = (s.view self).waits) :
    ((s.act self (.dequeue o' key)).see self view').Dequeued o thread ↔
      s.Dequeued o thread ∨
        (o' = o ∧ key = s.key thread) ∧ ∃ stage, (s.view thread).waits = some (o, stage) := by
  obtain ⟨rest, queue⟩ := enabled
  by_cases taken : o' = o ∧ key = s.key thread
  · obtain ⟨rfl, rfl⟩ := taken
    have nodup := queued.nodup o'
    rw [queue, List.nodup_cons] at nodup
    have waits' : (∃ stage, (((s.act self (.dequeue o' (s.key thread))).see self
        view').view thread).waits = some (o', stage)) ↔
        ∃ stage, (s.view thread).waits = some (o', stage) := by
      by_cases isSelf : thread = self
      · subst isSelf
        rw [see_self, waits]
      · rw [see_of_ne isSelf, act_view]
    simp only [State.Dequeued, waits', see_key, act_key, see_queue]
    simp [State.act, queue, nodup.1]
  · rw [dequeued_congr (by rw [waits])]
    · simp [taken]
    · intro stage waiting
      by_cases here : o = o'
      · subst here
        have different : s.key thread ≠ key := fun same => taken ⟨rfl, same.symm⟩
        simp [State.act, queue, different]
      · simp [State.act, update_of_ne here]

/-- Who is waiting with its key taken from the queue: a thread from the moment
its key is taken until it is back from `park`. -/
theorem dequeued_exec (queued : Queued s) (member : s.member self = true)
    (enabled : s.Enabled self event) (effect : Effect event (s.view self) view') :
    ((s.act self event).see self view').Dequeued o thread ↔
      s.Dequeued o thread ∧ ¬(event = .resume ∧ thread = self) ∨
        event = .dequeue o (s.key thread) ∧
          ∃ stage, (s.view thread).waits = some (o, stage) := by
  cases effect with
  | handOver | signal =>
    refine Iff.trans (dequeued_dequeue queued enabled ?_) (by simp)
    rfl
  | inherit | wake =>
    by_cases isSelf : thread = self
    · subst isSelf
      simp [State.Dequeued]
    · simp [State.Dequeued, see_of_ne isSelf, isSelf, State.act]
  | @enqueue _ o' inside idle =>
    refine Iff.trans ?_ (by simp : s.Dequeued o thread ↔ _)
    by_cases isSelf : thread = self
    · subst isSelf
      have before : ¬s.Dequeued o thread := by simp [State.Dequeued, idle]
      refine iff_of_false ?_ before
      rintro ⟨⟨stage, waits⟩, unlisted⟩
      obtain ⟨rfl, -⟩ : o' = o ∧ _ := by simpa using waits
      exact unlisted (by simp [State.act])
    · have waiting : (((s.act self (.enqueue o')).see self
          { s.view self with knows := none, waits := some (o', .listed) }).view
          thread).waits = (s.view thread).waits := by rw [see_of_ne isSelf, act_view]
      simp only [State.Dequeued, waiting, see_key, act_key, see_queue]
      refine and_congr_right fun ⟨stage, waits⟩ => not_congr ?_
      have different : s.key thread ≠ s.key self :=
        fun same => isSelf (queued.waiter_unique member waits same)
      by_cases here : o = o'
      · subst here
        simp [State.act, different]
      · simp [State.act, update_of_ne here]
  | setpark _ waits | park waits =>
    refine Iff.trans (dequeued_congr (by simp [waits]) fun _ _ => ?_) (by simp)
    rfl
  | _ =>
    refine Iff.trans (dequeued_congr .rfl fun _ _ => ?_) (by simp)
    rfl

end Dequeued

/-! ## Mutexes -/

section Token

variable {m : Mutex} {thread : Thread}

theorem claims_owner (different : thread ≠ self) :
    ((s.act self event).see self view').Claims m (.owner thread) ↔
      s.Claims m (.owner thread) := by
  simp [State.Claims, see_of_ne different]

section
variable (queued : Queued s) (member : s.member self = true) (enabled : s.Enabled self event)
  (effect : Effect event (s.view self) view')
include queued member enabled effect

/-- Unless a key is taken from the queue of a mutex, nobody new is to get it. -/
theorem claims_heir (stays : ∀ key, event ≠ .dequeue (.mutex m) key)
    (claims : ((s.act self event).see self view').Claims m (.heir thread)) :
    s.Claims m (.heir thread) ∧ ¬(event = .resume ∧ thread = self) := by
  rcases (dequeued_exec queued member enabled effect).mp claims with before | ⟨taken, -⟩
  · exact before
  · exact absurd taken (stays _)

/-- Claims to a mutex stay as they are if the thread does not get or lose it and no
key is taken from its queue. -/
theorem claims_congr (owns : view'.owns m = (s.view self).owns m)
    (resumes : event = .resume → ∀ stage, (s.view self).waits ≠ some (.mutex m, stage))
    (stays : ∀ key, event ≠ .dequeue (.mutex m) key) (claim : Claim Thread) :
    ((s.act self event).see self view').Claims m claim ↔ s.Claims m claim := by
  cases claim with
  | owner thread =>
    by_cases isSelf : thread = self
    · subst isSelf
      simp [State.Claims, owns]
    · exact claims_owner isSelf
  | heir thread =>
    constructor
    · exact fun claims => (claims_heir queued member enabled effect stays claims).1
    · intro claims
      refine (dequeued_exec queued member enabled effect).mpr (.inl ⟨claims, ?_⟩)
      rintro ⟨isResume, rfl⟩
      obtain ⟨stage, waits⟩ := claims.1
      exact resumes isResume stage waits

end

/-- The queue of a free mutex stays empty. -/
private theorem queue_exec (guarded : Guarded s) (token : Token s m)
    (effect : Effect event (s.view self) view') (free : s.flag m = false) :
    (s.act self event).queue (.mutex m) = [] := by
  have empty := token.queue free
  have tail : ∀ o, update s.queue o (s.queue o).tail (.mutex m) = [] := by
    intro o
    by_cases here : o = .mutex m
    · subst here
      simp [empty]
    · rw [update_of_ne (Ne.symm here), empty]
  cases effect with
  | @enqueue _ o inside idle uncarried knows =>
    have here : o ≠ .mutex m := by
      intro here
      have taken : s.flag m = true := guarded.known (knows m here)
      simp [free] at taken
    exact (update_of_ne (Ne.symm here) _ _).trans empty
  | @handOver _ m' => exact tail (.mutex m')
  | @signal _ c => exact tail (.condvar c)
  | _ => exact empty

section
variable (token : Token s m) (queued : Queued s)
include token queued

section
variable (member : s.member self = true)
include member

private theorem token_take (free : s.flag m = false)
    (effect : Effect (.take m) (s.view self) view') :
    Token ((s.act self (.take m)).see self view') m := by
  have none := token.free free
  refine .moves (.heir self) (.owner self) (by simp [State.act]) ?_
    (fun claim claims => absurd claims (none claim)) ?_
  · cases effect
    simp [State.Claims]
  · intro claim claims
    cases claim with
    | owner thread =>
      by_cases isSelf : thread = self
      · exact .inl (by rw [isSelf])
      · exact absurd ((claims_owner isSelf).mp claims) (none _)
    | heir thread =>
      have enabled : s.Enabled self (.take m) := trivial
      exact absurd (claims_heir queued member enabled effect (by simp) claims).1 (none _)

private theorem token_clear (empty : s.queue (.mutex m) = [])
    (effect : Effect (.clear m) (s.view self) view') :
    Token ((s.act self (.clear m)).see self view') m where
  queue _ := empty
  free _ claim claims := by
    have owner : s.Claims m (.owner self) := by
      cases effect with
      | clear _ _ owns => exact owns
    have given : view'.owns m = false := by
      cases effect
      simp
    cases claim with
    | owner thread =>
      by_cases isSelf : thread = self
      · subst isSelf
        simp [State.Claims, given] at claims
      · cases token.unique owner ((claims_owner isSelf).mp claims)
        exact isSelf rfl
    | heir thread =>
      have enabled : s.Enabled self (.clear m) := trivial
      cases token.unique owner (claims_heir queued member enabled effect (by simp) claims).1
  taken taken := by simp [State.act] at taken

private theorem token_inherit (enabled : s.Enabled self .resume)
    (waits : (s.view self).waits = some (.mutex m, .parked))
    (effect : Effect .resume (s.view self) view') (owns : view'.owns m = true) :
    Token ((s.act self .resume).see self view') m := by
  have heir : s.Claims m (.heir self) :=
    ⟨⟨_, waits⟩, fun listed => queued.resumed waits enabled (.inl listed)⟩
  refine .moves (.heir self) (.owner self) (token.flag_of_claims heir)
    (by simpa [State.Claims] using owns) (fun claim claims => token.unique claims heir) ?_
  intro claim claims
  cases claim with
  | owner thread =>
    by_cases isSelf : thread = self
    · exact .inl (by rw [isSelf])
    · exact .inr ⟨(claims_owner isSelf).mp claims, by simp⟩
  | heir thread =>
    have before := claims_heir queued member enabled effect (by simp) claims
    exact .inr ⟨before.1, by simpa using before.2⟩

private theorem token_handOver (enabled : s.Enabled self (.dequeue (.mutex m) key))
    (effect : Effect (.dequeue (.mutex m) key) (s.view self) view') :
    Token ((s.act self (.dequeue (.mutex m) key)).see self view') m := by
  have heirs : ∀ thread, ((s.act self (.dequeue (.mutex m) key)).see self view').Dequeued
      (.mutex m) thread ↔ _ := fun thread => dequeued_exec queued member enabled effect
  obtain ⟨rest, queue⟩ := enabled
  obtain ⟨heir, stage, rfl, waits⟩ := queued.waiter (queue ▸ List.mem_cons_self)
  obtain ⟨owns, given⟩ := effect.handsOver
  have owner : s.Claims m (.owner self) := owns
  refine .moves (.owner self) (.heir heir) (token.flag_of_claims owner)
    ((heirs heir).mpr (.inr ⟨rfl, stage, waits⟩))
    (fun claim claims => token.unique claims owner) ?_
  intro claim claims
  cases claim with
  | owner thread =>
    have notSelf : thread ≠ self := by
      rintro rfl
      simp [State.Claims, given] at claims
    exact .inr ⟨(claims_owner notSelf).mp claims, by simpa using notSelf⟩
  | heir thread =>
    rcases (heirs thread).mp claims with ⟨before, -⟩ | ⟨taken, stage', waits'⟩
    · exact .inr ⟨before, by simp⟩
    · have same : s.key thread = s.key heir := by simpa using (Event.dequeue.inj taken).2.symm
      rw [queued.waiter_unique (queued.member_of_waits waits) waits' same]
      exact .inl rfl

end

theorem Token.exec (guarded : Guarded s)
    (member : s.member self = true) (enabled : s.Enabled self event)
    (effect : Effect event (s.view self) view') : Token ((s.act self event).see self view') m := by
  have queue := queue_exec guarded token effect
  have congr := claims_congr (m := m) queued member enabled effect
  cases effect with
  | @take _ m' inside knows =>
    by_cases here : m = m'
    · subst here
      exact token_take token queued member (guarded.known knows) (.take inside knows)
    · exact token.congr (update_of_ne here _ _) queue
        (congr (update_of_ne here _ _) (by simp) (by simp))
  | @clear _ m' inside knows owns =>
    by_cases here : m = m'
    · subst here
      exact token_clear token queued member (guarded.known knows) (.clear inside knows owns)
    · exact token.congr (update_of_ne here _ _) queue
        (congr (update_of_ne here _ _) (by simp) (by simp))
  | @handOver _ m' key inside knows owns uncarried notWaiting =>
    by_cases here : m = m'
    · subst here
      exact token_handOver token queued member enabled
        (.handOver inside knows owns uncarried notWaiting)
    · exact token.congr rfl queue
        (congr (update_of_ne here _ _) (by simp) (by simp [Ne.symm here]))
  | @inherit _ m' waits =>
    by_cases here : m = m'
    · subst here
      exact token_inherit token queued member enabled waits (.inherit waits) (by simp)
    · exact token.congr rfl queue
        (congr (update_of_ne here _ _) (by simp [waits, Ne.symm here]) (by simp))
  | wake waits => exact token.congr rfl queue (congr rfl (by simp [waits]) (by simp))
  | _ => exact token.congr rfl queue (congr rfl (by simp) (by simp))

end

end Token

/-! ## Steps -/

theorem Inv.exec (inv : Inv s) (member : s.member self = true)
    (enabled : s.Enabled self event) (effect : Effect event (s.view self) view') :
    Inv ((s.act self event).see self view') where
  guarded := inv.guarded.exec enabled effect
  queued := inv.queued.exec inv.guarded member enabled effect
  token m := (inv.token m).exec inv.queued inv.guarded member enabled effect

omit [DecidableEq Key] [DecidableEq Mutex] [DecidableEq Cond] in
private theorem inv_leave (inv : Inv s) (idle : (s.view self).Idle) :
    Inv { s with member := update s.member self false } where
  guarded := ⟨inv.guarded.consistent, inv.guarded.locked, inv.guarded.exclusive,
    fun {_ fact} knows => (holds_congr rfl fun _ _ => rfl).mpr (inv.guarded.known knows)⟩
  queued := by
    have still : ∀ {thread}, update s.member self false thread = true →
        s.member thread = true := by
      intro thread isMember
      by_cases isSelf : thread = self
      · simp [isSelf] at isMember
      · simpa [update_of_ne isSelf] using isMember
    exact
      { inv.queued with
        keys := fun first second => inv.queued.keys (still first) (still second)
        outsiders := by
          intro thread outsider
          by_cases isSelf : thread = self
          · exact isSelf ▸ idle
          · exact inv.queued.outsiders (by simpa [update_of_ne isSelf] using outsider)
        quiet := fun isMember => inv.queued.quiet (still isMember) }
  token m := (inv.token m).congr rfl (inv.token m).queue fun claim => by
    cases claim <;> rfl

omit [DecidableEq Thread] [DecidableEq Key] [DecidableEq Mutex] [DecidableEq Cond] in
private theorem inv_foreign {key : Thread → Key} {flags : Thread → Flags} (inv : Inv s)
    (same : ∀ thread, s.member thread = true →
      key thread = s.key thread ∧ flags thread = s.flags thread) :
    Inv { s with key := key, flags := flags } where
  guarded := ⟨inv.guarded.consistent, inv.guarded.locked, inv.guarded.exclusive,
    fun {_ fact} knows => (holds_congr rfl fun _ _ => rfl).mpr (inv.guarded.known knows)⟩
  queued :=
    { inv.queued with
      keys := by
        intro thread other isMember otherMember sameKey
        apply inv.queued.keys isMember otherMember
        rw [← (same thread isMember).1, ← (same other otherMember).1]
        exact sameKey
      waiter := by
        intro o key listed
        obtain ⟨thread, stage, isKey, waits⟩ := inv.queued.waiter listed
        have isMember := inv.queued.member_of_waits waits
        exact ⟨thread, stage, (same thread isMember).1.trans isKey, waits⟩
      carried := by
        intro thread o key carries
        obtain ⟨unlisted, waiter, stage, isKey, waits, announced⟩ := inv.queued.carried carries
        have isMember := inv.queued.member_of_waits waits
        exact ⟨unlisted, waiter, stage, (same waiter isMember).1.trans isKey, waits, announced⟩
      listed := by
        intro thread o waits
        have isMember := inv.queued.member_of_waits waits
        simpa only [(same thread isMember).1] using inv.queued.listed waits
      quiet := by
        intro thread isMember waits
        exact (same thread isMember).2.trans (inv.queued.quiet isMember waits)
      waiting := by
        intro thread o stage waits
        have isMember := inv.queued.member_of_waits waits
        simpa only [State.Pending, (same thread isMember).1, (same thread isMember).2]
          using inv.queued.waiting waits }
  token m := (inv.token m).congr rfl (inv.token m).queue fun claim => by
    cases claim with
    | owner thread => rfl
    | heir thread =>
      refine and_congr_right fun ⟨stage, waits⟩ => ?_
      simp only [(same thread (inv.queued.member_of_waits waits)).1]

/-- Every step of the protocol keeps the invariant. -/
theorem Inv.step (inv : Inv s) (step : Step s s') : Inv s' := by
  cases step with
  | exec member enabled effect => exact inv.exec member enabled effect
  | leave idle => exact inv_leave inv idle
  | foreign same => exact inv_foreign inv same

theorem Inv.steps (inv : Inv s) (steps : Relation.ReflTransGen Step s s') : Inv s' := by
  induction steps with
  | refl => exact inv
  | tail _ step ih => exact ih.step step

omit [DecidableEq Thread] [DecidableEq Key] [DecidableEq Mutex] [DecidableEq Cond] in
/-- The protocol starts with free objects and threads that take no part yet. -/
theorem inv_start (idle : ∀ thread, (s.view thread).Idle)
    (owns : ∀ thread m, (s.view thread).owns m = false) (queue : ∀ o, s.queue o = [])
    (flag : ∀ m, s.flag m = false) (flags : ∀ thread, s.member thread = true → s.flags thread = {})
    (keys : ∀ {thread other}, s.member thread = true → s.member other = true →
      s.key thread = s.key other → thread = other) : Inv s where
  guarded :=
    { consistent := fun thread => ⟨by simp [(idle thread).waits],
        by simp [(idle thread).carries], by simp [(idle thread).knows]⟩
      locked := by simp [(idle _).inside]
      exclusive := by simp [(idle _).inside]
      known := by simp [(idle _).knows] }
  queued :=
    { keys := keys
      outsiders := fun {thread} _ => idle thread
      nodup := by simp [queue]
      waiter := by simp [queue]
      carried := by simp [(idle _).carries]
      listed := by simp [(idle _).waits]
      quiet := fun {thread} isMember _ => flags thread isMember
      waiting := by simp [(idle _).waits] }
  token m :=
    { queue := fun _ => queue _
      free := by
        intro _ claim
        cases claim with
        | owner thread => simp [State.Claims, owns]
        | heir thread => simp [State.Claims, State.Dequeued, (idle thread).waits]
      taken := by simp [flag] }

end Handoff
