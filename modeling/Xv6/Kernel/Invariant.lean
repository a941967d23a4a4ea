import Xv6.Kernel.Step

/-!
# Well-formed kernel states

The invariant behind the results on the process table: where a process can be in
the kernel given its state, that a slot under creation is an embryo with one
creator, that `initproc` stays alive, that every process has a parent, and that
pids are unique.  It holds in every reachable state, whatever is killed.
-/

namespace Xv6

/-- The slot a process is creating, once the caller's data was copied to it. -/
def KernelPc.fills : KernelPc → Option Slot
  | .copyout np _ _ | .publish np => some np
  | _ => none

namespace Kernel

/-! ## Places -/

/-- Where a process can be in the kernel, given its state and channel. -/
def Placed (slot : Slot) (entry : Proc) : KernelPc → Prop
  | .user => entry.chan = .null ∧ entry.state ≠ .sleeping
  | .sleep => (∃ object, entry.chan = .object object) ∧
      (entry.state = .sleeping ∨ entry.state = .runnable)
  | .park => entry.chan = .null ∧ (entry.state = .sleeping ∨ entry.state = .runnable)
  | .wait | .join => entry.chan = .proc slot ∧
      (entry.state = .sleeping ∨ entry.state = .runnable)
  | _ => entry.chan = .null ∧ (entry.state = .running ∨ entry.state = .runnable)

section Placed

variable {k k' : Kernel} {slot : Slot} {entry entry' : Proc} {pc : KernelPc}

section
variable (placed : Placed slot entry pc)
include placed

theorem Placed.user_of_idle (asleep : entry.state ≠ .sleeping) (ready : entry.state ≠ .runnable)
    (busy : entry.state ≠ .running) : pc = .user ∧ entry.chan = .null := by
  cases pc <;> simp_all [Placed]

theorem Placed.chan_of_running (running : entry.state = .running) : entry.chan = .null := by
  cases pc <;> simp_all [Placed]

theorem Placed.busy (creating : pc.creates ≠ none) : entry.state.Live := by
  cases pc with
  | kstack | copy | copyout | publish =>
    rcases placed.2 with running | runnable
    · simp [running]
    · simp [runnable]
  | _ => simp [KernelPc.creates] at creating

theorem Placed.congr (state : entry'.state = entry.state)
    (chan : entry'.chan = entry.chan) : Placed slot entry' pc := by
  cases pc <;> simpa [Placed, state, chan] using placed

theorem Placed.runnable (state : entry'.state = .runnable) (chan : entry'.chan = entry.chan) :
    Placed slot entry' pc := by
  cases pc <;> simp_all [Placed]

end

theorem placed_running (chan : entry.chan = .null) (running : entry.state = .running)
    (awake : pc = .user ∨ pc.creates ≠ none ∨ ∃ n addr, pc = .sbrk n addr) :
    Placed slot entry pc := by
  rcases awake with rfl | creating | ⟨n, addr, rfl⟩
  · simp [Placed, chan, running]
  · cases pc <;> simp_all [Placed, KernelPc.creates]
  · simp [Placed, chan, running]

/-- A step leaves every process at a place that goes with its state. -/
theorem placed_move {action : Action} (move : Move k k' slot action entry pc)
    (embryo : ∀ self np, (k.pc self).creates = some np → (k.pt.proc np).state = .embryo)
    (placed : Placed slot (k.pt.proc slot) (k.pc slot)) : Placed slot entry pc := by
  have idle : ∀ self, (k.pc self).creates = some slot →
      k.pc slot = .user ∧ (k.pt.proc slot).chan = .null := by
    intro self creating
    have := embryo self slot creating
    apply placed.user_of_idle <;> simp [this]
  cases move with
  | stays => exact placed
  | resumes runnable sleep park wait join =>
    cases pc : k.pc slot <;> simp_all [Placed]
  | wakes => simp [Placed]
  | leavesPark runnable pc => simp_all [Placed]
  | @waits _ thread here none => cases thread <;> simp [scanPc, Placed]
  | reaped dead =>
    have := placed.user_of_idle (by simp [dead]) (by simp [dead]) (by simp [dead])
    simp [Placed, Ptable.release, this]
  | yields running => exact placed.runnable rfl rfl
  | taken unused =>
    have := placed.user_of_idle (by simp [unused]) (by simp [unused]) (by simp [unused])
    simp [Placed, this]
  | spawns here unused taken => simp [Placed, here.1, placed.chan_of_running here.1]
  | getsStack here | copies here | shares here | maps here =>
    exact placed_running (placed.chan_of_running here.1) here.1 (.inr (.inl (by simp)))
  | returns running way =>
    exact placed_running (placed.chan_of_running running) running (.inl rfl)
  | sbrks here =>
    exact placed_running (placed.chan_of_running here.1) here.1 (.inr (.inr ⟨_, _, rfl⟩))
  | abandoned creating => simp [Placed, idle _ creating]
  | stacked pc => exact placed.congr rfl rfl
  | forked here => exact placed.congr rfl rfl
  | cloned here => exact placed.congr rfl rfl
  | started here => exact placed.congr rfl rfl
  | published here => exact placed.runnable rfl rfl
  | exits here other =>
    rw [here.2]
    simp [Placed, placed.chan_of_running here.1]
  | @orphaned self here different other =>
    by_cases woken : k.pt.ExitWakes self (k.pt.proc slot)
    · exact placed.runnable (if_pos woken) rfl
    · exact placed.congr (if_neg woken) rfl
  | execs here => exact placed.congr rfl rfl
  | resized way =>
    rcases way with rfl | ⟨running, -, rfl⟩
    · exact placed.congr rfl rfl
    · exact placed_running (placed.chan_of_running running) running (.inl rfl)
  | arms here clear => exact placed.congr rfl rfl
  | parks here clear => simp [Placed, placed.chan_of_running here.1]
  | skipsPark here pending => simp [Placed, placed.chan_of_running here.1, here.1]
  | noted isPid set awake => exact placed.congr rfl rfl
  | unparked isPid asleep parked => exact placed.runnable rfl rfl
  | killed found =>
    by_cases asleep : (k.pt.proc slot).state = .sleeping
    · exact placed.runnable (by simp [asleep]) rfl
    · exact placed.congr (by simp [asleep]) rfl
  | sleeps here => simp [Placed]
  | woken asleep chan => exact placed.runnable rfl rfl

end Placed

@[simp] theorem fills_copyout (np : Slot) (fn ustack : Nat) :
    (KernelPc.copyout np fn ustack).fills = some np := rfl

@[simp] theorem fills_publish (np : Slot) : (KernelPc.publish np).fills = some np := rfl

theorem creates_of_fills {pc : KernelPc} {np : Slot} (fills : pc.fills = some np) :
    pc.creates = some np := by
  cases pc <;> simp_all [KernelPc.fills, KernelPc.creates]

/-! ## The invariant -/

/-- A well-formed kernel state.  `filled` speaks about a slot that already has the
caller's data but is not yet runnable. -/
structure Wf (k : Kernel) : Prop where
  placed : ∀ slot, Placed slot (k.pt.proc slot) (k.pc slot)
  creates : ∀ self np, (k.pc self).creates = some np → (k.pt.proc np).state = .embryo
  creator : ∀ self other np, (k.pc self).creates = some np →
    (k.pc other).creates = some np → self = other
  init : (k.pt.proc k.pt.initproc).state ≠ .unused ∧
    (k.pt.proc k.pt.initproc).state ≠ .embryo ∧ (k.pt.proc k.pt.initproc).state ≠ .zombie
  parent : ∀ slot, slot ≠ k.pt.initproc → (k.pt.proc slot).state ≠ .unused →
    (k.pt.proc slot).state ≠ .embryo → (k.pt.proc slot).parent ≠ none
  root : (k.pt.proc k.pt.initproc).parent = none
  other : ∀ slot, (k.pt.proc slot).parent ≠ some slot
  filled : ∀ self np, (k.pc self).fills = some np →
    (k.pt.proc np).parent = some self ∧
      ((k.pt.proc np).isThread = true → (k.pt.proc np).pgdir = (k.pt.proc self).pgdir)
  pidBound : ∀ slot, 0 ≤ (k.pt.proc slot).pid ∧ (k.pt.proc slot).pid < k.pt.nextpid
  pidUnique : ∀ slot other, (k.pt.proc slot).pid = (k.pt.proc other).pid →
    (k.pt.proc slot).pid ≠ 0 → slot = other
  pidUsed : ∀ slot, (k.pt.proc slot).state ≠ .unused → (k.pt.proc slot).pid ≠ 0
  older : ∀ self np, (k.pc self).creates = some np →
    (k.pt.proc self).pid < (k.pt.proc np).pid

/-! ## What a step does to it -/

section Step

variable {k k' : Kernel} {slot np : Slot} {action : Action} {entry : Proc} {pc : KernelPc}

/-- A slot that is being created was so before, or the step has taken it. -/
theorem creates_move (move : Move k k' slot action entry pc) (creating : pc.creates = some np) :
    (k.pc slot).creates = some np ∨
      (∃ kind, action = .spawn slot kind) ∧ (k.pt.proc np).state = .unused ∧
        (k'.pt.proc np).state = .embryo := by
  cases move with
  | @spawns np' kind here unused taken =>
    obtain rfl : np' = np := by simpa using creating
    exact .inr ⟨⟨kind, rfl⟩, unused, taken⟩
  | getsStack here | copies here | shares here | maps here =>
    left
    simpa [here.2] using creating
  | @waits action thread here none =>
    cases thread <;> simp [scanPc, KernelPc.creates] at creating
  | resized way =>
    rcases way with rfl | ⟨-, -, rfl⟩
    · exact .inl creating
    · simp at creating
  | wakes | leavesPark | returns | sbrks | parks | skipsPark | sleeps | taken =>
    simp [KernelPc.creates] at creating
  | _ => exact .inl creating

theorem embryo_move (wf : Wf k) (move : Move k k' np action entry pc)
    (creating : (k.pc slot).creates = some np) (still : (k'.pc slot).creates = some np) :
    entry.state = .embryo := by
  have embryo := wf.creates slot np creating
  cases move with
  | @abandoned _ self _ creating' done =>
    obtain rfl := wf.creator self slot np creating' creating
    simp [done] at still
  | @published self here done =>
    obtain rfl := wf.creator self slot np (by simp [here.2]) creating
    simp [done] at still
  | resumes state | wakes state | leavesPark state | reaped state | yields state
  | taken state | woken state => simp [embryo] at state
  | waits here =>
    rcases here with here | here <;> simp [embryo, At] at here
  | parks here | sleeps here | exits here => simp [embryo, At] at here
  | unparked isPid state => simp [embryo] at state
  | orphaned here => simp [embryo, Ptable.ExitWakes]
  | killed => simp [embryo]
  | _ => exact embryo

/-- What was copied to a new slot stays, but for its size in `growproc`. -/
theorem filled_move (wf : Wf k) (move : Move k k' np action entry pc)
    (filling : (k.pc slot).fills = some np) (still : (k'.pc slot).creates = some np) :
    entry.isThread = (k.pt.proc np).isThread ∧ entry.pgdir = (k.pt.proc np).pgdir ∧
      (entry.sz = (k.pt.proc np).sz ∨ ∃ self memory, action = .growproc self memory) ∧
      (entry.parent = (k.pt.proc np).parent ∨ action = .exit slot) := by
  have embryo := wf.creates slot np (creates_of_fills filling)
  have creator : ∀ self, (k.pc self).creates = some np → self = slot := fun self creating =>
    wf.creator self slot np creating (creates_of_fills filling)
  cases move with
  | @forked self _ here =>
    obtain rfl := creator self (by simp [here.2])
    simp [here.2, KernelPc.fills] at filling
  | @cloned self _ _ here =>
    obtain rfl := creator self (by simp [here.2])
    simp [here.2, KernelPc.fills] at filling
  | @abandoned _ self _ creating done =>
    obtain rfl := creator self creating
    simp [done] at still
  | reaped state => simp [embryo] at state
  | exits here | execs here => simp [embryo, At] at here
  | @orphaned self here =>
    refine ⟨rfl, rfl, .inl rfl, ?_⟩
    have parent := (wf.filled slot np filling).1
    by_cases same : self = slot
    · exact .inr (by rw [same])
    · left
      simp [Ptable.heir, parent, Ne.symm same]
  | resized => exact ⟨rfl, rfl, .inr ⟨_, _, rfl⟩, .inl rfl⟩
  | _ => exact ⟨rfl, rfl, .inl rfl, .inl rfl⟩

/-- How a slot comes to have the data of its creator. -/
inductive Fills (k k' : Kernel) (self np : Slot) : Action → Prop where
  | before {action : Action} : (k.pc self).fills = some np → Fills k k' self np action
  | forks {pgdir : Nat} : k.At self (.copy np .fork) → pgdir ≠ 0 →
      (k'.pt.proc np).parent = some self →
      (k'.pt.proc np).isThread = false → (k'.pt.proc np).pgdir = pgdir →
      Fills k k' self np (.copyuvm self pgdir)
  | clones {fn ustack : Nat} : k.At self (.copy np (.clone fn ustack)) →
      (k'.pt.proc np).parent = some self → (k'.pt.proc np).isThread = true →
      (k'.pt.proc np).pgdir = (k.pt.proc self).pgdir →
      (k'.pt.proc np).sz = (k.pt.proc self).sz → Fills k k' self np (.share self)

theorem fills_move (move : Move k k' slot action entry pc) (filling : pc.fills = some np) :
    Fills k k' slot np action := by
  cases move with
  | copies here nonnull parent process pgdir =>
    cases filling
    exact .forks here nonnull parent process pgdir
  | shares here parent thread pgdir sz =>
    cases filling
    exact .clones here parent thread pgdir sz
  | maps here => exact .before (by simpa [here.2] using filling)
  | @waits action thread here none =>
    cases thread <;> simp [scanPc, KernelPc.fills] at filling
  | resized way =>
    rcases way with rfl | ⟨-, -, rfl⟩
    · exact .before filling
    · simp [KernelPc.fills] at filling
  | wakes | leavesPark | returns | sbrks | parks | skipsPark | sleeps | taken | spawns
  | getsStack => simp [KernelPc.fills] at filling
  | _ => exact .before filling

section
variable (wf : Wf k)
include wf

section
variable (move : Move k k' slot action entry pc)
include move

theorem fills_kept
    (filling : (k.pc slot).fills = some np) (embryo : (k'.pt.proc np).state = .embryo) :
    pc.fills = some np := by
  cases move with
  | returns running way done => exact absurd embryo (done np (creates_of_fills filling))
  | maps here => simpa [here.2] using filling
  | resized way =>
    rcases way with rfl | ⟨-, ⟨n, addr, place⟩, rfl⟩
    · exact filling
    · simp [place, KernelPc.fills] at filling
  | wakes state place =>
    rcases place with place | place | place <;> simp [place, KernelPc.fills] at filling
  | leavesPark state place => simp [place, KernelPc.fills] at filling
  | @waits _ thread here =>
    rcases here with here | here
    · cases thread <;> simp [here.2, scanPc, KernelPc.fills] at filling
    · simp [here.2, KernelPc.fills] at filling
  | spawns here | getsStack here | copies here | shares here | sbrks here | parks here
  | skipsPark here | sleeps here => simp [here.2, KernelPc.fills] at filling
  | taken unused =>
    have idle := (wf.placed slot).user_of_idle (by simp [unused]) (by simp [unused])
      (by simp [unused])
    simp [idle.1, KernelPc.fills] at filling
  | _ => exact filling

theorem pgdir_move (inside : k.pc slot ≠ .user) : entry.pgdir = (k.pt.proc slot).pgdir := by
  have outside : ∀ self, (k.pc self).creates ≠ some slot := by
    intro self creating
    have embryo := wf.creates self slot creating
    apply inside
    apply And.left
    apply (wf.placed slot).user_of_idle <;> simp [embryo]
  cases move with
  | @forked self _ here => exact absurd (by simp [here.2]) (outside self)
  | @cloned self _ _ here => exact absurd (by simp [here.2]) (outside self)
  | @abandoned _ self _ creating => exact absurd creating (outside self)
  | execs here => exact absurd here.2 inside
  | _ => rfl

theorem parent_move (other : slot ≠ k.pt.initproc) (used : entry.state ≠ .unused)
    (ready : entry.state ≠ .embryo) : entry.parent ≠ none := by
  have heir : ∀ self, (k.pt.proc slot).parent ≠ none →
      k.pt.heir self (k.pt.proc slot) ≠ none := by
    intro self parent
    unfold Ptable.heir
    split
    · simp
    · exact parent
  cases move with
  | reaped | abandoned => simp [Ptable.release] at used
  | taken => exact absurd rfl ready
  | forked | cloned => simp
  | @published self here =>
    have parent := (wf.filled self slot (by simp [here.2])).1
    simp [parent]
  | exits here =>
    exact heir slot (wf.parent slot other (by simp [here.1]) (by simp [here.1]))
  | @orphaned self here =>
    apply heir
    apply wf.parent slot other
    · intro unused
      simp [unused, Ptable.ExitWakes] at used
    · intro embryo
      simp [embryo, Ptable.ExitWakes] at ready
  | killed =>
    apply wf.parent slot other
    · intro unused
      simp [unused] at used
    · intro embryo
      simp [embryo] at ready
  | resumes state | wakes state | leavesPark state | yields state | woken state =>
    exact wf.parent slot other (by simp [state]) (by simp [state])
  | waits here =>
    rcases here with here | here
    · exact wf.parent slot other (by simp [here.1]) (by simp [here.1])
    · exact wf.parent slot other (by simp [here.1]) (by simp [here.1])
  | parks here | sleeps here =>
    exact wf.parent slot other (by simp [here.1]) (by simp [here.1])
  | unparked isPid state => exact wf.parent slot other (by simp [state]) (by simp [state])
  | _ => exact wf.parent slot other used ready

end

theorem root_move (move : Move k k' k.pt.initproc action entry pc) : entry.parent = none := by
  have ready : ∀ self, (k.pc self).creates ≠ some k.pt.initproc := fun self creating =>
    wf.init.2.1 (wf.creates self _ creating)
  cases move with
  | @forked self _ here => exact absurd (by simp [here.2]) (ready self)
  | @cloned self _ _ here => exact absurd (by simp [here.2]) (ready self)
  | reaped => rfl
  | exits | orphaned => simp [Ptable.heir, wf.root]
  | _ => exact wf.root

theorem other_move (move : Move k k' slot action entry pc) : entry.parent ≠ some slot := by
  have foreign : ∀ self, (k.pt.proc self).state = .running →
      (k.pc self).creates = some slot → some self ≠ some slot := by
    intro self running creating same
    obtain rfl := Option.some.inj same
    simp [wf.creates self self creating] at running
  have heir : ∀ self, k.pt.heir self (k.pt.proc slot) ≠ some slot := by
    intro self
    unfold Ptable.heir
    split
    next child =>
      intro same
      cases same
      simp [wf.root] at child
    next => exact wf.other slot
  cases move with
  | @forked self _ here => exact foreign self here.1 (by simp [here.2])
  | @cloned self _ _ here => exact foreign self here.1 (by simp [here.2])
  | reaped => simp [Ptable.release]
  | exits | orphaned => exact heir _
  | _ => exact wf.other slot

theorem init_move (move : Move k k' k.pt.initproc action entry pc) :
    entry.state ≠ .unused ∧ entry.state ≠ .embryo ∧ entry.state ≠ .zombie := by
  obtain ⟨used, ready, alive⟩ := wf.init
  cases move with
  | reaped dead => exact absurd dead alive
  | taken unused => exact absurd unused used
  | abandoned creating => exact absurd (wf.creates _ _ creating) ready
  | exits here other => exact absurd rfl other
  | @orphaned self here =>
    by_cases woken : k.pt.ExitWakes self (k.pt.proc k.pt.initproc)
    · simp [woken]
    · simpa [woken] using wf.init
  | killed =>
    by_cases asleep : (k.pt.proc k.pt.initproc).state = .sleeping
    · simp [asleep]
    · simpa [asleep] using wf.init
  | resumes | wakes | leavesPark | waits | yields | published | parks | unparked | sleeps
  | woken => simp
  | _ => exact wf.init

theorem pid_move (move : Move k k' slot action entry pc)
    (other : ∀ self kind, action ≠ .spawn self kind) :
    entry.pid = (k.pt.proc slot).pid ∧
        (entry.state ≠ .unused → (k.pt.proc slot).state ≠ .unused) ∨
      entry.pid = 0 ∧ entry.state = .unused := by
  cases move with
  | reaped => exact .inr ⟨rfl, rfl⟩
  | taken => exact absurd rfl (other _ _)
  | abandoned => exact .inl ⟨rfl, fun used => absurd rfl used⟩
  | resumes state | wakes state | leavesPark state | yields state | woken state =>
    exact .inl ⟨rfl, fun _ => by simp [state]⟩
  | waits here =>
    rcases here with here | here
    · exact .inl ⟨rfl, fun _ => by simp [here.1]⟩
    · exact .inl ⟨rfl, fun _ => by simp [here.1]⟩
  | parks here | sleeps here | exits here =>
    exact .inl ⟨rfl, fun _ => by simp [here.1]⟩
  | unparked isPid state => exact .inl ⟨rfl, fun _ => by simp [state]⟩
  | orphaned here =>
    refine .inl ⟨rfl, fun used unused => ?_⟩
    simp [unused, Ptable.ExitWakes] at used
  | killed =>
    refine .inl ⟨rfl, fun used unused => ?_⟩
    simp [unused] at used
  | @published self here =>
    have embryo := wf.creates self slot (by simp [here.2])
    exact .inl ⟨rfl, fun _ => by simp [embryo]⟩
  | _ => exact .inl ⟨rfl, id⟩

end

theorem step_frame (step : Step k action k') :
    k'.pt.initproc = k.pt.initproc ∧
      ((∀ self kind, action ≠ .spawn self kind) → k'.pt.nextpid = k.pt.nextpid) := by
  cases step with
  | full here none => exact ⟨rfl, fun _ => rfl⟩
  | takes here bound found unused => exact ⟨rfl, fun other => absurd rfl (other _ _)⟩
  | stacked here nonnull allocated | copies here nonnull allocated
  | execs here nonnull bound allocated =>
    have table := Ptable.kalloc_some allocated
    exact ⟨table.2.2.1, fun _ => table.2.2.2.1⟩
  | @rescans slot thread _ runnable pc scans =>
    cases scans with
    | reaps => cases thread <;> exact ⟨rfl, fun _ => rfl⟩
    | fails | sleeps => exact ⟨rfl, fun _ => rfl⟩
  | @scans slot thread _ _ call here scans =>
    cases scans with
    | reaps => cases thread <;> exact ⟨rfl, fun _ => rfl⟩
    | fails | sleeps => exact ⟨rfl, fun _ => rfl⟩
  | @grows self n addr memory here succeeds =>
    rw [Ptable.growproc, if_neg succeeds]
    exact ⟨rfl, fun _ => rfl⟩
  | _ => exact ⟨rfl, fun _ => rfl⟩

theorem pid_step (wf : Wf k) (step : Step k action k') :
    k'.pt.nextpid = k.pt.nextpid ∧
        (∀ slot, (k'.pt.proc slot).pid = (k.pt.proc slot).pid ∧
            ((k'.pt.proc slot).state ≠ .unused → (k.pt.proc slot).state ≠ .unused) ∨
          (k'.pt.proc slot).pid = 0 ∧ (k'.pt.proc slot).state = .unused) ∨
      k'.pt.nextpid = k.pt.nextpid + 1 ∧
        ∃ np, (k'.pt.proc np).pid = k.pt.nextpid ∧
          ∀ slot, slot ≠ np → k'.pt.proc slot = k.pt.proc slot := by
  by_cases spawning : ∃ self kind, action = .spawn self kind
  · obtain ⟨self, kind, rfl⟩ := spawning
    cases step with
    | full here none => exact .inl ⟨rfl, fun slot => .inl ⟨rfl, id⟩⟩
    | @takes _ np _ here bound found unused =>
      refine .inr ⟨rfl, np, by simp, fun slot different => ?_⟩
      simp [Ptable.modify_of_ne different]
    | @scans _ thread _ _ call => cases thread <;> cases call
  · have other : ∀ self kind, action ≠ .spawn self kind := fun self kind same =>
      spawning ⟨self, kind, same⟩
    exact .inl ⟨(step_frame step).2 other, fun slot =>
      pid_move wf (step_move step wf.creates slot) other⟩

/-- Pids stay unique and below `nextpid`. -/
theorem pids_step (wf : Wf k) (step : Step k action k') :
    (∀ slot, 0 ≤ (k'.pt.proc slot).pid ∧ (k'.pt.proc slot).pid < k'.pt.nextpid) ∧
      (∀ slot other, (k'.pt.proc slot).pid = (k'.pt.proc other).pid →
        (k'.pt.proc slot).pid ≠ 0 → slot = other) ∧
      ∀ slot, (k'.pt.proc slot).state ≠ .unused → (k'.pt.proc slot).pid ≠ 0 := by
  rcases pid_step wf step with ⟨nextpid, pids⟩ | ⟨nextpid, np, pid, others⟩
  · have positive : 0 < k.pt.nextpid := by
      have := wf.pidBound 0
      omega
    refine ⟨fun slot => ?_, fun slot other same nonzero => ?_, fun slot used => ?_⟩
    · have := wf.pidBound slot
      rcases pids slot with ⟨pid, -⟩ | ⟨pid, -⟩ <;> omega
    · rcases pids slot with ⟨pid, -⟩ | ⟨pid, -⟩
      · rcases pids other with ⟨pid', -⟩ | ⟨pid', -⟩
        · exact wf.pidUnique slot other (by omega) (by omega)
        · omega
      · omega
    · rcases pids slot with ⟨pid, before⟩ | ⟨-, unused⟩
      · rw [pid]
        exact wf.pidUsed slot (before used)
      · exact absurd unused used
  · have bound : ∀ slot, slot ≠ np →
        0 ≤ (k'.pt.proc slot).pid ∧ (k'.pt.proc slot).pid < k.pt.nextpid := by
      intro slot different
      rw [others slot different]
      exact wf.pidBound slot
    have positive : 0 < k.pt.nextpid := by
      have := wf.pidBound np
      omega
    refine ⟨fun slot => ?_, fun slot other same nonzero => ?_, fun slot used => ?_⟩
    · by_cases isNew : slot = np
      · subst isNew
        omega
      · have := bound slot isNew
        omega
    · by_cases isNew : slot = np
      · by_cases isNew' : other = np
        · rw [isNew, isNew']
        · have := bound other isNew'
          rw [isNew] at same
          omega
      · by_cases isNew' : other = np
        · have := bound slot isNew
          rw [isNew'] at same
          omega
        · rw [others slot isNew, others other isNew'] at same
          rw [others slot isNew] at nonzero
          exact wf.pidUnique slot other same nonzero
    · by_cases isNew : slot = np
      · subst isNew
        omega
      · rw [others slot isNew] at used ⊢
        exact wf.pidUsed slot used

/-- A slot keeps its pid while it is in use. -/
theorem pid_kept (move : Move k k' slot action entry pc)
    (used : (k.pt.proc slot).state ≠ .unused) (still : entry.state ≠ .unused) :
    entry.pid = (k.pt.proc slot).pid := by
  cases move with
  | taken unused => exact absurd unused used
  | reaped => exact absurd rfl still
  | _ => rfl

/-- Only `exit` ends a process. -/
theorem live_kept (move : Move k k' slot action entry pc) (wf : Wf k)
    (live : (k.pt.proc slot).state.Live) (other : action ≠ .exit slot) : entry.state.Live := by
  cases move with
  | reaped state | taken state =>
    rw [state] at live
    simp at live
  | @abandoned _ self _ creating =>
    rw [wf.creates self slot creating] at live
    simp at live
  | exits => exact absurd rfl other
  | orphaned here =>
    split
    · simp
    · exact live
  | killed =>
    split
    · simp
    · exact live
  | resumes | wakes | leavesPark | waits | yields | published | parks | unparked | sleeps
  | woken => simp
  | _ => exact live

/-- A new slot has a higher pid than its creator. -/
theorem older_step (wf : Wf k) (step : Step k action k') :
    ∀ self np, (k'.pc self).creates = some np →
      (k'.pt.proc self).pid < (k'.pt.proc np).pid := by
  intro self np creating
  have move := step_move step wf.creates
  rcases creates_move (move self) creating with before | ⟨⟨kind, rfl⟩, unused, -⟩
  · have mine := (wf.placed self).busy (by simp [before])
    have mine' := (placed_move (move self) wf.creates (wf.placed self)).busy (by simp [creating])
    have embryo := wf.creates self np before
    have embryo' := embryo_move wf (move np) before creating
    rw [pid_kept (move self) mine.ne_unused mine'.ne_unused,
      pid_kept (move np) (by simp [embryo]) (by simp [embryo'])]
    exact wf.older self np before
  · cases step with
    | full here =>
      rw [here.2] at creating
      cases creating
    | @takes _ np' _ here bound found free =>
      obtain rfl : np' = np := by simpa using creating
      have different : self ≠ np' := by
        rintro rfl
        simp [here.1] at unused
      simpa [Ptable.modify_of_ne different] using (wf.pidBound self).2
    | @scans _ thread _ _ call => cases thread <;> cases call

/-- A slot is created by one process only. -/
theorem creator_step (wf : Wf k) (step : Step k action k') :
    ∀ self other np, (k'.pc self).creates = some np → (k'.pc other).creates = some np →
      self = other := by
  intro self other np first second
  rcases creates_move (step_move step wf.creates self) first with
    creating | ⟨⟨kind, here⟩, unused, -⟩
  · rcases creates_move (step_move step wf.creates other) second with
      creating' | ⟨-, unused, -⟩
    · exact wf.creator self other np creating creating'
    · simp [wf.creates self np creating] at unused
  · rcases creates_move (step_move step wf.creates other) second with
      creating' | ⟨⟨kind', here'⟩, -, -⟩
    · simp [wf.creates other np creating'] at unused
    · rw [here] at here'
      cases here'
      rfl

theorem filled_step (wf : Wf k) (step : Step k action k') :
    ∀ self np, (k'.pc self).fills = some np →
      (k'.pt.proc np).parent = some self ∧
        ((k'.pt.proc np).isThread = true →
          (k'.pt.proc np).pgdir = (k'.pt.proc self).pgdir) := by
  intro self np filling
  have mine := step_move step wf.creates self
  cases fills_move mine filling with
  | before before =>
    have inside : k.pc self ≠ .user := by
      intro user
      simp [user, KernelPc.fills] at before
    obtain ⟨thread, space, -, parent⟩ :=
      filled_move wf (step_move step wf.creates np) before (creates_of_fills filling)
    rw [thread, space, pgdir_move wf mine inside]
    refine ⟨?_, (wf.filled self np before).2⟩
    rcases parent with kept | rfl
    · rw [kept, (wf.filled self np before).1]
    · cases step with
      | exits here => exact absurd here.2 inside
      | @scans _ thread _ _ call => cases thread <;> cases call
  | forks here nonnull parent process => exact ⟨parent, by simp [process]⟩
  | clones here parent thread pgdir =>
    rw [pgdir_move wf mine (by simp [here.2])]
    exact ⟨parent, fun _ => pgdir⟩

/-- Every step keeps the invariant. -/
theorem wf_step (wf : Wf k) (taken : k.step action = some k') : Wf k' := by
  have step := step_effect taken
  have move := step_move step wf.creates
  have pids := pids_step wf step
  have frame := (step_frame step).1
  exact {
    placed := fun slot => placed_move (move slot) wf.creates (wf.placed slot)
    creates := by
      intro self np creating
      rcases creates_move (move self) creating with before | ⟨-, -, embryo⟩
      · exact embryo_move wf (move np) before creating
      · exact embryo
    creator := creator_step wf step
    init := by
      rw [frame]
      exact init_move wf (move k.pt.initproc)
    parent := by
      rw [frame]
      exact fun slot => parent_move wf (move slot)
    root := by
      rw [frame]
      exact root_move wf (move k.pt.initproc)
    other := fun slot => other_move wf (move slot)
    filled := filled_step wf step
    pidBound := pids.1
    pidUnique := pids.2.1
    pidUsed := pids.2.2
    older := older_step wf step }

end Step

/-! ## Boot -/

/-- The first process as `userinit` leaves it. -/
def initcode (kstack pgdir : Nat) : Proc where
  sz := pgsize
  pgdir := pgdir
  kstack := kstack
  state := .runnable
  pid := 1
  tf := { cs := 0x23, ds := 0x2b, es := 0x2b, ss := 0x2b, eflags := 0x200, esp := pgsize,
          eip := 0 }
  cwd := some 0
  name := "initcode"

variable {start : Kernel}

theorem boot_table (boot : Boot start) :
    (start.pc = fun _ => .user) ∧ start.pt.initproc = 0 ∧ start.pt.nextpid = 2 ∧
      ∃ kstack pgdir, kstack ≠ 0 ∧ pgdir ≠ 0 ∧ kstack ≠ pgdir ∧
        start.pt.proc 0 = initcode kstack pgdir ∧
        (∀ slot, slot ≠ 0 → start.pt.proc slot = {}) ∧
        ∀ page, start.pt.pages page = true ↔ page = kstack ∨ page = pgdir := by
  obtain ⟨past, kstack, pgdir, started, idle⟩ := boot
  have found : (zeroed past).allocproc =
      some (0, { (zeroed past).modify 0 fun entry =>
        { entry with state := .embryo, pid := 1 } with nextpid := 2 }) := rfl
  unfold userinit at started
  rw [found] at started
  simp only at started
  split at started
  · cases started
  · next pt first =>
    have one := Ptable.kalloc_some first
    split at started
    · cases started
    · next pt' second =>
      have two := Ptable.kalloc_some second
      simp only [Option.ite_none_left_eq_some, not_or, Option.some.injEq] at started
      obtain ⟨⟨stack, space⟩, same⟩ := started
      have table : pt'.proc = Table.set (fun _ => {}) 0 fun entry =>
          { entry with state := .embryo, pid := 1, kstack := kstack } := by
        rw [two.1, Ptable.allocKstack, if_neg stack]
        funext slot
        by_cases zero : slot = 0
        · subst zero
          simp [one.1, zeroed]
        · simp [Ptable.modify_of_ne zero, Table.set_of_ne zero, one.1, zeroed]
      have pages : pt.pages pgdir = false := by
        simpa [Ptable.allocKstack, stack] using two.2.2.2.2.1 space
      rw [← same]
      refine ⟨idle, rfl, ?_, kstack, pgdir, stack, space, ?_, ?_, ?_, ?_⟩
      · simp [two.2.2.2.1, Ptable.allocKstack, stack, one.2.2.2.1]
      · rintro rfl
        simp [one.2.2.2.2.2, stack] at pages
      · simp [table, initcode]
      · intro slot other
        simp [Ptable.modify_of_ne other, table, Table.set_of_ne other]
      · intro page
        simp [two.2.2.2.2.2, Ptable.allocKstack, stack, space, one.2.2.2.2.2, zeroed]
        tauto

/-- The invariant holds after `userinit`. -/
theorem wf_boot (boot : Boot start) : Wf start := by
  obtain ⟨idle, init, nextpid, kstack, pgdir, -, -, -, first, others, -⟩ := boot_table boot
  have user : ∀ slot, start.pc slot = .user := fun slot => by rw [idle]
  have pid : ∀ slot, (start.pt.proc slot).pid = if slot = 0 then 1 else 0 := by
    intro slot
    by_cases zero : slot = 0
    · subst zero
      simp [first, initcode]
    · simp [others slot zero, zero]
  have unused : ∀ slot, slot ≠ 0 → (start.pt.proc slot).state = .unused := by
    intro slot other
    rw [others slot other]
  exact {
    placed := by
      intro slot
      rw [user]
      by_cases zero : slot = 0
      · subst zero
        simp [Placed, first, initcode]
      · simp [Placed, others slot zero]
    creates := by simp [user]
    creator := by simp [user]
    init := by simp [init, first, initcode]
    parent := by
      intro slot other used
      exact absurd (unused slot (init ▸ other)) used
    root := by simp [init, first, initcode]
    other := by
      intro slot
      by_cases zero : slot = 0
      · subst zero
        simp [first, initcode]
      · simp [others slot zero]
    filled := by simp [user, KernelPc.fills]
    pidBound := by
      intro slot
      rw [pid, nextpid]
      split <;> omega
    pidUnique := by
      have zero : ∀ slot, (start.pt.proc slot).pid ≠ 0 → slot = 0 := by
        intro slot nonzero
        by_contra other
        simp [pid, other] at nonzero
      intro slot other same nonzero
      rw [zero slot nonzero, zero other (same ▸ nonzero)]
    pidUsed := by
      intro slot used
      rw [pid]
      by_cases zero : slot = 0
      · simp [zero]
      · exact absurd (unused slot zero) used
    older := by simp [user] }

theorem Reachable.wf {guard : Kernel → Action → Prop} {k : Kernel}
    (reachable : Reachable guard k) : Wf k := by
  obtain ⟨start, trace, boot, run⟩ := reachable
  exact run.stateInvariant (wf_boot boot) fun wf _ taken => wf_step wf taken

end Kernel

end Xv6
