import Xv6.Kernel.System

/-!
# What a step of the kernel can do

`Kernel.Step` lists the effects of the steps with the conditions under which
they happen.  Invariants are proved by cases on it, so that the step function is
taken apart only once.
-/

namespace Xv6.Kernel

@[simp] theorem goto_pt (k : Kernel) (self : Slot) (pc : KernelPc) :
    (k.goto self pc).pt = k.pt := rfl

@[simp] theorem goto_self (k : Kernel) (self : Slot) (pc : KernelPc) :
    (k.goto self pc).pc self = pc := by
  simp [goto]

variable {pc : KernelPc}

theorem goto_of_ne {k : Kernel} {self other : Slot}
    (different : other ≠ self) : (k.goto self pc).pc other = k.pc other := by
  simp [goto, Table.set_of_ne different]

/-- Where a process sleeps that scans for threads, or for processes. -/
def scanPc : Bool → KernelPc
  | true => .join
  | false => .wait

/-- The pages `wait` and `join` give back. -/
def reapPages (pt : Ptable) (thread : Bool) (child : Slot) : Ptable :=
  if thread then pt.kfree (pt.proc child).kstack
  else (pt.kfree (pt.proc child).kstack).freevm (pt.proc child).pgdir

section
variable (pt : Ptable) (thread : Bool) (child : Slot)
include pt thread child

@[simp] theorem reapPages_proc : (reapPages pt thread child).proc = pt.proc := by
  unfold reapPages
  split <;> rfl

@[simp] theorem reapPages_initproc : (reapPages pt thread child).initproc = pt.initproc := by
  unfold reapPages
  split <;> rfl

@[simp] theorem reapPages_nextpid : (reapPages pt thread child).nextpid = pt.nextpid := by
  unfold reapPages
  split <;> rfl

end

/-- One pass of `join`, or of `wait`, in which a child is reaped, none counts or
the caller goes to sleep. -/
inductive Scans (k : Kernel) (self : Slot) (thread : Bool) : Kernel → Prop where
  | reaps {child : Slot} : (k.pt.proc child).parent = some self →
      (k.pt.proc child).state = .zombie → (k.pt.proc child).isThread = thread →
      Scans k self thread
        ({ k with pt := (reapPages k.pt thread child).modify child Ptable.release }.goto
          self .user)
  | fails : (∀ child, (k.pt.proc child).parent = some self →
        (k.pt.proc child).state = .zombie → (k.pt.proc child).isThread ≠ thread) →
      Scans k self thread (k.goto self .user)
  | sleeps : (∀ child, (k.pt.proc child).parent = some self →
        (k.pt.proc child).state = .zombie → (k.pt.proc child).isThread ≠ thread) →
      Scans k self thread
        ({ k with pt := k.pt.sleep self (.proc self) }.goto self (scanPc thread))

theorem scans_wait (k : Kernel) (self : Slot) :
    Scans k self false (k.scanned self .wait (k.pt.waitScan self)) := by
  rcases k.pt.scan_cases self (fun entry => !entry.isThread) (fun _ => true)
      (fun child =>
        (((k.pt.kfree (k.pt.proc child).kstack).freevm (k.pt.proc child).pgdir).modify
          child Ptable.release, .reaped (k.pt.proc child).pid 0)) with
    ⟨child, parent, dead, process, outcome⟩ | ⟨none, outcome | outcome⟩
  · rw [scanned, Ptable.waitScan, outcome]
    exact .reaps parent dead (by simpa using process)
  · rw [scanned, Ptable.waitScan, outcome]
    exact .fails fun child parent dead => by simpa using none child parent dead
  · rw [scanned, Ptable.waitScan, outcome]
    exact .sleeps fun child parent dead => by simpa using none child parent dead

theorem scans_join (k : Kernel) (self : Slot) :
    Scans k self true (k.scanned self .join (k.pt.joinScan self)) := by
  rcases k.pt.scan_cases self (fun entry => entry.isThread) (fun entry => entry.isThread)
      (fun child =>
        ((k.pt.kfree (k.pt.proc child).kstack).modify child Ptable.release,
          .reaped (k.pt.proc child).pid (k.pt.proc child).bsp)) with
    ⟨child, parent, dead, thread, outcome⟩ | ⟨none, outcome | outcome⟩
  · rw [scanned, Ptable.joinScan, outcome]
    exact .reaps parent dead thread
  · rw [scanned, Ptable.joinScan, outcome]
    exact .fails fun child parent dead => by simpa using none child parent dead
  · rw [scanned, Ptable.joinScan, outcome]
    exact .sleeps fun child parent dead => by simpa using none child parent dead

/-- The call that scans for threads, or for processes. -/
def scanAction (self : Slot) : Bool → Action
  | true => .join self
  | false => .wait self

/-- The effects of the steps. -/
inductive Step (k : Kernel) : Action → Kernel → Prop where
  | resumes {slot : Slot} : (k.pt.proc slot).state = .runnable →
      k.pc slot ≠ .sleep → k.pc slot ≠ .park → k.pc slot ≠ .wait → k.pc slot ≠ .join →
      Step k (.dispatch slot) { k with pt := k.pt.dispatch slot }
  | wakes {slot : Slot} : (k.pt.proc slot).state = .runnable → k.pc slot = .sleep →
      Step k (.dispatch slot)
        ({ k with pt := (k.pt.dispatch slot).awake slot }.goto slot .user)
  | leavesPark {slot : Slot} : (k.pt.proc slot).state = .runnable → k.pc slot = .park →
      Step k (.dispatch slot) ({ k with pt := k.pt.dispatch slot }.goto slot .user)
  | rescans {slot : Slot} {thread : Bool} {k' : Kernel} :
      (k.pt.proc slot).state = .runnable → k.pc slot = scanPc thread →
      Scans { k with pt := (k.pt.dispatch slot).awake slot } slot thread k' →
      Step k (.dispatch slot) k'
  | yields {self : Slot} : (k.pt.proc self).state = .running →
      Step k (.yield self) { k with pt := k.pt.yield self }
  | full {self : Slot} {kind : Spawn} : k.At self .user →
      (∀ slot, (k.pt.proc slot).state ≠ .unused) → Step k (.spawn self kind) k
  | takes {self np : Slot} {kind : Spawn} : k.At self .user → k.pt.nextpid < intMax →
      Table.find (fun slot => decide ((k.pt.proc slot).state = .unused)) = some np →
      (k.pt.proc np).state = .unused →
      Step k (.spawn self kind)
        (({ k with pt := { k.pt.modify np fun entry =>
            { entry with state := .embryo, pid := k.pt.nextpid } with
              nextpid := k.pt.nextpid + 1 } }.goto np .user).goto self (.kstack np kind))
  | stackless {self np : Slot} {kind : Spawn} : k.At self (.kstack np kind) →
      Step k (.kstack self 0)
        ({ k with pt := k.pt.modify np fun entry =>
            { entry with kstack := 0, state := .unused } }.goto self .user)
  | stacked {self np : Slot} {kind : Spawn} {page : Nat} {pt : Ptable} :
      k.At self (.kstack np kind) → page ≠ 0 → k.pt.kalloc page = some pt →
      Step k (.kstack self page)
        ({ k with pt := pt.modify np fun entry => { entry with kstack := page } }.goto
          self (.copy np kind))
  | uncopied {self np : Slot} : k.At self (.copy np .fork) →
      Step k (.copyuvm self 0) ({ k with pt := k.pt.abandonFork np }.goto self .user)
  | copies {self np : Slot} {pgdir : Nat} {pt : Ptable} :
      k.At self (.copy np .fork) → pgdir ≠ 0 → k.pt.kalloc pgdir = some pt →
      Step k (.copyuvm self pgdir)
        ({ k with pt := pt.forkCopy self np pgdir }.goto self (.publish np))
  | shares {self np : Slot} {fn ustack : Nat} : k.At self (.copy np (.clone fn ustack)) →
      Step k (.share self)
        ({ k with pt := k.pt.cloneCopy self np }.goto self (.copyout np fn ustack))
  | unmapped {self np : Slot} {fn ustack : Nat} : k.At self (.copyout np fn ustack) →
      Step k (.copyout self false) ({ k with pt := k.pt.abandon np }.goto self .user)
  | mapped {self np : Slot} {fn ustack : Nat} : k.At self (.copyout np fn ustack) →
      Step k (.copyout self true)
        ({ k with pt := k.pt.cloneStack np fn ustack }.goto self (.publish np))
  | publishes {self np : Slot} : k.At self (.publish np) →
      Step k (.publish self) ({ k with pt := k.pt.publish self np }.goto self .user)
  | exits {self : Slot} : k.At self .user → self ≠ k.pt.initproc →
      Step k (.exit self) { k with pt := k.pt.exit self }
  | scans {self : Slot} {thread : Bool} {action : Action} {k' : Kernel} :
      action = scanAction self thread → k.At self .user → Scans k self thread k' →
      Step k action k'
  | execs {self : Slot} {image : Ptable.Image} {pt : Ptable} : k.At self .user →
      image.pgdir ≠ 0 → image.sz ≤ usertop → k.pt.kalloc image.pgdir = some pt →
      Step k (.exec self image) { k with pt := pt.exec self image }
  | sbrks {self : Slot} {n : Int} : k.At self .user → IsInt n →
      Step k (.sbrk self n) (k.goto self (.sbrk n (k.pt.proc self).sz))
  | ungrown {self : Slot} {n : Int} {addr : Nat} {memory : Bool} :
      k.At self (.sbrk n addr) →
      n ≠ 0 ∧ Ptable.grownSize (k.pt.proc self).sz n memory = 0 →
      Step k (.growproc self memory) (k.goto self .user)
  | grows {self : Slot} {n : Int} {addr : Nat} {memory : Bool} :
      k.At self (.sbrk n addr) →
      ¬(n ≠ 0 ∧ Ptable.grownSize (k.pt.proc self).sz n memory = 0) →
      Step k (.growproc self memory)
        ({ k with pt := (k.pt.growproc self n memory).1 }.goto self .user)
  | armed {self : Slot} : k.At self .user →
      ¬((k.pt.proc self).immediateUnpark = false ∧ (k.pt.proc self).setPark = false) →
      Step k (.setpark self) k
  | arms {self : Slot} : k.At self .user →
      (k.pt.proc self).immediateUnpark = false → (k.pt.proc self).setPark = false →
      Step k (.setpark self)
        { k with pt := k.pt.modify self fun entry => { entry with setPark := true } }
  | parks {self : Slot} : k.At self .user → (k.pt.proc self).immediateUnpark = false →
      Step k (.park self)
        ({ k with pt := k.pt.modify self fun entry =>
            { entry with state := .sleeping, isParked := true, setPark := false } }.goto
          self .park)
  | skipsPark {self : Slot} : k.At self .user → (k.pt.proc self).immediateUnpark = true →
      Step k (.park self)
        ({ k with pt := k.pt.modify self fun entry =>
            { entry with immediateUnpark := false, setPark := false } }.goto self .user)
  | unparksNone {self : Slot} {pid : Int} {past : Proc} : k.At self .user →
      Step k (.unpark self pid) { k with pt := { k.pt with past := past } }
  | notesUnpark {self slot : Slot} {pid : Int} : k.At self .user →
      (k.pt.proc slot).pid = pid → (k.pt.proc slot).setPark = true →
      (k.pt.proc slot).isParked = false →
      Step k (.unpark self pid)
        { k with pt := k.pt.modify slot fun entry => { entry with immediateUnpark := true } }
  | unparks {self slot : Slot} {pid : Int} : k.At self .user →
      (k.pt.proc slot).pid = pid → (k.pt.proc slot).state = .sleeping →
      (k.pt.proc slot).isParked = true →
      Step k (.unpark self pid)
        { k with pt := k.pt.modify slot fun entry =>
            { entry with state := .runnable, isParked := false } }
  | killsNone {self : Slot} {pid : Int} : k.At self .user → Step k (.kill self pid) k
  | kills {self slot : Slot} {pid : Int} : k.At self .user →
      Table.find (fun slot => decide ((k.pt.proc slot).pid = pid)) = some slot →
      Step k (.kill self pid)
        { k with pt := k.pt.modify slot fun entry =>
            { entry with
              killed := true
              state := if entry.state = .sleeping then .runnable else entry.state } }
  | sleeps {self : Slot} {object : KernelObject} : k.At self .user →
      Step k (.sleep self object)
        ({ k with pt := k.pt.sleep self (.object object) }.goto self .sleep)
  | wakesUp {object : KernelObject} :
      Step k (.wakeup object) { k with pt := k.pt.wakeup (.object object) }

variable {k k' : Kernel} {self : Slot} {action : Action} {slot : Slot} {pid : Int}

private theorem step_dispatch
    (taken : k.step (.dispatch slot) = some k') : Step k (.dispatch slot) k' := by
  simp only [step, Option.ite_none_right_eq_some, Option.some.injEq] at taken
  obtain ⟨runnable, rfl⟩ := taken
  unfold resume
  split
  next pc => exact .wakes runnable pc
  next pc => exact .leavesPark runnable pc
  next pc => exact @Step.rescans k slot false _ runnable pc (scans_wait _ slot)
  next pc => exact @Step.rescans k slot true _ runnable pc (scans_join _ slot)
  next sleep park wait join => exact .resumes runnable sleep park wait join

private theorem step_spawn {kind : Spawn}
    (taken : k.spawn self kind = some k') : Step k (.spawn self kind) k' := by
  simp only [spawn, Option.ite_none_right_eq_some] at taken
  obtain ⟨⟨here, bound⟩, taken⟩ := taken
  unfold Ptable.allocproc at taken
  cases found : Table.find fun slot => decide ((k.pt.proc slot).state = .unused) with
  | none =>
    simp only [found, Option.some.injEq] at taken
    subst taken
    exact .full here fun slot => by simpa using Table.find_eq_none.mp found slot
  | some np =>
    simp only [found, Option.some.injEq] at taken
    subst taken
    exact .takes here bound found (of_decide_eq_true (Table.find_some found))

private theorem step_kstack {page : Nat}
    (taken : k.kstack self page = some k') : Step k (.kstack self page) k' := by
  unfold kstack at taken
  split at taken
  next np kind pt pc allocated =>
    simp only [Option.ite_none_right_eq_some, Option.some.injEq] at taken
    obtain ⟨running, rfl⟩ := taken
    by_cases null : page = 0
    · subst null
      obtain rfl : k.pt = pt := by simpa [Ptable.kalloc] using allocated
      simpa [Ptable.allocKstack] using
        Step.stackless (k := k) ⟨running, pc⟩
    · simpa [Ptable.allocKstack, null] using
        Step.stacked ⟨running, pc⟩ null allocated
  next => cases taken

private theorem step_copyuvm {pgdir : Nat}
    (taken : k.copyuvm self pgdir = some k') : Step k (.copyuvm self pgdir) k' := by
  unfold copyuvm at taken
  split at taken
  next np pt pc allocated =>
    simp only [Option.ite_none_right_eq_some] at taken
    obtain ⟨running, taken⟩ := taken
    split at taken
    next null =>
      subst null
      obtain rfl : k.pt = pt := by simpa [Ptable.kalloc] using allocated
      cases taken
      exact .uncopied ⟨running, pc⟩
    next nonnull =>
      cases taken
      exact .copies ⟨running, pc⟩ nonnull allocated
  next => cases taken

private theorem step_share (taken : k.share self = some k') : Step k (.share self) k' := by
  unfold share at taken
  split at taken
  next np fn ustack pc =>
    simp only [Option.ite_none_right_eq_some, Option.some.injEq] at taken
    obtain ⟨running, rfl⟩ := taken
    exact .shares ⟨running, pc⟩
  next => cases taken

private theorem step_copyout {mapped : Bool}
    (taken : k.copyout self mapped = some k') : Step k (.copyout self mapped) k' := by
  unfold copyout at taken
  split at taken
  next np fn ustack pc =>
    simp only [Option.ite_none_right_eq_some] at taken
    obtain ⟨running, taken⟩ := taken
    cases mapped with
    | true =>
      simp only [if_true, Option.some.injEq] at taken
      subst taken
      exact .mapped ⟨running, pc⟩
    | false =>
      simp only [Bool.false_eq_true, if_false, Option.some.injEq] at taken
      subst taken
      exact .unmapped ⟨running, pc⟩
  next => cases taken

private theorem step_publish (taken : k.publish self = some k') : Step k (.publish self) k' := by
  unfold publish at taken
  split at taken
  next np pc =>
    simp only [Option.ite_none_right_eq_some, Option.some.injEq] at taken
    obtain ⟨running, rfl⟩ := taken
    exact .publishes ⟨running, pc⟩
  next => cases taken

private theorem step_exec {image : Ptable.Image}
    (taken : k.exec self image = some k') : Step k (.exec self image) k' := by
  unfold exec at taken
  split at taken
  next pt allocated =>
    simp only [Option.ite_none_right_eq_some, Option.some.injEq] at taken
    obtain ⟨⟨here, nonnull, bound⟩, rfl⟩ := taken
    exact .execs here nonnull bound allocated
  next => cases taken

private theorem step_growproc {memory : Bool}
    (taken : k.growproc self memory = some k') : Step k (.growproc self memory) k' := by
  unfold growproc at taken
  split at taken
  next n addr pc =>
    simp only [Option.ite_none_right_eq_some, Option.some.injEq] at taken
    obtain ⟨running, rfl⟩ := taken
    by_cases fails : n ≠ 0 ∧ Ptable.grownSize (k.pt.proc self).sz n memory = 0
    · rw [Ptable.growproc, if_pos fails]
      exact .ungrown ⟨running, pc⟩ fails
    · exact .grows ⟨running, pc⟩ fails
  next => cases taken

private theorem step_setpark
    (taken : k.step (.setpark self) = some k') : Step k (.setpark self) k' := by
  simp only [step, call, Option.ite_none_right_eq_some, Option.some.injEq] at taken
  obtain ⟨here, rfl⟩ := taken
  unfold Ptable.setpark
  split
  next clear => exact .arms here clear.1 clear.2
  next set => exact .armed here set

private theorem step_park (taken : k.step (.park self) = some k') : Step k (.park self) k' := by
  simp only [step, Option.ite_none_right_eq_some, Option.some.injEq] at taken
  obtain ⟨here, rfl⟩ := taken
  cases pending : (k.pt.proc self).immediateUnpark with
  | false =>
    have table : k.pt.park self = k.pt.modify self fun entry =>
        { entry with state := .sleeping, isParked := true, setPark := false } :=
      Ptable.modify_congr (by simp [pending])
    simpa [table] using Step.parks here pending
  | true =>
    have table : k.pt.park self = k.pt.modify self fun entry =>
        { entry with immediateUnpark := false, setPark := false } :=
      Ptable.modify_congr (by simp [pending])
    simpa [table, here.1] using Step.skipsPark here pending

private theorem step_unpark
    (taken : k.step (.unpark self pid) = some k') : Step k (.unpark self pid) k' := by
  simp only [step, call, Option.ite_none_right_eq_some, Option.some.injEq] at taken
  obtain ⟨here, rfl⟩ := taken
  rcases k.pt.unpark_cases pid with
    same | past | ⟨slot, isPid, set, awake, noted⟩ | ⟨slot, isPid, asleep, parked, woken⟩
  · rw [same]
    exact @Step.unparksNone k self pid k.pt.past here
  · rw [past]
    exact .unparksNone here
  · rw [noted]
    exact .notesUnpark here isPid set awake
  · rw [woken]
    exact .unparks here isPid asleep parked

private theorem step_kill
    (taken : k.step (.kill self pid) = some k') : Step k (.kill self pid) k' := by
  simp only [step, call, Option.ite_none_right_eq_some, Option.some.injEq] at taken
  obtain ⟨here, rfl⟩ := taken
  rcases k.pt.kill_cases pid with same | ⟨slot, found, -, killed⟩
  · rw [same]
    exact .killsNone here
  · rw [killed]
    exact .kills here found

theorem step_effect (taken : k.step action = some k') : Step k action k' := by
  cases action with
  | dispatch => exact step_dispatch taken
  | spawn => exact step_spawn taken
  | kstack => exact step_kstack taken
  | copyuvm => exact step_copyuvm taken
  | share => exact step_share taken
  | copyout => exact step_copyout taken
  | publish => exact step_publish taken
  | exec => exact step_exec taken
  | growproc => exact step_growproc taken
  | setpark => exact step_setpark taken
  | park => exact step_park taken
  | unpark => exact step_unpark taken
  | kill => exact step_kill taken
  | yield self =>
    simp only [step, Option.ite_none_right_eq_some, Option.some.injEq] at taken
    obtain ⟨running, rfl⟩ := taken
    exact .yields running
  | exit self =>
    simp only [step, call, Option.ite_none_left_eq_some,
      Option.ite_none_right_eq_some, Option.some.injEq] at taken
    obtain ⟨other, here, rfl⟩ := taken
    exact .exits here other
  | wait self =>
    simp only [step, Option.ite_none_right_eq_some, Option.some.injEq] at taken
    obtain ⟨here, rfl⟩ := taken
    exact @Step.scans k self false _ _ rfl here (scans_wait k self)
  | join self =>
    simp only [step, Option.ite_none_right_eq_some, Option.some.injEq] at taken
    obtain ⟨here, rfl⟩ := taken
    exact @Step.scans k self true _ _ rfl here (scans_join k self)
  | sbrk self n =>
    simp only [step, Option.ite_none_right_eq_some, Option.some.injEq] at taken
    obtain ⟨⟨here, isInt⟩, rfl⟩ := taken
    exact .sbrks here isInt
  | sleep self object =>
    simp only [step, Option.ite_none_right_eq_some, Option.some.injEq] at taken
    obtain ⟨here, rfl⟩ := taken
    exact .sleeps here
  | wakeup object =>
    simp only [step, Option.some.injEq] at taken
    subst taken
    exact .wakesUp

/-! ## One slot at a time -/

@[simp] theorem creates_user : KernelPc.user.creates = none := rfl

@[simp] theorem creates_kstack (np : Slot) (kind : Spawn) :
    (KernelPc.kstack np kind).creates = some np := rfl

@[simp] theorem creates_copy (np : Slot) (kind : Spawn) :
    (KernelPc.copy np kind).creates = some np := rfl

@[simp] theorem creates_copyout (np : Slot) (fn ustack : Nat) :
    (KernelPc.copyout np fn ustack).creates = some np := rfl

@[simp] theorem creates_publish (np : Slot) : (KernelPc.publish np).creates = some np := rfl

/-- What a step from `k` to `k'` can do to one slot: the new entry and the new
place of the process, in terms of the old ones. -/
inductive Move (k k' : Kernel) (slot : Slot) : Action → Proc → KernelPc → Prop where
  | stays {action : Action} : Move k k' slot action (k.pt.proc slot) (k.pc slot)
  | resumes : (k.pt.proc slot).state = .runnable →
      k.pc slot ≠ .sleep → k.pc slot ≠ .park → k.pc slot ≠ .wait → k.pc slot ≠ .join →
      Move k k' slot (.dispatch slot) { k.pt.proc slot with state := .running } (k.pc slot)
  | wakes : (k.pt.proc slot).state = .runnable →
      k.pc slot = .sleep ∨ k.pc slot = .wait ∨ k.pc slot = .join →
      Move k k' slot (.dispatch slot)
        { k.pt.proc slot with state := .running, chan := .null } .user
  | leavesPark : (k.pt.proc slot).state = .runnable → k.pc slot = .park →
      Move k k' slot (.dispatch slot) { k.pt.proc slot with state := .running } .user
  | waits {action : Action} {thread : Bool} :
      (k.pt.proc slot).state = .runnable ∧ k.pc slot = scanPc thread ∨ k.At slot .user →
      (∀ child, (k.pt.proc child).parent = some slot →
        (k.pt.proc child).state = .zombie → (k.pt.proc child).isThread ≠ thread) →
      (k.pt.proc slot).state = .runnable ∨ action = .wait slot ∨ action = .join slot →
      Move k k' slot action
        { k.pt.proc slot with state := .sleeping, chan := .proc slot } (scanPc thread)
  | reaped {action : Action} : (k.pt.proc slot).state = .zombie →
      Move k k' slot action (Ptable.release (k.pt.proc slot)) (k.pc slot)
  | yields : (k.pt.proc slot).state = .running →
      Move k k' slot (.yield slot) { k.pt.proc slot with state := .runnable } (k.pc slot)
  | taken {self : Slot} {kind : Spawn} : (k.pt.proc slot).state = .unused →
      Move k k' slot (.spawn self kind)
        { k.pt.proc slot with state := .embryo, pid := k.pt.nextpid } .user
  | spawns {np : Slot} {kind : Spawn} : k.At slot .user →
      (k.pt.proc np).state = .unused → (k'.pt.proc np).state = .embryo →
      Move k k' slot (.spawn slot kind) (k.pt.proc slot) (.kstack np kind)
  | getsStack {np : Slot} {kind : Spawn} {page : Nat} : k.At slot (.kstack np kind) →
      Move k k' slot (.kstack slot page) (k.pt.proc slot) (.copy np kind)
  | copies {np : Slot} {pgdir : Nat} : k.At slot (.copy np .fork) → pgdir ≠ 0 →
      (k'.pt.proc np).parent = some slot → (k'.pt.proc np).isThread = false →
      (k'.pt.proc np).pgdir = pgdir →
      Move k k' slot (.copyuvm slot pgdir) (k.pt.proc slot) (.publish np)
  | shares {np : Slot} {fn ustack : Nat} : k.At slot (.copy np (.clone fn ustack)) →
      (k'.pt.proc np).parent = some slot → (k'.pt.proc np).isThread = true →
      (k'.pt.proc np).pgdir = (k.pt.proc slot).pgdir →
      (k'.pt.proc np).sz = (k.pt.proc slot).sz →
      Move k k' slot (.share slot) (k.pt.proc slot) (.copyout np fn ustack)
  | maps {np : Slot} {fn ustack : Nat} : k.At slot (.copyout np fn ustack) →
      Move k k' slot (.copyout slot true) (k.pt.proc slot) (.publish np)
  /-- `fork`, `clone` or `sys_sbrk` returns. -/
  | returns {action : Action} : (k.pt.proc slot).state = .running →
      (k.pc slot).creates ≠ none ∨ (∃ n addr, k.pc slot = .sbrk n addr) →
      (∀ np, (k.pc slot).creates = some np → (k'.pt.proc np).state ≠ .embryo) →
      Move k k' slot action (k.pt.proc slot) .user
  | sbrks {n : Int} : k.At slot .user → IsInt n →
      Move k k' slot (.sbrk slot n) (k.pt.proc slot) (.sbrk n (k.pt.proc slot).sz)
  | abandoned {action : Action} {self : Slot} {pgdir : Nat} :
      (k.pc self).creates = some slot → (k'.pc self).creates = none →
      pgdir = (k.pt.proc slot).pgdir ∨ pgdir = 0 →
      (∃ kind, k.pc self = .kstack slot kind) ∨ (∃ kind, k.pc self = .copy slot kind) ∨
        action = .copyout self false →
      Move k k' slot action
        { k.pt.proc slot with pgdir := pgdir, kstack := 0, state := .unused } (k.pc slot)
  | stacked {self : Slot} {kind : Spawn} {page : Nat} : k.pc self = .kstack slot kind →
      Move k k' slot (.kstack self page) { k.pt.proc slot with kstack := page } (k.pc slot)
  | forked {self : Slot} {pgdir : Nat} : k.At self (.copy slot .fork) →
      k'.pc self = .publish slot →
      Move k k' slot (.copyuvm self pgdir)
        { k.pt.proc slot with
          pgdir := pgdir
          sz := (k.pt.proc self).sz
          parent := some self
          tf := { (k.pt.proc self).tf with eax := 0 }
          isThread := false
          ofile := Ptable.dupFiles (k.pt.proc self) (k.pt.proc slot)
          cwd := (k.pt.proc self).cwd } (k.pc slot)
  | cloned {self : Slot} {fn ustack : Nat} : k.At self (.copy slot (.clone fn ustack)) →
      k'.pc self = .copyout slot fn ustack →
      Move k k' slot (.share self)
        { k.pt.proc slot with
          isThread := true
          pgdir := (k.pt.proc self).pgdir
          sz := (k.pt.proc self).sz
          parent := some self
          tf := (k.pt.proc self).tf
          ofile := Ptable.dupFiles (k.pt.proc self) (k.pt.proc slot)
          cwd := (k.pt.proc self).cwd } (k.pc slot)
  | started {self : Slot} {fn ustack : Nat} : k.At self (.copyout slot fn ustack) →
      Move k k' slot (.copyout self true)
        { k.pt.proc slot with
          tf := { (k.pt.proc slot).tf with
            eip := fn, esp := toUint (ustack + 4096 - 12) }
          bsp := ustack } (k.pc slot)
  | published {self : Slot} : k.At self (.publish slot) →
      (k'.pc self).creates = none →
      Move k k' slot (.publish self)
        { k.pt.proc slot with state := .runnable, name := (k.pt.proc self).name }
        (k.pc slot)
  | exits : k.At slot .user → slot ≠ k.pt.initproc →
      Move k k' slot (.exit slot)
        { k.pt.proc slot with
          ofile := fun _ => none
          cwd := none
          parent := k.pt.heir slot (k.pt.proc slot)
          state := .zombie } (k.pc slot)
  | orphaned {self : Slot} : k.At self .user → slot ≠ self → self ≠ k.pt.initproc →
      Move k k' slot (.exit self)
        { k.pt.proc slot with
          parent := k.pt.heir self (k.pt.proc slot)
          state := if k.pt.ExitWakes self (k.pt.proc slot) then .runnable
            else (k.pt.proc slot).state } (k.pc slot)
  | execs {image : Ptable.Image} : k.At slot .user → image.sz ≤ usertop →
      Move k k' slot (.exec slot image)
        { k.pt.proc slot with
          name := image.name
          pgdir := image.pgdir
          sz := image.sz
          tf := { (k.pt.proc slot).tf with eip := image.entry, esp := image.sp } }
        (k.pc slot)
  | resized {self : Slot} {memory : Bool} {sz : Nat} {pc : KernelPc} :
      pc = k.pc slot ∨
        (k.pt.proc slot).state = .running ∧ (∃ n addr, k.pc slot = .sbrk n addr) ∧
          pc = .user →
      sz = (k.pt.proc slot).sz ∨
        (∃ n, sz = Ptable.grownSize (k.pt.proc self).sz n memory) →
      Move k k' slot (.growproc self memory) { k.pt.proc slot with sz := sz } pc
  | arms : k.At slot .user → (k.pt.proc slot).immediateUnpark = false →
      Move k k' slot (.setpark slot) { k.pt.proc slot with setPark := true } (k.pc slot)
  | parks : k.At slot .user → (k.pt.proc slot).immediateUnpark = false →
      Move k k' slot (.park slot)
        { k.pt.proc slot with state := .sleeping, isParked := true, setPark := false } .park
  | skipsPark : k.At slot .user → (k.pt.proc slot).immediateUnpark = true →
      Move k k' slot (.park slot)
        { k.pt.proc slot with immediateUnpark := false, setPark := false } .user
  | noted {self : Slot} {pid : Int} : (k.pt.proc slot).pid = pid →
      (k.pt.proc slot).setPark = true → (k.pt.proc slot).isParked = false →
      Move k k' slot (.unpark self pid)
        { k.pt.proc slot with immediateUnpark := true } (k.pc slot)
  | unparked {self : Slot} {pid : Int} : (k.pt.proc slot).pid = pid →
      (k.pt.proc slot).state = .sleeping → (k.pt.proc slot).isParked = true →
      Move k k' slot (.unpark self pid)
        { k.pt.proc slot with state := .runnable, isParked := false } (k.pc slot)
  | killed {self : Slot} {pid : Int} :
      Table.find (fun slot => decide ((k.pt.proc slot).pid = pid)) = some slot →
      Move k k' slot (.kill self pid)
        { k.pt.proc slot with
          killed := true
          state := if (k.pt.proc slot).state = .sleeping then .runnable
            else (k.pt.proc slot).state } (k.pc slot)
  | sleeps {object : KernelObject} : k.At slot .user →
      Move k k' slot (.sleep slot object)
        { k.pt.proc slot with chan := .object object, state := .sleeping } .sleep
  | woken {object : KernelObject} : (k.pt.proc slot).state = .sleeping →
      (k.pt.proc slot).chan = .object object →
      Move k k' slot (.wakeup object) { k.pt.proc slot with state := .runnable } (k.pc slot)

theorem Move.of_eq {entry entry' : Proc}
    {pc pc' : KernelPc} (move : Move k k' slot action entry pc) (sameEntry : entry' = entry)
    (samePc : pc' = pc) : Move k k' slot action entry' pc' := by
  subst sameEntry samePc
  exact move

section StepMove

variable {change : Proc → Proc}

private theorem scans_move {base : Ptable} {thread : Bool}
    (scans : Scans { k with pt := base } self thread k')
    (running : (base.proc self).state = .running)
    (others : ∀ other, other ≠ self → base.proc other = k.pt.proc other)
    (mine : Move k k' self action (base.proc self) .user)
    (asleep : (∀ child, (base.proc child).parent = some self →
        (base.proc child).state = .zombie → (base.proc child).isThread ≠ thread) →
      Move k k' self action
        { base.proc self with state := .sleeping, chan := .proc self } (scanPc thread)) :
    Move k k' slot action (k'.pt.proc slot) (k'.pc slot) := by
  by_cases same : slot = self
  · subst same
    cases scans with
    | @reaps child parent dead kind =>
      have different : slot ≠ child := by
        rintro rfl
        simp [running] at dead
      exact mine.of_eq (by simp [Ptable.modify_of_ne different]) (by simp)
    | fails none => exact mine.of_eq rfl (by simp)
    | sleeps none => exact (asleep none).of_eq (by simp [Ptable.sleep]) (by simp)
  · cases scans with
    | @reaps child parent dead kind =>
      by_cases reaped : slot = child
      · subst reaped
        simp only [others slot same] at dead
        exact (Move.reaped dead).of_eq (by simp [others slot same]) (goto_of_ne same)
      · exact Move.stays.of_eq
          (by simp [Ptable.modify_of_ne reaped, others slot same]) (goto_of_ne same)
    | fails none => exact Move.stays.of_eq (by simp [others slot same]) (goto_of_ne same)
    | sleeps none =>
      exact Move.stays.of_eq
        (by simp [Ptable.sleep, Ptable.modify_of_ne same, others slot same])
        (goto_of_ne same)

private theorem modify_own (moved : Move k k' self action (change (k.pt.proc self)) pc) :
    Move k k' slot action (({ k with pt := k.pt.modify self change }.goto self pc).pt.proc slot)
      (({ k with pt := k.pt.modify self change }.goto self pc).pc slot) := by
  by_cases isSelf : slot = self
  · subst isSelf
    exact moved.of_eq (by simp) (by simp)
  · exact Move.stays.of_eq (by simp [Ptable.modify_of_ne isSelf]) (goto_of_ne isSelf)

private theorem modify_other {pt : Ptable} {self target slot : Slot}
    (table : pt.proc = k.pt.proc) (different : target ≠ self)
    (mine : Move k k' self action (k.pt.proc self) pc)
    (changed : Move k k' target action (change (k.pt.proc target)) (k.pc target)) :
    Move k k' slot action (({ k with pt := pt.modify target change }.goto self pc).pt.proc slot)
      (({ k with pt := pt.modify target change }.goto self pc).pc slot) := by
  by_cases isSelf : slot = self
  · subst isSelf
    exact mine.of_eq (by simp [Ptable.modify_of_ne different.symm, table]) (by simp)
  · by_cases isTarget : slot = target
    · subst isTarget
      exact changed.of_eq (by simp [table]) (goto_of_ne isSelf)
    · exact Move.stays.of_eq (by simp [Ptable.modify_of_ne isTarget, table])
        (goto_of_ne isSelf)

private theorem modify_stays {target slot : Slot}
    (changed : Move k k' target action (change (k.pt.proc target)) (k.pc target)) :
    Move k k' slot action ((k.pt.modify target change).proc slot) (k.pc slot) := by
  by_cases isTarget : slot = target
  · subst isTarget
    exact changed.of_eq (by simp) rfl
  · exact Move.stays.of_eq (by simp [Ptable.modify_of_ne isTarget]) rfl

/-- What a step does to each slot.  A slot under creation is an embryo, hence not
its creator. -/
theorem step_move (step : Step k action k')
    (embryo : ∀ self np, (k.pc self).creates = some np → (k.pt.proc np).state = .embryo)
    (slot : Slot) : Move k k' slot action (k'.pt.proc slot) (k'.pc slot) := by
  have foreign : ∀ {self np : Slot}, (k.pt.proc self).state = .running →
      (k.pc self).creates = some np → np ≠ self := by
    intro self np running creating same
    have := embryo self np creating
    simp [same, running] at this
  have alone : ∀ {self np : Slot}, (k.pc self).creates = some np →
      (k'.pt.proc np).state ≠ .embryo → ∀ other, (k.pc self).creates = some other →
      (k'.pt.proc other).state ≠ .embryo := by
    intro self np creating done other isNew
    rwa [← Option.some.inj (creating.symm.trans isNew)]
  -- `wakes` and `rescans` run a slot that was asleep
  have woken : ∀ {self other : Slot}, other ≠ self →
      ((k.pt.dispatch self).awake self).proc other = k.pt.proc other := by
    intro self other different
    simp [Ptable.dispatch, Ptable.awake, Ptable.modify_of_ne different]
  cases step with
  | @resumes self runnable sleep park wait join =>
    exact modify_stays (.resumes runnable sleep park wait join)
  | @wakes self runnable pc =>
    by_cases same : slot = self
    · subst same
      exact (Move.wakes runnable (.inl pc)).of_eq
        (by simp [Ptable.dispatch, Ptable.awake]) (by simp)
    · exact Move.stays.of_eq (woken same) (goto_of_ne same)
  | @leavesPark self runnable pc =>
    exact modify_own (.leavesPark runnable pc)
  | @rescans self thread _ runnable pc scans =>
    refine scans_move scans (by simp [Ptable.dispatch, Ptable.awake]) (fun _ => woken) ?_ ?_
    · refine (Move.wakes runnable ?_).of_eq
        (by simp [Ptable.dispatch, Ptable.awake]) rfl
      cases thread
      · exact .inr (.inl pc)
      · exact .inr (.inr pc)
    · intro none
      refine (Move.waits (.inl ⟨runnable, pc⟩) ?_ (.inl runnable)).of_eq
        (by simp [Ptable.dispatch, Ptable.awake]) rfl
      intro child parent dead
      have different : child ≠ self := by
        rintro rfl
        simp [runnable] at dead
      simpa [woken different, parent, dead] using none child
  | @yields self running => exact modify_stays (.yields running)
  | full here none => exact .stays
  | @takes self np kind here bound found unused =>
    have different : np ≠ self := by
      rintro rfl
      simp [here.1] at unused
    by_cases isSelf : slot = self
    · subst isSelf
      exact (Move.spawns here unused (by simp)).of_eq
        (by simp [Ptable.modify_of_ne (Ne.symm different)]) (by simp)
    · by_cases isNew : slot = np
      · subst isNew
        exact (Move.taken unused).of_eq (by simp) (by simp [goto_of_ne isSelf])
      · exact Move.stays.of_eq (by simp [Ptable.modify_of_ne isNew])
          (by simp [goto_of_ne isSelf, goto_of_ne isNew])
  | @stackless self np kind here =>
    have creating : (k.pc self).creates = some np := by simp [here.2]
    exact modify_other rfl (foreign here.1 creating)
      (.returns here.1 (.inl (by simp [creating])) (alone creating (by simp)))
      (.abandoned creating (by simp) (.inl rfl) (.inl ⟨_, here.2⟩))
  | @stacked self np kind page pt here nonnull allocated =>
    exact modify_other (Ptable.kalloc_some allocated).1 (foreign here.1 (by simp [here.2]))
      (.getsStack here) (.stacked here.2)
  | @uncopied self np here =>
    have creating : (k.pc self).creates = some np := by simp [here.2]
    exact modify_other rfl (foreign here.1 creating)
      (.returns here.1 (.inl (by simp [creating])) (alone creating (by simp [Ptable.abandonFork])))
      (.abandoned creating (by simp) (.inr rfl) (.inr (.inl ⟨_, here.2⟩)))
  | @copies self np pgdir pt here nonnull allocated =>
    have table := (Ptable.kalloc_some allocated).1
    exact modify_other table (foreign here.1 (by simp [here.2]))
      (.copies here nonnull (by simp [Ptable.forkCopy]) (by simp [Ptable.forkCopy])
        (by simp [Ptable.forkCopy]))
      ((Move.forked here (by simp)).of_eq (by simp [table]) rfl)
  | @shares self np fn ustack here =>
    exact modify_other rfl (foreign here.1 (by simp [here.2]))
      (.shares here (by simp [Ptable.cloneCopy]) (by simp [Ptable.cloneCopy])
        (by simp [Ptable.cloneCopy]) (by simp [Ptable.cloneCopy]))
      (.cloned here (by simp))
  | @unmapped self np fn ustack here =>
    have creating : (k.pc self).creates = some np := by simp [here.2]
    exact modify_other rfl (foreign here.1 creating)
      (.returns here.1 (.inl (by simp [creating])) (alone creating (by simp [Ptable.abandon])))
      (.abandoned creating (by simp) (.inl rfl) (.inr (.inr rfl)))
  | @mapped self np fn ustack here =>
    exact modify_other rfl (foreign here.1 (by simp [here.2])) (.maps here) (.started here)
  | @publishes self np here =>
    exact modify_other rfl (foreign here.1 (by simp [here.2]))
      (.returns here.1 (.inl (by simp [here.2])) (by simp [here.2, Ptable.publish]))
      (.published here (by simp))
  | @exits self here other =>
    by_cases same : slot = self
    · subst same
      exact (Move.exits here other).of_eq (Ptable.exit_self k.pt slot) rfl
    · exact (Move.orphaned here same other).of_eq (Ptable.exit_other same here.1) rfl
  | @scans self thread _ _ call here scans =>
    refine scans_move scans here.1 (fun _ _ => rfl) (Move.stays.of_eq rfl here.2.symm) ?_
    intro none
    exact .waits (.inr here) none (by cases thread <;> simp [call, scanAction])
  | @execs self image pt here nonnull bound allocated =>
    have table := (Ptable.kalloc_some allocated).1
    by_cases same : slot = self
    · subst same
      exact (Move.execs here bound).of_eq (by simp [Ptable.exec, table]) rfl
    · exact Move.stays.of_eq
        (by simp [Ptable.exec, Ptable.modify_of_ne same, table]) rfl
  | @sbrks self n here isInt =>
    by_cases same : slot = self
    · subst same
      exact (Move.sbrks here isInt).of_eq rfl (by simp)
    · exact Move.stays.of_eq rfl (goto_of_ne same)
  | @ungrown self n addr memory here fails =>
    by_cases same : slot = self
    · subst same
      exact (Move.returns here.1 (.inr ⟨n, addr, here.2⟩) (by
        simp [here.2, KernelPc.creates])).of_eq rfl (by simp)
    · exact Move.stays.of_eq rfl (goto_of_ne same)
  | @grows self n addr memory here succeeds =>
    have size : ∀ slot, (if slot = self ∨
        Ptable.Resizes self (k.pt.proc self) slot (k.pt.proc slot) then
          Ptable.grownSize (k.pt.proc self).sz n memory
        else (k.pt.proc slot).sz) = (k.pt.proc slot).sz ∨
        ∃ n', (if slot = self ∨
          Ptable.Resizes self (k.pt.proc self) slot (k.pt.proc slot) then
            Ptable.grownSize (k.pt.proc self).sz n memory
          else (k.pt.proc slot).sz) = Ptable.grownSize (k.pt.proc self).sz n' memory := by
      intro slot
      split
      · exact .inr ⟨n, rfl⟩
      · exact .inl rfl
    by_cases same : slot = self
    · subst same
      exact (Move.resized (.inr ⟨here.1, ⟨n, addr, here.2⟩, rfl⟩) (size slot)).of_eq
        (Ptable.growproc_proc succeeds slot) (by simp)
    · exact (Move.resized (.inl rfl) (size slot)).of_eq
        (Ptable.growproc_proc succeeds slot) (goto_of_ne same)
  | armed here set => exact .stays
  | @arms self here clear unset => exact modify_stays (.arms here clear)
  | @parks self here clear =>
    exact modify_own (.parks here clear)
  | @skipsPark self here pending =>
    exact modify_own (.skipsPark here pending)
  | unparksNone here => exact .stays
  | notesUnpark here isPid set awake => exact modify_stays (.noted isPid set awake)
  | unparks here isPid asleep parked => exact modify_stays (.unparked isPid asleep parked)
  | killsNone here => exact .stays
  | kills here found => exact modify_stays (.killed found)
  | @sleeps self object here =>
    exact modify_own (.sleeps here)
  | @wakesUp object =>
    by_cases sleeper : (k.pt.proc slot).state = .sleeping ∧
        (k.pt.proc slot).chan = .object object
    · exact (Move.woken sleeper.1 sleeper.2).of_eq
        (by simp [Ptable.wakeup, Ptable.wakeup1_apply, Ptable.wakeOn, sleeper]) rfl
    · exact Move.stays.of_eq
        (by simp [Ptable.wakeup, Ptable.wakeup1_apply, Ptable.wakeOn, sleeper]) rfl

end StepMove

end Xv6.Kernel
