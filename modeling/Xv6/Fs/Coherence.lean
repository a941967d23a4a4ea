import Xv6.Fs.CacheSteps

/-!
# The buffer cache is coherent

In every run in which the callers keep to the rules, a sector is in one buffer at most, a
buffer has one holder at most, the ring holds every buffer once, and `bread` returns what
the last `bwrite` to the sector wrote.
-/

namespace Xv6.Bcache

variable {Process Addr Data : Type} {s : Bcache Process Addr Data}

theorem holds_binit (ring : LinkedRing BufIndex) :
    (binit ring).Holds (List.finRange nbuf).reverse := by
  have cleared : ring.clear.Holds [] := .clear
  have holds := cleared.foldl_pushFront (fun _ _ => List.not_mem_nil) (List.nodup_finRange nbuf)
  rwa [List.append_nil] at holds

variable {address : Uint × Uint → Addr} {sectors : Set (Uint × Uint)} {disk : Addr → Data}

theorem inv_start (ring : LinkedRing BufIndex) (data : BufIndex → Data) :
    Inv address sectors disk (start ring disk data : Bcache Process Addr Data) := by
  have blank : ∀ b, ((start ring disk data : Bcache Process Addr Data).buf b).Blank :=
    fun _ => ⟨rfl, rfl, rfl⟩
  refine ⟨⟨_, holds_binit ring, List.reverse_perm _, ?_⟩, ⟨?_, ?_, ?_, ?_, ?_, List.nodup_nil⟩,
    ⟨?_, ?_, ?_, ?_, ?_, ?_, rfl⟩⟩
  · exact List.pairwise_of_forall fun _ b' _ => blank b'
  · simp [start]
  · simp [start]
  · simp [start, BufPc.work]
  · exact fun {b} _ => ⟨rfl, rfl, by simp [start], by simp [start], .inr (blank b)⟩
  · simp [start]
  · simp [start, BufPc.asks]
  · exact fun {b} used => absurd (blank b) used
  · simp [start, BufPc.work]
  · simp [start]
  · exact fun _ _ => rfl
  · rintro b ⟨p, phase, work⟩
    simp [start, BufPc.work] at work

/-- What the cache promises: a sector is in one buffer at most, a buffer has one holder at
most, the ring holds every buffer once, a buffer that is not busy is not dirty, and
`bread` returns what the last `bwrite` to the sector wrote. -/
structure Coherent (address : Uint × Uint → Addr) (disk : Addr → Data)
    (s : Bcache Process Addr Data) : Prop where
  oneBuffer : ∀ b b', (s.buf b).dev ≠ -1 → (s.buf b').dev = (s.buf b).dev →
    (s.buf b').sector = (s.buf b).sector → b' = b
  oneHolder : ∀ p q b, b ∈ s.held p → b ∈ s.held q → p = q
  ring : s.forward.Perm (List.finRange nbuf) ∧ s.backward = s.forward.reverse
  clean : ∀ b, (s.buf b).busy = false → (s.buf b).dirty = false
  returns : ∀ p b dev sector, s.pc p = .returning b (.bread dev sector) →
    (s.buf b).dev = dev ∧ (s.buf b).sector = sector ∧
      (s.buf b).data = s.lastWritten address disk (dev, sector)

theorem Inv.coherent (inv : Inv address sectors disk s) : s.Coherent address disk := by
  obtain ⟨⟨order, ordered⟩, owned, fresh⟩ := inv
  have used : ∀ {b}, (s.buf b).dev ≠ -1 → ¬(s.buf b).Blank := fun real blank =>
    real (congrArg Prod.fst blank.2.2)
  refine ⟨?_, fun _ _ _ => owned.single, ?_, ?_, ?_⟩
  · intro b b' real dev sector
    exact ordered.unique (Prod.ext dev sector) (used (dev ▸ real)) (used real)
  · rw [ordered.forward_eq, ordered.backward_eq]
    exact ⟨ordered.all, rfl⟩
  · exact fun b idle => (owned.free (owned.not_held idle)).dirty
  · intro p b dev sector at_return
    have work : (s.pc p).work = some (b, .bread dev sector, .after) := by rw [at_return]; rfl
    obtain ⟨key, saved⟩ := fresh.wanted work
    have settled := owned.settled (owned.worker work) (by simp [work])
    have still : ¬s.Writing b := by simp [owned.writing_iff work]
    have current := fresh.current settled.synced.1 still saved
    rw [key] at current
    exact ⟨congrArg Prod.fst key, congrArg Prod.snd key, current⟩

variable [DecidableEq Process] [DecidableEq Addr]

/-- The buffer cache is coherent in every state that is reached, for any number of
processes, whatever the order of their steps, of the interrupts and of the evictions, on a
disk that keeps the sectors apart. -/
theorem coherent_of_run (apart : Set.InjOn address sectors) {havedisk1 : Bool}
    {ring : LinkedRing BufIndex} {data : BufIndex → Data}
    {trace : List (Bcache Process Addr Data × BufAction Process Data)}
    {s : Bcache Process Addr Data}
    (run : Transition.Run (step address havedisk1) (Rules sectors) (start ring disk data)
      trace s) : s.Coherent address disk :=
  (run.stateInvariant (inv_start ring data) fun inv rules taken =>
    inv.step apart rules taken).coherent

theorem injOn_ideAddress : Set.InjOn ideAddress ideSectors := by
  rintro ⟨dev, sector⟩ ⟨disk₁, sector₁⟩ ⟨dev', sector'⟩ ⟨disk₂, sector₂⟩ same
  obtain ⟨devs, sectors⟩ := Prod.mk.inj same
  have devs := congrArg Fin.val devs
  have sectors := congrArg Fin.val sectors
  simp only [Fin.val_ofNat, Nat.mod_eq_of_lt disk₁, Nat.mod_eq_of_lt disk₂,
    Nat.mod_eq_of_lt sector₁, Nat.mod_eq_of_lt sector₂] at devs sectors
  exact Prod.ext (Fin.ext devs) (Fin.ext sectors)

/-- A process reads a sector, changes it and writes it, while another one waits for it. -/
def sharedSector : List (BufAction (Fin 2) Nat) :=
  [.bread 0 1 5, .run 0, .run 0, .disk, .ideintr, .run 0, .run 0, .store 0 0 8, .bread 1 1 5,
    .run 1, .bwrite 0 0, .run 0, .disk, .ideintr, .run 0, .run 0, .brelse 0 0, .run 1]

/-- The other process gets what the first one wrote. -/
theorem coherent_of_run_shared : ∃ s : Bcache (Fin 2) (Fin 2 × Fin (2 ^ 28)) Nat,
    s.pc 1 = .returning 0 (.bread 1 5) ∧ (s.buf 0).data = 8 ∧
      s.lastWritten ideAddress (fun _ => 7) (1, 5) = 8 := by
  have reads : ∃ s : Bcache (Fin 2) (Fin 2 × Fin (2 ^ 28)) Nat,
      Transition.Run (step ideAddress true) (Rules ideSectors)
        (start ⟨id, id⟩ (fun _ => 7) fun _ => 0)
        (Transition.traceOf (step ideAddress true) (start ⟨id, id⟩ (fun _ => 7) fun _ => 0)
          sharedSector) s ∧
      s.pc 1 = .returning 0 (.bread 1 5) ∧ (s.buf 0).data = 8 :=
    Transition.Run.of_exec_met _ (by decide +kernel) (by decide +kernel)
  obtain ⟨s, run, at_return, data⟩ := reads
  have returned := (coherent_of_run injOn_ideAddress run).returns 1 0 1 5 at_return
  exact ⟨s, at_return, data, returned.2.2.symm.trans data⟩

end Xv6.Bcache
