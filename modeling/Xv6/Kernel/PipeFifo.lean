import Xv6.Kernel.Pipe

/-!
# A pipe is a first-in first-out queue of bytes

Whatever the readers and writers do, the bytes copied out so far followed by the
bytes in the buffer are the bytes stored so far, also after the counters have
wrapped.  Every step stores one byte, copies one byte out, or leaves the buffer as
it is.
-/

namespace Xv6

namespace Pipe

theorem pipesize_dvd : pipesize ∣ 2 ^ 32 := by decide

theorem full_iff (p : Pipe) : p.Full ↔ p.count = pipesize :=
  RingBuffer.full_iff (by decide)

variable {p : Pipe}

theorem contents_store (room : p.count < pipesize) (byte : UInt8) :
    (p.store byte).contents = p.contents ++ [byte] :=
  RingBuffer.contents_insert pipesize_dvd (by decide) p.data room byte

theorem count_store (room : p.count < pipesize) (byte : UInt8) :
    (p.store byte).count = p.count + 1 := by
  apply RingBuffer.count_succ
  change p.count + 1 < 2 ^ 32
  have : p.count < 512 := room
  omega

theorem contents_drop (filled : ¬p.Empty) : p.contents = p.front :: p.drop.contents :=
  RingBuffer.contents_remove p.data filled

theorem count_drop (filled : ¬p.Empty) : p.drop.count + 1 = p.count :=
  RingBuffer.count_pred filled

end Pipe

namespace PipeSystem

variable {Process : Type} [DecidableEq Process] {s s' : PipeSystem Process} {self : Process}
  {pc : PipePc}

/-- What a step does to the buffer. -/
inductive BufferStep (p p' : Pipe) : List UInt8 → List UInt8 → Prop where
  | keep (data : p'.data = p.data) (nread : p'.nread = p.nread)
      (nwrite : p'.nwrite = p.nwrite) : BufferStep p p' [] []
  | store (byte : UInt8) (room : ¬p.Full) (result : p' = p.store byte) :
      BufferStep p p' [byte] []
  | copy (filled : ¬p.Empty) (result : p' = p.drop) : BufferStep p p' [] [p.front]

theorem BufferStep.refl (p : Pipe) : BufferStep p p [] [] := .keep rfl rfl rfl

theorem buffer_acquire (taken : s.acquire self pc = some s') : BufferStep s.pipe s'.pipe [] [] := by
  simp only [acquire, Option.ite_none_right_eq_some, Option.some.injEq] at taken
  obtain ⟨-, rfl⟩ := taken
  exact .refl _

theorem buffer_call (taken : s.call self pc = some s') : BufferStep s.pipe s'.pipe [] [] := by
  simp only [call, Option.ite_none_right_eq_some, Option.some.injEq] at taken
  obtain ⟨-, rfl⟩ := taken
  exact .refl _

theorem buffer_advance (taken : s.advance self = some s') :
    BufferStep s.pipe s'.pipe (stores (s, .run self)) (copies (s, .run self)) := by
  simp only [advance] at taken
  simp only [stores, copies]
  cases pc : s.pc self with
  | idle => simp [pc] at taken
  | writeEnter | readEnter | closeEnter =>
    simp only [pc] at taken
    exact buffer_acquire taken
  | writeLoop n rest =>
    simp only [pc, Option.some.injEq] at taken
    subst taken
    cases rest with
    | nil => exact .refl _
    | cons byte rest =>
      simp only [writeLoop]
      split
      next => split <;> exact .refl _
      next room => exact .store byte room rfl
  | readLoop n =>
    simp only [pc, Option.some.injEq] at taken
    subst taken
    unfold readLoop
    split
    next => split <;> exact .refl _
    next => exact .refl _
  | readCopy n i =>
    simp only [pc, Option.some.injEq] at taken
    subst taken
    simp only [readCopy]
    split
    next copies => exact .copy copies.2 rfl
    next => exact .refl _
  | closeBody writable =>
    simp only [pc, Option.some.injEq] at taken
    subst taken
    cases writable <;> exact .keep rfl rfl rfl
  | writeFull | writeSleep | readSleep | closeWake | closeEnd | unlock =>
    simp only [pc, Option.some.injEq] at taken
    subst taken
    exact .refl _

theorem buffer_step {action : PipeAction Process} (taken : s.step action = some s') :
    BufferStep s.pipe s'.pipe (stores (s, action)) (copies (s, action)) := by
  cases action with
  | write self n bytes =>
    simp only [step, Option.ite_none_right_eq_some] at taken
    exact buffer_call taken.2
  | read self n => exact buffer_call taken
  | close self writable => exact buffer_call taken
  | run self =>
    simp only [step, Option.ite_none_right_eq_some] at taken
    exact buffer_advance taken.2
  | kill target =>
    simp only [step, Option.some.injEq] at taken
    subst taken
    exact .refl _

/-- The buffer holds at most its capacity, and its contents follow what has been
copied out. -/
structure Fifo (p : Pipe) (stored copied : List UInt8) : Prop where
  bounded : p.count ≤ pipesize
  order : copied ++ p.contents = stored

theorem Fifo.step {p p' : Pipe} {stored copied stores copies : List UInt8}
    (fifo : Fifo p stored copied) (moved : BufferStep p p' stores copies) :
    Fifo p' (stored ++ stores) (copied ++ copies) := by
  cases moved with
  | keep data nread nwrite =>
    have count : p'.count = p.count := by rw [Pipe.count, nread, nwrite]; rfl
    have contents : p'.contents = p.contents := by
      rw [Pipe.contents, data, nread, nwrite]
      rfl
    refine ⟨count ▸ fifo.bounded, ?_⟩
    rw [contents, List.append_nil, List.append_nil, fifo.order]
  | store byte room result =>
    subst result
    have space : p.count < pipesize :=
      lt_of_le_of_ne fifo.bounded fun full => room (p.full_iff.mpr full)
    refine ⟨?_, ?_⟩
    · rw [Pipe.count_store space]
      exact space
    · rw [Pipe.contents_store space, List.append_nil, ← List.append_assoc, fifo.order]
  | copy filled result =>
    subst result
    have count := Pipe.count_drop filled
    refine ⟨?_, ?_⟩
    · have := fifo.bounded
      omega
    · rw [List.append_assoc, List.singleton_append, ← Pipe.contents_drop filled,
        fifo.order, List.append_nil]

/-- A pipe is a lossless queue of bytes: the counters are never more than the
capacity apart, and what has been copied out followed by what is in the buffer is
what has been stored, in order. -/
theorem pipe_is_fifo {data : Fin pipesize → UInt8}
    {trace : List (PipeSystem Process × PipeAction Process)}
    (run : Transition.Run step (fun _ _ => True) (start data) trace s) :
    (s.pipe.nwrite - s.pipe.nread).val ≤ pipesize ∧
      copied trace ++ s.pipe.contents = stored trace := by
  have fifo : Fifo s.pipe (stored trace) (copied trace) := by
    induction run with
    | nil =>
      exact ⟨by simp [start, Pipe.alloc, Pipe.count],
        by simp [start, Pipe.alloc, Pipe.contents, copied, stored]⟩
    | snoc before _ taken ih =>
      simpa [stored, copied] using ih.step (buffer_step taken)
  exact ⟨fifo.bounded, fifo.order⟩

/-- Two bytes are written and one is read. -/
theorem pipe_is_fifo_used : ∃ s : PipeSystem (Fin 2), ∃ trace,
    Transition.Run step (fun _ _ => True) (start fun _ => 0) trace s ∧
      copied trace = [7] ∧ stored trace = [7, 8] ∧
      copied trace ++ s.pipe.contents = stored trace := by
  let actions : List (PipeAction (Fin 2)) :=
    .write 0 2 [7, 8] :: List.replicate 5 (.run 0) ++ .read 1 1 :: List.replicate 5 (.run 1)
  have used : ∃ s : PipeSystem (Fin 2),
      Transition.Run step (fun _ _ => True) (start fun _ => 0)
        (Transition.traceOf step (start fun _ => 0) actions) s ∧ s.lock = none :=
    Transition.Run.of_exec_met _ (by simp) (by decide +kernel)
  obtain ⟨s, run, -⟩ := used
  exact ⟨s, _, run, by decide +kernel, by decide +kernel, (pipe_is_fifo run).2⟩

end PipeSystem

end Xv6
