import Xv6.Lib.Numerals

/-!
# Programs that update a state and may stop

A program reads and updates a state and ends with a value, or stops with an error.
Its weakest precondition says of a starting state that the run ends in a state that
meets a postcondition, or stops with an error that is allowed.  The rules follow the
constructs of the `do` notation, so that a proof walks through a program from its
first statement to its last.
-/

/-- Programs with states in `σ` and errors in `ε`. -/
abbrev Program (σ ε : Type) := StateT σ (Except ε)

namespace Program

variable {σ ε α β : Type}

/-- The weakest precondition. -/
def Wp (x : Program σ ε α) (post : α → σ → Prop) (stops : ε → Prop) (s : σ) : Prop :=
  match x.run s with
  | .ok (value, s') => post value s'
  | .error error => stops error

variable {x : Program σ ε α} {f : α → Program σ ε β} {post post' : α → σ → Prop}
  {stops stops' : ε → Prop} {s s' : σ} {value : α}

theorem Wp.ok (wp : Wp x post stops s) (ran : x.run s = .ok (value, s')) : post value s' := by
  rw [Wp, ran] at wp
  exact wp

theorem Wp.error {error : ε} (wp : Wp x post stops s) (ran : x.run s = .error error) :
    stops error := by
  rw [Wp, ran] at wp
  exact wp

theorem Wp.ends (wp : Wp x post (fun _ => False) s) :
    ∃ value s', x.run s = .ok (value, s') ∧ post value s' := by
  unfold Wp at wp
  split at wp
  next value s' ran => exact ⟨value, s', ran, wp⟩
  · exact wp.elim

theorem Wp.fails (wp : Wp x (fun _ _ => False) stops s) :
    ∃ error, x.run s = .error error ∧ stops error := by
  unfold Wp at wp
  split at wp
  · exact wp.elim
  next error ran => exact ⟨error, ran, wp⟩

/-- What a program returned can be used about its result. -/
theorem Wp.ran (wp : Wp x post stops s) :
    Wp x (fun value s' => x.run s = .ok (value, s') ∧ post value s') stops s := by
  unfold Wp at wp ⊢
  cases ran : x.run s with
  | error => simpa [ran] using wp
  | ok result => exact ⟨rfl, by simpa [ran] using wp⟩

/-- The rule of consequence. -/
theorem Wp.mono (wp : Wp x post stops s) (ends : ∀ value s', post value s' → post' value s')
    (fails : ∀ error, stops error → stops' error) : Wp x post' stops' s := by
  unfold Wp at wp ⊢
  split at wp
  · exact ends _ _ wp
  · exact fails _ wp

theorem Wp.imp (wp : Wp x post stops s) (ends : ∀ value s', post value s' → post' value s') :
    Wp x post' stops s :=
  wp.mono ends fun _ => id

theorem Wp.and (first : Wp x post stops s) (second : Wp x post' stops' s) :
    Wp x (fun value s' => post value s' ∧ post' value s')
      (fun error => stops error ∧ stops' error) s := by
  unfold Wp at *
  split at first
  next ran =>
    rw [ran] at second
    exact ⟨first, second⟩
  next ran =>
    rw [ran] at second
    exact ⟨first, second⟩

@[simp] theorem wp_pure : Wp (pure value : Program σ ε α) post stops s ↔ post value s :=
  Iff.rfl

@[simp] theorem wp_bind {goal : β → σ → Prop} :
    Wp (x >>= f) goal stops s ↔ Wp x (fun value s' => Wp (f value) goal stops s') stops s := by
  simp only [Wp, StateT.run_bind]
  cases x.run s <;> rfl

@[simp] theorem wp_map {g : α → β} {goal : β → σ → Prop} :
    Wp (g <$> x) goal stops s ↔ Wp x (fun value s' => goal (g value) s') stops s := by
  rw [← bind_pure_comp, wp_bind]
  rfl

@[simp] theorem wp_get {goal : σ → σ → Prop} : Wp (get : Program σ ε σ) goal stops s ↔ goal s s :=
  Iff.rfl

@[simp] theorem wp_set {goal : PUnit → σ → Prop} :
    Wp (set s' : Program σ ε PUnit) goal stops s ↔ goal ⟨⟩ s' :=
  Iff.rfl

@[simp] theorem wp_modify {goal : PUnit → σ → Prop} {change : σ → σ} :
    Wp (modify change : Program σ ε PUnit) goal stops s ↔ goal ⟨⟩ (change s) :=
  Iff.rfl

@[simp] theorem wp_throw {error : ε} :
    Wp (throw error : Program σ ε α) post stops s ↔ stops error :=
  Iff.rfl

theorem wp_ite {test : Prop} [Decidable test] {y : Program σ ε α} :
    Wp (if test then x else y) post stops s ↔
      (test → Wp x post stops s) ∧ (¬test → Wp y post stops s) := by
  split_ifs with holds <;> simp [holds]

/-- The rule for a loop over a list.  The invariant speaks about the elements that are
still to be visited. -/
theorem wp_forM {list : List α} {body : α → Program σ ε PUnit} {goal : PUnit → σ → Prop}
    (inv : List α → σ → Prop) (step : ∀ element rest s, inv (element :: rest) s →
      Wp (body element) (fun _ s' => inv rest s') stops s)
    (initial : inv list s) (done : ∀ s', inv [] s' → goal ⟨⟩ s') :
    Wp (list.forM body) goal stops s := by
  induction list generalizing s with
  | nil => exact done s initial
  | cons element rest ih =>
    refine wp_bind.mpr ?_
    exact (step element rest s initial).imp fun _ s' => ih

end Program
