import Mathlib.Logic.Basic

/-!
Runs of actions that may fail on a state. A failure keeps the state it was reached in, so the
outcome of an action is a result together with a state, and what a sequence of actions does is told
by the outcomes of its parts.
-/

namespace Ramify

variable {ε S α β : Type}

@[simp] theorem except_ok_bind (x : α) (next : α → Except ε β) :
    (Except.ok x >>= next) = next x := rfl

@[simp] theorem except_error_bind (cause : ε) (next : α → Except ε β) :
    ((Except.error cause : Except ε α) >>= next) = .error cause := rfl

@[simp] theorem except_pure (x : α) : (pure x : Except ε α) = .ok x := rfl

/-- A sequence of results succeeds if both of its parts do. -/
theorem except_bind_eq_ok {first : Except ε α} {next : α → Except ε β} {y : β} :
    first >>= next = .ok y ↔ ∃ x, first = .ok x ∧ next x = .ok y := by
  cases first with
  | error cause => simp
  | ok x => simp

theorem except_eq_ok_of_isOk {result : Except ε PUnit} (h : result.isOk = true) :
    result = .ok ⟨⟩ := by
  cases result with
  | ok x => rfl
  | error cause => cases h

/-- What every step of a fold preserves holds at its end. -/
theorem except_foldlM {Q : β → Prop} {f : β → α → Except ε β} {xs : List α}
    (hstep : ∀ x ∈ xs, ∀ b c, Q b → f b x = .ok c → Q c) {first last : β} (hfirst : Q first)
    (h : xs.foldlM f first = .ok last) : Q last := by
  induction xs generalizing first with
  | nil =>
      cases h
      exact hfirst
  | cons x rest ih =>
      rw [List.foldlM_cons] at h
      obtain ⟨middle, hmiddle, hrest⟩ := except_bind_eq_ok.1 h
      exact ih (fun y hy => hstep y (List.mem_cons_of_mem _ hy))
        (hstep x List.mem_cons_self first middle hfirst hmiddle) hrest

/-- What every step of a fold needs to succeed, holds for all elements if the fold succeeds. -/
theorem except_foldlM_forall {Q : α → Prop} {f : β → α → Except ε β} {xs : List α}
    (hstep : ∀ b x c, f b x = .ok c → Q x) {first last : β}
    (h : xs.foldlM f first = .ok last) : ∀ x ∈ xs, Q x := by
  induction xs generalizing first with
  | nil => exact nofun
  | cons x rest ih =>
      rw [List.foldlM_cons] at h
      obtain ⟨middle, hmiddle, hrest⟩ := except_bind_eq_ok.1 h
      exact List.forall_mem_cons.2 ⟨hstep first x middle hmiddle, ih hrest⟩

/-- A series of checks succeeds if each of them does. -/
theorem except_forM_eq_ok {f : α → Except ε Unit} {xs : List α} :
    xs.forM f = .ok () ↔ ∀ x ∈ xs, f x = .ok () := by
  induction xs with
  | nil => exact ⟨nofun, fun _ => rfl⟩
  | cons x rest ih =>
      rw [List.forM, except_bind_eq_ok, List.forall_mem_cons, ← ih]
      constructor
      · rintro ⟨⟨⟩, hfirst, hrest⟩
        exact ⟨hfirst, hrest⟩
      · rintro ⟨hfirst, hrest⟩
        exact ⟨⟨⟩, hfirst, hrest⟩

/-- A list of results has one for each element, in the same order. -/
theorem except_mapM_get {f : α → Except ε β} {xs : List α} {ys : List β}
    (h : xs.mapM f = .ok ys) :
    ys.length = xs.length ∧
      ∀ (i : Nat) x, xs[i]? = some x → ∃ y, ys[i]? = some y ∧ f x = .ok y := by
  induction xs generalizing ys with
  | nil =>
      cases h
      exact ⟨rfl, nofun⟩
  | cons x rest ih =>
      rw [List.mapM_cons] at h
      obtain ⟨first, hfirst, h⟩ := except_bind_eq_ok.1 h
      obtain ⟨others, hothers, h⟩ := except_bind_eq_ok.1 h
      cases h
      refine ⟨congrArg (· + 1) (ih hothers).1, ?_⟩
      intro i x' hx'
      cases i with
      | zero =>
          cases hx'
          exact ⟨first, rfl, hfirst⟩
      | succ i => exact (ih hothers).2 i x' hx'

/-- Every result of a list is the result of an element. -/
theorem except_mapM_mem {f : α → Except ε β} {xs : List α} {ys : List β}
    (h : xs.mapM f = .ok ys) : ∀ y ∈ ys, ∃ x ∈ xs, f x = .ok y := by
  obtain ⟨hlength, hget⟩ := except_mapM_get h
  intro y hy
  obtain ⟨i, hi, rfl⟩ := List.getElem_of_mem hy
  have hix : i < xs.length := hlength ▸ hi
  obtain ⟨y', hy', hfy⟩ := hget i _ (List.getElem?_eq_getElem hix)
  rw [List.getElem?_eq_getElem hi] at hy'
  cases hy'
  exact ⟨_, List.getElem_mem hix, hfy⟩

theorem except_mapM_image {f : α → Except ε β} {xs : List α} {ys : List β}
    (h : xs.mapM f = .ok ys) : ∀ x ∈ xs, ∃ y ∈ ys, f x = .ok y := by
  intro x hx
  obtain ⟨i, hi⟩ := List.mem_iff_getElem?.1 hx
  obtain ⟨y, hy, hfy⟩ := (except_mapM_get h).2 i x hi
  exact ⟨y, List.mem_of_getElem? hy, hfy⟩

/-- What a result has in common with its element, the list of results has in common with the list.
-/
theorem except_mapM_map {γ : Type} {f : α → Except ε β} {g : α → γ} {g' : β → γ}
    (hcommon : ∀ x y, f x = .ok y → g' y = g x) {xs : List α} {ys : List β}
    (h : xs.mapM f = .ok ys) : ys.map g' = xs.map g := by
  induction xs generalizing ys with
  | nil =>
      cases h
      rfl
  | cons x rest ih =>
      rw [List.mapM_cons] at h
      obtain ⟨first, hfirst, h⟩ := except_bind_eq_ok.1 h
      obtain ⟨others, hothers, h⟩ := except_bind_eq_ok.1 h
      cases h
      rw [List.map_cons, List.map_cons, hcommon x first hfirst, ih hothers]

/-- If every element has a result, so has the list. -/
theorem except_mapM_total {f : α → Except ε β} {xs : List α} (h : ∀ x ∈ xs, ∃ y, f x = .ok y) :
    ∃ ys, xs.mapM f = .ok ys := by
  induction xs with
  | nil => exact ⟨[], rfl⟩
  | cons x rest ih =>
      obtain ⟨first, hfirst⟩ := h x List.mem_cons_self
      obtain ⟨others, hothers⟩ := ih (fun x' hx' => h x' (List.mem_cons_of_mem x hx'))
      refine ⟨first :: others, ?_⟩
      rw [List.mapM_cons, hfirst, except_ok_bind, hothers]
      rfl

/-- What a search through a list finds, it finds at an element. -/
theorem except_findSomeM? {f : α → Except ε (Option β)} {xs : List α} {y : β}
    (h : xs.findSomeM? f = .ok (some y)) : ∃ x ∈ xs, f x = .ok (some y) := by
  induction xs with
  | nil => cases h
  | cons x rest ih =>
      rw [List.findSomeM?] at h
      obtain ⟨found, hfound, h⟩ := except_bind_eq_ok.1 h
      cases found with
      | none =>
          obtain ⟨x', hx', hy⟩ := ih h
          exact ⟨x', List.mem_cons_of_mem x hx', hy⟩
      | some value =>
          cases h
          exact ⟨x, List.mem_cons_self, hfound⟩

/-- The result of an action and the state it leaves. -/
def outcome (action : ExceptT ε (StateM S) α) (state : S) : Except ε α × S :=
  action.run.run state

@[simp] theorem outcome_pure (x : α) (state : S) :
    outcome (pure x : ExceptT ε (StateM S) α) state = (.ok x, state) := rfl

@[simp] theorem outcome_throw (cause : ε) (state : S) :
    outcome (throw cause : ExceptT ε (StateM S) α) state = (.error cause, state) := rfl

@[simp] theorem outcome_get (state : S) :
    outcome (get : ExceptT ε (StateM S) S) state = (.ok state, state) := rfl

@[simp] theorem outcome_set (next state : S) :
    outcome (set next : ExceptT ε (StateM S) PUnit) state = (.ok ⟨⟩, next) := rfl

@[simp] theorem outcome_modify (change : S → S) (state : S) :
    outcome (modify change : ExceptT ε (StateM S) PUnit) state = (.ok ⟨⟩, change state) := rfl

@[simp] theorem outcome_ofExcept (result : Except ε α) (state : S) :
    outcome (MonadExcept.ofExcept result : ExceptT ε (StateM S) α) state = (result, state) := by
  cases result <;> rfl

/-- A sequence goes on from a success. -/
theorem outcome_bind_ok {action : ExceptT ε (StateM S) α} {state middle : S} {x : α}
    (next : α → ExceptT ε (StateM S) β) (h : outcome action state = (.ok x, middle)) :
    outcome (action >>= next) state = outcome (next x) middle := by
  unfold outcome at h ⊢
  rw [ExceptT.run_bind, StateT.run_bind, h]
  rfl

/-- A sequence ends with a failure. -/
theorem outcome_bind_error {action : ExceptT ε (StateM S) α} {state middle : S} {cause : ε}
    (next : α → ExceptT ε (StateM S) β) (h : outcome action state = (.error cause, middle)) :
    outcome (action >>= next) state = (.error cause, middle) := by
  unfold outcome at h ⊢
  rw [ExceptT.run_bind, StateT.run_bind, h]
  rfl

@[simp] theorem outcome_get_bind (next : S → ExceptT ε (StateM S) β) (state : S) :
    outcome (get >>= next) state = outcome (next state) state := rfl

@[simp] theorem outcome_set_bind (changed state : S) (next : PUnit → ExceptT ε (StateM S) β) :
    outcome (set changed >>= next) state = outcome (next ⟨⟩) changed := rfl

@[simp] theorem outcome_modify_bind (change : S → S) (state : S)
    (next : PUnit → ExceptT ε (StateM S) β) :
    outcome (modify change >>= next) state = outcome (next ⟨⟩) (change state) := rfl

@[simp] theorem outcome_throw_bind (cause : ε) (state : S)
    (next : α → ExceptT ε (StateM S) β) :
    outcome (throw cause >>= next) state = (.error cause, state) := rfl

@[simp] theorem outcome_ofExcept_bind_ok (x : α) (state : S)
    (next : α → ExceptT ε (StateM S) β) :
    outcome (MonadExcept.ofExcept (.ok x : Except ε α) >>= next) state = outcome (next x) state :=
  rfl

@[simp] theorem outcome_ofExcept_bind_error (cause : ε) (state : S)
    (next : α → ExceptT ε (StateM S) β) :
    outcome (MonadExcept.ofExcept (.error cause : Except ε α) >>= next) state =
      (.error cause, state) := rfl

/-- An action whose result is replaced leaves the state that it leaves. -/
theorem outcome_bind_pure (action : ExceptT ε (StateM S) α) (y : β) (state : S) :
    (outcome (action >>= fun _ => pure y) state).2 = (outcome action state).2 := by
  rcases h : outcome action state with ⟨cause | x, middle⟩
  · rw [outcome_bind_error _ h]
  · rw [outcome_bind_ok _ h]
    rfl

/-- What follows an action depends on its outcome only. -/
theorem outcome_bind_congr {first second : ExceptT ε (StateM S) α} {state : S}
    (h : outcome first state = outcome second state) (next : α → ExceptT ε (StateM S) β) :
    outcome (first >>= next) state = outcome (second >>= next) state := by
  rcases hrun : outcome second state with ⟨failure | x, middle⟩
  · rw [outcome_bind_error _ hrun, outcome_bind_error _ (h.trans hrun)]
  · rw [outcome_bind_ok _ hrun, outcome_bind_ok _ (h.trans hrun)]

/-- What a sequence does: its first part fails, or succeeds and the second part goes on. -/
theorem outcome_bind_cases (action : ExceptT ε (StateM S) α)
    (next : α → ExceptT ε (StateM S) β) (state : S) :
    (∃ cause middle, outcome action state = (.error cause, middle) ∧
      outcome (action >>= next) state = (.error cause, middle)) ∨
    (∃ x middle, outcome action state = (.ok x, middle) ∧
      outcome (action >>= next) state = outcome (next x) middle) := by
  rcases h : outcome action state with ⟨cause | x, middle⟩
  · exact Or.inl ⟨cause, middle, rfl, outcome_bind_error next h⟩
  · exact Or.inr ⟨x, middle, rfl, outcome_bind_ok next h⟩

/-- A sequence succeeds if its first part does, and the second part after it. -/
theorem outcome_bind_eq_ok {action : ExceptT ε (StateM S) α} {next : α → ExceptT ε (StateM S) β}
    {state last : S} {y : β} :
    outcome (action >>= next) state = (.ok y, last) ↔
      ∃ x middle, outcome action state = (.ok x, middle) ∧
        outcome (next x) middle = (.ok y, last) := by
  constructor
  · intro h
    rcases outcome_bind_cases action next state with ⟨_, _, _, hall⟩ | ⟨x, middle, hx, hall⟩
    · cases hall.symm.trans h
    · exact ⟨x, middle, hx, hall.symm.trans h⟩
  · rintro ⟨x, middle, hx, hrest⟩
    rw [outcome_bind_ok next hx, hrest]

/-- A failure is handled in the state it was reached in. -/
theorem outcome_tryCatch (action : ExceptT ε (StateM S) α)
    (handler : ε → ExceptT ε (StateM S) α) (state : S) :
    (∃ cause middle, outcome action state = (.error cause, middle) ∧
      outcome (tryCatch action handler) state = outcome (handler cause) middle) ∨
    (∃ x middle, outcome action state = (.ok x, middle) ∧
      outcome (tryCatch action handler) state = (.ok x, middle)) := by
  rcases h : outcome action state with ⟨cause | x, middle⟩
  · refine Or.inl ⟨cause, middle, rfl, ?_⟩
    have hrun : StateT.run action state = (.error cause, middle) := h
    change (ExceptT.tryCatch action handler).run.run state = _
    simp only [ExceptT.tryCatch, ExceptT.run_mk, StateT.run_bind]
    rw [hrun]
    rfl
  · refine Or.inr ⟨x, middle, rfl, ?_⟩
    have hrun : StateT.run action state = (.ok x, middle) := h
    change (ExceptT.tryCatch action handler).run.run state = _
    simp only [ExceptT.tryCatch, ExceptT.run_mk, StateT.run_bind]
    rw [hrun]
    rfl

/-- An action changes the state only along a relation, whether or not it fails. -/
def Moves (R : S → S → Prop) (action : ExceptT ε (StateM S) α) : Prop :=
  ∀ state, R state (outcome action state).2

namespace Moves

variable {R : S → S → Prop}

theorem pure (hrefl : ∀ state, R state state) (x : α) :
    Moves R (Pure.pure x : ExceptT ε (StateM S) α) := hrefl

/-- A sequence moves along what its parts move along, one after the other; it may end with the
first one. -/
theorem seq {S' T : S → S → Prop} (hend : ∀ a b, R a b → T a b)
    (hcomp : ∀ a b c, R a b → S' b c → T a c) {action : ExceptT ε (StateM S) α}
    {next : α → ExceptT ε (StateM S) β} (hfirst : Moves R action) (hnext : ∀ x, Moves S' (next x)) :
    Moves T (action >>= next) := by
  intro state
  have hstep := hfirst state
  rcases outcome_bind_cases action next state with ⟨cause, middle, hrun, hall⟩ |
    ⟨x, middle, hrun, hall⟩
  · rw [hall]
    rw [hrun] at hstep
    exact hend _ _ hstep
  · rw [hall]
    rw [hrun] at hstep
    exact hcomp _ _ _ hstep (hnext x middle)

theorem bind (htrans : ∀ a b c, R a b → R b c → R a c) {action : ExceptT ε (StateM S) α}
    {next : α → ExceptT ε (StateM S) β} (hfirst : Moves R action) (hnext : ∀ x, Moves R (next x)) :
    Moves R (action >>= next) :=
  seq (fun _ _ h => h) htrans hfirst hnext

end Moves

/-- An action preserves a property of the state, whether or not it fails. -/
def Preserves (I : S → Prop) (action : ExceptT ε (StateM S) α) : Prop :=
  ∀ state, I state → I (outcome action state).2

namespace Preserves

variable {I : S → Prop}

theorem pure (x : α) : Preserves I (Pure.pure x : ExceptT ε (StateM S) α) := fun _ h => h

theorem throw (cause : ε) : Preserves I (MonadExcept.throw cause : ExceptT ε (StateM S) α) :=
  fun _ h => h

theorem ofExcept (result : Except ε α) :
    Preserves I (MonadExcept.ofExcept result : ExceptT ε (StateM S) α) := by
  intro state h
  rw [outcome_ofExcept]
  exact h

theorem modify {change : S → S} (h : ∀ state, I state → I (change state)) :
    Preserves I (modify change : ExceptT ε (StateM S) PUnit) := h

theorem get {next : S → ExceptT ε (StateM S) β} (h : ∀ state, Preserves I (next state)) :
    Preserves I (MonadState.get >>= next) := fun state => h state state

theorem bind {action : ExceptT ε (StateM S) α} {next : α → ExceptT ε (StateM S) β}
    (hfirst : Preserves I action) (hnext : ∀ x, Preserves I (next x)) :
    Preserves I (action >>= next) :=
  Moves.bind (R := fun before after => I before → I after) (fun _ _ _ hab hbc ha => hbc (hab ha))
    hfirst hnext

/-- A check that may fail can be left out. -/
theorem guard {condition : Prop} [Decidable condition] {cause : ε}
    {next : PUnit → ExceptT ε (StateM S) β} (h : Preserves I (next ⟨⟩)) :
    Preserves I (if condition then MonadExcept.throw cause >>= next else next ⟨⟩) := by
  split
  · exact fun _ hstate => hstate
  · exact h

end Preserves

/-- Every result of an action has a property. -/
def Yields (Q : α → Prop) (action : ExceptT ε (StateM S) α) : Prop :=
  ∀ state x after, outcome action state = (.ok x, after) → Q x

namespace Yields

variable {Q : α → Prop} {R : β → Prop}

theorem pure {x : α} (h : Q x) : Yields Q (Pure.pure x : ExceptT ε (StateM S) α) := by
  intro state y after hrun
  cases hrun
  exact h

theorem throw (cause : ε) : Yields Q (MonadExcept.throw cause : ExceptT ε (StateM S) α) := by
  intro state y after hrun
  cases hrun

theorem imp {R : α → Prop} {action : ExceptT ε (StateM S) α} (h : Yields Q action)
    (himp : ∀ x, Q x → R x) : Yields R action :=
  fun state x after hrun => himp x (h state x after hrun)

theorem and {R : α → Prop} {action : ExceptT ε (StateM S) α} (hleft : Yields Q action)
    (hright : Yields R action) : Yields (fun x => Q x ∧ R x) action :=
  fun state x after hrun => ⟨hleft state x after hrun, hright state x after hrun⟩

theorem bind {action : ExceptT ε (StateM S) α} {next : α → ExceptT ε (StateM S) β}
    (hfirst : Yields Q action) (hnext : ∀ x, Q x → Yields R (next x)) :
    Yields R (action >>= next) := by
  intro state y after hrun
  rcases outcome_bind_cases action next state with ⟨cause, middle, _, hall⟩ | ⟨x, middle, hx, hall⟩
  · rw [hall] at hrun
    cases hrun
  · rw [hall] at hrun
    exact hnext x (hfirst state x middle hx) middle y after hrun

end Yields

/-- Every error of a calculation has a property. -/
def ErrsWith (Q : ε → Prop) (result : Except ε α) : Prop := ∀ cause, result = .error cause → Q cause

namespace ErrsWith

variable {Q : ε → Prop}

theorem pure (x : α) : ErrsWith Q (Pure.pure x : Except ε α) := nofun

theorem throw {cause : ε} (h : Q cause) : ErrsWith Q (MonadExcept.throw cause : Except ε α) := by
  intro cause' hcause
  cases hcause
  exact h

theorem bind {first : Except ε α} {next : α → Except ε β} (hfirst : ErrsWith Q first)
    (hnext : ∀ x, ErrsWith Q (next x)) : ErrsWith Q (first >>= next) := by
  cases first with
  | error cause => exact throw (hfirst cause rfl)
  | ok x => exact hnext x

theorem foldlM {f : β → α → Except ε β} (h : ∀ acc x, ErrsWith Q (f acc x)) (xs : List α)
    (acc : β) : ErrsWith Q (xs.foldlM f acc) := by
  induction xs generalizing acc with
  | nil => exact pure acc
  | cons x rest ih =>
      rw [List.foldlM_cons]
      exact bind (h acc x) (fun middle => ih middle)

theorem mapM {f : α → Except ε β} (h : ∀ x, ErrsWith Q (f x)) (xs : List α) :
    ErrsWith Q (xs.mapM f) := by
  induction xs with
  | nil => exact pure []
  | cons x rest ih =>
      rw [List.mapM_cons]
      exact bind (h x) (fun y => bind ih (fun ys => pure (y :: ys)))

end ErrsWith

/-- Every failure of an action has a property, in whatever state it is taken. -/
def FailsWith (Q : ε → Prop) (action : ExceptT ε (StateM S) α) : Prop :=
  ∀ state, ErrsWith Q (outcome action state).1

namespace FailsWith

variable {Q : ε → Prop}

theorem pure (x : α) : FailsWith Q (Pure.pure x : ExceptT ε (StateM S) α) := fun _ => nofun

theorem throw {cause : ε} (h : Q cause) :
    FailsWith Q (MonadExcept.throw cause : ExceptT ε (StateM S) α) := fun _ => ErrsWith.throw h

theorem ofExcept {result : Except ε α} (h : ErrsWith Q result) :
    FailsWith Q (MonadExcept.ofExcept result : ExceptT ε (StateM S) α) := by
  intro state
  rw [outcome_ofExcept]
  exact h

theorem get {next : S → ExceptT ε (StateM S) β} (h : ∀ state, FailsWith Q (next state)) :
    FailsWith Q (MonadState.get >>= next) := fun state => h state state

theorem bind {action : ExceptT ε (StateM S) α} {next : α → ExceptT ε (StateM S) β}
    (hfirst : FailsWith Q action) (hnext : ∀ x, FailsWith Q (next x)) :
    FailsWith Q (action >>= next) := by
  intro state
  have hstep := hfirst state
  rcases outcome_bind_cases action next state with ⟨cause, middle, hrun, hall⟩ |
    ⟨x, middle, hrun, hall⟩
  · rw [hrun] at hstep
    rw [hall]
    exact ErrsWith.throw (hstep cause rfl)
  · rw [hall]
    exact hnext x middle

theorem foldlM {f : β → α → ExceptT ε (StateM S) β} (h : ∀ acc x, FailsWith Q (f acc x))
    (xs : List α) (acc : β) : FailsWith Q (xs.foldlM f acc) := by
  induction xs generalizing acc with
  | nil => exact pure acc
  | cons x rest ih =>
      rw [List.foldlM_cons]
      exact bind (h acc x) (fun middle => ih middle)

end FailsWith

section Lockstep

variable {T : Type} {R : S → T → Prop} {E : ε → Prop}

/-- Two runs are in step: they end with the same result and in related states, unless the first one
fails for a cause that excuses it. -/
def InStep (R : S → T → Prop) (E : ε → Prop) (first : Except ε α × S) (second : Except ε α × T) :
    Prop :=
  (∃ cause, first.1 = .error cause ∧ E cause) ∨ second.1 = first.1 ∧ R first.2 second.2

/-- Two actions are in lockstep: in related states, their runs are in step. -/
def Lockstep (R : S → T → Prop) (E : ε → Prop) (first : ExceptT ε (StateM S) α)
    (second : ExceptT ε (StateM T) α) : Prop :=
  ∀ s t, R s t → InStep R E (outcome first s) (outcome second t)

def Never (_ : ε) : Prop := False

theorem InStep.never {first : Except ε α × S} {second : Except ε α × T}
    (h : InStep R Never first second) : second.1 = first.1 ∧ R first.2 second.2 := by
  rcases h with ⟨_, _, hfalse⟩ | hsame
  · cases hfalse
  · exact hsame

/-- Runs stay in step if what follows is in step wherever both have come to. -/
theorem InStep.bind {first : ExceptT ε (StateM S) α} {second : ExceptT ε (StateM T) α}
    {next : α → ExceptT ε (StateM S) β} {other : α → ExceptT ε (StateM T) β} {s : S} {t : T}
    (hfirst : InStep R E (outcome first s) (outcome second t))
    (hnext : ∀ x s' t', outcome first s = (.ok x, s') → R s' t' →
      InStep R E (outcome (next x) s') (outcome (other x) t')) :
    InStep R E (outcome (first >>= next) s) (outcome (second >>= other) t) := by
  rcases hsecond : outcome second t with ⟨result, t'⟩
  rcases outcome_bind_cases first next s with ⟨cause, s', hrun, hall⟩ | ⟨x, s', hrun, hall⟩
  · rw [hrun, hsecond] at hfirst
    rw [hall]
    rcases hfirst with ⟨excuse, hcause, hexcused⟩ | ⟨hsame, hstates⟩
    · cases hcause
      exact Or.inl ⟨cause, rfl, hexcused⟩
    · cases hsame
      rw [outcome_bind_error other hsecond]
      exact Or.inr ⟨rfl, hstates⟩
  · rw [hrun, hsecond] at hfirst
    rw [hall]
    rcases hfirst with ⟨cause, hcause, _⟩ | ⟨hsame, hstates⟩
    · cases hcause
    · cases hsame
      rw [outcome_bind_ok other hsecond]
      exact hnext x s' t' hrun hstates

namespace Lockstep

theorem pure (x : α) :
    Lockstep R E (Pure.pure x : ExceptT ε (StateM S) α) (Pure.pure x) :=
  fun _ _ h => Or.inr ⟨rfl, h⟩

theorem throw (cause : ε) :
    Lockstep R E (MonadExcept.throw cause : ExceptT ε (StateM S) α) (MonadExcept.throw cause) :=
  fun _ _ h => Or.inr ⟨rfl, h⟩

theorem ofExcept (result : Except ε α) :
    Lockstep R E (MonadExcept.ofExcept result : ExceptT ε (StateM S) α)
      (MonadExcept.ofExcept result) := by
  cases result with
  | ok x => exact pure x
  | error cause => exact throw cause

theorem modify {change : S → S} {otherChange : T → T}
    (h : ∀ s t, R s t → R (change s) (otherChange t)) :
    Lockstep R E (modify change : ExceptT ε (StateM S) PUnit) (modify otherChange) :=
  fun s t hstates => Or.inr ⟨rfl, h s t hstates⟩

theorem get {next : S → ExceptT ε (StateM S) β} {other : T → ExceptT ε (StateM T) β}
    (h : ∀ s t, R s t → Lockstep R E (next s) (other t)) :
    Lockstep R E (MonadState.get >>= next) (MonadState.get >>= other) :=
  fun s t hstates => h s t hstates s t hstates

theorem bind {first : ExceptT ε (StateM S) α} {second : ExceptT ε (StateM T) α}
    {next : α → ExceptT ε (StateM S) β} {other : α → ExceptT ε (StateM T) β}
    (hfirst : Lockstep R E first second) (hnext : ∀ x, Lockstep R E (next x) (other x)) :
    Lockstep R E (first >>= next) (second >>= other) :=
  fun s t hstates => (hfirst s t hstates).bind (fun x s' t' _ => hnext x s' t')

/-- Failures are handled alike; none is excused, since a handler might hide it. -/
theorem tryCatch {first : ExceptT ε (StateM S) α} {second : ExceptT ε (StateM T) α}
    {handler : ε → ExceptT ε (StateM S) α} {other : ε → ExceptT ε (StateM T) α}
    (hfirst : Lockstep R Never first second)
    (hhandler : ∀ cause, Lockstep R Never (handler cause) (other cause)) :
    Lockstep R Never (MonadExcept.tryCatch first handler) (MonadExcept.tryCatch second other) := by
  intro s t hstates
  obtain ⟨hsame, hrelated⟩ := (hfirst s t hstates).never
  rcases outcome_tryCatch first handler s with ⟨cause, s', hrun, hall⟩ | ⟨x, s', hrun, hall⟩ <;>
    rcases outcome_tryCatch second other t with
      ⟨cause', t', hrun', hall'⟩ | ⟨x', t', hrun', hall'⟩ <;>
    rw [hrun, hrun'] at hsame hrelated <;> cases hsame <;> rw [hall, hall']
  · exact hhandler cause s' t' hrelated
  · exact Or.inr ⟨rfl, hrelated⟩

theorem anyM {test : α → ExceptT ε (StateM S) Bool} {other : α → ExceptT ε (StateM T) Bool}
    (h : ∀ x, Lockstep R E (test x) (other x)) (xs : List α) :
    Lockstep R E (xs.anyM test) (xs.anyM other) := by
  induction xs with
  | nil => exact pure false
  | cons x rest ih =>
      rw [List.anyM, List.anyM]
      apply bind (h x)
      intro passed
      cases passed with
      | true => exact pure true
      | false => exact ih

theorem mapM {f : α → ExceptT ε (StateM S) β} {g : α → ExceptT ε (StateM T) β}
    (h : ∀ x, Lockstep R E (f x) (g x)) (xs : List α) :
    Lockstep R E (xs.mapM f) (xs.mapM g) := by
  induction xs with
  | nil => exact pure []
  | cons x rest ih =>
      rw [List.mapM_cons, List.mapM_cons]
      exact bind (h x) (fun y => bind ih (fun ys => pure (y :: ys)))

end Lockstep

end Lockstep

end Ramify
