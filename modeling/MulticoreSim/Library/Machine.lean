import Mathlib.Logic.Basic

/-! # Machines that can fault

A machine takes labelled steps and may fault instead of stepping. Runs carry a
guard on the steps they take, so that "every run" and "every run whose steps
meet a condition" are the same notion at two guards.
-/

/-- An outcome of which something is known has not failed. -/
theorem exists_ok {ε α β : Type} {r : Except ε α} {f : α → β} {v : β}
    (known : r.toOption.map f = some v) : ∃ x, r = .ok x ∧ f x = v := by
  cases r with
  | error fault => cases known
  | ok x => exact ⟨x, rfl, Option.some.inj known⟩

/-- A deterministic labelled machine. A step either succeeds or faults. -/
structure Machine (State Action Fault : Type) where
  step : State → Action → Except Fault State

namespace Machine

variable {State Action Fault : Type} (m : Machine State Action Fault)

/-- States reached from `start` by steps that meet `ok` and do not fault. -/
inductive Run (ok : State → Action → Prop) (start : State) : State → Prop where
  | start : Run ok start start
  | step {s s' : State} {a : Action} :
      Run ok start s → ok s a → m.step s a = .ok s' → Run ok start s'

/-- Every run: no condition on the steps. -/
def Reachable (start s : State) : Prop := m.Run (fun _ _ => True) start s

variable {m}

/-- Holds at the start and is kept by every guarded step, so it holds throughout. -/
theorem Run.invariant {ok : State → Action → Prop} {start s : State} {I : State → Prop}
    (run : m.Run ok start s) (base : I start)
    (kept : ∀ s a s', I s → ok s a → m.step s a = .ok s' → I s') : I s := by
  induction run with
  | start => exact base
  | step _ guarded stepped ih => exact kept _ _ _ ih guarded stepped

/-- As `Run.invariant`, where the step may also use an invariant proved before. -/
theorem Run.invariant_under {ok : State → Action → Prop} {start s : State} {J I : State → Prop}
    (run : m.Run ok start s) (known : ∀ s, m.Run ok start s → J s) (base : I start)
    (kept : ∀ s a s', J s → I s → ok s a → m.step s a = .ok s' → I s') : I s := by
  induction run with
  | start => exact base
  | step before guarded stepped ih => exact kept _ _ _ (known _ before) ih guarded stepped

/-- A weaker guard admits more runs. -/
theorem Run.mono {ok ok' : State → Action → Prop} {start s : State}
    (run : m.Run ok start s) (weaker : ∀ s a, ok s a → ok' s a) : m.Run ok' start s := by
  induction run with
  | start => exact .start
  | step _ guarded stepped ih => exact .step ih (weaker _ _ guarded) stepped

/-- As `Run.mono`, where the guards need only be compared in the states of the run. -/
theorem Run.mono_under {ok ok' : State → Action → Prop} {start s : State} {J : State → Prop}
    (run : m.Run ok start s) (known : ∀ s, m.Run ok start s → J s)
    (weaker : ∀ s a, J s → ok s a → ok' s a) : m.Run ok' start s := by
  induction run with
  | start => exact .start
  | step before guarded stepped ih => exact .step ih (weaker _ _ (known _ before) guarded) stepped

theorem Run.trans {ok : State → Action → Prop} {start s s' : State} (first : m.Run ok start s)
    (second : m.Run ok s s') : m.Run ok start s' := by
  induction second with
  | start => exact first
  | step _ guarded stepped ih => exact ih.step guarded stepped

theorem Run.reachable {ok : State → Action → Prop} {start s : State}
    (run : m.Run ok start s) : m.Reachable start s :=
  run.mono fun _ _ _ => trivial

variable (m)

/-- Take the listed steps in order, passing over those that fault. -/
def attempt (s : State) : List Action → State
  | [] => s
  | a :: rest =>
      match m.step s a with
      | .ok s' => attempt s' rest
      | .error _ => attempt s rest

/-- Take the listed steps in order, stopping at the first fault. -/
def exec (s : State) : List Action → Except Fault State
  | [] => .ok s
  | a :: rest =>
      match m.step s a with
      | .ok s' => exec s' rest
      | .error fault => .error fault

variable {m}

/-- Steps that meet the guard wherever they are taken. -/
theorem Run.attempt_all {ok : State → Action → Prop} {start s : State} (run : m.Run ok start s)
    {actions : List Action} (free : ∀ a ∈ actions, ∀ s, ok s a) :
    m.Run ok start (m.attempt s actions) := by
  induction actions generalizing s with
  | nil => exact run
  | cons a rest ih =>
      have later : ∀ b ∈ rest, ∀ s, ok s b := fun b mem => free b (List.mem_cons_of_mem _ mem)
      simp only [attempt]
      cases stepped : m.step s a with
      | ok next => exact ih (run.step (free a List.mem_cons_self s) stepped) later
      | error fault => exact ih run later

theorem Run.attempt_from {ok : State → Action → Prop} {start s : State} (run : m.Run ok start s)
    (free : ∀ s a, ok s a) (actions : List Action) : m.Run ok start (m.attempt s actions) :=
  run.attempt_all fun a _ s => free s a

theorem attempt_append (s : State) (xs ys : List Action) :
    m.attempt s (xs ++ ys) = m.attempt (m.attempt s xs) ys := by
  induction xs generalizing s with
  | nil => rfl
  | cons a rest ih =>
      simp only [List.cons_append, attempt]
      cases m.step s a with
      | ok s' => exact ih s'
      | error fault => exact ih s

theorem reachable_attempt (start : State) (actions : List Action) :
    m.Reachable start (m.attempt start actions) :=
  Run.attempt_from .start (fun _ _ => trivial) actions

section

variable (ok : State → Action → Prop) [∀ s a, Decidable (ok s a)]

variable (m) in
/-- Every step that `attempt` takes meets the guard. -/
def heeds (s : State) : List Action → Bool
  | [] => true
  | a :: rest =>
      match m.step s a with
      | .ok s' => decide (ok s a) && heeds s' rest
      | .error _ => heeds s rest

theorem Run.heeded_from {start s : State} (run : m.Run ok start s) {actions : List Action}
    (heeded : m.heeds ok s actions = true) : m.Run ok start (m.attempt s actions) := by
  induction actions generalizing s with
  | nil => exact run
  | cons a rest ih =>
      simp only [attempt, heeds] at heeded ⊢
      cases stepped : m.step s a with
      | ok next =>
          simp only [stepped, Bool.and_eq_true, decide_eq_true_eq] at heeded
          exact ih (run.step heeded.1 stepped) heeded.2
      | error fault =>
          simp only [stepped] at heeded
          exact ih run heeded

theorem run_attempt {start : State} {actions : List Action}
    (heeded : m.heeds ok start actions = true) : m.Run ok start (m.attempt start actions) :=
  Run.heeded_from ok .start heeded

end

theorem exec_append (s : State) (xs ys : List Action) :
    m.exec s (xs ++ ys) = (m.exec s xs).bind fun s' => m.exec s' ys := by
  induction xs generalizing s with
  | nil => rfl
  | cons a rest ih =>
      simp only [List.cons_append, exec]
      cases m.step s a with
      | ok s' => exact ih s'
      | error fault => rfl

/-- What an executed action list leads to belongs to the run. -/
theorem Run.exec_from {ok : State → Action → Prop} {start s s' : State} {actions}
    (run : m.Run ok start s) (free : ∀ s a, ok s a) (ran : m.exec s actions = .ok s') :
    m.Run ok start s' := by
  induction actions generalizing s with
  | nil =>
      cases ran
      exact run
  | cons a rest ih =>
      simp only [exec] at ran
      cases stepped : m.step s a with
      | ok next => exact ih (run.step (free s a) stepped) (by simpa only [stepped] using ran)
      | error fault => simp [stepped] at ran

/-- As `Run.invariant`, where the invariant is about the actions so far too. -/
theorem exec_history {start s : State} {actions : List Action} {I : List Action → State → Prop}
    (ran : m.exec start actions = .ok s) (base : I [] start)
    (kept : ∀ done s a s', I done s → m.step s a = .ok s' → I (done ++ [a]) s') : I actions s := by
  have from_ : ∀ (done rest : List Action) (s' : State), I done s' → m.exec s' rest = .ok s →
      I (done ++ rest) s := by
    intro done rest
    induction rest generalizing done with
    | nil =>
        intro s' inv ran
        cases ran
        rwa [List.append_nil]
    | cons a rest ih =>
        intro s' inv ran
        simp only [exec] at ran
        cases stepped : m.step s' a with
        | error fault => simp [stepped] at ran
        | ok next =>
            rw [← List.singleton_append, ← List.append_assoc]
            apply ih (done ++ [a]) next (kept done s' a next inv stepped)
            simpa only [stepped] using ran
  exact from_ [] actions start base ran

/-- What an executed action list reaches is reachable. -/
theorem reachable_of_exec {start s : State} {actions : List Action}
    (ran : m.exec start actions = .ok s) : m.Reachable start s :=
  Run.exec_from .start (fun _ _ => trivial) ran

theorem attempt_of_exec {s s' : State} {actions : List Action} (ran : m.exec s actions = .ok s') :
    m.attempt s actions = s' := by
  induction actions generalizing s with
  | nil =>
      cases ran
      rfl
  | cons a rest ih =>
      simp only [exec, attempt] at ran ⊢
      cases stepped : m.step s a with
      | ok next => exact ih (by simpa only [stepped] using ran)
      | error fault => simp [stepped] at ran

/-! ## Paths -/

/-- The listed steps lead from `s` to `s'`, and each meets `ok` where it is taken. -/
inductive Path (m : Machine State Action Fault) (ok : State → Action → Prop) :
    State → List Action → State → Prop where
  | nil {s : State} : Path m ok s [] s
  | cons {s s' s'' : State} {a : Action} {rest : List Action} :
      ok s a → m.step s a = .ok s' → Path m ok s' rest s'' → Path m ok s (a :: rest) s''

theorem path_of_exec {s s' : State} {actions : List Action} (ran : m.exec s actions = .ok s') :
    m.Path (fun _ _ => True) s actions s' := by
  induction actions generalizing s with
  | nil =>
      cases ran
      exact .nil
  | cons a rest ih =>
      simp only [exec] at ran
      cases stepped : m.step s a with
      | ok next => exact .cons trivial stepped (ih (by simpa only [stepped] using ran))
      | error fault => simp [stepped] at ran

section

variable {ok : State → Action → Prop} {s s' : State} {actions : List Action}

theorem Path.mono {ok' : State → Action → Prop} (path : m.Path ok s actions s')
    (weaker : ∀ s a, ok s a → ok' s a) : m.Path ok' s actions s' := by
  induction path with
  | nil => exact .nil
  | cons guarded stepped _ ih => exact .cons (weaker _ _ guarded) stepped ih

/-- A run goes on along a path. -/
theorem Run.along {start : State} (run : m.Run ok start s) (path : m.Path ok s actions s') :
    m.Run ok start s' := by
  induction path with
  | nil => exact run
  | cons guarded stepped _ ih => exact ih (run.step guarded stepped)

variable (ok) in
/-- Each of the listed steps can be taken, and meets the guard. -/
def follows [∀ s a, Decidable (ok s a)] (m : Machine State Action Fault) (s : State) : List Action → Bool
  | [] => true
  | a :: rest =>
      match m.step s a with
      | .ok s' => decide (ok s a) && follows m s' rest
      | .error _ => false

theorem path_attempt [∀ s a, Decidable (ok s a)] (follows : m.follows ok s actions = true) :
    m.Path ok s actions (m.attempt s actions) := by
  induction actions generalizing s with
  | nil => exact .nil
  | cons a rest ih =>
      simp only [attempt, Machine.follows] at follows ⊢
      cases stepped : m.step s a with
      | ok next =>
          simp only [stepped, Bool.and_eq_true, decide_eq_true_eq] at follows
          exact .cons follows.1 stepped (ih follows.2)
      | error fault => simp [stepped] at follows

/-- What no guarded step brings about was there all along. -/
theorem Path.back {P : State → Prop} (path : m.Path ok s actions s') (last : P s')
    (back : ∀ s a s', ok s a → m.step s a = .ok s' → P s' → P s) :
    P s ∧ m.Path (fun s a => ok s a ∧ P s) s actions s' := by
  induction path with
  | nil => exact ⟨last, .nil⟩
  | cons guarded stepped _ ih =>
      obtain ⟨next, rest⟩ := ih last
      have here := back _ _ _ guarded stepped next
      exact ⟨here, .cons ⟨guarded, here⟩ stepped rest⟩

/-- Steps never raise the measure, and a step that somebody waits for lowers it, unless another
    has lowered it first: then a path with that step on it lowers it. -/
theorem Path.lowers {β : Type} {I : State → β → Prop} (μ : State → β → Nat)
    (awaited : State → β → Action → Prop)
    (kept : ∀ s b a s', I s b → ok s a → m.step s a = .ok s' →
      ∃ b', I s' b' ∧ μ s' b' ≤ μ s b ∧
        ∀ h, awaited s b h → μ s' b' < μ s b ∨ a ≠ h ∧ awaited s' b' h)
    {b : β} (path : m.Path ok s actions s') (inv : I s b) :
    ∃ b', I s' b' ∧ μ s' b' ≤ μ s b ∧ ∀ h ∈ actions, awaited s b h → μ s' b' < μ s b := by
  induction path generalizing b with
  | nil => exact ⟨b, inv, Nat.le_refl _, nofun⟩
  | cons guarded stepped _ ih =>
      obtain ⟨b₁, inv₁, le₁, waits⟩ := kept _ b _ _ inv guarded stepped
      obtain ⟨b₂, inv₂, le₂, lower⟩ := ih inv₁
      refine ⟨b₂, inv₂, Nat.le_trans le₂ le₁, fun h mem await => ?_⟩
      rcases waits h await with less | ⟨ne, await⟩
      · exact Nat.lt_of_le_of_lt le₂ less
      · have later := (List.mem_cons.mp mem).resolve_left (Ne.symm ne)
        exact Nat.lt_of_lt_of_le (lower h later await) le₁

end

/-- As `Path.lowers`, where no guard is asked of the steps. -/
theorem exec_lowers {β : Type} {I : State → β → Prop} (μ : State → β → Nat)
    (awaited : State → β → Action → Prop)
    (kept : ∀ s b a s', I s b → m.step s a = .ok s' →
      ∃ b', I s' b' ∧ μ s' b' ≤ μ s b ∧
        ∀ h, awaited s b h → μ s' b' < μ s b ∨ a ≠ h ∧ awaited s' b' h)
    {s s' : State} {b : β} {actions : List Action} (inv : I s b) (ran : m.exec s actions = .ok s') :
    ∃ b', I s' b' ∧ μ s' b' ≤ μ s b ∧ ∀ h ∈ actions, awaited s b h → μ s' b' < μ s b :=
  (path_of_exec ran).lowers μ awaited (fun s b a s' here _ => kept s b a s' here) inv

/-! ## Runs with a history -/

section

variable {History : Type} (note : State → Action → State → History → History)

variable (m) in
/-- The machine that keeps, beside its state, notes of the steps it has taken. -/
def recording : Machine (State × History) Action Fault where
  step x a := (m.step x.1 a).map fun s' => (s', note x.1 a s' x.2)

variable {note} {ok : State → Action → Prop} {start s : State} {h : History}

theorem recording_step {x x' : State × History} {a : Action}
    (step : (m.recording note).step x a = .ok x') :
    m.step x.1 a = .ok x'.1 ∧ x'.2 = note x.1 a x'.1 x.2 := by
  simp only [recording] at step
  cases stepped : m.step x.1 a with
  | error fault => simp [stepped, Except.map] at step
  | ok s' =>
      simp only [stepped, Except.map, Except.ok.injEq] at step
      exact ⟨by rw [← step], by rw [← step]⟩

theorem step_recording {x : State × History} {a : Action} {s' : State}
    (stepped : m.step x.1 a = .ok s') :
    (m.recording note).step x a = .ok (s', note x.1 a s' x.2) := by
  simp only [recording, stepped, Except.map]

variable (note h) in
/-- Taking notes hinders no step. -/
theorem recorded_iff : m.Run ok start s ↔
    ∃ h', (m.recording note).Run (fun x => ok x.1) (start, h) (s, h') := by
  constructor
  · intro run
    induction run with
    | start => exact ⟨h, .start⟩
    | step _ guarded stepped ih =>
        obtain ⟨h', recorded⟩ := ih
        exact ⟨_, recorded.step guarded (step_recording (x := (_, h')) stepped)⟩
  · rintro ⟨h', recorded⟩
    apply recorded.invariant (I := fun x => m.Run ok start x.1) .start
    intro x a x' before guarded step
    exact before.step guarded (recording_step step).1

/-- A heeded list of steps, with the notes taken on the way. -/
theorem recorded_attempt {ok : State × History → Action → Prop} [∀ x a, Decidable (ok x a)]
    {x : State × History} {actions : List Action}
    (heeded : (m.recording note).heeds ok x actions = true) :
    (m.recording note).Run ok x
      (((m.recording note).attempt x actions).1, ((m.recording note).attempt x actions).2) :=
  run_attempt ok heeded

end

end Machine
