/- Operations that change a state in place: what they leave, and what runs of them keep. -/
import Tabular.Model.Table
import Tabular.Proofs.Model.Field

namespace Tabular.Model
variable {σ τ α β : Type} {s s' : σ} {op : σ → Outcome σ} {failure : Failure σ}

/-- The state after an operation, be it that it fails. -/
def attempt (s : σ) (op : σ → Outcome σ) : σ :=
  match op s with
  | .ok s' => s'
  | .error failure => failure.left

/-- The state after some operations, each of which may fail. -/
def run (s : σ) (ops : List (σ → Outcome σ)) : σ := ops.foldl attempt s

/-- Whether it is a state that is left, should something fail. -/
def Leaves (x : Except (Failure σ) α) (s : σ) : Prop :=
  ∀ failure, x = .error failure → failure.left = s

/-- Whether an operation that fails leaves the state as it was. -/
def Atomic (op : σ → Outcome σ) : Prop := ∀ s, Leaves (op s) s

theorem keeping_eq_ok {x : Except Fault α} {a : α} : keeping s x = .ok a ↔ x = .ok a :=
  mapError_eq_ok

theorem keeping_eq_error {x : Except Fault α} :
    keeping s x = .error failure ↔ x = .error failure.fault ∧ s = failure.left := by
  cases x with
  | ok a => exact iff_of_false (fun h => nomatch h) fun h => nomatch h.1
  | error fault =>
      constructor
      · intro h
        cases h
        exact ⟨rfl, rfl⟩
      · rintro ⟨hfault, rfl⟩
        cases hfault
        rfl

theorem inPart_eq_ok {whole : σ → τ} {x : Outcome σ} {t : τ} :
    inPart whole x = .ok t ↔ ∃ s, x = .ok s ∧ whole s = t := by
  cases x with
  | ok s =>
      constructor
      · intro h
        cases h
        exact ⟨s, rfl, rfl⟩
      · rintro ⟨s', h, rfl⟩
        cases h
        rfl
  | error failure => exact iff_of_false (fun h => nomatch h) fun ⟨_, h, _⟩ => nomatch h

theorem inPart_eq_error {whole : σ → τ} {x : Outcome σ} {failure : Failure τ} :
    inPart whole x = .error failure ↔
      ∃ part, x = .error part ∧ part.fault = failure.fault ∧ whole part.left = failure.left := by
  cases x with
  | ok s => exact iff_of_false (fun h => nomatch h) fun ⟨_, h, _⟩ => nomatch h
  | error part =>
      constructor
      · intro h
        cases h
        exact ⟨part, rfl, rfl, rfl⟩
      · rintro ⟨part', h, hfault, hleft⟩
        cases h
        cases failure
        cases hfault
        cases hleft
        rfl

theorem told_eq_ok {x : Except (Failure σ) α} {a : α} : told x = .ok a ↔ x = .ok a :=
  mapError_eq_ok

theorem told_eq_error {x : Except (Failure σ) α} {fault : Fault} :
    told x = .error fault ↔ ∃ failure, x = .error failure ∧ failure.fault = fault := by
  cases x with
  | ok a => exact iff_of_false (fun h => nomatch h) fun ⟨_, h, _⟩ => nomatch h
  | error failure =>
      constructor
      · intro h
        cases h
        exact ⟨failure, rfl, rfl⟩
      · rintro ⟨failure', h, rfl⟩
        cases h
        rfl

theorem leaves_ok (a : α) : Leaves (.ok a) s :=
  fun _ h => nomatch h

theorem leaves_error (fault : Fault) (s : σ) :
    Leaves (.error ⟨fault, s⟩ : Except (Failure σ) α) s := by
  rintro _ ⟨⟩
  rfl

/-- A check comes before a change. -/
theorem leaves_check {p : Prop} [Decidable p] (fault : Fault) (s s' : σ) :
    Leaves (if p then .error ⟨fault, s⟩ else .ok s') s := by
  split
  · exact leaves_error fault s
  · exact leaves_ok s'

theorem leaves_keeping (s : σ) (x : Except Fault α) : Leaves (keeping s x) s :=
  fun _ h => (keeping_eq_error.mp h).2.symm

theorem Leaves.bind {x : Except (Failure σ) α} {f : α → Except (Failure σ) β} (hx : Leaves x s)
    (hf : ∀ a, x = .ok a → Leaves (f a) s) : Leaves (x >>= f) s := by
  intro failure h
  rcases bind_eq_error.mp h with herror | ⟨a, ha, herror⟩
  · exact hx failure herror
  · exact hf a ha failure herror

theorem Leaves.inPart {x : Outcome σ} {whole : σ → τ} {t : τ} (hx : Leaves x s)
    (ht : whole s = t) : Leaves (inPart whole x) t := by
  intro failure h
  obtain ⟨part, hpart, _, hleft⟩ := inPart_eq_error.mp h
  rw [← hleft, hx part hpart, ht]

theorem Atomic.editFirst {edit : α → Outcome α} (hedit : Atomic edit) (p : α → Bool)
    (absent : Fault) : Atomic (editFirst p absent edit) := by
  intro as
  induction as with
  | nil => exact leaves_error absent []
  | cons a as ih =>
      rw [Model.editFirst]
      split
      · exact (hedit a).inPart rfl
      · exact ih.inPart rfl

theorem attempt_of_ok (h : op s = .ok s') : attempt s op = s' := by
  rw [attempt, h]

theorem Atomic.attempt_of_error (hop : Atomic op) (h : op s = .error failure) :
    attempt s op = s := by
  rw [attempt, h]
  exact hop s failure h

/-- What an operation keeps when it succeeds is kept whether it succeeds or not. -/
theorem Atomic.attempt_keeps {P : σ → Prop} (hop : Atomic op)
    (hok : ∀ s', op s = .ok s' → P s') (h : P s) : P (attempt s op) := by
  cases heq : op s with
  | ok s' =>
      rw [attempt_of_ok heq]
      exact hok s' heq
  | error failure => rwa [hop.attempt_of_error heq]

/-- What each operation keeps, a run of them keeps. -/
theorem run_keeps {P : σ → Prop} {ops : List (σ → Outcome σ)}
    (hops : ∀ op ∈ ops, ∀ s, P s → P (attempt s op)) (h : P s) : P (run s ops) := by
  induction ops generalizing s with
  | nil => exact h
  | cons op ops ih =>
      obtain ⟨hop, hrest⟩ := List.forall_mem_cons.mp hops
      exact ih hrest (hop s h)

theorem run_append (s : σ) (ops ops' : List (σ → Outcome σ)) :
    run s (ops ++ ops') = run (run s ops) ops' :=
  List.foldl_append

end Tabular.Model
