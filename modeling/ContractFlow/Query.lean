import ContractFlow.Program.Declaration

/-! This module contains the answers to questions about a program, with what turned out to be impossible on the way. -/

namespace ContractFlow

/-- A part of the analysis that is impossible. -/
inductive Incident where
  | linearization (contract : ContractId)
  | control (callable : CallableId) (spliced : Bool) (fault : Fault)
  | ssa (callable : CallableId) (fault : Fault)
deriving DecidableEq, Inhabited

structure Query (α : Type) where
  outcome : Except Fault α
  incidents : List Incident
deriving Inhabited

namespace Query

variable {α β : Type}

def ok (x : α) : Query α :=
  ⟨.ok x, []⟩

def andThen (x : Query α) (f : α → Query β) : Query β :=
  match x.outcome with
  | .error e => ⟨.error e, x.incidents⟩
  | .ok a => ⟨(f a).outcome, x.incidents ++ (f a).incidents⟩

instance : Monad Query where
  pure := ok
  bind := andThen

@[simp]
theorem outcome_pure (x : α) : (pure x : Query α).outcome = .ok x := rfl

@[simp]
theorem incidents_pure (x : α) : (pure x : Query α).incidents = [] := rfl

theorem outcome_bind (x : Query α) (f : α → Query β) :
    (x >>= f).outcome = x.outcome.bind fun a => (f a).outcome := by
  show (x.andThen f).outcome = _
  unfold andThen
  cases x.outcome <;> rfl

theorem outcome_bind_ok {x : Query α} {f : α → Query β} {a : α} (h : x.outcome = .ok a) :
    (x >>= f).outcome = (f a).outcome := by
  rw [outcome_bind, h]
  rfl

def ofExcept (x : Except Fault α) : Query α :=
  ⟨x, []⟩

instance : MonadLift (Except Fault) Query := ⟨ofExcept⟩

def fail (e : Fault) : Query α :=
  ⟨.error e, []⟩

def report (incidents : List Incident) : Query Unit :=
  ⟨.ok (), incidents⟩

def orReport (q : Query α) (incident : Fault → Incident) : Query (Option α) :=
  match q.outcome with
  | .ok a => ⟨.ok (some a), q.incidents⟩
  | .error e => ⟨.ok none, q.incidents ++ [incident e]⟩

def getD (q : Query α) (x : α) : α :=
  match q.outcome with
  | .ok a => a
  | .error _ => x

def orElse (q : Query α) (x : α) : Query α :=
  ⟨.ok (q.getD x), q.incidents⟩

end Query

end ContractFlow
