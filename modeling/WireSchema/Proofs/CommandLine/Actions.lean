import WireSchema.CommandLine.Run
import WireSchema.Proofs.Outcome

/-! Actions that are run. A step that succeeds is followed by the next one, from the state that it
leaves its surroundings in. -/

namespace WireSchema.CommandLine

open Outcome

variable {σ : Type}

def Action.runFrom (action : Action (StateM σ) α) (start : σ) : Except CommandError α × σ :=
  action.run.run start

theorem Action.runFrom_bind {first : Action (StateM σ) α} {next : α → Action (StateM σ) β}
    {start stop : σ} {value : β} :
    (first >>= next).runFrom start = (.ok value, stop) ↔
      ∃ result middle, first.runFrom start = (.ok result, middle) ∧
        (next result).runFrom middle = (.ok value, stop) := by
  have unfolded : (first >>= next).runFrom start =
      match first.runFrom start with
      | (.ok result, middle) => (next result).runFrom middle
      | (.error error, middle) => (.error error, middle) := by
    show ExceptT.bindCont next (first.runFrom start).1 (first.runFrom start).2 = _
    split
    next result middle reached =>
      rw [reached]
      rfl
    next error middle reached =>
      rw [reached]
      rfl
  rw [unfolded]
  split
  next result middle reached => simp [reached]
  next error middle reached => simp [reached]

end WireSchema.CommandLine
