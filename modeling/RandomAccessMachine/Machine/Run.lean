import RandomAccessMachine.Machine.Step

/-!
# Runs of a machine

A run repeats steps until the machine halts or a step fails. As a program may
loop for ever, a run has a bound on the number of its steps, and a run that
uses up the bound is told from the finished ones.
-/

namespace RandomAccessMachine

/-- How a run ends. -/
inductive Outcome (ε : Type)
  /-- The machine halted with this value in the accumulator. -/
  | returned (value : Word)
  /-- The run failed. -/
  | failed (error : ε)
  /-- The bound on the number of steps is used up. -/
  | unfinished
  deriving DecidableEq

namespace Machine

/-- Run the machine for at most this many steps, and give the state in which the run ends. -/
def run (bound : Nat) (m : Machine) : Outcome RuntimeError × Machine :=
  if m.isHalted then (.returned m.accumulator, m)
  else
    match bound with
    | 0 => (.unfinished, m)
    | bound + 1 =>
        match m.step with
        | .error e => (.failed e, m)
        | .ok next => run bound next

theorem run_of_isHalted {m : Machine} (h : m.isHalted) (bound : Nat) :
    m.run bound = (.returned m.accumulator, m) := by
  cases bound <;> simp [run, h]

theorem run_zero_of_not_isHalted {m : Machine} (h : ¬ m.isHalted) :
    m.run 0 = (.unfinished, m) := by
  simp [run, h]

theorem run_succ_of_ok {m next : Machine} (h : ¬ m.isHalted) (hs : m.step = .ok next)
    (bound : Nat) : m.run (bound + 1) = next.run bound := by
  simp [run, h, hs]

theorem run_succ_of_error {m : Machine} {e : RuntimeError} (h : ¬ m.isHalted)
    (hs : m.step = .error e) (bound : Nat) : m.run (bound + 1) = (.failed e, m) := by
  simp [run, h, hs]

end Machine

end RandomAccessMachine
