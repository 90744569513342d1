import Farlock.FARLock.Traces
import Farlock.FARLockG.Traces

/-!
# FARLockG with budget one is FARLock

`budget_one_equivalence`: whatever the handlers call, an onlooker cannot tell the two locks apart,
because both show exactly what two lines and a row of tickets show (`Algorithm.traces_eq`).
-/

namespace Farlock

open Clients (steps)

variable {H L : Type} [DecidableEq H] [DecidableEq L]

/-- FARLockG with both budgets one and FARLock can be seen to do the same. -/
theorem budget_one_equivalence (C : Cluster H L) (P : H → List L) :
    traces (fun l => { lock := l }) (FARLockG.exec C ⟨1, 1⟩) P =
      traces (fun l => { lock := l }) (FARLock.exec C) P :=
  calc
    _ = _ := (FARLockG.algorithm C).traces_eq P
    _ = _ := ((FARLock.algorithm C).traces_eq P).symm

/-- One acquisition of each handler of `Cluster.pair`: the remote one comes while the local one is in
the critical section, and draws its ticket after the advance. -/
def oneRound : List (Unit × Event Bool UInt64) :=
  [((), .arrive .loc false), ((), .draw .loc false 0), ((), .enter .loc false 0),
    ((), .arrive .rem true), ((), .advance .loc false 1), ((), .draw .rem true 1),
    ((), .enter .rem true 1), ((), .advance .rem true 2)]

/-- FARLockG can be seen to do this, and so can FARLock. -/
theorem budget_one_equivalence_pair :
    oneRound ∈ traces (fun l => { lock := l }) (FARLockG.exec Cluster.pair ⟨1, 1⟩) (fun _ => [()]) ∧
      oneRound ∈ traces (fun l => { lock := l }) (FARLock.exec Cluster.pair) fun _ => [()] := by
  have hmem : oneRound ∈ traces (fun l => { lock := l }) (FARLockG.exec Cluster.pair ⟨1, 1⟩)
      fun _ => [()] := by
    refine ⟨.zero {}, (false, .call ()) :: steps false 18 ++ (true, .call ()) :: steps true 6 ++
      steps false 6 ++ steps true 17, _, _, ⟨fun _ => rfl, fun _ => rfl⟩, rfl, ?_, ?_, ?_⟩
    · decide
    · decide
    · decide
  exact ⟨hmem, budget_one_equivalence Cluster.pair (fun _ => [()]) ▸ hmem⟩

end Farlock
