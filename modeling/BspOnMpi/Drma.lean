import BspOnMpi.Superstep

/-! Direct remote memory access. The memory of a processor after a superstep, whatever the tables
had to do for it. -/

namespace BspOnMpi.Drma
open Lib Memreg Slots Machine Bspx Calls BspxSync Superstep

/-- After `bspx_sync` the memory of `q` is its memory at entry with, for every
processor in order, its puts to `q` and then its answers to the gets of `q`,
which are bytes of its memory at entry. -/
theorem superstep_memory {n : ℕ} {rows : ℕ → List Row} {tagSize : ℕ → ℕ} {ops : ℕ → List Op}
    {w : World} (hr : Reachable n (fun _ => True) rows tagSize w)
    (ha : Admissible n rows tagSize ops w) :
    ∃ v w', localPhase n ops w = some v ∧ bspxSync n v = some w' ∧ ∀ q < n,
      (w' q).mem = writeAll (v q).mem ((List.range n).flatMap fun p =>
        putsTo q (callsAt n rows tagSize ops w p) ++
          answersOf p (v p).mem (callsAt n rows tagSize ops w q)) := by
  obtain ⟨v, w', hv, hw', hspec⟩ := superstep_spec (reachable_clean hr) ha
  exact ⟨v, w', hv, hw', fun q hq => (hspec q hq).2.mem⟩

section Example

def registerOps : ℕ → List Op := fun p => [.pushReg (100 * (p + 1))]

def putGetOps : ℕ → List Op := fun p =>
  if p = 0 then [.put 1 7 100 0 1] else [.get 0 200 0 50 1]

def registeredRow : Row := below 2 fun p => 100 * (p + 1)

theorem register_admissible :
    Admissible 2 (fun _ => []) (fun _ => 0) registerOps (startWorld 2) :=
  ⟨fun _ _ => ⟨trivial, fun _ _ => trivial⟩, fun _ _ => rfl, fun _ _ => trivial⟩

theorem register_reachable (P : (ℕ → List Call) → Prop)
    (hP : P fun p => [.pushReg (100 * (p + 1))]) :
    ∃ w, superstep 2 registerOps (startWorld 2) = some w ∧
      Reachable 2 P (fun _ => [registeredRow]) (fun _ => 0) w :=
  reachable_step (startWorld_reachable 2 P) register_admissible hP

theorem putGet_calls (w : World) :
    let cs := callsAt 2 (fun _ => [registeredRow]) (fun _ => 0) putGetOps w
    cs 0 = [.put 1 200 (load (w 0).mem 7 1)] ∧ cs 1 = [.get 0 100 0 50 1] := by
  constructor
  · exact trace_singleton ..
  · exact trace_singleton ..

theorem putGet_admissible (w : World) :
    Admissible 2 (fun _ => [registeredRow]) (fun _ => 0) putGetOps w := by
  have hcalls : ∀ p, pushes (callsAt 2 (fun _ => [registeredRow]) (fun _ => 0) putGetOps w p) = [] ∧
      pops (callsAt 2 (fun _ => [registeredRow]) (fun _ => 0) putGetOps w p) = [] := by
    intro p
    by_cases hp : p = 0
    · simp only [callsAt, callsOf, putGetOps, if_pos hp, trace_singleton, callOf]
      cases lastRow _ p 100 <;> exact ⟨rfl, rfl⟩
    · simp only [callsAt, callsOf, putGetOps, if_neg hp, trace_singleton, callOf]
      cases lastRow _ p 200 <;> exact ⟨rfl, rfl⟩
  refine ⟨fun p hp => ?_, fun p hp => ?_, fun p hp => ?_⟩
  · obtain rfl | rfl : p = 0 ∨ p = 1 := by omega
    · exact ⟨⟨by decide, by decide, by decide⟩, fun _ _ => trivial⟩
    · exact ⟨⟨by decide, by decide, by decide, by decide, by decide⟩, fun _ _ => trivial⟩
  · rw [(hcalls p).1, (hcalls 0).1]
  · rw [(hcalls p).2]
    trivial

theorem superstep_memory_putGet : ∃ w, superstep 2 registerOps (startWorld 2) = some w ∧
    ∃ v w', localPhase 2 putGetOps w = some v ∧ bspxSync 2 v = some w' ∧ ∀ q < 2,
      (w' q).mem = writeAll (v q).mem ((List.range 2).flatMap fun p =>
        putsTo q (callsAt 2 (fun _ => [registeredRow]) (fun _ => 0) putGetOps w p) ++
          answersOf p (v p).mem
            (callsAt 2 (fun _ => [registeredRow]) (fun _ => 0) putGetOps w q)) := by
  obtain ⟨w, hs, hr⟩ := register_reachable (fun _ => True) trivial
  exact ⟨w, hs, superstep_memory hr (putGet_admissible w)⟩

end Example

end BspOnMpi.Drma
