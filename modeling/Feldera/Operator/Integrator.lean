import Feldera.Trace.Batch

/-!
Operators with an integrator around them: every worker adds its output to a
trace of its own and reads the trace with a delay of one step (`TraceAppend`
and `Z1Trace`). The trace of a worker is the sum of what it has put out, so the
running sum of the output stream is the sum of the traces.
-/

namespace Feldera.Operator.Integrator

open Trace

variable {K V I : Type*} {n : Nat} [LinearOrder K] [LinearOrder V]
  (op : Fin n → Batch K V Unit ℤ → I → Layers K V Unit ℤ)

def empty (_ : Fin n) : Batch K V Unit ℤ := Batch.ofTuples []

def step (traces : Fin n → Batch K V Unit ℤ) (input : I) (w : Fin n) : Batch K V Unit ℤ :=
  Batch.ofTuples ((traces w).layers.tuples ++ (op w (traces w) input).tuples)

def run (inputs : List I) : Fin n → Batch K V Unit ℤ :=
  inputs.foldl (step op) empty

def outputs (traces : Fin n → Batch K V Unit ℤ) : List I → List (Fin n → Layers K V Unit ℤ)
  | [] => []
  | input :: inputs => (fun w => op w (traces w) input) :: outputs (step op traces input) inputs

def runningSum (inputs : List I) (x : K × V × Unit) : ℤ :=
  ((outputs op empty inputs).map fun out => ∑ w, (out w).weight x).sum

variable (inputs : List I)

theorem run_concat (input : I) : run op (inputs ++ [input]) = step op (run op inputs) input := by
  simp [run]

theorem weight_empty (w : Fin n) (x : K × V × Unit) :
    (empty w : Batch K V Unit ℤ).weight x = 0 := by
  simp [empty]

variable (traces : Fin n → Batch K V Unit ℤ)

theorem weight_step (input : I) (w : Fin n) (x : K × V × Unit) :
    (step op traces input w).weight x =
      (traces w).weight x + (op w (traces w) input).weight x := by
  rw [step, Batch.weight_ofTuples, Weighted.weight_append]
  rfl

theorem sum_outputs (inputs : List I) (x : K × V × Unit) :
    ∑ w, (traces w).weight x +
        ((outputs op traces inputs).map fun out => ∑ w, (out w).weight x).sum =
      ∑ w, (inputs.foldl (step op) traces w).weight x := by
  induction inputs generalizing traces with
  | nil => simp [outputs]
  | cons input inputs ih =>
    have hstep : ∑ w, (step op traces input w).weight x =
        ∑ w, (traces w).weight x + ∑ w, (op w (traces w) input).weight x := by
      rw [← Finset.sum_add_distrib]
      exact Finset.sum_congr rfl fun w _ => weight_step op traces input w x
    rw [List.foldl_cons, ← ih, hstep, outputs, List.map_cons, List.sum_cons, add_assoc]

theorem runningSum_eq (x : K × V × Unit) :
    runningSum op inputs x = ∑ w, (run op inputs w).weight x := by
  have hsum := sum_outputs op empty inputs x
  simp only [weight_empty, Finset.sum_const_zero, zero_add] at hsum
  exact hsum

end Feldera.Operator.Integrator
