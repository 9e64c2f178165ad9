import CppCodes.System.Delivery

/-!
# Which reports reach the strategy

`parse_exec_reports` ignores what `outbound_.push` returns, while the push in the
other direction is checked. The reports popped and queued are the valid reports
parsed as long as no report meets a full ring, and never again after that.
-/

set_option autoImplicit false

namespace CppCodes.Guarantees.ReportDelivery

open CppCodes.Library
open CppCodes.Source.HftTest
open CppCodes.Source.HftTest.OmsEngine
open CppCodes.System.Delivery

/-- For every byte stream, every cutting of it and every interleaving with the pops
of thread A: nothing is lost if and only if every valid report parsed found the
ring with less than 1023 elements. -/
theorem delivered_iff_room (data : Fin (2 ^ kRingDepthLog) → ExecUpdate) (actions : List Action)
    (s : State) (trace : List Event) (h : machine.Run (start data) actions s trace) :
    Delivered s trace ↔ machine.StepsMeet RoomForReport (start data) actions := by
  have hstart : (start data).engine.outbound.contents = [] := SPSCRing.contents_empty data
  have hall := h.induction
    (P := fun actions t trace =>
      (popped trace ++ t.engine.outbound.contents).length ≤ (parsed trace).length ∧
        (Delivered t trace ↔ machine.StepsMeet RoomForReport (start data) actions))
    (by simp [Delivered, hstart, popped, parsed, Machine.StepsMeet]) (by
      intro actions t trace a u seen hrun ih hstep
      obtain ⟨hle, hiff⟩ := step_delivered hstep ih.1
      refine ⟨hle, ?_⟩
      rw [hiff, ih.2, Machine.stepsMeet_snoc_iff hrun])
  exact hall.2

/-! ## A burst that nobody pops -/

/-- A frame with an acknowledgement, all fields zero. -/
def zeroFrame : Bytes := packWithLength ({} : WireExecReport).toBytes

/-- The frame arrives alone and is parsed; the second look finds nothing more. -/
def oneReport : List Action := [.recv zeroFrame, .parse 0, .parse 0]

def burst (n : Nat) : List Action := (List.replicate n oneReport).flatten

theorem run_oneReport (engine : OmsEngine) :
    machine.Run ⟨engine, [], .idle⟩ oneReport ⟨engine.applyReport {}, [], .idle⟩
      [.parsed {} (engine.orders.lookup 0)] := by
  have hframe : unpackFrame zeroFrame 0 [] = (true, 76, ({} : WireExecReport).toBytes) := by
    decide +kernel
  have hend : unpackFrame zeroFrame 76 ({} : WireExecReport).toBytes =
      (false, 76, ({} : WireExecReport).toBytes) := by
    decide +kernel
  have hvalid : execUpdateOf ({} : WireExecReport).toBytes 0 = some {} := by decide +kernel
  have herase : zeroFrame.drop 76 = [] := by decide +kernel
  have hrecv : machine.step ⟨engine, [], .idle⟩ (.recv zeroFrame) =
      some (⟨engine, zeroFrame, .parsing 0 []⟩, []) := rfl
  have hparse : machine.step ⟨engine, zeroFrame, .parsing 0 []⟩ (.parse 0) =
      some (⟨engine.applyReport {}, zeroFrame, .parsing 76 ({} : WireExecReport).toBytes⟩,
        [.parsed {} (engine.orders.lookup 0)]) := by
    simp only [machine, hframe, hvalid]
  have hleave : machine.step
      ⟨engine.applyReport {}, zeroFrame, .parsing 76 ({} : WireExecReport).toBytes⟩ (.parse 0) =
        some (⟨engine.applyReport {}, [], .idle⟩, []) := by
    simp only [machine, hend, herase]
  exact Machine.Run.cons hrecv (Machine.Run.cons hparse (Machine.Run.single hleave))

theorem run_burst (n : Nat) (engine : OmsEngine) :
    ∃ u trace, machine.Run ⟨engine, [], .idle⟩ (burst n) u trace ∧ popped trace = [] ∧
      (parsed trace).length = n := by
  induction n generalizing engine with
  | zero => exact ⟨_, [], Machine.Run.nil _, rfl, rfl⟩
  | succ n ih =>
    obtain ⟨u, trace, hrun, hpop, hparse⟩ := ih (engine.applyReport {})
    have hburst : burst (n + 1) = oneReport ++ burst n := by
      rw [burst, burst, List.replicate_succ, List.flatten_cons]
    refine ⟨u, [.parsed {} (engine.orders.lookup 0)] ++ trace, ?_, ?_, ?_⟩
    · rw [hburst]
      exact (run_oneReport engine).append hrun
    · rw [popped_append, hpop]
      rfl
    · rw [parsed_append, List.length_append, hparse, Nat.add_comm]
      rfl

/-- 1024 reports while thread A is busy: one is lost. -/
theorem burst_of_1024_loses_a_report :
    ∃ s trace, machine.Run (start fun _ => {}) (burst 1024) s trace ∧ ¬ Delivered s trace := by
  obtain ⟨s, trace, hrun, hpop, hparse⟩ := run_burst 1024 (start fun _ => {}).engine
  refine ⟨s, trace, hrun, ?_⟩
  intro hd
  have hlen := congrArg List.length hd
  have hring := s.engine.outbound.contents_length_lt
  rw [hpop, hparse, List.nil_append] at hlen
  rw [hlen] at hring
  exact absurd hring (by decide)

/-- One report that is parsed and popped. -/
theorem delivered_iff_room_one_report :
    ∃ s trace, machine.Run (start fun _ => {}) (oneReport ++ [.popExec]) s trace ∧
      parsed trace = [{}] ∧ (Delivered s trace ↔ machine.StepsMeet RoomForReport
        (start fun _ => {}) (oneReport ++ [.popExec])) := by
  have hrun := Machine.run_of_isSome (m := machine) (start fun _ => {})
    (oneReport ++ [.popExec]) (by decide +kernel)
  exact ⟨_, _, hrun, by decide +kernel, delivered_iff_room _ _ _ _ hrun⟩

end CppCodes.Guarantees.ReportDelivery
