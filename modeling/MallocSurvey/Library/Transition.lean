/-! # Transition systems with faults

A machine takes the events that are enabled in its state. An event on which it
faults has no successor. Runs may be restricted to allowed events. -/

namespace MallocSurvey.Library

structure Machine (State Event : Type) where
  Init : State → Prop
  Enabled : State → Event → Prop
  /-- `none` is a fault. -/
  step : State → Event → Option State

namespace Machine

variable {State Event : Type} (machine : Machine State Event)

/-- The states of the runs all of whose events are allowed. -/
inductive Reachable (allowed : State → Event → Prop) : State → Prop
  | init {state : State} : machine.Init state → Reachable allowed state
  | step {state next : State} {event : Event} :
      Reachable allowed state → machine.Enabled state event →
      allowed state event → machine.step state event = some next →
      Reachable allowed next

/-- `next` is reached from `state` by allowed events. -/
inductive Leads (allowed : State → Event → Prop) (state : State) : State → Prop
  | refl : Leads allowed state state
  | step {middle next : State} {event : Event} :
      Leads allowed state middle → machine.Enabled middle event →
      allowed middle event → machine.step middle event = some next →
      Leads allowed state next

/-- The allowed events take the machine from one state to another. -/
inductive Runs (allowed : State → Event → Prop) : State → List Event → State → Prop
  | nil {state : State} : Runs allowed state [] state
  | cons {state middle next : State} {event : Event} {events : List Event} :
      machine.Enabled state event → allowed state event →
      machine.step state event = some middle → Runs allowed middle events next →
      Runs allowed state (event :: events) next

/-- No allowed event faults in the state. -/
def Safe (allowed : State → Event → Prop) (state : State) : Prop :=
  ∀ event, machine.Enabled state event → allowed state event →
    machine.step state event ≠ none

variable {machine} {allowed : State → Event → Prop}

theorem Reachable.leads {state next : State} (reachable : machine.Reachable allowed state)
    (leads : machine.Leads allowed state next) : machine.Reachable allowed next := by
  induction leads with
  | refl => exact reachable
  | step _ enabled isAllowed result induction =>
      exact .step induction enabled isAllowed result

theorem Leads.trans {first second third : State}
    (left : machine.Leads allowed first second)
    (right : machine.Leads allowed second third) :
    machine.Leads allowed first third := by
  induction right with
  | refl => exact left
  | step _ enabled isAllowed result induction =>
      exact .step induction enabled isAllowed result

theorem Leads.single {state next : State} {event : Event}
    (enabled : machine.Enabled state event) (isAllowed : allowed state event)
    (result : machine.step state event = some next) :
    machine.Leads allowed state next :=
  .step .refl enabled isAllowed result

/-- What the steps preserve holds from any state it holds in. -/
theorem Leads.invariant {Inv : State → Prop}
    (preserved : ∀ state event next, Inv state → machine.Enabled state event →
      allowed state event → machine.step state event = some next → Inv next)
    {state next : State} (leads : machine.Leads allowed state next)
    (start : Inv state) : Inv next := by
  induction leads with
  | refl => exact start
  | step _ enabled isAllowed result induction =>
      exact preserved _ _ _ induction enabled isAllowed result

theorem Reachable.invariant {Inv : State → Prop}
    (start : ∀ state, machine.Init state → Inv state)
    (preserved : ∀ state event next, Inv state → machine.Enabled state event →
      allowed state event → machine.step state event = some next → Inv next)
    {state : State} (reachable : machine.Reachable allowed state) : Inv state := by
  induction reachable with
  | init isInit => exact start _ isInit
  | step _ enabled isAllowed result induction =>
      exact preserved _ _ _ induction enabled isAllowed result

theorem Runs.invariant {Inv : State → Prop}
    (preserved : ∀ state event next, Inv state → machine.Enabled state event →
      allowed state event → machine.step state event = some next → Inv next)
    {state next : State} {events : List Event} (runs : machine.Runs allowed state events next)
    (start : Inv state) : Inv next := by
  induction runs with
  | nil => exact start
  | cons enabled isAllowed result _ induction =>
      exact induction (preserved _ _ _ start enabled isAllowed result)

/-- The state after some events, if they are enabled and none of them faults. -/
def run (machine : Machine State Event)
    [∀ state event, Decidable (machine.Enabled state event)] : State → List Event → Option State
  | state, [] => some state
  | state, event :: events =>
      if machine.Enabled state event then do
        let middle ← machine.step state event
        machine.run middle events
      else none

theorem leads_of_run [∀ state event, Decidable (machine.Enabled state event)]
    {state next : State} {events : List Event} (result : machine.run state events = some next) :
    machine.Leads (fun _ _ => True) state next := by
  induction events generalizing state with
  | nil =>
      cases result
      exact .refl
  | cons event events induction =>
      unfold run at result
      split at result
      · next enabled =>
          cases stepped : machine.step state event with
          | none => simp [stepped] at result
          | some middle =>
              simp only [stepped, Option.bind_eq_bind, Option.bind_some] at result
              exact (Leads.single enabled trivial stepped).trans (induction result)
      · cases result

theorem Reachable.mono {wider : State → Event → Prop}
    (weaken : ∀ state event, allowed state event → wider state event)
    {state : State} (reachable : machine.Reachable allowed state) :
    machine.Reachable wider state := by
  induction reachable with
  | init isInit => exact .init isInit
  | step _ enabled isAllowed result induction =>
      exact .step induction enabled (weaken _ _ isAllowed) result

end Machine

end MallocSurvey.Library
