import Luksbox.Model.Vfs

/-!
# Asking before the space goes back (`luksbox-vfs/src/vfs.rs`, `ShrinkControl`)

The `Vfs` of a mount ends inside the mount, and whoever started it holds its
`ShrinkControl`: there `finish` reads what to do, and in `ask` mode puts its
question and waits for the answer. All of it is behind one lock. A method is one
step; `ask` is a step each time it has the lock, with other steps in between
while it waits, and a wait can end for no reason. The clock is what a step reads
on it, and it has a last instant: a deadline past that panics. The lock is taken
whether or not it is poisoned. In a run of the vault the answer is the
`shrinkAnswer` of a call.
-/

namespace Luksbox.ShrinkControl

structure ShrinkState where
  mode : ShrinkOnFinish
  question : Option Nat
  answer : Option Bool
  answerTimeout : Nat
  deriving DecidableEq

namespace ShrinkState

def default : ShrinkState where
  mode := .keep
  question := none
  answer := none
  answerTimeout := 120

def setMode (s : ShrinkState) (mode : ShrinkOnFinish) : ShrinkState := { s with mode := mode }

def setAnswerTimeout (s : ShrinkState) (timeout : Nat) : ShrinkState :=
  { s with answerTimeout := timeout }

/-- `answer`, which counts only while there is a question. -/
def answered (s : ShrinkState) (giveBack : Bool) : ShrinkState :=
  if s.question.isSome then { s with answer := some giveBack } else s

/-- `ask`, up to its loop. -/
def publish (s : ShrinkState) (reclaimable : Nat) : ShrinkState :=
  { s with question := some reclaimable, answer := none }

/-- Does the loop of `ask` wait on? -/
def waitsOn (s : ShrinkState) (deadline now : Nat) : Bool :=
  s.answer.isNone && decide (now < deadline)

/-- `ask`, after its loop. -/
def settle (s : ShrinkState) : ShrinkState × Bool :=
  ({ s with question := none, answer := none }, s.answer.getD false)

end ShrinkState

/-- Where `finish` is. -/
inductive Phase where
  | idle
  /-- It has read `ask`, and the space report is being made. -/
  | reporting (atLeast : Nat)
  /-- `ask` has given up the lock. -/
  | waiting (deadline : Nat)
  deriving DecidableEq

structure Session where
  state : ShrinkState
  phase : Phase
  deriving DecidableEq

inductive Action where
  | setMode (mode : ShrinkOnFinish)
  | setAnswerTimeout (timeout : Nat)
  | question
  | answer (giveBack : Bool)
  /-- `finish` reads the mode. -/
  | finish
  /-- The report is there; if it is worth it, `ask` begins at `now` and first
  looks at the answer at `later`. -/
  | report (reclaimable now later : Nat)
  | reportFailed
  /-- `ask` has the lock again. -/
  | wake (now : Nat)
  deriving DecidableEq

/-- The loop of `ask`, and what `finish` then does: nothing yet, keep the space
or give it back. -/
def poll (s : ShrinkState) (deadline now : Nat) : Session × Option Bool :=
  if s.waitsOn deadline now then (⟨s, .waiting deadline⟩, none)
  else (⟨s.settle.1, .idle⟩, some s.settle.2)

/-- One step, and the decision of `finish` if it is made in it. A `finish` has
its `Vfs` for itself, so no other one begins before it ends. -/
def step (latest : Nat) (x : Session) : Action → Session × Option Bool
  | .setMode mode => ({ x with state := x.state.setMode mode }, none)
  | .setAnswerTimeout timeout => ({ x with state := x.state.setAnswerTimeout timeout }, none)
  | .question => (x, none)
  | .answer giveBack => ({ x with state := x.state.answered giveBack }, none)
  | .finish =>
      match x.phase, x.state.mode with
      | .idle, .keep => (x, some false)
      | .idle, .giveBack => (x, some true)
      | .idle, .ask atLeast => (⟨x.state, .reporting atLeast⟩, none)
      | _, _ => (x, none)
  | .report reclaimable now later =>
      match x.phase with
      | .reporting atLeast =>
          if reclaimable ≥ max atLeast 1 then
            -- the deadline is formed with the question already put; where that panics,
            -- `finish` is gone and the question stays
            if latest < now + x.state.answerTimeout then (⟨x.state.publish reclaimable, .idle⟩, none)
            else poll (x.state.publish reclaimable) (now + x.state.answerTimeout) later
          else (⟨x.state, .idle⟩, some false)
      | _ => (x, none)
  | .reportFailed =>
      match x.phase with
      | .reporting _ => (⟨x.state, .idle⟩, none)
      | _ => (x, none)
  | .wake now =>
      match x.phase with
      | .waiting deadline => poll x.state deadline now
      | _ => (x, none)

def run (latest : Nat) (x : Session) (acts : List Action) : Session :=
  acts.foldl (fun x a => (step latest x a).1) x

end Luksbox.ShrinkControl
