import Lintel.Fault
import Lintel.Issue
import Lintel.Tree

/-!
# The world around a run

Rules and the parser are the parts of a run that come from outside. They may keep a memory of
their own, they may fail, and while they work the run may be cancelled. All of this is data here.

A call to a rule or to the parser takes the memory `σ` and gives a `Reply`: the answer or the
fault, the new memory, and whether the run was cancelled meanwhile. A `World` is what is left of
all replies so far: the memory, the cancellation flag, and the list of calls made, the newest
first. The flag stays up once it is raised, until a new run lowers it.

The list of calls is what statements about *when* a rule is asked refer to.
-/

namespace Lintel

/-- What a rule or the parser gives back. -/
structure Reply (σ : Type) (α : Type) where
  answer : Except Fault α
  memory : σ
  /-- The run was cancelled while the call was made. -/
  cancels : Bool := false

namespace Reply

variable {σ α : Type}

def ofExcept (answer : Except Fault α) (memory : σ) : Reply σ α :=
  ⟨answer, memory, false⟩

end Reply

/-- A call made during a run. -/
inductive Call where
  | parse (text : String)
  | detect (rule : String) (text : String) (found : List Issue)
  | correct (rule : String) (text : String) (issue : Issue)
  deriving DecidableEq, Repr

/-- The memory of rules and parser, the cancellation flag, and the calls made so far. -/
structure World (σ : Type) where
  memory : σ
  cancelled : Bool := false
  calls : List Call := []

namespace World

variable {σ α : Type}

def after (w : World σ) (call : Call) (r : Reply σ α) : World σ :=
  -- only raised here: a call cannot lower the flag
  ⟨r.memory, w.cancelled || r.cancels, call :: w.calls⟩

def cancel (w : World σ) : World σ := { w with cancelled := true }

def resume (w : World σ) : World σ := { w with cancelled := false }

/-- How often the parser was called. -/
def parses (w : World σ) : Nat :=
  w.calls.countP fun
    | .parse _ => true
    | _ => false

@[simp] theorem after_memory (w : World σ) (call : Call) (r : Reply σ α) :
    (w.after call r).memory = r.memory := rfl

@[simp] theorem after_cancelled (w : World σ) (call : Call) (r : Reply σ α) :
    (w.after call r).cancelled = (w.cancelled || r.cancels) := rfl

@[simp] theorem after_calls (w : World σ) (call : Call) (r : Reply σ α) :
    (w.after call r).calls = call :: w.calls := rfl

end World

/-- A parser: it may give no tree at all. -/
abbrev Parser (σ : Type) := String → σ → Reply σ (Option Tree)

end Lintel
