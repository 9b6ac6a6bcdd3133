import ChipEight.Machine.Step

/-!
# Operations

Everything that a host can do to a machine, as data: so a whole session is a list of
operations. Each operation gives an answer and leaves its records.
-/

namespace ChipEight

/-- Something that a host does to a machine. -/
inductive Operation where
  /-- Loads a program. -/
  | load (program : List UInt8)
  /-- Loads a program from a file, given its content if it can be read. -/
  | loadFile (path : String) (content : Option (List UInt8))
  /-- Makes one step. -/
  | step
  /-- Counts the timers down once. -/
  | tick
  /-- Presses or releases a key. -/
  | setKey (key : Nibble) (pressed : Bool)
  /-- Stores a byte in a register. -/
  | setV (x : Nibble) (value : UInt8)
  /-- Points the index register at the address that a word names. -/
  | setIndex (word : UInt16)
  /-- Continues at the address that a word names. -/
  | setCounter (word : UInt16)
  /-- Moves the program counter past one instruction. -/
  | advance
  /-- Writes the flag register. -/
  | setFlag (condition : Bool)
  /-- Sets the delay timer. -/
  | setDelay (value : UInt8)
  /-- Sets the sound timer. -/
  | setSound (value : UInt8)
  /-- Stores a byte at the address that a word names. -/
  | write (word : UInt16) (value : UInt8)
  deriving DecidableEq

/-- What an operation answers. -/
inductive Answer where
  /-- Nothing but that it was done. -/
  | done
  /-- Whether a program was loaded. -/
  | loaded (result : Except LoadFault Unit)
  /-- What a step asks for, or its fault. -/
  | stepped (outcome : Except Fault Signal)

/-- What an operation gives. -/
structure Reply where
  /-- The machine after the operation. -/
  machine : Machine
  /-- The answer. -/
  answer : Answer
  /-- The records of the operation, in order. -/
  log : List Record

namespace Machine

/-- Makes a new machine as the settings ask for and records it. Without a seed in the
settings the random bytes come from a key that the surroundings supply. -/
def start (settings : Settings) (entropy : ChaCha.Key) : Machine × List Record :=
  (.create settings.dialect (.start settings.seed entropy), [.created settings.dialect])

/-- The reply to an attempt to load a program of the given size. -/
def replyToLoad (m : Machine) (size : Nat) : Except LoadFault Machine → Reply
  | .ok next => ⟨next, .loaded (.ok ()), [.loaded size]⟩
  | .error fault => ⟨m, .loaded (.error fault), []⟩

/-- Performs an operation. -/
def perform (m : Machine) (operation : Operation) : Reply :=
  let done (m : Machine) : Reply := ⟨m, .done, []⟩
  match operation with
  | .load program => m.replyToLoad program.length (m.load program)
  | .loadFile path content =>
    m.replyToLoad (content.getD []).length (m.loadFile path content)
  | .step =>
    let step := m.step
    ⟨step.machine, .stepped step.outcome, step.log⟩
  | .tick => done m.tick
  | .setKey key pressed => done (m.setKey key pressed)
  | .setV x value => done (m.setV x value)
  | .setIndex word => done { m with registers := m.registers.setIndex word }
  | .setCounter word => done (m.setCounter word)
  | .advance => done m.advance
  | .setFlag condition => done (m.setFlag condition)
  | .setDelay value => done { m with timers := { m.timers with delay := value } }
  | .setSound value => done { m with timers := { m.timers with sound := value } }
  | .write word value => done { m with memory := m.memory.write (.ofWord word) value }

/-- The machine after a list of operations. -/
def performAll (m : Machine) (operations : List Operation) : Machine :=
  operations.foldl (fun m operation => (m.perform operation).machine) m

/-- The records of a list of operations, in order. -/
def journal (m : Machine) : List Operation → List Record
  | [] => []
  | first :: rest => (m.perform first).log ++ (m.perform first).machine.journal rest

/-- No operation leaves the machine as it is. -/
@[simp] theorem performAll_nil (m : Machine) : m.performAll [] = m := rfl

/-- The first operation comes first. -/
@[simp] theorem performAll_cons (m : Machine) (first : Operation) (rest : List Operation) :
    m.performAll (first :: rest) = (m.perform first).machine.performAll rest := rfl

/-- Two lists of operations one after the other. -/
theorem performAll_append (m : Machine) (first second : List Operation) :
    m.performAll (first ++ second) = (m.performAll first).performAll second := by
  simp only [performAll, List.foldl_append]

/-- The machine that operation number `i` of a session finds, counting from zero. -/
def before (m : Machine) (session : List Operation) (i : Nat) : Machine :=
  m.performAll (session.take i)

/-- Each operation finds what the one before it left. -/
theorem before_succ (m : Machine) {session : List Operation} {i : Nat} {operation : Operation}
    (h : session[i]? = some operation) :
    m.before session (i + 1) = ((m.before session i).perform operation).machine := by
  rw [before, List.take_add_one, h, performAll_append]
  rfl

/-- Past the end of a session nothing happens any more. -/
theorem before_succ_of_none (m : Machine) {session : List Operation} {i : Nat}
    (h : session[i]? = none) : m.before session (i + 1) = m.before session i := by
  rw [before, List.take_add_one, h, Option.toList_none, List.append_nil, before]

/-- Behind its last operation a session is over. -/
theorem before_length (m : Machine) (session : List Operation) :
    m.before session session.length = m.performAll session := by
  rw [before, List.take_length]

end Machine

end ChipEight
