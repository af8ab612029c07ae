import LoxLang.Fault

/-!
# Grammar rules

A rule reads from the front of a token list. It ends with a value and the tokens that
are left, or at the token at which the grammar is violated, or at the token at which the
nesting went too deep. Faults that do not stop a rule are kept beside how it ended.
-/

namespace LoxLang

inductive Outcome (α : Type) where
  | done (value : α) (rest : List Token)
  | failed (issue : Issue) (rest : List Token)
  | tooDeep (rest : List Token)

structure Reading (α : Type) where
  faults : List Fault
  outcome : Outcome α

def Rule (α : Type) : Type := List Token → Reading α

namespace Rule

variable {α β : Type}

def done (value : α) : Rule α := fun input => ⟨[], .done value input⟩

/-- The grammar is violated at the next token. -/
def fail (issue : Issue) : Rule α := fun input => ⟨[], .failed issue input⟩

/-- The nesting limit is passed at the next token. -/
def tooDeep : Rule α := fun input => ⟨[], .tooDeep input⟩

/-- One rule after another: the second reads what the first left, and the faults of both
are kept in order. -/
def andThen (first : Rule α) (second : α → Rule β) : Rule β := fun input =>
  match first input with
  | ⟨faults, .done value rest⟩ =>
    let next := second value rest
    ⟨faults ++ next.faults, next.outcome⟩
  | ⟨faults, .failed issue rest⟩ => ⟨faults, .failed issue rest⟩
  | ⟨faults, .tooDeep rest⟩ => ⟨faults, .tooDeep rest⟩

instance : Monad Rule where
  pure := done
  bind := andThen

/-- Keeps a fault and goes on. -/
def note (fault : Fault) : Rule Unit := fun input => ⟨[fault], .done () input⟩

/-- The tokens that are left; none is taken. -/
def remaining : Rule (List Token) := fun input => ⟨[], .done input input⟩

/-- The kind of the next token; none is taken. -/
def peek : Rule (Option Token.Kind) := fun input =>
  ⟨[], .done (input.head?.map Token.kind) input⟩

/-- Takes the next token if it is of the wanted kind. -/
def accept (wanted : Token.Kind) : Rule (Option Token)
  | [] => ⟨[], .done none []⟩
  | token :: rest =>
    if token.kind = wanted then ⟨[], .done (some token) rest⟩
    else ⟨[], .done none (token :: rest)⟩

/-- Takes the next token, which has to be of the wanted kind. -/
def expect (wanted : Token.Kind) (issue : Issue) : Rule Token
  | [] => ⟨[], .failed issue []⟩
  | token :: rest =>
    if token.kind = wanted then ⟨[], .done token rest⟩
    else ⟨[], .failed issue (token :: rest)⟩

end Rule

end LoxLang
