import LoxLang.Grammar.Stmt
import LoxLang.Token.Scan

/-!
# Programs

A program is the list of the statements that could be read from a token list, with the
faults found on the way. Going past the nesting limit ends the reading: it is the last
fault, and the statements completed before it are kept.
-/

namespace LoxLang

/-- The tokens before the end of the input, and the span of the end. -/
structure TokenInput where
  tokens : List Token
  eof : Span

/-- The input ends at the first end mark; a list without one ends behind its last token. -/
def TokenInput.ofList (tokens : List Token) : TokenInput :=
  let before := tokens.takeWhile (·.kind ≠ .eof)
  match tokens.dropWhile (·.kind ≠ .eof) with
  | mark :: _ => ⟨before, mark.span⟩
  | [] => ⟨before, (tokens.getLast?.map (·.span.after)).getD ⟨0, 0, 1⟩⟩

structure Program where
  statements : List Stmt
  faults : List Fault

namespace Program

/-- Reads items until the input ends, at most the given number. Each takes a token, so the
number of tokens is a bound. -/
def collect (eof : Span) (item : Rule (Option Stmt)) : Nat → List Token → Program
  | 0, _ => ⟨[], []⟩
  | _ + 1, [] => ⟨[], []⟩
  | bound + 1, token :: rest =>
    match item (token :: rest) with
    | ⟨faults, .done stmt left⟩ =>
      let others := collect eof item bound left
      ⟨stmt.toList ++ others.statements, faults ++ others.faults⟩
    | ⟨faults, .failed issue left⟩ => ⟨[], faults ++ [.atNext eof issue left]⟩
    | ⟨faults, .tooDeep left⟩ => ⟨[], faults ++ [.atNext eof .nestingTooDeep left]⟩

def parse (mode : Grammar.Mode) (tokens : List Token) : Program :=
  let input := TokenInput.ofList tokens
  collect input.eof (Grammar.parts mode input.eof nestingLimit).item input.tokens.length input.tokens

end Program

end LoxLang
