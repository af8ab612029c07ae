import LoxLang.Grammar.Stmt

/-!
# Derivations

The grammar of the language, given by its derivation trees:

    program     → declaration*
    declaration → varDecl | statement
    varDecl     → "var" IDENTIFIER ( "=" expression )? ";"
    statement   → exprStmt | forStmt | ifStmt | printStmt | whileStmt | block
    exprStmt    → expression ";"
    forStmt     → "for" "(" ( varDecl | exprStmt | ";" ) expression? ";" expression? ")" statement
    ifStmt      → "if" "(" expression ")" statement ( "else" statement )?
    printStmt   → "print" expression ";"
    whileStmt   → "while" "(" expression ")" statement
    block       → "{" declaration* "}"
    expression  → assignment
    assignment  → IDENTIFIER "=" assignment | logic_or
    logic_or    → logic_and ( "or" logic_and )*
    logic_and   → equality ( "and" equality )*
    equality    → comparison ( ( "!=" | "==" ) comparison )*
    comparison  → term ( ( ">" | ">=" | "<" | "<=" ) term )*
    term        → factor ( ( "-" | "+" ) factor )*
    factor      → unary ( ( "/" | "*" ) unary )*
    unary       → ( "!" | "-" ) unary | primary
    primary     → NUMBER | STRING | "true" | "false" | "nil" | "(" expression ")" | IDENTIFIER

A derivation has a frontier of tokens, the tree it stands for, and a nesting charge. The
six operator chains share one family, in which a repetition grows at its right end, so
that its left part is again a chain. Nothing here refers to the rules that read tokens.
-/

namespace LoxLang

/-- The operators of a chain with the nodes they build. -/
def Tier.operators : Tier → List (Token.Kind × Connective)
  | disjunction => [(.kwOr, .logical .or)]
  | conjunction => [(.kwAnd, .logical .and)]
  | equality => [(.bangEqual, .binary .notEqual), (.equalEqual, .binary .equal)]
  | comparison =>
    [(.greater, .binary .greater), (.greaterEqual, .binary .greaterEqual), (.less, .binary .less),
      (.lessEqual, .binary .lessEqual)]
  | term => [(.minus, .binary .subtract), (.plus, .binary .add)]
  | factor => [(.slash, .binary .divide), (.star, .binary .multiply)]

/-- The value that a literal token stands for. A number or a string has one only if the
token carries a literal of the fitting variant. -/
def Token.value? (token : Token) : Option Value :=
  match token.kind, token.literal with
  | .number, some (.number x) => some (.number x)
  | .string, some (.string s) => some (.string s)
  | .kwTrue, _ => some (.bool true)
  | .kwFalse, _ => some (.bool false)
  | .kwNil, _ => some .nil
  | _, _ => none

namespace Grammar

/-- A token of the given kind. -/
abbrev Word (kind : Token.Kind) : Type := {token : Token // token.kind = kind}

/-- The left sides of the rules for expressions. -/
inductive Symbol where
  | expression
  | assignment
  | tier (tier : Tier)
  | unary
  | primary
deriving DecidableEq

/-- What a chain of a tier is made of. -/
def operandOf : Tier → Symbol
  | .disjunction => .tier .conjunction
  | .conjunction => .tier .equality
  | .equality => .tier .comparison
  | .comparison => .tier .term
  | .term => .tier .factor
  | .factor => .unary

def prefixOperators : List (Token.Kind × UnaryOp) := [(.bang, .not), (.minus, .negate)]

structure ChainOperator (tier : Tier) where
  token : Token
  connective : Connective
  listed : (token.kind, connective) ∈ tier.operators

structure PrefixOperator where
  token : Token
  op : UnaryOp
  listed : (token.kind, op) ∈ prefixOperators

/-- Derivations of expressions. -/
inductive Phrase : Symbol → Type where
  | expression (inner : Phrase .assignment) : Phrase .expression
  | assign (name : Word .identifier) (equals : Word .equal) (value : Phrase .assignment) :
    Phrase .assignment
  | simple (operand : Phrase (.tier .disjunction)) : Phrase .assignment
  | first {tier : Tier} (operand : Phrase (operandOf tier)) : Phrase (.tier tier)
  | link {tier : Tier} (left : Phrase (.tier tier)) (operator : ChainOperator tier)
    (right : Phrase (operandOf tier)) : Phrase (.tier tier)
  | signed (operator : PrefixOperator) (operand : Phrase .unary) : Phrase .unary
  | primary (inner : Phrase .primary) : Phrase .unary
  | literal (token : Token) (value : Value) (stands : token.value? = some value) : Phrase .primary
  | reference (name : Word .identifier) : Phrase .primary
  | group (opening : Word .leftParen) (inner : Phrase .expression) (closing : Word .rightParen) :
    Phrase .primary

namespace Phrase

def tokens {symbol : Symbol} : Phrase symbol → List Token
  | expression inner => inner.tokens
  | assign name equals value => name.val :: equals.val :: value.tokens
  | simple operand => operand.tokens
  | first operand => operand.tokens
  | link left operator right => left.tokens ++ operator.token :: right.tokens
  | signed operator operand => operator.token :: operand.tokens
  | primary inner => inner.tokens
  | literal token _ _ => [token]
  | reference name => [name.val]
  | group opening inner closing => opening.val :: (inner.tokens ++ [closing.val])

/-- The first token. -/
def head {symbol : Symbol} : Phrase symbol → Token
  | expression inner => inner.head
  | assign name _ _ => name.val
  | simple operand => operand.head
  | first operand => operand.head
  | link left _ _ => left.head
  | signed operator _ => operator.token
  | primary inner => inner.head
  | literal token _ _ => token
  | reference name => name.val
  | group opening _ _ => opening.val

/-- The tree: chains associate to the left and assignments to the right. -/
def tree {symbol : Symbol} : Phrase symbol → Expr
  | expression inner => inner.tree
  | assign name _ value =>
    .assign name.val.lexeme value.tree (name.val.span.cover value.tree.span)
  | simple operand => operand.tree
  | first operand => operand.tree
  | link left operator right =>
    let span := left.tree.span.cover right.tree.span
    match operator.connective with
    | .binary op => .binary op left.tree right.tree span
    | .logical op => .logical op left.tree right.tree span
  | signed operator operand =>
    .unary operator.op operand.tree (operator.token.span.cover operand.tree.span)
  | primary inner => inner.tree
  | literal token value _ => .literal value token.span
  | reference name => .reference name.val.lexeme name.val.span
  | group opening inner closing =>
    .grouping inner.tree (opening.val.span.cover closing.val.span)

/-- The number of operators of a chain. -/
def links {symbol : Symbol} : Phrase symbol → Nat
  | link left _ _ => left.links + 1
  | _ => 0

/-- The largest value that the nesting counter reaches. An expression, the value of an
assignment and the operand of a unary operator raise it by one; the right operand of the
operator numbered `j` in a chain is read at `j` above the start of the chain. -/
def peak {symbol : Symbol} : Phrase symbol → Nat → Nat
  | expression inner, counter => inner.peak (counter + 1)
  | assign _ _ value, counter => value.peak (counter + 1)
  | simple operand, counter => operand.peak counter
  | first operand, counter => operand.peak counter
  | link left _ right, counter =>
    max (left.peak counter) (right.peak (counter + (left.links + 1)))
  | signed _ operand, counter => operand.peak (counter + 1)
  | primary inner, counter => inner.peak counter
  | literal _ _ _, counter => counter
  | reference _, counter => counter
  | group _ inner _, counter => inner.peak counter

end Phrase

/-- `varDecl`. -/
structure VarDecl where
  keyword : Word .kwVar
  name : Word .identifier
  initial : Option (Word .equal × Phrase .expression)
  closing : Word .semicolon

namespace VarDecl

def tokens (decl : VarDecl) : List Token :=
  let initial :=
    match decl.initial with
    | none => []
    | some (equals, expr) => equals.val :: expr.tokens
  decl.keyword.val :: decl.name.val :: (initial ++ [decl.closing.val])

def tree (decl : VarDecl) : Stmt :=
  .declare decl.name.val.lexeme (decl.initial.map (·.2.tree))
    (decl.keyword.val.span.cover decl.closing.val.span)

def peak (decl : VarDecl) (counter : Nat) : Nat :=
  match decl.initial with
  | none => counter
  | some (_, expr) => expr.peak counter

end VarDecl

/-- `exprStmt`. -/
structure ExprStmt where
  expr : Phrase .expression
  closing : Word .semicolon

namespace ExprStmt

def tokens (stmt : ExprStmt) : List Token := stmt.expr.tokens ++ [stmt.closing.val]

def tree (stmt : ExprStmt) : Stmt :=
  .expression stmt.expr.tree (stmt.expr.head.span.cover stmt.closing.val.span)

end ExprStmt

/-- The keyword and the condition of an `if` or a `while`. -/
structure Guard (kind : Token.Kind) where
  keyword : Word kind
  opening : Word .leftParen
  condition : Phrase .expression
  closing : Word .rightParen

def Guard.tokens {kind : Token.Kind} (guard : Guard kind) : List Token :=
  guard.keyword.val :: guard.opening.val :: (guard.condition.tokens ++ [guard.closing.val])

/-- The first clause of a `for`. -/
inductive ForInitial where
  | absent (closing : Word .semicolon)
  | declare (decl : VarDecl)
  | expression (stmt : ExprStmt)

namespace ForInitial

def tokens : ForInitial → List Token
  | absent closing => [closing.val]
  | declare decl => decl.tokens
  | expression stmt => stmt.tokens

def tree? : ForInitial → Option Stmt
  | absent _ => none
  | declare decl => some decl.tree
  | expression stmt => some stmt.tree

def peak : ForInitial → Nat → Nat
  | absent _, counter => counter
  | declare decl, counter => decl.peak counter
  | expression stmt, counter => stmt.expr.peak counter

end ForInitial

/-- Everything of a `for` before its body. -/
structure ForHeader where
  keyword : Word .kwFor
  opening : Word .leftParen
  initial : ForInitial
  condition : Option (Phrase .expression)
  separator : Word .semicolon
  increment : Option (Phrase .expression)
  closing : Word .rightParen

namespace ForHeader

def tokens (header : ForHeader) : List Token :=
  let clause (expr : Option (Phrase .expression)) : List Token := (expr.map Phrase.tokens).getD []
  header.keyword.val :: header.opening.val ::
    (header.initial.tokens ++ (clause header.condition ++ header.separator.val ::
      (clause header.increment ++ [header.closing.val])))

/-- The statement `{ initial; while (condition) { body; increment; } }`, without the blocks
that hold nothing more than the loop or the body. -/
def tree (header : ForHeader) (body : Stmt) : Stmt :=
  let span := header.keyword.val.span.cover body.span
  let condition :=
    match header.condition with
    | none => .literal (.bool true) header.separator.val.span
    | some expr => expr.tree
  let repeated :=
    match header.increment with
    | none => body
    | some expr => .block [body, .expression expr.tree expr.tree.span] span
  match header.initial.tree? with
  | none => .loop condition repeated span
  | some initial => .block [initial, .loop condition repeated span] span

def peak (header : ForHeader) (counter : Nat) : Nat :=
  let clause (expr : Option (Phrase .expression)) : Nat :=
    (expr.map fun expr ↦ expr.peak counter).getD counter
  max (header.initial.peak counter) (max (clause header.condition) (clause header.increment))

end ForHeader

/-- The left sides of the recursive rules for statements. -/
inductive Category where
  | statement
  | declaration
  | sequence
deriving DecidableEq

/-- Derivations of statements. The program is a sequence of declarations. -/
inductive Passage : Category → Type where
  | expression (stmt : ExprStmt) : Passage .statement
  | print (keyword : Word .kwPrint) (expr : Phrase .expression) (closing : Word .semicolon) :
    Passage .statement
  | block (opening : Word .leftBrace) (body : Passage .sequence) (closing : Word .rightBrace) :
    Passage .statement
  | ifThen (guard : Guard .kwIf) (thenBranch : Passage .statement) : Passage .statement
  | ifElse (guard : Guard .kwIf) (thenBranch : Passage .statement) (separator : Word .kwElse)
    (elseBranch : Passage .statement) : Passage .statement
  | whileLoop (guard : Guard .kwWhile) (body : Passage .statement) : Passage .statement
  | forLoop (header : ForHeader) (body : Passage .statement) : Passage .statement
  | declare (decl : VarDecl) : Passage .declaration
  | statement (stmt : Passage .statement) : Passage .declaration
  | empty : Passage .sequence
  | more (decl : Passage .declaration) (rest : Passage .sequence) : Passage .sequence

abbrev Category.Tree : Category → Type
  | statement => Stmt
  | declaration => Stmt
  | sequence => List Stmt

namespace Passage

def tokens {category : Category} : Passage category → List Token
  | expression stmt => stmt.tokens
  | print keyword expr closing => keyword.val :: (expr.tokens ++ [closing.val])
  | block opening body closing => opening.val :: (body.tokens ++ [closing.val])
  | ifThen guard thenBranch => guard.tokens ++ thenBranch.tokens
  | ifElse guard thenBranch separator elseBranch =>
    guard.tokens ++ (thenBranch.tokens ++ separator.val :: elseBranch.tokens)
  | whileLoop guard body => guard.tokens ++ body.tokens
  | forLoop header body => header.tokens ++ body.tokens
  | declare decl => decl.tokens
  | statement stmt => stmt.tokens
  | empty => []
  | more decl rest => decl.tokens ++ rest.tokens

def tree {category : Category} : Passage category → category.Tree
  | expression stmt => stmt.tree
  | print keyword expr closing => .print expr.tree (keyword.val.span.cover closing.val.span)
  | block opening body closing => .block body.tree (opening.val.span.cover closing.val.span)
  | ifThen guard thenBranch =>
    .branch guard.condition.tree thenBranch.tree none
      (guard.keyword.val.span.cover (Stmt.span thenBranch.tree))
  | ifElse guard thenBranch _ elseBranch =>
    .branch guard.condition.tree thenBranch.tree (some elseBranch.tree)
      (guard.keyword.val.span.cover (Stmt.span elseBranch.tree))
  | whileLoop guard body =>
    .loop guard.condition.tree body.tree (guard.keyword.val.span.cover (Stmt.span body.tree))
  | forLoop header body => header.tree body.tree
  | declare decl => decl.tree
  | statement stmt => stmt.tree
  | empty => []
  | more decl rest => decl.tree :: rest.tree

/-- The largest value that the nesting counter reaches. A statement raises it by one, for
everything in it. -/
def peak {category : Category} : Passage category → Nat → Nat
  | expression stmt, counter => stmt.expr.peak (counter + 1)
  | print _ expr _, counter => expr.peak (counter + 1)
  | block _ body _, counter => body.peak (counter + 1)
  | ifThen guard thenBranch, counter =>
    max (guard.condition.peak (counter + 1)) (thenBranch.peak (counter + 1))
  | ifElse guard thenBranch _ elseBranch, counter =>
    max (guard.condition.peak (counter + 1))
      (max (thenBranch.peak (counter + 1)) (elseBranch.peak (counter + 1)))
  | whileLoop guard body, counter =>
    max (guard.condition.peak (counter + 1)) (body.peak (counter + 1))
  | forLoop header body, counter => max (header.peak (counter + 1)) (body.peak (counter + 1))
  | declare decl, counter => decl.peak counter
  | statement stmt, counter => stmt.peak counter
  | empty, counter => counter
  | more decl rest, counter => max (decl.peak counter) (rest.peak counter)

/-- Whether the passage ends in an `if` that an `else` behind it could belong to. -/
def dangling {category : Category} : Passage category → Bool
  | ifThen _ _ => true
  | ifElse _ _ _ elseBranch => elseBranch.dangling
  | whileLoop _ body => body.dangling
  | forLoop _ body => body.dangling
  | statement stmt => stmt.dangling
  | _ => false

/-- Every `else` belongs to the nearest `if` that can take it: no `if` within the statement
before it could. -/
def Nearest {category : Category} : Passage category → Prop
  | block _ body _ => body.Nearest
  | ifThen _ thenBranch => thenBranch.Nearest
  | ifElse _ thenBranch _ elseBranch =>
    thenBranch.dangling = false ∧ thenBranch.Nearest ∧ elseBranch.Nearest
  | whileLoop _ body => body.Nearest
  | forLoop _ body => body.Nearest
  | statement stmt => stmt.Nearest
  | more decl rest => decl.Nearest ∧ rest.Nearest
  | _ => True

end Passage

/-! ## First tokens -/

theorem Phrase.tokens_eq_cons {symbol : Symbol} (phrase : Phrase symbol) :
    ∃ more, phrase.tokens = phrase.head :: more := by
  induction phrase with
  | expression _ ih => exact ih
  | simple _ ih => exact ih
  | first _ ih => exact ih
  | primary _ ih => exact ih
  | link left operator right ih _ =>
    obtain ⟨more, hmore⟩ := ih
    exact ⟨more ++ operator.token :: right.tokens, by simp [tokens, head, hmore]⟩
  | assign name equals value => exact ⟨equals.val :: value.tokens, rfl⟩
  | signed operator operand => exact ⟨operand.tokens, rfl⟩
  | literal => exact ⟨[], rfl⟩
  | reference => exact ⟨[], rfl⟩
  | group opening inner closing => exact ⟨inner.tokens ++ [closing.val], rfl⟩

/-- The kinds of token that a primary can start with. -/
def primaryStarts : List Token.Kind :=
  [.number, .string, .kwTrue, .kwFalse, .kwNil, .identifier, .leftParen]

theorem kind_mem_of_value? {token : Token} {value : Value} (h : token.value? = some value) :
    token.kind ∈ primaryStarts := by
  obtain ⟨kind, lexeme, literal, span⟩ := token
  cases kind <;> simp_all [Token.value?, primaryStarts]

theorem head_mem_primaryStarts (phrase : Phrase .primary) : phrase.head.kind ∈ primaryStarts := by
  cases phrase with
  | literal token value hvalue => exact kind_mem_of_value? hvalue
  | reference name => simp [Phrase.head, name.property, primaryStarts]
  | group opening inner closing => simp [Phrase.head, opening.property, primaryStarts]

/-- The kinds of token that an expression can start with. -/
def expressionStarts : List Token.Kind := .bang :: .minus :: primaryStarts

theorem head_mem_expressionStarts {symbol : Symbol} (phrase : Phrase symbol) :
    phrase.head.kind ∈ expressionStarts := by
  have hprimary (phrase : Phrase .primary) : phrase.head.kind ∈ expressionStarts := by
    simp [expressionStarts, head_mem_primaryStarts phrase]
  induction phrase with
  | expression _ ih => exact ih
  | assign name _ _ => exact hprimary (.reference name)
  | simple _ ih => exact ih
  | first _ ih => exact ih
  | link _ _ _ ih _ => exact ih
  | signed operator operand =>
    have hlisted := operator.listed
    simp only [prefixOperators, List.mem_cons, Prod.mk.injEq, List.not_mem_nil, or_false] at hlisted
    rcases hlisted with ⟨hkind, -⟩ | ⟨hkind, -⟩ <;> simp [Phrase.head, hkind, expressionStarts]
  | primary inner => exact hprimary inner
  | literal token value hvalue => exact hprimary (.literal token value hvalue)
  | reference name => exact hprimary (.reference name)
  | group opening inner closing => exact hprimary (.group opening inner closing)

/-- What a statement or a declaration does not start with. -/
theorem Passage.exists_start {category : Category} (passage : Passage category)
    (h : category ≠ .sequence) :
    ∃ token more, passage.tokens = token :: more ∧ token.kind ≠ .rightBrace ∧
      token.kind ≠ .kwElse ∧ (category = .statement → token.kind ≠ .kwVar) := by
  have hword {kind : Token.Kind} (word : Word kind) (more : List Token)
      (hkind : kind ≠ .rightBrace ∧ kind ≠ .kwElse ∧ kind ≠ .kwVar) :
      ∃ token others, word.val :: more = token :: others ∧ token.kind ≠ .rightBrace ∧
        token.kind ≠ .kwElse ∧ (Category.statement = .statement → token.kind ≠ .kwVar) :=
    ⟨word.val, more, rfl, by simpa [word.property] using hkind⟩
  induction passage with
  | expression stmt =>
    obtain ⟨more, hmore⟩ := stmt.expr.tokens_eq_cons
    refine ⟨stmt.expr.head, more ++ [stmt.closing.val], by simp [tokens, ExprStmt.tokens, hmore], ?_⟩
    have hstart := head_mem_expressionStarts stmt.expr
    generalize stmt.expr.head.kind = kind at hstart
    revert hstart
    cases kind <;> decide
  | print keyword => exact hword keyword _ (by decide)
  | block opening => exact hword opening _ (by decide)
  | ifThen guard => exact hword guard.keyword _ (by decide)
  | ifElse guard => exact hword guard.keyword _ (by decide)
  | whileLoop guard => exact hword guard.keyword _ (by decide)
  | forLoop header => exact hword header.keyword _ (by decide)
  | declare decl => exact ⟨decl.keyword.val, _, rfl, by simp [decl.keyword.property]⟩
  | statement stmt ih =>
    obtain ⟨token, more, htokens, hbrace, helse, -⟩ := ih (by decide)
    exact ⟨token, more, htokens, hbrace, helse, by simp⟩
  | empty => exact absurd rfl h
  | more => exact absurd rfl h

end Grammar

end LoxLang
