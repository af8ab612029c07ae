import LoxLang.Run
import LoxLang.Proofs.Grammar.Completeness
import LoxLang.Proofs.Scan.Placement

/-!
# Heights of accepted expressions

The evaluation of an expression recurses along the paths of its tree, so its height is what
the nesting limit has to keep small. The limit counts the steps of a path that do not go
to the left operand of an operator. Steps to the left are free: a chain gives its levels
back when it ends, and the next looser tier can spend them again on a chain that starts
with it. With `n` further levels each of the six tiers adds up to `n` steps to the left
before a grouping costs one level. So heights are bounded by a square of the limit, and
the bound is attained.
-/

namespace LoxLang

namespace Expr

/-- A step down a path of a tree: to the left operand of an operator, or to another part of a
node. -/
inductive Step where
  | left
  | onward
deriving DecidableEq

/-- The paths from the root to a literal or a variable. Each grouping, operator and
assignment on a path is left by one step. -/
def paths : Expr → List (List Step)
  | literal _ _ => [[]]
  | reference _ _ => [[]]
  | grouping inner _ => inner.paths.map (.onward :: ·)
  | unary _ operand _ => operand.paths.map (.onward :: ·)
  | binary _ left right _ => left.paths.map (.left :: ·) ++ right.paths.map (.onward :: ·)
  | logical _ left right _ => left.paths.map (.left :: ·) ++ right.paths.map (.onward :: ·)
  | assign _ value _ => value.paths.map (.onward :: ·)

/-- The largest number of groupings, operators and assignments on a path. -/
def height : Expr → Nat
  | literal _ _ => 0
  | reference _ _ => 0
  | grouping inner _ => inner.height + 1
  | unary _ operand _ => operand.height + 1
  | binary _ left right _ => max left.height right.height + 1
  | logical _ left right _ => max left.height right.height + 1
  | assign _ value _ => value.height + 1

/-- The largest number of steps of a path that do not go to the left. -/
def onwardHeight : Expr → Nat
  | literal _ _ => 0
  | reference _ _ => 0
  | grouping inner _ => inner.onwardHeight + 1
  | unary _ operand _ => operand.onwardHeight + 1
  | binary _ left right _ => max left.onwardHeight (right.onwardHeight + 1)
  | logical _ left right _ => max left.onwardHeight (right.onwardHeight + 1)
  | assign _ value _ => value.onwardHeight + 1

/-- All paths keep to the bounds on their steps and on those that do not go to the left, and
one has as many steps as the first bound. -/
structure Measures (paths : List (List Step)) (height onward : Nat) : Prop where
  length_le : ∀ path ∈ paths, path.length ≤ height
  count_le : ∀ path ∈ paths, path.count .onward ≤ onward
  attained : ∃ path ∈ paths, path.length = height

theorem Measures.leaf : Measures [[]] 0 0 := by
  constructor <;> simp

theorem Measures.onward {inner : List (List Step)} {height onward : Nat}
    (h : Measures inner height onward) :
    Measures (inner.map (.onward :: ·)) (height + 1) (onward + 1) := by
  obtain ⟨longest, hlongest, hlength⟩ := h.attained
  constructor
  · simpa using h.length_le
  · simpa using h.count_le
  · exact ⟨.onward :: longest, List.mem_map_of_mem hlongest, congrArg (· + 1) hlength⟩

theorem Measures.operator {left right : List (List Step)}
    {leftHeight leftOnward rightHeight rightOnward : Nat} (hleft : Measures left leftHeight leftOnward)
    (hright : Measures right rightHeight rightOnward) :
    Measures (left.map (.left :: ·) ++ right.map (.onward :: ·)) (max leftHeight rightHeight + 1)
      (max leftOnward (rightOnward + 1)) := by
  constructor
  · intro path hpath
    rcases List.mem_append.mp hpath with hpath | hpath
    · obtain ⟨rest, hrest, rfl⟩ := List.mem_map.mp hpath
      have hlength := hleft.length_le rest hrest
      rw [List.length_cons]
      omega
    · obtain ⟨rest, hrest, rfl⟩ := List.mem_map.mp hpath
      have hlength := hright.length_le rest hrest
      rw [List.length_cons]
      omega
  · intro path hpath
    rcases List.mem_append.mp hpath with hpath | hpath
    · obtain ⟨rest, hrest, rfl⟩ := List.mem_map.mp hpath
      have hcount := hleft.count_le rest hrest
      rw [List.count_cons_of_ne (by decide)]
      omega
    · obtain ⟨rest, hrest, rfl⟩ := List.mem_map.mp hpath
      have hcount := hright.count_le rest hrest
      rw [List.count_cons_self]
      omega
  · rcases Nat.le_total rightHeight leftHeight with hle | hle
    · obtain ⟨longest, hlongest, hlength⟩ := hleft.attained
      have hmem := List.mem_append_left (right.map (.onward :: ·))
        (List.mem_map_of_mem (f := (Step.left :: ·)) hlongest)
      exact ⟨.left :: longest, hmem, by rw [List.length_cons, hlength, Nat.max_eq_left hle]⟩
    · obtain ⟨longest, hlongest, hlength⟩ := hright.attained
      have hmem := List.mem_append_right (left.map (.left :: ·))
        (List.mem_map_of_mem (f := (Step.onward :: ·)) hlongest)
      exact ⟨.onward :: longest, hmem, by rw [List.length_cons, hlength, Nat.max_eq_right hle]⟩

theorem measures (expr : Expr) : Measures expr.paths expr.height expr.onwardHeight := by
  induction expr with
  | literal => exact .leaf
  | reference => exact .leaf
  | grouping _ _ ih => exact ih.onward
  | unary _ _ _ ih => exact ih.onward
  | binary _ _ _ _ hleft hright => exact hleft.operator hright
  | logical _ _ _ _ hleft hright => exact hleft.operator hright
  | assign _ _ _ ih => exact ih.onward

/-- A step goes to the left or it does not. -/
theorem length_eq_count (path : List Step) :
    path.length = path.count .left + path.count .onward := by
  induction path with
  | nil => rfl
  | cons step path ih =>
    cases step with
    | left =>
      rw [List.length_cons, ih, List.count_cons_self, List.count_cons_of_ne (by decide)]
      omega
    | onward =>
      rw [List.length_cons, ih, List.count_cons_self, List.count_cons_of_ne (by decide)]
      omega

end Expr

namespace Stmt

mutual

/-- The expressions that stand in a statement. -/
def exprs : Stmt → List Expr
  | expression expr _ => [expr]
  | print expr _ => [expr]
  | declare _ none _ => []
  | declare _ (some initial) _ => [initial]
  | block body _ => exprsOfAll body
  | branch condition thenBranch none _ => condition :: thenBranch.exprs
  | branch condition thenBranch (some elseBranch) _ =>
    condition :: (thenBranch.exprs ++ elseBranch.exprs)
  | loop condition body _ => condition :: body.exprs
termination_by structural stmt => stmt

def exprsOfAll : List Stmt → List Expr
  | [] => []
  | stmt :: rest => stmt.exprs ++ exprsOfAll rest
termination_by structural stmts => stmts

end

end Stmt

/-- The expressions that stand in a program. -/
def Program.exprs (program : Program) : List Expr := Stmt.exprsOfAll program.statements

namespace Grammar

@[simp]
theorem height_join (connective : Connective) (left right : Expr) :
    (connective.join left right).height = max left.height right.height + 1 := by
  cases connective <;> rfl

@[simp]
theorem onwardHeight_join (connective : Connective) (left right : Expr) :
    (connective.join left right).onwardHeight =
      max left.onwardHeight (right.onwardHeight + 1) := by
  cases connective <;> rfl

/-! ## The bound -/

/-- The largest height of an operand of the tightest tier that is read with the given number
of further levels. -/
def operandHeight : Nat → Nat
  | 0 => 0
  | levels + 1 => operandHeight levels + 6 * levels + 1

theorem operandHeight_eq (levels : Nat) :
    operandHeight levels = 3 * (levels * levels) - 2 * levels := by
  suffices operandHeight levels + 2 * levels = 3 * (levels * levels) by omega
  induction levels with
  | zero => rfl
  | succ levels ih =>
    have hsquare : (levels + 1) * (levels + 1) = levels * levels + 2 * levels + 1 := by
      rw [Nat.succ_mul, Nat.mul_succ]
      omega
    rw [operandHeight, hsquare]
    omega

theorem operandHeight_le {fewer levels : Nat} (h : fewer ≤ levels) :
    operandHeight fewer ≤ operandHeight levels := by
  induction h with
  | refl => exact Nat.le_refl _
  | step _ ih =>
    simp only [operandHeight]
    omega

/-- The number of tiers from the given one to the tightest. -/
def Symbol.tiers : Symbol → Nat
  | .tier .disjunction => 6
  | .tier .conjunction => 5
  | .tier .equality => 4
  | .tier .comparison => 3
  | .tier .term => 2
  | .tier .factor => 1
  | .assignment => 6
  | _ => 0

theorem tiers_operandOf (tier : Tier) :
    (operandOf tier).tiers + 1 = (Symbol.tier tier).tiers := by
  cases tier <;> rfl

/-- The largest height of a phrase that is read with the given number of further levels. -/
def maxHeight (symbol : Symbol) (levels : Nat) : Nat :=
  operandHeight levels + symbol.tiers * levels

theorem maxHeight_le {symbol : Symbol} {fewer levels : Nat} (h : fewer ≤ levels) :
    maxHeight symbol fewer ≤ maxHeight symbol levels :=
  Nat.add_le_add (operandHeight_le h) (Nat.mul_le_mul_left _ h)

theorem maxHeight_tier (tier : Tier) (levels : Nat) :
    maxHeight (.tier tier) levels = maxHeight (operandOf tier) levels + levels := by
  rw [maxHeight, maxHeight, ← tiers_operandOf, Nat.succ_mul, Nat.add_assoc]

theorem maxHeight_assignment (levels : Nat) :
    maxHeight .assignment levels + 1 = operandHeight (levels + 1) := rfl

/-- The tree of a phrase keeps to the bounds for the given number of levels. A chain adds
its own links to what its first operand may reach. -/
def Phrase.Low : {symbol : Symbol} → Phrase symbol → Nat → Prop
  | .expression, phrase, levels =>
    phrase.tree.height < operandHeight levels ∧ phrase.tree.onwardHeight < levels
  | .tier tier, phrase, levels =>
    phrase.tree.height ≤ maxHeight (operandOf tier) levels + phrase.links ∧
      phrase.tree.onwardHeight ≤ levels
  | symbol, phrase, levels =>
    phrase.tree.height ≤ maxHeight symbol levels ∧ phrase.tree.onwardHeight ≤ levels

theorem Phrase.links_le {symbol : Symbol} {phrase : Phrase symbol} {counter levels : Nat}
    (h : phrase.peak counter ≤ counter + levels) : phrase.links ≤ levels := by
  have hlinks := phrase.links_le_peak counter
  omega

/-- The links of a chain are no more than the levels. -/
theorem Phrase.Low.tier {tier : Tier} {phrase : Phrase (.tier tier)} {levels : Nat}
    (h : phrase.Low levels) (hlinks : phrase.links ≤ levels) :
    phrase.tree.height ≤ maxHeight (.tier tier) levels ∧ phrase.tree.onwardHeight ≤ levels := by
  obtain ⟨hheight, honward⟩ := h
  rw [maxHeight_tier]
  exact ⟨Nat.le_trans hheight (Nat.add_le_add_left hlinks _), honward⟩

theorem Phrase.Low.operand {tier : Tier} {phrase : Phrase (operandOf tier)} {levels : Nat}
    (h : phrase.Low levels) (hlinks : phrase.links ≤ levels) :
    phrase.tree.height ≤ maxHeight (operandOf tier) levels ∧
      phrase.tree.onwardHeight ≤ levels := by
  cases tier with
  | factor => exact h
  | disjunction => exact Phrase.Low.tier h hlinks
  | conjunction => exact Phrase.Low.tier h hlinks
  | equality => exact Phrase.Low.tier h hlinks
  | comparison => exact Phrase.Low.tier h hlinks
  | term => exact Phrase.Low.tier h hlinks

theorem Phrase.low_expression {inner : Phrase .assignment} {levels : Nat}
    (h : inner.Low levels) : (Phrase.expression inner).Low (levels + 1) := by
  obtain ⟨hheight, honward⟩ := h
  rw [Phrase.Low, ← maxHeight_assignment]
  exact ⟨Nat.lt_succ_of_le hheight, Nat.lt_succ_of_le honward⟩

theorem Phrase.low_assign {name : Word .identifier} {equals : Word .equal}
    {value : Phrase .assignment} {levels : Nat} (h : value.Low levels) :
    (Phrase.assign name equals value).Low (levels + 1) := by
  obtain ⟨hheight, honward⟩ := h
  have hbound : maxHeight .assignment levels + 1 ≤ maxHeight .assignment (levels + 1) := by
    rw [maxHeight_assignment]
    exact Nat.le_add_right _ _
  exact ⟨Nat.le_trans (Nat.succ_le_succ hheight) hbound, Nat.succ_le_succ honward⟩

theorem Phrase.low_link {tier : Tier} {left : Phrase (.tier tier)} {operator : ChainOperator tier}
    {right : Phrase (operandOf tier)} {levels fewer : Nat} (hleft : left.Low levels)
    (hright : right.Low fewer) (hlinks : right.links ≤ fewer) (hfewer : fewer < levels) :
    (left.link operator right).Low levels := by
  obtain ⟨hleftHeight, hleftOnward⟩ := hleft
  obtain ⟨hrightHeight, hrightOnward⟩ := hright.operand hlinks
  have hbound : maxHeight (operandOf tier) fewer ≤ maxHeight (operandOf tier) levels :=
    maxHeight_le (Nat.le_of_lt hfewer)
  rw [Phrase.Low, Phrase.tree_link, height_join, onwardHeight_join, Phrase.links]
  omega

theorem Phrase.low_signed {operator : PrefixOperator} {operand : Phrase .unary} {levels : Nat}
    (h : operand.Low levels) : (Phrase.signed operator operand).Low (levels + 1) := by
  obtain ⟨hheight, honward⟩ := h
  have hbound : maxHeight .unary levels + 1 ≤ maxHeight .unary (levels + 1) := by
    simp only [maxHeight, operandHeight, Symbol.tiers]
    omega
  exact ⟨Nat.le_trans (Nat.succ_le_succ hheight) hbound, Nat.succ_le_succ honward⟩

theorem Phrase.low_group {opening : Word .leftParen} {inner : Phrase .expression}
    {closing : Word .rightParen} {levels : Nat} (h : inner.Low levels) :
    (Phrase.group opening inner closing).Low levels := by
  obtain ⟨hheight, honward⟩ := h
  exact ⟨Nat.le_trans hheight (Nat.le_add_right _ _), honward⟩

/-- What is read some steps higher has so many levels less. -/
theorem Phrase.exists_levels {symbol : Symbol} {phrase : Phrase symbol}
    {counter step levels : Nat} (h : phrase.peak (counter + step) ≤ counter + levels) :
    ∃ fewer, levels = fewer + step ∧ phrase.peak (counter + step) ≤ counter + step + fewer := by
  have hpeak := phrase.le_peak (counter + step)
  exact ⟨levels - step, by omega, by omega⟩

theorem Phrase.low {symbol : Symbol} (phrase : Phrase symbol) (counter levels : Nat)
    (h : phrase.peak counter ≤ counter + levels) : phrase.Low levels := by
  induction phrase generalizing counter levels with
  | expression inner ih =>
    obtain ⟨fewer, rfl, hinner⟩ := Phrase.exists_levels h
    exact low_expression (ih (counter + 1) fewer hinner)
  | assign name equals value ih =>
    obtain ⟨fewer, rfl, hvalue⟩ := Phrase.exists_levels h
    exact low_assign (ih (counter + 1) fewer hvalue)
  | simple operand ih => exact (ih counter levels h).tier (Phrase.links_le h)
  | first operand ih => exact (ih counter levels h).operand (Phrase.links_le h)
  | link left operator right hleft hright =>
    rw [Phrase.peak, Nat.max_le] at h
    obtain ⟨fewer, rfl, hrightPeak⟩ := Phrase.exists_levels h.2
    have hrightLow := hright (counter + (left.links + 1)) fewer hrightPeak
    exact low_link (hleft counter _ h.1) hrightLow (Phrase.links_le hrightPeak) (by omega)
  | signed operator operand ih =>
    obtain ⟨fewer, rfl, hoperand⟩ := Phrase.exists_levels h
    exact low_signed (ih (counter + 1) fewer hoperand)
  | primary inner ih => exact ih counter levels h
  | literal => exact ⟨Nat.zero_le _, Nat.zero_le _⟩
  | reference => exact ⟨Nat.zero_le _, Nat.zero_le _⟩
  | group opening inner closing ih => exact low_group (ih counter levels h)

/-- An expression with the bounds of one that is read with the given number of levels. -/
structure Fits (levels : Nat) (expr : Expr) : Prop where
  height : expr.height < operandHeight levels
  onwardHeight : expr.onwardHeight < levels

/-- Where the counter stands before an expression does not matter: it is never below zero. -/
theorem Phrase.fits (phrase : Phrase .expression) {counter limit : Nat}
    (h : phrase.peak counter ≤ limit) : Fits limit phrase.tree := by
  have hcounter : counter ≤ limit := Nat.le_trans (phrase.le_peak counter) h
  obtain ⟨hheight, honward⟩ : phrase.Low (limit - counter) :=
    phrase.low counter (limit - counter) (by omega)
  have hless : limit - counter ≤ limit := Nat.sub_le limit counter
  exact ⟨Nat.lt_of_lt_of_le hheight (operandHeight_le hless), Nat.lt_of_lt_of_le honward hless⟩

theorem VarDecl.fits (decl : VarDecl) {counter limit : Nat} (h : decl.peak counter ≤ limit) :
    ∀ expr ∈ decl.tree.exprs, Fits limit expr := by
  obtain ⟨keyword, name, initial, closing⟩ := decl
  cases initial with
  | none => simp [VarDecl.tree, Stmt.exprs]
  | some clause => simpa [VarDecl.tree, Stmt.exprs] using clause.2.fits h

theorem ExprStmt.fits (stmt : ExprStmt) {counter limit : Nat} (h : stmt.expr.peak counter ≤ limit) :
    ∀ expr ∈ stmt.tree.exprs, Fits limit expr := by
  simpa [ExprStmt.tree, Stmt.exprs] using stmt.expr.fits h

theorem ForInitial.fits (initial : ForInitial) {counter limit : Nat}
    (h : initial.peak counter ≤ limit) :
    ∀ stmt, initial.tree? = some stmt → ∀ expr ∈ stmt.exprs, Fits limit expr := by
  intro stmt hstmt
  cases initial with
  | absent => cases hstmt
  | declare decl =>
    obtain rfl : decl.tree = stmt := Option.some.inj hstmt
    exact decl.fits h
  | expression other =>
    obtain rfl : other.tree = stmt := Option.some.inj hstmt
    exact other.fits h

theorem ForHeader.fits (header : ForHeader) {body : Stmt} {counter limit : Nat} (hlimit : 0 < limit)
    (h : header.peak counter ≤ limit) (hbody : ∀ expr ∈ body.exprs, Fits limit expr) :
    ∀ expr ∈ (header.tree body).exprs, Fits limit expr := by
  have hleaf : Fits limit (.literal (.bool true) header.separator.val.span) :=
    ⟨operandHeight_le hlimit, hlimit⟩
  obtain ⟨keyword, opening, initial, condition, separator, increment, closing⟩ := header
  simp only [ForHeader.peak, Nat.max_le] at h
  obtain ⟨hinitial, hcondition, hincrement⟩ := h
  have hfirst := initial.fits hinitial
  have hclause (clause : Option (Phrase .expression))
      (hclause : (clause.map fun expr ↦ expr.peak counter).getD counter ≤ limit) :
      ∀ expr ∈ clause, Fits limit expr.tree := by
    rintro expr rfl
    exact expr.fits hclause
  have hconditionFits := hclause condition hcondition
  have hincrementFits := hclause increment hincrement
  unfold ForHeader.tree
  cases condition <;> cases increment <;> cases htree : initial.tree? <;>
    simp_all [Stmt.exprs, Stmt.exprsOfAll, or_imp]

/-- The expressions that stand in the tree of a category. -/
def Category.exprs : (category : Category) → category.Tree → List Expr
  | .statement, stmt => Stmt.exprs stmt
  | .declaration, stmt => Stmt.exprs stmt
  | .sequence, stmts => Stmt.exprsOfAll stmts

theorem Passage.fits {category : Category} (passage : Passage category) {counter limit : Nat}
    (h : passage.peak counter ≤ limit) :
    ∀ expr ∈ category.exprs passage.tree, Fits limit expr := by
  induction passage generalizing counter with
  | expression stmt => exact stmt.fits h
  | print keyword expr closing => simpa [Category.exprs, tree, Stmt.exprs] using expr.fits h
  | block opening body closing ih => exact ih h
  | ifThen guard thenBranch ih =>
    rw [peak, Nat.max_le] at h
    have hcondition := guard.condition.fits h.1
    have hthen := ih h.2
    simp only [Category.exprs, tree, Stmt.exprs, List.mem_cons, forall_eq_or_imp] at hthen ⊢
    exact ⟨hcondition, hthen⟩
  | ifElse guard thenBranch separator elseBranch hthen helse =>
    simp only [peak, Nat.max_le] at h
    have hcondition := guard.condition.fits h.1
    have hthenFits := hthen h.2.1
    have helseFits := helse h.2.2
    simp only [Category.exprs, tree, Stmt.exprs, List.mem_cons, List.mem_append, or_imp, forall_and,
      forall_eq] at hthenFits helseFits ⊢
    exact ⟨hcondition, hthenFits, helseFits⟩
  | whileLoop guard body ih =>
    rw [peak, Nat.max_le] at h
    have hcondition := guard.condition.fits h.1
    have hbody := ih h.2
    simp only [Category.exprs, tree, Stmt.exprs, List.mem_cons, forall_eq_or_imp] at hbody ⊢
    exact ⟨hcondition, hbody⟩
  | forLoop header body ih =>
    have hlimit : 0 < limit := Nat.lt_of_le_of_lt (Nat.zero_le counter)
      (Nat.lt_of_lt_of_le (lt_peak (.forLoop header body) counter) h)
    rw [peak, Nat.max_le] at h
    exact header.fits hlimit h.1 (ih h.2)
  | declare decl => exact decl.fits h
  | statement stmt ih => exact ih h
  | empty => simp [Category.exprs, tree, Stmt.exprsOfAll]
  | more decl rest hdecl hrest =>
    rw [peak, Nat.max_le] at h
    have hfirst := hdecl h.1
    have hothers := hrest h.2
    simp only [Category.exprs, tree, Stmt.exprsOfAll, List.mem_append, or_imp, forall_and]
      at hfirst hothers ⊢
    exact ⟨hfirst, hothers⟩

/-! ## Tall phrases -/

/-- One operator of each tier. -/
def operatorOf : Tier → Token.Kind
  | .disjunction => .kwOr
  | .conjunction => .kwAnd
  | .equality => .equalEqual
  | .comparison => .less
  | .term => .plus
  | .factor => .star

theorem exists_operator {tier : Tier} {token : Token} (h : token.kind = operatorOf tier) :
    ∃ operator : ChainOperator tier, operator.token = token := by
  have hlisted : ∃ connective, (token.kind, connective) ∈ tier.operators := by
    rw [h]
    cases tier <;> simp [operatorOf, Tier.operators]
  obtain ⟨connective, hlisted⟩ := hlisted
  exact ⟨⟨token, connective, hlisted⟩, rfl⟩

/-- Tokens of the given kinds are derived from the symbol, with the given height, and the
counter rises by no more than the given number of levels. -/
def Reaches (symbol : Symbol) (kinds : List Token.Kind) (height levels : Nat) : Prop :=
  ∀ tokens : List Token, tokens.map Token.kind = kinds →
    ∃ phrase : Phrase symbol, phrase.tokens = tokens ∧ phrase.tree.height = height ∧
      ∀ counter, phrase.peak counter ≤ counter + levels

theorem reaches_name {tiers : List Tier} (h : tiers <:+ Tier.all) :
    Reaches (symbolOf tiers) [.identifier] 0 0 := by
  induction tiers with
  | nil =>
    intro tokens htokens
    obtain ⟨name, rfl, hname⟩ := List.map_eq_singleton_iff.mp htokens
    exact ⟨.primary (.reference ⟨name, hname⟩), rfl, rfl, fun _ ↦ Nat.le_refl _⟩
  | cons tier tighter ih =>
    intro tokens htokens
    have hoperand := ih ((List.suffix_cons tier tighter).trans h) tokens htokens
    rw [symbolOf_tighter h] at hoperand
    obtain ⟨operand, hfrontier, hheight, hpeak⟩ := hoperand
    exact ⟨.first operand, hfrontier, hheight, hpeak⟩

/-- The given number of links behind a first operand. -/
def chainOf (tier : Tier) (links : Nat) (first : List Token.Kind) : List Token.Kind :=
  first ++ (List.replicate links [operatorOf tier, .identifier]).flatten

theorem chainOf_succ (tier : Tier) (links : Nat) (first : List Token.Kind) :
    chainOf tier (links + 1) first = chainOf tier links first ++ [operatorOf tier, .identifier] := by
  simp [chainOf, List.replicate_succ', List.flatten_append]

/-- A chain is higher than its first operand by its links, at no further cost. -/
theorem reaches_chainOf {tier : Tier} {tighter : List Tier} (htiers : tier :: tighter <:+ Tier.all)
    {first : List Token.Kind} {height levels : Nat}
    (h : Reaches (symbolOf tighter) first height levels) {links : Nat} (hlinks : links ≤ levels)
    (tokens : List Token) (htokens : tokens.map Token.kind = chainOf tier links first) :
    ∃ phrase : Phrase (.tier tier), phrase.tokens = tokens ∧ phrase.links = links ∧
      phrase.tree.height = height + links ∧
      ∀ counter, phrase.peak counter ≤ counter + levels := by
  have hname := reaches_name ((List.suffix_cons tier tighter).trans htiers)
  rw [symbolOf_tighter htiers] at h hname
  induction links generalizing tokens with
  | zero =>
    obtain ⟨operand, hfrontier, hheight, hpeak⟩ := h tokens (by simpa [chainOf] using htokens)
    exact ⟨.first operand, hfrontier, rfl, hheight, hpeak⟩
  | succ links ih =>
    rw [chainOf_succ] at htokens
    obtain ⟨front, back, rfl, hfront, hback⟩ := List.map_eq_append_iff.mp htokens
    obtain ⟨sign, last, rfl, hsign, hlast⟩ := List.map_eq_cons_iff.mp hback
    obtain ⟨left, rfl, hleftLinks, hleftHeight, hleftPeak⟩ :=
      ih (Nat.le_of_succ_le hlinks) front hfront
    obtain ⟨right, rfl, honwardHeight, hrightPeak⟩ := hname last hlast
    obtain ⟨operator, rfl⟩ := exists_operator hsign
    refine ⟨left.link operator right, rfl, ?_, ?_, fun counter ↦ ?_⟩
    · rw [Phrase.links, hleftLinks]
    · rw [Phrase.tree_link, height_join, hleftHeight, honwardHeight]
      omega
    · have hleft := hleftPeak counter
      have hright := hrightPeak (counter + (left.links + 1))
      rw [Phrase.peak, Nat.max_le]
      omega

/-- Chains of all given tiers on each other, with the given number of links each. -/
def tower (links : Nat) (first : List Token.Kind) : List Tier → List Token.Kind
  | [] => first
  | tier :: tighter => chainOf tier links (tower links first tighter)

theorem reaches_tower {first : List Token.Kind} {height levels : Nat}
    (h : Reaches .unary first height levels) {tiers : List Tier} (htiers : tiers <:+ Tier.all) :
    Reaches (symbolOf tiers) (tower levels first tiers) (height + tiers.length * levels) levels := by
  induction tiers with
  | nil => simpa [tower, symbolOf] using h
  | cons tier tighter ih =>
    have htighter := ih ((List.suffix_cons tier tighter).trans htiers)
    intro tokens htokens
    obtain ⟨phrase, hfrontier, -, hheight, hpeak⟩ :=
      reaches_chainOf htiers htighter (Nat.le_refl levels) tokens htokens
    have hsum : height + tighter.length * levels + levels =
        height + (tier :: tighter).length * levels := by
      rw [List.length_cons, Nat.succ_mul, Nat.add_assoc]
    exact ⟨phrase, hfrontier, hheight.trans hsum, hpeak⟩

/-- An expression costs one more level than the tower in it. -/
theorem reaches_expression {first : List Token.Kind} {height levels : Nat}
    (h : Reaches .unary first height levels) :
    Reaches .expression (tower levels first Tier.all) (height + 6 * levels) (levels + 1) := by
  have htower : Reaches (.tier .disjunction) (tower levels first Tier.all) (height + 6 * levels)
      levels := reaches_tower h (List.suffix_refl Tier.all)
  intro tokens htokens
  obtain ⟨phrase, hfrontier, hheight, hpeak⟩ := htower tokens htokens
  refine ⟨.expression (.simple phrase), hfrontier, hheight, fun counter ↦ ?_⟩
  calc
    phrase.peak (counter + 1) ≤ counter + 1 + levels := hpeak (counter + 1)
    _ = counter + (levels + 1) := by omega

/-- The kinds of a tallest operand: a name, or a grouping with a tower in it. -/
def tallestOperand : Nat → List Token.Kind
  | 0 => [.identifier]
  | levels + 1 => .leftParen :: (tower levels (tallestOperand levels) Tier.all ++ [.rightParen])

theorem reaches_tallestOperand (levels : Nat) :
    Reaches .unary (tallestOperand levels) (operandHeight levels) levels := by
  induction levels with
  | zero => exact reaches_name List.nil_suffix
  | succ levels ih =>
    intro tokens htokens
    obtain ⟨opening, more, rfl, hopening, hmore⟩ := List.map_eq_cons_iff.mp htokens
    obtain ⟨middle, back, rfl, hmiddle, hback⟩ := List.map_eq_append_iff.mp hmore
    obtain ⟨closing, rfl, hclosing⟩ := List.map_eq_singleton_iff.mp hback
    obtain ⟨inner, hfrontier, hheight, hpeak⟩ := reaches_expression ih middle hmiddle
    refine ⟨.primary (.group ⟨opening, hopening⟩ inner ⟨closing, hclosing⟩), ?_, ?_, hpeak⟩
    · simp only [Phrase.tokens, hfrontier]
    · exact congrArg (· + 1) hheight

/-- The kinds of a declaration with a tallest expression in it. -/
def tallest (levels : Nat) : List Token.Kind :=
  .kwVar :: .identifier :: .equal ::
    (tower levels (tallestOperand levels) Tier.all ++ [.semicolon])

theorem exists_tallest {levels : Nat} {tokens : List Token}
    (h : tokens.map Token.kind = tallest levels) :
    ∃ decl : VarDecl, decl.tokens = tokens ∧ decl.peak 0 ≤ levels + 1 ∧
      ∃ expr ∈ decl.tree.exprs, expr.height = operandHeight levels + 6 * levels := by
  obtain ⟨keyword, behindKeyword, rfl, hkeyword, h⟩ := List.map_eq_cons_iff.mp h
  obtain ⟨name, behindName, rfl, hname, h⟩ := List.map_eq_cons_iff.mp h
  obtain ⟨equals, behindEquals, rfl, hequals, h⟩ := List.map_eq_cons_iff.mp h
  obtain ⟨middle, back, rfl, hmiddle, hback⟩ := List.map_eq_append_iff.mp h
  obtain ⟨closing, rfl, hclosing⟩ := List.map_eq_singleton_iff.mp hback
  obtain ⟨expr, hfrontier, hheight, hpeak⟩ :=
    reaches_expression (reaches_tallestOperand levels) middle hmiddle
  refine ⟨⟨⟨keyword, hkeyword⟩, ⟨name, hname⟩, some (⟨equals, hequals⟩, expr), ⟨closing, hclosing⟩⟩,
    ?_, ?_, expr.tree, List.mem_singleton_self _, hheight⟩
  · simp [VarDecl.tokens, hfrontier]
  · simpa [VarDecl.peak] using hpeak 0

end Grammar

/-! ## Spelling kinds out -/

namespace Scan

/-- A spelling of each kind that tall phrases are made of. -/
def spelling : Token.Kind → List Char
  | .leftParen => ['(']
  | .rightParen => [')']
  | .semicolon => [';']
  | .equal => ['=']
  | .equalEqual => ['=', '=']
  | .less => ['<']
  | .plus => ['+']
  | .star => ['*']
  | .kwAnd => ['a', 'n', 'd']
  | .kwOr => ['o', 'r']
  | .kwVar => ['v', 'a', 'r']
  | _ => ['a']

/-- The spelling is read as a token of the kind if a blank follows it. -/
def Spelled (kind : Token.Kind) : Prop :=
  ∃ first more, spelling kind = first :: more ∧
    ∀ rest, munch first (more ++ ' ' :: rest) = ⟨.token kind none, more, ' ' :: rest⟩

def spaced (kinds : List Token.Kind) : List Char := kinds.flatMap fun kind ↦ spelling kind ++ [' ']

theorem pieces_spaced {kinds : List Token.Kind} (h : ∀ kind ∈ kinds, Spelled kind)
    (start : Cursor) :
    ((pieces start (spaced kinds)).filterMap Piece.token?).map Token.kind = kinds ∧
      (pieces start (spaced kinds)).filterMap Piece.fault? = [] := by
  induction kinds generalizing start with
  | nil => simp [spaced, pieces]
  | cons kind kinds ih =>
    obtain ⟨hkind, hkinds⟩ := List.forall_mem_cons.mp h
    obtain ⟨first, more, hspelling, hmunch⟩ := hkind
    have hspaced : spaced (kind :: kinds) = first :: (more ++ ' ' :: spaced kinds) := by
      simp [spaced, hspelling]
    have hblank : munch ' ' (spaced kinds) = ⟨.skipped, [], spaced kinds⟩ := rfl
    have hothers := ih hkinds ((start.after (first :: more)).after [' '])
    rw [hspaced, pieces, hmunch, pieces, hblank]
    exact ⟨congrArg (kind :: ·) hothers.1, hothers.2⟩

theorem spelled_operatorOf (tier : Tier) : Spelled (Grammar.operatorOf tier) := by
  cases tier <;> exact ⟨_, _, rfl, fun _ ↦ rfl⟩

theorem spelled_identifier : Spelled .identifier := ⟨'a', [], rfl, fun _ ↦ rfl⟩

theorem spelled_tower {links : Nat} {first : List Token.Kind} (h : ∀ kind ∈ first, Spelled kind)
    (tiers : List Tier) : ∀ kind ∈ Grammar.tower links first tiers, Spelled kind := by
  induction tiers with
  | nil => exact h
  | cons tier tighter ih =>
    intro kind hkind
    simp only [Grammar.tower, Grammar.chainOf, List.mem_append, List.mem_flatten,
      List.mem_replicate] at hkind
    rcases hkind with hkind | ⟨link, ⟨-, rfl⟩, hkind⟩
    · exact ih kind hkind
    · simp only [List.mem_cons, List.not_mem_nil, or_false] at hkind
      rcases hkind with rfl | rfl
      · exact spelled_operatorOf tier
      · exact spelled_identifier

theorem spelled_tallestOperand (levels : Nat) :
    ∀ kind ∈ Grammar.tallestOperand levels, Spelled kind := by
  induction levels with
  | zero => exact List.forall_mem_singleton.mpr spelled_identifier
  | succ levels ih =>
    intro kind hkind
    simp only [Grammar.tallestOperand, List.mem_cons, List.mem_append, List.not_mem_nil,
      or_false] at hkind
    rcases hkind with rfl | hkind | rfl
    · exact ⟨_, _, rfl, fun _ ↦ rfl⟩
    · exact spelled_tower ih Tier.all kind hkind
    · exact ⟨_, _, rfl, fun _ ↦ rfl⟩

theorem spelled_tallest (levels : Nat) : ∀ kind ∈ Grammar.tallest levels, Spelled kind := by
  intro kind hkind
  simp only [Grammar.tallest, List.mem_cons, List.mem_append, List.not_mem_nil, or_false] at hkind
  rcases hkind with rfl | rfl | rfl | hkind | rfl
  · exact ⟨_, _, rfl, fun _ ↦ rfl⟩
  · exact spelled_identifier
  · exact ⟨_, _, rfl, fun _ ↦ rfl⟩
  · exact spelled_tower (spelled_tallestOperand levels) Tier.all kind hkind
  · exact ⟨_, _, rfl, fun _ ↦ rfl⟩

end Scan

/-! ## Accepted sources -/

namespace Program

/-- A source without a fault is read as the tree of a derivation within the limit. -/
theorem ofSource_sound {source : String} (h : (ofSource .script source).faults = []) :
    ∃ derivation : Grammar.Passage .sequence, derivation.peak 0 ≤ nestingLimit ∧
      derivation.tree = (ofSource .script source).statements := by
  have hparse : (parse .script (Scan.ofSource source).stream).faults = [] :=
    (List.append_eq_nil_iff.mp h).2
  obtain ⟨derivation, -, -, htree, hpeak⟩ :=
    exists_derivation (fun _ htoken ↦ Scan.kind_ne_eof htoken) rfl hparse
  exact ⟨derivation, hpeak, htree⟩

theorem ofSource_eq_tree {source : String} {derivation : Grammar.Passage .sequence}
    (hfaults : (Scan.ofSource source).faults = [])
    (hfrontier : derivation.tokens = (Scan.ofSource source).tokens) (hnearest : derivation.Nearest)
    (hpeak : derivation.peak 0 ≤ nestingLimit) :
    ofSource .script source = ⟨derivation.tree, []⟩ := by
  have htokens : ∀ token ∈ derivation.tokens, token.kind ≠ .eof := by
    intro token htoken
    rw [hfrontier] at htoken
    exact Scan.kind_ne_eof htoken
  have hmark : (Scan.ofSource source).endMark.kind = .eof := rfl
  have hparse := parse_eq_tree hnearest htokens hmark hpeak
  rw [hfrontier] at hparse
  simp only [ofSource, Scan.stream, hparse, hfaults, List.append_nil]

/-- With fewer levels than the limit a tallest expression is accepted. -/
theorem exists_height_eq {levels : Nat} (h : levels < nestingLimit) :
    ∃ source : String, (ofSource .script source).faults = [] ∧
      ∃ expr ∈ (ofSource .script source).exprs,
        expr.height = Grammar.operandHeight levels + 6 * levels := by
  have hscan := Scan.pieces_spaced (Scan.spelled_tallest levels) .origin
  rw [← String.toList_ofList (l := Scan.spaced (Grammar.tallest levels))] at hscan
  generalize String.ofList (Scan.spaced (Grammar.tallest levels)) = source at hscan
  obtain ⟨hkinds, hfaults⟩ : (Scan.ofSource source).tokens.map Token.kind = Grammar.tallest levels ∧
      (Scan.ofSource source).faults = [] := hscan
  obtain ⟨decl, htokens, hpeak, expr, hexpr, hheight⟩ := Grammar.exists_tallest hkinds
  let derivation : Grammar.Passage .sequence := .more (.declare decl) .empty
  have hfrontier : derivation.tokens = (Scan.ofSource source).tokens :=
    (List.append_nil decl.tokens).trans htokens
  have hlimit : derivation.peak 0 ≤ nestingLimit :=
    Nat.max_le.mpr ⟨Nat.le_trans hpeak h, Nat.zero_le nestingLimit⟩
  have hread : ofSource .script source = ⟨[decl.tree], []⟩ :=
    ofSource_eq_tree hfaults hfrontier ⟨trivial, trivial⟩ hlimit
  have hmem : expr ∈ (ofSource .script source).exprs := by
    rw [hread]
    exact List.mem_append_left [] hexpr
  exact ⟨source, by rw [hread], expr, hmem, hheight⟩

/-- What the nesting limit does for the paths of an expression in an accepted source. It
bounds the steps that do not go to the left. So a path is within the limit exactly if the
steps to the left do not need more than what the others leave of it. In all there are up to
48895 steps, the most that the limit allows. -/
theorem path_of_accepted {source : String} (h : (ofSource .script source).faults = []) :
    ∀ expr ∈ (ofSource .script source).exprs, ∀ path ∈ expr.paths,
      path.count .onward < nestingLimit ∧
      (path.length ≤ nestingLimit ↔ path.count .left ≤ nestingLimit - path.count .onward) ∧
      path.length ≤ 48895 := by
  intro expr hexpr path hpath
  obtain ⟨derivation, hpeak, htree⟩ := ofSource_sound h
  rw [exprs, ← htree] at hexpr
  obtain ⟨hheight, honward⟩ := derivation.fits hpeak expr hexpr
  have hcount : path.count .onward < nestingLimit :=
    Nat.lt_of_le_of_lt (expr.measures.count_le path hpath) honward
  have hlength : path.length < Grammar.operandHeight nestingLimit :=
    Nat.lt_of_le_of_lt (expr.measures.length_le path hpath) hheight
  rw [Grammar.operandHeight_eq] at hlength
  refine ⟨hcount, ?_, Nat.le_of_lt_succ hlength⟩
  rw [Expr.length_eq_count]
  omega

theorem path_of_accepted_sum :
    (ofSource .script "print a * a + a;").faults = [] ∧
      (ofSource .script "print a * a + a;").exprs.map Expr.paths =
        [[[.left, .left], [.left, .onward], [.onward]]] ∧
      ∀ expr ∈ (ofSource .script "print a * a + a;").exprs, ∀ path ∈ expr.paths,
        path.length ≤ 48895 := by
  have hfaults : (ofSource .script "print a * a + a;").faults = [] := by decide +kernel
  refine ⟨hfaults, by decide +kernel, fun expr hexpr path hpath ↦ ?_⟩
  exact (path_of_accepted hfaults expr hexpr path hpath).2.2

/-- The bound is attained, far above the limit. -/
theorem exists_path_gt_nestingLimit :
    ∃ source : String, (ofSource .script source).faults = [] ∧
      ∃ expr ∈ (ofSource .script source).exprs, ∃ path ∈ expr.paths,
        nestingLimit < path.length ∧ path.length = 48895 := by
  obtain ⟨source, hfaults, expr, hexpr, hheight⟩ :=
    exists_height_eq (by decide : 127 < nestingLimit)
  obtain ⟨path, hpath, hlength⟩ := expr.measures.attained
  rw [Grammar.operandHeight_eq] at hheight
  have hattained : path.length = 48895 := hlength.trans hheight
  refine ⟨source, hfaults, expr, hexpr, path, hpath, ?_, hattained⟩
  rw [hattained]
  decide

end Program

end LoxLang
