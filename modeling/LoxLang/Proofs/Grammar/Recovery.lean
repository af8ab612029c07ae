import LoxLang.Proofs.Grammar.Isolation
import LoxLang.Proofs.Grammar.Robustness

/-!
# A missing semicolon

Where the semicolon of a statement is missing, the violation is found at the next token. Recovery
drops that token before it looks for a place to go on, and so the keyword that starts the next
statement is lost, with everything up to the next semicolon or the next such keyword.

If the text behind the missing semicolon is well formed, it is therefore never read as it would be
alone: each keyword of a statement gives one node of the tree, and one keyword is not read.
-/

namespace LoxLang

/-- The issue that is raised where a statement of the form lacks its semicolon. -/
def Stmt.Form.missingSemicolon : Form → Issue
  | declare => .noSemicolonAfterDeclaration
  | print => .noSemicolonAfterValue
  | _ => .noSemicolonAfterExpression

namespace Grammar

/-- The keywords that a statement or a declaration starts with. -/
def leadingKeywords : List Token.Kind := [.kwVar, .kwFor, .kwIf, .kwWhile, .kwPrint]

theorem endsExpression_of_keyword {token : Token} {rest : List Token}
    (h : token.kind ∈ leadingKeywords) : EndsExpression (token :: rest) := by
  constructor
  · intro tier _ kind hkind
    obtain rfl := Option.some.inj hkind
    generalize token.kind = kind at h
    revert h
    cases kind <;> cases tier <;> decide
  · intro hequal
    rw [nextKind_cons, Option.some.injEq] at hequal
    rw [hequal] at h
    revert h
    decide

/-! ## Statements without their semicolon -/

theorem expect_of_ne {wanted : Token.Kind} {issue : Issue} {token : Token} {rest : List Token}
    (h : token.kind ≠ wanted) :
    Rule.expect wanted issue (token :: rest) = ⟨[], .failed issue (token :: rest)⟩ :=
  if_neg h

theorem bind_of_failed {α β : Type} {first : Rule α} {second : α → Rule β} {input rest : List Token}
    {issue : Issue} (h : first input = ⟨[], .failed issue rest⟩) :
    (first >>= second) input = ⟨[], .failed issue rest⟩ := by
  change Rule.andThen first second input = _
  simp only [Rule.andThen, h]

section

variable {first : Token} {rest : List Token} (hfirst : first.kind ∈ leadingKeywords) (eof : Span)

include hfirst

theorem ne_semicolon_of_keyword : first.kind ≠ .semicolon := by
  intro hkind
  rw [hkind] at hfirst
  revert hfirst
  decide

/-- The expression in front of the keyword is read, and the semicolon behind it is missed. -/
theorem expression_without_semicolon (phrase : Phrase .expression) {budget counter : Nat}
    (hpeak : phrase.peak counter ≤ counter + budget) (issue : Issue)
    (value : Expr → Token → Stmt) :
    (do
      let expr ← expression budget
      let closing ← Rule.expect .semicolon issue
      return value expr closing : Rule Stmt) (phrase.tokens ++ first :: rest) =
        ⟨[], .failed issue (first :: rest)⟩ := by
  have hexpr := (phrase.complete budget counter (first :: rest)
    (endsExpression_of_keyword hfirst)).accepts hpeak
  rw [hexpr.bind_eq]
  exact bind_of_failed (expect_of_ne (ne_semicolon_of_keyword hfirst))

theorem declaration_without_semicolon (decl : VarDecl) {front : List Token} {closing : Token}
    (htokens : decl.tokens = front ++ [closing]) {budget counter : Nat}
    (hpeak : decl.peak counter ≤ counter + budget) :
    (parts .script eof budget).declarationOrStatement (front ++ first :: rest) =
      ⟨[], .failed .noSemicolonAfterDeclaration (first :: rest)⟩ := by
  obtain ⟨keyword, name, initial, last⟩ := decl
  have hclosing (value : Option Expr) :
      (do
        let closing ← Rule.expect .semicolon .noSemicolonAfterDeclaration
        return .declare name.val.lexeme value (keyword.val.span.cover closing.span) : Rule Stmt)
        (first :: rest) = ⟨[], .failed .noSemicolonAfterDeclaration (first :: rest)⟩ :=
    bind_of_failed (expect_of_ne (ne_semicolon_of_keyword hfirst))
  have hdeclaration (input : List Token) :
      (parts .script eof budget).declarationOrStatement (keyword.val :: input) =
        (parts .script eof budget).declaration keyword.val.span input :=
    (Rule.accepts_accept_some.mpr ⟨keyword.property, rfl⟩).bind_eq
  cases initial with
  | none =>
    have happend : [keyword.val, name.val] ++ [last.val] = front ++ [closing] := htokens
    obtain rfl := List.append_inj_left' happend rfl
    have hequals : nextKind (first :: rest) ≠ some .equal :=
      (endsExpression_of_keyword hfirst).equals
    rw [List.cons_append, List.cons_append, List.nil_append, hdeclaration, Parts.declaration,
      (Rule.accepts_expect.mpr ⟨name.property, rfl⟩).bind_eq,
      (Rule.accepts_accept_none.mpr ⟨hequals, rfl⟩).bind_eq]
    exact (Rule.accepts_pure.mpr ⟨rfl, rfl⟩).bind_eq.trans (hclosing none)
  | some initial =>
    obtain ⟨equals, expr⟩ := initial
    have happend : keyword.val :: name.val :: equals.val :: expr.tokens ++ [last.val] =
        front ++ [closing] := htokens
    obtain rfl := List.append_inj_left' happend rfl
    have hexpr := (expr.complete budget counter (first :: rest)
      (endsExpression_of_keyword hfirst)).accepts hpeak
    rw [List.cons_append, List.cons_append, List.cons_append, hdeclaration, Parts.declaration,
      (Rule.accepts_expect.mpr ⟨name.property, rfl⟩).bind_eq,
      (Rule.accepts_accept_some.mpr ⟨equals.property, rfl⟩).bind_eq, parts_expression]
    exact (Rule.accepts_map.mpr ⟨expr.tree, hexpr, rfl⟩).bind_eq.trans (hclosing (some expr.tree))

/-- Reading a declaration fails at the keyword behind it if the semicolon at its end is missing. -/
theorem item_without_semicolon (decl : Passage .declaration) {front : List Token} {closing : Token}
    (htokens : decl.tokens = front ++ [closing])
    (hform : Stmt.form decl.tree ∈ [.declare, .print, .expression]) {budget counter : Nat}
    (hpeak : decl.peak counter ≤ counter + (budget + 1)) :
    (parts .script eof (budget + 1)).item (front ++ first :: rest) =
      ⟨[.atToken first (Stmt.form decl.tree).missingSemicolon],
        .done none (synchronize (first :: rest))⟩ := by
  have hrecovers {issue : Issue}
      (h : (parts .script eof (budget + 1)).declarationOrStatement (front ++ first :: rest) =
        ⟨[], .failed issue (first :: rest)⟩) :
      (parts .script eof (budget + 1)).item (front ++ first :: rest) =
        ⟨[.atToken first issue], .done none (synchronize (first :: rest))⟩ := by
    simp only [Parts.item, recovering, h, List.nil_append, Fault.atNext]
  have hstatement {token : Token} {input : List Token} (hvar : token.kind ≠ .kwVar) :
      (parts .script eof (budget + 1)).declarationOrStatement (token :: input) =
        (parts .script eof budget).body (token :: input) :=
    (Rule.accepts_accept_none.mpr ⟨by simpa using hvar, rfl⟩).bind_eq
  have hlevel {reached : Nat} (h : reached ≤ counter + (budget + 1)) :
      reached ≤ counter + 1 + budget := by omega
  cases decl with
  | declare decl => exact hrecovers (declaration_without_semicolon hfirst eof decl htokens hpeak)
  | statement stmt =>
    cases stmt with
    | expression stmt =>
      obtain rfl := List.append_inj_left' htokens rfl
      obtain ⟨more, hmore⟩ := stmt.expr.tokens_eq_cons
      have hstart := head_mem_expressionStarts stmt.expr
      have hvar : stmt.expr.head.kind ≠ .kwVar := by
        intro hkind
        rw [hkind] at hstart
        revert hstart
        decide
      apply hrecovers
      rw [hmore, List.cons_append, hstatement hvar, body_eq_expressionStatement _ _ hstart,
        expressionStatement_cons, ← List.cons_append, ← hmore]
      exact expression_without_semicolon hfirst stmt.expr (hlevel hpeak) _ _
    | print keyword expr last =>
      have happend : keyword.val :: expr.tokens ++ [last.val] = front ++ [closing] := htokens
      obtain rfl := List.append_inj_left' happend rfl
      have hvar : keyword.val.kind ≠ .kwVar := by
        rw [keyword.property]
        decide
      apply hrecovers
      rw [List.cons_append, hstatement hvar, Parts.body, keyword.property]
      simp only [Parts.print, parts_expression]
      exact expression_without_semicolon hfirst expr (hlevel hpeak) _ _
    | block opening body last => simp [Passage.tree, Stmt.form] at hform
    | ifThen guard thenBranch => simp [Passage.tree, Stmt.form] at hform
    | ifElse guard thenBranch separator elseBranch => simp [Passage.tree, Stmt.form] at hform
    | whileLoop guard body => simp [Passage.tree, Stmt.form] at hform
    | forLoop header body =>
      simp only [Passage.tree, ForHeader.tree] at hform
      split at hform <;> simp [Stmt.form] at hform

end

theorem Passage.eq_single_of_tree (passage : Passage .sequence) {stmt : Stmt}
    (h : passage.tree = [stmt]) : ∃ decl : Passage .declaration, passage = .more decl .empty ∧
      decl.tree = stmt := by
  match passage with
  | .empty => cases h
  | .more decl .empty => exact ⟨decl, rfl, (List.cons.inj h).1⟩
  | .more decl (.more other rest) => cases (List.cons.inj h).2

/-- Recovery does not pass the end of the input. -/
theorem synchronize_append_mark {mark : Token} (hmark : mark.kind = .eof) (tokens : List Token) :
    synchronize (tokens ++ [mark]) = synchronize tokens ++ [mark] ∨
      synchronize tokens = [] ∧ synchronize (tokens ++ [mark]) = [] := by
  have hstart : startsStatement mark.kind = false := by
    rw [hmark]
    rfl
  induction tokens with
  | nil => exact .inr ⟨rfl, by simp [synchronize, hmark]⟩
  | cons token rest ih =>
    have hnext : (rest ++ [mark]).head?.any (fun next ↦ startsStatement next.kind) =
        rest.head?.any fun next ↦ startsStatement next.kind := by
      cases rest with
      | nil => exact hstart
      | cons next others => rfl
    simp only [List.cons_append, synchronize, hnext]
    split
    · exact .inl rfl
    · exact ih

end Grammar

/-- What recovery leaves of a token list is the input that it leaves, with the same end. -/
theorem TokenInput.ofList_synchronize (tokens : List Token) :
    let left := Grammar.synchronize (Indexed.upToMark tokens)
    (ofList left).tokens = Grammar.synchronize (ofList tokens).tokens ∧
      ((ofList left).tokens ≠ [] → (ofList left).eof = (ofList tokens).eof) := by
  intro left
  obtain hnone | ⟨front, mark, tail, hfront, hmark, rfl⟩ := Indexed.unmarked_or_marked tokens
  · have hleft : left = Grammar.synchronize tokens :=
      congrArg Grammar.synchronize (Indexed.upToMark_of_forall hnone)
    obtain ⟨front, hfront⟩ := Grammar.synchronize_suffix tokens
    have hunmarked : ∀ token ∈ front ++ left, token.kind ≠ .eof := by
      rw [hleft, hfront]
      exact hnone
    obtain ⟨hfrontMarks, hleftMarks⟩ := List.forall_mem_append.mp hunmarked
    rw [tokens_of_unmarked hleftMarks, tokens_of_unmarked hnone]
    refine ⟨hleft, fun hsome ↦ ?_⟩
    rw [← eof_append hfrontMarks hsome, hleft, hfront]
  · have hleft : left = Grammar.synchronize (front ++ [mark]) :=
      congrArg Grammar.synchronize (Indexed.upToMark_append hfront hmark)
    rw [ofList_append_endMark hfront hmark, hleft]
    obtain hmarked | ⟨hnothing, hnone⟩ := Grammar.synchronize_append_mark hmark front
    · have hunmarked : ∀ token ∈ Grammar.synchronize front, token.kind ≠ .eof :=
        fun token htoken ↦ hfront token ((Grammar.synchronize_suffix front).subset htoken)
      rw [hmarked, ofList_append_endMark hunmarked hmark]
      exact ⟨rfl, fun _ ↦ rfl⟩
    · rw [hnone, hnothing]
      exact ⟨rfl, fun hsome ↦ absurd rfl hsome⟩

theorem TokenInput.tokens_cons_keyword {first : Token} {others : List Token}
    (hfirst : first.kind ∈ Grammar.leadingKeywords) :
    (ofList (first :: others)).tokens = first :: (ofList others).tokens := by
  refine tokens_append (List.forall_mem_singleton.mpr fun hkind ↦ ?_) others
  rw [hkind] at hfirst
  revert hfirst
  decide

/-! ## Keywords and the nodes they give -/

namespace Stmt

mutual

/-- The number of keywords that a statement was read from: each gives one node. -/
def keywords : Stmt → Nat
  | expression .. => 0
  | print .. => 1
  | declare .. => 1
  | block body _ => keywordsOfAll body
  | branch _ thenBranch none _ => thenBranch.keywords + 1
  | branch _ thenBranch (some elseBranch) _ => thenBranch.keywords + elseBranch.keywords + 1
  | loop _ body _ => body.keywords + 1
termination_by structural stmt => stmt

def keywordsOfAll : List Stmt → Nat
  | [] => 0
  | stmt :: rest => stmt.keywords + keywordsOfAll rest
termination_by structural stmts => stmts

end

end Stmt

namespace Grammar

def Category.keywords : (category : Category) → category.Tree → Nat
  | statement, stmt => Stmt.keywords stmt
  | declaration, stmt => Stmt.keywords stmt
  | sequence, stmts => Stmt.keywordsOfAll stmts

/-- The number of tokens that are the keyword of a statement or a declaration. -/
def countKeywords (tokens : List Token) : Nat := tokens.countP (·.kind ∈ leadingKeywords)

@[simp]
theorem countKeywords_nil : countKeywords [] = 0 := rfl

@[simp]
theorem countKeywords_append (tokens others : List Token) :
    countKeywords (tokens ++ others) = countKeywords tokens + countKeywords others :=
  List.countP_append

theorem countKeywords_cons_of_mem {token : Token} {rest : List Token}
    (h : token.kind ∈ leadingKeywords) :
    countKeywords (token :: rest) = countKeywords rest + 1 :=
  List.countP_cons_of_pos (by simpa using h)

theorem countKeywords_cons_of_not_mem {token : Token} {rest : List Token}
    (h : token.kind ∉ leadingKeywords) : countKeywords (token :: rest) = countKeywords rest :=
  List.countP_cons_of_neg (by simpa using h)

@[simp]
theorem countKeywords_word {kind : Token.Kind} (word : Word kind) (rest : List Token) :
    countKeywords (word.val :: rest) =
      countKeywords rest + if kind ∈ leadingKeywords then 1 else 0 := by
  split
  · next hmem => exact countKeywords_cons_of_mem (by rw [word.property]; exact hmem)
  · next hmem => exact countKeywords_cons_of_not_mem (by rw [word.property]; exact hmem)

@[simp]
theorem Phrase.countKeywords_tokens {symbol : Symbol} (phrase : Phrase symbol) :
    countKeywords phrase.tokens = 0 := by
  have hoperators (tier : Tier) : ∀ listed ∈ tier.operators, listed.1 ∉ leadingKeywords := by
    cases tier <;> decide
  have hprefixes : ∀ listed ∈ prefixOperators, listed.1 ∉ leadingKeywords := by decide
  have hprimaries : ∀ kind ∈ primaryStarts, kind ∉ leadingKeywords := by decide
  induction phrase with
  | expression inner ih => exact ih
  | assign name equals value ih => simp [tokens, ih, leadingKeywords]
  | simple operand ih => exact ih
  | first operand ih => exact ih
  | @link tier left operator right ihLeft ihRight =>
    simp only [tokens, countKeywords_append, ihLeft,
      countKeywords_cons_of_not_mem (hoperators tier _ operator.listed), ihRight]
  | signed operator operand ih =>
    simp only [tokens, countKeywords_cons_of_not_mem (hprefixes _ operator.listed), ih]
  | primary inner ih => exact ih
  | literal token value stands =>
    simp only [tokens, countKeywords_cons_of_not_mem (hprimaries _ (kind_mem_of_value? stands)),
      countKeywords_nil]
  | reference name => simp [tokens, leadingKeywords]
  | group opening inner closing ih => simp [tokens, ih, leadingKeywords]

@[simp]
theorem VarDecl.countKeywords_tokens (decl : VarDecl) : countKeywords decl.tokens = 1 := by
  obtain ⟨keyword, name, initial, closing⟩ := decl
  cases initial <;> simp [tokens, leadingKeywords]

@[simp]
theorem ExprStmt.countKeywords_tokens (stmt : ExprStmt) : countKeywords stmt.tokens = 0 := by
  simp [tokens, leadingKeywords]

@[simp]
theorem Guard.countKeywords_tokens {kind : Token.Kind} (guard : Guard kind) :
    countKeywords guard.tokens = if kind ∈ leadingKeywords then 1 else 0 := by
  have hopening : Token.Kind.leftParen ∉ leadingKeywords := by decide
  have hclosing : Token.Kind.rightParen ∉ leadingKeywords := by decide
  simp [tokens, hopening, hclosing]

theorem ForInitial.countKeywords_tokens (initial : ForInitial) :
    countKeywords initial.tokens = Stmt.keywordsOfAll initial.tree?.toList := by
  cases initial <;>
    simp [tokens, tree?, VarDecl.tree, ExprStmt.tree, Stmt.keywordsOfAll, Stmt.keywords,
      leadingKeywords]

theorem ForHeader.keywords_tree (header : ForHeader) (body : Stmt) :
    (header.tree body).keywords =
      Stmt.keywordsOfAll header.initial.tree?.toList + body.keywords + 1 := by
  obtain ⟨keyword, opening, initial, condition, separator, increment, closing⟩ := header
  cases increment <;> cases hinitial : initial.tree? <;>
    simp only [tree, hinitial, Stmt.keywords, Stmt.keywordsOfAll, Option.toList] <;> omega

theorem ForHeader.countKeywords_tokens (header : ForHeader) :
    countKeywords header.tokens = Stmt.keywordsOfAll header.initial.tree?.toList + 1 := by
  have hclause (clause : Option (Phrase .expression)) :
      countKeywords ((clause.map Phrase.tokens).getD []) = 0 := by
    cases clause <;> simp
  simp [tokens, hclause, header.initial.countKeywords_tokens, leadingKeywords]

/-- Each keyword that starts a statement or a declaration gives one node of the tree. -/
theorem Passage.countKeywords_tokens {category : Category} (passage : Passage category) :
    countKeywords passage.tokens = category.keywords passage.tree := by
  induction passage with
  | expression stmt => exact stmt.countKeywords_tokens
  | print keyword expr closing =>
    simp [tokens, tree, Category.keywords, Stmt.keywords, leadingKeywords]
  | block opening body closing ih =>
    simp [tokens, ih, tree, Category.keywords, Stmt.keywords, leadingKeywords]
  | ifThen guard thenBranch ih =>
    simp [tokens, ih, tree, Category.keywords, Stmt.keywords, leadingKeywords, Nat.add_comm]
  | ifElse guard thenBranch separator elseBranch ihThen ihElse =>
    simp [tokens, ihThen, ihElse, tree, Category.keywords, Stmt.keywords, leadingKeywords,
      Nat.add_comm]
  | whileLoop guard body ih =>
    simp [tokens, ih, tree, Category.keywords, Stmt.keywords, leadingKeywords, Nat.add_comm]
  | forLoop header body ih =>
    simp only [tokens, countKeywords_append, header.countKeywords_tokens, ih, tree,
      Category.keywords, header.keywords_tree]
    omega
  | declare decl => exact decl.countKeywords_tokens
  | statement stmt ih => exact ih
  | empty => rfl
  | more decl rest ihDecl ihRest =>
    simp only [tokens, countKeywords_append, ihDecl, ihRest]
    rfl

end Grammar

namespace Program

theorem keywords_of_clean {tokens : List Token} (h : (parse .script tokens).faults = []) :
    Stmt.keywordsOfAll (parse .script tokens).statements =
      Grammar.countKeywords (TokenInput.ofList tokens).tokens := by
  obtain ⟨passage, hfrontier, -, htree, -⟩ :=
    Grammar.collect_sound (Grammar.parts_sound _ _) (Nat.le_refl _) h
  rw [← hfrontier, passage.countKeywords_tokens]
  exact congrArg Stmt.keywordsOfAll htree.symm

/-- The item in front of the keyword is given up there. -/
theorem item_of_missing_semicolon {front : List Token} {closing first : Token} {stmt : Stmt}
    (hfront : ∀ token ∈ front, token.kind ≠ .eof) (hclosing : closing.kind = .semicolon)
    (hstmt : parse .script (front ++ [closing]) = ⟨[stmt], []⟩)
    (hform : stmt.form ∈ [.declare, .print, .expression])
    (hfirst : first.kind ∈ Grammar.leadingKeywords) (rest : List Token) (eof : Span) :
    (Grammar.parts .script eof nestingLimit).item (front ++ first :: rest) =
      ⟨[.atToken first stmt.form.missingSemicolon],
        .done none (Grammar.synchronize (first :: rest))⟩ := by
  have hmarks : ∀ token ∈ front ++ [closing], token.kind ≠ .eof := by
    refine List.forall_mem_append.mpr ⟨hfront, List.forall_mem_singleton.mpr ?_⟩
    rw [hclosing]
    decide
  obtain ⟨passage, htokens, -, htree, hpeak⟩ :=
    exists_derivation_of_unmarked hmarks (congrArg faults hstmt)
  rw [hstmt] at htree
  obtain ⟨decl, rfl, rfl⟩ := passage.eq_single_of_tree htree
  have hdeclTokens : decl.tokens = front ++ [closing] := by
    rw [← htokens, Grammar.Passage.tokens, Grammar.Passage.tokens, List.append_nil]
  obtain ⟨budget, hbudget⟩ : ∃ budget, nestingLimit = budget + 1 := ⟨127, rfl⟩
  rw [hbudget] at hpeak ⊢
  have hdeclPeak : decl.peak 0 ≤ 0 + (budget + 1) := by
    rw [Nat.zero_add]
    exact Nat.le_trans (Nat.le_max_left _ _) hpeak
  exact Grammar.item_without_semicolon hfirst eof decl hdeclTokens hform hdeclPeak

section

variable {first : Token} {others : List Token} (hfirst : first.kind ∈ Grammar.leadingKeywords)

include hfirst

/-- What recovery leaves of a well-formed text that starts with a keyword is another program: the
keyword gives a node of the one and is missing from the text of the other. -/
theorem parse_synchronize_ne (hclean : (parse .script (first :: others)).faults = []) :
    parse .script (Grammar.synchronize (Indexed.upToMark (first :: others))) ≠
      parse .script (first :: others) := by
  intro hsame
  have hwhole := keywords_of_clean hclean
  have hleft := keywords_of_clean (hsame ▸ hclean)
  rw [(TokenInput.ofList_synchronize _).1, TokenInput.tokens_cons_keyword hfirst] at hleft
  rw [TokenInput.tokens_cons_keyword hfirst, Grammar.countKeywords_cons_of_mem hfirst, ← hsame,
    hleft] at hwhole
  have hfewer : Grammar.countKeywords (Grammar.synchronize
      (first :: (TokenInput.ofList others).tokens)) ≤
      Grammar.countKeywords (TokenInput.ofList others).tokens :=
    (Grammar.synchronize_cons_suffix _ _).sublist.countP_le
  omega

/-- The item in front of the keyword is given up there, and reading goes on with what recovery
leaves. -/
theorem parse_of_missing_semicolon {front : List Token} {closing : Token} {stmt : Stmt}
    (hfront : ∀ token ∈ front, token.kind ≠ .eof) (hclosing : closing.kind = .semicolon)
    (hstmt : parse .script (front ++ [closing]) = ⟨[stmt], []⟩)
    (hform : stmt.form ∈ [.declare, .print, .expression]) :
    let left := Grammar.synchronize (Indexed.upToMark (first :: others))
    parse .script (front ++ first :: others) =
      ⟨(parse .script left).statements,
        .atToken first stmt.form.missingSemicolon :: (parse .script left).faults⟩ := by
  intro left
  obtain ⟨hleft, hend⟩ := TokenInput.ofList_synchronize (first :: others)
  obtain ⟨token, input, hinput⟩ : ∃ token input,
      front ++ first :: (TokenInput.ofList others).tokens = token :: input :=
    List.exists_cons_of_ne_nil (by simp)
  have hrepeats (eof : Span) :
      (Grammar.parts .script eof nestingLimit).item.Repeats (fun _ ↦ True)
        (front ++ (TokenInput.ofList (first :: others)).tokens) []
        [.atToken first stmt.form.missingSemicolon] (TokenInput.ofList left).tokens := by
    have hitem := item_of_missing_semicolon hfront hclosing hstmt hform hfirst
      (TokenInput.ofList others).tokens eof
    rw [hleft, TokenInput.tokens_cons_keyword hfirst, hinput]
    rw [hinput] at hitem
    exact .single trivial hitem
  exact parse_append_of_repeats hfront hrepeats fun hsome ↦ ⟨List.cons_ne_nil _ _, hend hsome⟩

end

/-- Where the semicolon of a statement is missing before a keyword, the violation is found at the
keyword. What is read behind it is the part of the text that recovery leaves, and not the text from
the keyword on: if that is well formed, it gives another program. -/
theorem parse_missing_semicolon {front others : List Token} {closing first : Token} {stmt : Stmt}
    (hfront : ∀ token ∈ front, token.kind ≠ .eof) (hclosing : closing.kind = .semicolon)
    (hstmt : parse .script (front ++ [closing]) = ⟨[stmt], []⟩)
    (hform : stmt.form ∈ [.declare, .print, .expression])
    (hfirst : first.kind ∈ [.kwVar, .kwFor, .kwIf, .kwWhile, .kwPrint]) :
    let left := Grammar.synchronize (Indexed.upToMark (first :: others))
    parse .script (front ++ first :: others) =
        ⟨(parse .script left).statements,
          .atToken first stmt.form.missingSemicolon :: (parse .script left).faults⟩ ∧
      ((parse .script (first :: others)).faults = [] →
        parse .script left ≠ parse .script (first :: others)) :=
  ⟨parse_of_missing_semicolon hfirst hfront hclosing hstmt hform, parse_synchronize_ne hfirst⟩

/-- In `print nil print true;` the violation is at the second `print`, and nothing is read. -/
theorem parse_missing_semicolon_print :
    let front := Token.row 0 [(.kwPrint, "print"), (.kwNil, "nil")]
    let closing : Token := ⟨.semicolon, ";", none, .single 2 1⟩
    let first : Token := ⟨.kwPrint, "print", none, .single 2 1⟩
    let others := Token.row 3 [(.kwTrue, "true"), (.semicolon, ";")]
    (∀ token ∈ front, token.kind ≠ .eof) ∧
      parse .script (front ++ [closing]) =
        ⟨[.print (.literal .nil (.single 1 1)) ⟨0, 3, 1⟩], []⟩ ∧
      parse .script (front ++ first :: others) = ⟨[], [.atToken first .noSemicolonAfterValue]⟩ := by
  intro front closing first others
  have hfront : ∀ token ∈ front, token.kind ≠ .eof := by decide
  have hstmt : parse .script (front ++ [closing]) =
      ⟨[.print (.literal .nil (.single 1 1)) ⟨0, 3, 1⟩], []⟩ := rfl
  have hfirst : first.kind ∈ [.kwVar, .kwFor, .kwIf, .kwWhile, .kwPrint] := by decide
  have hmissing : parse .script (front ++ first :: others) = _ ∧ _ :=
    parse_missing_semicolon hfront rfl hstmt (by decide) hfirst
  exact ⟨hfront, hstmt, hmissing.1⟩

/-- Recovery does not stop at the keyword that it finds: `print true;` is not read behind
`print nil`, as it would be alone. -/
theorem not_forall_resumes_at_keyword :
    ¬∀ (front others : List Token) (closing first : Token) (stmt : Stmt),
      (∀ token ∈ front, token.kind ≠ .eof) → closing.kind = .semicolon →
      parse .script (front ++ [closing]) = ⟨[stmt], []⟩ →
      stmt.form ∈ [.declare, .print, .expression] →
      first.kind ∈ [.kwVar, .kwFor, .kwIf, .kwWhile, .kwPrint] →
      ∃ issue, parse .script (front ++ first :: others) =
        ⟨(parse .script (first :: others)).statements,
          .atToken first issue :: (parse .script (first :: others)).faults⟩ := by
  intro hresumes
  obtain ⟨issue, hparse⟩ := hresumes (Token.row 0 [(.kwPrint, "print"), (.kwNil, "nil")])
    (Token.row 3 [(.kwTrue, "true"), (.semicolon, ";")]) ⟨.semicolon, ";", none, .single 2 1⟩
    ⟨.kwPrint, "print", none, .single 2 1⟩ _ (by decide) rfl rfl (by decide) (by decide)
  cases congrArg statements hparse

end Program

end LoxLang
