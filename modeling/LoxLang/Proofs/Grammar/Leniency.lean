import LoxLang.Proofs.Grammar.Alike
import LoxLang.Proofs.Grammar.Sequence

/-!
# The semicolon at the end

In interactive input the last semicolon may be left out if it would end an expression statement.
The rule for that is applied wherever such a statement can stand: as a branch, as the body of a
loop, in a block, and as the first clause of a `for`. In the last two places it never helps, since
what has to follow is not there when the input has ended. So what is read without a fault as
interactive input is read without a fault as a script too, or it is so when a semicolon is added,
and then the semicolon ends an expression statement.

The two directions meet in the derivations of what is read with the semicolon. From what the
interactive rules accept such a derivation is found; on the tokens of such a derivation, without
the last one, the interactive rules read its tree up to the span of the last statement and the
spans made of it.
-/

namespace LoxLang

namespace Grammar

/-- The last token is the semicolon of an expression statement, which is not the first clause of a
`for`. -/
inductive Passage.EndsInExpression : {category : Category} → Passage category → Prop where
  | expression (stmt : ExprStmt) : EndsInExpression (.expression stmt)
  | ifThen {guard : Guard .kwIf} {thenBranch : Passage .statement}
    (last : EndsInExpression thenBranch) : EndsInExpression (.ifThen guard thenBranch)
  | ifElse {guard : Guard .kwIf} {thenBranch elseBranch : Passage .statement}
    {separator : Word .kwElse} (last : EndsInExpression elseBranch) :
    EndsInExpression (.ifElse guard thenBranch separator elseBranch)
  | whileLoop {guard : Guard .kwWhile} {body : Passage .statement}
    (last : EndsInExpression body) : EndsInExpression (.whileLoop guard body)
  | forLoop {header : ForHeader} {body : Passage .statement} (last : EndsInExpression body) :
    EndsInExpression (.forLoop header body)
  | statement {stmt : Passage .statement} (last : EndsInExpression stmt) :
    EndsInExpression (.statement stmt)
  | only {decl : Passage .declaration} (last : EndsInExpression decl) :
    EndsInExpression (.more decl .empty)
  | more {decl : Passage .declaration} {rest : Passage .sequence}
    (last : EndsInExpression rest) : EndsInExpression (.more decl rest)

/-! ## What lacks a semicolon -/

/-- With a semicolon behind it the input is derivable within the levels that are left, and the
semicolon ends an expression statement. -/
def Unfinished (category : Category) (budget : Nat) (input : List Token) : Prop :=
  ∀ semicolon : Word .semicolon, ∃ passage : Passage category, passage.EndsInExpression ∧
    passage.Explains budget (input ++ [semicolon.val]) passage.tree []

/-- A passage that ends in one without its semicolon is itself without it. -/
theorem Unfinished.around {category other : Category} {budget levels : Nat}
    {input whole : List Token} (h : Unfinished category budget input)
    (outer : Passage category → Passage other) (before : List Token)
    (hwhole : whole = before ++ input)
    (htokens : ∀ passage, (outer passage).tokens = before ++ passage.tokens)
    (hends : ∀ {passage}, passage.EndsInExpression → (outer passage).EndsInExpression)
    (hnearest : ∀ {passage}, passage.Nearest → (outer passage).Nearest)
    (hpeak : ∀ passage, (∀ counter, passage.peak counter ≤ counter + budget) →
      ∀ counter, (outer passage).peak counter ≤ counter + levels) :
    Unfinished other levels whole := by
  intro semicolon
  obtain ⟨passage, hexpression, hfrontier, -, hinner, -, hwithin⟩ := h semicolon
  refine ⟨outer passage, hends hexpression, ?_, rfl, hnearest hinner, fun _ ↦ nofun,
    hpeak passage hwithin⟩
  rw [List.append_nil] at hfrontier ⊢
  rw [hwhole, List.append_assoc, hfrontier, htokens]

/-- Rules for a script, and others that accept more only if the input ends where a semicolon is
missing. -/
structure Parts.Relaxed (parts other : Parts) (budget : Nat) : Prop where
  within : parts.Within other
  sound : parts.Sound budget
  statement {input rest : List Token} {stmt : Stmt} : other.statement.Accepts input stmt rest →
    parts.statement.Accepts input stmt rest ∨ rest = [] ∧ Unfinished .statement budget input

theorem Parts.Sound.not_accepts_nil {parts : Parts} {budget : Nat} (h : parts.Sound budget)
    {expr : Expr} {rest : List Token} : ¬parts.expression.Accepts [] expr rest := by
  intro haccepts
  obtain ⟨phrase, hfrontier, -⟩ := h.expression haccepts
  obtain ⟨more, hmore⟩ := phrase.tokens_eq_cons
  rw [hmore] at hfrontier
  cases hfrontier

namespace Parts.Relaxed

variable {parts other : Parts} {budget : Nat} {input rest : List Token} {stmt : Stmt}
  (h : parts.Relaxed other budget)

include h

theorem expressionStatement (haccepts : other.expressionStatement.Accepts input stmt rest) :
    parts.expressionStatement.Accepts input stmt rest ∨
      rest = [] ∧ ∃ phrase : Phrase .expression, phrase.tokens = input ∧
        ∀ counter, phrase.peak counter ≤ counter + budget := by
  simp only [Parts.expressionStatement, Rule.accepts_bind, Rule.accepts_remaining,
    Rule.accepts_peek, ← h.within.expression, ← h.within.eof] at haccepts ⊢
  obtain ⟨_, _, ⟨rfl, rfl⟩, expr, middle, hexpr, _, _, ⟨rfl, rfl⟩, hclosed⟩ := haccepts
  split at hclosed
  · next hend =>
    obtain ⟨-, rfl⟩ := Rule.accepts_pure.mp hclosed
    obtain ⟨phrase, rfl, -, hwithin⟩ := h.sound.expression hexpr
    obtain rfl : middle = [] := by simpa [nextKind] using hend.2
    exact .inr ⟨rfl, phrase, (List.append_nil _).symm, hwithin⟩
  · refine .inl ⟨_, _, ⟨rfl, rfl⟩, expr, middle, hexpr, _, _, ⟨rfl, rfl⟩, ?_⟩
    rw [h.within.mode, if_neg (by simp)]
    exact hclosed

theorem branch {keyword : Token} (hkeyword : keyword.kind = .kwIf)
    (haccepts : (other.branch keyword.span).Accepts input stmt rest) :
    (parts.branch keyword.span).Accepts input stmt rest ∨
      rest = [] ∧ Unfinished .statement (budget + 1) (keyword :: input) := by
  simp only [Parts.branch, Rule.accepts_bind, Rule.accepts_expect, ← h.within.expression]
    at haccepts ⊢
  obtain ⟨opening, _, ⟨hopening, rfl⟩, condition, _, hcondition, closing, _, ⟨hclosing, rfl⟩,
    thenBranch, middle, hthen, found, after, hfound, hrest⟩ := haccepts
  obtain ⟨phrase, rfl, -, hphrase⟩ := h.sound.expression hcondition
  let guard : Guard .kwIf := ⟨⟨keyword, hkeyword⟩, ⟨opening, hopening⟩, phrase, ⟨closing, hclosing⟩⟩
  rcases h.statement hthen with hstrict | ⟨rfl, hunfinished⟩
  · cases found with
    | none =>
      exact .inl ⟨opening, _, ⟨hopening, rfl⟩, condition, _, hcondition, closing, _,
        ⟨hclosing, rfl⟩, thenBranch, middle, hstrict, none, after, hfound, hrest⟩
    | some separator =>
      obtain ⟨elseBranch, last, helse, hlast⟩ := Rule.accepts_bind.mp hrest
      rcases h.statement helse with hstrictElse | ⟨rfl, hunfinished⟩
      · exact .inl ⟨opening, _, ⟨hopening, rfl⟩, condition, _, hcondition, closing, _,
          ⟨hclosing, rfl⟩, thenBranch, middle, hstrict, some separator, after, hfound,
          Rule.accepts_bind.mpr ⟨elseBranch, last, hstrictElse, hlast⟩⟩
      · obtain ⟨-, rfl⟩ := Rule.accepts_pure.mp hlast
        obtain ⟨hseparator, rfl⟩ := Rule.accepts_accept_some.mp hfound
        obtain ⟨first, rfl, -, hnearest, hclosed, hfirst⟩ := h.sound.statement hstrict
        have hcomplete : first.dangling = false := by
          rw [Bool.eq_false_iff]
          intro hdangling
          exact hclosed hdangling (by simp [hseparator])
        refine .inr ⟨rfl, hunfinished.around (.ifElse guard first ⟨separator, hseparator⟩)
          (guard.tokens ++ (first.tokens ++ [separator])) ?_ (fun _ ↦ ?_) .ifElse
          (fun helse ↦ ⟨hcomplete, hnearest, helse⟩) fun second hsecond counter ↦ ?_⟩
        · simp [Guard.tokens, guard]
        · simp [Passage.tokens]
        · have hguard := hphrase (counter + 1)
          have hthenBranch := hfirst (counter + 1)
          have helseBranch := hsecond (counter + 1)
          simp only [Passage.peak, guard]
          omega
  · cases found with
    | some separator => simp at hfound
    | none =>
      obtain ⟨-, rfl⟩ := Rule.accepts_accept_none.mp hfound
      obtain ⟨-, rfl⟩ := Rule.accepts_pure.mp hrest
      refine .inr ⟨rfl, hunfinished.around (.ifThen guard) guard.tokens ?_ (fun _ ↦ rfl) .ifThen id
        fun first hfirst counter ↦ ?_⟩
      · simp [Guard.tokens, guard]
      · have hguard := hphrase (counter + 1)
        have hbranch := hfirst (counter + 1)
        simp only [Passage.peak, guard]
        omega

theorem loop {keyword : Token} (hkeyword : keyword.kind = .kwWhile)
    (haccepts : (other.loop keyword.span).Accepts input stmt rest) :
    (parts.loop keyword.span).Accepts input stmt rest ∨
      rest = [] ∧ Unfinished .statement (budget + 1) (keyword :: input) := by
  simp only [Parts.loop, Rule.accepts_bind, Rule.accepts_expect, ← h.within.expression]
    at haccepts ⊢
  obtain ⟨opening, _, ⟨hopening, rfl⟩, condition, _, hcondition, closing, _, ⟨hclosing, rfl⟩, body,
    last, hbody, hlast⟩ := haccepts
  rcases h.statement hbody with hstrict | ⟨rfl, hunfinished⟩
  · exact .inl ⟨opening, _, ⟨hopening, rfl⟩, condition, _, hcondition, closing, _, ⟨hclosing, rfl⟩,
      body, last, hstrict, hlast⟩
  · obtain ⟨-, rfl⟩ := Rule.accepts_pure.mp hlast
    obtain ⟨phrase, rfl, -, hphrase⟩ := h.sound.expression hcondition
    let guard : Guard .kwWhile :=
      ⟨⟨keyword, hkeyword⟩, ⟨opening, hopening⟩, phrase, ⟨closing, hclosing⟩⟩
    refine .inr ⟨rfl, hunfinished.around (.whileLoop guard) guard.tokens ?_ (fun _ ↦ rfl)
      .whileLoop id fun passage hpassage counter ↦ ?_⟩
    · simp [Guard.tokens, guard]
    · have hguard := hphrase (counter + 1)
      have hrepeated := hpassage (counter + 1)
      simp only [Passage.peak, guard]
      omega

/-- The first clause of a `for` may lack its semicolon if the input ends behind it. -/
theorem forInitial {initial : Option Stmt}
    (haccepts : other.forInitial.Accepts input initial rest) :
    parts.forInitial.Accepts input initial rest ∨ rest = [] := by
  simp only [Parts.forInitial, Rule.accepts_bind] at haccepts ⊢
  obtain ⟨closing, middle, hclosing, hinitial⟩ := haccepts
  cases closing with
  | some closing => exact .inl ⟨some closing, middle, hclosing, hinitial⟩
  | none =>
    obtain ⟨keyword, after, hkeyword, hclause⟩ := Rule.accepts_bind.mp hinitial
    cases keyword with
    | some keyword =>
      dsimp only at hclause
      rw [← h.within.declaration] at hclause
      exact .inl ⟨none, middle, hclosing,
        Rule.accepts_bind.mpr ⟨some keyword, after, hkeyword, hclause⟩⟩
    | none =>
      obtain ⟨stmt, hstmt, rfl⟩ := Rule.accepts_map.mp hclause
      rcases h.expressionStatement hstmt with hstrict | ⟨rfl, -⟩
      · exact .inl ⟨none, middle, hclosing, Rule.accepts_bind.mpr ⟨none, after, hkeyword,
          Rule.accepts_map.mpr ⟨stmt, hstrict, rfl⟩⟩⟩
      · exact .inr rfl

/-- The other clauses are still to come, so that nothing is gained. -/
theorem forClauses {clauses : ForClauses} (haccepts : other.forClauses.Accepts input clauses rest) :
    parts.forClauses.Accepts input clauses rest := by
  rw [Parts.forClauses, ← h.within.expressionUnless, ← h.within.expressionUnless] at haccepts
  obtain ⟨opening, first, hopening, hinitial⟩ := Rule.accepts_bind.mp haccepts
  obtain ⟨initial, middle, hclause, hothers⟩ := Rule.accepts_bind.mp hinitial
  rcases h.forInitial hclause with hstrict | rfl
  · exact Rule.accepts_bind.mpr ⟨opening, first, hopening,
      Rule.accepts_bind.mpr ⟨initial, middle, hstrict, hothers⟩⟩
  · obtain ⟨condition, after, hcondition, -⟩ := Rule.accepts_bind.mp hothers
    simp only [Parts.expressionUnless, Rule.accepts_bind, Rule.accepts_peek] at hcondition
    obtain ⟨_, _, ⟨rfl, rfl⟩, hexpr⟩ := hcondition
    rw [if_neg (by simp)] at hexpr
    obtain ⟨expr, hexpr, -⟩ := Rule.accepts_map.mp hexpr
    exact absurd hexpr h.sound.not_accepts_nil

theorem forLoop {keyword : Token} (hkeyword : keyword.kind = .kwFor)
    (haccepts : (other.forLoop keyword.span).Accepts input stmt rest) :
    (parts.forLoop keyword.span).Accepts input stmt rest ∨
      rest = [] ∧ Unfinished .statement (budget + 1) (keyword :: input) := by
  obtain ⟨clauses, middle, hclauses, hbody⟩ := Rule.accepts_bind.mp haccepts
  obtain ⟨body, last, hbody, hlast⟩ := Rule.accepts_bind.mp hbody
  have hstrictClauses := h.forClauses hclauses
  rcases h.statement hbody with hstrict | ⟨rfl, hunfinished⟩
  · exact .inl (Rule.accepts_bind.mpr ⟨clauses, middle, hstrictClauses,
      Rule.accepts_bind.mpr ⟨body, last, hstrict, hlast⟩⟩)
  · obtain ⟨-, rfl⟩ := Rule.accepts_pure.mp hlast
    obtain ⟨header, hheader, -, -, hpeak⟩ := forClauses_sound h.sound hkeyword hstrictClauses
    refine .inr ⟨rfl, hunfinished.around (.forLoop header) header.tokens hheader (fun _ ↦ rfl)
      .forLoop id fun passage hpassage counter ↦ ?_⟩
    have hheaderPeak := hpeak (counter + 1)
    have hbodyPeak := hpassage (counter + 1)
    simp only [Passage.peak]
    omega

theorem declarationOrStatement
    (haccepts : other.declarationOrStatement.Accepts input stmt rest) :
    parts.declarationOrStatement.Accepts input stmt rest ∨
      rest = [] ∧ Unfinished .declaration budget input := by
  obtain ⟨keyword, middle, hkeyword, hstmt⟩ := Rule.accepts_bind.mp haccepts
  cases keyword with
  | some keyword =>
    dsimp only at hstmt
    rw [← h.within.declaration] at hstmt
    exact .inl (Rule.accepts_bind.mpr ⟨some keyword, middle, hkeyword, hstmt⟩)
  | none =>
    obtain ⟨-, rfl⟩ := Rule.accepts_accept_none.mp hkeyword
    rcases h.statement hstmt with hstrict | ⟨rfl, hunfinished⟩
    · exact .inl (Rule.accepts_bind.mpr ⟨none, _, hkeyword, hstrict⟩)
    · exact .inr ⟨rfl, hunfinished.around .statement [] rfl (fun _ ↦ rfl) .statement id
        fun _ ↦ id⟩

theorem item {found : Option Stmt} (haccepts : other.item.Accepts input found rest) :
    parts.item.Accepts input found rest ∨ rest = [] ∧ Unfinished .declaration budget input := by
  obtain ⟨stmt, hfound, hstmt⟩ := accepts_recovering.mp haccepts
  rcases h.declarationOrStatement hstmt with hstrict | hunfinished
  · exact .inl (accepts_recovering.mpr ⟨stmt, hfound, hstrict⟩)
  · exact .inr hunfinished

theorem items (bound : Nat) {stmts : List Stmt}
    (haccepts : (other.items bound).Accepts input stmts rest) :
    (parts.items bound).Accepts input stmts rest ∨ rest = [] := by
  induction bound generalizing input stmts with
  | zero => exact .inl haccepts
  | succ bound ih =>
    obtain ⟨hnext, rfl, rfl⟩ | ⟨kind, hnext, hbrace, first, middle, others, hfirst, hothers, rfl⟩ :=
      accepts_items_succ.mp haccepts
    · exact .inl (accepts_items_succ.mpr (.inl ⟨hnext, rfl, rfl⟩))
    · rcases ih hothers with hstrictOthers | hend
      · rcases h.item hfirst with hstrict | ⟨rfl, -⟩
        · exact .inl (accepts_items_succ.mpr
            (.inr ⟨kind, hnext, hbrace, first, middle, others, hstrict, hstrictOthers, rfl⟩))
        · obtain ⟨passage, hfrontier, -⟩ := items_sound h.sound bound hstrictOthers
          exact .inr (List.append_eq_nil_iff.mp hfrontier.symm).2
      · exact .inr hend

/-- The closing brace is still to come. -/
theorem block {opening : Span} (haccepts : (other.block opening).Accepts input stmt rest) :
    (parts.block opening).Accepts input stmt rest := by
  obtain ⟨_, _, hremaining, hblock⟩ := Rule.accepts_bind.mp haccepts
  obtain ⟨body, middle, hbody, hclosed⟩ := Rule.accepts_bind.mp hblock
  rcases h.items _ hbody with hstrict | rfl
  · exact Rule.accepts_bind.mpr ⟨_, _, hremaining,
      Rule.accepts_bind.mpr ⟨body, middle, hstrict, hclosed⟩⟩
  · obtain ⟨closing, last, hclosing, -⟩ := Rule.accepts_bind.mp hclosed
    simp at hclosing

theorem body (haccepts : other.body.Accepts input stmt rest) :
    parts.body.Accepts input stmt rest ∨
      rest = [] ∧ Unfinished .statement (budget + 1) input := by
  have hexpression (haccepts : other.expressionStatement.Accepts input stmt rest) :
      parts.expressionStatement.Accepts input stmt rest ∨
        rest = [] ∧ Unfinished .statement (budget + 1) input := by
    rcases h.expressionStatement haccepts with hstrict | ⟨rfl, phrase, rfl, hphrase⟩
    · exact .inl hstrict
    · refine .inr ⟨rfl, fun semicolon ↦ ?_⟩
      refine ⟨.expression ⟨phrase, semicolon⟩, .expression _, ?_, rfl, trivial, by simp,
        fun counter ↦ ?_⟩
      · simp [Passage.tokens, ExprStmt.tokens]
      · have hpeak := hphrase (counter + 1)
        simp only [Passage.peak]
        omega
  cases input with
  | nil => exact hexpression haccepts
  | cons token input =>
    simp only [Rule.Accepts, Parts.body] at haccepts ⊢
    split at haccepts
    · rw [← h.within.print] at haccepts
      exact .inl haccepts
    · exact .inl (h.block haccepts)
    · next hkind => exact h.branch hkind haccepts
    · next hkind => exact h.loop hkind haccepts
    · next hkind => exact h.forLoop hkind haccepts
    · exact hexpression haccepts

end Parts.Relaxed

theorem parts_relaxed (mode : Mode) (eof : Span) (budget : Nat) :
    (parts .script eof budget).Relaxed (parts mode eof budget) budget := by
  induction budget with
  | zero => exact ⟨parts_within mode eof 0, parts_sound eof 0, .inl⟩
  | succ budget ih =>
    exact ⟨parts_within mode eof (budget + 1), parts_sound eof (budget + 1), ih.body⟩

/-! ## Reading without the semicolon -/

theorem nextKind_dropLast_ne {tokens : List Token} {kind : Token.Kind}
    (h : nextKind tokens ≠ some kind) : nextKind tokens.dropLast ≠ some kind := by
  match tokens with
  | [] => exact h
  | [_] => simp
  | _ :: _ :: _ => exact h

theorem Guard.accepts {kind : Token.Kind} (guard : Guard kind) {mode : Mode} {eof : Span}
    {budget : Nat} (counter : Nat) (hfits : guard.condition.peak counter ≤ counter + budget)
    {issue issue' : Issue} {next : Expr → Rule Stmt} {input rest : List Token} {value : Stmt}
    (h : (next guard.condition.tree).Accepts input value rest) :
    (do
      let _ ← Rule.expect .leftParen issue
      let condition ← (parts mode eof budget).expression
      let _ ← Rule.expect .rightParen issue'
      next condition : Rule Stmt).Accepts (guard.tokens.tail ++ input) value rest := by
  rw [parts_expression, ← parts_expression .script eof]
  exact (guard.meets eof budget counter rest h.meets).accepts ⟨hfits, trivial⟩

theorem ForClauses.alike_refl (clauses : ForClauses) : clauses.Alike (fun _ _ ↦ True) clauses := by
  obtain ⟨initial, condition, separator, increment⟩ := clauses
  have hexpr : ∀ expr : Option Expr, Option.Rel (Expr.Alike fun _ _ ↦ True) expr expr
    | none => .none
    | some expr => .some (expr.alike_refl fun _ ↦ trivial)
  have hstmt : ∀ stmt : Option Stmt, Option.Rel (Stmt.Alike fun _ _ ↦ True) stmt stmt
    | none => .none
    | some stmt => .some (stmt.alike_refl fun _ ↦ trivial)
  exact ⟨hstmt initial, hexpr condition, trivial, hexpr increment⟩

namespace Passage

/-- What the interactive rules make of the frontier without its last token. -/
def CompleteOpen : {category : Category} → Passage category → Prop
  | .statement, passage => ∀ eof budget counter, passage.Nearest →
    passage.peak counter ≤ counter + budget → ∃ stmt,
      (parts .interactive eof budget).statement.Accepts passage.tokens.dropLast stmt [] ∧
        Stmt.Alike (fun _ _ ↦ True) passage.tree stmt
  | .declaration, passage => ∀ eof budget counter, passage.Nearest →
    passage.peak counter ≤ counter + budget → ∃ stmt,
      (parts .interactive eof budget).declarationOrStatement.Accepts passage.tokens.dropLast stmt
        [] ∧ Stmt.Alike (fun _ _ ↦ True) passage.tree stmt
  | .sequence, passage => ∀ eof budget counter bound, passage.Nearest →
    passage.peak counter ≤ counter + budget → passage.tokens.dropLast.length ≤ bound → ∃ stmts,
      Program.collect eof (parts .interactive eof budget).item bound passage.tokens.dropLast =
        ⟨stmts, []⟩ ∧ Stmt.AllAlike (fun _ _ ↦ True) passage.tree stmts

theorem exists_less (passage : Passage .statement) {counter budget : Nat}
    (h : passage.peak counter ≤ counter + budget) : ∃ less, budget = less + 1 := by
  have hpeak := passage.lt_peak counter
  exact ⟨budget - 1, by omega⟩

namespace EndsInExpression

theorem one_lt_length {category : Category} {passage : Passage category}
    (h : passage.EndsInExpression) : 1 < passage.tokens.length := by
  induction h with
  | expression stmt =>
    obtain ⟨more, hmore⟩ := stmt.expr.tokens_eq_cons
    simp [tokens, ExprStmt.tokens, hmore]
  | statement _ ih => exact ih
  | ifThen _ ih =>
    rw [tokens, List.length_append]
    omega
  | ifElse _ ih =>
    simp only [tokens, List.length_append, List.length_cons]
    omega
  | whileLoop _ ih =>
    rw [tokens, List.length_append]
    omega
  | forLoop _ ih =>
    rw [tokens, List.length_append]
    omega
  | only _ ih =>
    rw [tokens, List.length_append]
    omega
  | more _ ih =>
    rw [tokens, List.length_append]
    omega

theorem dropLast_ne_nil {category : Category} {passage : Passage category}
    (h : passage.EndsInExpression) : passage.tokens.dropLast ≠ [] := by
  intro hnil
  have hlength := h.one_lt_length
  have hzero := congrArg List.length hnil
  rw [List.length_dropLast, List.length_nil] at hzero
  omega

theorem dropLast_append {category : Category} {passage : Passage category}
    (h : passage.EndsInExpression) (before : List Token) :
    (before ++ passage.tokens).dropLast = before ++ passage.tokens.dropLast := by
  apply List.dropLast_append_of_ne_nil
  rintro hnil
  have hlength := h.one_lt_length
  simp [hnil] at hlength

end EndsInExpression

theorem expression_completeOpen (stmt : ExprStmt) : (Passage.expression stmt).CompleteOpen := by
  intro eof budget counter _ hfits
  obtain ⟨less, rfl⟩ := exists_less _ hfits
  have hends : EndsExpression [] := ⟨fun _ _ _ ↦ nofun, nofun⟩
  have hexpr := (stmt.expr.complete less (counter + 1) [] hends).accepts (by
    simp only [peak] at hfits
    omega)
  obtain ⟨more, hmore⟩ := stmt.expr.tokens_eq_cons
  have htokens : (Passage.expression stmt).tokens.dropLast = stmt.expr.tokens := by
    rw [tokens, ExprStmt.tokens, List.dropLast_concat]
  rw [List.append_nil] at hexpr
  refine ⟨.expression stmt.expr.tree
    ((firstSpan eof stmt.expr.tokens).cover (lastSpan eof stmt.expr.tokens)), ?_,
    .expression (Expr.alike_refl (fun _ ↦ trivial) _) trivial⟩
  rw [htokens]
  have hread : (parts .interactive eof less).expressionStatement.Accepts stmt.expr.tokens
      (.expression stmt.expr.tree
        ((firstSpan eof stmt.expr.tokens).cover (lastSpan eof stmt.expr.tokens))) [] := by
    simp only [Parts.expressionStatement, Rule.accepts_bind, Rule.accepts_remaining,
      Rule.accepts_peek, parts_expression, parts_mode, parts_eof]
    refine ⟨_, _, ⟨rfl, rfl⟩, _, _, hexpr, _, _, ⟨rfl, rfl⟩, ?_⟩
    rw [if_pos ⟨trivial, rfl⟩]
    exact Rule.accepts_pure.mpr ⟨rfl, rfl⟩
  rw [hmore] at hread ⊢
  exact (body_eq_expressionStatement _ _ (head_mem_expressionStarts stmt.expr)).trans hread

theorem ifThen_completeOpen {guard : Guard .kwIf} {thenBranch : Passage .statement}
    (hends : thenBranch.EndsInExpression) (h : thenBranch.CompleteOpen) :
    (Passage.ifThen guard thenBranch).CompleteOpen := by
  intro eof budget counter hnearest hfits
  obtain ⟨less, rfl⟩ := exists_less _ hfits
  simp only [peak, Nat.max_le] at hfits
  obtain ⟨stmt, haccepts, halike⟩ := h eof less (counter + 1) hnearest (by omega)
  have hbranch : ((parts .interactive eof less).branch guard.keyword.val.span).Accepts
      (guard.tokens.tail ++ thenBranch.tokens.dropLast)
      (.branch guard.condition.tree stmt none (guard.keyword.val.span.cover stmt.span)) [] := by
    refine guard.accepts (counter + 1) (by omega) (Rule.accepts_bind.mpr ⟨stmt, [], haccepts, ?_⟩)
    exact Rule.accepts_bind.mpr ⟨none, [], Rule.accepts_accept_none.mpr ⟨by simp, rfl⟩,
      Rule.accepts_pure.mpr ⟨rfl, rfl⟩⟩
  refine ⟨_, Eq.trans ?_ hbranch, .ifThen (Expr.alike_refl (fun _ ↦ trivial) _) halike trivial⟩
  rw [tokens, hends.dropLast_append]
  simp [parts, Guard.tokens, Parts.body, guard.keyword.property]

theorem ifElse_completeOpen {guard : Guard .kwIf} {thenBranch elseBranch : Passage .statement}
    {separator : Word .kwElse} (hends : elseBranch.EndsInExpression) (h : elseBranch.CompleteOpen) :
    (Passage.ifElse guard thenBranch separator elseBranch).CompleteOpen := by
  intro eof budget counter ⟨hcomplete, hthen, helse⟩ hfits
  obtain ⟨less, rfl⟩ := exists_less _ hfits
  simp only [peak, Nat.max_le] at hfits
  obtain ⟨stmt, haccepts, halike⟩ := h eof less (counter + 1) helse (by omega)
  have hfirst := (thenBranch.complete eof less (counter + 1)
    (separator.val :: elseBranch.tokens.dropLast) hthen (by simp [hcomplete])).accepts (by omega)
  have hbranch : ((parts .interactive eof less).branch guard.keyword.val.span).Accepts
      (guard.tokens.tail ++ (thenBranch.tokens ++ separator.val :: elseBranch.tokens.dropLast))
      (.branch guard.condition.tree thenBranch.tree (some stmt)
        (guard.keyword.val.span.cover stmt.span)) [] := by
    refine guard.accepts (counter + 1) (by omega) (Rule.accepts_bind.mpr ⟨thenBranch.tree, _,
      (parts_within .interactive eof less).statement _ _ _ hfirst, ?_⟩)
    exact Rule.accepts_bind.mpr ⟨some separator.val, _,
      Rule.accepts_accept_some.mpr ⟨separator.property, rfl⟩,
      Rule.accepts_bind.mpr ⟨stmt, [], haccepts, Rule.accepts_pure.mpr ⟨rfl, rfl⟩⟩⟩
  refine ⟨_, Eq.trans ?_ hbranch, .ifElse (Expr.alike_refl (fun _ ↦ trivial) _)
    (Stmt.alike_refl (fun _ ↦ trivial) _) halike trivial⟩
  have htokens : (Passage.ifElse guard thenBranch separator elseBranch).tokens =
      guard.tokens ++ (thenBranch.tokens ++ [separator.val]) ++ elseBranch.tokens := by
    simp [tokens]
  rw [htokens, hends.dropLast_append]
  simp [parts, Guard.tokens, Parts.body, guard.keyword.property]

theorem whileLoop_completeOpen {guard : Guard .kwWhile} {body : Passage .statement}
    (hends : body.EndsInExpression) (h : body.CompleteOpen) :
    (Passage.whileLoop guard body).CompleteOpen := by
  intro eof budget counter hnearest hfits
  obtain ⟨less, rfl⟩ := exists_less _ hfits
  simp only [peak, Nat.max_le] at hfits
  obtain ⟨stmt, haccepts, halike⟩ := h eof less (counter + 1) hnearest (by omega)
  have hloop : ((parts .interactive eof less).loop guard.keyword.val.span).Accepts
      (guard.tokens.tail ++ body.tokens.dropLast)
      (.loop guard.condition.tree stmt (guard.keyword.val.span.cover stmt.span)) [] :=
    guard.accepts (counter + 1) (by omega)
      (Rule.accepts_bind.mpr ⟨stmt, [], haccepts, Rule.accepts_pure.mpr ⟨rfl, rfl⟩⟩)
  refine ⟨_, Eq.trans ?_ hloop, .loop (Expr.alike_refl (fun _ ↦ trivial) _) halike trivial⟩
  rw [tokens, hends.dropLast_append]
  simp [parts, Guard.tokens, Parts.body, guard.keyword.property]

theorem forLoop_completeOpen {header : ForHeader} {body : Passage .statement}
    (hends : body.EndsInExpression) (h : body.CompleteOpen) :
    (Passage.forLoop header body).CompleteOpen := by
  intro eof budget counter hnearest hfits
  obtain ⟨less, rfl⟩ := exists_less _ hfits
  simp only [peak, Nat.max_le] at hfits
  obtain ⟨stmt, haccepts, halike⟩ := h eof less (counter + 1) hnearest (by omega)
  have hclauses := (header.meets eof less (counter + 1) body.tokens.dropLast).accepts (by omega)
  have hloop : ((parts .interactive eof less).forLoop header.keyword.val.span).Accepts
      (header.tokens.tail ++ body.tokens.dropLast)
      (ForClauses.toLoop ⟨header.initial.tree?, header.condition.map Phrase.tree,
        header.separator.val.span, header.increment.map Phrase.tree⟩ stmt
        (header.keyword.val.span.cover stmt.span)) [] :=
    Rule.accepts_bind.mpr ⟨_, _, (parts_within .interactive eof less).forClauses _ _ _ hclauses,
      Rule.accepts_bind.mpr ⟨stmt, [], haccepts, Rule.accepts_pure.mpr ⟨rfl, rfl⟩⟩⟩
  refine ⟨_, Eq.trans ?_ hloop, ?_⟩
  · rw [tokens, hends.dropLast_append]
    simp [parts, ForHeader.tokens, Parts.body, header.keyword.property]
  · rw [tree, ← header.toLoop_eq_tree]
    exact (ForClauses.alike_refl _).toLoop halike trivial

theorem statement_completeOpen {stmt : Passage .statement} (h : stmt.CompleteOpen) :
    (Passage.statement stmt).CompleteOpen := by
  intro eof budget counter hnearest hfits
  obtain ⟨value, haccepts, halike⟩ := h eof budget counter hnearest hfits
  obtain ⟨token, more, htokens, -, -, hvar⟩ := stmt.exists_start (by decide)
  have hkeyword : nextKind stmt.tokens.dropLast ≠ some .kwVar := by
    apply nextKind_dropLast_ne
    simpa [htokens] using hvar rfl
  exact ⟨value, Rule.accepts_bind.mpr ⟨none, _, Rule.accepts_accept_none.mpr ⟨hkeyword, rfl⟩,
    haccepts⟩, halike⟩

end Passage

end Grammar

namespace Program

open Grammar

theorem collect_nil (eof : Span) (item : Rule (Option Stmt)) (bound : Nat) :
    collect eof item bound [] = ⟨[], []⟩ := by
  cases bound <;> rfl

/-- An accepted item comes before what is read behind it. -/
theorem collect_of_accepts {eof : Span} {item : Rule (Option Stmt)} {bound : Nat}
    {tokens left : List Token} {stmt : Stmt} (h : item.Accepts tokens (some stmt) left)
    (hne : tokens ≠ []) :
    collect eof item (bound + 1) tokens =
      ⟨stmt :: (collect eof item bound left).statements, (collect eof item bound left).faults⟩ := by
  obtain ⟨token, rest, rfl⟩ := List.exists_cons_of_ne_nil hne
  rw [collect, show item (token :: rest) = _ from h]
  rfl

end Program

namespace Grammar.Passage

theorem only_completeOpen {decl : Passage .declaration} (hends : decl.EndsInExpression)
    (h : decl.CompleteOpen) : (Passage.more decl .empty).CompleteOpen := by
  intro eof budget counter bound hnearest hfits hbound
  have htokens : (decl.more .empty).tokens = decl.tokens := List.append_nil _
  simp only [peak, Nat.max_le] at hfits
  obtain ⟨stmt, haccepts, halike⟩ := h eof budget counter hnearest.1 hfits.1
  rw [htokens] at hbound ⊢
  obtain ⟨less, rfl⟩ : ∃ less, bound = less + 1 := by
    have hpos := List.length_pos_of_ne_nil hends.dropLast_ne_nil
    exact ⟨bound - 1, by omega⟩
  have hitem : (parts .interactive eof budget).item.Accepts decl.tokens.dropLast (some stmt) [] :=
    accepts_recovering.mpr ⟨stmt, rfl, haccepts⟩
  refine ⟨[stmt], ?_, .cons halike .nil⟩
  rw [Program.collect_of_accepts hitem hends.dropLast_ne_nil, Program.collect_nil]

theorem more_completeOpen {decl : Passage .declaration} {rest : Passage .sequence}
    (hends : rest.EndsInExpression) (h : rest.CompleteOpen) : (decl.more rest).CompleteOpen := by
  intro eof budget counter bound hnearest hfits hbound
  obtain ⟨token, others, hstart, -⟩ := decl.exists_start (by decide)
  have htokens : (decl.more rest).tokens.dropLast = decl.tokens ++ rest.tokens.dropLast :=
    hends.dropLast_append decl.tokens
  simp only [peak, Nat.max_le] at hfits
  rw [htokens] at hbound ⊢
  obtain ⟨less, rfl⟩ : ∃ less, bound = less + 1 := by
    simp only [hstart, List.length_append, List.length_cons] at hbound
    exact ⟨bound - 1, by omega⟩
  have hfollow : nextKind rest.tokens.dropLast ≠ some .kwElse := by
    apply nextKind_dropLast_ne
    simpa using rest.nextKind_ne_else [] (.inl rfl)
  have hitem := (parts_within .interactive eof budget).item _ _ _
    ((decl.complete.meets_item eof budget counter hnearest.1 hfollow).accepts hfits.1)
  obtain ⟨stmts, hcollect, halike⟩ := h eof budget counter less hnearest.2 hfits.2 (by
    simp only [hstart, List.length_append, List.length_cons] at hbound
    omega)
  refine ⟨decl.tree :: stmts, ?_, .cons (Stmt.alike_refl (fun _ ↦ trivial) _) halike⟩
  rw [Program.collect_of_accepts hitem (by simp [hstart]), hcollect]

theorem EndsInExpression.completeOpen {category : Category} {passage : Passage category}
    (h : passage.EndsInExpression) : passage.CompleteOpen := by
  induction h with
  | expression stmt => exact expression_completeOpen stmt
  | ifThen last ih => exact ifThen_completeOpen last ih
  | ifElse last ih => exact ifElse_completeOpen last ih
  | whileLoop last ih => exact whileLoop_completeOpen last ih
  | forLoop last ih => exact forLoop_completeOpen last ih
  | statement last ih => exact statement_completeOpen ih
  | only last ih => exact only_completeOpen last ih
  | more last ih => exact more_completeOpen last ih

end Grammar.Passage

/-! ## Programs -/

namespace Program

open Grammar

theorem accepts_of_collect {eof : Span} {item : Rule (Option Stmt)} {bound : Nat} {token : Token}
    {rest : List Token} (h : (collect eof item (bound + 1) (token :: rest)).faults = []) :
    ∃ found left, item.Accepts (token :: rest) found left ∧
      (collect eof item bound left).faults = [] := by
  rw [collect] at h
  split at h
  · next faults found left hreading =>
    obtain ⟨rfl, hothers⟩ := List.append_eq_nil_iff.mp h
    exact ⟨found, left, hreading, hothers⟩
  · simp at h
  · simp at h

/-- The rules that accept more read the same program, unless the semicolon of the last declaration
is missing. -/
theorem collect_relaxed {eof : Span} {parts other : Parts} {budget bound : Nat}
    {tokens : List Token} (h : parts.Relaxed other budget)
    (hclean : (collect eof other.item bound tokens).faults = []) :
    collect eof parts.item bound tokens = collect eof other.item bound tokens ∨
      Unfinished .sequence budget tokens := by
  induction bound generalizing tokens with
  | zero => exact .inl rfl
  | succ bound ih =>
    cases tokens with
    | nil => exact .inl rfl
    | cons token rest =>
      obtain ⟨found, left, hitem, hothers⟩ := accepts_of_collect hclean
      rcases h.item hitem with hstrict | ⟨rfl, hunfinished⟩
      · obtain ⟨stmt, rfl, decl, hfrontier, -, hnearest, -, hdecl⟩ :=
          Parts.item_sound h.sound hstrict
        rcases ih hothers with hsame | hunfinished
        · left
          rw [collect_of_accepts hstrict (List.cons_ne_nil _ _),
            collect_of_accepts hitem (List.cons_ne_nil _ _), hsame]
        · exact .inr (hunfinished.around (.more decl) decl.tokens hfrontier (fun _ ↦ rfl) .more
            (fun hothers ↦ ⟨hnearest, hothers⟩)
            fun _ hpeak counter ↦ Nat.max_le.mpr ⟨hdecl counter, hpeak counter⟩)
      · exact .inr (hunfinished.around (.more · .empty) [] rfl (fun _ ↦ List.append_nil _) .only
          (fun hdecl ↦ ⟨hdecl, trivial⟩)
          fun _ hpeak counter ↦ Nat.max_le.mpr ⟨hpeak counter, Nat.le_add_right _ _⟩)

/-- The tokens are derivable, with each `else` at the nearest `if`, and the last of them is the
semicolon of an expression statement that is not the first clause of a `for`. -/
def EndsInExpression (tokens : List Token) : Prop :=
  ∃ derivation : Passage .sequence, derivation.tokens = tokens ∧ derivation.Nearest ∧
    derivation.EndsInExpression

/-- Within the limit the tree of the derivation is read, and without the last semicolon the same
up to spans. -/
theorem parse_open {derivation : Passage .sequence} {tokens : List Token} {semicolon mark : Token}
    (hfrontier : derivation.tokens = tokens ++ [semicolon]) (hnearest : derivation.Nearest)
    (hends : derivation.EndsInExpression) (hmark : mark.kind = .eof)
    (htokens : ∀ token ∈ tokens, token.kind ≠ .eof) (hpeak : derivation.peak 0 ≤ nestingLimit) :
    (parse .interactive (tokens ++ [mark])).faults = [] ∧
      Stmt.AllAlike (fun _ _ ↦ True) derivation.tree
        (parse .interactive (tokens ++ [mark])).statements := by
  have hopen : derivation.tokens.dropLast = tokens := by
    rw [hfrontier, List.dropLast_concat]
  rw [← Nat.zero_add nestingLimit] at hpeak
  obtain ⟨stmts, hcollect, halike⟩ := hends.completeOpen mark.span nestingLimit 0
    derivation.tokens.dropLast.length hnearest hpeak (Nat.le_refl _)
  rw [hopen] at hcollect
  simp only [parse, TokenInput.ofList_append_endMark htokens hmark, hcollect]
  exact ⟨trivial, halike⟩

theorem parse_relaxed {tokens : List Token} {mark : Token}
    (htokens : ∀ token ∈ tokens, token.kind ≠ .eof) (hmark : mark.kind = .eof)
    (h : (parse .interactive (tokens ++ [mark])).faults = []) :
    parse .script (tokens ++ [mark]) = parse .interactive (tokens ++ [mark]) ∨
      Unfinished .sequence nestingLimit tokens := by
  simp only [parse, TokenInput.ofList_append_endMark htokens hmark] at h ⊢
  exact collect_relaxed (parts_relaxed .interactive mark.span nestingLimit) h

/-- Interactive input may lack one semicolon at its end, and in nothing else does it differ from a
script: what is read without a fault as a script is read as the same program; what is read without
a fault as interactive input is the same program as a script, or it is so up to spans with a
semicolon added; and wherever the semicolon at the end of a script ends an expression statement, it
can be left out. -/
theorem interactive_omits_semicolon (tokens : List Token) (mark semicolon : Token)
    (htokens : ∀ token ∈ tokens, token.kind ≠ .eof) (hmark : mark.kind = .eof)
    (hsemicolon : semicolon.kind = .semicolon) :
    let script := parse .script (tokens ++ [mark])
    let interactive := parse .interactive (tokens ++ [mark])
    let completed := parse .script (tokens ++ [semicolon] ++ [mark])
    (script.faults = [] → interactive = script) ∧
    (interactive.faults = [] → script = interactive ∨
      EndsInExpression (tokens ++ [semicolon]) ∧ completed.faults = [] ∧
        Stmt.AllAlike (fun _ _ ↦ True) completed.statements interactive.statements) ∧
    (completed.faults = [] → EndsInExpression (tokens ++ [semicolon]) →
      interactive.faults = [] ∧
        Stmt.AllAlike (fun _ _ ↦ True) completed.statements interactive.statements) := by
  intro script interactive completed
  have hclosed : ∀ token ∈ tokens ++ [semicolon], token.kind ≠ .eof := by
    refine List.forall_mem_append.mpr ⟨htokens, List.forall_mem_singleton.mpr ?_⟩
    rw [hsemicolon]
    decide
  -- Both directions come from a derivation of the text with the semicolon.
  have hderivation (derivation : Passage .sequence)
      (hfrontier : derivation.tokens = tokens ++ [semicolon]) (hnearest : derivation.Nearest)
      (hends : derivation.EndsInExpression) (hpeak : derivation.peak 0 ≤ nestingLimit) :
      completed.faults = [] ∧ interactive.faults = [] ∧
        Stmt.AllAlike (fun _ _ ↦ True) completed.statements interactive.statements := by
    obtain ⟨hclean, halike⟩ := parse_open hfrontier hnearest hends hmark htokens hpeak
    have hcompleted : completed = ⟨derivation.tree, []⟩ := by
      have hparse := parse_eq_tree hnearest (hfrontier ▸ hclosed) hmark hpeak
      rw [hfrontier] at hparse
      exact hparse
    rw [hcompleted]
    exact ⟨rfl, hclean, halike⟩
  refine ⟨fun hclean ↦ parse_of_script hclean .interactive, fun hclean ↦ ?_, ?_⟩
  · rcases parse_relaxed htokens hmark hclean with hsame | hunfinished
    · exact .inl hsame
    · obtain ⟨derivation, hends, hfrontier, -, hnearest, -, hpeak⟩ :=
        hunfinished ⟨semicolon, hsemicolon⟩
      rw [List.append_nil] at hfrontier
      have hlimit := hpeak 0
      rw [Nat.zero_add] at hlimit
      obtain ⟨hcompleted, -, halike⟩ :=
        hderivation derivation hfrontier.symm hnearest hends hlimit
      exact .inr ⟨⟨derivation, hfrontier.symm, hnearest, hends⟩, hcompleted, halike⟩
  · rintro hclean ⟨derivation, hfrontier, hnearest, hends⟩
    refine (hderivation derivation hfrontier hnearest hends ?_).2
    by_contra hexceeds
    obtain ⟨fault, hfaults, -⟩ := parse_exceeds hnearest (hfrontier ▸ hclosed) hmark
      (Nat.lt_of_not_le hexceeds)
    rw [hfrontier, show (parse .script (tokens ++ [semicolon] ++ [mark])).faults = [] from hclean]
      at hfaults
    cases hfaults

/-- The text `if (a) if (b) c; else d = e - f - g or h` is no script, but it is read as if it had a
semicolon at its end. -/
theorem interactive_omits_semicolon_danglingElse :
    let tokens := Token.danglingElse.dropLast
    let semicolon : Token := ⟨.semicolon, ";", none, ⟨40, 41, 1⟩⟩
    let mark := Token.endMark ⟨40, 40, 1⟩
    (parse .script (tokens ++ [mark])).faults ≠ [] ∧
    (parse .interactive (tokens ++ [mark])).faults = [] ∧
    EndsInExpression (tokens ++ [semicolon]) ∧
    Stmt.AllAlike (fun _ _ ↦ True) (parse .script (tokens ++ [semicolon] ++ [mark])).statements
      (parse .interactive (tokens ++ [mark])).statements := by
  intro tokens semicolon mark
  have hinteractive : (parse .interactive (tokens ++ [mark])).faults = [] := by decide
  have hscript : (parse .script (tokens ++ [mark])).faults ≠ [] := by decide
  obtain ⟨-, hcompleted, -⟩ :=
    interactive_omits_semicolon tokens mark semicolon (by decide) rfl rfl
  rcases hcompleted hinteractive with hsame | ⟨hends, -, halike⟩
  · rw [hsame] at hscript
    exact absurd hinteractive hscript
  · exact ⟨hscript, hinteractive, hends, halike⟩

end Program

end LoxLang
