import Mathlib.Tactic.Common
import ThreeAddress.Parser.Program

/-!
# The grammar of programs

The grammar is given by derivations that relate a list of tokens to the tree it stands for.

Expressions have ranks, from the weakest operators to the strongest. At each rank an expression is
one of the next rank, or else a node of its own: a chain of operands of the next rank with operators
between them, or a run of signs in front of an operand. A chain is one flat node that keeps
operators and operands in the order of the text, and there is no node where there is no operator.

An `else` can be derived to belong to any `if` that is open before it. Under the rule `nearest` the
first branch of an `if` with `else` does not end with an `if` that could still take that `else`.
-/

namespace ThreeAddress

/-! ## Expressions -/

/-- The rank of the operands at a rank. -/
def Rank.next? : Rank → Option Rank
  | .logic => some .comparison
  | .comparison => some .sum
  | .sum => some .product
  | .product => some .signed
  | .signed => some .negated
  | .negated => some .primary
  | .primary => none

mutual

/-- The expressions of a rank. -/
inductive Expr : Rank → List Token → Tree → Prop
  /-- A lone operand. -/
  | operand {k k' ts t} (hk : k.next? = some k') (h : Expr k' ts t) : Expr k ts t
  /-- Operands with operators between them. -/
  | chain {k k' ts t us ops trees} (hk : k.next? = some k') (hfirst : Expr k' ts t)
      (hrest : Rest k us ops trees) : Expr k (ts ++ us) (.node k.kind t.token "" ops (t :: trees))
  /-- An operand with signs in front of it. -/
  | run {k k' sign signs ts t} (hk : k.next? = some k')
      (hsigns : ∀ s ∈ sign :: signs, k.leads s.kind = true) (h : Expr k' ts t) :
      Expr k (sign :: signs ++ ts) (.node k.kind sign "" ((sign :: signs).map Token.kind) [t])
  | group {opening closing ts t} (hopening : opening.kind = .leftParen) (h : Expr .logic ts t)
      (hclosing : closing.kind = .rightParen) :
      Expr .primary (opening :: ts ++ [closing]) (.branch .group opening [t])
  | boolean {t} (h : t.kind = .kwTrue ∨ t.kind = .kwFalse) :
      Expr .primary [t] (.leaf .boolLiteral t t.kind.spelling)
  | number {t} (h : t.kind = .number) : Expr .primary [t] (.leaf .intLiteral t t.value)
  | identifier {t} (h : t.kind = .identifier) : Expr .primary [t] (.leaf .identifier t t.value)

/-- The operators of a chain with the operands after them; comparisons do not go on. -/
inductive Rest : Rank → List Token → List TokenKind → List Tree → Prop
  | last {k k' op ts t} (hk : k.next? = some k') (hop : k.joins op.kind = true) (h : Expr k' ts t) :
      Rest k (op :: ts) [op.kind] [t]
  | more {k k' op ts t us ops trees} (hk : k.next? = some k') (hop : k.joins op.kind = true)
      (h : Expr k' ts t) (hgoes : k ≠ .comparison) (hrest : Rest k us ops trees) :
      Rest k (op :: ts ++ us) (op.kind :: ops) (t :: trees)

end

/-- The expressions that stand in statements, under a node of their own. -/
inductive WholeExpr : List Token → Tree → Prop
  | whole {ts t} (h : Expr .logic ts t) : WholeExpr ts (.branch .expression t.token [t])

/-! ## Declarations -/

/-- The names of a declaration, each of which gives a tree. -/
inductive DeclaredNames (keyword : Token) : List Token → List Tree → Prop
  | last {name} (hname : name.kind = .identifier) :
      DeclaredNames keyword [name] [Tree.declarationTree keyword name]
  | more {name comma ts trees} (hname : name.kind = .identifier) (hcomma : comma.kind = .comma)
      (hrest : DeclaredNames keyword ts trees) :
      DeclaredNames keyword (name :: comma :: ts) (Tree.declarationTree keyword name :: trees)

/-- The declarations of a program. -/
inductive Declarations : List Token → List Tree → Prop
  | nil : Declarations [] []
  | cons {keyword ts trees stop us rest} (hkeyword : keyword.kind = .kwNum ∨ keyword.kind = .kwBool)
      (hnames : DeclaredNames keyword ts trees) (hstop : stop.kind = .semicolon)
      (hrest : Declarations us rest) : Declarations (keyword :: ts ++ stop :: us) (trees ++ rest)

/-! ## Statements -/

/-- Which `if` an `else` may belong to. -/
inductive ElseRule
  | any
  | nearest
  deriving DecidableEq, Repr

/-- Whether a statement ends with an `if` that could take an `else` behind it. -/
def Tree.endsOpen : Tree → Bool
  | .node .statement _ _ _ [t] => t.endsOpen
  | .node .conditional _ _ _ [_, _] => true
  | .node .conditional _ _ _ [_, _, t] => t.endsOpen
  | .node .loop _ _ _ [_, t] => t.endsOpen
  | _ => false

/-- The value of a case. -/
inductive CaseValue : List Token → Tree → Prop
  | plain {digits} (h : digits.kind = .number) :
      CaseValue [digits] (Tree.caseValueTree digits digits digits.value)
  | negative {sign digits} (hsign : sign.kind = .minus) (hdigits : digits.kind = .number) :
      CaseValue [sign, digits] (Tree.caseValueTree sign digits ("-" ++ digits.value))

mutual

/-- The statements. -/
inductive Statement (rule : ElseRule) (settings : Settings) : List Token → Tree → Prop
  | empty {stop} (hstop : stop.kind = .semicolon) :
      Statement rule settings [stop] (.branch .statement stop [])
  | block {opening ts trees closing} (hopening : opening.kind = .leftBrace)
      (hbody : Statements rule settings ts trees) (hclosing : closing.kind = .rightBrace) :
      Statement rule settings (opening :: ts ++ [closing])
        (.branch .statement opening [.branch .block opening trees])
  | conditional {keyword opening es e closing ts t} (hkeyword : keyword.kind = .kwIf)
      (hopening : opening.kind = .leftParen) (he : WholeExpr es e)
      (hclosing : closing.kind = .rightParen) (ht : Statement rule settings ts t) :
      Statement rule settings (keyword :: opening :: es ++ closing :: ts)
        (.branch .statement keyword [.branch .conditional keyword [e, t]])
  | alternative {keyword opening es e closing ts t other us u} (hkeyword : keyword.kind = .kwIf)
      (hopening : opening.kind = .leftParen) (he : WholeExpr es e)
      (hclosing : closing.kind = .rightParen) (ht : Statement rule settings ts t)
      (hother : other.kind = .kwElse) (hu : Statement rule settings us u)
      (hnearest : rule = .nearest → t.endsOpen = false) :
      Statement rule settings (keyword :: opening :: es ++ closing :: ts ++ other :: us)
        (.branch .statement keyword [.branch .conditional keyword [e, t, u]])
  | loop {keyword opening es e closing ts t} (hkeyword : keyword.kind = .kwWhile)
      (hopening : opening.kind = .leftParen) (he : WholeExpr es e)
      (hclosing : closing.kind = .rightParen) (ht : Statement rule settings ts t) :
      Statement rule settings (keyword :: opening :: es ++ closing :: ts)
        (.branch .statement keyword [.branch .loop keyword [e, t]])
  | selection {keyword opening es e closing left ts clauses right}
      (hkeyword : keyword.kind = .kwSwitch) (henabled : settings.feature .switchStatements = true)
      (hopening : opening.kind = .leftParen) (he : WholeExpr es e)
      (hclosing : closing.kind = .rightParen) (hleft : left.kind = .leftBrace)
      (hclauses : Clauses rule settings ts clauses) (hright : right.kind = .rightBrace) :
      Statement rule settings (keyword :: opening :: es ++ closing :: left :: ts ++ [right])
        (.branch .statement keyword [.branch .selection keyword (e :: clauses)])
  | assignment {name sign es e stop} (hname : name.kind = .identifier) (hsign : sign.kind = .assign)
      (he : WholeExpr es e) (hstop : stop.kind = .semicolon) :
      Statement rule settings (name :: sign :: es ++ [stop])
        (.branch .statement name [.branch .assignment sign [.leaf .identifier name name.value, e]])

/-- Statements one after the other. -/
inductive Statements (rule : ElseRule) (settings : Settings) : List Token → List Tree → Prop
  | nil : Statements rule settings [] []
  | cons {ts t us trees} (ht : Statement rule settings ts t)
      (hrest : Statements rule settings us trees) :
      Statements rule settings (ts ++ us) (t :: trees)

/-- The clauses of a `switch`. -/
inductive Clauses (rule : ElseRule) (settings : Settings) : List Token → List Tree → Prop
  | nil : Clauses rule settings [] []
  | case {keyword vs value colon ts trees us clauses} (hkeyword : keyword.kind = .kwCase)
      (hvalue : CaseValue vs value) (hcolon : colon.kind = .colon)
      (hbody : Statements rule settings ts trees) (hrest : Clauses rule settings us clauses) :
      Clauses rule settings (keyword :: vs ++ colon :: ts ++ us)
        (.branch .caseClause keyword (value :: trees) :: clauses)
  | default {keyword colon ts trees us clauses} (hkeyword : keyword.kind = .kwDefault)
      (hcolon : colon.kind = .colon) (hbody : Statements rule settings ts trees)
      (hrest : Clauses rule settings us clauses) :
      Clauses rule settings (keyword :: colon :: ts ++ us)
        (.branch .defaultClause keyword trees :: clauses)

end

/-! ## Programs -/

/-- The programs: declarations and statements, up to the end of the file. -/
inductive ProgramText (rule : ElseRule) (settings : Settings) : List Token → Tree → Prop
  | program {ds declarations ss statements eof start} (hdeclarations : Declarations ds declarations)
      (hstatements : Statements rule settings ss statements) (heof : eof.kind = .endOfFile)
      (hstart : (ds ++ ss ++ [eof]).head? = some start) :
      ProgramText rule settings (ds ++ ss ++ [eof])
        (.branch .program start (declarations ++ [.branch .block start statements]))

end ThreeAddress
