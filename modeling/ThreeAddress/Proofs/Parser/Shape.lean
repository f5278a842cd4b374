import ThreeAddress.Proofs.Parser.Soundness

/-!
# The shape of parsed trees

Nothing in the type of trees says how many children or operators a node has. `Tree.Fits` says it,
kind by kind, of a single node: which kinds of children it has and how many, how many operators and
of which level, and which text. A tree is `Shaped` if all its nodes fit; in particular none of them
is absent.

The trees of the grammar are shaped, and so are those that the parser returns, for any list of
tokens.
-/

namespace ThreeAddress

open List

variable {tokens ts : List Token} {trees : List Tree} {t tree : Tree} {settings : Settings}

/-! ## Nodes that fit -/

namespace NodeKind

/-- The kinds of node that have a value. -/
def operands : List NodeKind :=
  [logic, comparison, sum, product, signed, negation, group, boolLiteral, intLiteral, identifier]

/-- The kinds of node that a statement can be. -/
def actions : List NodeKind := [block, conditional, loop, selection, assignment]

/-- The kinds of clause in a `switch`. -/
def clauses : List NodeKind := [caseClause, defaultClause]

/-- Whether an operator belongs to the level of a kind of node. -/
def takes : NodeKind → TokenKind → Bool
  | logic => TokenKind.isLogical
  | comparison => TokenKind.isRelation
  | sum | signed => TokenKind.isAdditive
  | product => TokenKind.isMultiplicative
  | negation => (· = .bang)
  | _ => fun _ => false

end NodeKind

namespace Tree

/-- There is a node, of one of several kinds. -/
def IsA (kinds : List NodeKind) : Tree → Prop
  | absent => False
  | node kind .. => kind ∈ kinds

/-- The operands of a chain and the operators between them. -/
structure Joined (kind : NodeKind) (ops : List TokenKind) (operands : List Tree) : Prop where
  two_le : 2 ≤ operands.length
  count : operands.length = ops.length + 1
  level : ∀ op ∈ ops, kind.takes op = true
  isA : ∀ t ∈ operands, IsA NodeKind.operands t

/-- An operand and the signs in front of it. -/
structure Led (kind : NodeKind) (ops : List TokenKind) (inner : Tree) : Prop where
  ne_nil : ops ≠ []
  level : ∀ op ∈ ops, kind.takes op = true
  isA : inner.IsA NodeKind.operands

/-- A node has the children, the operators and the text that belong to its kind. -/
inductive Fits : Tree → Prop
  | program {token declarations body} (hdeclarations : ∀ t ∈ declarations, IsA [.declaration] t)
      (hbody : body.IsA [.block]) : Fits (.node .program token "" [] (declarations ++ [body]))
  | declaration {token type name} (htype : type = "num" ∨ type = "bool")
      (hname : name.IsA [.identifier]) :
      Fits (.node .declaration token type [] [name])
  | block {token statements} (hstatements : ∀ t ∈ statements, IsA [.statement] t) :
      Fits (.node .block token "" [] statements)
  | empty {token} : Fits (.node .statement token "" [] [])
  | statement {token inner} (hinner : inner.IsA NodeKind.actions) :
      Fits (.node .statement token "" [] [inner])
  | conditional {token condition body} (hcondition : condition.IsA [.expression])
      (hbody : body.IsA [.statement]) : Fits (.node .conditional token "" [] [condition, body])
  | alternative {token condition body other} (hcondition : condition.IsA [.expression])
      (hbody : body.IsA [.statement]) (hother : other.IsA [.statement]) :
      Fits (.node .conditional token "" [] [condition, body, other])
  | loop {token condition body} (hcondition : condition.IsA [.expression])
      (hbody : body.IsA [.statement]) :
      Fits (.node .loop token "" [] [condition, body])
  | assignment {token name value} (hname : name.IsA [.identifier])
      (hvalue : value.IsA [.expression]) :
      Fits (.node .assignment token "" [] [name, value])
  | selection {token scrutinee clauses} (hscrutinee : scrutinee.IsA [.expression])
      (hclauses : ∀ t ∈ clauses, IsA NodeKind.clauses t) :
      Fits (.node .selection token "" [] (scrutinee :: clauses))
  | caseClause {token value body} (hvalue : value.IsA [.intLiteral])
      (hbody : ∀ t ∈ body, IsA [.statement] t) :
      Fits (.node .caseClause token "" [] (value :: body))
  | defaultClause {token body} (hbody : ∀ t ∈ body, IsA [.statement] t) :
      Fits (.node .defaultClause token "" [] body)
  | expression {token inner} (hinner : inner.IsA NodeKind.operands) :
      Fits (.node .expression token "" [] [inner])
  | logic {token ops operands} (hchain : Joined .logic ops operands) :
      Fits (.node .logic token "" ops operands)
  | comparison {token op left right} (hop : NodeKind.comparison.takes op = true)
      (hleft : left.IsA NodeKind.operands) (hright : right.IsA NodeKind.operands) :
      Fits (.node .comparison token "" [op] [left, right])
  | sum {token ops operands} (hchain : Joined .sum ops operands) :
      Fits (.node .sum token "" ops operands)
  | product {token ops operands} (hchain : Joined .product ops operands) :
      Fits (.node .product token "" ops operands)
  | signed {token ops inner} (hsigns : Led .signed ops inner) :
      Fits (.node .signed token "" ops [inner])
  | negation {token ops inner} (hsigns : Led .negation ops inner) :
      Fits (.node .negation token "" ops [inner])
  | group {token inner} (hinner : inner.IsA NodeKind.operands) :
      Fits (.node .group token "" [] [inner])
  | boolLiteral {token value} (hvalue : value = "true" ∨ value = "false") :
      Fits (.node .boolLiteral token value [] [])
  | intLiteral {token value} : Fits (.node .intLiteral token value [] [])
  | identifier {token value} : Fits (.node .identifier token value [] [])

/-- All nodes of a tree fit. -/
inductive Shaped : Tree → Prop
  | node {kind token value ops children} (hfits : Fits (.node kind token value ops children))
      (hchildren : ∀ t ∈ children, Shaped t) : Shaped (.node kind token value ops children)

/-- A shaped tree of one of several kinds. -/
structure ShapedAs (kinds : List NodeKind) (t : Tree) : Prop where
  shaped : t.Shaped
  isA : t.IsA kinds

/-- A tree of certain kinds is a node. -/
lemma IsA.exists_eq_node {kinds} (h : t.IsA kinds) :
    ∃ kind token value ops children, kind ∈ kinds ∧ t = .node kind token value ops children := by
  cases t with
  | absent => exact h.elim
  | node kind token value ops children => exact ⟨kind, token, value, ops, children, h, rfl⟩

lemma Joined.ops_ne_nil {kind ops operands} (h : Joined kind ops operands) : ops ≠ [] := by
  rintro rfl
  have htwo := h.two_le
  rw [h.count] at htwo
  exact absurd htwo (by decide)

end Tree

/-! ## Trees of the grammar -/

section Expressions

variable {k : Rank}

lemma Rank.takes_of_joins {op} (h : k.joins op = true) : k.kind.takes op = true := by
  cases k <;> first | exact h | cases h

lemma Rank.takes_of_leads {op} (h : k.leads op = true) : k.kind.takes op = true := by
  cases k <;> first | exact h | cases h

lemma Rank.kind_mem_operands (k : Rank) : k.kind ∈ NodeKind.operands := by
  cases k <;> decide

/-- A chain has an operator in front of each operand but the first, and a comparison has one. -/
lemma Rest.shape {ts ops trees} (h : Rest k ts ops trees) :
    ops ≠ [] ∧ ops.length = trees.length ∧ (∀ op ∈ ops, k.joins op = true) ∧
    (k = .comparison → ops.length = 1) := by
  match h with
  | .last _ hop _ => simpa using hop
  | .more _ hop _ hgoes hrest =>
    obtain ⟨-, hlen, hops, -⟩ := hrest.shape
    exact ⟨cons_ne_nil _ _, by simp [hlen], forall_mem_cons.mpr ⟨hop, hops⟩,
      fun hk => absurd hk hgoes⟩

/-- A chain of operands fits. -/
lemma Rest.fits {ops} (h : Rest k ts ops trees)
    (hoperands : ∀ u ∈ t :: trees, u.IsA NodeKind.operands) (token : Token) :
    (Tree.node k.kind token "" ops (t :: trees)).Fits := by
  obtain ⟨hne, hlen, hops, hone⟩ := h.shape
  have htakes : ∀ op ∈ ops, k.kind.takes op = true := fun op hop =>
    Rank.takes_of_joins (hops op hop)
  have hchain : Tree.Joined k.kind ops (t :: trees) := by
    refine ⟨?_, by rw [length_cons, hlen], htakes, hoperands⟩
    have hpos := length_pos_iff.mpr hne
    rw [length_cons]
    omega
  obtain ⟨op, hop⟩ := exists_mem_of_ne_nil ops hne
  cases k with
  | logic => exact .logic hchain
  | sum => exact .sum hchain
  | product => exact .product hchain
  | comparison =>
    obtain ⟨op, rfl⟩ := length_eq_one_iff.mp (hone rfl)
    obtain ⟨u, rfl⟩ := length_eq_one_iff.mp hlen.symm
    exact .comparison (htakes op (.head _)) (hoperands t (.head _))
      (hoperands u (.tail _ (.head _)))
  | signed | negated | primary => cases hops op hop

mutual

/-- The trees of expressions are shaped. -/
lemma Expr.shapedAs {k ts t} (h : Expr k ts t) : t.ShapedAs NodeKind.operands := by
  match h with
  | .operand hk h => exact h.shapedAs
  | .chain hk hfirst hrest =>
    have hoperands := forall_mem_cons.mpr ⟨hfirst.shapedAs, hrest.shapedAs⟩
    refine ⟨.node ?_ fun u hu => (hoperands u hu).shaped, k.kind_mem_operands⟩
    exact hrest.fits (fun u hu => (hoperands u hu).isA) _
  | .run hk hsigns h =>
    refine ⟨.node ?_ (forall_mem_singleton.mpr h.shapedAs.shaped), k.kind_mem_operands⟩
    have hlevel : ∀ op ∈ map Token.kind _, k.kind.takes op = true :=
      forall_mem_map.mpr fun s hs => Rank.takes_of_leads (hsigns s hs)
    have hsign := hsigns _ mem_cons_self
    cases k with
    | signed => exact .signed ⟨cons_ne_nil _ _, hlevel, h.shapedAs.isA⟩
    | negated => exact .negation ⟨cons_ne_nil _ _, hlevel, h.shapedAs.isA⟩
    | logic | comparison | sum | product | primary => cases hsign
  | .group hopen h hclose =>
    have hinner := forall_mem_singleton.mpr h.shapedAs.shaped
    exact ⟨.node (.group h.shapedAs.isA) hinner, Rank.primary.kind_mem_operands⟩
  | .boolean h =>
    refine ⟨.node (.boolLiteral ?_) (forall_mem_nil _), by
      simp [Tree.leaf, Tree.IsA, NodeKind.operands]⟩
    rcases h with h | h
    · exact .inl (by rw [h]; rfl)
    · exact .inr (by rw [h]; rfl)
  | .number h =>
    exact ⟨.node .intLiteral (forall_mem_nil _), by simp [Tree.leaf, Tree.IsA, NodeKind.operands]⟩
  | .identifier h =>
    exact ⟨.node .identifier (forall_mem_nil _), by simp [Tree.leaf, Tree.IsA, NodeKind.operands]⟩

/-- The trees of the operands of a chain are shaped. -/
lemma Rest.shapedAs {k ts ops trees} (h : Rest k ts ops trees) :
    ∀ t ∈ trees, t.ShapedAs NodeKind.operands := by
  match h with
  | .last hk hop h => exact forall_mem_singleton.mpr h.shapedAs
  | .more hk hop h hgoes hrest => exact forall_mem_cons.mpr ⟨h.shapedAs, hrest.shapedAs⟩

end

/-- The trees of the expressions that stand in statements are shaped. -/
lemma WholeExpr.shapedAs (h : WholeExpr ts t) : t.ShapedAs [.expression] := by
  cases h with
  | whole h =>
    have hinner := forall_mem_singleton.mpr h.shapedAs.shaped
    exact ⟨.node (.expression h.shapedAs.isA) hinner, .head _⟩

end Expressions

section Statements

variable {rule : ElseRule}

lemma Tree.shapedAs_name (token : Token) (name : String) :
    (Tree.leaf .identifier token name).ShapedAs [.identifier] :=
  ⟨.node .identifier (forall_mem_nil _), .head _⟩

lemma CaseValue.shapedAs (h : CaseValue ts t) : t.ShapedAs [.intLiteral] := by
  cases h with
  | plain | negative => exact ⟨.node .intLiteral (forall_mem_nil _), .head _⟩

lemma Tree.ShapedAs.wrap (h : t.ShapedAs NodeKind.actions) (token : Token) :
    (Tree.branch .statement token [t]).ShapedAs [.statement] :=
  ⟨.node (.statement h.isA) (forall_mem_singleton.mpr h.shaped), .head _⟩

/-- A block is shaped if its statements are. -/
lemma Tree.shapedAs_block (h : ∀ t ∈ trees, t.ShapedAs [.statement]) (token : Token) :
    (Tree.branch .block token trees).ShapedAs [.block] :=
  ⟨.node (.block fun t ht => (h t ht).isA) fun t ht => (h t ht).shaped, .head _⟩

mutual

/-- The trees of statements are shaped. -/
lemma Statement.shapedAs {ts t} (h : Statement rule settings ts t) : t.ShapedAs [.statement] := by
  match h with
  | .empty hstop => exact ⟨.node .empty (forall_mem_nil _), .head _⟩
  | .block hopen hbody hclose =>
    exact .wrap ⟨(Tree.shapedAs_block hbody.shapedAs _).shaped, .head _⟩ _
  | .conditional hkey hopen he hclose ht =>
    refine .wrap ⟨.node (.conditional he.shapedAs.isA ht.shapedAs.isA) ?_, ?_⟩ _
    · simp [he.shapedAs.shaped, ht.shapedAs.shaped]
    · simp [Tree.IsA, NodeKind.actions]
  | .alternative hkey hopen he hclose ht hother hu hnearest =>
    refine .wrap ⟨.node (.alternative he.shapedAs.isA ht.shapedAs.isA hu.shapedAs.isA) ?_, ?_⟩ _
    · simp [he.shapedAs.shaped, ht.shapedAs.shaped, hu.shapedAs.shaped]
    · simp [Tree.IsA, NodeKind.actions]
  | .loop hkey hopen he hclose ht =>
    refine .wrap ⟨.node (.loop he.shapedAs.isA ht.shapedAs.isA) ?_, ?_⟩ _
    · simp [he.shapedAs.shaped, ht.shapedAs.shaped]
    · simp [Tree.IsA, NodeKind.actions]
  | .selection hkey henabled hopen he hclose hleft hclauses hright =>
    have hshaped := hclauses.shapedAs
    refine .wrap ⟨.node (.selection he.shapedAs.isA fun t ht => (hshaped t ht).isA) ?_, ?_⟩ _
    · exact forall_mem_cons.mpr ⟨he.shapedAs.shaped, fun t ht => (hshaped t ht).shaped⟩
    · simp [Tree.IsA, NodeKind.actions]
  | .assignment hname hsign he hstop =>
    refine .wrap ⟨.node (.assignment (Tree.shapedAs_name _ _).isA he.shapedAs.isA) ?_, ?_⟩ _
    · simp [(Tree.shapedAs_name _ _).shaped, he.shapedAs.shaped]
    · simp [Tree.IsA, NodeKind.actions]

/-- The trees of the statements of a block are shaped. -/
lemma Statements.shapedAs {ts trees} (h : Statements rule settings ts trees) :
    ∀ t ∈ trees, t.ShapedAs [.statement] := by
  match h with
  | .nil => exact forall_mem_nil _
  | .cons ht hrest => exact forall_mem_cons.mpr ⟨ht.shapedAs, hrest.shapedAs⟩

/-- The trees of the clauses of a `switch` are shaped. -/
lemma Clauses.shapedAs {ts clauses} (h : Clauses rule settings ts clauses) :
    ∀ t ∈ clauses, t.ShapedAs NodeKind.clauses := by
  match h with
  | .nil => exact forall_mem_nil _
  | .case hkey hval hcolon hbody hrest =>
    have hshaped := hbody.shapedAs
    refine forall_mem_cons.mpr ⟨⟨.node (.caseClause hval.shapedAs.isA fun t ht =>
      (hshaped t ht).isA) ?_,
      .head _⟩, hrest.shapedAs⟩
    exact forall_mem_cons.mpr ⟨hval.shapedAs.shaped, fun t ht => (hshaped t ht).shaped⟩
  | .default hkey hcolon hbody hrest =>
    have hshaped := hbody.shapedAs
    exact forall_mem_cons.mpr ⟨⟨.node (.defaultClause fun t ht => (hshaped t ht).isA)
      fun t ht => (hshaped t ht).shaped, .tail _ (.head _)⟩, hrest.shapedAs⟩

end

lemma Tree.shapedAs_declaration {keyword name}
    (hkey : keyword.kind = .kwNum ∨ keyword.kind = .kwBool) :
    (Tree.node .declaration keyword keyword.kind.spelling []
      [.leaf .identifier name name.value]).ShapedAs [.declaration] := by
  have hname := Tree.shapedAs_name name name.value
  have htype : keyword.kind.spelling = "num" ∨ keyword.kind.spelling = "bool" := by
    rcases hkey with hkey | hkey
    · exact .inl (by rw [hkey]; rfl)
    · exact .inr (by rw [hkey]; rfl)
  exact ⟨.node (.declaration htype hname.isA) (forall_mem_singleton.mpr hname.shaped), .head _⟩

/-- The trees of the names of a declaration are shaped. -/
lemma DeclaredNames.shapedAs {keyword} (h : DeclaredNames keyword ts trees)
    (hkey : keyword.kind = .kwNum ∨ keyword.kind = .kwBool) :
    ∀ t ∈ trees, t.ShapedAs [.declaration] := by
  induction h with
  | last hname => exact forall_mem_singleton.mpr (Tree.shapedAs_declaration hkey)
  | more hname hcomma hrest ih => exact forall_mem_cons.mpr ⟨Tree.shapedAs_declaration hkey, ih⟩

/-- The trees of declarations are shaped. -/
lemma Declarations.shapedAs (h : Declarations ts trees) :
    ∀ t ∈ trees, t.ShapedAs [.declaration] := by
  induction h with
  | nil => exact forall_mem_nil _
  | cons hkey hnames hstop hrest ih =>
    exact forall_mem_append.mpr ⟨hnames.shapedAs hkey, ih⟩

end Statements

/-! ## Parsed trees -/

/-- A program is shaped if its declarations and its block are. -/
lemma Tree.shapedAs_program {declarations block}
    (hdecls : ∀ t ∈ declarations, t.ShapedAs [.declaration]) (hblock : block.ShapedAs [.block])
    (start : Token) :
    (Tree.branch .program start (declarations ++ [block])).ShapedAs [.program] := by
  refine ⟨.node (.program (fun t ht => (hdecls t ht).isA) hblock.isA) ?_, .head _⟩
  refine forall_mem_append.mpr ⟨fun t ht => (hdecls t ht).shaped, ?_⟩
  exact forall_mem_singleton.mpr hblock.shaped

/-- Parsed trees are shaped programs. -/
lemma shapedAs_of_parse (h : Tree.parse settings tokens = .ok tree) : tree.ShapedAs [.program] := by
  obtain ⟨ds, declarations, ss, statements, hdecls, hstmts, -, rfl⟩ := exists_texts_of_parse h
  exact Tree.shapedAs_program hdecls.shapedAs (Tree.shapedAs_block hstmts.shapedAs _) _

end ThreeAddress
