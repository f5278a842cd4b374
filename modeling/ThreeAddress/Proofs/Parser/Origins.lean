import ThreeAddress.Proofs.Lowering.Nodes
import ThreeAddress.Proofs.Parser.Declarations

/-!
# Where the numbers of a tree come from

The numbers in the tree of a program are numbers among the tokens it was read from, and the value of
a case is read from tokens that stand beside each other. The proof follows the grammar.
-/

namespace ThreeAddress

open List Lowering

variable {tokens : List Token} {settings : Settings} {file : Int} {source : List Char} {t : Tree}

/-- The numbers in a tree come from tokens, the value of a case from adjacent ones. -/
inductive Tree.StemsFrom (tokens : List Token) : Tree → Prop
  | node {kind token value ops children}
      (hvalue : kind = .intLiteral → ∃ x ∈ tokens, x.kind = .number ∧ x.value = value)
      (hcase : kind = .caseClause → ∃ ts t body, ts <:+: tokens ∧ CaseValue ts t ∧
        children = t :: body)
      (hchildren : ∀ t ∈ clauseBody kind children, Tree.StemsFrom tokens t) :
      Tree.StemsFrom tokens (.node kind token value ops children)

namespace Tree

variable {kind : NodeKind} {token : Token} {value : String} {ops : List TokenKind}
  {children : List Tree}

lemma clauseBody_of_ne (hcase : kind ≠ .caseClause) : clauseBody kind children = children := by
  cases kind with
  | caseClause => exact absurd rfl hcase
  | _ => rfl

/-- A node that is neither a number nor a case stems from tokens if its children do. -/
lemma stemsFrom_node (h : ∀ t ∈ children, StemsFrom tokens t)
    (hlit : kind ≠ .intLiteral := by decide) (hcase : kind ≠ .caseClause := by decide) :
    StemsFrom tokens (.node kind token value ops children) := by
  refine .node (fun hkind => absurd hkind hlit) (fun hkind => absurd hkind hcase) ?_
  rwa [clauseBody_of_ne hcase]

/-- A node around one part stems from tokens if the part does. -/
lemma stemsFrom_wrap (ht : t.StemsFrom tokens) (hlit : kind ≠ .intLiteral := by decide)
    (hcase : kind ≠ .caseClause := by decide) : (node kind token value ops [t]).StemsFrom tokens :=
  stemsFrom_node (forall_mem_singleton.mpr ht) hlit hcase

lemma stemsFrom_name (token : Token) (name : String) :
    (leaf .identifier token name).StemsFrom tokens :=
  stemsFrom_node (forall_mem_nil _)

end Tree

/-! ## Parts of lists -/

section Parts

variable {xs ys zs : List Token} {x : Token}

lemma infix_left (h : xs ++ ys <:+: zs) : xs <:+: zs := (prefix_append xs ys).isInfix.trans h

lemma infix_right (h : xs ++ ys <:+: zs) : ys <:+: zs := (suffix_append xs ys).isInfix.trans h

lemma infix_tail (h : x :: xs <:+: zs) : xs <:+: zs := (suffix_cons x xs).isInfix.trans h

end Parts

/-! ## Following the grammar -/

mutual

/-- An expression stems from its tokens. -/
lemma Expr.stemsFrom {k ts t} (h : Expr k ts t) (hts : ts <:+: tokens) : t.StemsFrom tokens := by
  match h with
  | .operand _ h => exact h.stemsFrom hts
  | .chain _ hfirst hrest =>
    refine Tree.stemsFrom_node ?_ (by cases k <;> decide) (by cases k <;> decide)
    exact forall_mem_cons.mpr ⟨hfirst.stemsFrom (infix_left hts), hrest.stemsFrom (infix_right hts)⟩
  | .run _ _ h =>
    exact Tree.stemsFrom_wrap (h.stemsFrom (infix_right hts)) (by cases k <;> decide)
      (by cases k <;> decide)
  | .group _ h _ =>
    exact Tree.stemsFrom_wrap (h.stemsFrom (infix_left (infix_tail hts)))
  | .boolean _ | .identifier _ => exact Tree.stemsFrom_node (forall_mem_nil _)
  | .number hkind =>
    exact .node (fun _ => ⟨_, hts.subset mem_cons_self, hkind, rfl⟩) nofun (forall_mem_nil _)

/-- The rest of a chain stems from its tokens. -/
lemma Rest.stemsFrom {k ts ops trees} (h : Rest k ts ops trees) (hts : ts <:+: tokens) :
    ∀ t ∈ trees, t.StemsFrom tokens := by
  match h with
  | .last _ _ h => exact forall_mem_singleton.mpr (h.stemsFrom (infix_tail hts))
  | .more _ _ h _ hrest =>
    have h' := h.stemsFrom (infix_tail (infix_left hts))
    exact forall_mem_cons.mpr ⟨h', hrest.stemsFrom (infix_right hts)⟩

end

/-- A whole expression stems from its tokens. -/
lemma WholeExpr.stemsFrom {ts} (h : WholeExpr ts t) (hts : ts <:+: tokens) :
    t.StemsFrom tokens := by
  cases h with
  | whole h => exact Tree.stemsFrom_wrap (h.stemsFrom hts)

section Statements

variable {rule : ElseRule}

mutual

/-- A statement stems from its tokens. -/
lemma Statement.stemsFrom {ts t} (h : Statement rule settings ts t) (hts : ts <:+: tokens) :
    t.StemsFrom tokens := by
  match h with
  | .empty _ => exact Tree.stemsFrom_node (forall_mem_nil _)
  | .block _ hbody _ =>
    refine Tree.stemsFrom_wrap (Tree.stemsFrom_node ?_)
    exact hbody.stemsFrom (infix_tail (infix_left hts))
  | .conditional _ _ he _ ht | .loop _ _ he _ ht =>
    have he' := he.stemsFrom (infix_tail (infix_tail (infix_left hts)))
    have ht' := ht.stemsFrom (infix_tail (infix_right hts))
    refine Tree.stemsFrom_wrap (Tree.stemsFrom_node ?_)
    simp [he', ht']
  | .alternative _ _ he _ ht _ hu _ =>
    have hfront := infix_left hts
    have he' := he.stemsFrom (infix_tail (infix_tail (infix_left hfront)))
    have ht' := ht.stemsFrom (infix_tail (infix_right hfront))
    have hu' := hu.stemsFrom (infix_tail (infix_right hts))
    refine Tree.stemsFrom_wrap (Tree.stemsFrom_node ?_)
    simp [he', ht', hu']
  | .selection _ _ _ he _ _ hclauses _ =>
    have hfront := infix_left hts
    have he' := he.stemsFrom (infix_tail (infix_tail (infix_left hfront)))
    have hclauses' := hclauses.stemsFrom (infix_tail (infix_tail (infix_right hfront)))
    refine Tree.stemsFrom_wrap (Tree.stemsFrom_node ?_)
    exact forall_mem_cons.mpr ⟨he', hclauses'⟩
  | .assignment _ _ he _ =>
    have he' := he.stemsFrom (infix_tail (infix_tail (infix_left hts)))
    refine Tree.stemsFrom_wrap (Tree.stemsFrom_node ?_)
    simp [Tree.stemsFrom_name, he']

/-- Several statements stem from their tokens. -/
lemma Statements.stemsFrom {ts trees} (h : Statements rule settings ts trees)
    (hts : ts <:+: tokens) :
    ∀ t ∈ trees, t.StemsFrom tokens := by
  match h with
  | .nil => exact forall_mem_nil _
  | .cons ht hrest =>
    exact forall_mem_cons.mpr ⟨ht.stemsFrom (infix_left hts), hrest.stemsFrom (infix_right hts)⟩

/-- The clauses of a `switch` stem from their tokens. -/
lemma Clauses.stemsFrom {ts trees} (h : Clauses rule settings ts trees) (hts : ts <:+: tokens) :
    ∀ t ∈ trees, t.StemsFrom tokens := by
  match h with
  | .nil => exact forall_mem_nil _
  | .case _ hval _ hbody hrest =>
    have hfront := infix_left hts
    have hbody' := hbody.stemsFrom (infix_tail (infix_right hfront))
    have hrest' := hrest.stemsFrom (infix_right hts)
    have hval' := infix_tail (infix_left hfront)
    exact forall_mem_cons.mpr ⟨.node nofun (fun _ => ⟨_, _, _, hval', hval, rfl⟩) hbody', hrest'⟩
  | .default _ _ hbody hrest =>
    have hbody' := hbody.stemsFrom (infix_tail (infix_tail (infix_left hts)))
    have hrest' := hrest.stemsFrom (infix_right hts)
    exact forall_mem_cons.mpr ⟨.node nofun nofun hbody', hrest'⟩

end

end Statements

/-- The tree of a source text stems from the tokens in front of the end of the file. -/
lemma stemsFrom_of_source {root} (h : Tree.ofSource settings file source = .ok root) :
    root.StemsFrom (Token.scan settings file source).dropLast := by
  have htext := programText_of_source h
  generalize Token.scan settings file source = tokens at htext
  cases htext with
  | @program ds declarations ss statements _ start hdecls hstmts =>
    rw [dropLast_concat]
    have hstmts' := hstmts.stemsFrom (suffix_append ds ss).isInfix
    refine Tree.stemsFrom_node (forall_mem_append.mpr ⟨?_, ?_⟩)
    · intro d hd
      obtain ⟨keyword, text, name, -, -, rfl⟩ := hdecls.declaresFrom d hd
      exact Tree.stemsFrom_wrap (Tree.stemsFrom_name _ _)
    · exact forall_mem_singleton.mpr (Tree.stemsFrom_node hstmts')

end ThreeAddress
