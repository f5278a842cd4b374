import ThreeAddress.Proofs.Parser.Shape
import ThreeAddress.Proofs.Token.Tiling

/-!
# The declarations of a program

The declarations in the tree of a program are those that its text begins with: the trees of
statements and of expressions hold none. Each of them declares a name of the text.
-/

namespace ThreeAddress

open List

variable {ts : List Token} {trees : List Tree} {t : Tree}

/-! ## Statements hold no declarations -/

/-- The kinds of node that stand in statements. -/
def NodeKind.parts : List NodeKind := .statement :: .expression :: (actions ++ clauses ++ operands)

lemma Tree.IsA.mono {kinds kinds'} (h : t.IsA kinds) (hkinds : kinds ⊆ kinds') : t.IsA kinds' := by
  cases t with
  | absent => exact h
  | node kind token value ops children => exact hkinds h

/-- What stands in a part of a statement is a part of it too. -/
lemma Tree.Fits.isA_parts {kind token value ops} (h : (Tree.node kind token value ops trees).Fits)
    (hkind : kind ∈ NodeKind.parts) : ∀ t ∈ trees, t.IsA NodeKind.parts := by
  have hstmts : ∀ ts : List Tree, (∀ t ∈ ts, IsA [.statement] t) → ∀ t ∈ ts, t.IsA NodeKind.parts :=
    fun ts hts t ht => (hts t ht).mono (by decide)
  cases h with
  | program | declaration => exact absurd hkind (by decide)
  | empty | boolLiteral | intLiteral | identifier => exact forall_mem_nil _
  | block hbody | defaultClause hbody => exact hstmts _ hbody
  | caseClause hval hbody => exact forall_mem_cons.mpr ⟨hval.mono (by decide), hstmts _ hbody⟩
  | selection hscrut hclauses =>
    exact forall_mem_cons.mpr ⟨hscrut.mono (by decide), fun t ht =>
      (hclauses t ht).mono (by decide)⟩
  | statement h | expression h | group h => exact forall_mem_singleton.mpr (h.mono (by decide))
  | signed h | negation h => exact forall_mem_singleton.mpr (h.isA.mono (by decide))
  | logic h | sum h | product h => exact fun t ht => (h.isA t ht).mono (by decide)
  | conditional h h' | loop h h' | assignment h h' | comparison _ h h' =>
    exact forall_mem_cons.mpr ⟨h.mono (by decide), forall_mem_singleton.mpr (h'.mono (by decide))⟩
  | alternative hcond hbody hother =>
    exact forall_mem_cons.mpr ⟨hcond.mono (by decide), forall_mem_cons.mpr
      ⟨hbody.mono (by decide), forall_mem_singleton.mpr (hother.mono (by decide))⟩⟩

lemma Tree.declarationsAll_eq_nil (h : ∀ t ∈ trees, t.declarations = []) :
    declarationsAll trees = [] := by
  induction trees with
  | nil => rfl
  | cons t ts ih =>
    obtain ⟨ht, hts⟩ := forall_mem_cons.mp h
    rw [declarationsAll, ht, ih hts, append_nil]

/-- A shaped part of a statement holds no declarations. -/
lemma Tree.Shaped.declarations_eq_nil (h : t.Shaped) (hkind : t.IsA NodeKind.parts) :
    t.declarations = [] := by
  induction h with
  | @node kind token value ops children hfits hchildren ih =>
    have hparts : kind ∈ NodeKind.parts := hkind
    rw [declarations, if_neg (ne_of_mem_of_not_mem hparts (by decide))]
    exact declarationsAll_eq_nil fun t ht => ih t ht (hfits.isA_parts hparts t ht)

/-! ## Declarations -/

/-- A tree declares one of the names in a list of tokens. -/
def Tree.DeclaresFrom (ts : List Token) (t : Tree) : Prop :=
  ∃ keyword text, ∃ name ∈ ts, name.kind = .identifier ∧
    t = .node .declaration keyword text [] [.leaf .identifier name name.value]

lemma Tree.DeclaresFrom.mono {us} (h : t.DeclaresFrom ts) (hsub : ts ⊆ us) : t.DeclaresFrom us := by
  obtain ⟨keyword, text, name, hname, hkind, rfl⟩ := h
  exact ⟨keyword, text, name, hsub hname, hkind, rfl⟩

lemma DeclaredNames.declaresFrom {keyword} (h : DeclaredNames keyword ts trees) :
    ∀ t ∈ trees, t.DeclaresFrom ts := by
  induction h with
  | last hname => exact forall_mem_singleton.mpr ⟨_, _, _, .head _, hname, rfl⟩
  | more hname hcomma hrest ih =>
    refine forall_mem_cons.mpr ⟨⟨_, _, _, .head _, hname, rfl⟩, fun t ht => (ih t ht).mono ?_⟩
    exact fun x hx => .tail _ (.tail _ hx)

/-- The declarations of a text declare names of it. -/
lemma Declarations.declaresFrom (h : Declarations ts trees) : ∀ t ∈ trees, t.DeclaresFrom ts := by
  induction h with
  | nil => exact forall_mem_nil _
  | cons hkey hnames hstop hrest ih =>
    refine forall_mem_append.mpr ⟨fun t ht => (hnames.declaresFrom t ht).mono ?_, fun t ht =>
      (ih t ht).mono ?_⟩
    · intro x hx
      simp [hx]
    · intro x hx
      simp [hx]

/-- Trees that are declarations hold themselves only. -/
lemma Tree.declarationsAll_append {ds} (hds : ∀ t ∈ ds, t.ShapedAs [.declaration]) :
    declarationsAll (ds ++ trees) = ds ++ declarationsAll trees := by
  induction ds with
  | nil => rfl
  | cons t ds ih =>
    obtain ⟨ht, hrest⟩ := forall_mem_cons.mp hds
    obtain ⟨_, _, _, _, _, hkind, rfl⟩ := ht.isA.exists_eq_node
    rw [cons_append, declarationsAll, ih hrest, declarations, if_pos (mem_singleton.mp hkind)]
    rfl

/-- The declarations of a program are those that it begins with. -/
lemma Tree.declarations_program {ds block} (hds : ∀ t ∈ ds, t.ShapedAs [.declaration])
    (hblock : block.ShapedAs [.block]) (start : Token) :
    (branch .program start (ds ++ [block])).declarations = ds := by
  have hnone : block.declarations = [] :=
    hblock.shaped.declarations_eq_nil (hblock.isA.mono (by decide))
  rw [branch, declarations, if_neg (by decide), declarationsAll_append hds, declarationsAll, hnone]
  exact append_nil ds

/-- A shaped program is made of declarations and a block. -/
lemma Tree.ShapedAs.eq_program (h : t.ShapedAs [.program]) : ∃ start ds block,
    t = .branch .program start (ds ++ [block]) ∧ (∀ d ∈ ds, d.ShapedAs [.declaration]) ∧
    block.ShapedAs [.block] := by
  obtain ⟨hshaped, hkind⟩ := h
  cases hshaped with
  | node hfits hchildren =>
    obtain rfl := mem_singleton.mp hkind
    cases hfits with
    | program hds hblock =>
      obtain ⟨hshaped, hlast⟩ := forall_mem_append.mp hchildren
      exact ⟨_, _, _, rfl, fun d hd => ⟨hshaped d hd, hds d hd⟩, hlast _ (.head _), hblock⟩

/-- The tokens of a source text are the program of its tree. -/
lemma programText_of_source {settings file source}
    (h : Tree.ofSource settings file source = .ok t) :
    ProgramText .nearest settings (Token.scan settings file source) t := by
  obtain ⟨body, eof, hscan, heof, hbody⟩ := Token.scan_eq settings file source
  rw [Tree.ofSource, hscan] at h
  rw [hscan]
  exact programText_of_parse (fun t ht => (hbody t ht).elim fun _ hword =>
    hword.ne_endOfFile) heof h

/-- The declarations in the tree of a source text declare names among its tokens. -/
lemma declaresFrom_of_source {settings file source}
    (h : Tree.ofSource settings file source = .ok t) :
    ∀ d ∈ t.declarations, d.DeclaresFrom (Token.scan settings file source) := by
  have htext := programText_of_source h
  generalize Token.scan settings file source = tokens at htext
  cases htext with
  | @program ts declarations ss statements _ start hdecls hstmts =>
    rw [Tree.declarations_program hdecls.shapedAs (Tree.shapedAs_block hstmts.shapedAs start)]
    exact fun d hd => (hdecls.declaresFrom d hd).mono (by simp)

end ThreeAddress
