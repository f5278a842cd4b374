import ThreeAddress.Proofs.Typing.Statement

/-!
# The type checker and lowering accept the same programs

Of a program that can be read, the type checker finds no errors exactly when code can be generated
for it.

Both go through the declarations first. The names of a source text begin with a letter, so that a
declaration fails only where the checker reports that the name has another type already: the
declarations must be `Consistent`. After them both have the same scope, and there they agree on the
statements.
-/

namespace ThreeAddress

open List Lowering

variable {t block : Tree} {ds : List Tree} {s : LowerState}

/-! ## Declarations -/

/-- No declaration gives a name another type than it has already, in the scope `Γ` or by a
declaration before. -/
def Consistent : Scope → List Tree → Prop
  | _, [] => True
  | Γ, t :: ts =>
    (∀ name type, t.declared? = some (name, type) → ∀ before, Γ name = some before →
      before = type) ∧
      Consistent (fun x => (Γ x).or (declaredScope [t] x)) ts

/-- A tree declares a name that can be declared. -/
def Tree.DeclaresName (t : Tree) : Prop :=
  ∃ keyword text token name, SymbolTable.isValidName name = true ∧
    t = .node .declaration keyword text [] [.leaf .identifier token name]

/-- The names of scanned tokens can be declared. -/
lemma Tree.DeclaresFrom.declaresName {settings file source} {t : Tree}
    (h : t.DeclaresFrom (Token.scan settings file source)) : t.DeclaresName := by
  obtain ⟨keyword, text, name, hname, hkind, rfl⟩ := h
  exact ⟨keyword, text, name, name.value, (Token.isName_of_mem_scan hname hkind).isValidName, rfl⟩

/-- Lowering takes a declaration unless the name has another type already. -/
lemma collect_yields_iff (h : t.DeclaresName) : (∃ u code s', (collect t).Yields s u code s') ↔
    ∀ name type, t.declared? = some (name, type) → ∀ before, s.scope name = some before →
    before = type := by
  obtain ⟨keyword, text, token, name, hname, rfl⟩ := h
  have hdeclared : (Tree.node .declaration keyword text []
      [.leaf .identifier token name]).declared? = some (name, .ofKeyword text) := rfl
  have hdecl : (∃ x, (s.symbols.declare name text token).1 = .ok x) ↔ _ :=
    SymbolTable.exists_declare_eq_ok_iff.trans (and_iff_right hname)
  simp only [hdeclared, Option.some.injEq, Prod.mk.injEq, and_imp, forall_eq',
    forall_apply_eq_imp_iff]
  rw [LoweringState.scope, ← hdecl]
  unfold Tree.leaf collect
  rcases hresult : s.symbols.declare name text token with ⟨declared, after⟩
  simp only [yields_symbols_bind, hresult, yields_setSymbols_bind]
  cases declared with
  | error fault => simp
  | ok x =>
    dsimp only
    split <;> simp

/-- Lowering takes declarations that are consistent. -/
lemma collectAll_yields_iff (h : ∀ t ∈ ds, t.DeclaresName) :
    (∃ u code s', (collectAll ds).Yields s u code s') ↔ Consistent s.scope ds := by
  induction ds generalizing s with
  | nil => simp [collectAll, Consistent]
  | cons t ds ih =>
    obtain ⟨ht, hds⟩ := forall_mem_cons.mp h
    rw [Consistent, ← collect_yields_iff ht]
    simp only [collectAll, yields_bind]
    constructor
    · rintro ⟨u, _, s', u1, c1, s1, c2, hcollect, hrest, rfl⟩
      obtain ⟨-, -, hscope⟩ := collect_follows hcollect
      refine ⟨⟨u1, c1, s1, hcollect⟩, ?_⟩
      rw [← funext hscope]
      exact (ih hds).mp ⟨u, c2, s', hrest⟩
    · rintro ⟨⟨u1, c1, s1, hcollect⟩, hconsistent⟩
      obtain ⟨-, -, hscope⟩ := collect_follows hcollect
      rw [← funext hscope] at hconsistent
      obtain ⟨u, c2, s', hrest⟩ := (ih hds).mpr hconsistent
      exact ⟨u, c1 ++ c2, s', u1, c1, s1, c2, hcollect, hrest, rfl⟩

namespace Typing

variable {declared : Declared}

/-- The checker adds a name to the scope, and reports it when it has another type already. -/
lemma declare_eq (declared : Declared) (h : t.ShapedAs [.declaration]) :
    ∃ after errors, declare declared t = some (after, errors) ∧
    (scopeOf after = fun x => (scopeOf declared x).or (declaredScope [t] x)) ∧
      (errors = [] ↔ ∀ name type, t.declared? = some (name, type) →
        ∀ before, scopeOf declared name = some before → before = type) := by
  obtain ⟨keyword, text, token, name, rfl⟩ := h.shaped.eq_declaration h.isA
  have hdeclared : (Tree.node .declaration keyword text []
      [.leaf .identifier token name]).declared? = some (name, .ofKeyword text) := rfl
  simp only [hdeclared, declaredScope_singleton hdeclared, Option.some.injEq,
    Prod.mk.injEq, and_imp, forall_eq', forall_apply_eq_imp_iff]
  unfold Tree.leaf declare
  dsimp only
  cases hlookup : declared.lookup name with
  | some before =>
    refine ⟨_, _, rfl, ?_, ?_⟩
    · funext x
      split
      · rename_i hx
        simp [scopeOf, hx, hlookup]
      · simp
    · simp [scopeOf, hlookup, errorIf]
  | none =>
    refine ⟨_, _, rfl, ?_, ?_⟩
    · funext x
      rw [scopeOf, lookup_append, lookup_cons]
      by_cases hx : x = name
      · simp [scopeOf, hx]
      · simp [scopeOf, hx, beq_eq_false_iff_ne.mpr hx]
    · simp [scopeOf, hlookup]

/-- The checker adds the names of declarations to the scope, and has no errors when they are
consistent.
-/
lemma declareAll_eq (declared : Declared) (h : ∀ t ∈ ds, t.ShapedAs [.declaration])
    (hblock : isDeclaration? block = some false) :
    ∃ after errors, declareAll declared (ds ++ [block]) = some (after, errors) ∧
      (scopeOf after = fun x => (scopeOf declared x).or (declaredScope ds x)) ∧
        (errors = [] ↔ Consistent (scopeOf declared) ds) := by
  induction ds generalizing declared with
  | nil =>
    refine ⟨declared, [], by simp [declareAll, hblock], ?_, by simp [Consistent]⟩
    funext x
    simp [declaredScope]
  | cons t ds ih =>
    obtain ⟨ht, hds⟩ := forall_mem_cons.mp h
    obtain ⟨after, errors, hdecl, hscope, herrors⟩ := declare_eq declared ht
    obtain ⟨last, more, hrest, hlast, hmore⟩ := ih after hds
    have hdeclaration : isDeclaration? t = some true := by
      obtain ⟨keyword, text, token, name, rfl⟩ := ht.shaped.eq_declaration ht.isA
      rfl
    refine ⟨last, errors ++ more, ?_, ?_, ?_⟩
    · rw [cons_append, declareAll, hdeclaration]
      simp [hdecl, hrest]
    · funext x
      have hsplit : declaredScope (t :: ds) x = (declaredScope [t] x).or (declaredScope ds x) :=
        declaredScope_append [t] ds x
      rw [hlast, hscope, hsplit]
      exact Option.or_assoc
    · rw [append_eq_nil_iff, herrors, hmore, Consistent, hscope]

/-- Beside the declarations, the errors of a program are those of its block. -/
lemma topErrors_eq {errors} (h : ∀ t ∈ ds, t.ShapedAs [.declaration])
    (hblock : isDeclaration? block = some false)
    (herrors : statementErrors declared block = some errors) :
    topErrors declared (ds ++ [block]) = some errors := by
  induction ds with
  | nil => simp [topErrors, hblock, herrors]
  | cons t ds ih =>
    obtain ⟨ht, hds⟩ := forall_mem_cons.mp h
    obtain ⟨keyword, text, token, name, rfl⟩ := ht.shaped.eq_declaration ht.isA
    rw [cons_append, topErrors]
    simpa [isDeclaration?] using ih hds

end Typing

/-! ## Programs -/

section Programs

variable {settings : Settings} {root : Tree}

/-- Declarations emit no code, so that the statements of a program are those of its block. -/
lemma accounts_statements {Γ E P} (h : ∀ t ∈ ds, t.ShapedAs [.declaration])
    (hblock : Accounts Γ E block.identifiers (statement settings block) P) :
    Accounts Γ E (Tree.identifiersAll (ds ++ [block])) (statements settings (ds ++ [block])) P := by
  induction ds with
  | nil =>
    rw [nil_append, Tree.identifiersAll_singleton]
    exact hblock.leave fun _ _ => accounts_pure trivial
  | cons t ds ih =>
    obtain ⟨ht, hds⟩ := forall_mem_cons.mp h
    obtain ⟨keyword, text, token, name, rfl⟩ := ht.shaped.eq_declaration ht.isA
    have hdeclaration : Accounts Γ E []
        (statement settings (.node .declaration keyword text [] [.leaf .identifier token name]))
        True := by
      exact accounts_pure trivial
    exact hdeclaration.skip fun _ _ => ih hds

/-- The checker has a result for a shaped program, without errors when the declarations are
consistent and the statements can be lowered in their scope. -/
lemma Typing.check_eq (settings : Settings) (h : root.ShapedAs [.program]) :
    ∃ errors P, check root = some errors ∧
    Accounts (declaredScope root.declarations) root.Blamed root.identifiers
    (statement settings root) P ∧
      (errors = [] ↔ Consistent (fun _ => none) root.declarations ∧ P) := by
  obtain ⟨start, ds, block, rfl, hds, hblock⟩ := h.eq_program
  have hlast : isDeclaration? block = some false := by
    obtain ⟨_, _, _, _, _, hkind, rfl⟩ := hblock.isA.exists_eq_node
    obtain rfl := mem_singleton.mp hkind
    rfl
  obtain ⟨declared, errors, hdecl, hscope, hconsistent⟩ := declareAll_eq [] hds hlast
  have hcontains : (Tree.branch .program start (ds ++ [block])).Contains block :=
    .child .self (mem_append_right _ (.head _))
  obtain ⟨more, hmore, hlowers⟩ :=
    (hblock.shaped.matches_part hcontains).1 (hblock.isA.mono (by decide))
  have hsame : scopeOf declared = declaredScope ds := hscope
  rw [Tree.declarations_program hds hblock]
  refine ⟨errors ++ more, more = [], ?_, hsame ▸ accounts_statements hds hlowers, ?_⟩
  · rw [Tree.branch, check, hdecl]
    simp [topErrors_eq hds hlast hmore]
  · rw [append_eq_nil_iff, hconsistent]
    rfl

/-- The declarations of a program give the scope of its statements. -/
lemma scope_of_collectAll {u code s'}
    (h : (collectAll ds).Yields { s with symbols := {} } u code s') :
    s'.scope = declaredScope ds :=
  funext (collectAll_follows h).2.2

/-- A program can be lowered when its declarations are consistent and its statements can be lowered
in their scope. -/
lemma lower_yields_iff {E names P} (h : root.ShapedAs [.program])
    (hnames : ∀ d ∈ root.declarations, d.DeclaresName)
    (hbody : Accounts (declaredScope root.declarations) E names (statement settings root) P) :
    (∃ u code s', (lower settings root).Yields s u code s') ↔
    Consistent (fun _ => none) root.declarations ∧ P := by
  have hcollect :
      (∃ u code s', (collectAll root.declarations).Yields { s with symbols := {} } u code s') ↔
        Consistent (fun _ => none) root.declarations := collectAll_yields_iff hnames
  obtain ⟨_, _, _, _, _, hkind, rfl⟩ := h.isA.exists_eq_node
  obtain rfl := mem_singleton.mp hkind
  rw [← hcollect]
  simp only [lower, yields_setSymbols_bind, yields_bind (x := collectAll _)]
  constructor
  · rintro ⟨u, _, s', u1, c1, s1, c2, hcollected, hrest, rfl⟩
    obtain ⟨u2, c2, s2, _, hstmt, -⟩ := yields_bind.mp hrest
    exact ⟨⟨u1, c1, s1, hcollected⟩, (hbody.iff (scope_of_collectAll hcollected)).mp
      ⟨u2, c2, s2, hstmt⟩⟩
  · rintro ⟨⟨u1, c1, s1, hcollected⟩, hP⟩
    obtain ⟨u2, c2, s2, hstmt⟩ := (hbody.iff (scope_of_collectAll hcollected)).mpr hP
    refine ⟨(), _, s2, u1, c1, s1, _, hcollected,
      yields_bind.mpr ⟨u2, c2, s2, [], hstmt, ?_, rfl⟩, rfl⟩
    exact yields_symbols_bind.mpr ⟨_, noteUnused_eq _ _⟩

/-- On a shaped program whose names can be declared the type checker and code generation agree. -/
lemma Tree.ShapedAs.check_iff (h : root.ShapedAs [.program])
    (hnames : ∀ d ∈ root.declarations, d.DeclaresName) (settings : Settings) (state : LowerState) :
    ∃ errors, Typing.check root = some errors ∧
      (errors = [] ↔ ∃ program, (generate settings state root).outcome = .ok program) := by
  obtain ⟨errors, P, hcheck, hbody, hiff⟩ := Typing.check_eq settings h
  refine ⟨errors, hcheck, ?_⟩
  rw [hiff, ← lower_yields_iff (s := state) h hnames hbody]
  constructor
  · rintro ⟨u, code, s', hyields⟩
    obtain ⟨program, hprog, -⟩ := generate_of_ok (yields_iff.mp hyields).1
    exact ⟨program, hprog⟩
  · rintro ⟨program, hprog⟩
    exact ⟨(), _, _, yields_of_outcome (lower_of_generate hprog).1⟩

/-- The type checker has a result for every program that can be read, and finds no errors exactly
when code can be generated for the program, from whatever state of the names and symbols. -/
theorem check_accepts_generated (settings : Settings) (file : Int)
    (source : List Char) (tree : Tree) (h : Tree.ofSource settings file source = .ok tree)
    (state : LowerState) :
    ∃ errors, Typing.check tree = some errors ∧
      (errors = [] ↔ ∃ program, (generate settings state tree).outcome = .ok program) := by
  have hshaped : tree.ShapedAs [.program] := shapedAs_of_parse h
  exact hshaped.check_iff (fun d hd => (declaresFrom_of_source h d hd).declaresName) settings state

/-- A source text with a declaration, a loop and a `switch`. -/
def typedSource : List Char :=
  "num n; bool b; while (n < 3 || b) switch (n) \x7b case 2: b = true; default: n = n + 1; \x7d".toList

/-- The checker finds no errors in the text, and so code is generated for it. -/
theorem check_typedSource : ∃ tree program, Tree.ofSource {} 0 typedSource = .ok tree ∧
    Typing.check tree = some [] ∧ (generate {} {} tree).outcome = .ok program := by
  have hchecked : (Tree.ofSource {} 0 typedSource).toOption.map Typing.check = some (some []) := by
    decide +kernel
  obtain ⟨tree, hread, hcheck⟩ := ok_of_toOption_map hchecked
  obtain ⟨errors, herrors, hiff⟩ := check_accepts_generated {} 0 typedSource tree hread {}
  obtain ⟨program, hprogram⟩ := hiff.mp (Option.some.inj (herrors.symm.trans hcheck))
  exact ⟨tree, program, hread, hcheck, hprogram⟩

end Programs

end ThreeAddress
