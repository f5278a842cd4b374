import ThreeAddress.Proofs.Typing.Agreement

/-!
# Why a parsed tree is refused

A parsed tree is shaped, so that the reasons for which its statements are refused are those listed
by `Tree.Blamed`. Only for the declarations is a state needed: a symbol that is in the table comes
from a declaration that has been met.
-/

namespace ThreeAddress

open List Lowering

/-! ## Declarations -/

section Declarations

variable {root : Tree}

/-- The declarations of a shaped program are parts of it. -/
lemma Tree.ShapedAs.contains_declaration (h : root.ShapedAs [.program]) :
    ∀ d ∈ root.declarations, root.Contains d ∧ d.ShapedAs [.declaration] := by
  obtain ⟨start, ds, block, rfl, hds, hblock⟩ := h.eq_program
  rw [Tree.declarations_program hds hblock]
  exact fun d hd => ⟨.child .self (mem_append_left _ hd), hds d hd⟩

/-- The symbols of a table are declared in a tree. -/
def Tree.Knows (root : Tree) (t : SymbolTable) : Prop :=
  ∀ x ∈ t.order, root.Declares x.token x.name x.type

/-- A declaration adds a symbol that is declared in the tree, or fails for one of the reasons
listed. -/
lemma Tree.Knows.declare {t token name text} (ht : root.Knows t)
    (hdeclares : root.Declares token name (.ofKeyword text)) :
    root.Knows (t.declare name text token).2 ∧
      ∀ fault, (t.declare name text token).1 = .error fault → root.Blamed ⟨token, fault⟩ := by
  have hdeclared := SymbolTable.declared t name text token
  generalize t.declare name text token = r at hdeclared
  cases hdeclared with
  | added => exact ⟨forall_mem_append.mpr ⟨ht, forall_mem_singleton.mpr hdeclares⟩, nofun⟩
  | repeated => exact ⟨ht, nofun⟩
  | @refused x _ hfind htype =>
    obtain ⟨hx, rfl⟩ := SymbolTable.find_eq_some_iff.mp hfind
    refine ⟨ht, fun fault hfault => ?_⟩
    cases hfault
    exact .redeclared hdeclares (ht x hx) fun heq => htype heq.symm
  | invalid hname =>
    refine ⟨ht, fun fault hfault => ?_⟩
    cases hfault
    rw [Bool.eq_false_iff, Ne, SymbolTable.isValidName_iff, ← not_or, not_not] at hname
    exact .invalidName hdeclares hname

/-- Collecting a declaration fails for one of the reasons listed, or keeps the symbols known. -/
lemma Tree.Knows.collect {s : LowerState} {keyword token text name d} (hs : root.Knows s.symbols)
    (hroot : root.Contains d)
    (hd : d = .node .declaration keyword text [] [.leaf .identifier token name]) :
    (∀ e, (collect d s).outcome = .error (.fault e) → root.Blamed e) ∧
    root.Knows (collect d s).state.symbols := by
  subst hd
  obtain ⟨hknows, hfailed⟩ := hs.declare ⟨keyword, text, rfl, hroot⟩
  simp only [Tree.leaf, ThreeAddress.collect, symbols_bind]
  rcases hdecl : s.symbols.declare name text token with ⟨declared, after⟩
  rw [hdecl] at hknows hfailed
  cases declared with
  | error fault =>
    refine ⟨fun e he => ?_, hknows⟩
    cases he
    exact hfailed fault rfl
  | ok x =>
    dsimp only
    split <;> exact ⟨fun _ h => (by cases h), hknows⟩

/-- Collecting declarations fails for one of the reasons listed. -/
lemma blamed_of_collectAll {ds} {s : LowerState} {e}
    (hds : ∀ d ∈ ds, root.Contains d ∧ d.ShapedAs [.declaration]) (hs : root.Knows s.symbols)
    (he : (collectAll ds s).outcome = .error (.fault e)) : root.Blamed e := by
  induction ds generalizing s with
  | nil => cases he
  | cons d ds ih =>
    obtain ⟨⟨hd, hshaped⟩, hrest⟩ := forall_mem_cons.mp hds
    obtain ⟨keyword, text, token, name, rfl⟩ := hshaped.shaped.eq_declaration hshaped.isA
    obtain ⟨hblamed, hknows⟩ := hs.collect hd rfl
    rcases bind_eq_fault he with he | ⟨_, -, he⟩
    · exact hblamed e he
    · exact ih hrest hknows he

end Declarations

/-! ## Programs -/

section Programs

variable {root : Tree} {settings : Settings} {state : LowerState}

/-- A shaped program is called malformed only for the reasons listed. -/
lemma blamed_of_lower {e} (h : root.ShapedAs [.program])
    (he : (lower settings root state).outcome = .error (.fault e))
    (hmalformed : e.fault.kind = .malformedTree) : root.Blamed e := by
  obtain ⟨_, _, -, hstmt, -⟩ := Typing.check_eq settings h
  have hdecls := h.contains_declaration
  obtain ⟨_, _, _, _, _, hkind, rfl⟩ := h.isA.exists_eq_node
  obtain rfl := mem_singleton.mp hkind
  -- The symbols are replaced at once, so that at first none is known.
  rcases bind_eq_fault he with he | ⟨_, ⟨_, hset⟩, he⟩
  · cases he
  cases hset
  rcases bind_eq_fault he with he | ⟨_, hcollect, he⟩
  · refine blamed_of_collectAll hdecls ?_ he
    exact forall_mem_nil _
  rcases bind_eq_fault he with he | ⟨_, -, he⟩
  · exact hstmt.blames (scope_of_collectAll hcollect) he hmalformed
  · rw [symbols_bind, noteUnused_eq] at he
    cases he

/-- Generating fails where lowering fails. -/
lemma lower_of_generate_error {error} (h : (generate settings state root).outcome = .error error) :
    ∃ stop, error = .stopped stop ∧ (lower settings root state).outcome = .error stop := by
  cases hlower : (lower settings root state).outcome with
  | ok u =>
    rw [generate_eq_of_ok hlower] at h
    cases h
  | error stop =>
    rw [generate, hlower] at h
    exact ⟨stop, (Except.error.inj h).symm, rfl⟩

end Programs

/-- Parsed trees have the shape that later passes rely on. Whatever tokens have been parsed, the
tree is a program in which no node is absent and every node has the children and operators that
belong to its kind; the type checker has a result for it; and generating a program from it, in any
settings and from any state, fails with a fault, which calls the tree malformed only because of a
name that is empty or belongs to the compiler, a name declared with two types, a number or the value
of a case that is no number of 64 bits, or a default clause after another one. -/
theorem parsed_tree_is_shaped (settings : Settings) (tokens : List Token) (tree : Tree)
    (h : Tree.parse settings tokens = .ok tree) :
    tree.ShapedAs [.program] ∧ tree.Whole ∧ (∃ errors, Typing.check tree = some errors) ∧
    ∀ settings' state error, (generate settings' state tree).outcome = .error error →
      ∃ e, error = .stopped (.fault e) ∧ (e.fault.kind = .malformedTree → tree.Blamed e) := by
  have hshaped := shapedAs_of_parse h
  have hwhole := hshaped.shaped.whole
  obtain ⟨errors, -, hchecked, -⟩ := Typing.check_eq settings hshaped
  refine ⟨hshaped, hwhole, ⟨errors, hchecked⟩, fun settings' state error herror => ?_⟩
  obtain ⟨stop, rfl, hstop⟩ := lower_of_generate_error herror
  cases stop with
  | incomplete =>
    exact absurd hstop (lower_of_whole settings' state (fun _ => True) hwhole fun _ _ => trivial).1
  | fault e => exact ⟨e, rfl, blamed_of_lower hshaped hstop⟩

/-- The tokens of `switch (1) \x7b default: default: \x7d`, without an end of the file. -/
def twoDefaults : List Token :=
  [{ kind := .kwSwitch }, { kind := .leftParen }, { kind := .number, value := "1" },
    { kind := .rightParen }, { kind := .leftBrace }, { kind := .kwDefault }, { kind := .colon },
    { kind := .kwDefault, column := 26 },
    { kind := .colon }, { kind := .rightBrace }]

/-- They are parsed and checked, and the second default clause is what is wrong with the tree. -/
theorem twoDefaults_blamed : ∃ tree, Tree.parse {} twoDefaults = .ok tree ∧ tree.Shaped ∧
    (∃ errors, Typing.check tree = some errors) ∧
    (generate {} {} tree).outcome =
      .error (.stopped (.fault ⟨{ kind := .kwDefault, column := 26 }, .secondDefault⟩)) ∧
    tree.Blamed ⟨{ kind := .kwDefault, column := 26 }, .secondDefault⟩ := by
  have hlowered : (Tree.parse {} twoDefaults).toOption.map
      (fun tree => (lower {} tree {}).outcome) =
      some (.error (.fault ⟨{ kind := .kwDefault, column := 26 }, .secondDefault⟩)) := by
    decide +kernel
  obtain ⟨tree, hparse, hlower⟩ := ok_of_toOption_map hlowered
  have herror : (generate {} {} tree).outcome =
      .error (.stopped (.fault ⟨{ kind := .kwDefault, column := 26 }, .secondDefault⟩)) := by
    simp only [generate, hlower]
  obtain ⟨hshaped, -, hchecked, hblamed⟩ := parsed_tree_is_shaped {} twoDefaults tree hparse
  obtain ⟨e, he, hmalformed⟩ := hblamed {} {} _ herror
  obtain rfl := Stop.fault.inj (GenerateError.stopped.inj he)
  exact ⟨tree, hparse, hshaped.shaped, hchecked, herror, hmalformed rfl⟩

end ThreeAddress
