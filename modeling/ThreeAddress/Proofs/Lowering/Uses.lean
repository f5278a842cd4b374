import ThreeAddress.Proofs.SymbolTable
import ThreeAddress.Proofs.Typing.Agreement

/-!
# The uses of variables

Lowering counts a use of a variable at every occurrence of its name (`Lowering.Accounts`). The
symbols of a program are the first declarations of its names, in their order (`Collected`), and so
each has as many uses as the text has occurrences of its name.
-/

namespace ThreeAddress

open List Lowering

variable {s s' : LowerState} {code : List Instr} {notes : List Note} {u : Unit}

/-! ## Declarations -/

section Declarations

/-- The symbol of a declaration, before it is used. -/
def Tree.declaredSymbol? : Tree → Option Symbol
  | .node _ _ keyword _ [.node .identifier token name _ _] =>
      some { name, type := .ofKeyword keyword, token }
  | _ => none

/-- The symbols of the declarations of a tree, those of repeated declarations included. -/
def Tree.declaredSymbols (root : Tree) : List Symbol := root.declarations.filterMap declaredSymbol?

/-- The symbols of a table are the first ones of each name among those declared, in their order. -/
structure Collected (declared : List Symbol) (t : SymbolTable) : Prop where
  /-- Each name is there once. -/
  names : t.order.map Symbol.name = (declared.map Symbol.name).eraseDups
  /-- Each symbol is that of the first declaration of its name. -/
  first : ∀ x ∈ t.order, declared.find? (·.name == x.name) = some x

variable {declared : List Symbol} {t : SymbolTable}

lemma Collected.mem_iff (h : Collected declared t) {name} :
    name ∈ t.order.map Symbol.name ↔ name ∈ declared.map Symbol.name := by
  rw [h.names, mem_eraseDups]

/-- One more declaration adds its symbol unless the name is in the table. -/
lemma Collected.declare (h : Collected declared t) {name keyword token x after}
    (hdecl : t.declare name keyword token = (.ok x, after)) :
    Collected (declared ++ [{ name, type := .ofKeyword keyword, token }]) after := by
  refine ⟨by rw [map_append]; exact SymbolTable.names_declare hdecl h.names, ?_⟩
  obtain ⟨-, -, horder⟩ := SymbolTable.declare_eq_ok hdecl
  rw [horder]
  have hbefore (ds : List Symbol) : ∀ y ∈ t.order, (declared ++ ds).find? (·.name == y.name) =
    some y := fun y hy => by
    rw [find?_append, h.first y hy, Option.some_or]
  split
  · exact hbefore _
  · rename_i hhas
    have hmem : name ∉ declared.map Symbol.name := by rwa [← h.mem_iff, ← SymbolTable.has_iff_mem]
    have hnone : declared.find? (·.name == name) = none := by simpa using hmem
    refine forall_mem_append.mpr ⟨hbefore _, forall_mem_singleton.mpr ?_⟩
    rw [find?_append, hnone]
    simp

/-- Collecting a declaration adds its symbol, and a note about a repeated declaration at most. -/
lemma Collected.collect (h : Collected declared s.symbols) {d}
    (hd : collect d s = ⟨.ok u, code, notes, s'⟩) :
    ∃ x, d.declaredSymbol? = some x ∧ Collected (declared ++ [x]) s'.symbols ∧
    ∀ n ∈ notes, n.warning ≠ .unused := by
  unfold ThreeAddress.collect at hd
  split at hd
  · rename_i kind declToken keyword ops token name nameOps nameChildren
    refine ⟨_, rfl, ?_⟩
    rw [symbols_bind] at hd
    rcases hdecl : s.symbols.declare name keyword token with ⟨result, after⟩
    rw [hdecl] at hd
    cases result with
    | error fault => cases hd
    | ok x =>
      have hafter := h.declare hdecl
      dsimp only at hd
      split at hd
      · cases hd
        exact ⟨hafter, forall_mem_singleton.mpr (by simp [Note.warning])⟩
      · cases hd
        exact ⟨hafter, forall_mem_nil _⟩
  · cases hd
  · cases hd

/-- Collecting declarations adds their symbols. -/
lemma Collected.collectAll (h : Collected declared s.symbols) {ds}
    (hds : collectAll ds s = ⟨.ok u, code, notes, s'⟩) :
    Collected (declared ++ ds.filterMap Tree.declaredSymbol?) s'.symbols ∧
    ∀ n ∈ notes, n.warning ≠ .unused := by
  induction ds generalizing declared s code notes with
  | nil =>
    cases hds
    rw [filterMap_nil, append_nil]
    exact ⟨h, forall_mem_nil _⟩
  | cons d ds ih =>
    obtain ⟨_, c1, n1, s1, c2, n2, hfirst, hrest, rfl, rfl⟩ := bind_eq_ok_iff.mp hds
    obtain ⟨x, hx, hcollected, hn1⟩ := h.collect hfirst
    obtain ⟨hall, hn2⟩ := ih hcollected hrest
    rw [filterMap_cons_some hx, append_cons]
    exact ⟨hall, forall_mem_append.mpr ⟨hn1, hn2⟩⟩

/-- The symbols in a table have not been used when all declarations are collected. -/
lemma Collected.uses_eq_zero {root : Tree} (h : Collected root.declaredSymbols t) {x : Symbol}
    (hx : x ∈ t.order) :
    x.uses = 0 := by
  obtain ⟨d, -, hd⟩ := mem_filterMap.mp (mem_of_find?_eq_some (h.first x hx))
  unfold Tree.declaredSymbol? at hd
  split at hd
  · rw [← Option.some.inj hd]
  · cases hd

end Declarations

/-! ## Programs -/

namespace Note

/-- The notes whose warnings are switched on. -/
def issued (settings : Settings) (notes : List Note) : List Note := notes.filter fun n =>
    settings.warning n.warning

/-- What is reported are the notes whose warnings are switched on. -/
lemma report_eq_issued (settings : Settings) (files : List SourceFile) (notes : List Note) :
    report settings files notes = String.join ((issued settings notes).map fun n =>
      Diagnostic.render files .warning n.token (n.message ++ " [-W" ++ n.warning.name ++ "]")) := by
  unfold report issued
  induction notes with
  | nil => rfl
  | cons n notes ih =>
    rw [map_cons, filter_cons, String.join_cons, ih, Diagnostic.warning]
    split
    · rw [map_cons, String.join_cons]
    · rw [String.empty_append]

/-- The notes of a warning are issued if the warning is switched on. -/
lemma filter_issued (settings : Settings) (notes : List Note) (w : Warning) :
    (issued settings notes).filter (·.warning = w) =
      if settings.warning w then notes.filter (·.warning = w) else [] := by
  rw [issued, filter_filter]
  split
  · rename_i hon
    refine filter_congr fun n _ => ?_
    by_cases hn : n.warning = w
    · simp [hn, hon]
    · simp [hn]
  · rename_i hoff
    refine filter_eq_nil_iff.mpr fun n _ => ?_
    by_cases hn : n.warning = w
    · simp [hn, hoff]
    · simp [hn]

end Note

namespace SymbolTable

/-- Uses of several names are counted at each symbol. -/
lemma order_foldl_use (names : List String) (t : SymbolTable) :
    (names.foldl use t).order = t.order.map fun x =>
    { x with uses := x.uses + names.count x.name } := by
  induction names generalizing t with
  | nil => simp
  | cons name names ih =>
    rw [foldl_cons, ih, order_use, map_map]
    refine map_congr_left fun x _ => ?_
    simp only [Function.comp_apply, count_cons, beq_iff_eq]
    by_cases hname : x.name = name
    · simp only [if_pos hname, if_pos hname.symm]
      congr 1
      omega
    · simp only [if_neg hname, if_neg (Ne.symm hname), Nat.add_zero]

end SymbolTable

section Programs

variable {settings : Settings} {root : Tree}

/-- The symbols of a shaped program are the first declarations of its names, with the uses that the
text has, and those without uses get a note each. -/
lemma symbols_of_lower (h : root.ShapedAs [.program])
    (hlower : lower settings root s = ⟨.ok u, code, notes, s'⟩) :
    ∃ t, Collected root.declaredSymbols t ∧
      s'.symbols.order = t.order.map (fun x => { x with uses := root.identifiers.count x.name }) ∧
      notes.filter (·.warning = .unused) = (s'.symbols.order.filter fun x =>
        x.uses = 0).map Note.unused := by
  obtain ⟨_, _, -, hcounts, -⟩ := Typing.check_eq settings h
  obtain ⟨_, token, value, ops, children, hkind, rfl⟩ := h.isA.exists_eq_node
  obtain rfl := mem_singleton.mp hkind
  obtain ⟨_, _, _, _, _, _, hset, hprog, -, rfl⟩ := bind_eq_ok_iff.mp hlower
  cases hset
  obtain ⟨_, _, n1, s1, _, _, hcollect, hbody, -, rfl⟩ := bind_eq_ok_iff.mp hprog
  obtain ⟨_, _, n2, s2, _, _, hstmt, hunused, -, rfl⟩ := bind_eq_ok_iff.mp hbody
  rw [symbols_bind, noteUnused_eq] at hunused
  cases hunused
  have hempty : Collected [] {} := ⟨rfl, forall_mem_nil _⟩
  obtain ⟨hall, hn1⟩ := hempty.collectAll hcollect
  have hcollected : Collected (Tree.declaredSymbols (.node .program token value ops children))
      s1.symbols := hall
  obtain ⟨-, hsymbols, hn2⟩ := hcounts.post (scope_of_collectAll ⟨n1, hcollect⟩) hstmt
  refine ⟨s1.symbols, hcollected, ?_, ?_⟩
  · rw [hsymbols, SymbolTable.order_foldl_use]
    refine map_congr_left fun x hx => ?_
    rw [hcollected.uses_eq_zero hx, Nat.zero_add]
  · have hnone : ∀ {ns : List Note}, (∀ n ∈ ns, n.warning ≠ .unused) →
        ns.filter (·.warning = .unused) = [] :=
      fun hns => filter_eq_nil_iff.mpr fun n hn => by simpa using hns n hn
    rw [nil_append, filter_append, filter_append, hnone hn1, hnone hn2, nil_append,
      nil_append, filter_eq_self]
    intro n hn
    obtain ⟨x, -, rfl⟩ := mem_map.mp hn
    rfl

end Programs

/-- Uses are counted as the text has them. If a source text can be read and lowered, in any settings
and from any state, its symbols are the declared names in the order of their first declarations,
each name once; a symbol has the type and the place of the first declaration of its name, and as
many uses as the name has occurrences outside of declarations. The warnings about unused variables
that are issued are none if the warning is switched off, and else one for each name without such an
occurrence, at its first declaration. -/
theorem uses_are_occurrences (settings settings' : Settings) (file : Int)
    (source : List Char) (tree : Tree) (state : LowerState)
    (hread : Tree.ofSource settings file source = .ok tree)
    (hlower : (lower settings' tree state).outcome = .ok ()) :
    (lower settings' tree state).state.symbols.order.map Symbol.name =
      (tree.declaredSymbols.map Symbol.name).eraseDups ∧
    (∀ x ∈ (lower settings' tree state).state.symbols.order,
      x.uses = tree.identifiers.count x.name ∧
      tree.declaredSymbols.find? (·.name == x.name) = some { x with uses := 0 }) ∧
    (Note.issued settings' (lower settings' tree state).notes).filter (·.warning = .unused) =
      (if settings'.warning .unused then
        ((lower settings' tree state).state.symbols.order.filter fun x =>
          x.name ∉ tree.identifiers).map Note.unused
      else []) ∧
    ∀ files, Note.report settings' files (lower settings' tree state).notes =
      String.join ((Note.issued settings' (lower settings' tree state).notes).map fun n =>
        Diagnostic.render files .warning n.token
        (n.message ++ " [-W" ++ n.warning.name ++ "]")) := by
  have hshaped : tree.ShapedAs [.program] := shapedAs_of_parse hread
  rcases hresult : lower settings' tree state with ⟨outcome, code, notes, s'⟩
  rw [hresult] at hlower
  obtain rfl : outcome = .ok () := hlower
  obtain ⟨t, hcollected, hsymbols, hnotes⟩ := symbols_of_lower hshaped hresult
  have huses : ∀ x ∈ s'.symbols.order, x.uses = tree.identifiers.count x.name ∧
      tree.declaredSymbols.find? (·.name == x.name) = some { x with uses := 0 } := by
    rw [hsymbols]
    refine List.forall_mem_map.mpr fun x hx => ⟨rfl, ?_⟩
    rw [hcollected.first x hx, ← hcollected.uses_eq_zero hx]
  refine ⟨?_, huses, ?_, fun files => Note.report_eq_issued settings' files notes⟩
  · rw [← hcollected.names, hsymbols, List.map_map]
    rfl
  · have hunused : (s'.symbols.order.filter fun x => x.uses = 0) =
        s'.symbols.order.filter fun x => x.name ∉ tree.identifiers := by
      refine List.filter_congr fun x hx => ?_
      rw [decide_eq_decide, (huses x hx).1, List.count_eq_zero]
    rw [Note.filter_issued, hnotes, hunused]

/-- A source text that declares a name twice and never uses another one. -/
def idleSource : List Char := "num a, b; num a; bool p; a = a + (b - a);".toList

/-- The name declared twice has one symbol, and there is a warning about the one that is not used.
-/
theorem uses_idleSource : ∃ tree, Tree.ofSource {} 0 idleSource = .ok tree ∧
    (lower {} tree {}).outcome = .ok () ∧
    (lower {} tree {}).state.symbols.order.map Symbol.name = ["a", "b", "p"] ∧
    (∀ x ∈ (lower {} tree {}).state.symbols.order, x.uses = ["a", "a", "b", "a"].count x.name) ∧
    ((Note.issued {} (lower {} tree {}).notes).filter (·.warning = .unused)).map Note.subject =
      [.neverUsed "p"] := by
  have hlowered : (Tree.ofSource {} 0 idleSource).toOption.map (fun tree =>
      ((lower {} tree {}).outcome, tree.declaredSymbols.map Symbol.name, tree.identifiers)) =
        some (.ok (), ["a", "b", "a", "p"], ["a", "a", "b", "a"]) := by
    decide +kernel
  obtain ⟨tree, hread, hvalues⟩ := ok_of_toOption_map hlowered
  obtain ⟨houtcome, hrest⟩ := Prod.mk.inj hvalues
  obtain ⟨hdeclared, hidentifiers⟩ := Prod.mk.inj hrest
  obtain ⟨hnames, huses, hissued, -⟩ :=
    uses_are_occurrences {} {} 0 idleSource tree {} hread houtcome
  rw [hdeclared] at hnames
  rw [hidentifiers] at huses hissued
  refine ⟨tree, hread, houtcome, hnames, fun x hx => (huses x hx).1, ?_⟩
  have hsubjects : ∀ t : List Symbol,
      ((t.filter fun x => x.name ∉ ["a", "a", "b", "a"]).map Note.unused).map Note.subject =
        ((t.map Symbol.name).filter (· ∉ ["a", "a", "b", "a"])).map .neverUsed := by
    intro t
    rw [List.filter_map, List.map_map, List.map_map]
    rfl
  have hon : ({} : Settings).warning .unused = true := rfl
  rw [hissued, if_pos hon, hsubjects, hnames]
  decide

end ThreeAddress
