import ThreeAddress.Proofs.Typing.Agreement

/-!
# The checker reports every statement on its own

What the type checker reports about a program is what it reports about the declarations, and then
what each statement adds to that when it stands alone behind the same declarations. The statements
share nothing but the scope, so that an error in one of them neither hides nor causes an error in
another one; and a statement adds errors exactly if no code can be generated for it alone, unless a
name is declared with two types.
-/

namespace ThreeAddress

open List Lowering

/-- The program with some declarations and some statements. -/
def Tree.programOf (start : Token) (declarations statements : List Tree) : Tree :=
  .branch .program start (declarations ++ [.branch .block start statements])

/-! ## Declarations with a single type for each name -/

/-- No two declarations give a name different types. -/
def TypesAgree (declarations : List Tree) : Prop :=
  ∀ d ∈ declarations, ∀ d' ∈ declarations, ∀ name type type', d.declared? = some (name, type) →
    d'.declared? = some (name, type') → type = type'

/-- Declarations are consistent with a scope if they agree with it and with one another. -/
lemma consistent_iff {Γ ds} : Consistent Γ ds ↔
    (∀ d ∈ ds, ∀ name type, d.declared? = some (name, type) → ∀ before, Γ name = some before →
      before = type) ∧
      TypesAgree ds := by
  induction ds generalizing Γ with
  | nil => simp [Consistent, TypesAgree]
  | cons t ds ih =>
    rw [Consistent, ih]
    constructor
    · rintro ⟨ht, hds, hagree⟩
      have hscope : ∀ d ∈ ds, ∀ name type, d.declared? = some (name, type) →
          ∀ before, Γ name = some before → before = type :=
          fun d hd name type hname before hbefore =>
        hds d hd name type hname before (by rw [hbefore, Option.some_or])
      -- A name that is declared here and later has one type, be it in the scope before or not.
      have hfirst : ∀ d ∈ ds, ∀ name type type', t.declared? = some (name, type) →
          d.declared? = some (name, type') → type = type' := by
        intro d hd name type type' hname hname'
        cases hbefore : Γ name with
        | none =>
          have hadded : declaredScope [t] name = some type := by
            rw [declaredScope_singleton hname, if_pos rfl]
          exact hds d hd name type' hname' type (by rw [hbefore, Option.none_or, hadded])
        | some before => rw [← ht name type hname before hbefore,
            hscope d hd name type' hname' before hbefore]
      refine ⟨forall_mem_cons.mpr ⟨ht, hscope⟩, ?_⟩
      intro d hd d' hd' name type type' hname hname'
      rcases mem_cons.mp hd with rfl | hlater
      · rcases mem_cons.mp hd' with rfl | hlater'
        · exact (Prod.mk.inj (Option.some.inj (hname.symm.trans hname'))).2
        · exact hfirst d' hlater' name type type' hname hname'
      · rcases mem_cons.mp hd' with rfl | hlater'
        · exact (hfirst d hlater name type' type hname' hname).symm
        · exact hagree d hlater d' hlater' name type type' hname hname'
    · rintro ⟨hscope, hagree⟩
      obtain ⟨ht, hds⟩ := forall_mem_cons.mp hscope
      refine ⟨ht, fun d hd name type hname before hbefore => ?_, fun d hd d' hd' =>
        hagree d (.tail _ hd) d' (.tail _ hd')⟩
      rcases Option.or_eq_some_iff.mp hbefore with hbefore | ⟨-, hadded⟩
      · exact hds d hd name type hname before hbefore
      · cases hdeclared : t.declared? with
        | none => simp [declaredScope, hdeclared] at hadded
        | some declared =>
          obtain ⟨name', type'⟩ := declared
          rw [declaredScope_singleton hdeclared] at hadded
          split at hadded
          · rename_i heq
            subst heq
            cases hadded
            exact hagree t (.head _) d (.tail _ hd) name _ type hdeclared hname
          · cases hadded

/-! ## Errors of statements and of programs -/

namespace Typing

variable {declared : Declared}

/-- The errors of statements are those of each of them, one after the other. -/
lemma bodyErrors_of_parts {ts parts}
    (h : Forall₂ (fun t part => statementErrors declared t = some part) ts parts) :
    bodyErrors declared ts = some parts.flatten := by
  induction h with
  | nil => rw [bodyErrors, flatten_nil]
  | cons ht _ ih =>
    rw [bodyErrors, ht, ih]
    rfl

/-- Each of several shaped statements has errors of its own. -/
lemma exists_parts (declared : Declared) {ts} (h : ∀ t ∈ ts, t.ShapedAs [.statement]) :
    ∃ parts, Forall₂ (fun t part => statementErrors declared t = some part) ts parts := by
  induction ts with
  | nil => exact ⟨[], .nil⟩
  | cons t ts ih =>
    obtain ⟨ht, hts⟩ := forall_mem_cons.mp h
    have hmatches : MatchesStatement declared t {} t :=
      (ht.shaped.matches_part .self).1 (ht.isA.mono (by decide))
    obtain ⟨part, hpart, -⟩ := hmatches
    obtain ⟨parts, hparts⟩ := ih hts
    exact ⟨part :: parts, .cons hpart hparts⟩

/-- The declarations of a program are those before its block. -/
lemma declareAll_append {ds block} (hblock : isDeclaration? block = some false)
    (declared : Declared) :
    declareAll declared (ds ++ [block]) = declareAll declared ds := by
  induction ds generalizing declared with
  | nil => simp [declareAll, hblock]
  | cons t ds ih => simp only [cons_append, declareAll, ih]

/-- Behind the same declarations, programs are checked in the same scope: the errors are those of
the declarations and those of the statements. -/
lemma exists_scope {ds} (h : ∀ t ∈ ds, t.ShapedAs [.declaration]) : ∃ declared before,
    scopeOf declared = declaredScope ds ∧ (before = [] ↔ TypesAgree ds) ∧
      ∀ start ts errors, bodyErrors declared ts = some errors →
        check (.programOf start ds ts) = some (before ++ errors) := by
  have hblock : isDeclaration? (.branch .block {} []) = some false := rfl
  obtain ⟨declared, before, hdecl, hscope, hconsistent⟩ := declareAll_eq [] h hblock
  rw [declareAll_append rfl] at hdecl
  refine ⟨declared, before, hscope, ?_, fun start ts errors herrors => ?_⟩
  · rw [hconsistent, consistent_iff]
    exact and_iff_right fun d _ name type _ before hbefore => by cases hbefore
  · have hblock : statementErrors declared (.branch .block start ts) = some errors := by
      rw [Tree.branch, statementErrors, herrors]
    rw [Tree.programOf, Tree.branch, check, declareAll_append rfl, hdecl]
    simp [topErrors_eq h rfl hblock]

end Typing

/-- Errors are found in a shaped program exactly if no code can be generated for it. -/
lemma Tree.ShapedAs.errors_ne_nil_iff {root errors} (h : root.ShapedAs [.program])
    (hnames : ∀ d ∈ root.declarations, d.DeclaresName) (hcheck : Typing.check root = some errors)
    (settings : Settings) (state : LowerState) : errors ≠ [] ↔
    ∃ e, (generate settings state root).outcome = .error e := by
  obtain ⟨_, hchecked, hiff⟩ := h.check_iff hnames settings state
  obtain rfl := Option.some.inj (hcheck.symm.trans hchecked)
  rw [ne_eq, hiff]
  cases (generate settings state root).outcome <;> simp

/-- The type checker reports every faulty statement on its own. A source text that can be read is a
program of declarations `ds` and statements `ss`. Its errors are those of the declarations followed
by parts, one for each statement and in their order, and each part is what its statement alone adds
to the errors of the same declarations. The same holds of every block in the program, in the place
of its statements. The declarations have no errors if no name is declared with two types, and then a
statement contributes errors exactly if code cannot be generated for it alone behind the same
declarations, from whatever state. -/
theorem check_reports_each_statement (settings : Settings) (file : Int)
    (source : List Char) (tree : Tree) (h : Tree.ofSource settings file source = .ok tree) :
    ∃ start ds ss before parts, tree = .programOf start ds ss ∧
      Typing.check (.programOf start ds []) = some before ∧
      Typing.check tree = some (before ++ parts.flatten) ∧
      List.Forall₂ (fun t part => Typing.check (.programOf start ds [t]) =
        some (before ++ part)) ss parts ∧
      (∀ token value ops ts, tree.Contains (.node .block token value ops ts) → ∃ inner,
        Typing.check (.programOf start ds [.node .block token value ops ts]) =
        some (before ++ inner.flatten) ∧
          List.Forall₂ (fun t part => Typing.check (.programOf start ds [t]) =
            some (before ++ part)) ts inner) ∧
      (before = [] ↔ TypesAgree ds) ∧
      (TypesAgree ds → ∀ state, List.Forall₂ (fun t part => part ≠ [] ↔
        ∃ e, (generate settings state (.programOf start ds [t])).outcome = .error e) ss parts) := by
  have hshaped := (shapedAs_of_parse h).shaped
  have hsource := fun d hd => (declaresFrom_of_source h d hd).declaresName
  obtain ⟨dts, ds, sts, ss, hdeclarations, hstatements, -, htree⟩ := exists_texts_of_parse h
  generalize Option.getD _ _ = start at htree
  subst htree
  have hblock := Tree.shapedAs_block hstatements.shapedAs start
  have hnames : ∀ d ∈ ds, d.DeclaresName := by
    rwa [Tree.declarations_program hdeclarations.shapedAs hblock] at hsource
  obtain ⟨declared, before, hscope, hagree, hcheck⟩ := Typing.exists_scope hdeclarations.shapedAs
  have hsingle : ∀ t part, Typing.statementErrors declared t = some part →
      Typing.check (.programOf start ds [t]) = some (before ++ part) := by
    intro t part hpart
    rw [hcheck start [t] _ (Typing.bodyErrors_of_parts (.cons hpart .nil)), List.flatten_singleton]
  obtain ⟨parts, hparts⟩ := Typing.exists_parts declared hstatements.shapedAs
  refine ⟨start, ds, ss, before, parts, rfl, ?_,
    hcheck start ss _ (Typing.bodyErrors_of_parts hparts), ?_, ?_, hagree, fun hds state => ?_⟩
  · rw [hcheck start [] _ (Typing.bodyErrors_of_parts .nil), List.flatten_nil, List.append_nil]
  · exact hparts.imp hsingle
  · intro token value ops ts hblock
    cases hshaped.of_contains hblock with
    | node hfits hts =>
      have hall : ∀ t ∈ ts, t.ShapedAs [.statement] := by
        cases hfits with
        | block hstatements => exact fun t ht => ⟨hts t ht, hstatements t ht⟩
      obtain ⟨inner, hinner⟩ := Typing.exists_parts declared hall
      refine ⟨inner, hsingle _ _ ?_, hinner.imp hsingle⟩
      rw [Typing.statementErrors, Typing.bodyErrors_of_parts hinner]
  · have hall : ∀ t ∈ ss, ∀ part, Typing.statementErrors declared t = some part → (part ≠ [] ↔
        ∃ e, (generate settings state (.programOf start ds [t])).outcome = .error e) := by
      intro t ht part hpart
      have hblock := Tree.shapedAs_block
        (forall_mem_singleton.mpr (hstatements.shapedAs t ht)) start
      have hcheck := hsingle t part hpart
      rw [hagree.mpr hds, nil_append] at hcheck
      refine (Tree.shapedAs_program hdeclarations.shapedAs hblock start).errors_ne_nil_iff
        ?_ hcheck settings state
      rwa [Tree.declarations_program hdeclarations.shapedAs hblock]
    have hmem := (List.forall₂_and_left (p := (· ∈ ss)) ss parts).mpr ⟨fun t ht => ht, hparts⟩
    exact hmem.imp fun t part hpart => hall t hpart.1 part hpart.2

/-- A source text with two faulty statements, of which the second has two errors, and a statement
without errors between them. -/
def faultySource : List Char := "num a; bool p; a = p; p = !p; if (a) a = b;".toList

/-- A program without its statements. -/
def Tree.withoutStatements : Tree → Tree
  | .node _ start _ _ children => .programOf start children.dropLast []
  | .absent => .absent

/-- The three errors of the text are the parts of its statements. -/
theorem check_faultySource : ∃ tree start ds ss parts, Tree.ofSource {} 0 faultySource = .ok tree ∧
    tree = .programOf start ds ss ∧ Typing.check tree = some parts.flatten ∧
    parts.flatten.map Typing.Error.fault =
      [.assigned .bool .num "a", .wanted .bool .condition, .undeclared "b"] ∧
    List.Forall₂ (fun t part => Typing.check (.programOf start ds [t]) = some part) ss parts ∧
    List.Forall₂ (fun t part => part ≠ [] ↔
      ∃ e, (generate {} {} (.programOf start ds [t])).outcome = .error e) ss parts := by
  have hchecked : (Tree.ofSource {} 0 faultySource).toOption.map (fun tree =>
      ((Typing.check tree).map (·.map Typing.Error.fault), Typing.check tree.withoutStatements)) =
        some (some [.assigned .bool .num "a", .wanted .bool .condition,
          .undeclared "b"], some []) := by
    decide +kernel
  obtain ⟨tree, hread, hvalues⟩ := ok_of_toOption_map hchecked
  obtain ⟨hfaults, hnone⟩ := Prod.mk.inj hvalues
  obtain ⟨start, ds, ss, before, parts, rfl, hdeclarations, hcheck, hparts, -,
      hbefore, hgenerate⟩ :=
    check_reports_each_statement {} 0 faultySource tree hread
  have hwithout : (Tree.programOf start ds ss).withoutStatements = .programOf start ds [] := by
    rw [Tree.programOf, Tree.branch, Tree.withoutStatements, List.dropLast_concat]
  obtain rfl : before = [] := Option.some.inj (hdeclarations.symm.trans (hwithout ▸ hnone))
  rw [hcheck] at hfaults
  exact ⟨_, start, ds, ss, parts, hread, rfl, hcheck, Option.some.inj hfaults, hparts,
    hgenerate (hbefore.mp rfl) {}⟩

end ThreeAddress
