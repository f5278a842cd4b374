import Mathlib.Tactic.Tauto
import ThreeAddress.Proofs.Typing.Expression

/-!
# Well-typed statements

On a shaped statement the type checker and lowering agree: the checker has a result, and the
statement can be lowered exactly when the result has no errors. `Typing.Matches` says this of the
result of the checker and a lowering; for each form of statement a lemma takes it from the parts to
the whole.

The clauses of a `switch` are lowered in two passes, first the tests and then the bodies, while the
checker takes one clause after the other. In `Typing.ClausesMatch` what the checker says is
therefore divided in two.
-/

namespace ThreeAddress

open List Lowering

namespace Typing

attribute [local simp] statementErrors bodyErrors clauseErrors

/-- The checker has a result, and the lowering `x` succeeds exactly when it has no errors. -/
def Matches (declared : Declared) (root : Tree) (names : List String)
    (checked : Option (List Error)) (x : Lower Unit) :
    Prop :=
  ∃ errors, checked = some errors ∧ Lowers declared root names x (errors = [])

/-- The checker and lowering agree on a statement. -/
abbrev MatchesStatement (declared : Declared) (root : Tree) (settings : Settings)
    (t : Tree) : Prop :=
  Matches declared root t.identifiers (statementErrors declared t) (statement settings t)

/-- The checker and lowering agree on several statements. -/
abbrev MatchesBody (declared : Declared) (root : Tree) (settings : Settings)
    (ts : List Tree) : Prop :=
  Matches declared root (Tree.identifiersAll ts) (bodyErrors declared ts) (statements settings ts)

variable {declared : Declared} {root : Tree} {settings : Settings} {token : Token}
  {t u e : Tree} {ts : List Tree}

/-! ## Statements -/

/-- Statements are agreed upon one after the other. -/
lemma matches_body (h : ∀ t ∈ ts, MatchesStatement declared root settings t) :
    MatchesBody declared root settings ts := by
  induction ts with
  | nil => exact ⟨[], by simp, (accounts_pure trivial).congr (by simp)⟩
  | cons t ts ih =>
    obtain ⟨ht, hrest⟩ := forall_mem_cons.mp h
    obtain ⟨errors, herrors, hlowers⟩ := ht
    obtain ⟨more, hmore, hlowers'⟩ := ih hrest
    refine ⟨errors ++ more, by simp [herrors, hmore], ?_⟩
    rw [append_eq_nil_iff]
    exact hlowers.bind fun _ _ => hlowers'

/-- The errors and the names of a single statement are those of its list. -/
lemma Matches.singleton (ht : MatchesStatement declared root settings t) :
    Matches declared root (Tree.identifiersAll [t]) (bodyErrors declared [t])
    (statement settings t) := by
  obtain ⟨errors, herrors, hlowers⟩ := ht
  rw [Tree.identifiersAll_singleton]
  exact ⟨errors, by simp [herrors], hlowers⟩

/-- What has to be a condition is one when the checker says so. -/
lemma Agrees.condition_errors (he : Agrees declared root e) (token : Token) : ∃ found,
    exprType declared e = some found ∧
    (demand .bool .condition token found = [] ↔ WellTyped declared e .bool) := by
  obtain ⟨found, hfound, htype⟩ := he.typed
  exact ⟨found, hfound, by rw [demand_eq_nil htype, wellTyped_iff hfound]⟩

section

variable (ht : MatchesStatement declared root settings t) (he : Agrees declared root e)
include ht he

lemma Matches.conditional :
    MatchesStatement declared root settings (.branch .conditional token [e, t]) := by
  obtain ⟨found, hfound, hcond⟩ := he.condition_errors e.token
  obtain ⟨errors, herrors, hlowers⟩ := ht.singleton
  refine ⟨_, by rw [Tree.branch, statementErrors, hfound, herrors]; rfl, ?_⟩
  rw [append_eq_nil_iff, hcond]
  exact (accounts_conditional_none he.condition hlowers).noted he.strips t

lemma Matches.alternative (hu : MatchesStatement declared root settings u) :
    MatchesStatement declared root settings (.branch .conditional token [e, t, u]) := by
  obtain ⟨found, hfound, hcond⟩ := he.condition_errors e.token
  obtain ⟨errors, herrors, hlowers⟩ := ht
  obtain ⟨more, hmore, hlowers'⟩ := hu.singleton
  refine ⟨_, by rw [Tree.branch, statementErrors, hfound, bodyErrors, herrors, hmore]; rfl, ?_⟩
  rw [append_eq_nil_iff, append_eq_nil_iff, hcond]
  have hparts := accounts_conditional_some he.condition hlowers hlowers'
  cases u with
  | absent => simp at hmore
  | node kind tk value ops children =>
    refine (accounts_constantCondition he.strips).skip fun known _ => ?_
    split
    · exact (accounts_noteUnreachable _).skip fun _ _ => hparts
    · exact (accounts_noteUnreachable t).skip fun _ _ => hparts
    · exact hparts

lemma Matches.loop : MatchesStatement declared root settings (.branch .loop token [e, t]) := by
  obtain ⟨found, hfound, hcond⟩ := he.condition_errors e.token
  obtain ⟨errors, herrors, hlowers⟩ := ht.singleton
  refine ⟨_, by rw [Tree.branch, statementErrors, hfound, herrors]; rfl, ?_⟩
  rw [append_eq_nil_iff, hcond]
  exact (accounts_loop he.condition hlowers).noted he.strips t

end

section

variable (he : Agrees declared root e)
include he

/-- An assignment is in order when the name has the type of the value. -/
lemma assignmentErrors_eq {value ops children} :
    ∃ errors, assignmentErrors declared (.node .identifier token value ops children) e =
    some errors ∧
      (errors = [] ↔ ∃ type, scopeOf declared value = some type ∧ WellTyped declared e type) := by
  obtain ⟨⟨found, valueErrors⟩, hfound, htype⟩ := he.typed
  simp only [wellTyped_iff hfound]
  simp only [assignmentErrors, hfound, nameType, scopeOf]
  cases declared.lookup value with
  | none => exact ⟨_, rfl, by simp⟩
  | some wanted =>
    refine ⟨_, rfl, ?_⟩
    cases found with
    | none => simpa using htype
    | some found =>
      by_cases heq : wanted = found
      · simp [heq, errorIf]
      · simp [heq, errorIf, Ne.symm heq]

/-- An assignment can be lowered when the name has the type of the value. -/
lemma lowers_assign {nameToken name} :
    Lowers declared root (name :: e.identifiers) (assign settings token nameToken name e)
      (∃ type, scopeOf declared name = some type ∧ WellTyped declared e type) := by
  refine (accounts_useName nameToken name).bind_some fun type _ => ?_
  cases type with
  | bool => exact accounts_boolValue _ he.condition
  | num =>
    refine he.number.leave fun v _ => ?_
    split
    · refine (accounts_note (by simp [Note.warning])).skip fun _ _ => ?_
      split
      · exact accounts_pure trivial
      · exact accounts_emit _
    · exact accounts_emit _

lemma matches_assignment {name text} :
    MatchesStatement declared root settings
    (.branch .assignment token [.leaf .identifier name text, e]) := by
  obtain ⟨errors, herrors, htypes⟩ := assignmentErrors_eq he
  have hnames : (Tree.branch .assignment token [.leaf .identifier name text, e]).identifiers =
      text :: e.identifiers :=
    congrArg (text :: ·) (append_nil _)
  refine ⟨errors, by simpa [Tree.branch, Tree.leaf] using herrors, ?_⟩
  rw [hnames]
  exact (lowers_assign he).congr htypes.symm

/-! ## Clauses -/

/-- The scrutinee of a `switch` can be lowered when it is a number. -/
lemma lowers_scrutineeTemp :
    Lowers declared root e.identifiers (scrutineeTemp e) (WellTyped declared e .num) := by
  obtain ⟨found, hfound, -⟩ := he.typed
  have htypes : (∃ type, found.1 = some type ∧ type = .num ∧ WellTyped declared e .num) ↔
      WellTyped declared e .num := by
    constructor
    · rintro ⟨type, -, -, htyped⟩
      exact htyped
    · intro htyped
      exact ⟨.num, ((wellTyped_iff hfound).mp htyped).1, rfl, htyped⟩
  rw [← htypes]
  refine (he.finds found hfound).bind_some fun type _ => ?_
  cases type with
  | bool => exact (accounts_unsupported rfl).congr (by simp)
  | num =>
    refine Accounts.congr (he.number.leave fun v _ => ?_) (and_iff_right rfl).symm
    split
    · exact accounts_pure trivial
    · exact accounts_freshTemp.skip fun _ _ => (accounts_emit _).skip fun _ _ =>
        accounts_pure trivial

end

/-- The test of a case can be lowered when its value fits in 64 bits. -/
lemma lowers_caseTest {v seen clauseToken label text}
    (hroot : root.Contains (.branch .caseClause clauseToken (.leaf .intLiteral token text :: ts))) :
    Lowers declared root [] (caseTest v seen clauseToken label (.leaf .intLiteral token text :: ts))
      ((Text.readInt64 text).toOption.isNone = false) := by
  unfold Tree.leaf caseTest
  dsimp only
  cases hread : Text.readInt64 text with
  | error e =>
    refine Accounts.congr (accounts_fail fun _ => ?_) (by simp [Except.toOption])
    exact .invalidCase hroot (Text.not_isInt64_of_error hread)
  | ok n =>
    refine Accounts.congr (P := True) ?_ (by simp [Except.toOption])
    dsimp only
    split
    · exact (accounts_note (by simp [Note.warning])).skip fun _ _ =>
        (accounts_emit _).skip fun _ _ =>
        accounts_pure trivial
    · exact (accounts_emit _).skip fun _ _ => accounts_pure trivial

lemma lowers_clauseBodies_cons {P Q names more done label labels kind value ops children clauses}
    (hbody : Lowers declared root names (statements settings (clauseBody kind children)) P)
    (hrest : Lowers declared root more (clauseBodies settings done labels clauses) Q) :
    Lowers declared root (names ++ more)
      (clauseBodies settings done (label :: labels)
        (.node kind token value ops children :: clauses)) (P ∧ Q) := by
  rw [clauseBodies_node]
  refine (accounts_emit _).skip fun _ _ => hbody.bind fun _ _ => ?_
  split
  · exact hrest
  · exact (accounts_emit _).skip fun _ _ => hrest

/-- Clauses with which a `switch` of the tree ends; `met` tells whether a default clause stands
before them. -/
def Remaining (root : Tree) (met : Bool) (clauses : List Tree) : Prop :=
  ∃ token scrutinee before, root.Contains
    (.branch .selection token (scrutinee :: (before ++ clauses))) ∧
    (met = true → ∃ t ∈ before, t.IsA [.defaultClause])

section Remaining

variable {met : Bool} {clause : Tree} {clauses : List Tree}
  (h : Remaining root met (clause :: clauses))
include h

lemma Remaining.contains : root.Contains clause := by
  obtain ⟨token, scrutinee, before, hroot, -⟩ := h
  exact hroot.child (.tail _ (mem_append_right _ (.head _)))

lemma Remaining.tail : Remaining root met clauses := by
  obtain ⟨token, scrutinee, before, hroot, hmet⟩ := h
  rw [append_cons] at hroot
  refine ⟨token, scrutinee, before ++ [clause], hroot, fun hdefault => ?_⟩
  obtain ⟨t, ht, hkind⟩ := hmet hdefault
  exact ⟨t, mem_append_left _ ht, hkind⟩

lemma Remaining.tail_default (hclause : clause.IsA [.defaultClause]) :
    Remaining root true clauses := by
  obtain ⟨token, scrutinee, before, hroot, -⟩ := h
  rw [append_cons] at hroot
  exact ⟨token, scrutinee, before ++ [clause], hroot, fun _ =>
    ⟨clause, mem_append_right _ (.head _), hclause⟩⟩

lemma Remaining.secondDefault (hmet : met = true) (hclause : clause.IsA [.defaultClause]) :
    root.Blamed ⟨clause.token, .secondDefault⟩ := by
  obtain ⟨token, scrutinee, before, hroot, hbefore⟩ := h
  exact .secondDefault hroot (hbefore hmet) hclause

end Remaining

/-- What the checker says about the clauses of a `switch` is divided into what concerns their tests
and what concerns their bodies; `met` tells whether a default clause stands before them. -/
structure ClausesMatch (declared : Declared) (root : Tree) (settings : Settings) (met : Bool)
    (clauses : List Tree) (tests bodies : Prop) : Prop where
  checked : ∃ errors, clauseErrors declared met clauses = some errors ∧
    (errors = [] ↔ tests ∧ bodies)
  dispatches : Remaining root met clauses → ∀ v seen default?, default?.isSome = met →
    Lowers declared root [] (dispatch v seen default? clauses) tests fun r =>
    r.1.length = clauses.length
  lays : ∀ done labels, labels.length = clauses.length →
    Lowers declared root (Tree.identifiersAll clauses)
    (clauseBodies settings done labels clauses) bodies

/-- The checker and lowering agree on a clause in front of others. -/
def MatchesClause (declared : Declared) (root : Tree) (settings : Settings) (t : Tree) : Prop :=
  ∀ clauses, (∀ met, ∃ tests bodies, ClausesMatch declared root settings met clauses tests bodies) →
    ∀ met, ∃ tests bodies, ClausesMatch declared root settings met (t :: clauses) tests bodies

section Clauses

variable {keyword : Token}

/-- Clauses are agreed upon one after the other. -/
lemma exists_clausesMatch (h : ∀ t ∈ ts, MatchesClause declared root settings t) (met : Bool) :
    ∃ tests bodies, ClausesMatch declared root settings met ts tests bodies := by
  induction ts generalizing met with
  | nil =>
    refine ⟨True, True, ⟨[], by simp, by simp⟩, fun _ v seen default? _ => accounts_pure rfl, ?_⟩
    intro done labels hlen
    obtain rfl := length_eq_zero_iff.mp hlen
    exact accounts_pure trivial
  | cons t ts ih =>
    obtain ⟨ht, hrest⟩ := forall_mem_cons.mp h
    exact ht ts (ih hrest) met

variable (hbody : MatchesBody declared root settings ts)
include hbody

lemma matchesClause_case {text} :
    MatchesClause declared root settings
    (.branch .caseClause keyword (.leaf .intLiteral token text :: ts)) := by
  intro clauses hclauses met
  obtain ⟨tests, bodies, h⟩ := hclauses met
  obtain ⟨errors, herrors, hlowers⟩ := hbody
  refine ⟨(Text.readInt64 text).toOption.isNone = false ∧ tests, errors = [] ∧ bodies, ?_, ?_, ?_⟩
  · obtain ⟨more, hmore, hparts⟩ := h.checked
    refine ⟨_, by rw [Tree.branch, clauseErrors, Tree.leaf, caseErrors, herrors, hmore]; rfl, ?_⟩
    simp only [append_eq_nil_iff, hparts, errorIf, ite_eq_right_iff, cons_ne_nil, imp_false,
      Bool.not_eq_true]
    tauto
  · intro hroot v seen default? hmet
    refine accounts_freshLabel.skip fun label _ =>
      (lowers_caseTest hroot.contains).bind fun w _ => ?_
    exact (h.dispatches hroot.tail v (w :: seen) default? hmet).leave fun r hr =>
      accounts_pure (congrArg (· + 1) hr)
  · intro done labels hlen
    obtain ⟨label, labels, rfl⟩ := exists_cons_of_length_eq_add_one hlen
    exact lowers_clauseBodies_cons hlowers (h.lays done labels (Nat.succ.inj hlen))

lemma matchesClause_default :
    MatchesClause declared root settings (.branch .defaultClause keyword ts) := by
  intro clauses hclauses met
  obtain ⟨tests, bodies, h⟩ := hclauses true
  obtain ⟨errors, herrors, hlowers⟩ := hbody
  refine ⟨met = false ∧ tests, errors = [] ∧ bodies, ?_, ?_, ?_⟩
  · obtain ⟨more, hmore, hparts⟩ := h.checked
    refine ⟨_, by rw [Tree.branch, clauseErrors, herrors, hmore]; rfl, ?_⟩
    simp only [append_eq_nil_iff, hparts, errorIf, ite_eq_right_iff, cons_ne_nil, imp_false,
      Bool.not_eq_true]
    tauto
  · intro hroot v seen default? hmet
    refine accounts_freshLabel.skip fun label _ => ?_
    cases default? with
    | some l =>
      refine Accounts.congr (accounts_fail fun _ => ?_) (by simp [← hmet])
      exact hroot.secondDefault hmet.symm (.head _)
    | none =>
      refine Accounts.congr ?_ (and_iff_right (Eq.symm hmet)).symm
      exact (h.dispatches (hroot.tail_default (.head _)) v seen (some label) rfl).leave fun r hr =>
        accounts_pure (congrArg (· + 1) hr)
  · intro done labels hlen
    obtain ⟨label, labels, rfl⟩ := exists_cons_of_length_eq_add_one hlen
    exact lowers_clauseBodies_cons hlowers (h.lays done labels (Nat.succ.inj hlen))

end Clauses

lemma matches_selection (hroot : root.Contains (.branch .selection token (e :: ts)))
    (he : Agrees declared root e) (hts : ∀ t ∈ ts, MatchesClause declared root settings t) :
    MatchesStatement declared root settings (.branch .selection token (e :: ts)) := by
  obtain ⟨⟨found, errors⟩, hfound, htype⟩ := he.typed
  obtain ⟨tests, bodies, h⟩ := exists_clausesMatch hts false
  obtain ⟨more, hmore, hparts⟩ := h.checked
  have hscrut : errors ++ errorIf (found = some .bool) e.token .boolScrutinee = [] ↔
      WellTyped declared e .num := by
    rw [wellTyped_iff hfound]
    exact append_errorIf_eq_nil .num htype .boolScrutinee
  refine ⟨_, by rw [Tree.branch, statementErrors, hfound, hmore]; rfl, ?_⟩
  rw [append_eq_nil_iff, hscrut, hparts]
  refine (lowers_scrutineeTemp he).bind fun v _ => accounts_freshLabel.skip fun done _ =>
    (h.dispatches ⟨token, e, [], hroot, (absurd · Bool.false_ne_true)⟩ v [] none rfl).bind
    fun r hr => ?_
  exact (accounts_emit _).skip fun _ _ => (h.lays done r.1 hr).leave fun _ _ => accounts_emit _

end Typing

/-! ## Shaped statements -/

/-- On shaped statements the type checker and lowering agree, and also on the clauses of a `switch`.
-/
lemma Tree.Shaped.matches_part {declared settings root} {t : Tree} (h : t.Shaped)
    (hroot : root.Contains t) :
    (t.IsA (.statement :: NodeKind.actions) → Typing.MatchesStatement declared root settings t) ∧
      (t.IsA NodeKind.clauses → Typing.MatchesClause declared root settings t) := by
  -- The bodies of a `switch` are below its clauses, and a clause is no statement: the induction has
  -- to say of a clause what its bodies amount to.
  induction h with
  | @node kind token value ops children hfits hchildren ih =>
    have hstmt : ∀ u ∈ children, u.IsA [.statement] →
        Typing.MatchesStatement declared root settings u :=
      fun u hu hkind => (ih u hu (hroot.child hu)).1 (hkind.mono (by decide))
    have hexpr : ∀ u ∈ children, u.IsA [.expression] → Typing.Agrees declared root u :=
      fun u hu hkind => (hchildren u hu).agrees (hroot.child hu) (hkind.mono (by decide))
    refine ⟨fun hkind => ?_, fun hkind => ?_⟩
    · cases hfits with
      | block hbody => exact Typing.matches_body fun u hu => hstmt u hu (hbody u hu)
      | empty => exact ⟨[], rfl, (accounts_pure trivial).congr (by simp)⟩
      | statement hinner =>
        exact Typing.Matches.singleton
          ((ih _ (.head _) (hroot.child (.head _))).1 (hinner.mono (by decide)))
      | conditional hcond hbody =>
        exact (hstmt _ (.tail _ (.head _)) hbody).conditional (hexpr _ (.head _) hcond)
      | alternative hcond hbody hother =>
        exact (hstmt _ (.tail _ (.head _)) hbody).alternative (hexpr _ (.head _) hcond)
          (hstmt _ (.tail _ (.tail _ (.head _))) hother)
      | loop hcond hbody =>
        exact (hstmt _ (.tail _ (.head _)) hbody).loop (hexpr _ (.head _) hcond)
      | assignment hname hval =>
        obtain ⟨nameToken, name, rfl⟩ := (hchildren _ (.head _)).eq_identifier hname
        exact Typing.matches_assignment (hexpr _ (.tail _ (.head _)) hval)
      | selection hscrut hclauses =>
        exact Typing.matches_selection hroot (hexpr _ (.head _) hscrut) fun u hu =>
          (ih u (.tail _ hu) (hroot.child (.tail _ hu))).2 (hclauses u hu)
      | _ => exact absurd hkind (by simp [Tree.IsA, NodeKind.actions])
    · cases hfits with
      | caseClause hval hbody =>
        obtain ⟨valueToken, text, rfl⟩ := (hchildren _ (.head _)).eq_intLiteral hval
        exact Typing.matchesClause_case (Typing.matches_body fun u hu =>
          hstmt u (.tail _ hu) (hbody u hu))
      | defaultClause hbody =>
        exact Typing.matchesClause_default (Typing.matches_body fun u hu => hstmt u hu (hbody u hu))
      | _ => exact absurd hkind (by simp [Tree.IsA, NodeKind.clauses])

end ThreeAddress
