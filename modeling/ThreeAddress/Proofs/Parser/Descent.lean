import ThreeAddress.Proofs.Parser.Reading

/-!
# The recursive descent along derivations

Where tokens begin with a text of the grammar, the reader goes to its end and returns its tree. This
is shown along the derivation of the text, for any tokens behind it (`Expr.reads`,
`Statement.reads`, `comes_programText`): what follows has to be such that the text could not go on.
-/

namespace ThreeAddress

open List Read

variable {settings : Settings} {t : Token} {ts us vs : List Token}

/-! ## Ranks -/

/-- Whether a token begins an operand without signs. -/
def TokenKind.beginsPrimary (kind : TokenKind) : Bool :=
  kind ∈ [leftParen, kwTrue, kwFalse, number, identifier]

namespace Rank

/-- The number of ranks before a rank. -/
def depth : Rank → Nat
  | logic => 0
  | comparison => 1
  | sum => 2
  | product => 3
  | signed => 4
  | negated => 5
  | primary => 6

/-- No operator of a rank, or of a later one, is of a kind: an expression of the rank stops before
it. -/
def Stops (k : Rank) (kind : TokenKind) : Prop := ∀ j : Rank, k.depth ≤ j.depth →
    j.joins kind = false

variable {k k' : Rank} {kind : TokenKind}

lemma depth_next (h : k.next? = some k') : k'.depth = k.depth + 1 := by
  cases k <;> cases h <;> rfl

lemma isPassable_of_leads (h : k.leads kind = true) : kind.isPassable = true := by
  cases kind <;> first | rfl | (cases k <;> cases h)

lemma isPassable_of_joins (h : k.joins kind = true) : kind.isPassable = true := by
  cases kind <;> first | rfl | (cases k <;> cases h)

/-- An operator belongs to one rank. -/
lemma eq_of_joins {j : Rank} (hj : j.joins kind = true) (hk : k.joins kind = true) : j = k := by
  cases kind <;> cases j <;> cases hj <;> cases k <;> cases hk <;> rfl

/-- The operands of a chain stop before its operators. -/
lemma Stops.of_joins (hk : k.next? = some k') (h : k.joins kind = true) : k'.Stops kind := by
  refine fun j hj => Bool.eq_false_iff.mpr fun hjoins => ?_
  rw [eq_of_joins hjoins h, depth_next hk] at hj
  omega

lemma Stops.next (h : k.Stops kind) (hk : k.next? = some k') : k'.Stops kind :=
  fun j hj => h j (by rw [depth_next hk] at hj; omega)

lemma stops_rightParen : k.Stops .rightParen := fun j _ => by cases j <;> rfl

lemma stops_semicolon : k.Stops .semicolon := fun j _ => by cases j <;> rfl

/-- A sign belongs to one rank. -/
lemma eq_of_leads {j : Rank} (hj : j.leads kind = true) (hk : k.leads kind = true) : j = k := by
  cases kind <;> cases j <;> cases hj <;> cases k <;> cases hk <;> rfl

lemma leads_of_beginsPrimary (h : kind.beginsPrimary = true) (k : Rank) : k.leads kind = false := by
  cases kind <;> first | (cases k <;> rfl) | cases h

/-- No sign of a rank is a sign of the next or begins an operand. -/
lemma leads_eq_false (hk : k.next? = some k')
    (h : kind.beginsPrimary = true ∨ ∃ j : Rank, k'.depth ≤ j.depth ∧ j.leads kind = true) :
    k.leads kind = false := by
  rcases h with h | ⟨j, hj, h⟩
  · exact leads_of_beginsPrimary h k
  · refine Bool.eq_false_iff.mpr fun hlead => ?_
    rw [eq_of_leads h hlead, depth_next hk] at hj
    omega

end Rank

/-! ## Expressions -/

/-- The node of an expression stands at the first of its tokens. -/
lemma Expr.head_token {k ts t} (h : Expr k ts t) : ts.head? = some t.token := by
  match h with
  | .operand _ h => exact h.head_token
  | .chain _ hfirst _ => rw [head?_append, hfirst.head_token]; rfl
  | .run _ _ _ | .group _ _ _ | .boolean _ | .number _ | .identifier _ => rfl

lemma Expr.ne_nil {k ts t} (h : Expr k ts t) : ts ≠ [] := by
  intro hts
  cases (congrArg head? hts).symm.trans h.head_token

lemma exists_cons_of_head? {α : Type} {a : α} {as : List α} (h : as.head? = some a) :
    ∃ rest, as = a :: rest := by
  cases as with
  | nil => cases h
  | cons b rest => exact ⟨rest, by rw [Option.some.inj h]⟩

lemma Rest.head_joins {k us ops trees} (h : Rest k us ops trees) : ∃ op us', us = op :: us' ∧
    k.joins op.kind = true := by
  cases h with
  | last _ hop _ => exact ⟨_, _, rfl, hop⟩
  | more _ hop _ _ _ => exact ⟨_, _, rfl, hop⟩

/-- An expression begins with an operand without signs, or with a sign of its rank or a later one.
-/
lemma Expr.head_begins {k ts e} (h : Expr k ts e) : ∃ t us, ts = t :: us ∧
    (t.kind.beginsPrimary = true ∨ ∃ j : Rank, k.depth ≤ j.depth ∧ j.leads t.kind = true) := by
  match h with
  | .operand hk h =>
    obtain ⟨t, us, rfl, ht | ⟨j, hj, ht⟩⟩ := h.head_begins
    · exact ⟨t, us, rfl, .inl ht⟩
    · exact ⟨t, us, rfl, .inr ⟨j, by rw [Rank.depth_next hk] at hj; omega, ht⟩⟩
  | .chain hk hfirst _ =>
    obtain ⟨t, us, rfl, ht | ⟨j, hj, ht⟩⟩ := hfirst.head_begins
    · exact ⟨t, _, rfl, .inl ht⟩
    · exact ⟨t, _, rfl, .inr ⟨j, by rw [Rank.depth_next hk] at hj; omega, ht⟩⟩
  | .run _ hsigns _ => exact ⟨_, _, rfl, .inr ⟨_, Nat.le_refl _, hsigns _ (.head _)⟩⟩
  | .group hopening _ _ => exact ⟨_, _, rfl, .inl (by rw [hopening]; rfl)⟩
  | .boolean ht => exact ⟨_, _, rfl, .inl (by rcases ht with ht | ht <;> rw [ht] <;> rfl)⟩
  | .number ht | .identifier ht => exact ⟨_, _, rfl, .inl (by rw [ht]; rfl)⟩

lemma Expr.leads_head {k k' : Rank} {us e} (hk : k.next? = some k') (h : Expr k' us e) (t : Token) :
    k.leads (us.headD t).kind = false := by
  obtain ⟨t, us, rfl, ht⟩ := h.head_begins
  exact Rank.leads_eq_false hk ht

namespace Read

/-- What a rank adds behind its first operand. -/
def restOf (k : Rank) (operand : Read Tree) (n : Nat) : Read (List (TokenKind × Tree)) :=
  match k with
  | .comparison => comparisonRest operand
  | k => chainRest k operand n

/-- What a rank adds to its operands. -/
def level (k : Rank) (operand : Read Tree) (n : Nat) : Read Tree :=
  match k with
  | .primary => operand
  | .negated => marked n .negated operand
  | .signed => marked n .signed operand
  | k => joined k operand (restOf k operand n)

/-- The expressions of a rank. -/
def ofRank : Rank → Nat → Read Tree
  | .primary, n => primary (logic n)
  | .negated, n => negated n (logic n)
  | .signed, n => signed n (logic n)
  | .product, n => product n (logic n)
  | .sum, n => sum n (logic n)
  | .comparison, n => comparison (sum n (logic n))
  | .logic, n => logic (n + 1)

section Levels

variable {n : Nat} {k k' : Rank} {kind : TokenKind} {operand : Read Tree} {next op : Token}

lemma ofRank_next (hk : k.next? = some k') (n : Nat) : ofRank k n = level k (ofRank k' n) n := by
  cases k <;> cases hk <;> rfl

lemma level_eq_marked (h : k.leads kind = true) : level k operand n = marked n k operand := by
  cases k <;> first | rfl | cases h

lemma level_eq_joined (h : k.joins kind = true) :
    level k operand n = joined k operand (restOf k operand n) := by
  cases k <;> first | rfl | cases h

lemma restOf_eq_chainRest (hk : k ≠ .comparison) : restOf k operand n = chainRest k operand n := by
  cases k <;> first | rfl | exact absurd rfl hk

lemma comes_signs {signs : List Token} (ts : List Token)
    (hsigns : ∀ s ∈ signs, k.leads s.kind = true) (ht : k.leads t.kind = false)
    (hn : signs.length < n) :
    Comes (Read.signs k n) (signs ++ t :: ts) (.done (signs.map Token.kind) (t :: ts)) := by
  induction signs generalizing n with
  | nil =>
    cases n with
    | zero => cases hn
    | succ n =>
      rw [Read.signs]
      exact .check_neg ht (.pure [] _)
  | cons sign signs ih =>
    cases n with
    | zero => cases hn
    | succ n =>
      have hsign := hsigns sign (.head _)
      rw [Read.signs]
      refine .check_pos hsign (.get fun p hp => ?_)
      rw [hp]
      refine .bind (.advance (Rank.isPassable_of_leads hsign))
        (.bind (ih (fun s hs => hsigns s (.tail _ hs)) ?_) (.pure _ _))
      exact Nat.lt_of_succ_lt_succ hn

/-- Behind signs, if only none. -/
lemma comes_marked {signs : List Token} {o : Outcome Tree}
    (hsigns : ∀ s ∈ signs, k.leads s.kind = true) (ht : k.leads t.kind = false)
    (hn : signs.length < n) (h : Comes (do
      let e ← operand
      return if signs.isEmpty then e else .node k.kind (signs.headD t) "" (signs.map Token.kind)
        [e]) (t :: ts) o) :
    Comes (marked n k operand) (signs ++ t :: ts) o := by
  have hread := comes_signs ts hsigns ht hn
  rw [append_cons_eq] at hread ⊢
  refine .get fun p hp => .bind hread ?_
  rw [hp, isEmpty_map]
  cases signs <;> exact h

/-- Behind the operator of a chain. -/
lemma comes_restOf_more {o} (hk : k ≠ .comparison) (hop : k.joins op.kind = true) (h : Comes (do
      let e ← operand
      return (op.kind, e) :: (← restOf k operand n)) ts o) :
    Comes (restOf k operand (n + 1)) (op :: ts) o := by
  rw [restOf_eq_chainRest hk] at h ⊢
  refine .check_pos hop (.get fun p hp => ?_)
  rw [hp]
  exact .bind (.advance (Rank.isPassable_of_joins hop)) h

/-- Behind the operator of a comparison. -/
lemma comes_comparisonRest {o} (hop : op.kind.isRelation = true) (h : Comes (do
      let right ← operand
      let next := (← get).current
      if next.kind.isRelation then fail next .chainedComparison
      else return [(op.kind, right)]) ts o) : Comes (comparisonRest operand) (op :: ts) o := by
  rw [comparisonRest]
  refine .get fun p hp => ?_
  simp only [hp, hop, if_true]
  exact .bind (.advance (Rank.isPassable_of_joins (k := .comparison) hop)) h

/-- Nothing is added in front of a token that is no operator. -/
lemma comes_restOf_nil (operand : Read Tree) (ts : List Token) (hn : 0 < n)
    (ht : k.joins t.kind = false) :
    Comes (restOf k operand n) (t :: ts) (.done [] (t :: ts)) := by
  by_cases hk : k = .comparison
  · subst hk
    refine .get fun p hp => ?_
    replace ht : t.kind.isRelation = false := ht
    simp only [hp, ht, Bool.false_eq_true, if_false]
    exact .pure [] _
  · obtain ⟨n, rfl⟩ := Nat.exists_eq_add_one.mpr hn
    rw [restOf_eq_chainRest hk, chainRest]
    exact .check_neg ht (.pure [] _)

/-- One operand is added in front of a token that is no operator. -/
lemma comes_restOf_last {e} (hop : k.joins op.kind = true) (hn : 1 < n)
    (h : Comes operand ts (.done e (t :: us))) (ht : k.joins t.kind = false) :
    Comes (restOf k operand n) (op :: ts) (.done [(op.kind, e)] (t :: us)) := by
  by_cases hk : k = .comparison
  · subst hk
    refine comes_comparisonRest hop (.bind h (.get fun p hp => ?_))
    replace ht : t.kind.isRelation = false := ht
    simp only [hp, ht, Bool.false_eq_true, if_false]
    exact .pure _ _
  · obtain ⟨n, rfl⟩ := Nat.exists_eq_add_one.mpr (Nat.zero_lt_of_lt hn)
    have hnil := comes_restOf_nil operand us (Nat.lt_of_succ_lt_succ hn) ht
    exact comes_restOf_more hk hop (.bind h (hnil.map _))

lemma comes_joined {o rest} (h : Comes (do
      let e ← operand
      let rest ← rest
      return if rest.isEmpty then e else .node k.kind t "" (rest.map Prod.fst)
        (e :: rest.map Prod.snd)) (t :: ts) o) :
    Comes (joined k operand rest) (t :: ts) o := by
  simp only [apply_ite pure] at h
  refine .get fun p hp => ?_
  rwa [hp]

/-- A rank adds nothing to a lone operand. -/
lemma comes_level_lone {e} (h : Comes operand (us ++ t :: vs) (.done e (t :: vs))) (hn : 0 < n)
    (hlead : k.leads (us.headD t).kind = false) (ht : k.joins t.kind = false) :
    Comes (level k operand n) (us ++ t :: vs) (.done e (t :: vs)) := by
  rw [append_cons_eq us t vs] at h ⊢
  cases k with
  | primary => exact h
  | negated | signed => exact comes_marked (forall_mem_nil _) hlead hn (h.map _)
  | comparison | product | sum | logic =>
      exact comes_joined (.bind h (.bind (comes_restOf_nil _ _ hn ht) (.pure _ _)))

end Levels

section Primary

variable {inner : Read Tree}

lemma comes_primary_stuck (ht : t.kind.beginsPrimary = false) :
    Comes (primary inner) (t :: ts) (.stuck t .expectedExpression) := by
  simp only [TokenKind.beginsPrimary, mem_cons, not_mem_nil, or_false,
    decide_eq_false_iff_not, not_or] at ht
  obtain ⟨hopening, htrue, hfalse, hnumber, hname⟩ := ht
  rw [primary]
  refine .get fun p hp => ?_
  rw [hp]
  exact .accept_neg hopening (.accept_neg htrue
    (.accept_neg hfalse (.accept_neg hnumber (.accept_neg hname (.fail _ _ _)))))

/-- Behind an opening parenthesis. -/
lemma comes_primary_group {o} (ht : t.kind = .leftParen) (h : Comes (do
      let e ← inner
      let _ ← expect .rightParen .expectedGroupEnd
      return .branch .group t [e]) ts o) : Comes (primary inner) (t :: ts) o := by
  rw [primary]
  refine .get fun p hp => ?_
  rw [hp]
  exact .accept_pos ht rfl h

lemma comes_primary_boolean (inner : Read Tree) (ts : List Token)
    (ht : t.kind = .kwTrue ∨ t.kind = .kwFalse) :
    Comes (primary inner) (t :: ts) (.done (.leaf .boolLiteral t t.kind.spelling) ts) := by
  rw [primary]
  refine .get fun p hp => ?_
  rw [hp]
  rcases ht with ht | ht <;> rw [ht]
  · exact .accept_neg (by simp [ht]) (.accept_pos ht rfl (.pure _ _))
  · exact .accept_neg (by simp [ht]) (.accept_neg (by simp [ht]) (.accept_pos ht rfl (.pure _ _)))

lemma comes_primary_number (inner : Read Tree) (ts : List Token) (ht : t.kind = .number) :
    Comes (primary inner) (t :: ts) (.done (.leaf .intLiteral t t.value) ts) := by
  rw [primary]
  refine .get fun p hp => ?_
  rw [hp]
  exact .accept_neg (by simp [ht]) (.accept_neg (by simp [ht]) (.accept_neg (by simp [ht])
    (.accept_pos ht rfl (.pure _ _))))

lemma comes_primary_identifier (inner : Read Tree) (ts : List Token) (ht : t.kind = .identifier) :
    Comes (primary inner) (t :: ts) (.done (.leaf .identifier t t.value) ts) := by
  rw [primary]
  refine .get fun p hp => ?_
  rw [hp]
  exact .accept_neg (by simp [ht]) (.accept_neg (by simp [ht]) (.accept_neg (by simp [ht])
    (.accept_neg (by simp [ht]) (.accept_pos ht rfl (.pure _ _)))))

end Primary

end Read

mutual

/-- The text of an expression is read, up to a token that does not continue it. -/
lemma Expr.reads {k us e t} (h : Expr k us e) (hstops : k.Stops t.kind) :
    Leads (ofRank k) us t (.done e) := by
  intro n vs hn
  match h with
  | .operand hk h =>
    rw [ofRank_next hk]
    exact comes_level_lone (h.reads (hstops.next hk) n vs hn) (by omega) (h.leads_head hk t)
      (hstops _ (Nat.le_refl _))
  | @Expr.chain _ k' ts e us ops trees hk hfirst hrest =>
    obtain ⟨op, us', hus, hop⟩ := hrest.head_joins
    rw [length_append] at hn
    have hoperand := hfirst.reads (Rank.Stops.of_joins hk hop) n (us' ++ t :: vs) (by omega)
    obtain ⟨rest, hne, rfl, rfl, hread⟩ :=
      hrest.reads hk vs hstops (n := n) (m := n) (by omega) (by omega)
    obtain ⟨ts', rfl⟩ := exists_cons_of_head? hfirst.head_token
    rw [ofRank_next hk, level_eq_joined hop, append_assoc, hus]
    refine comes_joined (.bind hoperand (.bind (hus ▸ hread) ?_))
    rw [if_neg (by simpa using hne)]
    exact .pure _ _
  | @Expr.run _ _ sign signs ts e hk hsigns h =>
    have hlead := h.leads_head hk t
    rw [length_append] at hn
    have hoperand := h.reads (hstops.next hk) n vs (by omega)
    rw [ofRank_next hk, level_eq_marked (hsigns sign (.head _)), append_assoc]
    rw [append_cons_eq ts t vs] at hoperand ⊢
    exact comes_marked hsigns hlead (by omega) (hoperand.map _)
  | @Expr.group opening closing ts e hopening h hclosing =>
    rw [length_append, length_cons, length_singleton] at hn
    obtain ⟨n, rfl⟩ := Nat.exists_eq_add_one.mpr (Nat.zero_lt_of_lt hn)
    have hinner := h.reads (hclosing ▸ Rank.stops_rightParen) n (t :: vs) (by omega)
    rw [append_assoc]
    exact comes_primary_group hopening (.bind hinner (.expect hclosing rfl (.pure _ _)))
  | .boolean ht => exact comes_primary_boolean _ _ ht
  | .number ht => exact comes_primary_number _ _ ht
  | .identifier ht => exact comes_primary_identifier _ _ ht

lemma Rest.reads {k k' us ops trees t n m} (h : Rest k us ops trees) (hk : k.next? = some k')
    (vs : List Token) (hstops : k.Stops t.kind) (hn : us.length < n) (hm : us.length < m) :
    ∃ rest, rest ≠ [] ∧ rest.map Prod.fst = ops ∧ rest.map Prod.snd = trees ∧
      Comes (restOf k (ofRank k' n) m) (us ++ t :: vs) (.done rest (t :: vs)) := by
  match h with
  | @Rest.last _ _ op ts e hk' hop h =>
    rw [length_cons] at hn hm
    have hoperand := h.reads (hstops.next hk') n vs (by omega)
    have hne := length_pos_iff.mpr h.ne_nil
    cases hk.symm.trans hk'
    exact ⟨[(op.kind, e)], cons_ne_nil _ _, rfl, rfl,
      comes_restOf_last hop (by omega) hoperand (hstops k (Nat.le_refl _))⟩
  | @Rest.more _ _ op ts e us ops trees hk' hop h hgoes hrest =>
    obtain ⟨op', us', hus, hop'⟩ := hrest.head_joins
    rw [length_append, length_cons] at hn hm
    obtain ⟨m, rfl⟩ := Nat.exists_eq_add_one.mpr (Nat.zero_lt_of_lt hm)
    have hoperand := h.reads (Rank.Stops.of_joins hk' hop') n (us' ++ t :: vs) (by omega)
    obtain ⟨rest, hne, rfl, rfl, hmore⟩ :=
      hrest.reads hk vs hstops (n := n) (m := m) (by omega) (by omega)
    cases hk.symm.trans hk'
    refine ⟨(op.kind, e) :: rest, cons_ne_nil _ _, rfl, rfl, ?_⟩
    rw [append_assoc, hus]
    exact comes_restOf_more hgoes hop (.bind hoperand (Comes.map (hus ▸ hmore) _))

end

lemma Read.comes_expression {n o} (h : Comes (do
      let e ← logic n
      return .branch .expression t [e]) (t :: ts) o) : Comes (expression n) (t :: ts) o :=
  .get fun p hp => by rwa [hp]

lemma WholeExpr.reads {e} (h : WholeExpr us e) (hstops : Rank.logic.Stops t.kind) :
    Leads (fun n => expression (n + 1)) us t (.done e) := by
  intro n vs hn
  cases h with
  | whole h =>
    have hlogic := h.reads hstops n vs hn
    obtain ⟨us, rfl⟩ := exists_cons_of_head? h.head_token
    exact comes_expression (.bind hlogic (.pure _ _))

/-! ## Statements -/

/-- What is wrong with a token that a statement should begin with. -/
def Token.startFault? (settings : Settings) (t : Token) : Option ParseFault :=
  match t.kind with
  | .semicolon | .leftBrace | .kwIf | .kwWhile | .identifier => none
  | .kwSwitch => if settings.feature .switchStatements then none else some .selectionDisabled
  | .kwCase | .kwDefault => some .strayClause
  | .kwElse => some .strayElse
  | _ => some .expectedStatement

/-- A statement begins with a token that can begin one. -/
lemma Statement.head_starts {rule us tree} (h : Statement rule settings us tree) :
    ∃ t us', us = t :: us' ∧ t.startFault? settings = none := by
  cases h with
  | empty h | block h _ _ | conditional h _ _ _ _ | alternative h _ _ _ _ _ _ _
  | loop h _ _ _ _ | assignment h _ _ _ =>
    exact ⟨_, _, rfl, by rw [Token.startFault?, h]⟩
  | selection h henabled _ _ _ _ _ _ =>
      exact ⟨_, _, rfl, by rw [Token.startFault?, h]; exact if_pos henabled⟩

lemma Statement.ne_nil {rule tree} (h : Statement rule settings us tree) : us ≠ [] := by
  cases h <;> simp

namespace Token

lemma ne_else_of_starts (h : t.startFault? settings = none) : t.kind ≠ .kwElse := by
  intro ht
  rw [startFault?, ht] at h
  cases h

lemma endsClause_of_starts (h : t.startFault? settings = none) : endsClause t.kind = false := by
  rw [startFault?] at h
  split at h
  case h_7 hkind | h_8 hkind | h_9 hkind => cases h
  all_goals simp_all [endsClause, endsBlock]

lemma endsProgram_of_starts (h : t.startFault? settings = none) :
    decide (t.kind = .endOfFile) = false ∧ declares t.kind = false := by
  rw [startFault?] at h
  split at h
  case h_7 hkind | h_8 hkind | h_9 hkind => cases h
  all_goals simp_all [declares]

lemma endsBlock_of_starts (h : t.startFault? settings = none) : endsBlock t.kind = false :=
  (Bool.or_eq_false_iff.mp (endsClause_of_starts h)).2

end Token

lemma Clauses.endsClause_head {rule clauses} (h : Clauses rule settings us clauses)
    (ht : endsBlock t.kind = true) : endsClause (us.headD t).kind = true := by
  cases h with
  | nil => exact Bool.or_eq_true_iff.mpr (.inr ht)
  | case hkeyword _ _ _ _ => exact congrArg endsClause hkeyword
  | default hkeyword _ _ _ => exact congrArg endsClause hkeyword

/-- No statement begins with a declaration. -/
lemma Statements.declares_head {rule trees} (h : Statements rule settings us trees)
    (ht : declares t.kind = false) :
    declares (us.headD t).kind = false := by
  cases h with
  | nil => exact ht
  | cons htree _ =>
    obtain ⟨first, ts, rfl, hstart⟩ := htree.head_starts
    exact (Token.endsProgram_of_starts hstart).2

lemma Statements.ne_else_head {rule trees} (h : Statements rule settings us trees)
    (ht : t.kind ≠ .kwElse) :
    (us.headD t).kind ≠ .kwElse := by
  cases h with
  | nil => exact ht
  | cons htree _ =>
    obtain ⟨first, ts, rfl, hstart⟩ := htree.head_starts
    exact Token.ne_else_of_starts hstart

namespace Read

section Statements

variable {n : Nat}

lemma comes_heading {opening closing : Token} {es e} (heading : Heading) (vs : List Token)
    (hopening : opening.kind = .leftParen) (he : WholeExpr es e)
    (hclosing : closing.kind = .rightParen) (hn : es.length + 1 < n) :
    Comes (Read.heading n heading) (opening :: (es ++ closing :: vs)) (.done e vs) := by
  obtain ⟨n, rfl⟩ := Nat.exists_eq_add_one.mpr (Nat.zero_lt_of_lt hn)
  have hexpression := he.reads (hclosing ▸ Rank.stops_rightParen) n vs (by omega)
  exact .expect hopening rfl (.bind hexpression (.expect hclosing rfl (.pure _ _)))

lemma comes_caseValue {value} {colon : Token} (vs : List Token) (h : CaseValue us value)
    (hcolon : colon.kind = .colon) :
    Comes caseValue (us ++ colon :: vs) (.done value vs) := by
  rw [caseValue]
  cases h with
  | plain hdigits =>
    refine .get fun p hp => .bind (.refused (by simp [hdigits])) ?_
    rw [hp]
    refine .expect hdigits rfl (.expect hcolon rfl ?_)
    simpa using Comes.pure _ _
  | negative hsign hdigits =>
    refine .get fun p hp => .bind (.accepted hsign rfl) ?_
    rw [hp]
    exact .expect hdigits rfl (.expect hcolon rfl (.pure _ _))

/-- A loop goes on with a statement at some tokens and ends at others. -/
structure LoopsOver (loop : Read Tree → Nat → Read (List Tree))
    (goes ends : TokenKind → Bool) : Prop where
  item {statement n t ts o} : goes t.kind = true → Comes (do
    let first ← statement
    return first :: (← loop statement n)) (t :: ts) o → Comes (loop statement (n + 1)) (t :: ts) o
  stop {statement n t} (ts : List Token) : ends t.kind = true →
    Comes (loop statement (n + 1)) (t :: ts) (.done [] (t :: ts))

lemma loopsOver_statementsUntil (ends : TokenKind → Bool) :
    LoopsOver (statementsUntil ends) (fun k => !ends k) ends where
  item ht h := .check_neg (Bool.not_eq_true' _ ▸ ht) h
  stop _ ht := .check_pos ht (.pure [] _)

lemma loopsOver_statements :
    LoopsOver statements (fun k => !decide (k = .endOfFile) && !declares k) (· = .endOfFile) where
  item ht h := by
    rw [Bool.and_eq_true, Bool.not_eq_true', Bool.not_eq_true'] at ht
    exact .check_neg ht.1 (.check_neg ht.2 h)
  stop _ ht := .check_pos ht (.pure [] _)

/-- Behind the keyword of a case. -/
lemma comes_case {statement o} (ht : t.kind = .kwCase) (h : Comes (do
      let value ← caseValue
      let body ← statementsUntil endsClause statement n
      return .branch .caseClause t (value :: body) :: (← clauses statement n)) ts o) :
    Comes (clauses statement (n + 1)) (t :: ts) o := by
  rw [clauses]
  refine .check_neg (by rw [ht]; rfl) (.get fun p hp => .accept_pos ht rfl ?_)
  rwa [hp]

/-- Behind the keyword of a default. -/
lemma comes_default {statement o} (ht : t.kind = .kwDefault) (h : Comes (do
      let _ ← expect .colon .expectedDefaultColon
      let body ← statementsUntil endsClause statement n
      return .branch .defaultClause t body :: (← clauses statement n)) ts o) :
    Comes (clauses statement (n + 1)) (t :: ts) o := by
  rw [clauses]
  refine .check_neg (by rw [ht]; rfl) (.get fun p hp =>
    .accept_neg (by simp [ht]) (.accept_pos ht rfl ?_))
  rwa [hp]

lemma comes_clauses_nil {statement} (ht : endsBlock t.kind = true) (ts : List Token) :
    Comes (clauses statement (n + 1)) (t :: ts) (.done [] (t :: ts)) := .check_pos ht (.pure [] _)

section Starts

variable {o : Outcome Tree}

lemma comes_semicolon (ht : t.kind = .semicolon) (ts : List Token) :
    Comes (statement settings (n + 1)) (t :: ts) (.done (.branch .statement t []) ts) := by
  rw [statement]
  refine .get fun p hp => .accept_pos ht rfl ?_
  rw [hp]
  exact .pure _ _

lemma comes_block (ht : t.kind = .leftBrace) (h : Comes (do
      let body ← statementsUntil endsBlock (statement settings n) n
      let _ ← expect .rightBrace .unclosedBlock
      return Tree.wrapStatement t (.branch .block t body)) ts o) :
    Comes (statement settings (n + 1)) (t :: ts) o := by
  rw [statement]
  refine .get fun p hp => .accept_neg (by simp [ht]) (.accept_pos ht rfl ?_)
  rwa [hp]

lemma comes_conditional (ht : t.kind = .kwIf) (h : Comes (do
      let condition ← heading n .conditional
      let body ← statement settings n
      if ← accept .kwElse then
        return Tree.conditionalTree t condition [body, ← statement settings n]
      else return Tree.conditionalTree t condition [body]) ts o) :
    Comes (statement settings (n + 1)) (t :: ts) o := by
  rw [statement]
  refine .get fun p hp => .accept_neg (by simp [ht])
    (.accept_neg (by simp [ht]) (.accept_pos ht rfl ?_))
  rwa [hp]

lemma comes_loop (ht : t.kind = .kwWhile) (h : Comes (do
      let condition ← heading n .loop
      return Tree.loopTree t condition (← statement settings n)) ts o) :
    Comes (statement settings (n + 1)) (t :: ts) o := by
  rw [statement]
  refine .get fun p hp => .accept_neg (by simp [ht])
    (.accept_neg (by simp [ht]) (.accept_neg (by simp [ht]) (.accept_pos ht rfl ?_)))
  rwa [hp]

/-- A statement that begins with none of the tokens that are gone past at once. -/
lemma comes_other (ht : t.kind ∉ [.semicolon, .leftBrace, .kwIf, .kwWhile]) (h : Comes (do
      if ← check (· = .kwSwitch) then
        if settings.feature .switchStatements then
          advance
          return Tree.wrapStatement t (← selection n (statement settings n) t)
        else fail t .selectionDisabled
      else if ← check (· = .identifier) then assignment n
      else if ← check fun k => k = .kwCase || k = .kwDefault then fail t .strayClause
      else if ← check (· = .kwElse) then fail t .strayElse
      else fail t .expectedStatement) (t :: ts) o) :
    Comes (statement settings (n + 1)) (t :: ts) o := by
  simp only [mem_cons, not_mem_nil, or_false, not_or] at ht
  rw [statement]
  refine .get fun p hp => .accept_neg ht.1
    (.accept_neg ht.2.1 (.accept_neg ht.2.2.1 (.accept_neg ht.2.2.2 ?_)))
  rwa [hp]

lemma comes_selection (ht : t.kind = .kwSwitch)
    (henabled : settings.feature .switchStatements = true) (h : Comes (do
      return Tree.wrapStatement t (← selection n (statement settings n) t)) ts o) :
    Comes (statement settings (n + 1)) (t :: ts) o := by
  refine comes_other (by simp [ht]) (.check_pos (decide_eq_true ht) ?_)
  rw [if_pos henabled]
  exact .bind (.advance (by rw [ht]; rfl)) h

lemma comes_assignment (ht : t.kind = .identifier) (h : Comes (do
      let sign ← expect .assign .expectedAssign
      let value ← expression n
      let _ ← expect .semicolon .expectedAssignmentEnd
      return Tree.assignmentTree t sign value) ts o) :
    Comes (statement settings (n + 1)) (t :: ts) o := by
  refine comes_other (by simp [ht]) (.check_neg (by simp [ht]) (.check_pos (decide_eq_true ht) ?_))
  rw [assignment]
  refine .get fun p hp => .bind (.advance (by rw [ht]; rfl)) ?_
  rwa [hp]

/-- A token that begins no statement. -/
lemma comes_startFault {fault} (ht : t.startFault? settings = some fault) :
    Comes (statement settings (n + 1)) (t :: ts) (.stuck t fault) := by
  have hother : t.kind ∉ [TokenKind.semicolon, .leftBrace, .kwIf, .kwWhile] := by
    intro hkind
    rw [Token.startFault?] at ht
    simp only [mem_cons, not_mem_nil, or_false] at hkind
    rcases hkind with hkind | hkind | hkind | hkind <;> rw [hkind] at ht <;> cases ht
  refine comes_other hother ?_
  rw [Token.startFault?] at ht
  split at ht
  case h_6 hkind =>
    refine .check_pos (decide_eq_true hkind) ?_
    split at ht
    · cases ht
    · cases ht
      rw [if_neg ‹_›]
      exact .fail _ _ _
  case h_7 hkind | h_8 hkind =>
    cases ht
    exact .check_neg (by simp [hkind])
      (.check_neg (by simp [hkind]) (.check_pos (by simp [hkind]) (.fail _ _ _)))
  case h_9 hkind =>
    cases ht
    exact .check_neg (by simp [hkind]) (.check_neg (by simp [hkind]) (.check_neg (by simp [hkind])
      (.check_pos (by simp [hkind]) (.fail _ _ _))))
  case h_10 =>
    cases ht
    exact .check_neg (by simpa) (.check_neg (by simpa)
      (.check_neg (by simp_all) (.check_neg (by simpa) (.fail _ _ _))))
  all_goals cases ht

end Starts

end Statements

end Read

mutual

/-- The text of a statement is read, up to a token that does not continue it. -/
lemma Statement.reads {us tree t} (h : Statement .nearest settings us tree)
    (hother : tree.endsOpen = true → t.kind ≠ .kwElse) :
    Leads (statement settings) us t (.done tree) := by
  intro n vs hn
  obtain ⟨n, rfl⟩ := Nat.exists_eq_add_one.mpr (Nat.zero_lt_of_lt hn)
  match h with
  | .empty hstop => exact comes_semicolon hstop _
  | .block hopening hbody hclosing =>
    simp only [cons_append, append_assoc, nil_append, length_cons, length_append] at hn ⊢
    have htext := hbody.reads (loopsOver_statementsUntil endsBlock) (fun _ ht => by
      simp [Token.endsBlock_of_starts ht]) (t := _) (by rw [hclosing]; rfl) rfl (t :: vs) (n := n)
        (m := n) (by omega) (by omega)
    exact comes_block hopening (.bind htext (.expect hclosing rfl (.pure _ _)))
  | .conditional hkeyword hopening he hclosing ht =>
    simp only [cons_append, append_assoc, length_cons, length_append] at hn ⊢
    have hbody := ht.reads (fun _ => hother rfl) n vs (by omega)
    refine comes_conditional hkeyword (.bind (comes_heading _ _ hopening he hclosing (by omega)) ?_)
    exact .bind hbody (.accept_neg (hother rfl) (.pure _ _))
  | @Statement.alternative _ _ _ _ _ _ _ _ _ other _ _ hkeyword hopening he hclosing ht
      helse hu hnearest =>
    simp only [cons_append, append_assoc, length_cons, length_append] at hn ⊢
    have hbody := ht.reads (t := other) (fun hopen => by cases hopen.symm.trans (hnearest rfl)) n
    have halternative := hu.reads hother n vs (by omega)
    refine comes_conditional hkeyword (.bind (comes_heading _ _ hopening he hclosing (by omega)) ?_)
    exact .bind (hbody _ (by omega)) (.accept_pos helse rfl (.bind halternative (.pure _ _)))
  | .loop hkeyword hopening he hclosing ht =>
    simp only [cons_append, append_assoc, length_cons, length_append] at hn ⊢
    have hbody := ht.reads hother n vs (by omega)
    exact comes_loop hkeyword (.bind (comes_heading _ _ hopening he hclosing (by omega))
      (.bind hbody (.pure _ _)))
  | .selection hkeyword henabled hopening he hclosing hleft hclauses hright =>
    simp only [cons_append, append_assoc, nil_append, length_cons, length_append] at hn ⊢
    have htext := hclauses.reads (t := _) (by rw [hright]; rfl) (t :: vs) (n := n) (m := n)
      (by omega) (by omega)
    refine comes_selection hkeyword henabled (.bind ?_ (.pure _ _))
    refine .bind (comes_heading _ _ hopening he hclosing (by omega)) (.expect hleft rfl ?_)
    exact .bind htext (.expect hright rfl (.pure _ _))
  | .assignment hname hsign he hstop =>
    simp only [cons_append, append_assoc, nil_append, length_cons, length_append] at hn ⊢
    obtain ⟨n, rfl⟩ := Nat.exists_eq_add_one.mpr (show 0 < n by omega)
    have hvalue := he.reads (hstop ▸ Rank.stops_semicolon) n (t :: vs) (by omega)
    exact comes_assignment hname (.expect hsign rfl (.bind hvalue (.expect hstop rfl (.pure _ _))))

/-- Statements, one behind the other, are read by a loop that ends behind them. -/
lemma Statements.reads {us trees t loop goes ends n m} (h : Statements .nearest settings us trees)
    (hloop : LoopsOver loop goes ends)
    (hgoes : ∀ t : Token, t.startFault? settings = none → goes t.kind = true)
    (ht : ends t.kind = true) (helse : ends .kwElse = false) (vs : List Token) (hn : us.length < n)
    (hm : us.length < m) :
    Comes (loop (statement settings n) m) (us ++ t :: vs) (.done trees (t :: vs)) := by
  obtain ⟨m, rfl⟩ := Nat.exists_eq_add_one.mpr (Nat.zero_lt_of_lt hm)
  match h with
  | .nil => exact hloop.stop vs ht
  | @Statements.cons _ _ ts tree us trees htree htrees =>
    have hpos := length_pos_iff.mpr htree.ne_nil
    have hother : t.kind ≠ .kwElse := fun hkind => by rw [hkind, helse] at ht; cases ht
    rw [length_append] at hn hm
    have htext := htree.reads (t := us.headD t) (fun _ => htrees.ne_else_head hother) n
      (us ++ t :: vs).tail (by omega)
    have hmore := htrees.reads hloop hgoes ht helse vs (n := n) (m := m) (by omega) (by omega)
    rw [← append_cons_eq us t vs] at htext
    obtain ⟨first, ts, rfl, hstart⟩ := htree.head_starts
    rw [append_assoc]
    exact hloop.item (hgoes first hstart) (.bind htext (hmore.map _))

lemma Clauses.reads {us trees t n m} (h : Clauses .nearest settings us trees)
    (ht : endsBlock t.kind = true) (vs : List Token) (hn : us.length < n) (hm : us.length < m) :
    Comes (clauses (statement settings n) m) (us ++ t :: vs) (.done trees (t :: vs)) := by
  obtain ⟨m, rfl⟩ := Nat.exists_eq_add_one.mpr (Nat.zero_lt_of_lt hm)
  match h with
  | .nil => exact comes_clauses_nil ht vs
  | @Clauses.case _ _ keyword ws value colon ts trees us clauses hkeyword hvalue hcolon
      hbody hclauses =>
    simp only [cons_append, append_assoc, length_cons, length_append] at hn hm ⊢
    have htext := hbody.reads (loopsOver_statementsUntil endsClause) (fun _ ht => by
      simp [Token.endsClause_of_starts ht]) (hclauses.endsClause_head ht) rfl (us ++ t :: vs).tail
        (n := n) (m := m) (by omega)
      (by omega)
    have hmore := hclauses.reads ht vs (n := n) (m := m) (by omega) (by omega)
    rw [← append_cons_eq us t vs] at htext
    exact comes_case hkeyword (.bind (comes_caseValue _ hvalue hcolon) (.bind htext (hmore.map _)))
  | @Clauses.default _ _ keyword colon ts trees us clauses hkeyword hcolon hbody hclauses =>
    simp only [cons_append, append_assoc, length_cons, length_append] at hn hm ⊢
    have htext := hbody.reads (loopsOver_statementsUntil endsClause) (fun _ ht => by
      simp [Token.endsClause_of_starts ht]) (hclauses.endsClause_head ht) rfl (us ++ t :: vs).tail
        (n := n) (m := m) (by omega)
      (by omega)
    have hmore := hclauses.reads ht vs (n := n) (m := m) (by omega) (by omega)
    rw [← append_cons_eq us t vs] at htext
    exact comes_default hkeyword (.expect hcolon rfl (.bind htext (hmore.map _)))

end

/-! ## Programs -/

namespace Read

/-- Behind the keyword of a declaration. -/
lemma comes_declaration {n m o} (ht : declares t.kind = true) (h : Comes (do
      let names ← declaredNames t m
      let _ ← expect .semicolon .expectedDeclarationEnd
      return names ++ (← declarations m n)) ts o) : Comes (declarations m (n + 1)) (t :: ts) o := by
  refine .check_pos ht ?_
  rw [declaration]
  simp only [bind_assoc, pure_bind]
  refine .get fun p hp => .bind (.advance (TokenKind.isPassable_of_declares ht)) ?_
  rwa [hp]

end Read

lemma DeclaredNames.reads {us keyword names} (h : DeclaredNames keyword us names)
    (ht : t.kind ≠ .comma) :
    Leads (declaredNames keyword) us t (.done names) := by
  intro n vs hn
  obtain ⟨n, rfl⟩ := Nat.exists_eq_add_one.mpr (Nat.zero_lt_of_lt hn)
  match h with
  | .last hname => exact .expect hname rfl (.accept_neg ht (.pure _ _))
  | .more hname hcomma h =>
    simp only [length_cons] at hn
    have hmore := h.reads ht n vs (by omega)
    exact .expect hname rfl (.accept_pos hcomma rfl (.bind hmore (.pure _ _)))

lemma Declarations.reads {us declarations n m} (h : Declarations us declarations)
    (ht : declares t.kind = false) (vs : List Token) (hn : us.length < n) (hm : us.length < m) :
    Comes (Read.declarations n m) (us ++ t :: vs) (.done declarations (t :: vs)) := by
  obtain ⟨m, rfl⟩ := Nat.exists_eq_add_one.mpr (Nat.zero_lt_of_lt hm)
  match h with
  | .nil => exact .check_neg ht (.pure [] _)
  | @Declarations.cons keyword ts names stop us rest hkeyword hnames hstop h =>
    simp only [cons_append, append_assoc, length_cons, length_append] at hn hm ⊢
    have hdeclares : declares keyword.kind = true := by simpa [declares] using hkeyword
    have hmore := h.reads ht vs (n := n) (m := m) (by omega) (by omega)
    have htext := hnames.reads (t := stop) (by simp [hstop]) n (us ++ t :: vs) (by omega)
    exact comes_declaration hdeclares (.bind htext (.expect hstop rfl (hmore.map _)))

/-- The text of a program is read, up to the end of the file. -/
lemma comes_programText {ds declarations ss trees n} {eof : Token}
    (hds : Declarations ds declarations) (hss : Statements .nearest settings ss trees)
    (heof : eof.kind = .endOfFile) (hn : (ds ++ ss).length < n) (vs : List Token) :
    Comes (program settings n) (ds ++ ss ++ eof :: vs)
      (.done (.branch .program ((ds ++ ss).headD eof)
        (declarations ++ [.branch .block ((ds ++ ss).headD eof) trees])) (eof :: vs)) := by
  rw [length_append] at hn
  have hstatements := hss.reads loopsOver_statements (fun _ ht => by
    simp [Token.endsProgram_of_starts ht]) (decide_eq_true heof) rfl vs (n := n) (m := n)
      (by omega) (by omega)
  have hdeclarations := hds.reads (hss.declares_head (t := eof) (by rw [heof]; rfl))
    (ss ++ eof :: vs).tail (n := n) (m := n) (by omega) (by omega)
  rw [← append_cons_eq, ← append_assoc, append_cons_eq] at hdeclarations
  rw [append_cons_eq]
  refine .get fun p hp => .bind hdeclarations ?_
  rw [hp]
  exact hstatements.map _

/-! ## Lists of tokens -/

/-- The tokens of a list, with a mark for the end of the file behind them unless they end with one.
-/
def Token.terminated (tokens : List Token) : List Token :=
  if tokens.getLast?.any (·.kind = .endOfFile) then tokens else tokens ++ [({} : Token)]

namespace Token

lemma ended_terminated (tokens : List Token) : Ended (terminated tokens) := by
  rw [terminated]
  split
  · rename_i h
    cases hlast : tokens.getLast? with
    | none => simp [hlast] at h
    | some eof => exact ⟨eof, hlast, by simpa [hlast] using h⟩
  · exact ⟨{}, getLast?_concat, rfl⟩

lemma head?_terminated (tokens : List Token) :
    (terminated tokens).head? = some (tokens.head?.getD {}) := by
  cases tokens with
  | nil => rfl
  | cons t tokens =>
    rw [terminated]
    split <;> rfl

lemma length_terminated (tokens : List Token) : (terminated tokens).length ≤ tokens.length + 1 := by
  rw [terminated]
  split
  · exact Nat.le_succ _
  · exact Nat.le_of_eq length_append

end Token

lemma isTerminated_eq (tokens : List Token) :
    isTerminated tokens.toArray = .ok (tokens.getLast?.any (·.kind = .endOfFile)) := by
  cases htokens : tokens.getLast? with
  | none =>
    rw [getLast?_eq_none_iff] at htokens
    rw [htokens]
    rfl
  | some last =>
    have hne : tokens.toArray.isEmpty = false := by cases tokens with
      | nil => cases htokens
      | cons t tokens => rfl
    have hlast : tokenAt tokens.toArray (tokens.toArray.size - 1) = .ok last := by
      rw [getLast?_eq_getElem?] at htokens
      rw [tokenAt, List.getElem?_toArray, List.size_toArray, htokens]
    rw [isTerminated, hne, hlast]
    rfl

/-- A cursor starts at the first token. -/
lemma Cursor.start_eq (tokens : List Token) : Cursor.start tokens.toArray =
    .ok { tokens := (Token.terminated tokens).toArray, current := tokens.head?.getD {} } := by
  have hpush : (if tokens.getLast?.any (·.kind = .endOfFile) then tokens.toArray
      else tokens.toArray.push {}) = (Token.terminated tokens).toArray := by
    rw [Token.terminated]
    split
    · rfl
    · exact push_toArray tokens {}
  have hfirst : tokenAt (Token.terminated tokens).toArray 0 = .ok (tokens.head?.getD {}) := by
    rw [tokenAt, List.getElem?_toArray, ← head?_eq_getElem?, Token.head?_terminated]
  rw [Cursor.start, isTerminated_eq]
  simp only [bind, Except.bind, hpush, hfirst]
  rfl

namespace Tree

variable {rounds : Nat} {tokens : List Token}

/-- A program looks at its first token, whatever else it does. -/
lemma looked_program (hrounds : 0 < rounds) (p : Cursor) :
    (refuseIllegal >>= fun _ => program settings rounds) p = program settings rounds p := by
  rw [looked_run]
  split
  · rename_i hillegal
    obtain ⟨n, rfl⟩ := Nat.exists_eq_add_of_lt hrounds
    have hrefuses : refuseIllegal p = _ := (refuseIllegal_eq p).trans (if_pos hillegal)
    rw [program, get_run, Read.declarations, Read.check, bind_run, bind_run, bind_run, hrefuses]
    rfl
  · rfl

lemma readWithin_eq (settings : Settings) (rounds : Nat) (tokens : List Token) :
    ∃ p : Cursor, p.At (Token.terminated tokens) ∧
    readWithin settings rounds tokens = (program settings rounds p).map Prod.fst := by
  refine ⟨{ tokens := (Token.terminated tokens).toArray, current := tokens.head?.getD {} },
    ⟨rfl, Token.head?_terminated tokens, Token.ended_terminated tokens⟩, ?_⟩
  rw [readWithin, Cursor.start_eq]
  rfl

/-- A list of tokens that begins with the text of a program is read. -/
lemma readWithin_of_text {ds declarations ss trees} {eof : Token}
    (hds : Declarations ds declarations) (hss : Statements .nearest settings ss trees)
    (heof : eof.kind = .endOfFile) (htokens : Token.terminated tokens = ds ++ ss ++ eof :: vs)
    (hrounds : tokens.length + 1 < rounds) :
    readWithin settings rounds tokens = .ok (.branch .program (tokens.head?.getD {})
      (declarations ++ [.branch .block (tokens.head?.getD {}) trees])) := by
  obtain ⟨p, hp, hread⟩ := readWithin_eq settings rounds tokens
  have hlength := Token.length_terminated tokens
  have hstart : (ds ++ ss).headD eof = tokens.head?.getD {} := by
    have hhead := Token.head?_terminated tokens
    rw [htokens] at hhead
    cases hdss : ds ++ ss <;> rw [hdss] at hhead <;> exact Option.some.inj hhead
  rw [htokens] at hp hlength
  rw [length_append, length_cons] at hlength
  obtain ⟨p', hp', hcomes⟩ := (comes_programText (n := rounds) hds hss heof
    (by omega) vs).agrees p hp
  rw [looked_program (by omega), looked_run, hp'.current_eq, if_neg (by simp [heof]),
    hstart] at hcomes
  rw [hread, hcomes]
  rfl

end Tree

end ThreeAddress
