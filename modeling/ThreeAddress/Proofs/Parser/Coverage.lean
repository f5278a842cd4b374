import ThreeAddress.Proofs.Parser.Descent

/-!
# Reading comes to an end

Whatever tokens stand in front of the end of the file, reading them settles: a text of the grammar
is read, or reading halts at a token, whatever stands behind it, and the tokens before it can be
completed to a text. This is shown along the reader, part by part (`settles_expression`,
`settlesStatement`, `settles_program`). Where it calls itself, there are fewer tokens left.
-/

namespace ThreeAddress

open List Read

variable {settings : Settings} {t : Token} {ts us vs : List Token} {N : Nat}

lemma length_behind (h : ts = us ++ t :: vs) : vs.length < ts.length := by
  rw [h, length_append, length_cons]
  omega

/-- A round less for the parts is still enough. -/
lemma le_next_round {φ : Nat → Nat} (hφ : ∀ n, n ≤ φ n) (n : Nat) : n ≤ φ (n + 1) :=
  Nat.le_trans (Nat.le_succ n) (hφ (n + 1))

/-! ## Expressions -/

namespace Rank

variable {k k' : Rank} {kind : TokenKind}

lemma Stops.of_next (hk : k.next? = some k') (h : k'.Stops kind)
    (hkind : k.joins kind = false) : k.Stops kind := by
  intro j hj
  rcases Nat.eq_or_lt_of_le hj with hj | hj
  · cases k <;> cases j <;> first | exact hkind | cases hj
  · exact h j (depth_next hk ▸ hj)

lemma stops_primary (kind : TokenKind) : primary.Stops kind := by
  intro j hj
  cases j <;> first | rfl | exact absurd hj (by decide)

lemma stops_endOfFile : k.Stops .endOfFile := fun j _ => by cases j <;> rfl

end Rank

/-- An expression of a rank that stops before a token. -/
def ExprText (k : Rank) (us : List Token) (t : Token) (e : Tree) : Prop :=
  Expr k us e ∧ k.Stops t.kind

/-- What a rank adds behind its first operand, at least once. -/
def RestText (k : Rank) (us : List Token) (t : Token) (rest : List (TokenKind × Tree)) : Prop :=
  (rest ≠ [] ∧ Rest k us (rest.map Prod.fst) (rest.map Prod.snd)) ∧ k.Stops t.kind

/-- The expressions of a rank settle in up to `N` tokens. -/
def SettlesRank (N : Nat) (k : Rank) : Prop :=
  ∀ ts, Ended ts → ts.length ≤ N → Settles (ofRank k) (ExprText k) ts

/-- Tokens begin with signs of a rank, if only with none. -/
lemma exists_signs (k : Rank) (hts : Ended ts) : ∃ signs t rest, ts = signs ++ t :: rest ∧
    (∀ s ∈ signs, k.leads s.kind = true) ∧ k.leads t.kind = false := by
  induction ts with
  | nil => exact absurd rfl hts.ne_nil
  | cons t ts ih =>
    cases ht : k.leads t.kind with
    | false => exact ⟨[], t, ts, rfl, forall_mem_nil _, ht⟩
    | true =>
      obtain ⟨-, -, -, hts'⟩ := hts.exists_next
        (TokenKind.ne_endOfFile (Rank.isPassable_of_leads ht))
      obtain ⟨signs, next, rest, rfl, hsigns, hnext⟩ := ih hts'
      exact ⟨t :: signs, next, rest, rfl, forall_mem_cons.mpr ⟨ht, hsigns⟩, hnext⟩

section Ranks

variable {k k' : Rank} (hk : k.next? = some k') (h : SettlesRank N k')

include hk h

/-- Behind an operator. -/
lemma settles_rest {ts} {op : Token} {φ : Nat → Nat} (hφ : ∀ n, n ≤ φ n)
    (hop : k.joins op.kind = true) (hts : Ended ts) (hN : ts.length ≤ N) :
    Settles (fun n => restOf k (ofRank k' (φ n)) n) (RestText k) (op :: ts) := by
  have hoperand := (h ts hts hN).mono (le_next_round hφ)
  have hlast {us e t} (he : Expr k' us e) (hstops : k.Stops t.kind) :
      RestText k (op :: us) t [(op.kind, e)] := ⟨⟨cons_ne_nil _ _, .last hk hop he⟩, hstops⟩
  have hmend us t e (htext : ExprText k' us t e) : Begins (fun us => RestText k (op :: us)) us :=
    .of_text (t := {}) (hlast htext.1 Rank.stops_endOfFile)
  -- Only a comparison is not continued.
  by_cases hgoes : k = .comparison
  · subst hgoes
    refine .past hts (.bind hts hoperand hmend fun us t vs e htext _ _ => ?_)
      fun n ts o h => comes_comparisonRest hop h
    by_cases ht : t.kind.isRelation = true
    · refine .halt .chainedComparison (hmend us t e htext) (fun n ts => .get fun p hp => ?_) vs
      simp only [hp, if_pos ht]
      exact .fail _ _ _
    · refine .stop (a := [(op.kind, e)]) ?_ (fun n ts => .get fun p hp => ?_) vs
      · rw [append_nil]
        exact hlast htext.1 (htext.2.of_next hk (Bool.eq_false_iff.mpr ht))
      · simp only [hp, if_neg ht]
        exact .pure _ _
  · refine .past hts (.bind hts hoperand hmend fun us t vs e htext hvs heq => ?_)
      fun n ts o h => comes_restOf_more hgoes hop h
    cases ht : k.joins t.kind with
    | true =>
      obtain ⟨-, -, -, hvs'⟩ := hvs.exists_next
        (TokenKind.ne_endOfFile (Rank.isPassable_of_joins ht))
      have hshorter := length_behind heq
      refine .map hvs (settles_rest (le_next_round hφ) ht hvs' (by omega))
        fun us' t' rest hrest => ?_
      exact ⟨⟨cons_ne_nil _ _, .more hk hop htext.1 hgoes hrest.1.2⟩, hrest.2⟩
    | false =>
      refine .stop (a := [(op.kind, e)]) ?_
        (fun n ts => (comes_restOf_nil _ _ (Nat.succ_pos n) ht).map _) vs
      rw [append_nil]
      exact hlast htext.1 (htext.2.of_next hk ht)
termination_by ts.length

/-- An operand with what a rank adds behind it. -/
lemma settles_joined (hts : Ended ts) (hN : ts.length ≤ N) :
    Settles (fun n => joined k (ofRank k' n) (restOf k (ofRank k' n) n)) (ExprText k) ts := by
  obtain ⟨t, ts, rfl⟩ := exists_cons_of_ne_nil hts.ne_nil
  refine .step (.bind hts (h _ hts hN) (fun us t e htext => ?_) fun us t' vs e htext hvs heq => ?_)
    fun n ts o h => comes_joined h
  · exact .of_text (t := {}) ⟨.operand hk htext.1, Rank.stops_endOfFile⟩
  cases ht : k.joins t'.kind with
  | true =>
    obtain ⟨-, -, -, hvs'⟩ := hvs.exists_next (TokenKind.ne_endOfFile (Rank.isPassable_of_joins ht))
    have hshorter := length_behind heq
    refine .map hvs (settles_rest hk h Nat.le_refl ht hvs' (by omega)) fun us' t'' rest hrest => ?_
    obtain ⟨us, rfl⟩ := exists_cons_of_head? htext.1.head_token
    cases heq
    rw [if_neg (by simpa using hrest.1.1)]
    exact ⟨.chain hk htext.1 hrest.1.2, hrest.2⟩
  | false =>
    refine .stop (a := e) ?_ (fun n ts => (comes_restOf_nil _ _ (Nat.succ_pos n) ht).map _) vs
    rw [append_nil]
    exact ⟨.operand hk htext.1, htext.2.of_next hk ht⟩

/-- An operand with signs in front of it. -/
lemma settles_marked (hjoins : ∀ kind, k.joins kind = false) (hts : Ended ts) (hN : ts.length ≤ N) :
    Settles (fun n => marked n k (ofRank k' n)) (ExprText k) ts := by
  obtain ⟨signs, t, rest, rfl, hsigns, ht⟩ := exists_signs k hts
  have hrest := hts.of_append (cons_ne_nil t rest)
  rw [length_append] at hN
  refine .after signs 0 ?_ (Nat.zero_le _) fun n ts o hn h => comes_marked hsigns ht hn h
  refine .map hrest (h _ hrest (by omega)) fun us t' e htext => ?_
  have hstops := htext.2.of_next hk (hjoins t'.kind)
  cases signs with
  | nil => exact ⟨.operand hk htext.1, hstops⟩
  | cons sign signs => exact ⟨.run hk hsigns htext.1, hstops⟩

lemma settlesRank_next : SettlesRank N k := by
  intro ts hts hN
  simp only [Settles, Leads, ofRank_next hk]
  cases k with
  | primary => cases hk
  | negated | signed => exact settles_marked hk h (fun _ => rfl) hts hN
  | product | sum | comparison | logic => exact settles_joined hk h hts hN

end Ranks

/-- An operand without signs settles, if expressions with fewer tokens do. -/
lemma settlesRank_primary (h : SettlesRank N .logic) : SettlesRank (N + 1) .primary := by
  intro ts hts hN
  obtain ⟨t, ts, rfl⟩ := exists_cons_of_ne_nil hts.ne_nil
  cases ht : t.kind.beginsPrimary with
  | false =>
    refine .halt .expectedExpression ?_ (fun n ts => comes_primary_stuck ht) ts
    exact ⟨[{ kind := .identifier }], {}, _, .identifier rfl, Rank.stops_primary _⟩
  | true =>
    obtain ⟨-, -, -, hts'⟩ := hts.exists_next (fun heof => by rw [heof] at ht; cases ht)
    simp only [TokenKind.beginsPrimary, decide_eq_true_eq, mem_cons, not_mem_nil, or_false] at ht
    rcases ht with ht | ht | ht | ht | ht
    · have hgroup {us t' e} (h : Expr .logic us e) (closing : Token)
          (hclosing : closing.kind = .rightParen) :
            ExprText .primary (t :: (us ++ [closing])) t' (.branch .group t [e]) :=
        ⟨.group ht h hclosing, Rank.stops_primary _⟩
      refine .past hts' (.bind hts' (h ts hts' (Nat.le_of_succ_le_succ hN))
        (fun us t' e htext => ?_) fun us t' vs e htext hvs _ => ?_) fun n ts o h =>
        comes_primary_group ht h
      · exact ⟨[{ kind := .rightParen }], {}, _, hgroup htext.1 _ rfl⟩
      · exact .expect_last hvs rfl fun closing _ => hgroup htext.1 closing
    · exact .token hts' (fun t' => ⟨.boolean (.inl ht), Rank.stops_primary _⟩) fun n ts =>
        comes_primary_boolean _ ts (.inl ht)
    · exact .token hts' (fun t' => ⟨.boolean (.inr ht), Rank.stops_primary _⟩) fun n ts =>
        comes_primary_boolean _ ts (.inr ht)
    · exact .token hts' (fun t' => ⟨.number ht, Rank.stops_primary _⟩) fun n ts =>
        comes_primary_number _ ts ht
    · exact .token hts' (fun t' => ⟨.identifier ht, Rank.stops_primary _⟩) fun n ts =>
        comes_primary_identifier _ ts ht

/-- The expressions of all ranks settle. -/
lemma settlesRank (N : Nat) (k : Rank) : SettlesRank N k := by
  induction N generalizing k with
  | zero => exact fun ts hts hN => absurd (length_eq_zero_iff.mp (Nat.le_zero.mp hN)) hts.ne_nil
  | succ N ih =>
    have hprimary := settlesRank_primary (ih .logic)
    have hnegated : SettlesRank (N + 1) .negated := settlesRank_next rfl hprimary
    have hsigned : SettlesRank (N + 1) .signed := settlesRank_next rfl hnegated
    have hproduct : SettlesRank (N + 1) .product := settlesRank_next rfl hsigned
    have hsum : SettlesRank (N + 1) .sum := settlesRank_next rfl hproduct
    have hcomparison : SettlesRank (N + 1) .comparison := settlesRank_next rfl hsum
    have hlogic : SettlesRank (N + 1) .logic := settlesRank_next rfl hcomparison
    cases k <;> assumption

/-- A whole expression that stops before a token. -/
def WholeText (us : List Token) (t : Token) (e : Tree) : Prop :=
  WholeExpr us e ∧ Rank.logic.Stops t.kind

/-- A name is an expression. -/
lemma exists_wholeExpr : ∃ us e, WholeExpr us e := by
  have hname : Expr .logic [{ kind := .identifier }]
      (.leaf .identifier { kind := .identifier } "") :=
    .operand rfl (.operand rfl (.operand rfl
      (.operand rfl (.operand rfl (.operand rfl (.identifier rfl))))))
  exact ⟨_, _, .whole hname⟩

lemma settles_expression (hts : Ended ts) : Settles (fun n => expression (n + 1)) WholeText ts := by
  obtain ⟨t, ts, rfl⟩ := exists_cons_of_ne_nil hts.ne_nil
  refine .step (.bind hts (settlesRank _ .logic _ hts (Nat.le_refl _)) (fun us t e htext => ?_)
    fun us t' vs e htext hvs heq => .pure ?_ vs) fun n ts o h => comes_expression h
  · exact .of_text ⟨.whole htext.1, htext.2⟩
  · obtain ⟨us, rfl⟩ := exists_cons_of_head? htext.1.head_token
    cases heq
    rw [append_nil]
    exact ⟨.whole htext.1, htext.2⟩

/-! ## Statements -/

/-- An expression in parentheses. -/
inductive Parenthesized : List Token → Tree → Prop
  | mk {opening es e closing} (hopening : opening.kind = .leftParen) (he : WholeExpr es e)
      (hclosing : closing.kind = .rightParen) : Parenthesized (opening :: (es ++ [closing])) e

lemma settles_heading (heading : Heading) (hts : Ended ts) :
    Settles (fun n => Read.heading n heading) (fun us _ e => Parenthesized us e) ts := by
  obtain ⟨opening, ts, rfl⟩ := exists_cons_of_ne_nil hts.ne_nil
  obtain ⟨es, e, he⟩ := exists_wholeExpr
  refine .expect_past hts rfl ?_ fun hopening hts' => ?_
  · exact ⟨{ kind := .leftParen } :: (es ++ [{ kind := .rightParen }]), {}, e, .mk rfl he rfl⟩
  refine .bind hts' (settles_expression hts') (fun us t e htext => ?_)
    fun us t vs e htext hvs _ => ?_
  · exact ⟨[{ kind := .rightParen }], {}, e, .mk hopening htext.1 rfl⟩
  · exact .expect_last hvs rfl fun closing _ hclosing => .mk hopening htext.1 hclosing

namespace Parenthesized

variable {rule : ElseRule} {keyword : Token} {hs : List Token} {e tree : Tree}
  (h : Parenthesized hs e)

include h

lemma conditional (hkeyword : keyword.kind = .kwIf) (hus : Statement rule settings us tree) :
    Statement rule settings (keyword :: (hs ++ us)) (.conditionalTree keyword e [tree]) := by
  obtain ⟨hopening, he, hclosing⟩ := h
  rw [cons_append, append_assoc]
  exact Statement.conditional hkeyword hopening he hclosing hus

lemma alternative {other : Token} {tree'} (hkeyword : keyword.kind = .kwIf)
    (hus : Statement rule settings us tree) (hother : other.kind = .kwElse)
    (hvs : Statement rule settings vs tree') (hclosed : tree.endsOpen = false) :
    Statement rule settings (keyword :: (hs ++ (us ++ other :: vs)))
    (.conditionalTree keyword e [tree, tree']) := by
  obtain ⟨hopening, he, hclosing⟩ := h
  simpa [Tree.conditionalTree, Tree.wrapStatement] using Statement.alternative hkeyword hopening he
    hclosing hus hother hvs fun _ => hclosed

lemma loop (hkeyword : keyword.kind = .kwWhile) (hus : Statement rule settings us tree) :
    Statement rule settings (keyword :: (hs ++ us)) (.loopTree keyword e tree) := by
  obtain ⟨hopening, he, hclosing⟩ := h
  rw [cons_append, append_assoc]
  exact Statement.loop hkeyword hopening he hclosing hus

lemma selection {left right : Token} {clauses} (hkeyword : keyword.kind = .kwSwitch)
    (henabled : settings.feature .switchStatements = true) (hleft : left.kind = .leftBrace)
    (hus : Clauses rule settings us clauses) (hright : right.kind = .rightBrace) :
    Statement rule settings (keyword :: (hs ++ left :: (us ++ [right])))
      (.wrapStatement keyword (.branch .selection keyword (e :: clauses))) := by
  obtain ⟨hopening, he, hclosing⟩ := h
  simpa [Tree.wrapStatement] using Statement.selection hkeyword henabled hopening he
    hclosing hleft hus hright

end Parenthesized

/-- A statement that stops before a token. -/
def StatementText (settings : Settings) (us : List Token) (t : Token) (tree : Tree) : Prop :=
  Statement .nearest settings us tree ∧ (tree.endsOpen = true → t.kind ≠ .kwElse)

/-- Statements settle in up to `N` tokens. -/
def SettlesStatement (settings : Settings) (N : Nat) : Prop :=
  ∀ t ts, Ended (t :: ts) → ts.length < N →
    Settles (statement settings) (StatementText settings) (t :: ts)

/-- Statements up to a token that ends a loop. -/
def BodyText (settings : Settings) (ends : TokenKind → Bool) (us : List Token) (t : Token)
    (trees : List Tree) : Prop :=
  Statements .nearest settings us trees ∧ ends t.kind = true

lemma settles_loop {t ts loop goes ends} {φ : Nat → Nat} (h : SettlesStatement settings N)
    (hφ : ∀ n, n ≤ φ n) (hloop : LoopsOver loop goes ends) (hend : ends .endOfFile = true)
    (hother : ∀ t : Token, ends t.kind = false →
      goes t.kind = false → ∃ fault, fault ≠ .runaway ∧ ∀ statement n ts,
        Comes (loop statement (n + 1)) (t :: ts) (.stuck t fault)) (hts : Ended (t :: ts))
        (hN : ts.length < N) :
    Settles (fun n => loop (statement settings (φ n)) n) (BodyText settings ends) (t :: ts) := by
  cases ht : ends t.kind with
  | true =>
    refine .stop (a := []) ?_ (fun n ts => ?_) ts
    · exact ⟨.nil, ht⟩
    · exact hloop.stop ts ht
  | false =>
    cases hgoes : goes t.kind with
    | false =>
      obtain ⟨fault, hne, hstuck⟩ := hother t ht hgoes
      refine .halt fault ?_ (fun n ts => ?_) ts hne
      · exact ⟨[], {}, [], .nil, hend⟩
      · exact hstuck _ n ts
    | true =>
      refine .bindAt 1 (Nat.le_refl 1) hts ((h t ts hts hN).mono hφ) (fun us t tree htext => ?_)
        (fun us t tree htext => ?_) (fun n ts o h => hloop.item hgoes h)
        fun us t' vs tree htext hvs heq => ?_
      · exact length_pos_iff.mpr htext.1.ne_nil
      · exact .of_text (t := {}) ⟨by simpa using Statements.cons htext.1 .nil, hend⟩
      · have hshorter : vs.length < ts.length := by
          obtain ⟨first, us, rfl⟩ := exists_cons_of_ne_nil htext.1.ne_nil
          exact length_behind (cons.inj heq).2
        have hmore := settles_loop h (le_next_round hφ) hloop hend hother hvs
          (Nat.lt_trans hshorter hN)
        exact .map hvs hmore fun us' t'' trees hrest => ⟨.cons htext.1 hrest.1, hrest.2⟩
termination_by ts.length

lemma settles_body {φ : Nat → Nat} (ends : TokenKind → Bool) (hend : ends .endOfFile = true)
    (h : SettlesStatement settings N) (hφ : ∀ n, n ≤ φ n) (hts : Ended (t :: ts))
    (hN : ts.length < N) :
    Settles (fun n => statementsUntil ends (statement settings (φ n)) n)
    (BodyText settings ends) (t :: ts) := by
  refine settles_loop h hφ (loopsOver_statementsUntil ends) hend (fun t ht hgoes => ?_) hts hN
  rw [ht] at hgoes
  cases hgoes

/-- The value of a case and the colon behind it. -/
inductive Labelled : List Token → Tree → Prop
  | mk {us value colon} (h : CaseValue us value) (hcolon : colon.kind = .colon) :
      Labelled (us ++ [colon]) value

lemma settles_digits {Text : List Token → Token → Tree → Prop} {digits : Token}
    (place : Token) (sign : String) (hts : Ended (digits :: ts)) (hmend : Begins Text [])
    (htext : ∀ colon t : Token, digits.kind = .number → colon.kind = .colon →
      Text [digits, colon] t (.caseValueTree place digits (sign ++ digits.value))) :
    Settles (fun _ => do
      let digits ← expect .number .expectedCaseNumber
      let _ ← expect .colon .expectedCaseColon
      return .caseValueTree place digits (sign ++ digits.value)) Text (digits :: ts) := by
  refine .expect hts rfl hmend fun hdigits hts' => ?_
  obtain ⟨colon, ts, rfl⟩ := exists_cons_of_ne_nil hts'.ne_nil
  exact .expect_last hts' rfl fun colon t hcolon => htext colon t hdigits hcolon

lemma settles_caseValue (hts : Ended ts) :
    Settles (fun _ => caseValue) (fun us _ e => Labelled us e) ts := by
  obtain ⟨t, ts, rfl⟩ := exists_cons_of_ne_nil hts.ne_nil
  by_cases ht : t.kind = .minus
  · obtain ⟨digits, ts, rfl, hts'⟩ := hts.exists_next (by simp [ht])
    refine .past hts' (settles_digits t "-" hts' ?_ fun colon _ hdigits hcolon => ?_)
      fun n ts o h => ?_
    · exact ⟨[{ kind := .number }, { kind := .colon }], {}, _, .mk (.negative ht rfl) rfl⟩
    · exact .mk (.negative ht hdigits) hcolon
    · refine .get fun p hp => .bind (.accepted ht rfl) ?_
      rwa [hp]
  · refine .step (settles_digits t "" hts ?_ fun colon _ hdigits hcolon => ?_) fun n ts o h => ?_
    · exact ⟨[{ kind := .number }, { kind := .colon }], {}, _, .mk (.plain rfl) rfl⟩
    · rw [String.empty_append]
      exact .mk (.plain hdigits) hcolon
    · refine .get fun p hp => .bind (.refused ht) ?_
      rwa [hp]

/-- The clauses of a `switch`, up to the end of its body. -/
def ClausesText (settings : Settings) (us : List Token) (t : Token) (clauses : List Tree) : Prop :=
  Clauses .nearest settings us clauses ∧ endsBlock t.kind = true

/-- Behind the colon of a clause, if clauses that begin later settle. -/
lemma settles_clauseBody {φ : Nat → Nat} {Text : List Token → Token → List Tree → Prop}
    {node : List Tree → Tree} (h : SettlesStatement settings N) (hφ : ∀ n, n ≤ φ n)
    (hts : Ended (t :: ts)) (hN : ts.length < N)
    (hmore : ∀ t vs, Ended (t :: vs) → vs.length ≤ ts.length →
      Settles (fun n => clauses (statement settings (φ n)) n) (ClausesText settings) (t :: vs))
    (htext : ∀ us trees vs t clauses, Statements .nearest settings us trees →
      ClausesText settings vs t clauses →
      Text (us ++ vs) t (node trees :: clauses)) :
    Settles (fun n => do
      let body ← statementsUntil endsClause (statement settings (φ n)) n
      return node body :: (← clauses (statement settings (φ n)) n)) Text (t :: ts) := by
  refine .bind hts (settles_body endsClause rfl h hφ hts hN) (fun us _ trees hus => ?_)
    fun us t' vs trees hus hvs heq => ?_
  · exact ⟨[], {}, _, htext us trees [] {} [] hus.1 ⟨.nil, rfl⟩⟩
  · have hshorter := length_behind heq
    exact .map hvs (hmore t' vs hvs (Nat.le_of_lt_succ hshorter)) fun ws t'' clauses hws =>
      htext us trees ws t'' clauses hus.1 hws

lemma settles_clauses {t ts} {φ : Nat → Nat} (h : SettlesStatement settings N) (hφ : ∀ n, n ≤ φ n)
    (hts : Ended (t :: ts)) (hN : ts.length < N) :
    Settles (fun n => clauses (statement settings (φ n)) n) (ClausesText settings) (t :: ts) := by
  have hφ' := le_next_round hφ
  -- Stated of `ts`, before it is taken apart, so that the recursion is seen to end.
  have hlater t' vs (hvs : Ended (t' :: vs)) (hshorter : vs.length < ts.length) :=
    settles_clauses h hφ' hvs (Nat.lt_trans hshorter hN)
  cases ht : endsBlock t.kind with
  | true =>
    refine .stop (a := []) ?_ (fun n ts => ?_) ts
    · exact ⟨.nil, ht⟩
    · exact comes_clauses_nil ht ts
  | false =>
    obtain ⟨-, -, -, hts'⟩ := hts.exists_next (fun heof => by rw [heof] at ht; cases ht)
    by_cases hcase : t.kind = .kwCase
    · have hclause {us value} (hus : Labelled us value) ss trees vs t' clauses
          (hss : Statements .nearest settings ss trees) (hvs : ClausesText settings vs t' clauses) :
          ClausesText settings (t :: (us ++ (ss ++ vs))) t'
          (.branch .caseClause t (value :: trees) :: clauses) := by
        obtain ⟨hvalue, hcolon⟩ := hus
        exact ⟨by simpa using Clauses.case hcase hvalue hcolon hss hvs.1, hvs.2⟩
      refine .past hts' (.bind hts' (settles_caseValue hts') (fun us _ value hus => ?_)
        fun us t' vs value hus hvs heq => ?_) fun n ts o h => comes_case hcase h
      · exact ⟨[], {}, _, hclause hus [] [] [] {} [] .nil ⟨.nil, rfl⟩⟩
      · have hshorter := length_behind heq
        exact settles_clauseBody h hφ' hvs (Nat.lt_trans hshorter hN)
          (fun _ ws hws hlength => hlater _ ws hws (by omega)) (hclause hus)
    by_cases hdefault : t.kind = .kwDefault
    · have hclause {colon : Token} (hcolon : colon.kind = .colon) ss trees vs t' clauses
          (hss : Statements .nearest settings ss trees) (hvs : ClausesText settings vs t' clauses) :
          ClausesText settings (t :: (colon :: (ss ++ vs))) t'
          (.branch .defaultClause t trees :: clauses) :=
        ⟨.default hdefault hcolon hss hvs.1, hvs.2⟩
      obtain ⟨colon, ts, rfl⟩ := exists_cons_of_ne_nil hts'.ne_nil
      refine .past hts' (.expect hts' rfl ?_ fun hcolon hts'' => ?_) fun n ts o h =>
        comes_default hdefault h
      · exact ⟨[{ kind := .colon }], {}, _, hclause rfl [] [] [] {} [] .nil ⟨.nil, rfl⟩⟩
      · obtain ⟨next, ts, rfl⟩ := exists_cons_of_ne_nil hts''.ne_nil
        simp only [length_cons] at hN hlater
        exact settles_clauseBody h hφ' hts'' (by omega) (fun _ ws hws hlength =>
          hlater _ ws hws (by omega)) (hclause hcolon)
    · refine .halt .expectedClause ⟨[], {}, [], .nil, rfl⟩
        (fun n ts => .check_neg ht (.get fun p hp => ?_)) ts
      rw [hp]
      exact .accept_neg hcase (.accept_neg hdefault (.fail _ _ _))
termination_by ts.length

lemma Token.startFault?_ne {fault} (h : t.startFault? settings = some fault) :
    fault ≠ .runaway := by
  rw [startFault?] at h
  split at h
  case h_6 => split at h <;> cases h; simp
  all_goals cases h <;> simp

section Step

variable (h : SettlesStatement settings N) (hts : Ended ts) (hN : ts.length ≤ N)

include h hts hN

lemma settles_block (ht : t.kind = .leftBrace) :
    Settles (statement settings) (StatementText settings) (t :: ts) := by
  have hblock {us trees} (hus : Statements .nearest settings us trees) (closing t' : Token)
      (hclosing : closing.kind = .rightBrace) : StatementText settings (t :: (us ++ [closing])) t'
        (.wrapStatement t (.branch .block t trees)) := ⟨.block ht hus hclosing, nofun⟩
  obtain ⟨next, ts, rfl⟩ := exists_cons_of_ne_nil hts.ne_nil
  refine .past hts (.bind hts (settles_body endsBlock rfl h Nat.le_refl hts hN)
    (fun us _ trees hus => ?_) fun us t' vs trees hus hvs _ => ?_) fun n ts o h => comes_block ht h
  · exact ⟨[{ kind := .rightBrace }], {}, _, hblock hus.1 _ _ rfl⟩
  · exact .expect_last hvs rfl (hblock hus.1)

lemma settles_while (ht : t.kind = .kwWhile) :
    Settles (statement settings) (StatementText settings) (t :: ts) := by
  refine .past hts (.bind hts (settles_heading .loop hts) (fun hs _ e hhs => ?_)
    fun hs t' vs e hhs hvs heq => ?_) fun n ts o h => comes_loop ht h
  · exact ⟨[{ kind := .semicolon }], {}, _, hhs.loop ht (.empty rfl), nofun⟩
  · have hshorter := length_behind heq
    exact .map hvs (h t' vs hvs (by omega)) fun us t'' tree htext => ⟨hhs.loop ht htext.1, htext.2⟩

lemma settles_conditional (ht : t.kind = .kwIf) :
    Settles (statement settings) (StatementText settings) (t :: ts) := by
  refine .past hts (.bind hts (settles_heading .conditional hts) (fun hs _ e hhs => ?_)
    fun hs t' vs e hhs hvs heq => ?_) fun n ts o h => comes_conditional ht h
  · exact ⟨[{ kind := .semicolon }], {}, _, hhs.conditional ht (.empty rfl), nofun⟩
  have hshorter := length_behind heq
  refine .bind hvs (h t' vs hvs (by omega)) (fun us _ tree hus => ?_)
    fun us other ws tree hus hws heq' => ?_
  · exact .of_text (t := {}) ⟨hhs.conditional ht hus.1, nofun⟩
  by_cases hother : other.kind = .kwElse
  · obtain ⟨next, ws, rfl, hws'⟩ := hws.exists_next (by simp [hother])
    have hshorter' := length_behind heq'
    simp only [length_cons] at hshorter'
    have hclosed : tree.endsOpen = false := Bool.eq_false_iff.mpr fun hopen => hus.2 hopen hother
    have hbody := (h next ws hws' (by omega)).mono Nat.le_succ
    refine .past hws' (.map hws' hbody fun us' t'' tree' htext => ?_) fun n ts o h =>
      .accept_pos hother rfl h
    exact ⟨hhs.alternative ht hus.1 hother htext.1 hclosed, htext.2⟩
  · refine .stop (a := .conditionalTree t e [tree]) ?_
      (fun n ts => .accept_neg hother (.pure _ _)) ws
    rw [append_nil]
    exact ⟨hhs.conditional ht hus.1, fun _ => hother⟩

lemma settles_selection (ht : t.kind = .kwSwitch)
    (henabled : settings.feature .switchStatements = true) :
    Settles (statement settings) (StatementText settings) (t :: ts) := by
  have hselection {hs e us clauses} {left : Token} (hhs : Parenthesized hs e)
      (hleft : left.kind = .leftBrace) (hus : Clauses .nearest settings us clauses)
      (right t' : Token) (hright : right.kind = .rightBrace) :
      StatementText settings (t :: (hs ++ left :: (us ++ [right]))) t'
        (.wrapStatement t (.branch .selection t (e :: clauses))) :=
    ⟨hhs.selection ht henabled hleft hus hright, nofun⟩
  suffices h : Settles (fun n => selection n (statement settings n) t)
      (fun us t' tree => StatementText settings (t :: us) t' (.wrapStatement t tree)) ts from
    .past hts (.map hts h fun _ _ _ hus => hus) fun n ts o h => comes_selection ht henabled h
  refine .bind hts (settles_heading .selection hts) (fun hs _ e hhs => ?_)
    fun hs t' vs e hhs hvs heq => ?_
  · exact ⟨[{ kind := .leftBrace }, { kind := .rightBrace }], {}, _,
      hselection hhs rfl .nil _ _ rfl⟩
  have hshorter := length_behind heq
  refine .expect hvs rfl ?_ fun hleft hvs' => ?_
  · exact ⟨[{ kind := .leftBrace }, { kind := .rightBrace }], {}, _,
      hselection hhs rfl .nil _ _ rfl⟩
  obtain ⟨next, vs, rfl⟩ := exists_cons_of_ne_nil hvs'.ne_nil
  simp only [length_cons] at hshorter
  refine .bind hvs' (settles_clauses h Nat.le_refl hvs' (by omega))
    (fun us _ clauses hus => ?_) fun us t'' ws clauses hus hws _ => ?_
  · exact ⟨[{ kind := .rightBrace }], {}, _, hselection hhs hleft hus.1 _ _ rfl⟩
  · exact .expect_last hws rfl (hselection hhs hleft hus.1)

omit h hN in
lemma settles_assignment (ht : t.kind = .identifier) :
    Settles (statement settings) (StatementText settings) (t :: ts) := by
  have hassignment {us e} {sign : Token} (hsign : sign.kind = .assign) (hus : WholeExpr us e)
      (stop t' : Token) (hstop : stop.kind = .semicolon) :
        StatementText settings (t :: (sign :: (us ++ [stop]))) t' (.assignmentTree t sign e) :=
        ⟨.assignment ht hsign hus hstop, nofun⟩
  obtain ⟨sign, ts, rfl⟩ := exists_cons_of_ne_nil hts.ne_nil
  refine .past hts (.expect_past hts rfl ?_ fun hsign hts' => ?_) fun n ts o h =>
    comes_assignment ht h
  · obtain ⟨us, e, hus⟩ := exists_wholeExpr
    exact ⟨{ kind := .assign } :: (us ++ [{ kind := .semicolon }]), {}, _,
      hassignment rfl hus _ _ rfl⟩
  refine .bind hts' (settles_expression hts') (fun us _ e hus => ?_) fun us t' vs e hus hvs _ => ?_
  · exact ⟨[{ kind := .semicolon }], {}, _, hassignment hsign hus.1 _ _ rfl⟩
  · exact .expect_last hvs rfl (hassignment hsign hus.1)

end Step

lemma settlesStatement (settings : Settings) (N : Nat) : SettlesStatement settings N := by
  induction N with
  | zero => exact fun t ts _ hN => absurd hN (Nat.not_lt_zero _)
  | succ N ih =>
    intro t ts hts hN
    cases hstart : t.startFault? settings with
    | some fault =>
      refine .halt fault ?_ (fun n ts => comes_startFault hstart) ts (Token.startFault?_ne hstart)
      exact ⟨[{ kind := .semicolon }], {}, _, .empty rfl, fun h => absurd h Bool.false_ne_true⟩
    | none =>
      obtain ⟨-, -, -, hts'⟩ := hts.exists_next
        (of_decide_eq_false (Token.endsProgram_of_starts hstart).1)
      have hN' := Nat.le_of_lt_succ hN
      rw [Token.startFault?] at hstart
      split at hstart
      case h_1 ht =>
        exact .token hts' (fun t' => ⟨.empty ht, fun h => absurd h Bool.false_ne_true⟩)
          fun n ts => comes_semicolon ht ts
      case h_2 ht => exact settles_block ih hts' hN' ht
      case h_3 ht => exact settles_conditional ih hts' hN' ht
      case h_4 ht => exact settles_while ih hts' hN' ht
      case h_5 ht => exact settles_assignment hts' ht
      case h_6 ht =>
        split at hstart
        · exact settles_selection ih hts' hN' ht ‹_›
        · cases hstart
      all_goals cases hstart

/-! ## Programs -/

/-- The names of a declaration, up to a token that is no comma. -/
def NamesText (keyword : Token) (us : List Token) (t : Token) (names : List Tree) : Prop :=
  DeclaredNames keyword us names ∧ t.kind ≠ .comma

lemma settles_names {t ts} (keyword : Token) (hts : Ended (t :: ts)) :
    Settles (declaredNames keyword) (NamesText keyword) (t :: ts) := by
  by_cases ht : t.kind = .identifier
  · obtain ⟨t', ts, rfl, hts'⟩ := hts.exists_next (by simp [ht])
    refine .past (y := fun n => do
      if ← accept .comma then return Tree.declarationTree keyword t :: (← declaredNames keyword n)
      else return [Tree.declarationTree keyword t]) hts' ?_ fun n ts o h => .expect ht rfl h
    by_cases hcomma : t'.kind = .comma
    · obtain ⟨next, ts, rfl, hts''⟩ := hts'.exists_next (by simp [hcomma])
      have hmore := (settles_names keyword hts'').mono Nat.le_succ
      refine .past hts'' (.map hts'' hmore fun us t'' names hus => ?_) fun n ts o h =>
        .accept_pos hcomma rfl h
      exact ⟨.more ht hcomma hus.1, hus.2⟩
    · refine .stop (a := [Tree.declarationTree keyword t]) ?_
        (fun n ts => .accept_neg hcomma (.pure _ _)) ts
      exact ⟨.last ht, hcomma⟩
  · refine .halt .expectedDeclaredName ?_ (fun n ts => .expect_stuck ht) ts
    exact ⟨[{ kind := .identifier }], {}, _, .last rfl, nofun⟩
termination_by ts.length

/-- Declarations, up to a token that begins none. -/
def DeclarationsText (us : List Token) (t : Token) (declarations : List Tree) : Prop :=
  Declarations us declarations ∧ declares t.kind = false

lemma settles_declarations {t ts} {φ : Nat → Nat} (hφ : ∀ n, n ≤ φ n) (hts : Ended (t :: ts)) :
    Settles (fun n => declarations (φ n) n) DeclarationsText (t :: ts) := by
  have hlater t' vs (hvs : Ended (t' :: vs)) (_ : vs.length < ts.length) :=
    settles_declarations (le_next_round hφ) hvs
  cases ht : declares t.kind with
  | false =>
    refine .stop (a := []) ?_ (fun n ts => ?_) ts
    · exact ⟨.nil, ht⟩
    · exact .check_neg ht (.pure [] _)
  | true =>
    have hdeclaration {us names vs declarations t'} {stop : Token} (hus : DeclaredNames t us names)
        (hstop : stop.kind = .semicolon) (hvs : DeclarationsText vs t' declarations) :
        DeclarationsText (t :: (us ++ stop :: vs)) t' (names ++ declarations) :=
      ⟨.cons (by simpa [declares] using ht) hus hstop hvs.1, hvs.2⟩
    obtain ⟨next, ts, rfl, hts'⟩ :=
      hts.exists_next (TokenKind.ne_endOfFile (TokenKind.isPassable_of_declares ht))
    refine .past hts' (.bind hts' ((settles_names t hts').mono (le_next_round hφ))
      (fun us _ names hus => ?_) fun us stop vs names hus hvs heq => ?_) fun n ts o h =>
      comes_declaration ht h
    · exact ⟨[{ kind := .semicolon }], {}, _, hdeclaration hus.1 rfl ⟨.nil, rfl⟩⟩
    refine .expect hvs rfl ?_ fun hstop hvs' => ?_
    · exact ⟨[{ kind := .semicolon }], {}, _, hdeclaration hus.1 rfl ⟨.nil, rfl⟩⟩
    · obtain ⟨t', vs, rfl⟩ := exists_cons_of_ne_nil hvs'.ne_nil
      have hshorter := length_behind heq
      refine .map hvs' (hlater t' vs hvs' (Nat.lt_of_succ_lt hshorter)) fun us' t'' rest hrest => ?_
      exact hdeclaration hus.1 hstop hrest
termination_by ts.length

/-- The declarations and statements of a program in front of the end of the file. -/
def PartsText (settings : Settings) (us : List Token) (t : Token) : Prop :=
  ∃ ds declarations ss trees, us = ds ++ ss ∧ Declarations ds declarations ∧
    Statements .nearest settings ss trees ∧ t.kind = .endOfFile

lemma settles_program (settings : Settings) (hts : Ended ts) :
    Settles (program settings) (fun us t _ => PartsText settings us t) ts := by
  obtain ⟨t, ts, rfl⟩ := exists_cons_of_ne_nil hts.ne_nil
  refine .step (y := fun n => do
      let declarations ← declarations n n
      let statements ← statements (statement settings n) n
      return .branch .program t (declarations ++ [.branch .block t statements]))
    (.bind hts (settles_declarations Nat.le_refl hts) (fun ds _ declarations hds => ?_)
      fun ds t' vs declarations hds hvs heq => ?_) fun n ts o h => .get fun p hp => by rwa [hp]
  · exact ⟨[], {}, .branch .program t [], ds, declarations, [], [], rfl, hds.1, .nil, rfl⟩
  refine .map hvs (settles_loop (settlesStatement settings _) Nat.le_refl
    loopsOver_statements rfl (fun t ht hgoes => ?_) hvs (Nat.lt_succ_self _))
    fun ss t'' trees hss => ?_
  · have hdeclares : declares t.kind = true := by simpa [ht] using hgoes
    refine ⟨.lateDeclaration, nofun, fun statement n ts =>
      .check_neg ht (.check_pos hdeclares (.get fun p hp => ?_))⟩
    rw [hp]
    exact .fail _ _ _
  · exact ⟨ds, declarations, ss, trees, rfl, hds.1, hss.1, of_decide_eq_true hss.2⟩

/-- Programs that begin with some tokens and another are refused at that, and not because of those
before it. -/
structure ProgramFails (settings : Settings) (us : List Token) (t : Token)
    (fault : ParseFault) : Prop where
  ne_runaway : fault ≠ .runaway
  refused {tokens vs rounds} : Token.terminated tokens = us ++ t :: vs →
    tokens.length + 1 < rounds →
    Tree.readWithin settings rounds tokens = .error (.fault (t.refusal fault))
  mended : ∃ ws ds declarations ss statements, us ++ ws = ds ++ ss ∧ Declarations ds declarations ∧
    Statements .nearest settings ss statements

/-- Reading comes to an end, inside the tokens and within the rounds: with a program of the grammar,
or at a token that is wrong. -/
theorem Tree.readWithin_cases (settings : Settings) (tokens : List Token) :
    (∃ ds declarations ss trees eof vs, Declarations ds declarations ∧
      Statements .nearest settings ss trees ∧ eof.kind = .endOfFile ∧
      Token.terminated tokens = ds ++ ss ++ eof :: vs) ∨
    ∃ us t vs fault, ProgramFails settings us t fault ∧
      Token.terminated tokens = us ++ t :: vs := by
  obtain ⟨us, t, vs, htokens, ⟨-, ⟨ds, declarations, ss, trees, rfl, hds, hss, heof⟩, -⟩ |
      ⟨⟨fault, hne, hread⟩, ws, -, -, ds, declarations, ss, trees, hws, hds, hss, -⟩⟩ :=
    settles_program settings (Token.ended_terminated tokens)
  · exact .inl ⟨ds, declarations, ss, trees, t, vs, hds, hss, heof, htokens⟩
  · refine .inr ⟨us, t, vs, fault, ⟨hne, fun {tokens vs rounds} htokens hrounds => ?_, ?_⟩, htokens⟩
    · obtain ⟨p, hp, hprogram⟩ := Tree.readWithin_eq settings rounds tokens
      have hlength := Token.length_terminated tokens
      rw [htokens] at hp hlength
      rw [length_append, length_cons] at hlength
      have hcomes : _ = _ := (hread rounds vs (by omega)).agrees p hp
      rw [Tree.looked_program (by omega)] at hcomes
      rw [hprogram, hcomes]
      rfl
    · exact ⟨ws, ds, declarations, ss, trees, hws, hds, hss⟩

end ThreeAddress
