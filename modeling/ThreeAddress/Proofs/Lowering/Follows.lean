import ThreeAddress.Proofs.Lowering.Scheme

/-!
# Lowering follows the scheme

What `arith`, `cond` and `statement` yield is related to the tree by the translation scheme, and the
scope stays as it was. The proofs follow the recursion of the lowering functions: each branch either
fails or is a rule of the scheme. For a program the scope is that of its declarations.
-/

namespace ThreeAddress

open List Lowering

variable {ops : List TokenKind} {children rest : List Tree} {kind : NodeKind} {v : Operand}
  {fails holds : Option Label} {value : String} {token : Token} {condition t : Tree} {u : Unit}
  {s s' : LowerState} {code : List Instr} {settings : Settings}

/-! ## Single steps -/

@[simp] lemma yields_jumpTo {l} : (jumpTo l).Yields s u code s' ↔ code = jumpCode l ∧ s' = s := by
  cases l with
  | none | some => simp [jumpTo, jumpCode]

/-- Branching emits the jumps to the labels that are there. -/
@[simp] lemma yields_branch {op left right} :
    (branch op left right holds fails).Yields s u code s' ↔
      code = branchCode op left right (exits holds fails) ∧ s' = s := by
  cases holds <;> cases fails <;> simp [branch, branchCode, exits, yields_emit_bind, and_comm]

/-- A chain that passes its check has an operator between any two of its operands. -/
lemma yields_checkChain_bind {operands operators : Nat} {β : Type} {f : Unit → Lower β} {b : β}
    (h : (checkChain kind token operands operators >>= f).Yields s b code s') :
    2 ≤ operands ∧ operands = operators + 1 ∧ (f ()).Yields s b code s' := by
  unfold checkChain at h
  split at h
  · obtain ⟨_, _, _, _, hfail, -⟩ := yields_bind.mp h
    exact absurd hfail not_yields_fail
  · exact ⟨by omega, by omega, (yields_bind_of_eq_nil rfl).mp h⟩

/-- The truth value of a condition is written behind it, at three new labels. -/
lemma yields_boolValue {condition target} (h : (boolValue condition target).Yields s u code s') :
    ∃ c, (condition (some (labelOf s.names.labels)) (some (labelOf (s.names.labels + 1)))).Yields
        { s with names := s.names.addLabels 3 } () c s' ∧
        code = c ++ valueCode target s.names.labels := by
  simp only [boolValue, yields_freshLabel_bind] at h
  rw [yields_bind] at h
  simp only [yields_emit_bind, yields_emit] at h
  obtain ⟨_, c, s1, _, hcond, ⟨_, ⟨_, ⟨_, ⟨_, ⟨_, ⟨rfl, rfl⟩, rfl⟩, rfl⟩, rfl⟩, rfl⟩, rfl⟩,
    rfl⟩ := h
  exact ⟨c, hcond, rfl⟩

/-- The truth value of a condition is written to a new temporary. -/
lemma yields_materialize {condition} (h : (materialize condition).Yields s v code s') :
    v = tempOf s.names.temps ∧
      ∃ c, (condition (some (labelOf s.names.labels)) (some (labelOf (s.names.labels + 1)))).Yields
          { s with names := s.names.addTemp.addLabels 3 } () c s' ∧
        code = c ++ valueCode (tempOf s.names.temps) s.names.labels := by
  rw [materialize, yields_freshTemp_bind, yields_bind] at h
  obtain ⟨_, _, _, _, hval, hpure, rfl⟩ := h
  obtain ⟨rfl, rfl, rfl⟩ := yields_pure.mp hpure
  obtain ⟨c, hcond, rfl⟩ := yields_boolValue hval
  exact ⟨rfl, c, hcond, append_nil _⟩

/-- A left operand that can leave the chain does so. -/
lemma yields_shortCircuit_some {l left right}
    (h : (shortCircuit (some l) left right).Yields s u code s') :
    ∃ c1 s1 c2,
      (left l (labelOf s.names.labels)).Yields { s with names := s.names.addLabels 1 } () c1 s1 ∧
      right.Yields s1 () c2 s' ∧ code = c1 ++ .mark (labelOf s.names.labels) :: c2 := by
  rw [shortCircuit, yields_freshLabel_bind, yields_bind] at h
  simp only [yields_emit_bind] at h
  obtain ⟨_, c1, s1, _, hleft, ⟨c2, hright, rfl⟩, rfl⟩ := h
  exact ⟨c1, s1, c2, hleft, hright, rfl⟩

/-- A left operand that cannot leave the chain skips the right one. -/
lemma yields_shortCircuit_none {left right}
    (h : (shortCircuit none left right).Yields s u code s') :
    ∃ c1 s1 c2, (left (labelOf (s.names.labels + 1)) (labelOf s.names.labels)).Yields
        { s with names := s.names.addLabels 2 } () c1 s1 ∧ right.Yields s1 () c2 s' ∧
      code = c1 ++ .mark (labelOf s.names.labels) ::
      (c2 ++ [.mark (labelOf (s.names.labels + 1))]) := by
  simp only [shortCircuit, yields_freshLabel_bind] at h
  rw [yields_bind] at h
  simp only [yields_emit_bind] at h
  obtain ⟨_, c1, s1, _, hleft, ⟨_, hright, rfl⟩, rfl⟩ := h
  obtain ⟨_, c2, s2, _, hright, hmark, rfl⟩ := yields_bind.mp hright
  obtain ⟨rfl, rfl⟩ := yields_emit.mp hmark
  exact ⟨c1, s1, c2, hleft, hright, rfl⟩

/-- What is done with the only child succeeds if there is one and it does so for that. -/
lemma yields_onlyChild {α : Type} {a : α} {fault : LowerFault} {f : Tree → Lower α}
    (h : ((onlyChild? children).elim (fail token fault) f).Yields s a code s') :
    ∃ u, children = [u] ∧ onlyChild? children = some u ∧ (f u).Yields s a code s' := by
  cases honly : onlyChild? children with
  | none =>
    rw [honly] at h
    exact absurd h not_yields_fail
  | some u =>
    rw [honly] at h
    exact ⟨u, eq_singleton_of_onlyChild honly, rfl, h⟩

/-! ## Expressions -/

/-- Looking under transparent nodes has no effect. -/
lemma quiet_strip (t : Tree) : (strip t : Lower Tree).Quiet := by
  intro s r code s' h
  induction t using Tree.induction with
  | absent => exact absurd h not_yields_incomplete
  | node kind token value ops children ih =>
    cases hop : isTransparent kind ops with
    | true =>
      rw [strip_of_transparent hop] at h
      obtain ⟨u, rfl, -, h⟩ := yields_onlyChild h
      exact ih u (.head _) h
    | false =>
      unfold strip at h
      simp only [hop, Bool.false_eq_true, if_false] at h
      exact (yields_pure.mp h).2

/-- Finding the type of an expression has no effect. -/
lemma quiet_typeOf (t : Tree) : (typeOf t : Lower ValueType).Quiet := by
  intro s type code s' h
  obtain ⟨r, -, hkind⟩ := (quiet_strip t).yields_bind.mp h
  cases r with
  | absent => exact absurd hkind not_yields_incomplete
  | node kind token value ops children =>
    cases kind <;> simp_all

/-- Looking whether a condition is known in advance has no effect. -/
lemma quiet_constantCondition (t : Tree) : (constantCondition? t : Lower (Option Bool)).Quiet := by
  intro s r code s' h
  obtain ⟨r, -, hkind⟩ := (quiet_strip t).yields_bind.mp h
  split at hkind
  · rw [yields_note_bind] at hkind
    exact (yields_pure.mp hkind).2
  · exact (yields_pure.mp hkind).2

/-- Lowering the tree as a number follows the scheme, and mints no labels. -/
def Tree.NumberFollows (t : Tree) : Prop :=
  ∀ ⦃s : LowerState⦄ ⦃v code s'⦄, (arith t).Yields s v code s' →
    NumberCode s.scope t s.names.temps v code s'.names.temps ∧
    s'.names.labels = s.names.labels ∧ s'.scope = s.scope

section Numbers

variable (ih : ∀ t ∈ children, t.NumberFollows)
include ih

/-- Lowering the rest of a chain follows the scheme. -/
lemma arithChain_follows {acc} (hlen : children.length = ops.length)
    (h : (arithChain kind token acc ops children).Yields s v code s') :
    ChainCode s.scope kind acc ops children s.names.temps v code s'.names.temps ∧
      s'.names.labels = s.names.labels ∧ s'.scope = s.scope := by
  induction children generalizing ops acc s code with
  | nil =>
    cases ops with
    | nil =>
      obtain ⟨rfl, rfl, rfl⟩ := yields_pure.mp h
      exact ⟨.done, rfl, rfl⟩
    | cons => cases hlen
  | cons operand operands hrest =>
    obtain ⟨hfirst, ih⟩ := forall_mem_cons.mp ih
    cases ops with
    | nil => cases hlen
    | cons op ops =>
      unfold arithChain at h
      cases hop : arithOpcode? kind op with
      | none => simp [hop] at h
      | some opcode =>
        simp only [hop] at h
        obtain ⟨right, c1, s1, _, hright, hemit, rfl⟩ := yields_bind.mp h
        simp only [yields_freshTemp_bind, yields_emit_bind] at hemit
        obtain ⟨c2, hmore, rfl⟩ := hemit
        obtain ⟨hright, hl1, hs1⟩ := hfirst hright
        obtain ⟨hmore, hl2, hs2⟩ := hrest ih (Nat.succ.inj hlen) hmore
        rw [scope_names, hs1] at hmore
        exact ⟨.more hop hright hmore, hl2.trans hl1, hs2.trans hs1⟩

lemma sum_follows (hkind : kind = .sum ∨ kind = .product) (hop : isTransparent kind ops = false) :
    (Tree.node kind token value ops children).NumberFollows := by
  intro s v code s' h
  rw [arith_chain hkind hop] at h
  obtain ⟨-, hlen, hparts⟩ := yields_checkChain_bind h
  cases children with
  | nil => cases hlen
  | cons first rest =>
    obtain ⟨hfirst, ih⟩ := forall_mem_cons.mp ih
    obtain ⟨acc, c1, s1, c2, hacc, hrest, rfl⟩ := yields_bind.mp hparts
    obtain ⟨hacc, hl1, hs1⟩ := hfirst hacc
    obtain ⟨hrest, hl2, hs2⟩ := arithChain_follows ih (Nat.succ.inj hlen) hrest
    rw [hs1] at hrest
    exact ⟨.chain hkind hacc hrest, hl2.trans hl1, hs2.trans hs1⟩

lemma signed_follows (hop : isTransparent .signed ops = false) :
    (Tree.node .signed token value ops children).NumberFollows := by
  intro s v code s' h
  rw [arith_signed hop] at h
  obtain ⟨t, rfl, -, h⟩ := yields_onlyChild h
  cases hops : signParity ops with
  | error op =>
    rw [hops] at h
    exact absurd h not_yields_fail
  | ok negate =>
    rw [hops] at h
    obtain ⟨inner, c1, s1, c2, hinner, hsign, rfl⟩ := yields_bind.mp h
    obtain ⟨hinner, hlabels, hscope⟩ := ih t (.head _) hinner
    cases negate with
    | true =>
      simp only [↓reduceIte, yields_freshTemp_bind, yields_emit_bind, yields_pure] at hsign
      obtain ⟨_, ⟨rfl, rfl, rfl⟩, rfl⟩ := hsign
      exact ⟨.negated hops hinner, hlabels, hscope⟩
    | false =>
      obtain ⟨rfl, rfl, rfl⟩ := yields_pure.mp hsign
      rw [append_nil]
      exact ⟨.unsigned hops hinner, hlabels, hscope⟩

end Numbers

/-- Lowering a numeric expression follows the scheme. -/
lemma arith_follows (t : Tree) : t.NumberFollows := by
  induction t using Tree.induction with
  | absent => exact fun _ _ _ _ h => absurd h not_yields_incomplete
  | node kind token value ops children ih =>
    intro s v code s' h
    cases hop : isTransparent kind ops with
    | true =>
      rw [arith_of_transparent hop] at h
      obtain ⟨t, rfl, -, h⟩ := yields_onlyChild h
      obtain ⟨hcode, hkept⟩ := ih t (.head _) h
      exact ⟨.wrapper hop hcode, hkept⟩
    | false =>
      cases kind with
      | sum => exact sum_follows ih (.inl rfl) hop h
      | product => exact sum_follows ih (.inr rfl) hop h
      | signed => exact signed_follows ih hop h
      | intLiteral =>
        unfold arith at h
        cases hread : Text.readInt64 value with
        | ok w =>
          simp only [hop, hread, Bool.false_eq_true, if_false, yields_pure] at h
          obtain ⟨rfl, rfl, rfl⟩ := h
          exact ⟨.literal hread, rfl, rfl⟩
        | error e => simp [hop, hread] at h
      | identifier =>
        unfold arith at h
        obtain ⟨type, hx, h⟩ := yields_useName_bind.mp h
        cases type with
        | num =>
          obtain ⟨rfl, rfl, rfl⟩ := yields_pure.mp h
          exact ⟨.variable hx, rfl, scope_use _ _⟩
        | bool => exact absurd h not_yields_fail
      | _ =>
        unfold arith at h
        simp [hop] at h

lemma exits_eta (e : Exits) : exits (e true) (e false) = e := by
  funext b
  cases b <;> rfl

lemma exits_negation (odd : Bool) (holds fails : Option Label) :
    (if odd then exits fails holds else exits holds fails) = fun b =>
    exits holds fails (b != odd) := by
  funext b
  cases odd <;> cases b <;> rfl

/-- A chain is lowered by lowering its left operand with exits that depend on the operator. -/
lemma logicChain_cons {op d left} (hop : decisive? op = some d) :
    (logicChain kind token (op :: ops) (left :: rest) holds fails : Lower Unit) =
        shortCircuit (exits holds fails d) (fun decided middle =>
          cond left (decidingExits d decided middle true) (decidingExits d decided middle false))
        (logicChain kind token ops rest holds fails) := by
  cases op with
  | orOr => cases hop; rfl
  | andAnd => cases hop; rfl
  | _ => cases hop

/-- A chain cannot be joined by any other operator. -/
lemma not_yields_logicChain {op left} {s s' : LowerState} {code} (hop : decisive? op = none) :
    ¬ (logicChain kind token (op :: ops) (left :: rest) holds fails).Yields s u code s' := by
  unfold logicChain
  split
  · cases hop
  · cases hop
  · simp [yields_freshLabel_bind]

/-- A branch on two operands that are lowered before it. -/
lemma yields_operands_branch {op} {x y : Lower Operand}
    (h : (do let l ← x; let r ← y; branch op l r holds fails).Yields s u code s') :
    ∃ l c1 s1 r c2, x.Yields s l c1 s1 ∧ y.Yields s1 r c2 s' ∧
      code = c1 ++ c2 ++ branchCode op l r (exits holds fails) := by
  obtain ⟨l, c1, s1, _, hx, hmore, rfl⟩ := yields_bind.mp h
  obtain ⟨r, c2, s2, _, hy, hbranch, rfl⟩ := yields_bind.mp hmore
  obtain ⟨rfl, rfl⟩ := yields_branch.mp hbranch
  exact ⟨l, c1, s1, r, c2, hx, hy, (append_assoc ..).symm⟩

/-- Lowering the tree as a condition follows the scheme. -/
def Tree.ConditionFollows (t : Tree) : Prop :=
  ∀ ⦃holds fails⦄ ⦃s : LowerState⦄ ⦃u code s'⦄, (cond t holds fails).Yields s u code s' →
    ConditionCode s.scope t (exits holds fails) s.names code s'.names ∧ s'.scope = s.scope

section Conditions

variable (ih : ∀ t ∈ children, t.ConditionFollows)
include ih

lemma negation_follows (hplain : isTransparent .negation ops = false) :
    (Tree.node .negation token value ops children).ConditionFollows := by
  intro holds fails s u code s' h
  rw [cond_negation hplain] at h
  cases hops : bangParity ops with
  | error op =>
    rw [hops] at h
    exact absurd h not_yields_fail
  | ok odd =>
    rw [hops] at h
    obtain ⟨t, rfl, -, h⟩ := yields_onlyChild h
    have hinner : ConditionCode s.scope t (if odd then exits fails holds else exits holds fails)
        s.names code s'.names ∧
          s'.scope = s.scope := by
      cases odd <;> exact ih t (.head _) h
    rw [exits_negation] at hinner
    exact ⟨.negation hops hinner.1, hinner.2⟩

lemma comparison_follows (hplain : isTransparent .comparison ops = false) :
    (Tree.node .comparison token value ops children).ConditionFollows := by
  intro holds fails s u code s' h
  unfold cond at h
  simp only [hplain, Bool.false_eq_true, if_false] at h
  split at h
  · rename_i left right op
    cases hop : relationOpcode? op with
    | none => simp [hop] at h
    | some opcode =>
      simp only [hop] at h
      obtain ⟨leftType, -, h⟩ := (quiet_typeOf left).yields_bind.mp h
      obtain ⟨rightType, -, h⟩ := (quiet_typeOf right).yields_bind.mp h
      split at h
      · exact absurd h not_yields_fail
      · cases leftType with
        | bool =>
          obtain ⟨_, _, s1, _, _, hleft, hright, rfl⟩ := yields_operands_branch h
          obtain ⟨rfl, c1, hl, rfl⟩ := yields_materialize hleft
          obtain ⟨rfl, c2, hr, rfl⟩ := yields_materialize hright
          obtain ⟨hl, hs1⟩ := ih left (by simp) hl
          obtain ⟨hr, hs2⟩ := ih right (by simp) hr
          rw [scope_names] at hl hs1 hs2
          rw [scope_names, hs1] at hr
          exact ⟨.booleans hop hl hr, hs2.trans hs1⟩
        | num =>
          obtain ⟨l, c1, s1, r, c2, hleft, hright, rfl⟩ := yields_operands_branch h
          obtain ⟨hl, hl1, hs1⟩ := arith_follows left hleft
          obtain ⟨hr, hl2, hs2⟩ := arith_follows right hright
          rw [hs1] at hr
          rw [Names.eq_setTemps (hl2.trans hl1)]
          exact ⟨.numbers hop hl hr, hs2.trans hs1⟩
  · exact absurd h not_yields_fail

/-- Lowering a chain of conditions follows the scheme. -/
lemma logicChain_follows (hlen : children.length = ops.length + 1)
    (h : (logicChain kind token ops children holds fails).Yields s u code s') :
    LogicCode s.scope ops children (exits holds fails) s.names code s'.names ∧
    s'.scope = s.scope := by
  induction children generalizing ops s code with
  | nil => cases hlen
  | cons left rest hrest =>
    obtain ⟨hfirst, ih⟩ := forall_mem_cons.mp ih
    cases ops with
    | nil =>
      obtain rfl : rest = [] := length_eq_zero_iff.mp (Nat.succ.inj hlen)
      obtain ⟨hlast, hscope⟩ := hfirst h
      exact ⟨.last hlast, hscope⟩
    | cons op ops =>
      have hlength := Nat.succ.inj hlen
      cases hop : decisive? op with
      | none => exact absurd h (not_yields_logicChain hop)
      | some d =>
        rw [logicChain_cons hop] at h
        cases hexit : exits holds fails d with
        | some l =>
          rw [hexit] at h
          obtain ⟨c1, s1, c2, hleft, hright, rfl⟩ := yields_shortCircuit_some h
          obtain ⟨hl, hs1⟩ := hfirst hleft
          obtain ⟨hr, hs2⟩ := hrest ih hlength hright
          rw [scope_names, exits_eta] at hl
          rw [hs1, scope_names] at hr
          exact ⟨.leaving hop hexit hl hr, hs2.trans hs1⟩
        | none =>
          rw [hexit] at h
          obtain ⟨c1, s1, c2, hleft, hright, rfl⟩ := yields_shortCircuit_none h
          obtain ⟨hl, hs1⟩ := hfirst hleft
          obtain ⟨hr, hs2⟩ := hrest ih hlength hright
          rw [scope_names, exits_eta] at hl
          rw [hs1, scope_names] at hr
          exact ⟨.skipping hop hexit hl hr, hs2.trans hs1⟩

end Conditions

/-- Lowering a condition follows the scheme. -/
lemma cond_follows (t : Tree) : t.ConditionFollows := by
  induction t using Tree.induction with
  | absent => exact fun _ _ _ _ _ _ h => absurd h not_yields_incomplete
  | node kind token value ops children ih =>
    intro holds fails s u code s' h
    cases hop : isTransparent kind ops with
    | true =>
      rw [cond_of_transparent hop] at h
      obtain ⟨t, rfl, -, h⟩ := yields_onlyChild h
      obtain ⟨hcode, hscope⟩ := ih t (.head _) h
      exact ⟨.wrapper hop hcode, hscope⟩
    | false =>
      cases kind with
      | negation => exact negation_follows ih hop h
      | comparison => exact comparison_follows ih hop h
      | logic =>
        unfold cond at h
        simp only [hop, Bool.false_eq_true, if_false] at h
        obtain ⟨-, hlen, h⟩ := yields_checkChain_bind h
        obtain ⟨hchain, hscope⟩ := logicChain_follows ih hlen h
        exact ⟨.logic hchain, hscope⟩
      | boolLiteral =>
        unfold cond at h
        simp only [hop, Bool.false_eq_true, if_false] at h
        split at h
        · rename_i htrue
          obtain ⟨rfl, rfl⟩ := yields_jumpTo.mp h
          rw [htrue]
          exact ⟨.literal true, rfl⟩
        · split at h
          · rename_i hfalse
            obtain ⟨rfl, rfl⟩ := yields_jumpTo.mp h
            rw [hfalse]
            exact ⟨.literal false, rfl⟩
          · exact absurd h not_yields_fail
      | identifier =>
        unfold cond at h
        obtain ⟨type, hx, h⟩ := yields_useName_bind.mp h
        cases type with
        | bool =>
          obtain ⟨rfl, rfl⟩ := yields_branch.mp h
          exact ⟨.variable hx, scope_use _ _⟩
        | num => exact absurd h not_yields_fail
      | _ =>
        unfold cond at h
        simp [hop] at h

/-! ## Statements -/

/-- Lowering an assignment follows the scheme. -/
lemma assignment_follows (h : (assignment settings token children).Yields s u code s') :
    StatementCode settings s.scope (.node .assignment token value ops children)
    s.names code s'.names ∧
      s'.scope = s.scope := by
  unfold assignment at h
  split at h
  · exact absurd h not_yields_incomplete
  · rename_i nameToken x nameOps nameChildren t
    obtain ⟨type, hx, hval⟩ := yields_useName_bind.mp h
    cases type with
    | bool =>
      obtain ⟨c, hcond, rfl⟩ := yields_boolValue hval
      obtain ⟨ht, hscope⟩ := cond_follows t hcond
      rw [scope_names, scope_use] at ht
      exact ⟨.boolAssignment hx ht, hscope.trans (scope_use s x)⟩
    | num =>
      obtain ⟨v, c1, s1, c2, harith, hcopy, rfl⟩ := yields_bind.mp hval
      obtain ⟨ht, hlabels, hscope⟩ := arith_follows t harith
      rw [scope_use] at ht hscope
      split at hcopy
      · rename_i hv
        -- a copy of a variable to itself is noted, and left out if the settings say so
        rw [yields_note_bind] at hcopy
        split at hcopy
        · rename_i helided
          obtain ⟨-, rfl, rfl⟩ := yields_pure.mp hcopy
          rw [append_nil, Names.eq_setTemps hlabels]
          exact ⟨.selfAssignment hx (hv ▸ ht) helided, hscope⟩
        · rename_i hkept
          obtain ⟨rfl, rfl⟩ := yields_emit.mp hcopy
          rw [Names.eq_setTemps hlabels]
          exact ⟨.numAssignment hx ht (.inr (by simpa using hkept)), hscope⟩
      · rename_i hv
        obtain ⟨rfl, rfl⟩ := yields_emit.mp hcopy
        rw [Names.eq_setTemps hlabels]
        exact ⟨.numAssignment hx ht (.inl hv), hscope⟩
  · exact absurd h not_yields_fail

/-- Lowering the scrutinee of a `switch` follows the scheme. -/
lemma scrutineeTemp_follows (h : (scrutineeTemp t).Yields s v code s') :
    ScrutineeCode s.scope t s.names.temps v code s'.names.temps ∧ s'.names.labels = s.names.labels ∧
      s'.scope = s.scope := by
  obtain ⟨type, -, hnum⟩ := (quiet_typeOf t).yields_bind.mp h
  split at hnum
  · exact absurd hnum not_yields_fail
  · obtain ⟨w, c1, s1, c2, harith, hcopy, rfl⟩ := yields_bind.mp hnum
    obtain ⟨ht, hlabels, hscope⟩ := arith_follows t harith
    cases w with
    | temp name id =>
      obtain ⟨rfl, rfl, rfl⟩ := yields_pure.mp hcopy
      rw [append_nil]
      exact ⟨.computed ht, hlabels, hscope⟩
    | const _ | global _ | label _ =>
      simp only [yields_freshTemp_bind, yields_emit_bind, yields_pure] at hcopy
      obtain ⟨_, ⟨rfl, rfl, rfl⟩, rfl⟩ := hcopy
      exact ⟨.copied ht (by simp), hlabels, hscope⟩

/-- The test of a case reads its value and emits one jump. -/
lemma yields_caseTest {seen label w}
    (h : (caseTest v seen token label children).Yields s w code s') :
    ∃ literalToken text literalOps literalChildren body,
      children = .node .intLiteral literalToken text literalOps literalChildren :: body ∧
        Text.readInt64 text = .ok w ∧ code = [.jumpIf .eq v (.const w) label] ∧ s' = s := by
  unfold caseTest at h
  split at h
  · exact absurd h not_yields_incomplete
  · rename_i literalToken text literalOps literalChildren body
    refine ⟨literalToken, text, literalOps, literalChildren, body, rfl, ?_⟩
    cases hw : Text.readInt64 text with
    | error e => simp [hw] at h
    | ok n =>
      simp only [hw] at h
      split at h
      · simp only [yields_note_bind, yields_emit_bind, yields_pure] at h
        obtain ⟨_, ⟨rfl, rfl, rfl⟩, rfl⟩ := h
        exact ⟨rfl, rfl, rfl⟩
      · simp only [yields_emit_bind, yields_pure] at h
        obtain ⟨_, ⟨rfl, rfl, rfl⟩, rfl⟩ := h
        exact ⟨rfl, rfl, rfl⟩
  · exact absurd h not_yields_fail

/-- Lowering the tests of a `switch` follows the scheme. -/
lemma dispatch_follows {clauses seen d result}
    (h : (dispatch v seen d clauses).Yields s result code s') :
    DispatchCode v d clauses s.names.labels code result.1 result.2 s'.names.labels ∧
      s'.names.temps = s.names.temps ∧ s'.scope = s.scope := by
  induction clauses generalizing seen d s code result with
  | nil =>
    unfold dispatch at h
    obtain ⟨rfl, rfl, rfl⟩ := yields_pure.mp h
    exact ⟨.done, rfl, rfl⟩
  | cons clause clauses ih =>
    unfold dispatch at h
    rw [yields_freshLabel_bind] at h
    split at h
    · exact absurd h not_yields_incomplete
    · rename_i token value ops children
      obtain ⟨w, c1, s1, _, htest, hmore, rfl⟩ := yields_bind.mp h
      obtain ⟨⟨labels, last⟩, c3, s2, _, hdisp, hres, rfl⟩ := yields_bind.mp hmore
      obtain ⟨rfl, rfl, rfl⟩ := yields_pure.mp hres
      obtain ⟨literalToken, text, literalOps, literalChildren, body, rfl, hw, rfl, rfl⟩ :=
        yields_caseTest htest
      obtain ⟨hrest, htemps, hscope⟩ := ih hdisp
      rw [append_nil]
      exact ⟨.case hw hrest, htemps, hscope⟩
    · rename_i token value ops body
      cases d with
      | some l => exact absurd h not_yields_fail
      | none =>
        obtain ⟨⟨labels, last⟩, c1, s1, _, hdisp, hres, rfl⟩ := yields_bind.mp h
        obtain ⟨rfl, rfl, rfl⟩ := yields_pure.mp hres
        obtain ⟨hrest, htemps, hscope⟩ := ih hdisp
        rw [append_nil]
        exact ⟨.default hrest, htemps, hscope⟩
    · exact absurd h not_yields_fail

/-- Every clause of a `switch` is there and has its label. -/
lemma DispatchCode.clauses {v d d' clauses n n' code labels}
    (h : DispatchCode v d clauses n code labels d' n') :
    labels.length = clauses.length ∧ ∀ t ∈ clauses, t.isAbsent = false := by
  induction h with
  | done => simp
  | case hw hrest ih | default hrest ih => exact ⟨by simp [ih.1], forall_mem_cons.mpr ⟨rfl, ih.2⟩⟩

/-- A clause is lowered at its label, and the others behind it. -/
lemma clauseBodies_parts {done label labels clauses}
    (h : (clauseBodies settings done (label :: labels)
      (.node kind token value ops children :: clauses)).Yields s u code s') :
    ∃ c1 s1 c2, (statements settings (clauseBody kind children)).Yields s () c1 s1 ∧
      (clauseBodies settings done labels clauses).Yields s1 () c2 s' ∧
        code = .mark label :: (c1 ++ leaveCode done clauses ++ c2) := by
  rw [clauseBodies_node] at h
  obtain ⟨following, hbody, rfl⟩ := yields_emit_bind.mp h
  obtain ⟨_, c1, s1, c2, hstmts, hrest, rfl⟩ := yields_bind.mp hbody
  refine ⟨c1, s1, ?_⟩
  unfold leaveCode
  split at hrest
  · rename_i hempty
    exact ⟨c2, hstmts, hrest, by simp [hempty]⟩
  · rename_i hempty
    obtain ⟨c3, hclauses, rfl⟩ := yields_emit_bind.mp hrest
    exact ⟨c3, hstmts, hclauses, by simp [hempty]⟩

/-- An `if` without an `else` is lowered as such, whatever is noted about it. -/
lemma yields_only (hrest : rest = [] ∨ rest = [.absent])
    (h : (statement settings (.node .conditional token value ops (condition :: t :: rest))).Yields s
      () code s') :
    (conditional condition (statement settings t) none).Yields s () code s' := by
  rcases hrest with rfl | rfl
  all_goals
    unfold statement at h
    obtain ⟨known, -, hnote⟩ := (quiet_constantCondition condition).yields_bind.mp h
    split at hnote
    · exact yields_noteUnreachable_bind.mp hnote
    · exact hnote

/-- An `if` with an `else` is lowered as such, whatever is noted about it. -/
lemma yields_alternative {e} (he : e.isAbsent = false)
    (h : (statement settings (.node .conditional token value ops [condition, t, e])).Yields s
      () code s') :
    (conditional condition (statement settings t) (some (statement settings e))).Yields s () code
    s' := by
  cases e with
  | absent => cases he
  | node kind' token' value' ops' children' =>
    unfold statement at h
    obtain ⟨known, -, hnote⟩ := (quiet_constantCondition condition).yields_bind.mp h
    split at hnote
    · exact yields_noteUnreachable_bind.mp hnote
    · exact yields_noteUnreachable_bind.mp hnote
    · exact hnote

/-- A `while` is lowered as such, whatever is noted about it. -/
lemma yields_loop
    (h : (statement settings (.node .loop token value ops [condition, t])).Yields s () code s') :
    (loop condition (statement settings t)).Yields s () code s' := by
  obtain ⟨known, -, hnote⟩ := (quiet_constantCondition condition).yields_bind.mp h
  split at hnote
  · exact yields_noteUnreachable_bind.mp hnote
  · exact hnote

/-- A `switch` has the code of its scrutinee, the tests of its cases, and the clauses. -/
lemma selection_parts {scrutinee clauses}
    (h : (statement settings (.node .selection token value ops (scrutinee :: clauses))).Yields s
      () code s') :
    ∃ v c1 s1 labels d c2 s2 c3, (scrutineeTemp scrutinee).Yields s v c1 s1 ∧
      (dispatch v [] none clauses).Yields { s1 with names := s1.names.addLabels 1 }
      (labels, d) c2 s2 ∧
      (clauseBodies settings (labelOf s1.names.labels) labels clauses).Yields s2 () c3 s' ∧
      code = c1 ++ (c2 ++ .jump (d.getD (labelOf s1.names.labels)) ::
        (c3 ++ [.mark (labelOf s1.names.labels)])) := by
  unfold statement at h
  obtain ⟨v, c1, s1, _, hscrut, hmore, rfl⟩ := yields_bind.mp h
  rw [yields_freshLabel_bind] at hmore
  obtain ⟨⟨labels, d⟩, c2, s2, _, hdisp, hjump, rfl⟩ := yields_bind.mp hmore
  obtain ⟨_, hbodies, rfl⟩ := yields_emit_bind.mp hjump
  obtain ⟨_, c3, s3, _, hclauses, hmark, rfl⟩ := yields_bind.mp hbodies
  obtain ⟨rfl, rfl⟩ := yields_emit.mp hmark
  exact ⟨v, c1, s1, labels, d, c2, s2, c3, hscrut, hdisp, hclauses, rfl⟩

/-- Lowering the tree as a statement follows the scheme. -/
def Tree.StatementFollows (settings : Settings) (t : Tree) : Prop :=
  ∀ ⦃s : LowerState⦄ ⦃u code s'⦄, (statement settings t).Yields s u code s' →
    StatementCode settings s.scope t s.names code s'.names ∧ s'.scope = s.scope

lemma only_follows (hrest : rest = [] ∨ rest = [.absent]) (ht : t.StatementFollows settings) :
    (Tree.node .conditional token value ops
      (condition :: t :: rest)).StatementFollows settings := by
  intro s u code s' h
  obtain ⟨c1, s1, c2, hcond, hthen, rfl⟩ := conditional_none_parts (yields_only hrest h)
  obtain ⟨hcondition, hs1⟩ := cond_follows condition hcond
  obtain ⟨hbody, hs2⟩ := ht hthen
  rw [hs1] at hbody
  exact ⟨.conditional hrest hcondition hbody, hs2.trans hs1⟩

lemma alternative_follows {e : Tree} (he : e.isAbsent = false) (ht : t.StatementFollows settings)
    (hother : e.StatementFollows settings) :
    (Tree.node .conditional token value ops [condition, t, e]).StatementFollows settings := by
  intro s u code s' h
  obtain ⟨c1, s1, c2, s2, c3, hcond, hthen, helse, rfl⟩ :=
    conditional_some_parts (yields_alternative he h)
  obtain ⟨hcondition, hs1⟩ := cond_follows condition hcond
  obtain ⟨hbody, hs2⟩ := ht hthen
  obtain ⟨helseBody, hs3⟩ := hother helse
  rw [hs1] at hbody
  rw [hs2, hs1] at helseBody
  exact ⟨.alternative hcondition hbody helseBody, hs3.trans (hs2.trans hs1)⟩

lemma loop_follows (ht : t.StatementFollows settings) :
    (Tree.node .loop token value ops [condition, t]).StatementFollows settings := by
  intro s u code s' h
  obtain ⟨c1, s1, c2, hcond, hbody, rfl⟩ := loop_parts (yields_loop h)
  obtain ⟨hcondition, hs1⟩ := cond_follows condition hcond
  obtain ⟨hbody, hs2⟩ := ht hbody
  rw [hs1] at hbody
  exact ⟨.loop hcondition hbody, hs2.trans hs1⟩

/-- Lowering the clauses of a `switch` at labels for all of them follows the scheme. -/
def ClausesFollow (settings : Settings) (clauses : List Tree) : Prop :=
  ∀ ⦃done labels⦄ ⦃s : LowerState⦄ ⦃u code s'⦄, labels.length = clauses.length →
    (∀ t ∈ clauses, t.isAbsent = false) →
    (clauseBodies settings done labels clauses).Yields s u code s' →
      ClausesCode settings s.scope done labels clauses s.names code s'.names ∧ s'.scope = s.scope

/-- A `switch` follows the scheme if its clauses do. -/
lemma selection_follows {scrutinee clauses} (hbodies : ClausesFollow settings clauses) :
    (Tree.node .selection token value ops (scrutinee :: clauses)).StatementFollows settings := by
  intro s u code s' h
  obtain ⟨v, c1, s1, labels, d, c2, s2, c3, hscrut, hdisp, hclauses, rfl⟩ := selection_parts h
  obtain ⟨hscrutineeCode, hlabels, hs1⟩ := scrutineeTemp_follows hscrut
  obtain ⟨hdispatchCode, htemps, hs2⟩ := dispatch_follows hdisp
  obtain ⟨hlen, hpresent⟩ := hdispatchCode.clauses
  obtain ⟨hclausesCode, hs3⟩ := hbodies hlen hpresent hclauses
  -- the scrutinee mints temporaries only, and the tests mint labels only
  have htests : DispatchCode v none clauses (s.names.labels + 1) c2 labels d s2.names.labels := by
    rw [← hlabels]
    exact hdispatchCode
  have hbodiesCode : ClausesCode settings s.scope (labelOf s.names.labels) labels clauses
      ⟨s1.names.temps, s2.names.labels⟩ c3 s'.names := by
    rw [hs2, scope_names, hs1, hlabels] at hclausesCode
    rw [show s1.names.temps = s2.names.temps from htemps.symm]
    exact hclausesCode
  refine ⟨?_, hs3.trans (hs2.trans hs1)⟩
  have hcode : StatementCode settings s.scope
      (.node .selection token value ops (scrutinee :: clauses)) s.names _ s'.names :=
      .selection hscrutineeCode htests hbodiesCode
  simpa [hlabels] using hcode

mutual

/-- Lowering a statement follows the scheme. -/
lemma statement_follows (settings : Settings) (t : Tree) : t.StatementFollows settings := by
  intro s u code s' h
  match t with
  | .absent => exact absurd h not_yields_fail
  | .node kind token value ops children =>
    match kind, children with
    | .program, children | .block, children =>
      obtain ⟨hchildren, hscope⟩ := statements_follows settings children h
      exact ⟨.sequence (by simp) hchildren, hscope⟩
    | .declaration, _ =>
      obtain ⟨-, rfl, rfl⟩ := yields_pure.mp h
      exact ⟨.declaration, rfl⟩
    | .statement, [] =>
      obtain ⟨-, rfl, rfl⟩ := yields_pure.mp h
      exact ⟨.empty, rfl⟩
    | .statement, [inner] =>
      obtain ⟨hinner, hscope⟩ := statement_follows settings inner h
      exact ⟨.inner hinner, hscope⟩
    | .assignment, _ => exact assignment_follows h
    | .conditional, [_, t] => exact only_follows (.inl rfl) (statement_follows settings t) h
    | .conditional, [_, t, .absent] =>
      exact only_follows (.inr rfl) (statement_follows settings t) h
    | .conditional, [_, t, .node k e v o c] =>
      exact alternative_follows rfl (statement_follows settings t)
        (statement_follows settings (.node k e v o c)) h
    | .loop, [_, t] => exact loop_follows (statement_follows settings t) h
    | .selection, _ :: clauses => exact selection_follows (clauseBodies_follows settings clauses) h
    | .statement, _ :: _ :: _ | .conditional, [] | .conditional, [_] | .conditional,
        _ :: _ :: _ :: _ :: _
    | .loop, [] | .loop, [_] | .loop, _ :: _ :: _ :: _ | .selection, [] | .caseClause,
        _ | .defaultClause, _
    | .expression, _ | .sum, _ | .product, _ | .signed, _ | .logic, _ | .comparison,
        _ | .negation, _ | .group, _
    | .boolLiteral, _ | .intLiteral, _ | .identifier, _ | .unknown _, _ => simp [statement] at h

/-- Lowering several statements follows the scheme. -/
lemma statements_follows (settings : Settings) (ts : List Tree) {s s' : LowerState} {u code}
    (h : (statements settings ts).Yields s u code s') :
    StatementsCode settings s.scope ts s.names code s'.names ∧ s'.scope = s.scope := by
  match ts with
  | [] =>
    unfold statements at h
    obtain ⟨-, rfl, rfl⟩ := yields_pure.mp h
    exact ⟨.nil, rfl⟩
  | t :: ts =>
    unfold statements at h
    obtain ⟨_, c1, s1, c2, ht, hts, rfl⟩ := yields_bind.mp h
    obtain ⟨ht, hs1⟩ := statement_follows settings t ht
    obtain ⟨hts, hs2⟩ := statements_follows settings ts hts
    rw [hs1] at hts
    exact ⟨.cons ht hts, hs2.trans hs1⟩

/-- Lowering the clauses of a `switch` follows the scheme. -/
lemma clauseBodies_follows (settings : Settings) (clauses : List Tree) :
    ClausesFollow settings clauses := by
  intro done labels s u code s' hlen hpresent h
  match labels, clauses with
  | [], [] =>
    unfold clauseBodies at h
    obtain ⟨-, rfl, rfl⟩ := yields_pure.mp h
    exact ⟨.nil, rfl⟩
  | label :: labels, .node kind token value ops children :: clauses =>
    have hlen' : labels.length = clauses.length := by simpa using hlen
    obtain ⟨-, hpresent'⟩ := forall_mem_cons.mp hpresent
    obtain ⟨c1, s1, c2, hstmts, hclauses, rfl⟩ := clauseBodies_parts h
    obtain ⟨hbody, hs1⟩ : StatementsCode settings s.scope (clauseBody kind children)
        s.names c1 s1.names ∧
          s1.scope = s.scope := by
      -- the value of a case stands in front of its statements
      match children with
      | [] => cases kind <;> exact statements_follows settings [] hstmts
      | t :: body =>
        cases kind with
        | caseClause => exact statements_follows settings body hstmts
        | _ => exact statements_follows settings (t :: body) hstmts
    obtain ⟨hrest, hs2⟩ := clauseBodies_follows settings clauses hlen' hpresent' hclauses
    rw [hs1] at hrest
    exact ⟨.cons hbody hrest, hs2.trans hs1⟩
  | _ :: _, .absent :: _ => simp [Tree.isAbsent] at hpresent
  | [], _ :: _ => simp at hlen
  | _ :: _, [] => simp at hlen

end

/-! ## Programs -/

/-- The note about a symbol without uses. -/
def Note.unused (x : Symbol) : Note := ⟨x.token, .neverUsed x.name⟩

/-- Collecting a declaration adds it to the scope and has no other effect. -/
lemma collect_follows (h : (collect t).Yields s u code s') :
    code = [] ∧ s'.names = s.names ∧ ∀ x, s'.scope x = (s.scope x).or (declaredScope [t] x) := by
  unfold collect at h
  split at h
  · rename_i kind declToken keyword ops token name nameOps nameChildren
    rw [yields_symbols_bind] at h
    rcases hdecl : s.symbols.declare name keyword token with ⟨declared, after⟩
    simp only [hdecl, yields_setSymbols_bind] at h
    split at h
    · exact absurd h not_yields_fail
    · have hnone : code = [] ∧ s' = { s with symbols := after } := by
        split at h
        · exact yields_note.mp h
        · exact (yields_pure.mp h).2
      obtain ⟨rfl, rfl⟩ := hnone
      refine ⟨rfl, rfl, fun x => ?_⟩
      rw [LoweringState.scope, SymbolTable.scope_declare hdecl, declaredScope_singleton rfl]
      rfl
  · exact absurd h not_yields_incomplete
  · exact absurd h not_yields_fail

/-- Collecting several declarations adds all of them to the scope. -/
lemma collectAll_follows {ts} (h : (collectAll ts).Yields s u code s') :
    code = [] ∧ s'.names = s.names ∧ ∀ x, s'.scope x = (s.scope x).or (declaredScope ts x) := by
  induction ts generalizing s code with
  | nil =>
    obtain ⟨-, rfl, rfl⟩ := yields_pure.mp h
    exact ⟨rfl, rfl, fun x => by simp [declaredScope]⟩
  | cons t ts ih =>
    obtain ⟨_, c1, s1, c2, ht, hts, rfl⟩ := yields_bind.mp h
    obtain ⟨rfl, hnames1, hscope1⟩ := collect_follows ht
    obtain ⟨rfl, hnames2, hscope2⟩ := ih hts
    refine ⟨rfl, hnames2.trans hnames1, fun x => ?_⟩
    rw [hscope2, hscope1, Option.or_assoc, ← declaredScope_append, singleton_append]

/-- The symbols without uses get a note each, in their order. -/
lemma noteUnused_eq (xs : List Symbol) (s : LowerState) :
    noteUnused xs s = ⟨.ok (), [], (xs.filter fun x => x.uses = 0).map Note.unused, s⟩ := by
  induction xs with
  | nil => rfl
  | cons x xs ih =>
    unfold noteUnused
    by_cases huses : x.uses = 0
    · rw [if_pos huses, filter_cons_of_pos (by simpa using huses)]
      exact bind_eq_ok_iff.mpr ⟨(), _, _, _, _, _, rfl, ih, rfl, rfl⟩
    · rw [if_neg huses, filter_cons_of_neg (by simpa using huses)]
      exact ih

lemma noteUnused_follows {xs} (h : (noteUnused xs).Yields s u code s') : code = [] ∧ s' = s :=
  ((yields_iff_of_eq (noteUnused_eq xs s)).mp h).2

/-- Lowering a program follows the scheme, in the scope of the declarations of the program. -/
theorem lower_follows {root} (h : (lower settings root).Yields s u code s') :
    StatementCode settings root.scope root s.names code s'.names ∧ s'.scope = root.scope := by
  unfold lower at h
  split at h
  · rename_i root token value ops children
    rw [yields_setSymbols_bind] at h
    obtain ⟨_, c1, s1, _, hcollect, hrest, rfl⟩ := yields_bind.mp h
    obtain ⟨_, c2, s2, _, hstmt, hunused, rfl⟩ := yields_bind.mp hrest
    obtain ⟨rfl, hnames, hscope⟩ := collectAll_follows hcollect
    obtain ⟨rfl, rfl⟩ := noteUnused_follows (yields_symbols_bind.mp hunused)
    obtain ⟨hcode, hs2⟩ := statement_follows settings _ hstmt
    have hs1 : s1.scope = (Tree.node .program token value ops children).scope :=
      funext fun x => hscope x
    rw [hs1, hnames] at hcode
    rw [nil_append, append_nil]
    exact ⟨hcode, hs2.trans hs1⟩
  · exact absurd h not_yields_fail

end ThreeAddress
