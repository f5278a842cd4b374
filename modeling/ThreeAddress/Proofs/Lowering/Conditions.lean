import ThreeAddress.Proofs.Machine.Fragments
import ThreeAddress.Proofs.Semantics.Atoms

/-!
# Conditions test what has to be evaluated

Every atom of a condition becomes one test, and the tests stand in the code in the order of the
atoms (`ConditionCode.testedBy`). A machine that executes the code of a condition stays in it until
it leaves at the exit for the truth value, or comes to a division by zero. The tests it executes are
those of the atoms that are evaluated, in the order of evaluation (`ConditionCode.tested`).
-/

namespace ThreeAddress

open List Lowering Machine

variable {b d : Bool} {e : Exits} {c c1 c2 code : List Instr} {tests : List Nat}
  {ops : List TokenKind} {rest : List Tree} {n n' : Nat} {right v : Operand} {op : TokenKind}
  {left t : Tree} {Γ : Scope}

/-! ## Tests of atoms -/

/-- An instruction jumps on the outcome of an atom. -/
def Instr.Tests (i : Instr) : Tree → Prop
  | .node .identifier _ x _ _ => i.isTest = true ∧
      i.test = some ⟨.eq, some (.global x), some (.const 1)⟩
  | .node .comparison _ _ [op] _ =>
    i.isTest = true ∧ ∃ opcode left right, relationOpcode? op = some opcode ∧
    i.test = some ⟨opcode, left, right⟩
  | _ => False

/-- The instruction at a place jumps on the outcome of an atom. -/
def TestedAt (code : List Instr) (atom : Tree) (place : Nat) : Prop :=
  ∃ i, code[place]? = some i ∧ i.Tests atom

section Atoms

variable {σ : Store} {α : Type} {kind : NodeKind} {token : Token} {value : String}
  {inner : Tree} {tags : List α}

/-- A node that only stands for its child has the atoms of the child. -/
lemma atoms_of_isTransparent (h : isTransparent kind ops = true) :
    (Tree.node kind token value ops [inner]).atoms Γ = inner.atoms Γ := by
  have hall : Tree.atomsAll Γ [inner] = inner.atoms Γ := append_nil _
  cases kind with
  | expression | group | sum | product | signed | negation | logic => exact hall
  | comparison =>
    obtain rfl : ops = [] := isEmpty_iff.mp h
    exact hall
  | _ => cases h

/-- A comparison is an atom and comes behind those of its operands. -/
lemma atoms_comparison {right} : (Tree.node .comparison token value [op] [left, right]).atoms Γ =
      left.atoms Γ ++ right.atoms Γ ++ [.node .comparison token value [op] [left, right]] := by
  simp [Tree.atoms, Tree.atomsAll]

/-- A node that only stands for its child is evaluated like the child. -/
lemma evaluated_of_isTransparent (h : isTransparent kind ops = true) :
    evaluated Γ σ (.node kind token value ops [inner]) tags = evaluated Γ σ inner tags := by
  cases kind with
  | expression | group | sum | product | signed | negation => rfl
  | comparison | logic =>
    obtain rfl : ops = [] := isEmpty_iff.mp h
    rfl
  | _ => cases h

/-- The first operand of a chain is evaluated, and the rest unless it has decided. -/
lemma evaluatedLogic_cons {ts} (hop : decisive? op = some d) (ht : eval Γ σ t = .ok (.bool b)) :
    evaluatedLogic Γ σ (op :: ops) (t :: ts) tags = evaluated Γ σ t tags ++
      if b = d then [] else evaluatedLogic Γ σ ops ts (tags.drop (t.atomCount Γ)) := by
  cases op with
  | orOr | andAnd =>
    cases hop
    cases b <;> simp [evaluatedLogic, ht]
  | _ => cases hop

/-- Nothing is evaluated behind a division by zero in the first operand of a chain. -/
lemma evaluatedLogic_cons_error {ts e} (ht : eval Γ σ t = .error e) :
    evaluatedLogic Γ σ (op :: ops) (t :: ts) tags = evaluated Γ σ t tags := by
  cases op <;> simp [evaluatedLogic, ht]

end Atoms

mutual

/-- A numeric expression has no atoms. -/
lemma NumberCode.atoms_eq {Γ t n v c n'} (h : NumberCode Γ t n v c n') : t.atoms Γ = [] := by
  match h with
  | .wrapper htransparent hinner =>
      exact (atoms_of_isTransparent htransparent).trans hinner.atoms_eq
  | .literal _ => rfl
  | .variable hx => exact if_neg (by rw [hx]; nofun)
  | .chain hkind hfirst hrest =>
    have hall : Tree.atomsAll Γ (_ :: _) = [] :=
      append_eq_nil_iff.mpr ⟨hfirst.atoms_eq, hrest.atoms_eq⟩
    rcases hkind with rfl | rfl
    · exact hall
    · exact hall
  | .unsigned _ hinner | .negated _ hinner => exact (append_nil _).trans hinner.atoms_eq

/-- The rest of a chain of numbers has no atoms. -/
lemma ChainCode.atoms_eq {Γ kind acc ops operands n v c n'}
    (h : ChainCode Γ kind acc ops operands n v c n') :
    Tree.atomsAll Γ operands = [] := by
  match h with
  | .done => rfl
  | .more _ hoperand hrest => exact append_eq_nil_iff.mpr ⟨hoperand.atoms_eq, hrest.atoms_eq⟩

end

/-- No atoms are evaluated in a numeric expression. -/
lemma NumberCode.evaluated_eq {α Γ t n v c n'} (h : NumberCode Γ t n v c n') (σ : Store)
    (tags : List α) :
    evaluated Γ σ t tags = [] := by
  match h with
  | .wrapper htransparent hinner =>
    exact (evaluated_of_isTransparent htransparent).trans (hinner.evaluated_eq σ tags)
  | .literal _ => rfl
  | .variable hx => exact if_neg (by rw [hx]; nofun)
  | .chain hkind hfirst hrest =>
    cases hrest with
    | done => rcases hkind with rfl | rfl <;> exact hfirst.evaluated_eq σ tags
    | more _ _ _ => rcases hkind with rfl | rfl <;> rfl
  | .unsigned _ hinner | .negated _ hinner => exact hinner.evaluated_eq σ tags

/-! ## The tests of a condition -/

section Static

variable {p : Nat} {i : Instr}

lemma Instr.isTest_eq_false (h : i.op.isJump = false) : i.isTest = false := by
  unfold Instr.isTest
  cases hop : i.op with
  | jumpIf | jumpUnless =>
    rw [hop] at h
    cases h
  | _ => rfl

lemma NumberCode.isTest_eq_false (h : NumberCode Γ t n v c n') :
    ∀ i ∈ c, i.isTest = false := fun i hi =>
    Instr.isTest_eq_false (h.arithmetic i hi).isJump_eq_false

lemma isTest_valueCode (target : Operand) (k : Nat) : ∀ i ∈ valueCode target k,
    i.isTest = false := by
  simp [valueCode, Instr.isTest, Instr.mark, Instr.copy, Instr.jump]

lemma isTest_jumpCode (l : Option Label) : ∀ i ∈ jumpCode l, i.isTest = false := by
  cases l with
  | none => exact forall_mem_nil _
  | some l => exact forall_mem_singleton.mpr rfl

/-- Code that branches on a comparison begins with a test of it, and what follows is none. -/
lemma branchCode_eq_cons (op : Opcode) (left right : Operand) (hexit : ∃ b, e b ≠ none) :
    ∃ i c, branchCode op left right e = i :: c ∧ i.isTest = true ∧
      i.test = some ⟨op, some left, some right⟩ ∧ ∀ i ∈ c, i.isTest = false := by
  unfold branchCode
  split
  · exact ⟨_, _, rfl, rfl, rfl, forall_mem_singleton.mpr rfl⟩
  · exact ⟨_, _, rfl, rfl, rfl, forall_mem_nil _⟩
  · exact ⟨_, _, rfl, rfl, rfl, forall_mem_nil _⟩
  · rename_i htrue hfalse
    obtain ⟨b, hb⟩ := hexit
    cases b with
    | true => exact absurd htrue hb
    | false => exact absurd hfalse hb

/-- Code that branches on a comparison has its test at its beginning. -/
lemma testPlaces_branchCode {op left} (hexit : ∃ b, e b ≠ none) (p : Nat) :
    testPlaces p (branchCode op left right e) = [p] := by
  obtain ⟨i, c, hcode, hi, -, hc⟩ := branchCode_eq_cons op left right hexit
  rw [hcode, testPlaces, if_pos hi, testPlaces_eq_nil hc]

/-- A comparison of truth values has the tests of its operands and one behind them. -/
lemma testPlaces_booleans {op v v' l l'} (hexit : ∃ b, e b ≠ none) (p : Nat) :
    testPlaces p (c1 ++ valueCode v l ++ (c2 ++ valueCode v' l') ++ branchCode op v v' e) =
      testPlaces p c1 ++ (testPlaces (p + (c1 ++ valueCode v l).length) c2 ++
        [p + (c1 ++ valueCode v l).length + (c2 ++ valueCode v' l').length]) := by
  simp only [testPlaces_append, testPlaces_eq_nil (isTest_valueCode _ _), nil_append,
    testPlaces_branchCode hexit, length_append, append_assoc, Nat.add_assoc]

/-- That test is one of an atom if it makes the comparison of the atom. -/
lemma testedAt_branchCode {op left atom} (hexit : ∃ b, e b ≠ none)
    (hat : CodeAt code p (branchCode op left right e))
    (hatom : ∀ i : Instr, i.isTest = true → i.test = some ⟨op, some left, some right⟩ →
      i.Tests atom) :
    TestedAt code atom p := by
  obtain ⟨i, c, hcode, hi, htest, -⟩ := branchCode_eq_cons op left right hexit
  rw [hcode] at hat
  exact ⟨i, hat.head, hatom i hi htest⟩

lemma exists_exit_negation {odd : Bool} (hexit : ∃ b, e b ≠ none) : ∃ b, e (b != odd) ≠ none := by
  obtain ⟨b, hb⟩ := hexit
  exact ⟨b != odd, by rwa [Bool.bne_assoc, bne_self_eq_false, Bool.bne_false]⟩

mutual

/-- The tests of the code of a condition are those of its atoms, in order. -/
lemma ConditionCode.testedBy {t : Tree} {e : Exits} {n : Names} {c : List Instr}
    {n' : Names} {p : Nat} (h : ConditionCode Γ t e n c n') (hexit : ∃ b, e b ≠ none)
    (hat : CodeAt code p c) :
    Forall₂ (TestedAt code) (t.atoms Γ) (testPlaces p c) := by
  match h with
  | .wrapper htransparent hinner =>
    rw [atoms_of_isTransparent htransparent]
    exact hinner.testedBy hexit hat
  | .literal b =>
    rw [testPlaces_eq_nil (isTest_jumpCode _)]
    exact .nil
  | .variable hx =>
    rw [testPlaces_branchCode hexit, Tree.atoms, if_pos hx]
    exact .cons (testedAt_branchCode hexit hat fun i hi htest => ⟨hi, htest⟩) .nil
  | .negation _ hinner =>
    rw [show Tree.atoms Γ _ = _ from append_nil _]
    exact hinner.testedBy (exists_exit_negation hexit) hat
  | .numbers hop hleft hright =>
    rw [atoms_comparison, hleft.atoms_eq, hright.atoms_eq, testPlaces_append, testPlaces_append,
      testPlaces_eq_nil hleft.isTest_eq_false, testPlaces_eq_nil hright.isTest_eq_false,
      testPlaces_branchCode hexit]
    exact .cons (testedAt_branchCode hexit hat.right fun i hi htest =>
      ⟨hi, _, _, _, hop, htest⟩) .nil
  | .booleans hop hleft hright =>
    have hboth : ∀ k, ∃ b, valueExits k b ≠ none := fun k => ⟨true, nofun⟩
    have hbranch := hat.right
    rw [length_append, ← Nat.add_assoc] at hbranch
    rw [testPlaces_booleans hexit, atoms_comparison, append_assoc]
    exact rel_append (hleft.testedBy (hboth _) hat.left.left.left) (rel_append
      (hright.testedBy (hboth _) hat.left.right.left)
      (.cons (testedAt_branchCode hexit hbranch fun i hi htest => ⟨hi, _, _, _, hop, htest⟩) .nil))
  | .logic hchain => exact hchain.testedBy hexit hat

/-- The tests of the code of a chain are those of the atoms of its operands. -/
lemma LogicCode.testedBy {ops operands e n c n' p} (h : LogicCode Γ ops operands e n c n')
    (hexit : ∃ b, e b ≠ none) (hat : CodeAt code p c) :
    Forall₂ (TestedAt code) (Tree.atomsAll Γ operands) (testPlaces p c) := by
  match h with
  | .last hlast =>
    rw [show Tree.atomsAll Γ [_] = _ from append_nil _]
    exact hlast.testedBy hexit hat
  | @LogicCode.leaving _ _ d _ _ _ _ _ _ _ _ _ _ _ _ hleft hrest =>
    rw [testPlaces_append, testPlaces_cons rfl]
    exact rel_append (hleft.testedBy ⟨d, nofun⟩ hat.left) (hrest.testedBy hexit hat.right.tail)
  | @LogicCode.skipping _ _ d _ _ _ _ _ _ _ _ _ _ _ hleft hrest =>
    rw [testPlaces_append, testPlaces_cons rfl, testPlaces_append, testPlaces_cons rfl,
      testPlaces, append_nil]
    exact rel_append (hleft.testedBy ⟨d, nofun⟩ hat.left) (hrest.testedBy hexit hat.right.tail.left)

end

end Static

/-! ## Executed tests -/

/-- The machine computes the value of an expression into an operand and gets to the end of a range
of places, or it divides by zero there; on the way it executes tests. -/
def Gives (code : List Instr) (index : LabelIndex) (n : Nat) (m : Machine)
    (c : List Instr) (v : Operand) (value : Except Trouble Value) (tests : List Nat) : Prop :=
  (∃ x trail m', value = .ok x ∧ Stays code index m.next (m.next + c.length) m trail m' ∧
    m'.next = m.next + c.length ∧ m.Agrees n m' ∧ m'.read (some v) = .ok x.word ∧
    testsAlong code trail = tests) ∨
  ∃ trail m', value = .error .divisionByZero ∧
    Stays code index m.next (m.next + c.length) m trail m' ∧
    DividesWithin code index m.next (m.next + c.length) m' ∧ testsAlong code trail = tests

/-- The machine leaves the code of a condition at the exit for its truth value, or it divides by
zero there; on the way it executes tests. -/
def Tested (code : List Instr) (index : LabelIndex) (n : Nat) (m : Machine)
    (c : List Instr) (e : Exits) (value : Except Trouble Value) (tests : List Nat) : Prop :=
  (∃ b trail m', value = .ok (.bool b) ∧ Stays code index m.next (m.next + c.length) m trail m' ∧
    m'.next = exitPlace index (m.next + c.length) (e b) ∧ m.Agrees n m' ∧
    testsAlong code trail = tests) ∨
  ∃ trail m', value = .error .divisionByZero ∧
    Stays code index m.next (m.next + c.length) m trail m' ∧
    DividesWithin code index m.next (m.next + c.length) m' ∧ testsAlong code trail = tests

section Executed

variable {index : LabelIndex} {m : Machine}

/-- The code of a numeric expression gives its value, without tests. -/
lemma NumberCode.gives (h : NumberCode Γ t n v c n')
    (index : LabelIndex) (hat : CodeAt code m.next c) :
    Gives code index n m c v (eval Γ m.store t) [] := by
  rcases h.computes index (codeAt_isolated m.next c) with ⟨w, m', hval, harr,
    hread⟩ | ⟨hval, hfails⟩
  · obtain ⟨trail, hstays⟩ := harr.reaches.stays hat
    exact .inl ⟨.num w, trail, m', hval, hstays, harr.next, harr.agrees, hread,
      testsAlong_eq_nil hat h.isTest_eq_false hstays.inside⟩
  · obtain ⟨trail, m', hstays, hdivides⟩ := hfails.stays hat
    exact .inr ⟨trail, m', hval, hstays, hdivides,
      testsAlong_eq_nil hat h.isTest_eq_false hstays.inside⟩

/-- A value that a numeric expression has is a number. -/
lemma NumberCode.num_of_eval {x} (h : NumberCode Γ t n v c n') (hx : eval Γ m.store t = .ok x) :
    ∃ w, x = .num w := by
  rcases h.computes ({} : LabelIndex) (codeAt_isolated m.next c) with ⟨w, _, hval, -⟩ | ⟨hval, -⟩
  · exact ⟨w, Except.ok.inj (hx.symm.trans hval)⟩
  · rw [hx] at hval
    cases hval

/-- A value that is tested is a truth value. -/
lemma Tested.bool_of_eq {value x} (h : Tested code index n m c e value tests) (hx : value = .ok x) :
    ∃ b, x = .bool b := by
  rcases h with ⟨b, _, _, hval, -⟩ | ⟨_, _, hval, -⟩
  · exact ⟨b, Except.ok.inj (hx.symm.trans hval)⟩
  · cases hx.symm.trans hval

/-- A condition whose truth value is written to a new temporary gives it. -/
lemma Tested.materialized (hlink : Linked code index) {k value}
    (h : Tested code index (n + 1) m c (valueExits k) value tests)
    (hat : CodeAt code m.next (c ++ valueCode (tempOf n) k)) :
    Gives code index n m (c ++ valueCode (tempOf n) k) (tempOf n) value tests := by
  have hlen : m.next + (c ++ valueCode (tempOf n) k).length =
      m.next + c.length + (valueCode (tempOf n) k).length := by
    rw [length_append, Nat.add_assoc]
  unfold Gives
  rw [hlen]
  rcases h with ⟨b, trail, m1, hval, hstays, hnext, hagrees, htests⟩ | ⟨trail, m1, hval, hstays,
    hdivides, htests⟩
  · have hwrite : m1.write (some (tempOf n)) (Value.bool b).word =
        .ok { m1 with temps := m1.temps.insert ("_t" ++ toString n) (Value.bool b).word } := rfl
    have hreaches := reaches_valueCode (hlink.isolated hat.right) (codeAt_isolated _ _) hnext hwrite
    obtain ⟨trail', hstays'⟩ := hreaches.stays hat.right
    refine .inl ⟨.bool b, trail ++ trail', _, hval,
      (hstays.widen (le_refl _) (Nat.le_add_right _ _)).append
      (hstays'.widen (Nat.le_add_right _ _) (le_refl _)),
      rfl, ⟨hagrees.globals, fun j hj => ?_⟩, ?_, ?_⟩
    · have hne : n ≠ j := by omega
      show (m1.temps.insert _ _)[_]? = _
      rw [Std.TreeMap.getElem?_insert, ← hagrees.temps j (by omega)]
      simp [hne]
    · simp [Machine.read, tempOf]
    · rw [testsAlong_append, htests,
        testsAlong_eq_nil hat.right (isTest_valueCode _ _) hstays'.inside, append_nil]
  · exact .inr ⟨trail, m1, hval, hstays.widen (le_refl _) (Nat.le_add_right _ _),
      hdivides.widen (le_refl _) (Nat.le_add_right _ _), htests⟩

lemma testsAlong_single {p} {i} (hi : code[p]? = some i) :
    testsAlong code [p] = if i.isTest then [p] else [] := by
  rw [testsAlong, filter_singleton, hi, Option.any_some, cond_eq_ite]

/-- Branching on a comparison executes one test and goes to the exit for its outcome. -/
lemma stays_branchCode {op left x y} (hexit : ∃ b, e b ≠ none)
    (hat : CodeAt code m.next (branchCode op left right e)) (hleft : m.read (some left) = .ok x)
    (hright : m.read (some right) = .ok y) (hb : compare op x y = .ok b) :
    ∃ trail, Stays code index m.next (m.next + (branchCode op left right e).length) m trail
        { m with next := exitPlace index (m.next + (branchCode op left right e).length) (e b) } ∧
      testsAlong code trail = [m.next] := by
  unfold branchCode at hat ⊢
  cases htrue : e true with
  | some t =>
    cases hfalse : e false with
    | some f =>
      simp only [htrue, hfalse] at hat ⊢
      have htest : Stays code index m.next (m.next + 2) m [m.next] _ :=
        .single hat.head (step_jumpIf hleft hright hb) (le_refl _) (by omega)
      have htests : testsAlong code [m.next] = [m.next] := testsAlong_single hat.head
      cases b with
      | true => exact ⟨_, by rw [htrue]; exact htest, htests⟩
      | false =>
        have hjump : Stays code index m.next (m.next + 2) { m with next := m.next + 1 }
            [m.next + 1] _ :=
          .single hat.tail.head (step_jump f) (Nat.le_succ _) (Nat.lt_succ_self _)
        refine ⟨_, by rw [hfalse]; exact htest.append hjump, ?_⟩
        rw [testsAlong_append, htests, testsAlong_single hat.tail.head]
        rfl
    | none =>
      simp only [htrue, hfalse] at hat ⊢
      have htest : Stays code index m.next (m.next + 1) m [m.next] _ :=
        .single hat.head (step_jumpIf hleft hright hb) (le_refl _) (Nat.lt_succ_self _)
      refine ⟨_, ?_, testsAlong_single hat.head⟩
      cases b with
      | true => rwa [htrue]
      | false => rwa [hfalse]
  | none =>
    cases hfalse : e false with
    | some f =>
      simp only [htrue, hfalse] at hat ⊢
      have htest : Stays code index m.next (m.next + 1) m [m.next] _ :=
        .single hat.head (step_jumpUnless hleft hright hb) (le_refl _) (Nat.lt_succ_self _)
      refine ⟨_, ?_, testsAlong_single hat.head⟩
      cases b with
      | true => rwa [htrue]
      | false => rwa [hfalse]
    | none =>
      obtain ⟨b', hb'⟩ := hexit
      cases b' with
      | true => exact absurd htrue hb'
      | false => exact absurd hfalse hb'

/-- A comparison of two values executes the tests in its operands, as far as they are evaluated, and
then its own. -/
lemma tested_comparison {opcode l r left right tests1 tests2}
    (hop : relationOpcode? op = some opcode) (hexit : ∃ b, e b ≠ none) (hn : n ≤ n')
    (hl : ∀ m1 m2 : Machine, m1.Agrees n' m2 → m2.read (some l) = m1.read (some l))
    (hat : CodeAt code m.next (c1 ++ c2 ++ branchCode opcode l r e))
    (hleft : Gives code index n m c1 l left tests1)
    (hright : ∀ m1 : Machine, m1.next = m.next + c1.length → m1.store = m.store →
      Gives code index n' m1 c2 r right tests2)
    (hsame : ∀ x y, left = .ok x → right = .ok y →
      compareValues op x y = related op x.word y.word >>= fun b => .ok (.bool b)) :
    Tested code index n m (c1 ++ c2 ++ branchCode opcode l r e) e
      (left >>= fun x => right >>= fun y => compareValues op x y)
      (tests1 ++ match left with
        | .error _ => []
        | .ok _ => tests2 ++ match right with
          | .error _ => []
          | .ok _ => [m.next + c1.length + c2.length]) := by
  have hlen : m.next + (c1 ++ c2 ++ branchCode opcode l r e).length =
      m.next + c1.length + c2.length + (branchCode opcode l r e).length := by
    simp [Nat.add_assoc]
  unfold Tested
  rw [hlen]
  rcases hleft with ⟨x, trail1, m1, rfl, hstays1, hnext1, hagrees1, hread1, htests1⟩ |
    ⟨trail1, m1, rfl, hstays1, hdivides, htests1⟩
  · have hwide1 := hstays1.widen (le_refl _)
      (by omega : _ ≤ m.next + c1.length + c2.length + (branchCode opcode l r e).length)
    rcases hright m1 hnext1 hagrees1.store_eq with ⟨y, trail2, m2, rfl, hstays2, hnext2, hagrees2,
      hread2, htests2⟩ | ⟨trail2, m2, rfl, hstays2, hdivides, htests2⟩
    · have hplace2 : m2.next = m.next + c1.length + c2.length := by rw [hnext2, hnext1]
      have hat2 : CodeAt code m2.next (branchCode opcode l r e) :=
        hat.right.at_place (by rw [hplace2, length_append, Nat.add_assoc])
      obtain ⟨b, hrelated, hcompare⟩ := compare_of_relationOpcode hop x.word y.word
      obtain ⟨trail3, hstays3, htests3⟩ :=
        stays_branchCode hexit hat2 ((hl m1 m2 hagrees2).trans hread1) hread2 hcompare
      rw [hplace2] at hstays3 htests3
      rw [hnext1] at hstays2
      refine .inl ⟨b, trail1 ++ (trail2 ++ trail3), _, ?_,
        hwide1.append ((hstays2.widen (Nat.le_add_right _ _) (Nat.le_add_right _ _)).append
          (hstays3.widen (by omega) (le_refl _))), rfl,
        ⟨hagrees2.globals.trans hagrees1.globals, fun k hk =>
          (hagrees2.temps k (lt_of_lt_of_le hk hn)).trans (hagrees1.temps k hk)⟩, ?_⟩
      · show compareValues op x y = _
        rw [hsame x y rfl rfl, hrelated]
        rfl
      · rw [testsAlong_append, testsAlong_append, htests1, htests2, htests3]
    · rw [hnext1] at hstays2 hdivides
      refine .inr ⟨trail1 ++ trail2, m2, rfl,
        hwide1.append (hstays2.widen (Nat.le_add_right _ _) (Nat.le_add_right _ _)),
        hdivides.widen (Nat.le_add_right _ _) (Nat.le_add_right _ _), ?_⟩
      rw [testsAlong_append, htests1, htests2, append_nil]
  · refine .inr ⟨trail1, m1, rfl, hstays1.widen (le_refl _) (by omega),
      hdivides.widen (le_refl _) (by omega), ?_⟩
    rw [htests1, append_nil]

/-- The code behind the operands of a chain: where its decisive outcome falls through, the mark at
which the left operand leaves. -/
def JoinCode (e : Exits) (d : Bool) (decided : Label) (c : List Instr) : Prop :=
  e d = some decided ∧ c = [] ∨ e d = none ∧ c = [.mark decided]

section Chains

variable {c3 : List Instr} {decided middle : Label} {m1 : Machine} {trail : List Nat}

/-- A left operand that has decided leaves the chain without entering the code of the right
operands. -/
lemma Stays.leave_chain (hlink : Linked code index) (hjoin : JoinCode e d decided c3)
    (hat : CodeAt code m.next (c1 ++ .mark middle :: (c2 ++ c3)))
    (h : Stays code index m.next (m.next + c1.length) m trail m1)
    (hnext : m1.next = place index (some decided)) :
    ∃ trail' place, Stays code index m.next
        (m.next + (c1 ++ .mark middle :: (c2 ++ c3)).length) m trail' { m1 with next := place } ∧
      place = exitPlace index (m.next + (c1 ++ .mark middle :: (c2 ++ c3)).length) (e d) ∧
      testsAlong code trail' = testsAlong code trail ∧
      ∀ q ∈ trail', q < m.next + c1.length + 1 ∨ m.next + c1.length + 1 + c2.length ≤ q := by
  have hlen : m.next + (c1 ++ .mark middle :: (c2 ++ c3)).length =
      m.next + c1.length + 1 + c2.length + c3.length := by
    simp only [length_append, length_cons]
    omega
  rw [hlen]
  have hwide := h.widen (le_refl _) (by omega : _ ≤ m.next + c1.length + 1 + c2.length + c3.length)
  have havoids : ∀ q ∈ trail, q < m.next + c1.length + 1 ∨ m.next + c1.length + 1 + c2.length ≤ q :=
    fun q hq => .inl (Nat.lt_succ_of_lt (h.inside q hq).2)
  rcases hjoin with ⟨hexit, rfl⟩ | ⟨hexit, rfl⟩
  · refine ⟨trail, m1.next, hwide, ?_, rfl, havoids⟩
    rw [hnext, hexit]
    rfl
  · -- the mark stands behind the right operands, and control falls through there
    have hmark : code[m.next + c1.length + 1 + c2.length]? = some (.mark decided) :=
      hat.right.tail.right.head
    have hplace : m1.next = m.next + c1.length + 1 + c2.length := hnext.trans (hlink _ _ hmark)
    have hpast : Stays code index m.next (m.next + c1.length + 1 + c2.length + 1) m1 [m1.next] _ :=
      .single (hplace ▸ hmark) (step_mark decided) (by omega) (by omega)
    refine ⟨trail ++ [m1.next], m1.next + 1, hwide.append hpast, ?_, ?_, ?_⟩
    · rw [hexit, hplace]
      rfl
    · rw [testsAlong_append, testsAlong_single (hplace ▸ hmark)]
      exact append_nil _
    · exact forall_mem_append.mpr ⟨havoids, forall_mem_singleton.mpr (.inr (le_of_eq hplace.symm))⟩

/-- A left operand that has not decided goes to the code of the right operands. -/
lemma Stays.enter_rest (hlink : Linked code index)
    (hat : CodeAt code m.next (c1 ++ .mark middle :: (c2 ++ c3)))
    (h : Stays code index m.next (m.next + c1.length) m trail m1)
    (hnext : m1.next = place index (some middle)) :
    Stays code index m.next (m.next + c1.length + 1) m (trail ++ [m.next + c1.length])
        { m1 with next := m.next + c1.length + 1 } ∧
      testsAlong code (trail ++ [m.next + c1.length]) = testsAlong code trail := by
  have hmark : code[m.next + c1.length]? = some (.mark middle) := hat.right.head
  have hplace : m1.next = m.next + c1.length := hnext.trans (hlink _ _ hmark)
  have hpast : Stays code index m.next (m.next + c1.length + 1) m1 [m1.next]
      { m1 with next := m1.next + 1 } :=
    .single (hplace ▸ hmark) (step_mark middle) (by omega) (by omega)
  rw [hplace] at hpast
  refine ⟨(h.widen (le_refl _) (Nat.le_succ _)).append hpast, ?_⟩
  rw [testsAlong_append, testsAlong_single hmark]
  exact append_nil _

/-- Right operands that leave at an exit of the chain do so behind the code of the chain. -/
lemma Stays.leave_rest (hjoin : JoinCode e d decided c3) (hat : CodeAt code m.next (c2 ++ c3))
    (h : Stays code index m.next (m.next + c2.length) m trail m1)
    (hnext : m1.next = exitPlace index (m.next + c2.length) (e b)) :
    ∃ trail' place, Stays code index m.next (m.next + (c2 ++ c3).length) m (trail ++ trail')
        { m1 with next := place } ∧
      place = exitPlace index (m.next + (c2 ++ c3).length) (e b) ∧ testsAlong code trail' = [] ∧
      ∀ q ∈ trail', m.next + c2.length ≤ q := by
  rcases hjoin with ⟨-, rfl⟩ | ⟨-, rfl⟩
  · rw [append_nil]
    exact ⟨[], m1.next, by rwa [append_nil], hnext, rfl, forall_mem_nil _⟩
  · rw [length_append, ← Nat.add_assoc]
    have hwide := h.widen (le_refl _) (Nat.le_add_right _ [Instr.mark decided].length)
    cases hb : e b with
    | some l =>
      rw [hb] at hnext
      exact ⟨[], m1.next, by rwa [append_nil], hnext, rfl, forall_mem_nil _⟩
    | none =>
      rw [hb] at hnext
      have hplace : m1.next = m.next + c2.length := hnext
      have hmark := hat.right.head
      have hpast : Stays code index m.next (m.next + c2.length + [Instr.mark decided].length)
          m1 [m1.next] _ :=
        .single (hplace ▸ hmark) (step_mark decided) (by omega)
        (by rw [hplace]; exact Nat.lt_succ_self _)
      refine ⟨[m1.next], m1.next + 1, hwide.append hpast, ?_, ?_, ?_⟩
      · rw [hplace]
        rfl
      · rw [testsAlong_single (hplace ▸ hmark)]
        rfl
      · exact forall_mem_singleton.mpr (le_of_eq hplace.symm)

/-- A chain executes the tests in its left operand, and then those in the right ones unless the left
one has decided. -/
lemma tested_chain (hlink : Linked code index) {left right tests1 tests2}
    (hjoin : JoinCode e d decided c3) (hat : CodeAt code m.next (c1 ++ .mark middle :: (c2 ++ c3)))
    (hn : n ≤ n') (hleft : Tested code index n m c1 (decidingExits d decided middle) left tests1)
    (hrest : ∀ m2 : Machine, m2.next = m.next + c1.length + 1 → m2.store = m.store →
      Tested code index n' m2 c2 e right tests2) :
    (left = .error .divisionByZero ∧
      Tested code index n m (c1 ++ .mark middle :: (c2 ++ c3)) e (.error .divisionByZero) tests1) ∨
    (left = .ok (.bool d) ∧ Tested code index n m (c1 ++ .mark middle :: (c2 ++ c3)) e
      (.ok (.bool d)) tests1) ∨
    ∃ b, b ≠ d ∧ left = .ok (.bool b) ∧
      Tested code index n m (c1 ++ .mark middle :: (c2 ++ c3)) e right (tests1 ++ tests2) := by
  have hlen : m.next + (c1 ++ .mark middle :: (c2 ++ c3)).length = m.next + c1.length + 1 +
      (c2 ++ c3).length := by
    simp only [length_append, length_cons]
    omega
  rcases hleft with ⟨b, trail, m1, rfl, hstays, hnext, hagrees, htests⟩ | ⟨trail, m1, rfl, hstays,
    hdivides, htests⟩
  · by_cases hb : b = d
    · subst hb
      rw [decidingExits, if_pos rfl] at hnext
      obtain ⟨trail', place, hstays', hplace, htests', -⟩ :=
        hstays.leave_chain hlink hjoin hat hnext
      exact .inr (.inl ⟨rfl, .inl ⟨b, trail', _, rfl, hstays', hplace,
        ⟨hagrees.globals, hagrees.temps⟩, htests'.trans htests⟩⟩)
    · rw [decidingExits, if_neg hb] at hnext
      obtain ⟨henter, htests'⟩ := hstays.enter_rest hlink hat hnext
      refine .inr (.inr ⟨b, hb, rfl, ?_⟩)
      unfold Tested
      rw [hlen]
      have hat2 : CodeAt code (m.next + c1.length + 1) (c2 ++ c3) := hat.right.tail
      have hwide := henter.widen (le_refl _) (Nat.le_add_right _ (c2 ++ c3).length)
      have hfrom : m.next ≤ m.next + c1.length + 1 := by omega
      rcases hrest { m1 with next := m.next + c1.length + 1 } rfl hagrees.store_eq with
        ⟨b', trail2, m3, rfl, hstays2, hnext2, hagrees2, htests2⟩ | ⟨trail2, m3, rfl, hstays2,
          hdivides, htests2⟩
      · obtain ⟨trail3, place, hstays3, hplace, htests3, -⟩ := hstays2.leave_rest hjoin hat2 hnext2
        refine .inl ⟨b', _, _, rfl, hwide.append (hstays3.widen hfrom (le_refl _)), hplace,
          ⟨hagrees2.globals.trans hagrees.globals, fun k hk =>
            (hagrees2.temps k (lt_of_lt_of_le hk hn)).trans (hagrees.temps k hk)⟩, ?_⟩
        rw [testsAlong_append, htests', htests, testsAlong_append, htests2, htests3, append_nil]
      · have hle : m.next + c1.length + 1 + c2.length ≤ m.next + c1.length + 1 +
            (c2 ++ c3).length := by
          rw [length_append]
          omega
        refine .inr ⟨_, m3, rfl, hwide.append (hstays2.widen hfrom hle),
          hdivides.widen hfrom hle, ?_⟩
        rw [testsAlong_append, htests', htests, htests2]
  · refine .inl ⟨rfl, .inr ⟨trail, m1, rfl, hstays.widen (le_refl _) ?_,
      hdivides.widen (le_refl _) ?_, htests⟩⟩
    · rw [length_append]
      omega
    · rw [length_append]
      omega

lemma JoinCode.op_eq_mark (h : JoinCode e d decided c3) : ∀ i ∈ c3, i.op = .mark := by
  rcases h with ⟨-, rfl⟩ | ⟨-, rfl⟩
  · exact forall_mem_nil _
  · exact forall_mem_singleton.mpr rfl

lemma JoinCode.isTest_eq_false (h : JoinCode e d decided c3) : ∀ i ∈ c3, i.isTest = false :=
  fun i hi => Instr.isTest_eq_false (by rw [h.op_eq_mark i hi]; rfl)

end Chains

/-- A condition that is tested for its truth value. -/
lemma Tested.truth {value} (h : Tested code index n m c e value tests) :
    Tested code index n m c e (value >>= fun v => v.truth >>= fun b => .ok (.bool b)) tests := by
  rcases h with ⟨b, trail, m', rfl, hrest⟩ | ⟨trail, m', rfl, hrest⟩
  · exact .inl ⟨b, trail, m', rfl, hrest⟩
  · exact .inr ⟨trail, m', rfl, hrest⟩

/-- A chain executes the tests of the atoms that are evaluated if its left operand and the rest do.
-/
lemma tested_logic (hlink : Linked code index) {c3 decided middle more}
    (hop : decisive? op = some d) (hjoin : JoinCode e d decided c3)
    (hat : CodeAt code m.next (c1 ++ .mark middle :: (c2 ++ c3))) (hn : n ≤ n')
    (hcount : left.atomCount Γ = (testPlaces m.next c1).length)
    (hleft : ∀ more, Tested code index n m c1 (decidingExits d decided middle)
      (eval Γ m.store left) (evaluated Γ m.store left (testPlaces m.next c1 ++ more)))
    (hrest : ∀ m2 : Machine, m2.next = m.next + c1.length + 1 →
      Tested code index n' m2 c2 e (evalLogic Γ m2.store ops rest)
      (evaluatedLogic Γ m2.store ops rest (testPlaces m2.next c2 ++ more))) :
    Tested code index n m (c1 ++ .mark middle :: (c2 ++ c3)) e
      (evalLogic Γ m.store (op :: ops) (left :: rest))
        (evaluatedLogic Γ m.store (op :: ops) (left :: rest)
          (testPlaces m.next (c1 ++ .mark middle :: (c2 ++ c3)) ++ more)) := by
  rw [testPlaces_append, testPlaces_cons rfl, testPlaces_append,
    testPlaces_eq_nil hjoin.isTest_eq_false, append_nil, append_assoc]
  have hrest' : ∀ m2 : Machine, m2.next = m.next + c1.length + 1 → m2.store = m.store →
        Tested code index n' m2 c2 e (evalLogic Γ m.store ops rest >>= fun v =>
          v.truth >>= fun b => .ok (.bool b))
        (evaluatedLogic Γ m.store ops rest (testPlaces (m.next + c1.length + 1) c2 ++ more)) := by
    intro m2 hnext hstore
    rw [← hstore, ← hnext]
    exact (hrest m2 hnext).truth
  rcases tested_chain hlink hjoin hat hn (hleft _) hrest' with ⟨hval, h⟩ | ⟨hval,
    h⟩ | ⟨b, hb, hval, h⟩
  · rw [evalLogic_cons_error hval, evaluatedLogic_cons_error hval]
    exact h
  · rw [evalLogic_cons hop hval, evaluatedLogic_cons hop hval, if_pos rfl, if_pos rfl, append_nil]
    exact h
  · rw [evalLogic_cons hop hval, evaluatedLogic_cons hop hval, if_neg hb, if_neg hb,
      hcount, drop_left]
    exact h

/-- A condition has as many atoms as its code has tests. -/
lemma ConditionCode.atomCount_eq {n n'} (h : ConditionCode Γ t e n c n') (hexit : ∃ b, e b ≠ none)
    (p : Nat) :
    t.atomCount Γ = (testPlaces p c).length :=
  (h.testedBy hexit (codeAt_isolated p c)).length_eq

mutual

/-- The code of a condition executes the tests of the atoms that are evaluated, in the order of
evaluation, and leaves at the exit for the truth value. -/
lemma ConditionCode.tested (hlink : Linked code index) {t : Tree} {e : Exits}
    {n : Names} {c : List Instr} {n' : Names} {m : Machine} (h : ConditionCode Γ t e n c n')
    (hexit : ∃ b, e b ≠ none) (hat : CodeAt code m.next c) (more : List Nat) :
    Tested code index n.temps m c e (eval Γ m.store t)
    (evaluated Γ m.store t (testPlaces m.next c ++ more)) := by
  match h with
  | .wrapper htransparent hinner =>
    rw [eval_of_isTransparent htransparent, evaluated_of_isTransparent htransparent]
    exact hinner.tested hlink hexit hat more
  | .literal b =>
    obtain ⟨m', harr⟩ : ∃ m', Arrives (isolated m.next (jumpCode (e b))) index n.temps m _ m' :=
      arrives_jumpCode (codeAt_isolated _ _)
    obtain ⟨trail, hstays⟩ := harr.reaches.stays hat
    refine .inl ⟨b, trail, m', ?_, hstays, harr.next, harr.agrees,
      testsAlong_eq_nil hat (isTest_jumpCode _) hstays.inside⟩
    cases b <;> rfl
  | .variable hx =>
    obtain ⟨b, hrelated, hcompare⟩ :=
      compare_of_relationOpcode (rfl : relationOpcode? .equal = some .eq) (m.store _) 1
    obtain ⟨trail, hstays, htests⟩ := stays_branchCode hexit hat rfl rfl hcompare
    refine .inl ⟨b, trail, _, ?_, hstays, rfl, ⟨rfl, fun _ _ => rfl⟩, ?_⟩
    · rw [eval, variableValue, hx]
      exact congrArg (Except.ok ∘ Value.bool) (Except.ok.inj hrelated)
    · rw [htests, evaluated, if_pos hx, testPlaces_branchCode hexit]
      rfl
  | .negation hops hinner =>
    rw [eval]
    rcases hinner.tested hlink (exists_exit_negation hexit) hat more with
      ⟨b, trail, m', hval, hstays, hnext, hagrees, htests⟩ | ⟨trail, m', hval, hrest⟩
    · rw [hval]
      exact .inl ⟨_, trail, m', applyBangs_of_bangParity hops b, hstays, hnext, hagrees, htests⟩
    · rw [hval]
      exact .inr ⟨trail, m', rfl, hrest⟩
  | .numbers hop hleft hright =>
    obtain ⟨hl, hle⟩ := hleft.value_within
    have hcomparison := tested_comparison hop hexit hle (fun _ _ hagrees => hagrees.read_eq hl) hat
      (hleft.gives index hat.left.left)
      (fun m1 hnext hstore => hstore ▸ hright.gives index (hat.left.right.at_place hnext))
      fun x y hx hy => by
        obtain ⟨x, rfl⟩ := hleft.num_of_eval hx
        obtain ⟨y, rfl⟩ := hright.num_of_eval hy
        rfl
    rw [eval_comparison, evaluated, hleft.evaluated_eq, hright.evaluated_eq,
      Tree.atomCount, Tree.atomCount,
      hleft.atoms_eq, hright.atoms_eq, testPlaces_append, testPlaces_append,
      testPlaces_eq_nil hleft.isTest_eq_false, testPlaces_eq_nil hright.isTest_eq_false,
      testPlaces_branchCode hexit, length_append, ← Nat.add_assoc]
    exact hcomparison
  | .booleans hop hleft hright =>
    have hboth : ∀ k, ∃ b, valueExits k b ≠ none := fun k => ⟨true, nofun⟩
    have hle := hleft.complete.le.temps
    have hcomparison := fun more1 more2 => tested_comparison hop hexit (Nat.le_of_succ_le hle)
      (fun _ _ hagrees => hagrees.read_eq (.temp (Nat.zero_le _) hle)) hat
      ((hleft.tested hlink (hboth _) hat.left.left.left more1).materialized hlink hat.left.left)
      (fun m1 hnext hstore => hnext ▸ hstore ▸ (hright.tested hlink (hboth _)
        (hat.left.right.left.at_place hnext) more2).materialized hlink
        (hat.left.right.at_place hnext))
      fun x y hx hy => by
        obtain ⟨x, rfl⟩ := (hleft.tested hlink (hboth _) hat.left.left.left []).bool_of_eq hx
        obtain ⟨y, rfl⟩ := (hright.tested hlink (hboth _) (m := { m with next := _ })
          hat.left.right.left []).bool_of_eq hy
        rfl
    rw [testPlaces_booleans hexit, append_assoc (testPlaces _ _), append_assoc (testPlaces _ _),
      eval_comparison, evaluated, ← drop_drop, hleft.atomCount_eq (hboth _) m.next, drop_left,
      hright.atomCount_eq (hboth _), drop_left]
    exact hcomparison _ _
  | .logic hchain => exact hchain.tested hlink hexit hat more

/-- The code of a chain of conditions executes the tests of the atoms that are evaluated, in the
order of evaluation, and leaves at the exit for the truth value. -/
lemma LogicCode.tested (hlink : Linked code index) {ops operands e n c n' m}
    (h : LogicCode Γ ops operands e n c n') (hexit : ∃ b, e b ≠ none) (hat : CodeAt code m.next c)
    (more : List Nat) :
    Tested code index n.temps m c e (evalLogic Γ m.store ops operands)
      (evaluatedLogic Γ m.store ops operands (testPlaces m.next c ++ more)) := by
  match h with
  | .last hlast => exact hlast.tested hlink hexit hat more
  | @LogicCode.leaving _ _ d _ _ _ _ _ _ _ _ _ _ hop hexit' hleft hrest =>
    have h := tested_logic hlink hop (.inl ⟨hexit', rfl⟩) (by rwa [append_nil])
      hleft.complete.le.temps (hleft.atomCount_eq ⟨d, nofun⟩ _)
      (hleft.tested hlink ⟨d, nofun⟩ hat.left)
      fun m2 hnext => hrest.tested hlink hexit (hat.right.tail.at_place hnext) more
    rwa [append_nil] at h
  | @LogicCode.skipping _ _ d _ _ _ _ _ _ _ _ _ hop hexit' hleft hrest =>
    exact tested_logic hlink hop (.inr ⟨hexit', rfl⟩) hat hleft.complete.le.temps
      (hleft.atomCount_eq ⟨d, nofun⟩ _) (hleft.tested hlink ⟨d, nofun⟩ hat.left)
      fun m2 hnext => hrest.tested hlink hexit (hat.right.tail.left.at_place hnext) more

end

/-- The code of a condition decides it. -/
lemma ConditionCode.decides (hlink : Linked code index) {n n'} (h : ConditionCode Γ t e n c n')
    (hexit : ∃ b, e b ≠ none) (hat : CodeAt code m.next c) :
    Decides code index n.temps m (fun b => exitPlace index (m.next + c.length) (e b))
    (eval Γ m.store t) := by
  rcases h.tested hlink hexit hat [] with ⟨b, trail, m', hval, hstays, hnext, hagrees, -⟩ |
    ⟨trail, m', hval, hstays, ⟨-, -, i, hi, hfault⟩, -⟩
  · exact .inl ⟨b, m', hval, ⟨_, hstays.path.path⟩, hnext, hagrees⟩
  · exact .inr ⟨hval, m', i, ⟨_, hstays.path.path⟩, hi, hfault⟩

end Executed

end ThreeAddress
