import ThreeAddress.Proofs.Lowering.Conditions

/-!
# The code of statements does what they mean

A machine that reaches the code of a statement which ends, by the semantics of trees, gets to the
end of the code with the store in which the statement ends, or to a division by zero. Each rule of
the semantics has a lemma that says so for the statement from what holds of its parts (`Realized`),
and `Exec.realized` puts them together by induction on the derivation that the statement ends.
-/

namespace ThreeAddress

open List Lowering Machine

variable {r : Ending} {value : Except Trouble Value} {w : Int64} {l : Label} {c code : List Instr}
  {labels : List Label} {clauses ts : List Tree} {m : Machine} {n n' : Nat} {v : Operand}
  {d d' : Option Label} {σ : Store} {body condition scrutinee t thenBody : Tree}
  {index : LabelIndex} {settings : Settings} {Γ : Scope}

/-! ## Endings -/

/-- The machine gets to a place with a store, or to a division by zero. -/
def Ends (code : List Instr) (index : LabelIndex) (m : Machine) (place : Nat) : Ending → Prop
  | .done σ => ∃ m', Reaches code index m m' ∧ m'.next = place ∧ m'.store = σ
  | .divisionByZero => Fails code index m

section Endings

variable {m1 : Machine} {place : Nat}

/-- An ending ahead is an ending. -/
lemma Ends.of_reaches (h2 : Ends code index m1 place r) (h1 : Reaches code index m m1) :
    Ends code index m place r := by
  cases r with
  | done σ =>
    obtain ⟨m', hreaches, hnext, hstore⟩ := h2
    exact ⟨m', h1.trans hreaches, hnext, hstore⟩
  | divisionByZero => exact Fails.of_reaches h2 h1

/-- An ending at a place from which the machine goes on to another. -/
lemma Ends.extend {place'} (h : Ends code index m place r)
    (hmove : ∀ m' : Machine, m'.next = place → Reaches code index m' { m' with next := place' }) :
    Ends code index m place' r := by
  cases r with
  | done σ =>
    obtain ⟨m', hreaches, hnext, hstore⟩ := h
    exact ⟨_, hreaches.trans (hmove m' hnext), rfl, hstore⟩
  | divisionByZero => exact h

lemma reaches_past_mark (hmark : code[place]? = some (.mark l)) (m : Machine)
    (hnext : m.next = place) : Reaches code index m { m with next := place + 1 } := by
  subst hnext
  exact .of_step hmark (step_mark l)

/-- A mark at the end of some code is passed. -/
lemma Ends.past_mark (h : Ends code index m (place + c.length) r)
    (hat : CodeAt code place (c ++ [.mark l])) :
    Ends code index m (place + (c ++ [Instr.mark l]).length) r := by
  rw [length_append, ← Nat.add_assoc]
  exact h.extend (reaches_past_mark hat.right.head)

/-- A jump to a marked label goes to its mark. -/
lemma reaches_jump (hlink : Linked code index) {place'} (hjump : code[place]? = some (.jump l))
    (hmark : code[place']? = some (.mark l)) (m : Machine) (hnext : m.next = place) :
    Reaches code index m { m with next := place' } := by
  subst hnext
  refine .of_step hjump ?_
  rw [step_jump, hlink _ _ hmark]

/-- The machine goes where a condition with a known truth value sends it. -/
lemma Decides.arrives {places b} (h : Decides code index n m places value)
    (hval : value = .ok (.bool b)) :
    ∃ m', Arrives code index n m (places b) m' := by
  rcases h with ⟨b', m', hval', harr⟩ | ⟨hval', -⟩
  · rw [hval'] at hval
    cases hval
    exact ⟨m', harr⟩
  · rw [hval'] at hval
    cases hval

/-- A condition that divides by zero makes the machine fail. -/
lemma Decides.fails {places} (h : Decides code index n m places value)
    (hval : value = .error .divisionByZero) :
    Fails code index m := by
  rcases h with ⟨b', m', hval', -⟩ | ⟨-, hfails⟩
  · rw [hval'] at hval
    cases hval
  · exact hfails

/-- The machine computes the known value of a numeric expression. -/
lemma Computes.arrives {u} (h : Computes code index n m place v value) (hval : value = .ok u) :
    ∃ w m', u = .num w ∧ Arrives code index n m place m' ∧ m'.read (some v) = .ok w := by
  rcases h with ⟨w, m', hval', harr, hread⟩ | ⟨hval', -⟩
  · rw [hval'] at hval
    exact ⟨w, m', (Except.ok.inj hval).symm, harr, hread⟩
  · rw [hval'] at hval
    cases hval

/-- A numeric expression that divides by zero makes the machine fail. -/
lemma Computes.fails (h : Computes code index n m place v value)
    (hval : value = .error .divisionByZero) :
    Fails code index m := by
  rcases h with ⟨w, m', hval', -⟩ | ⟨-, hfails⟩
  · rw [hval'] at hval
    cases hval
  · exact hfails

lemma Store.set_eq_self {x} (h : σ x = w) : σ.set x w = σ := by
  funext y
  simp only [Store.set]
  split
  · rename_i hy
    rw [hy, h]
  · rfl

/-- Writing a variable changes the store at that variable. -/
lemma store_insert (m : Machine) (x : String) (w : Int64) (next : Nat) :
    store { m with next, globals := m.globals.insert x w } = m.store.set x w := by
  funext y
  simp only [store, storeOf, Store.set, Std.TreeMap.getElem?_insert]
  by_cases hxy : y = x
  · simp [hxy]
  · simp [hxy, Ne.symm hxy]

end Endings

/-! ## Clauses -/

/-- The code of the scrutinee of a `switch` computes its value. -/
lemma ScrutineeCode.computes (index : LabelIndex) (h : ScrutineeCode Γ t n v c n')
    (hat : CodeAt code m.next c) :
    Computes code index n m (m.next + c.length) v (eval Γ m.store t) := by
  cases h with
  | computed hval => exact hval.computes index hat
  | copied hval _ =>
    rcases hval.computes index hat.left with ⟨w, m1, hw, harr, hread⟩ | ⟨hw, hfails⟩
    · have hi := hat.right.head
      rw [← harr.next] at hi
      obtain ⟨m2, harr2, hread2⟩ :=
        Arrives.of_compute hi rfl nofun (readAll_one hread) rfl rfl hval.value_within.2
      refine .inl ⟨w, m2, hw, ?_, hread2⟩
      rw [length_append, ← Nat.add_assoc, ← harr.next]
      exact harr.trans harr2 (le_refl n)
    · exact .inr ⟨hw, hfails⟩

/-- The tests of a `switch` go to the label of the first clause for the value of the scrutinee, or
fall through if there is none. -/
lemma DispatchCode.arrives (index : LabelIndex) {k} (h : DispatchCode v d clauses n c labels d' n')
    (hat : CodeAt code m.next c) (hread : m.read (some v) = .ok w) :
    (∃ clause l m', clauses.find? (fun t => t.caseValue? = some w) = some clause ∧
      (clause, l) ∈ clauses.zip labels ∧ Arrives code index k m (place index (some l)) m') ∨
      clauses.find? (fun t => t.caseValue? = some w) = none ∧
        ∃ m', Arrives code index k m (m.next + c.length) m' := by
  induction h generalizing m with
  | done => exact .inr ⟨rfl, m, .refl⟩
  | @case d token value ops literalToken text literalOps literalChildren body clauses n w'
      c labels d' n' hw hrest ih =>
    have hval : (Tree.node .caseClause token value ops
        (.node .intLiteral literalToken text literalOps literalChildren :: body)).caseValue? =
        some w' := by
      simp [Tree.caseValue?, hw, Except.toOption]
    have hstep : m.step index (.jumpIf .eq v (.const w') (labelOf n)) =
        .ok { m with next := if w == w' then place index (some (labelOf n)) else m.next + 1 } :=
      step_jumpIf hread rfl rfl
    have htest : Arrives code index k m _ _ := .of_step hat.head hstep
    by_cases hww : w = w'
    · rw [if_pos (beq_iff_eq.mpr hww)] at htest
      exact .inl ⟨_, labelOf n, _, find?_cons_of_pos (by simp [hval, hww]), mem_cons_self, htest⟩
    · have hne : ¬ w' = w := fun h => hww h.symm
      rw [if_neg (mt beq_iff_eq.mp hww)] at htest
      rcases ih (m := { m with next := m.next + 1 }) hat.tail hread with
        ⟨clause, l, m', hfind, hmem, harr⟩ | ⟨hfind, m', harr⟩
      · refine .inl ⟨clause, l, m', by simp [hval, hne, hfind], ?_, ?_⟩
        · exact mem_cons_of_mem _ hmem
        · exact htest.trans harr (le_refl k)
      · refine .inr ⟨by simp [hval, hne, hfind], m', ?_⟩
        rw [length_cons, Nat.add_comm _ 1, ← Nat.add_assoc]
        exact htest.trans harr (le_refl k)
  | @default token value ops body clauses n c labels d' n' hrest ih =>
    have hval : (Tree.node .defaultClause token value ops body).caseValue? = none := rfl
    rcases ih hat hread with ⟨clause, l, m', hfind, hmem, harr⟩ | ⟨hfind, m', harr⟩
    · refine .inl ⟨clause, l, m', by simp [hval, hfind], ?_, harr⟩
      exact mem_cons_of_mem _ hmem
    · exact .inr ⟨by simp [hval, hfind], m', harr⟩

/-- Once a default clause is remembered there is no other. -/
lemma DispatchCode.no_second_default (h : DispatchCode v d clauses n c labels d' n')
    (hd : d.isSome = true) : clauses.find? Tree.isDefaultClause = none ∧ d' = d := by
  induction h with
  | done => exact ⟨rfl, rfl⟩
  | case _ _ ih => exact ⟨(find?_cons_of_neg Bool.false_ne_true).trans (ih hd).1, (ih hd).2⟩
  | default => cases hd

/-- The label that is remembered for the default clause of a `switch` is that of its only default
clause.
-/
lemma DispatchCode.default_eq (h : DispatchCode v d clauses n c labels d' n') (hd : d = none) :
    (∃ clause l, clauses.find? Tree.isDefaultClause = some clause ∧
      (clause, l) ∈ clauses.zip labels ∧
      d' = some l) ∨ clauses.find? Tree.isDefaultClause = none ∧ d' = none := by
  induction h with
  | done => exact .inr ⟨rfl, hd⟩
  | case _ _ ih =>
    rcases ih hd with ⟨clause, l, hfind, hmem, hl⟩ | ⟨hfind, hl⟩
    · exact .inl ⟨clause, l, (find?_cons_of_neg Bool.false_ne_true).trans hfind,
        mem_cons_of_mem _ hmem, hl⟩
    · exact .inr ⟨(find?_cons_of_neg Bool.false_ne_true).trans hfind, hl⟩
  | default hrest =>
    obtain ⟨-, hl⟩ := hrest.no_second_default rfl
    exact .inl ⟨_, _, find?_cons_of_pos rfl, mem_cons_self, hl⟩

/-- A `switch` goes to the label of the clause it selects, or to its end if it selects none. -/
lemma selection_arrives {n1 l1 n2 c1 c2 done} (hscrut : ScrutineeCode Γ scrutinee n v c1 n1)
    (hdisp : DispatchCode v none clauses l1 c2 labels d n2)
    (hat : CodeAt code m.next (c1 ++ c2 ++ [.jump (d.getD done)]))
    (hw : eval Γ m.store scrutinee = .ok (.num w)) :
    (∃ clause l m', (clause, l) ∈ clauses.zip labels ∧
      selected w clauses = clause.clauseStatements ∧
      Arrives code index n m (place index (some l)) m') ∨
      selected w clauses = [] ∧ ∃ m', Arrives code index n m (place index (some done)) m' := by
  obtain ⟨w', m1, hval, harr1, hread⟩ := (hscrut.computes index hat.left.left).arrives hw
  obtain rfl := Value.num.inj hval
  have hat1 := hat.left.right
  rw [← harr1.next] at hat1
  rcases hdisp.arrives index hat1 hread with
    ⟨clause, l, m2, hfind, hmem, harr2⟩ | ⟨hfind, m2, harr2⟩
  · exact .inl ⟨clause, l, m2, hmem, by simp [selected, hfind], harr1.trans harr2 (le_refl n)⟩
  · have hjump := hat.right.head
    rw [length_append, ← Nat.add_assoc, ← harr1.next, ← harr2.next] at hjump
    have harr : Arrives code index n m _ _ :=
      (harr1.trans harr2 (le_refl n)).trans (.of_step hjump (step_jump _)) (le_refl n)
    rcases hdisp.default_eq rfl with ⟨clause, l, hdefault, hmem, rfl⟩ | ⟨hdefault, rfl⟩
    · exact .inl ⟨clause, l, _, hmem, by simp [selected, hfind, hdefault], harr⟩
    · exact .inr ⟨by simp [selected, hfind, hdefault], _, harr⟩

/-- The statements of a clause, by the kind of its node. -/
lemma clauseStatements_node (kind : NodeKind) (token : Token) (value : String)
    (ops : List TokenKind) (children : List Tree) :
    (Tree.node kind token value ops children).clauseStatements = clauseBody kind children := by
  cases kind with
  | caseClause => cases children <;> rfl
  | _ => rfl

/-- The clauses of a `switch` contain the code of every clause behind the mark of its label, and
from there control goes to the end of the clauses. -/
lemma ClausesCode.enter (hlink : Linked code index) {done l labels clauses clause n c n' p}
    (h : ClausesCode settings Γ done labels clauses n c n') (hat : CodeAt code p c)
    (hend : code[p + c.length]? = some (.mark done)) (hmem : (clause, l) ∈ clauses.zip labels) :
    ∃ q n1 c1 n2, StatementsCode settings Γ clause.clauseStatements n1 c1 n2 ∧
      code[q]? = some (.mark l) ∧ CodeAt code (q + 1) c1 ∧
        ∀ m : Machine, m.next = q + 1 + c1.length →
        Reaches code index m { m with next := p + c.length } := by
  match h with
  | .nil => cases hmem
  | @ClausesCode.cons _ _ _ l' _ kind token value ops children clauses _ c1 _ c2 _ hbody hrest =>
    have hat' : CodeAt code (p + 1) (c1 ++ (leaveCode done clauses ++ c2)) := by
      rw [← append_assoc]
      exact hat.tail
    have hlen : p + (.mark l' :: (c1 ++ leaveCode done clauses ++ c2) : List Instr).length =
        p + 1 + c1.length + (leaveCode done clauses ++ c2).length := by
      simp only [length_cons, length_append]
      omega
    rw [hlen] at hend ⊢
    rw [zip_cons_cons, mem_cons] at hmem
    rcases hmem with hmem | hmem
    · obtain ⟨rfl, rfl⟩ := Prod.mk.inj hmem
      refine ⟨p, _, c1, _, clauseStatements_node kind token value ops children ▸ hbody,
        hat.head, hat'.left, ?_⟩
      -- control jumps to the end of the clauses if others follow, and falls through to it if none
      -- does
      intro m hnext
      cases hrest with
      | nil =>
        rw [← hnext]
        exact .refl
      | cons => exact reaches_jump hlink hat'.right.left.head hend m hnext
    · rw [length_append, ← Nat.add_assoc] at hend ⊢
      exact hrest.enter hlink hat'.right.right hend hmem

/-! ## Single statements -/

/-- The code of a program or of a block is that of its statements. -/
lemma StatementCode.children {kind token value ops children n c n'}
    (h : StatementCode settings Γ (.node kind token value ops children) n c n')
    (hkind : kind = .program ∨ kind = .block) : StatementsCode settings Γ children n c n' := by
  rcases hkind with rfl | rfl <;>
  · cases h
    assumption

/-- A condition that falls through if it holds and leaves to a mark if it does not. -/
lemma ConditionCode.branches (hlink : Linked code index) {n n' place}
    (h : ConditionCode Γ t (exits none (some l)) n c n') (hat : CodeAt code m.next c)
    (hmark : code[place]? = some (.mark l)) :
    Decides code index n.temps m (fun b => if b then m.next + c.length else place + 1)
    (eval Γ m.store t) := by
  rcases h.decides hlink ⟨false, nofun⟩ hat with ⟨b, m1, hval, harr⟩ | ⟨hval, hfails⟩
  · cases b with
    | true => exact .inl ⟨true, m1, hval, harr⟩
    | false =>
      obtain ⟨m2, harr2⟩ := Arrives.past_mark hlink harr hmark
      exact .inl ⟨false, m2, hval, harr2⟩
  · exact .inr ⟨hval, hfails⟩

/-- An assignment gives its variable the value of its expression, or divides by zero. -/
lemma StatementCode.assigns (hlink : Linked code index) {token value ops name n n'}
    (h : StatementCode settings Γ (.node .assignment token value ops [name, t]) n c n')
    (hat : CodeAt code m.next c) :
    ∃ nameToken x nameOps nameChildren, name = .node .identifier nameToken x nameOps nameChildren ∧
        ((∃ v, eval Γ m.store t = .ok v ∧
          Ends code index m (m.next + c.length) (.done (m.store.set x v.word))) ∨
            eval Γ m.store t = .error .divisionByZero ∧ Fails code index m) := by
  cases h with
  | sequence hkind => simp at hkind
  | boolAssignment hx ht =>
    refine ⟨_, _, _, _, rfl, ?_⟩
    rcases ht.decides hlink ⟨true, nofun⟩ hat.left with ⟨b, m1, hval, harr⟩ | ⟨hval, hfails⟩
    · refine .inl ⟨.bool b, hval, _,
        harr.reaches.trans (reaches_valueCode hlink hat.right harr.next rfl), ?_, ?_⟩
      · simp only [valueCode, length_append, length_cons, length_nil]
        omega
      · rw [store_insert, harr.agrees.store_eq]
    · exact .inr ⟨hval, hfails⟩
  | numAssignment hx ht hcopied =>
    refine ⟨_, _, _, _, rfl, ?_⟩
    rcases ht.computes index hat.left with ⟨w, m1, hval, harr, hread⟩ | ⟨hval, hfails⟩
    · have hcopy := hat.right.head
      rw [← harr.next] at hcopy
      have hop : Opcode.copy ≠ .mark := by decide
      refine .inl ⟨.num w, hval, _, harr.reaches.trans (.of_step hcopy (step_write rfl hop
        (readAll_one hread) rfl rfl)), ?_, ?_⟩
      · simp only [length_append, length_cons, length_nil, ← Nat.add_assoc, ← harr.next]
      · rw [store_insert, harr.agrees.store_eq]
        rfl
    · exact .inr ⟨hval, hfails⟩
  | selfAssignment hx ht =>
    refine ⟨_, _, _, _, rfl, ?_⟩
    rcases ht.computes index hat with ⟨w, m1, hval, harr, hread⟩ | ⟨hval, hfails⟩
    · refine .inl ⟨.num w, hval, m1, harr.reaches, harr.next, ?_⟩
      have hset : m.store.set _ w = m.store :=
        Store.set_eq_self ((congrFun harr.agrees.store_eq.symm _).trans (Except.ok.inj hread))
      exact harr.agrees.store_eq.trans hset.symm
    · exact .inr ⟨hval, hfails⟩

section Layout

variable {n n' : Names} {c1 c2 c3 : List Instr} {l' : Label} {p : Nat}

variable (hlink : Linked code index)
include hlink

/-- The condition of an `if` without `else` leads to the branch or to the end. -/
lemma conditional_decides (hat : CodeAt code m.next (c1 ++ c2 ++ [.mark l]))
    (hcond : ConditionCode Γ condition (exits none (some l)) n c1 n') :
    Decides code index n.temps m
      (fun b => if b then m.next + c1.length else m.next + (c1 ++ c2 ++ [Instr.mark l]).length)
        (eval Γ m.store condition) := by
  rw [length_append, ← Nat.add_assoc]
  exact hcond.branches hlink hat.left.left hat.right.head

/-- The condition of an `if` with `else` leads to one of the branches. -/
lemma alternative_decides
    (hat : CodeAt code m.next (c1 ++ c2 ++ [.jump l', .mark l] ++ c3 ++ [.mark l']))
    (hcond : ConditionCode Γ condition (exits none (some l)) n c1 n') :
    Decides code index n.temps m (fun b => if b then m.next + c1.length
        else m.next + (c1 ++ c2 ++ [Instr.jump l', .mark l]).length)
          (eval Γ m.store condition) := by
  rw [length_append, ← Nat.add_assoc]
  exact hcond.branches hlink hat.left.left.left.left hat.left.left.right.tail.head

/-- Behind the mark of a loop its condition leads to the body or to the end. -/
lemma loop_decides (hat : CodeAt code m.next (.mark l :: (c1 ++ c2 ++ [.jump l, .mark l'])))
    (hcond : ConditionCode Γ condition (exits none (some l')) n c1 n') :
    Decides code index n.temps { m with next := m.next + 1 }
    (fun b => if b then m.next + 1 + c1.length
        else m.next + (Instr.mark l :: (c1 ++ c2 ++ [.jump l, .mark l'])).length)
        (eval Γ m.store condition) := by
  refine (hcond.branches (m := { m with next := m.next + 1 }) hlink hat.tail.left.left
    hat.tail.right.tail.head).congr fun b => ?_
  cases b with
  | true => rfl
  | false =>
    simp only [Bool.false_eq_true, if_false, length_cons, length_append, length_nil]
    omega

/-- Behind its body a loop starts again. -/
lemma loop_returns (hat : CodeAt code p (.mark l :: (c1 ++ c2 ++ [.jump l, .mark l'])))
    (m : Machine) (hnext : m.next = p + 1 + c1.length + c2.length) :
    Reaches code index m { m with next := p } := by
  refine reaches_jump hlink hat.tail.right.head hat.head m ?_
  rw [hnext, length_append, ← Nat.add_assoc]

end Layout

/-! ## Statements that end -/

/-- Whatever the code of a statement is, a machine that gets to it with a store comes to an ending.
-/
def Realized (code : List Instr) (index : LabelIndex) (settings : Settings) (Γ : Scope)
    (t : Tree) (σ : Store) (r : Ending) : Prop :=
  ∀ ⦃n c n'⦄ ⦃m : Machine⦄, StatementCode settings Γ t n c n' → CodeAt code m.next c → m.store = σ →
    Ends code index m (m.next + c.length) r

/-- Whatever the code of several statements is, a machine that gets to it with a store comes to an
ending. -/
def RealizedAll (code : List Instr) (index : LabelIndex) (settings : Settings)
    (Γ : Scope) (ts : List Tree) (σ : Store) (r : Ending) : Prop :=
  ∀ ⦃n c n'⦄ ⦃m : Machine⦄, StatementsCode settings Γ ts n c n' →
    CodeAt code m.next c → m.store = σ →
    Ends code index m (m.next + c.length) r

/-- A statement is realized before others that are. -/
lemma RealizedAll.cons {σ'} (ht : Realized code index settings Γ t σ (.done σ'))
    (hts : RealizedAll code index settings Γ ts σ' r) :
    RealizedAll code index settings Γ (t :: ts) σ r := by
  intro n c n' m hcode hat hσ
  cases hcode with
  | cons hfirst hrest =>
    obtain ⟨m1, hreaches, hnext, hstore⟩ := ht hfirst hat.left hσ
    rw [length_append, ← Nat.add_assoc, ← hnext]
    exact (hts hrest (hnext ▸ hat.right) hstore).of_reaches hreaches

/-- A statement that divides by zero hides those behind it. -/
lemma RealizedAll.fault (ht : Realized code index settings Γ t σ .divisionByZero) :
    RealizedAll code index settings Γ (t :: ts) σ .divisionByZero := by
  intro n c n' m hcode hat hσ
  cases hcode with
  | cons hfirst hrest =>
    have hends := ht hfirst hat.left hσ
    exact hends

section Constructs

variable {token : Token} {value : String} {ops : List TokenKind} {σ' : Store}

/-- A program or a block is realized with its statements. -/
lemma Realized.sequence {kind children} (hkind : kind = .program ∨ kind = .block)
    (h : RealizedAll code index settings Γ children σ r) :
    Realized code index settings Γ (.node kind token value ops children) σ r :=
  fun _ _ _ _ hcode hat hσ => h (hcode.children hkind) hat hσ

/-- A declaration does nothing. -/
lemma Realized.declaration {children} :
    Realized code index settings Γ (.node .declaration token value ops children) σ (.done σ) := by
  intro n c n' m hcode hat hσ
  cases hcode with
  | sequence hkind => simp at hkind
  | declaration => exact ⟨m, .refl, rfl, hσ⟩

/-- The empty statement does nothing. -/
lemma Realized.empty :
    Realized code index settings Γ (.node .statement token value ops []) σ (.done σ) := by
  intro n c n' m hcode hat hσ
  cases hcode with
  | sequence hkind => simp at hkind
  | empty => exact ⟨m, .refl, rfl, hσ⟩

/-- A statement is realized with what it consists of. -/
lemma Realized.inner (ht : Realized code index settings Γ t σ r) :
    Realized code index settings Γ (.node .statement token value ops [t]) σ r := by
  intro n c n' m hcode hat hσ
  cases hcode with
  | sequence hkind => simp at hkind
  | inner hinner => exact ht hinner hat hσ

section

variable (hlink : Linked code index)
include hlink

/-- An assignment sets its variable. -/
lemma Realized.assignment {nameToken x nameOps nameChildren v} (ht : eval Γ σ t = .ok v) :
    Realized code index settings Γ
      (.node .assignment token value ops [.node .identifier nameToken x nameOps nameChildren, t]) σ
        (.done (σ.set x v.word)) := by
  rintro n c n' m hcode hat rfl
  obtain ⟨_, _, _, _, hname, ⟨v, hval, hends⟩ | ⟨hval, -⟩⟩ := hcode.assigns hlink hat
  · cases hname
    rw [hval] at ht
    cases ht
    exact hends
  · rw [hval] at ht
    cases ht

/-- An assignment whose expression divides by zero. -/
lemma Realized.assignmentFault {name} (ht : eval Γ σ t = .error .divisionByZero) :
    Realized code index settings Γ (.node .assignment token value ops [name, t]) σ
    .divisionByZero := by
  rintro n c n' m hcode hat rfl
  obtain ⟨_, _, _, _, -, ⟨v, hval, -⟩ | ⟨-, hfails⟩⟩ := hcode.assigns hlink hat
  · rw [hval] at ht
    cases ht
  · exact hfails

/-- An `if` whose condition holds does what its first branch does. -/
lemma Realized.conditionalThen {rest} (hcond : eval Γ σ condition = .ok (.bool true))
    (hthen : Realized code index settings Γ thenBody σ r) :
    Realized code index settings Γ
    (.node .conditional token value ops (condition :: thenBody :: rest)) σ r := by
  rintro n c n' m hcode hat rfl
  cases hcode with
  | sequence hkind => simp at hkind
  | conditional hrest hc hcthen =>
    obtain ⟨m1, harr⟩ := (conditional_decides hlink hat hc).arrives hcond
    have hends := hthen hcthen (harr.next ▸ hat.left.right) harr.agrees.store_eq
    rw [harr.next, if_pos rfl, Nat.add_assoc, ← length_append] at hends
    exact (hends.past_mark hat).of_reaches harr.reaches
  | alternative hc hcthen hcelse =>
    obtain ⟨m1, harr⟩ := (alternative_decides hlink hat hc).arrives hcond
    have hends := hthen hcthen (harr.next ▸ hat.left.left.left.right) harr.agrees.store_eq
    rw [harr.next, if_pos rfl, Nat.add_assoc, ← length_append] at hends
    have hleaves := hends.extend (reaches_jump hlink hat.left.left.right.head hat.right.head)
    exact (hleaves.past_mark hat).of_reaches harr.reaches

/-- An `if` whose condition does not hold does what its second branch does. -/
lemma Realized.conditionalElse {elseBody} (hcond : eval Γ σ condition = .ok (.bool false))
    (helse : Realized code index settings Γ elseBody σ r) (hpresent : elseBody ≠ .absent) :
    Realized code index settings Γ
    (.node .conditional token value ops [condition, thenBody, elseBody]) σ r := by
  rintro n c n' m hcode hat rfl
  cases hcode with
  | sequence hkind => simp at hkind
  | conditional hrest hc hcthen => simp [hpresent] at hrest
  | alternative hc hcthen hcelse =>
    obtain ⟨m1, harr⟩ := (alternative_decides hlink hat hc).arrives hcond
    have hends := helse hcelse (harr.next ▸ hat.left.right) harr.agrees.store_eq
    rw [harr.next, if_neg Bool.false_ne_true, Nat.add_assoc, ← length_append] at hends
    exact (hends.past_mark hat).of_reaches harr.reaches

/-- An `if` without `else` whose condition does not hold does nothing. -/
lemma Realized.conditionalSkip {rest} (hrest : rest = [] ∨ rest = [.absent])
    (hcond : eval Γ σ condition = .ok (.bool false)) :
    Realized code index settings Γ
      (.node .conditional token value ops (condition :: thenBody :: rest)) σ (.done σ) := by
  rintro n c n' m hcode hat rfl
  cases hcode with
  | sequence hkind => simp at hkind
  | conditional _ hc hcthen =>
    obtain ⟨m1, harr⟩ := (conditional_decides hlink hat hc).arrives hcond
    exact ⟨m1, harr.reaches, harr.next, harr.agrees.store_eq⟩
  | alternative hc hcthen hcelse =>
    rcases hrest with hrest | hrest <;> cases hrest
    cases hcelse

/-- An `if` whose condition divides by zero. -/
lemma Realized.conditionalFault {bodies} (hcond : eval Γ σ condition = .error .divisionByZero) :
    Realized code index settings Γ (.node .conditional token value ops (condition :: bodies)) σ
    .divisionByZero := by
  rintro n c n' m hcode hat rfl
  cases hcode with
  | sequence hkind => simp at hkind
  | conditional hrest hc hcthen => exact (conditional_decides hlink hat hc).fails hcond
  | alternative hc hcthen hcelse => exact (alternative_decides hlink hat hc).fails hcond

/-- A loop whose condition does not hold does nothing. -/
lemma Realized.loopEnd (hcond : eval Γ σ condition = .ok (.bool false)) :
    Realized code index settings Γ (.node .loop token value ops [condition, body]) σ (.done σ) := by
  rintro n c n' m hcode hat rfl
  cases hcode with
  | sequence hkind => simp at hkind
  | loop hc hcbody =>
    obtain ⟨m1, harr⟩ := (loop_decides hlink hat hc).arrives hcond
    exact ⟨m1, (reaches_past_mark hat.head m rfl).trans harr.reaches, harr.next,
      harr.agrees.store_eq⟩

/-- A loop whose condition holds runs its body and starts again. -/
lemma Realized.loopAgain (hcond : eval Γ σ condition = .ok (.bool true))
    (hbody : Realized code index settings Γ body σ (.done σ'))
    (hagain : Realized code index settings Γ (.node .loop token value ops [condition, body]) σ' r) :
    Realized code index settings Γ (.node .loop token value ops [condition, body]) σ r := by
  rintro n c n' m hcode hat rfl
  -- the code of the whole loop is needed once more, for the next round
  have hloop := hcode
  cases hcode with
  | sequence hkind => simp at hkind
  | loop hc hcbody =>
    obtain ⟨m1, harr⟩ := (loop_decides hlink hat hc).arrives hcond
    obtain ⟨m2, hreaches, hnext, hstore⟩ :=
      hbody hcbody (harr.next ▸ hat.tail.left.right) harr.agrees.store_eq
    rw [harr.next] at hnext
    have hends := hagain (m := { m2 with next := m.next }) hloop hat hstore
    have hround := ((reaches_past_mark hat.head m rfl).trans harr.reaches).trans
      (hreaches.trans (loop_returns hlink hat m2 hnext))
    exact hends.of_reaches hround

/-- A loop whose body divides by zero. -/
lemma Realized.loopBodyFault (hcond : eval Γ σ condition = .ok (.bool true))
    (hbody : Realized code index settings Γ body σ .divisionByZero) :
    Realized code index settings Γ (.node .loop token value ops [condition, body]) σ
    .divisionByZero := by
  rintro n c n' m hcode hat rfl
  cases hcode with
  | sequence hkind => simp at hkind
  | loop hc hcbody =>
    obtain ⟨m1, harr⟩ := (loop_decides hlink hat hc).arrives hcond
    have hends := hbody hcbody (harr.next ▸ hat.tail.left.right) harr.agrees.store_eq
    exact Fails.of_reaches hends ((reaches_past_mark hat.head m rfl).trans harr.reaches)

/-- A loop whose condition divides by zero. -/
lemma Realized.loopFault (hcond : eval Γ σ condition = .error .divisionByZero) :
    Realized code index settings Γ (.node .loop token value ops [condition, body]) σ
    .divisionByZero := by
  rintro n c n' m hcode hat rfl
  cases hcode with
  | sequence hkind => simp at hkind
  | loop hc hcbody =>
    exact ((loop_decides hlink hat hc).fails hcond).of_reaches (reaches_past_mark hat.head m rfl)

/-- A `switch` does what the statements it selects do. -/
lemma Realized.selection (hscrut : eval Γ σ scrutinee = .ok (.num w))
    (hclause : RealizedAll code index settings Γ (selected w clauses) σ r)
    (hnone : selected w clauses = [] → r = .done σ) :
    Realized code index settings Γ
    (.node .selection token value ops (scrutinee :: clauses)) σ r := by
  rintro n c n' m hcode hat rfl
  cases hcode with
  | sequence hkind => simp at hkind
  | selection hcscrutinee hdisp hclauses =>
    have hmark := hat.right.head
    have hend := hmark
    rw [length_append, ← Nat.add_assoc] at hend
    rw [length_append, ← Nat.add_assoc]
    rcases selection_arrives hcscrutinee hdisp hat.left.left hscrut with
      ⟨clause, l, m1, hmem, hselected, harr⟩ | ⟨hselected, m1, harr⟩
    · obtain ⟨q, _, c4, _, hbody, hq, hat4, hleaves⟩ :=
        hclauses.enter hlink hat.left.right hend hmem
      have hnext : m1.next = q := harr.next.trans (hlink q l hq)
      rw [hselected] at hclause
      have hends := hclause (m := { m1 with next := q + 1 }) hbody hat4 harr.agrees.store_eq
      have hends' := (hends.extend hleaves).of_reaches
        (harr.reaches.trans (reaches_past_mark hq m1 hnext))
      rw [Nat.add_assoc, ← length_append] at hends'
      exact hends'.extend (reaches_past_mark hmark)
    · rw [hnone hselected]
      exact ⟨_, harr.reaches.trans (reaches_past_mark hmark m1 (harr.next.trans
        (hlink _ _ hmark))), rfl, harr.agrees.store_eq⟩

end

/-- A `switch` whose scrutinee divides by zero. -/
lemma Realized.selectionFault (hscrut : eval Γ σ scrutinee = .error .divisionByZero) :
    Realized code index settings Γ (.node .selection token value ops (scrutinee :: clauses)) σ
    .divisionByZero := by
  rintro n c n' m hcode hat rfl
  cases hcode with
  | sequence hkind => simp at hkind
  | selection hcscrutinee hdisp hclauses =>
    exact (hcscrutinee.computes index hat.left.left.left.left).fails hscrut

end Constructs

lemma Exec.ne_absent (h : Exec Γ t σ r) : t ≠ .absent := by
  rintro rfl
  cases h

lemma ExecAll.eq_done (h : ExecAll Γ ts σ r) (hts : ts = []) : r = .done σ := by
  subst hts
  cases h
  rfl

mutual

/-- A machine at the code of a statement that ends comes to its ending. -/
lemma Exec.realized (hlink : Linked code index) {t σ r} (h : Exec Γ t σ r) :
    Realized code index settings Γ t σ r := by
  match h with
  | .sequence hkind hchildren => exact .sequence hkind (hchildren.realized hlink)
  | .declaration => exact .declaration
  | .empty => exact .empty
  | .inner ht => exact .inner (ht.realized hlink)
  | .assignment ht => exact .assignment hlink ht
  | .assignmentFault ht => exact .assignmentFault hlink ht
  | .conditionalThen hcond hthen => exact .conditionalThen hlink hcond (hthen.realized hlink)
  | .conditionalElse hcond helse =>
    exact .conditionalElse hlink hcond (helse.realized hlink) helse.ne_absent
  | .conditionalSkip hrest hcond => exact .conditionalSkip hlink hrest hcond
  | .conditionalFault hcond => exact .conditionalFault hlink hcond
  | .loopEnd hcond => exact .loopEnd hlink hcond
  | .loopAgain hcond hbody hagain =>
    exact .loopAgain hlink hcond (hbody.realized hlink) (hagain.realized hlink)
  | .loopBodyFault hcond hbody => exact .loopBodyFault hlink hcond (hbody.realized hlink)
  | .loopFault hcond => exact .loopFault hlink hcond
  | .selection hscrut hclause =>
    exact .selection hlink hscrut (hclause.realized hlink) hclause.eq_done
  | .selectionFault hscrut => exact .selectionFault hscrut

/-- A machine at the code of statements that end comes to their ending. -/
lemma ExecAll.realized (hlink : Linked code index) {ts σ r} (h : ExecAll Γ ts σ r) :
    RealizedAll code index settings Γ ts σ r := by
  match h with
  | .nil =>
    intro n c n' m hcode hat hσ
    cases hcode
    exact ⟨m, .refl, rfl, hσ⟩
  | .cons ht hts => exact .cons (ht.realized hlink) (hts.realized hlink)
  | .fault ht => exact .fault (ht.realized hlink)

end

end ThreeAddress
