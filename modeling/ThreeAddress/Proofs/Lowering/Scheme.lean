import ThreeAddress.Proofs.Lowering.Lockstep

/-!
# The translation scheme

The relations of this file say which code a tree is lowered to, one rule for each kind of node: a
rule names the codes of the parts, the numbers of the temporaries and labels that the node mints
itself, and how the codes are put together. Nothing is said about notes and about the counting of
uses.

`NumberCode Γ t n v code n'` is about numeric expressions, which mint temporaries only: starting
with the temporary number `n` the tree `t` becomes `code`, its value is in `v`, and the next free
number is `n'`. `ConditionCode Γ t e n code n'` is about conditions; `e` gives the label at which
control leaves the code for each truth value, or none where control falls through. `StatementCode
settings Γ t n code n'` is about statements.

That lowering follows the scheme is proved in `ThreeAddress.Proofs.Lowering.Follows`; everything
that is said about emitted code is then an induction over these relations.
-/

namespace ThreeAddress

open List Lowering

/-! ## Code of single steps -/

/-- The labels at which control leaves a condition, for each truth value. -/
abbrev Exits := Bool → Option Label

/-- The exits of a condition that goes to one label when it holds and to another when it does not.
-/
def exits (holds fails : Option Label) : Exits := fun b => if b then holds else fails

/-- The exits of a condition whose outcome `d` is decisive: there control goes to `decided`, and to
`middle` otherwise. -/
def decidingExits (d : Bool) (decided middle : Label) : Exits := fun b =>
  some (if b = d then decided else middle)

/-- The outcome of the left operand that decides a chain joined by an operator. -/
def decisive? : TokenKind → Option Bool
  | .orOr => some true
  | .andAnd => some false
  | _ => none

/-- A jump to a label, if there is one. -/
def jumpCode : Option Label → List Instr
  | some l => [.jump l]
  | none => []

/-- Jumps on a comparison to the exits of a condition. -/
def branchCode (op : Opcode) (left right : Operand) (e : Exits) : List Instr :=
  match e true, e false with
  | some t, some f => [.jumpIf op left right t, .jump f]
  | some t, none => [.jumpIf op left right t]
  | none, some f => [.jumpUnless op left right f]
  | none, none => []

/-- What follows a condition that leaves at the labels `k` and `k + 1`: it writes one or zero to a
target and ends at the label `k + 2`. -/
def valueCode (target : Operand) (k : Nat) : List Instr :=
  [.mark (labelOf k), .copy target (.const 1), .jump (labelOf (k + 2)), .mark (labelOf (k + 1)),
    .copy target (.const 0), .mark (labelOf (k + 2))]

/-- The exits of a condition whose truth value is written by `valueCode`. -/
def valueExits (k : Nat) : Exits := exits (some (labelOf k)) (some (labelOf (k + 1)))

/-! ## Expressions -/

mutual

/-- The code of a numeric expression. -/
inductive NumberCode (Γ : Scope) : Tree → Nat → Operand → List Instr → Nat → Prop
  | wrapper {kind token value ops inner n v code n'} (htransparent : isTransparent kind ops = true)
      (hinner : NumberCode Γ inner n v code n') :
      NumberCode Γ (.node kind token value ops [inner]) n v code n'
  | literal {token text ops children w n} (hw : Text.readInt64 text = .ok w) :
      NumberCode Γ (.node .intLiteral token text ops children) n (.const w) [] n
  | variable {token x ops children n} (hx : Γ x = some .num) :
      NumberCode Γ (.node .identifier token x ops children) n (.global x) [] n
  | chain {kind token value ops first rest n acc c₁ n₁ v c₂ n₂}
      (hkind : kind = .sum ∨ kind = .product) (hfirst : NumberCode Γ first n acc c₁ n₁)
      (hrest : ChainCode Γ kind acc ops rest n₁ v c₂ n₂) :
      NumberCode Γ (.node kind token value ops (first :: rest)) n v (c₁ ++ c₂) n₂
  | unsigned {token value ops inner n v code n'} (hops : signParity ops = .ok false)
      (hinner : NumberCode Γ inner n v code n') :
      NumberCode Γ (.node .signed token value ops [inner]) n v code n'
  | negated {token value ops inner n v code n'} (hops : signParity ops = .ok true)
      (hinner : NumberCode Γ inner n v code n') :
      NumberCode Γ (.node .signed token value ops [inner]) n (tempOf n')
        (code ++ [.neg (tempOf n') v]) (n' + 1)

/-- The code of the rest of a chain whose part so far is in `acc`. -/
inductive ChainCode (Γ : Scope) :
    NodeKind → Operand → List TokenKind → List Tree → Nat → Operand → List Instr → Nat → Prop
  | done {kind acc n} : ChainCode Γ kind acc [] [] n acc [] n
  | more {kind acc op opcode ops operand operands n right c₁ n₁ v c₂ n₂}
      (hop : arithOpcode? kind op = some opcode) (hoperand : NumberCode Γ operand n right c₁ n₁)
      (hrest : ChainCode Γ kind (tempOf n₁) ops operands (n₁ + 1) v c₂ n₂) :
      ChainCode Γ kind acc (op :: ops) (operand :: operands) n v
        (c₁ ++ .binary opcode (tempOf n₁) acc right :: c₂) n₂

end

mutual

/-- The code of a condition. -/
inductive ConditionCode (Γ : Scope) : Tree → Exits → Names → List Instr → Names → Prop
  | wrapper {kind token value ops inner e n code n'} (htransparent : isTransparent kind ops = true)
      (hinner : ConditionCode Γ inner e n code n') :
      ConditionCode Γ (.node kind token value ops [inner]) e n code n'
  | literal {token ops children e n} (b : Bool) :
      ConditionCode Γ (.node .boolLiteral token (if b then "true" else "false") ops children) e n
        (jumpCode (e b)) n
  | variable {token x ops children e n} (hx : Γ x = some .bool) :
      ConditionCode Γ (.node .identifier token x ops children) e n
        (branchCode .eq (.global x) (.const 1) e) n
  | negation {token value ops odd inner e n code n'} (hops : bangParity ops = .ok odd)
      (hinner : ConditionCode Γ inner (fun b => e (b != odd)) n code n') :
      ConditionCode Γ (.node .negation token value ops [inner]) e n code n'
  | numbers {token value op opcode left right e n l c₁ n₁ r c₂ n₂}
      (hop : relationOpcode? op = some opcode) (hleft : NumberCode Γ left n.temps l c₁ n₁)
      (hright : NumberCode Γ right n₁ r c₂ n₂) :
      ConditionCode Γ (.node .comparison token value [op] [left, right]) e n
        (c₁ ++ c₂ ++ branchCode opcode l r e) (n.setTemps n₂)
  | booleans {token value op opcode left right e n c₁ n₁ c₂ n₂}
      (hop : relationOpcode? op = some opcode)
      (hleft : ConditionCode Γ left (valueExits n.labels) (n.addTemp.addLabels 3) c₁ n₁)
      (hright : ConditionCode Γ right (valueExits n₁.labels) (n₁.addTemp.addLabels 3) c₂ n₂) :
      ConditionCode Γ (.node .comparison token value [op] [left, right]) e n
        (c₁ ++ valueCode (tempOf n.temps) n.labels ++
          (c₂ ++ valueCode (tempOf n₁.temps) n₁.labels) ++ branchCode opcode (tempOf n.temps)
          (tempOf n₁.temps) e) n₂
  | logic {token value ops children e n code n'} (hchain : LogicCode Γ ops children e n code n') :
      ConditionCode Γ (.node .logic token value ops children) e n code n'

/-- The code of a chain of conditions, which group to the right. -/
inductive LogicCode (Γ : Scope) :
    List TokenKind → List Tree → Exits → Names → List Instr → Names → Prop
  | last {t e n code n'} (hlast : ConditionCode Γ t e n code n') : LogicCode Γ [] [t] e n code n'
  /-- The decisive outcome of the left operand leaves the chain. -/
  | leaving {op d ops left rest e l n c₁ n₁ c₂ n₂} (hop : decisive? op = some d)
      (hexit : e d = some l) (hleft : ConditionCode Γ left (decidingExits d l (labelOf n.labels))
      (n.addLabels 1) c₁ n₁) (hrest : LogicCode Γ ops rest e n₁ c₂ n₂) :
      LogicCode Γ (op :: ops) (left :: rest) e n (c₁ ++ .mark (labelOf n.labels) :: c₂) n₂
  /-- The decisive outcome of the left operand falls through, so it skips the right one. -/
  | skipping {op d ops left rest e n c₁ n₁ c₂ n₂} (hop : decisive? op = some d) (hexit : e d = none)
      (hleft : ConditionCode Γ left (decidingExits d (labelOf (n.labels + 1)) (labelOf n.labels))
        (n.addLabels 2) c₁ n₁)
      (hrest : LogicCode Γ ops rest e n₁ c₂ n₂) :
      LogicCode Γ (op :: ops) (left :: rest) e n
        (c₁ ++ .mark (labelOf n.labels) :: (c₂ ++ [.mark (labelOf (n.labels + 1))])) n₂

end

/-! ## Statements -/

/-- The code of the scrutinee of a `switch`, whose value is always in a temporary. -/
inductive ScrutineeCode (Γ : Scope) : Tree → Nat → Operand → List Instr → Nat → Prop
  | computed {t n name id code n'} (hvalue : NumberCode Γ t n (.temp name id) code n') :
      ScrutineeCode Γ t n (.temp name id) code n'
  | copied {t n v code n'} (hvalue : NumberCode Γ t n v code n')
      (hv : ∀ name id, v ≠ .temp name id) :
      ScrutineeCode Γ t n (tempOf n') (code ++ [.copy (tempOf n') v]) (n' + 1)

/-- The tests of the clauses of a `switch` on `v`: every clause has a label of its own, and the
label of the default clause is remembered. -/
inductive DispatchCode (v : Operand) :
    Option Label → List Tree → Nat → List Instr → List Label → Option Label → Nat → Prop
  | done {d n} : DispatchCode v d [] n [] [] d n
  | case {d token value ops literalToken text literalOps literalChildren body clauses
        n w code labels d' n'}
      (hw : Text.readInt64 text = .ok w)
      (hrest : DispatchCode v d clauses (n + 1) code labels d' n') :
      DispatchCode v d
        (.node .caseClause token value ops
          (.node .intLiteral literalToken text literalOps literalChildren :: body) :: clauses)
        n (.jumpIf .eq v (.const w) (labelOf n) :: code) (labelOf n :: labels) d' n'
  | default {token value ops body clauses n code labels d' n'}
      (hrest : DispatchCode v (some (labelOf n)) clauses (n + 1) code labels d' n') :
      DispatchCode v none (.node .defaultClause token value ops body :: clauses) n code
        (labelOf n :: labels) d' n'

/-- The jump to the end of a `switch` after a clause that others follow. -/
def leaveCode (done : Label) (following : List Tree) : List Instr :=
  if following.isEmpty then [] else [.jump done]

mutual

/-- The code of a statement. -/
inductive StatementCode (settings : Settings) (Γ : Scope) : Tree → Names → List Instr → Names → Prop
  | sequence {kind token value ops children n code n'} (hkind : kind = .program ∨ kind = .block)
      (hchildren : StatementsCode settings Γ children n code n') :
      StatementCode settings Γ (.node kind token value ops children) n code n'
  | declaration {token value ops children n} :
      StatementCode settings Γ (.node .declaration token value ops children) n [] n
  | empty {token value ops n} :
      StatementCode settings Γ (.node .statement token value ops []) n [] n
  | inner {token value ops t n code n'} (ht : StatementCode settings Γ t n code n') :
      StatementCode settings Γ (.node .statement token value ops [t]) n code n'
  | boolAssignment {token value ops nameToken x nameOps nameChildren t n code n'}
      (hx : Γ x = some .bool)
      (ht : ConditionCode Γ t (valueExits n.labels) (n.addLabels 3) code n') :
      StatementCode settings Γ
        (.node .assignment token value ops [.node .identifier nameToken x nameOps nameChildren, t])
        n (code ++ valueCode (.global x) n.labels) n'
  | numAssignment {token value ops nameToken x nameOps nameChildren t n v code n'}
      (hx : Γ x = some .num) (ht : NumberCode Γ t n.temps v code n')
      (hcopied : v ≠ .global x ∨ settings.feature .elideSelfCopies = false) :
      StatementCode settings Γ
        (.node .assignment token value ops [.node .identifier nameToken x nameOps nameChildren, t])
        n (code ++ [.copy (.global x) v]) (n.setTemps n')
  | selfAssignment {token value ops nameToken x nameOps nameChildren t n code n'}
      (hx : Γ x = some .num) (ht : NumberCode Γ t n.temps (.global x) code n')
      (helided : settings.feature .elideSelfCopies = true) :
      StatementCode settings Γ
        (.node .assignment token value ops [.node .identifier nameToken x nameOps nameChildren, t])
        n code (n.setTemps n')
  | conditional {token value ops condition thenBody rest n c₁ n₁ c₂ n₂}
      (hrest : rest = [] ∨ rest = [.absent])
      (hcondition : ConditionCode Γ condition (exits none (some (labelOf n.labels))) (n.addLabels 1)
        c₁ n₁)
      (hthen : StatementCode settings Γ thenBody n₁ c₂ n₂) :
      StatementCode settings Γ (.node .conditional token value ops
        (condition :: thenBody :: rest)) n (c₁ ++ c₂ ++ [.mark (labelOf n.labels)]) n₂
  | alternative {token value ops condition thenBody elseBody n c₁ n₁ c₂ n₂ c₃ n₃}
      (hcondition : ConditionCode Γ condition (exits none (some (labelOf n.labels))) (n.addLabels 2)
        c₁ n₁)
      (hthen : StatementCode settings Γ thenBody n₁ c₂ n₂)
      (helse : StatementCode settings Γ elseBody n₂ c₃ n₃) :
      StatementCode settings Γ (.node .conditional token value ops
        [condition, thenBody, elseBody]) n
          (c₁ ++ c₂ ++ [.jump (labelOf (n.labels + 1)), .mark (labelOf n.labels)] ++ c₃ ++
            [.mark (labelOf (n.labels + 1))]) n₃
  | loop {token value ops condition body n c₁ n₁ c₂ n₂}
      (hcondition : ConditionCode Γ condition (exits none (some (labelOf (n.labels + 1))))
        (n.addLabels 2) c₁ n₁)
      (hbody : StatementCode settings Γ body n₁ c₂ n₂) :
      StatementCode settings Γ (.node .loop token value ops [condition, body]) n
        (.mark (labelOf n.labels) :: (c₁ ++ c₂ ++
          [.jump (labelOf n.labels), .mark (labelOf (n.labels + 1))])) n₂
  | selection {token value ops scrutinee clauses n v c₁ n₁ c₂ labels d n₂ c₃ n₃}
      (hscrutinee : ScrutineeCode Γ scrutinee n.temps v c₁ n₁)
      (hdispatch : DispatchCode v none clauses (n.labels + 1) c₂ labels d n₂)
      (hclauses : ClausesCode settings Γ (labelOf n.labels) labels clauses ⟨n₁, n₂⟩ c₃ n₃) :
      StatementCode settings Γ (.node .selection token value ops (scrutinee :: clauses)) n
        (c₁ ++ c₂ ++ [.jump (d.getD (labelOf n.labels))] ++ c₃ ++ [.mark (labelOf n.labels)]) n₃

/-- The code of several statements, one after the other. -/
inductive StatementsCode (settings : Settings) (Γ : Scope) :
    List Tree → Names → List Instr → Names → Prop
  | nil {n} : StatementsCode settings Γ [] n [] n
  | cons {t ts n c₁ n₁ c₂ n₂} (ht : StatementCode settings Γ t n c₁ n₁)
      (hts : StatementsCode settings Γ ts n₁ c₂ n₂) :
      StatementsCode settings Γ (t :: ts) n (c₁ ++ c₂) n₂

/-- The code of the clauses of a `switch` that ends at `done`, each at its label. -/
inductive ClausesCode (settings : Settings) (Γ : Scope) :
    Label → List Label → List Tree → Names → List Instr → Names → Prop
  | nil {done n} : ClausesCode settings Γ done [] [] n [] n
  | cons {done label labels kind token value ops children clauses n c₁ n₁ c₂ n₂}
      (hbody : StatementsCode settings Γ (clauseBody kind children) n c₁ n₁)
      (hrest : ClausesCode settings Γ done labels clauses n₁ c₂ n₂) :
      ClausesCode settings Γ done (label :: labels)
        (.node kind token value ops children :: clauses) n
        (.mark label :: (c₁ ++ leaveCode done clauses ++ c₂)) n₂

end

/-! ## Single instructions -/

/-- An instruction that jumps, under a condition or without one. -/
structure Instr.Jumps (i : Instr) : Prop where
  isJump : i.op.isJump = true
  result : i.result = none

/-- An instruction that computes a number into a temporary. -/
inductive Instr.Arithmetic : Instr → Prop
  | neg {k v} : Arithmetic (.neg (tempOf k) v)
  | binary {op k left right} (hop : op.isBinary = true) :
      Arithmetic (.binary op (tempOf k) left right)

/-- An instruction of a condition: it computes a number, writes a truth value to a temporary, or
writes nothing. -/
inductive Instr.Deciding : Instr → Prop
  | arithmetic {i} (h : i.Arithmetic) : Deciding i
  | truth {k} (b : Bool) : Deciding (.copy (tempOf k) (.const (if b then 1 else 0)))
  | control {i} (hresult : i.result = none) : Deciding i

section Instructions

variable {i : Instr}

lemma Instr.Jumps.result_ne (h : i.Jumps) (v : Operand) : i.result ≠ some v := by
  rw [h.result]
  exact nofun

lemma Instr.Jumps.op_ne_mark (h : i.Jumps) : i.op ≠ .mark := by
  intro hop
  have hjump := h.isJump
  rw [hop] at hjump
  cases hjump

lemma Instr.Arithmetic.isJump_eq_false (h : i.Arithmetic) : i.op.isJump = false := by
  cases h with
  | neg => rfl
  | binary hop => exact isJump_of_isBinary hop

lemma Instr.Arithmetic.op_ne_copy (h : i.Arithmetic) : i.op ≠ .copy := by
  cases h with
  | neg => exact nofun
  | binary hop =>
    rintro rfl
    cases hop

lemma jumps_jumpCode (l : Option Label) : ∀ i ∈ jumpCode l, i.Jumps := by
  cases l with
  | none => exact forall_mem_nil _
  | some l => exact forall_mem_singleton.mpr ⟨rfl, rfl⟩

lemma jumps_branchCode (op : Opcode) (left right : Operand) (e : Exits) :
    ∀ i ∈ branchCode op left right e, i.Jumps := by
  unfold branchCode
  split
  · exact forall_mem_cons.mpr ⟨⟨rfl, rfl⟩, forall_mem_singleton.mpr ⟨rfl, rfl⟩⟩
  · exact forall_mem_singleton.mpr ⟨rfl, rfl⟩
  · exact forall_mem_singleton.mpr ⟨rfl, rfl⟩
  · exact forall_mem_nil _

lemma jumps_leaveCode (done : Label) (following : List Tree) :
    ∀ i ∈ leaveCode done following, i.Jumps := by
  unfold leaveCode
  split
  · exact forall_mem_nil _
  · exact forall_mem_singleton.mpr ⟨rfl, rfl⟩

/-- What writes a truth value to a target writes nothing else. -/
lemma truth_of_mem_valueCode {target k} (h : i ∈ valueCode target k) :
    i.result = none ∨ ∃ b : Bool, i = .copy target (.const (if b then 1 else 0)) := by
  simp only [valueCode, mem_cons, not_mem_nil, or_false] at h
  rcases h with rfl | rfl | rfl | rfl | rfl | rfl
  · exact .inl rfl
  · exact .inr ⟨true, rfl⟩
  · exact .inl rfl
  · exact .inl rfl
  · exact .inr ⟨false, rfl⟩
  · exact .inl rfl

section Dispatch

variable {v : Operand} {d d' : Option Label} {clauses : List Tree} {n n' : Nat} {code : List Instr}
  {labels : List Label}

variable (h : DispatchCode v d clauses n code labels d' n')
include h

lemma DispatchCode.le : n ≤ n' := by
  induction h with
  | done => exact Nat.le_refl _
  | case _ _ ih | default _ ih => exact Nat.le_of_succ_le ih

/-- The tests of a `switch` compare the scrutinee with the values of the cases, each with a jump to
the label of its clause. -/
lemma DispatchCode.tests : ∀ i ∈ code, ∃ w k, (n ≤ k ∧ k < n') ∧
    i = .jumpIf .eq v (.const w) (labelOf k) := by
  induction h with
  | done => exact forall_mem_nil _
  | @case _ _ _ _ _ _ _ _ _ _ n w _ _ _ n' _ hrest ih =>
    refine forall_mem_cons.mpr ⟨⟨w, n, ⟨Nat.le_refl _, hrest.le⟩, rfl⟩, fun i hi => ?_⟩
    obtain ⟨w, k, hk, rfl⟩ := ih i hi
    exact ⟨w, k, ⟨Nat.le_of_succ_le hk.1, hk.2⟩, rfl⟩
  | default _ ih =>
    intro i hi
    obtain ⟨w, k, hk, rfl⟩ := ih i hi
    exact ⟨w, k, ⟨Nat.le_of_succ_le hk.1, hk.2⟩, rfl⟩

/-- The tests of a `switch` are jumps. -/
lemma DispatchCode.jumps : ∀ i ∈ code, i.Jumps := by
  intro i hi
  obtain ⟨w, k, -, rfl⟩ := h.tests i hi
  exact ⟨rfl, rfl⟩

end Dispatch

end Instructions

section Expressions

variable {Γ : Scope}

mutual

/-- The code of a numeric expression computes numbers into temporaries, and nothing else. -/
lemma NumberCode.arithmetic {t n v code n'} (h : NumberCode Γ t n v code n') :
    ∀ i ∈ code, i.Arithmetic := by
  match h with
  | .wrapper _ hinner | .unsigned _ hinner => exact hinner.arithmetic
  | .literal _ | .variable _ => exact forall_mem_nil _
  | .chain _ hfirst hrest => exact forall_mem_append.mpr ⟨hfirst.arithmetic, hrest.arithmetic⟩
  | .negated _ hinner =>
    exact forall_mem_append.mpr ⟨hinner.arithmetic, forall_mem_singleton.mpr .neg⟩

/-- The code of the rest of a chain computes numbers into temporaries, and nothing else. -/
lemma ChainCode.arithmetic {kind acc ops operands n v code n'}
    (h : ChainCode Γ kind acc ops operands n v code n') :
    ∀ i ∈ code, i.Arithmetic := by
  match h with
  | .done => exact forall_mem_nil _
  | .more hop hoperand hrest =>
    have hbinary := isBinary_of_arithOpcode hop
    exact forall_mem_append.mpr ⟨hoperand.arithmetic,
      forall_mem_cons.mpr ⟨.binary hbinary, hrest.arithmetic⟩⟩

end

lemma NumberCode.deciding {t n n' v code} (h : NumberCode Γ t n v code n') :
    ∀ i ∈ code, i.Deciding := fun i hi => .arithmetic (h.arithmetic i hi)

lemma deciding_valueCode (n k : Nat) : ∀ i ∈ valueCode (tempOf n) k, i.Deciding := by
  intro i hi
  rcases truth_of_mem_valueCode hi with hres | ⟨b, rfl⟩
  · exact .control hres
  · exact .truth b

mutual

/-- The code of a condition computes numbers and truth values into temporaries, and directs control.
-/
lemma ConditionCode.deciding {t e n code n'} (h : ConditionCode Γ t e n code n') :
    ∀ i ∈ code, i.Deciding := by
  have hbranch : ∀ op l r, ∀ i ∈ branchCode op l r e, i.Deciding := fun op l r i hi =>
    .control (jumps_branchCode op l r e i hi).result
  match h with
  | .wrapper _ hinner | .negation _ hinner => exact hinner.deciding
  | .literal b => exact fun i hi => .control (jumps_jumpCode (e b) i hi).result
  | .variable _ => exact hbranch _ _ _
  | .numbers _ hleft hright =>
    simp only [forall_mem_append]
    exact ⟨⟨hleft.deciding, hright.deciding⟩, hbranch _ _ _⟩
  | .booleans _ hleft hright =>
    simp only [forall_mem_append]
    exact ⟨⟨⟨hleft.deciding, deciding_valueCode _ _⟩, hright.deciding, deciding_valueCode _ _⟩,
      hbranch _ _ _⟩
  | .logic hchain => exact hchain.deciding

/-- The code of a chain of conditions computes numbers and truth values into temporaries, and
directs control. -/
lemma LogicCode.deciding {ops operands e n code n'} (h : LogicCode Γ ops operands e n code n') :
    ∀ i ∈ code, i.Deciding := by
  match h with
  | .last hlast => exact hlast.deciding
  | .leaving _ _ hleft hrest =>
    simp only [forall_mem_append, forall_mem_cons]
    exact ⟨hleft.deciding, .control rfl, hrest.deciding⟩
  | .skipping _ _ hleft hrest =>
    simp only [forall_mem_append, forall_mem_cons]
    exact ⟨hleft.deciding, .control rfl, hrest.deciding, .control rfl, forall_mem_nil _⟩

end

end Expressions

end ThreeAddress
