import Mathlib.Data.List.Forall2
import Mathlib.Order.Basic
import ThreeAddress.Proofs.Lowering.Nodes
import ThreeAddress.Proofs.Lowering.Success

/-!
# Lowering in lockstep

Two trees can be lowered side by side, in two settings, from two states and into two sinks. A
`Lockstep` is a relation between the parts of two such runs: the single steps are related, and the
relation is kept along `>>=`. Two trees are `Alike` if their runs are related in whatever way the
trees are looked at: as a number, as a condition, for their type, as a statement or as a clause.
Nodes with alike children are alike (`Notes.alike_node`), up to the names and numbers that a node
reads itself, and so a tree is alike to itself (`Notes.alike`). A property of one run is a
`Lockstep` that does not look at the other run.

What the relation says may depend on how far the runs have come. A `World` stands for this; what is
known of operands and labels is kept when the runs go on. A relation may also be `lenient`, so that
the second run has to follow only where the first one succeeds, and `loose`, so that labels need not
correspond.
-/

namespace ThreeAddress

open List Lowering

/-! ## Trees -/

/-- The tokens of a tree may be cited, and its nodes are absent only where `gaps` allows it. -/
inductive Tree.Admitted (Cited : Token → Prop) (gaps : Prop) : Tree → Prop
  | absent (hgaps : gaps) : Tree.Admitted Cited gaps .absent
  | node {kind token value ops children} (htoken : Cited token)
      (hchildren : ∀ t ∈ children, Tree.Admitted Cited gaps t) :
      Tree.Admitted Cited gaps (.node kind token value ops children)

namespace Tree

variable {Cited : Token → Prop} {gaps : Prop} {kind : NodeKind} {token : Token} {value : String}
  {ops : List TokenKind} {children : List Tree}

lemma admitted_all (t : Tree) : t.Admitted (fun _ => True) True := by
  induction t using induction with
  | absent => exact .absent trivial
  | node kind token value ops children ih => exact .node trivial ih

/-- The token and the children of a node that is admitted. -/
lemma Admitted.of_node (h : Admitted Cited gaps (.node kind token value ops children)) :
    Cited token ∧ ∀ t ∈ children, Admitted Cited gaps t := by
  cases h with
  | node htoken hchildren => exact ⟨htoken, hchildren⟩

lemma Admitted.of_absent (h : Admitted Cited gaps .absent) : gaps := by
  cases h with
  | absent hgaps => exact hgaps

mutual

/-- The declarations of a tree are admitted with the tree. -/
lemma Admitted.declarations {t} (h : Admitted Cited gaps t) :
    ∀ d ∈ t.declarations, Admitted Cited gaps d := by
  match t, h with
  | .absent, _ => exact forall_mem_nil _
  | .node kind token value ops children, h =>
    unfold declarations
    split
    · exact forall_mem_singleton.mpr h
    · exact admitted_declarationsAll h.of_node.2

/-- The declarations of several trees are admitted with the trees. -/
lemma admitted_declarationsAll {ts} (h : ∀ t ∈ ts, Admitted Cited gaps t) :
    ∀ d ∈ declarationsAll ts, Admitted Cited gaps d := by
  match ts, h with
  | [], _ => exact forall_mem_nil _
  | t :: ts, h =>
    obtain ⟨ht, hts⟩ := forall_mem_cons.mp h
    intro d hd
    rcases mem_append.mp hd with hd | hd
    · exact ht.declarations d hd
    · exact admitted_declarationsAll hts d hd

end

end Tree

/-- The kinds of node whose first child is a name or a number that the node itself reads. -/
def NodeKind.readers : List NodeKind := [declaration, assignment, caseClause]

/-- The kinds of node that are statements, lists of them or clauses. -/
def NodeKind.outer : List NodeKind :=
  [program, block, declaration, statement, assignment, conditional, loop, selection,
    caseClause, defaultClause]

/-- The tree is a node that is neither a statement nor a clause. -/
def Tree.IsInner : Tree → Prop
  | .absent => False
  | .node kind _ _ _ _ => kind ∉ NodeKind.outer

/-- What is neither a statement nor a clause cannot be lowered as a statement. -/
lemma not_yields_statement {σ : Type} [Sink σ] {settings t} (h : t.IsInner)
    {s s' : LoweringState σ} {u code} :
    ¬ (statement settings t).Yields s u code s' := by
  cases t with
  | absent => exact h.elim
  | node kind token value ops children =>
    have hkind : kind ∉ NodeKind.outer := h
    cases kind <;> first | exact not_yields_fail | exact absurd (by decide) hkind

/-! ## Relations between two runs -/

/-- Two operands are of one sort, and the same if they are neither temporaries nor labels. -/
inductive Operand.SameSort : Operand → Operand → Prop
  | const (n : Int64) : SameSort (.const n) (.const n)
  | global (x : String) : SameSort (.global x) (.global x)
  | temp {name name' id id'} : SameSort (.temp name id) (.temp name' id')
  | label {l l'} : SameSort (.label l) (.label l')

lemma Operand.SameSort.refl (v : Operand) : v.SameSort v := by
  cases v with
  | const n => exact .const n
  | global x => exact .global x
  | temp | label => constructor

/-- Two instructions are of one form, with operands and labels that correspond. Only the copy of a
variable to itself is left out. -/
inductive Instr.Corresponds (V : Operand → Operand → Prop) (L : Label → Label → Prop) :
    Instr → Instr → Prop
  | copy {dst dst' src src'} (hdst : V dst dst') (hsrc : V src src')
      (hself : ∀ x, dst = .global x → src ≠ .global x) : Corresponds V L (.copy dst src)
      (.copy dst' src')
  | neg {dst dst' src src'} (hdst : V dst dst') (hsrc : V src src') :
      Corresponds V L (.neg dst src) (.neg dst' src')
  | binary {op dst dst' left left' right right'} (hop : op.isBinary = true) (hdst : V dst dst')
      (hleft : V left left') (hright : V right right') :
      Corresponds V L (.binary op dst left right) (.binary op dst' left' right')
  | jumpIf {op left left' right right' l l'} (hleft : V left left') (hright : V right right')
      (hl : L l l') :
      Corresponds V L (.jumpIf op left right l) (.jumpIf op left' right' l')
  | jumpUnless {op left left' right right' l l'} (hleft : V left left') (hright : V right right')
      (hl : L l l') :
      Corresponds V L (.jumpUnless op left right l) (.jumpUnless op left' right' l')
  | jump {l l'} (hl : L l l') : Corresponds V L (.jump l) (.jump l')
  | mark {l l'} (hl : L l l') : Corresponds V L (.mark l) (.mark l')

lemma isBinary_of_arithOpcode {kind op opcode} (h : arithOpcode? kind op = some opcode) :
    opcode.isBinary = true := by
  unfold arithOpcode? at h
  split at h <;> grind [Opcode.isBinary]

lemma isJump_of_isBinary {op : Opcode} (h : op.isBinary = true) : op.isJump = false := by
  cases op <;> first | rfl | cases h

lemma ne_mark_of_isBinary {op : Opcode} (h : op.isBinary = true) : op ≠ .mark := by
  rintro rfl
  cases h

/-- A relation between the parts of two runs of lowering that is kept by every step. -/
structure Lockstep (settings settings' : Settings) (σ : Type := Unit) (τ : Type := Unit)
    [Sink σ] [Sink τ] where
  /-- How far the runs have come. -/
  World : Type
  [order : Preorder World]
  /-- Two parts are related if they start at `w` or later, and their results are related by `Q`. -/
  Rel {α β : Type} (w : World) (Q : World → α → β → Prop) (x : Lowering σ α) (y : Lowering τ β) :
    Prop
  /-- Operands of the two runs that correspond. -/
  Value : World → Operand → Operand → Prop
  /-- Labels of the two runs that correspond. -/
  Target : World → Label → Label → Prop
  /-- The tokens that notes may be about. -/
  Cited : Token → Prop
  /-- Whether a run may stop at an absent node. -/
  gaps : Prop
  /-- Whether the second run only has to do what the first one does, and may leave out notes. -/
  lenient : Prop := False
  /-- Whether any labels correspond, and any parts that cannot fail are related. -/
  loose : Prop := False
  value_const (w : World) (n : Int64) : Value w (.const n) (.const n)
  value_global (w : World) (x : String) : Value w (.global x) (.global x)
  value_sort {w v v'} : Value w v v' → v.SameSort v'
  value_mono {w w' v v'} : w ≤ w' → Value w v v' → Value w' v v'
  target_mono {w w' l l'} : w ≤ w' → Target w l l' → Target w' l l'
  target_loose {w l l'} : loose → Target w l l' := by exact False.elim
  rel_pure {α β w Q} {a : α} {b : β} : (∀ w', w ≤ w' → Q w' a b) → Rel w Q (pure a) (pure b)
  rel_bind {α β γ δ w P Q} {x : Lowering σ α} {y : Lowering τ β} {f : α → Lowering σ γ}
    {g : β → Lowering τ δ} :
    Rel w P x y → (∀ w', w ≤ w' → ∀ a b, P w' a b → Rel w' Q (f a) (g b)) →
    Rel w Q (x >>= f) (y >>= g)
  rel_fail {α β w Q} (token : Token) (fault : LowerFault) :
    Rel w Q (fail token fault : Lowering σ α) (fail token fault : Lowering τ β)
  rel_incomplete {α β w Q} : gaps → Rel w Q (incomplete : Lowering σ α) (incomplete : Lowering τ β)
  rel_stopped {α β w Q} {x : Lowering σ α} {y : Lowering τ β} :
    lenient → (∀ s a code s', ¬ x.Yields s a code s') →
    Rel w Q x y := by exact False.elim
  rel_quiet {α β γ w Q} {x : Lowering σ α} {f : α → Lowering σ β} {y : Lowering τ γ} :
    lenient → x.Quiet →
    (∀ a, Rel w Q (f a) y) → Rel w Q (x >>= f) y := by exact False.elim
  rel_steady {α β w Q} {x : Lowering σ α} {y : Lowering τ β} : loose → x.Steady → y.Steady →
    (∀ w' a b, Q w' a b) →
    Rel w Q x y := by exact False.elim
  rel_emit {w i i'} : i.Corresponds (Value w) (Target w) i' →
    Rel w (fun _ _ _ => True) (emit i) (emit i')
  rel_selfCopy {w} (x : String) : Rel w (fun _ _ _ => True)
    (if settings.feature .elideSelfCopies then pure () else emit (.copy (.global x) (.global x)))
    (if settings'.feature .elideSelfCopies then pure () else emit (.copy (.global x) (.global x)))
  rel_freshTemp {w} : Rel w (fun w' v v' => Value w' v v' ∧ ∃ name id, v = .temp name id)
    freshTemp freshTemp
  rel_freshLabel {w} : Rel w Target freshLabel freshLabel
  rel_typeOfName {w} (token : Token) (name : String) :
    Rel w (fun _ => Eq) (typeOfName token name) (typeOfName token name)
  rel_useName {w} (token : Token) (name : String) :
    Rel w (fun _ => Eq) (useName token name) (useName token name)

attribute [instance] Lockstep.order

namespace Lockstep

/-- The order of the only world, for relations that do not depend on how far the runs have come. -/
abbrev still : Preorder Unit where
  le _ _ := True
  lt _ _ := False
  le_refl _ := trivial
  le_trans _ _ _ _ _ := trivial
  lt_iff_le_not_ge _ _ := ⟨False.elim, fun h => h.2 trivial⟩

variable {σ τ : Type} [Sink σ] [Sink τ] {settings settings' : Settings}
  (R : Lockstep settings settings' σ τ)

/-- Exits of the two runs correspond: none to none, a label to a label, and any to any if the
relation is loose. -/
inductive Exit (w : R.World) : Option Label → Option Label → Prop
  | none : Exit w none none
  | some {l l'} (h : R.Target w l l') : Exit w (some l) (some l')
  | any {l l'} (h : R.loose) : Exit w l l'

/-- The trees whose lowering is related to itself. -/
def Admits (t : Tree) : Prop := t.Admitted R.Cited R.gaps

/-- Two parts without results are related. -/
abbrev Step (w : R.World) (x : Lowering σ Unit) (y : Lowering τ Unit) : Prop :=
  R.Rel w (fun _ _ _ => True) x y

/-- Two conditions are related, with any exits that correspond. -/
def Conds (x : Option Label → Option Label → Lowering σ Unit)
    (y : Option Label → Option Label → Lowering τ Unit) : Prop :=
  ∀ ⦃w holds fails holds' fails'⦄, R.Exit w holds holds' → R.Exit w fails fails' →
    R.Step w (x holds fails) (y holds' fails')

/-- Notes about tokens that may be cited are related. -/
def Notes : Prop := ∀ ⦃w token subject⦄, R.Cited token → R.Step w (note token subject)
    (note token subject)

/-- Two trees are lowered alike as expressions. -/
structure Twins (t t' : Tree) : Prop where
  isAbsent : t'.isAbsent = t.isAbsent
  type (w : R.World) : R.Rel w (fun _ => Eq) (typeOf t) (typeOf t')
  number (w : R.World) : R.Rel w R.Value (arith t) (arith t')
  condition : R.Conds (cond t) (cond t')

/-- Two trees have the same root, up to its children. -/
inductive SameRoot : Tree → Tree → Prop
  | absent (hgaps : R.gaps) : SameRoot .absent .absent
  | node {kind token value ops children children'} (htoken : R.Cited token) :
      SameRoot (.node kind token value ops children) (.node kind token value ops children')

/-- Two trees have the same root, what the root reads is the same, and the statements below it are
related. -/
inductive Upright : Tree → Tree → Prop
  | absent (hgaps : R.gaps) : Upright .absent .absent
  | node {kind token value ops children children'} (htoken : R.Cited token)
      (hempty : children'.isEmpty = children.isEmpty)
      (hread : kind ∈ NodeKind.readers → Option.Rel R.SameRoot children.head? children'.head?)
      (hbody : ∀ w, R.Step w (statements settings (clauseBody kind children))
        (statements settings' (clauseBody kind children'))) :
      Upright (.node kind token value ops children) (.node kind token value ops children')

/-- Two trees are lowered alike, as whatever they are lowered. -/
structure Alike (t t' : Tree) : Prop extends R.Twins t t' where
  /-- The second tree may hide that a condition is constant. -/
  constant (w : R.World) : R.Rel w (fun _ r r' => r' = r ∨ R.lenient ∧ r' = none)
    (constantCondition? t) (constantCondition? t')
  body (w : R.World) : R.Step w (statement settings t) (statement settings' t')
  /-- What is a statement or a clause keeps its root. -/
  upright : R.Upright t t' ∨ R.lenient ∧ t.IsInner

variable {ops : List TokenKind} {children children' : List Tree} {kind : NodeKind}
  {v v' : Operand} {token : Token} {value : String} {t t' : Tree}

/-! ## Steps -/

section Steps

variable {R} {w w' : R.World} {l l' : Option Label}

lemma Value.mono (h : R.Value w v v') (hw : w ≤ w') : R.Value w' v v' := R.value_mono hw h

lemma Target.mono {l l'} (h : R.Target w l l') (hw : w ≤ w') : R.Target w' l l' :=
    R.target_mono hw h

lemma rel_target_mono (h : Option.Rel (R.Target w) l l') (hw : w ≤ w') :
    Option.Rel (R.Target w') l l' := by
  cases h with
  | none => exact .none
  | some h => exact .some (h.mono hw)

lemma Exit.mono (h : R.Exit w l l') (hw : w ≤ w') : R.Exit w' l l' := by
  cases h with
  | none => exact .none
  | some h => exact .some (h.mono hw)
  | any h => exact .any h

variable (R)

/-- Faults that count the same are related. -/
lemma rel_fault {α β Q} (fault : Nat → LowerFault) {n n'} (h : n = n') :
    R.Rel w Q (fail token (fault n) : Lowering σ α) (fail token (fault n') : Lowering τ β) :=
  h ▸ R.rel_fail token (fault n)

/-- The shape of a chain is checked alike, and known when it has been checked. -/
lemma rel_checkChain {operands operators} :
    R.Rel w (fun _ _ _ => 2 ≤ operands ∧ operands = operators + 1)
      (checkChain kind token operands operators) (checkChain kind token operands operators) := by
  unfold checkChain
  split
  · exact R.rel_fail token _
  · exact R.rel_pure fun _ _ => by omega

lemma rel_jumpTo (h : R.Exit w l l') : R.Step w (jumpTo l) (jumpTo l') := by
  cases h with
  | none => exact R.rel_pure fun _ _ => trivial
  | some h => exact R.rel_emit (.jump h)
  | any h => exact R.rel_steady h (steady_jumpTo l) (steady_jumpTo l') fun _ _ _ => trivial

lemma rel_markAt (h : R.Exit w l l') : R.Step w (markAt l) (markAt l') := by
  cases h with
  | none => exact R.rel_pure fun _ _ => trivial
  | some h => exact R.rel_emit (.mark h)
  | any h => exact R.rel_steady h (steady_markAt l) (steady_markAt l') fun _ _ _ => trivial

/-- Jumps on a comparison to exits that correspond. -/
lemma rel_branch {op left left' right right'} (hleft : R.Value w left left')
    (hright : R.Value w right right') {holds fails holds' fails'} (hholds : R.Exit w holds holds')
    (hfails : R.Exit w fails fails') :
    R.Step w (branch op left right holds fails) (branch op left' right' holds' fails') := by
  have hloose : R.loose → R.Step w (branch op left right holds fails)
      (branch op left' right' holds' fails') :=
    fun h => R.rel_steady h (steady_branch _ _ _ _ _) (steady_branch _ _ _ _ _) fun _ _ _ => trivial
  cases hholds with
  | any h => exact hloose h
  | none =>
    cases hfails with
    | any h => exact hloose h
    | none => exact R.rel_pure fun _ _ => trivial
    | some hf => exact R.rel_emit (.jumpUnless hleft hright hf)
  | some ht =>
    cases hfails with
    | any h => exact hloose h
    | none => exact R.rel_emit (.jumpIf hleft hright ht)
    | some hf =>
      exact R.rel_bind (R.rel_emit (.jumpIf hleft hright ht)) fun w' hw' _ _ _ =>
        R.rel_emit (.jump (hf.mono hw'))

variable {x : Option Label → Option Label → Lowering σ Unit}
  {y : Option Label → Option Label → Lowering τ Unit}

/-- Truth values that are written to targets that correspond. -/
lemma rel_boolValue (h : R.Conds x y) {target target'} (htarget : R.Value w target target') :
    R.Step w (boolValue x target) (boolValue y target') := by
  refine R.rel_bind R.rel_freshLabel fun w1 hw1 holds holds' hholds => ?_
  refine R.rel_bind R.rel_freshLabel fun w2 hw2 fails fails' hfails => ?_
  refine R.rel_bind R.rel_freshLabel fun w3 hw3 done done' hdone => ?_
  have hholds3 : R.Target w3 holds holds' := hholds.mono (le_trans hw2 hw3)
  have hfails3 : R.Target w3 fails fails' := hfails.mono hw3
  have htarget3 : R.Value w3 target target' := htarget.mono (le_trans hw1 (le_trans hw2 hw3))
  refine R.rel_bind (h (.some hholds3) (.some hfails3)) fun w4 hw4 _ _ _ => ?_
  refine R.rel_bind (R.rel_emit (.mark (hholds3.mono hw4))) fun w5 hw5 _ _ _ => ?_
  have h5 : w3 ≤ w5 := le_trans hw4 hw5
  refine R.rel_bind (R.rel_emit (.copy (htarget3.mono h5) (R.value_const w5 1) nofun))
    fun w6 hw6 _ _ _ => ?_
  have h6 : w3 ≤ w6 := le_trans h5 hw6
  refine R.rel_bind (R.rel_emit (.jump (hdone.mono h6))) fun w7 hw7 _ _ _ => ?_
  have h7 : w3 ≤ w7 := le_trans h6 hw7
  refine R.rel_bind (R.rel_emit (.mark (hfails3.mono h7))) fun w8 hw8 _ _ _ => ?_
  have h8 : w3 ≤ w8 := le_trans h7 hw8
  refine R.rel_bind (R.rel_emit (.copy (htarget3.mono h8) (R.value_const w8 0) nofun))
    fun w9 hw9 _ _ _ => ?_
  exact R.rel_emit (.mark (hdone.mono (le_trans h8 hw9)))

/-- Truth values in new temporaries. -/
lemma rel_materialize (h : R.Conds x y) : R.Rel w R.Value (materialize x) (materialize y) := by
  refine R.rel_bind R.rel_freshTemp fun w1 _ t t' ht => ?_
  refine R.rel_bind (R.rel_boolValue h ht.1) fun w2 hw2 _ _ _ => ?_
  exact R.rel_pure fun _ hw => ht.1.mono (le_trans hw2 hw)

/-- Where the left one of two joined conditions goes when it decides, with a label behind both if
one is needed. -/
def decidedAt : Option Label → Lowering σ (Label × Option Label)
  | some l => return (l, none)
  | none => do
    let join ← freshLabel
    return (join, some join)

omit [Sink σ] in
lemma steady_decidedAt (deciding : Option Label) : (decidedAt deciding : Lowering σ _).Steady := by
  cases deciding with
  | some l => exact steady_pure _
  | none => exact steady_freshLabel.bind fun join => steady_pure _

/-- Two joined conditions, with and without a label behind both. -/
lemma shortCircuit_eq (deciding : Option Label) (left : Label → Label → Lowering σ Unit)
    (right : Lowering σ Unit) :
    shortCircuit deciding left right = (do
      let middle ← freshLabel
      let (decided, join) ← decidedAt deciding
      left decided middle
      emit (.mark middle)
      right
      markAt join) := by
  cases deciding with
  | some l =>
    have hright : (right >>= fun _ => markAt none) = right := bind_pure_eq right
    show (freshLabel >>= fun middle => left l middle >>= fun _ =>
      emit (.mark middle) >>= fun _ => right) = freshLabel >>= fun middle =>
      left l middle >>= fun _ => emit (.mark middle) >>= fun _ =>
        right >>= fun _ => markAt none
    rw [hright]
  | none => rfl

lemma rel_decidedAt (h : R.Exit w l l') :
    R.Rel w (fun w' r r' => R.Target w' r.1 r'.1 ∧ R.Exit w' r.2 r'.2) (decidedAt l)
    (decidedAt l') := by
  cases h with
  | some h => exact R.rel_pure fun _ hw => ⟨h.mono hw, .none⟩
  | none =>
    refine R.rel_bind R.rel_freshLabel fun w1 _ join join' hjoin => ?_
    exact R.rel_pure fun _ hw => ⟨hjoin.mono hw, .some (hjoin.mono hw)⟩
  | any h =>
    exact R.rel_steady h (steady_decidedAt l) (steady_decidedAt l') fun _ _ _ =>
      ⟨R.target_loose h, .any h⟩

/-- Two joined conditions. -/
lemma rel_shortCircuit {deciding deciding'} (hdeciding : R.Exit w deciding deciding')
    {left left' right right'}
    (hleft : ∀ {w l l' m m'}, R.Target w l l' → R.Target w m m' → R.Step w (left l m) (left' l' m'))
    (hright : ∀ {w'}, w ≤ w' → R.Step w' right right') :
    R.Step w (shortCircuit deciding left right) (shortCircuit deciding' left' right') := by
  rw [shortCircuit_eq, shortCircuit_eq]
  refine R.rel_bind R.rel_freshLabel fun w1 hw1 middle middle' hmiddle => ?_
  refine R.rel_bind (R.rel_decidedAt (hdeciding.mono hw1)) fun w2 hw2 at_ at_' hat => ?_
  refine R.rel_bind (hleft hat.1 (hmiddle.mono hw2)) fun w3 hw3 _ _ _ => ?_
  have h3 : w1 ≤ w3 := le_trans hw2 hw3
  refine R.rel_bind (R.rel_emit (.mark (hmiddle.mono h3))) fun w4 hw4 _ _ _ => ?_
  refine R.rel_bind (hright (le_trans hw1 (le_trans h3 hw4))) fun w5 hw5 _ _ _ => ?_
  exact R.rel_markAt (hat.2.mono (le_trans hw3 (le_trans hw4 hw5)))

end Steps

/-! ## Expressions -/

section Expressions

variable {R} {w : R.World}

/-- What is done with the only children is related if it is for children that are related. -/
lemma rel_onlyChild {S : Tree → Tree → Prop} (h : Forall₂ S children children')
    (hS : ∀ t t', S t t' → t'.isAbsent = t.isAbsent) {α β : Type} {Q : R.World → α → β → Prop}
    {f : Tree → Lowering σ α} {g : Tree → Lowering τ β}
    (hfg : ∀ t t', S t t' → R.Rel w Q (f t) (g t')) :
    R.Rel w Q ((onlyChild? children).elim (fail token (.childCount kind children.length)) f)
      ((onlyChild? children').elim (fail token (.childCount kind children'.length)) g) := by
  have hlen := h.length_eq
  cases h with
  | nil => exact R.rel_fail token _
  | @cons t t' _ _ ht hrest =>
    cases hrest with
    | cons => cases t <;> cases t' <;> exact R.rel_fault _ hlen
    | nil =>
      have hpresent := hS t t' ht
      cases t <;> cases t' <;> first | exact R.rel_fail token _ | exact hfg _ _ ht | cases hpresent

variable (h : List.Forall₂ R.Twins children children')

include h

/-- The types of nodes with twins as children. -/
lemma rel_typeOf_node : R.Rel w (fun _ => Eq) (typeOf (.node kind token value ops children))
    (typeOf (.node kind token value ops children')) := by
  cases hop : isTransparent kind ops with
  | true =>
    rw [typeOf_of_transparent hop, typeOf_of_transparent hop]
    exact rel_onlyChild h (fun _ _ ht => ht.isAbsent) fun _ _ ht => ht.type w
  | false =>
    rw [typeOf_of_plain hop, typeOf_of_plain hop]
    split
    · exact R.rel_typeOfName token value
    · cases Typing.shownType? kind with
      | none => exact R.rel_fail token _
      | some type => exact R.rel_pure fun _ _ => rfl

/-- The values of the rest of a chain correspond. -/
lemma rel_arithChain {acc acc'} (hlen : children.length = ops.length) (hacc : R.Value w acc acc') :
    R.Rel w R.Value (arithChain kind token acc ops children)
    (arithChain kind token acc' ops children') := by
  induction h generalizing w ops acc acc' with
  | nil =>
    obtain rfl := length_eq_zero_iff.mp hlen.symm
    exact R.rel_pure fun _ hw => hacc.mono hw
  | cons ht _ ih =>
    cases ops with
    | nil => exact R.rel_pure fun _ hw => hacc.mono hw
    | cons op ops =>
      unfold arithChain
      cases hop : arithOpcode? kind op with
      | none => exact R.rel_fail token _
      | some opcode =>
        refine R.rel_bind (ht.number w) fun w1 hw1 right right' hright => ?_
        refine R.rel_bind R.rel_freshTemp fun w2 hw2 v v' hv => ?_
        have hinstr : (Instr.binary opcode v acc right).Corresponds (R.Value w2) (R.Target w2)
            (.binary opcode v' acc' right') :=
          .binary (isBinary_of_arithOpcode hop) hv.1 (hacc.mono (le_trans hw1 hw2))
          (hright.mono hw2)
        exact R.rel_bind (R.rel_emit hinstr) fun w3 hw3 _ _ _ =>
          ih (Nat.succ.inj hlen) (hv.1.mono hw3)

/-- The values of nodes with twins as children. -/
lemma rel_arith_node : R.Rel w R.Value (arith (.node kind token value ops children))
    (arith (.node kind token value ops children')) := by
  cases hop : isTransparent kind ops with
  | true =>
    rw [arith_of_transparent hop, arith_of_transparent hop]
    exact rel_onlyChild h (fun _ _ ht => ht.isAbsent) fun _ _ ht => ht.number w
  | false =>
    cases kind with
    | signed =>
      rw [arith_signed hop, arith_signed hop]
      refine rel_onlyChild h (fun _ _ ht => ht.isAbsent) fun _ _ ht => ?_
      cases signParity ops with
      | error op => exact R.rel_fail token _
      | ok negate =>
        refine R.rel_bind (ht.number w) fun w1 hw1 v v' hv => ?_
        cases negate with
        | false => exact R.rel_pure fun _ hw => hv.mono hw
        | true =>
          refine R.rel_bind R.rel_freshTemp fun w2 hw2 result result' hres => ?_
          refine R.rel_bind (R.rel_emit (.neg hres.1 (hv.mono hw2))) fun w3 hw3 _ _ _ => ?_
          exact R.rel_pure fun _ hw => hres.1.mono (le_trans hw3 hw)
    | intLiteral =>
      unfold arith
      cases Text.readInt64 value with
      | ok n => exact R.rel_pure fun w' _ => R.value_const w' n
      | error e => exact R.rel_fail token _
    | identifier =>
      unfold arith
      refine R.rel_bind (R.rel_useName token value) ?_
      rintro w1 - type _ rfl
      cases type with
      | num => exact R.rel_pure fun w' _ => R.value_global w' value
      | bool => exact R.rel_fail token _
    | sum | product =>
      rw [arith_chain (by simp) hop, arith_chain (by simp) hop, ← h.length_eq]
      refine R.rel_bind R.rel_checkChain ?_
      rintro w1 - _ _ ⟨-, hlen⟩
      cases h with
      | nil => cases hlen
      | cons hfirst hrest =>
        exact R.rel_bind (hfirst.number w1) fun w2 _ acc acc' hacc =>
          rel_arithChain hrest (Nat.succ.inj hlen) hacc
    | _ =>
      unfold arith
      simp only [hop, Bool.false_eq_true, if_false]
      exact R.rel_fail token _

/-- A chain of conditions, if it has one operand more than operators. -/
lemma rel_logicChain (hlen : children.length = ops.length + 1) :
    R.Conds (logicChain kind token ops children) (logicChain kind token ops children') := by
  induction h generalizing ops with
  | nil => cases hlen
  | cons ht _ ih =>
    intro w holds fails holds' fails' hholds hfails
    cases ops with
    | nil => exact ht.condition hholds hfails
    | cons op ops =>
      have hchain := fun {w' : R.World} (hw' : w ≤ w') =>
        ih (Nat.succ.inj hlen) (hholds.mono hw') (hfails.mono hw')
      cases op with
      | orOr =>
        exact R.rel_shortCircuit hholds (fun hl hm => ht.condition (.some hl) (.some hm)) hchain
      | andAnd =>
        exact R.rel_shortCircuit hfails (fun hl hm => ht.condition (.some hm) (.some hl)) hchain
      | _ => exact R.rel_bind R.rel_freshLabel fun _ _ _ _ _ => R.rel_fail token _

omit h in
/-- A comparison of two expressions. -/
lemma rel_compare {left left' right right'} (hleft : R.Twins left left')
    (hright : R.Twins right right') {op} :
    R.Conds (cond (.node .comparison token value [op] [left, right]))
      (cond (.node .comparison token value [op] [left', right'])) := by
  intro w holds fails holds' fails' hholds hfails
  unfold cond
  simp only [isTransparent, isEmpty_cons, Bool.false_eq_true, if_false]
  cases relationOpcode? op with
  | none => exact R.rel_fail token _
  | some code =>
    refine R.rel_bind (hleft.type w) ?_
    rintro w1 hw1 leftType _ rfl
    refine R.rel_bind (hright.type w1) ?_
    rintro w2 hw2 rightType _ rfl
    have h2 : w ≤ w2 := le_trans hw1 hw2
    split
    · exact R.rel_fail token _
    · cases leftType with
      | bool =>
        refine R.rel_bind (R.rel_materialize hleft.condition) fun w3 hw3 l l' hl => ?_
        refine R.rel_bind (R.rel_materialize hright.condition) fun w4 hw4 r r' hr => ?_
        have h4 : w ≤ w4 := le_trans h2 (le_trans hw3 hw4)
        exact R.rel_branch (hl.mono hw4) hr (hholds.mono h4) (hfails.mono h4)
      | num =>
        refine R.rel_bind (hleft.number w2) fun w3 hw3 l l' hl => ?_
        refine R.rel_bind (hright.number w3) fun w4 hw4 r r' hr => ?_
        have h4 : w ≤ w4 := le_trans h2 (le_trans hw3 hw4)
        exact R.rel_branch (hl.mono hw4) hr (hholds.mono h4) (hfails.mono h4)

/-- Nodes with twins as children, as conditions. -/
lemma rel_cond_node :
    R.Conds (cond (.node kind token value ops children))
    (cond (.node kind token value ops children')) := by
  intro w holds fails holds' fails' hholds hfails
  cases hop : isTransparent kind ops with
  | true =>
    rw [cond_of_transparent hop, cond_of_transparent hop]
    exact rel_onlyChild h (fun _ _ ht => ht.isAbsent) fun _ _ ht => ht.condition hholds hfails
  | false =>
    cases kind with
    | negation =>
      rw [cond_negation hop, cond_negation hop]
      cases bangParity ops with
      | error op => exact R.rel_fail token _
      | ok odd =>
        refine rel_onlyChild h (fun _ _ ht => ht.isAbsent) fun _ _ ht => ?_
        cases odd with
        | true => exact ht.condition hfails hholds
        | false => exact ht.condition hholds hfails
    | comparison =>
      have hlen := h.length_eq
      match children, children', ops, h with
      | [_, _], _, [op], .cons hleft (.cons hright .nil) =>
          exact rel_compare hleft hright hholds hfails
      | [], [], _, _ | [_], [_], _, _ | _ :: _ :: _ :: _, _ :: _ :: _ :: _, _,
          _ | [_, _], [_, _], [], _
      | [_, _], [_, _], _ :: _ :: _, _ =>
        unfold cond
        simp only [hop, Bool.false_eq_true, if_false]
        -- the fault tells the number of operands
        exact R.rel_fault (LowerFault.comparisonShape · _) hlen
    | logic =>
      unfold cond
      simp only [hop, Bool.false_eq_true, if_false]
      rw [← h.length_eq]
      refine R.rel_bind R.rel_checkChain ?_
      rintro w1 hw1 _ _ ⟨-, hlen⟩
      exact rel_logicChain h hlen (hholds.mono hw1) (hfails.mono hw1)
    | boolLiteral =>
      unfold cond
      simp only [hop, Bool.false_eq_true, if_false]
      split
      · exact R.rel_jumpTo hholds
      · split
        · exact R.rel_jumpTo hfails
        · exact R.rel_fail token _
    | identifier =>
      unfold cond
      refine R.rel_bind (R.rel_useName token value) ?_
      rintro w1 hw1 type _ rfl
      cases type with
      | bool =>
        exact R.rel_branch (R.value_global w1 value) (R.value_const w1 1) (hholds.mono hw1)
          (hfails.mono hw1)
      | num => exact R.rel_fail token _
    | _ =>
      unfold cond
      simp only [hop, Bool.false_eq_true, if_false]
      exact R.rel_fail token _

/-- Nodes with twins as children are twins. -/
lemma Twins.node :
    R.Twins (.node kind token value ops children) (.node kind token value ops children') :=
  ⟨rfl, fun _ => rel_typeOf_node h, fun _ => rel_arith_node h, rel_cond_node h⟩

omit h in
lemma Twins.absent (hgaps : R.gaps) : R.Twins .absent .absent :=
  ⟨rfl, fun _ => R.rel_incomplete hgaps, fun _ => R.rel_incomplete hgaps, fun _ _ _ _ _ _ _ =>
    R.rel_incomplete hgaps⟩

omit h in
/-- An expression is its own twin. -/
lemma twins (R : Lockstep settings settings' σ τ) (ht : R.Admits t) : R.Twins t t := by
  induction ht with
  | absent hgaps => exact .absent hgaps
  | node _ _ ih => exact .node (forall₂_same.mpr ih)

end Expressions

/-! ## Statements -/

section Statements

variable {R} {w : R.World}

/-- The tokens of alike trees are the same, unless the first one is no statement. -/
lemma Alike.token_eq (ht : R.Alike t t') : t'.token = t.token ∨ R.lenient := by
  rcases ht.upright with hupright | ⟨hlenient, -⟩
  · cases hupright <;> exact .inl rfl
  · exact .inr hlenient

lemma rel_scrutineeTemp (ht : R.Twins t t') (htoken : t'.token = t.token ∨ R.lenient) :
    R.Rel w R.Value (scrutineeTemp t) (scrutineeTemp t') := by
  refine R.rel_bind (ht.type w) ?_
  rintro w1 - type _ rfl
  split
  · rcases htoken with htoken | hlenient
    · rw [htoken]
      exact R.rel_fail t.token _
    · exact R.rel_stopped hlenient fun _ _ _ _ => not_yields_fail
  · refine R.rel_bind (ht.number w1) fun w2 _ v v' hv => ?_
    have hcopy : R.Rel w2 R.Value (do let t ← freshTemp; emit (.copy t v); return t)
        (do let t ← freshTemp; emit (.copy t v'); return t) := by
      refine R.rel_bind R.rel_freshTemp ?_
      rintro w3 hw3 _ t' ⟨ht, name, id, rfl⟩
      refine R.rel_bind (R.rel_emit (.copy ht (hv.mono hw3) nofun)) fun w4 hw4 _ _ _ => ?_
      exact R.rel_pure fun _ hw => ht.mono (le_trans hw4 hw)
    cases R.value_sort hv with
    | temp => exact R.rel_pure fun _ hw => hv.mono hw
    | const | global | label => exact hcopy

/-- Alike statements, one after the other. -/
lemma rel_statements (h : Forall₂ R.Alike children children') :
    R.Step w (statements settings children) (statements settings' children') := by
  induction h generalizing w with
  | nil => exact R.rel_pure fun _ _ => trivial
  | cons ht _ ih => exact R.rel_bind (ht.body w) fun _ _ _ _ _ => ih

/-- The bodies of clauses that correspond, at labels that correspond. -/
lemma rel_clauseBodies (h : Forall₂ R.Upright children children') {done done'}
    (hdone : R.Target w done done') {labels labels'} (hlabels : Forall₂ (R.Target w) labels labels')
    (hlen : labels.length = children.length) :
    R.Step w (clauseBodies settings done labels children)
    (clauseBodies settings' done' labels' children') := by
  induction h generalizing w labels labels' with
  | nil => cases hlabels <;> exact R.rel_pure fun _ _ => trivial
  | cons ht hrest ih =>
    cases hlabels with
    | nil => cases hlen
    | cons hlabel hlabels =>
      have hbodies : ∀ {w'}, w ≤ w' → R.Step w' _ _ := fun hw' =>
        ih (hdone.mono hw') (hlabels.imp fun _ _ h => h.mono hw') (Nat.succ.inj hlen)
      cases ht with
      | absent hgaps => exact R.rel_incomplete hgaps
      | node _ _ _ hbody =>
        rw [clauseBodies_node, clauseBodies_node]
        refine R.rel_bind (R.rel_emit (.mark hlabel)) fun w1 hw1 _ _ _ => ?_
        refine R.rel_bind (hbody w1) fun w2 hw2 _ _ _ => ?_
        have h2 : w ≤ w2 := le_trans hw1 hw2
        cases hrest with
        | nil => exact hbodies h2
        | cons =>
          exact R.rel_bind (R.rel_emit (.jump (hdone.mono h2))) fun w3 hw3 _ _ _ =>
            hbodies (le_trans h2 hw3)

section Bodies

variable {condition condition' : Tree} (hcond : R.Conds (cond condition) (cond condition'))
  {body other : Lowering σ Unit} {body' other' : Lowering τ Unit} (hbody : ∀ w, R.Step w body body')

include hcond hbody

lemma rel_conditional :
    R.Step w (conditional condition body none) (conditional condition' body' none) := by
  refine R.rel_bind R.rel_freshLabel fun w1 _ done done' hdone => ?_
  refine R.rel_bind (hcond .none (.some hdone)) fun w2 hw2 _ _ _ => ?_
  exact R.rel_bind (hbody w2) fun w3 hw3 _ _ _ => R.rel_emit (.mark (hdone.mono (le_trans hw2 hw3)))

/-- An `if` with an `else`. -/
lemma rel_conditional_else (hother : ∀ w, R.Step w other other') :
    R.Step w (conditional condition body (some other))
    (conditional condition' body' (some other')) := by
  refine R.rel_bind R.rel_freshLabel fun w1 _ otherwise otherwise' hotherwise => ?_
  refine R.rel_bind R.rel_freshLabel fun w2 hw2 done done' hdone => ?_
  have hotherwise2 : R.Target w2 otherwise otherwise' := hotherwise.mono hw2
  refine R.rel_bind (hcond .none (.some hotherwise2)) fun w3 hw3 _ _ _ => ?_
  refine R.rel_bind (hbody w3) fun w4 hw4 _ _ _ => ?_
  have h4 : w2 ≤ w4 := le_trans hw3 hw4
  refine R.rel_bind (R.rel_emit (.jump (hdone.mono h4))) fun w5 hw5 _ _ _ => ?_
  have h5 : w2 ≤ w5 := le_trans h4 hw5
  refine R.rel_bind (R.rel_emit (.mark (hotherwise2.mono h5))) fun w6 hw6 _ _ _ => ?_
  exact R.rel_bind (hother w6) fun w7 hw7 _ _ _ =>
    R.rel_emit (.mark (hdone.mono (le_trans h5 (le_trans hw6 hw7))))

lemma rel_loop : R.Step w (loop condition body) (loop condition' body') := by
  refine R.rel_bind R.rel_freshLabel fun w1 _ start start' hstart => ?_
  refine R.rel_bind R.rel_freshLabel fun w2 hw2 done done' hdone => ?_
  have hstart2 : R.Target w2 start start' := hstart.mono hw2
  refine R.rel_bind (R.rel_emit (.mark hstart2)) fun w3 hw3 _ _ _ => ?_
  refine R.rel_bind (hcond .none (.some (hdone.mono hw3))) fun w4 hw4 _ _ _ => ?_
  refine R.rel_bind (hbody w4) fun w5 hw5 _ _ _ => ?_
  have h5 : w2 ≤ w5 := le_trans hw3 (le_trans hw4 hw5)
  refine R.rel_bind (R.rel_emit (.jump (hstart2.mono h5))) fun w6 hw6 _ _ _ => ?_
  exact R.rel_emit (.mark (hdone.mono (le_trans h5 hw6)))

end Bodies

end Statements

/-- An `if` succeeds only if its bodies do. -/
lemma succeeds_of_conditional {condition} {body : Lowering σ Unit}
    {other : Option (Lowering σ Unit)} (h : (conditional condition body other).Succeeds) :
    body.Succeeds ∧ ∀ x ∈ other, x.Succeeds := by
  cases other with
  | none =>
    obtain ⟨-, _, hcond⟩ := h.of_bind
    obtain ⟨-, _, hbody⟩ := hcond.of_bind
    exact ⟨hbody.of_bind.1, nofun⟩
  | some other =>
    obtain ⟨-, _, hlabel⟩ := h.of_bind
    obtain ⟨-, _, hcond⟩ := hlabel.of_bind
    obtain ⟨-, _, hbody⟩ := hcond.of_bind
    obtain ⟨hbody, _, hjump⟩ := hbody.of_bind
    obtain ⟨-, _, hmark⟩ := hjump.of_bind
    obtain ⟨-, _, hother⟩ := hmark.of_bind
    refine ⟨hbody, fun x hx => ?_⟩
    obtain rfl := Option.some.inj hx
    exact hother.of_bind.1

/-- A `while` succeeds only if its body does. -/
lemma succeeds_of_loop {condition} {body : Lowering σ Unit} (h : (loop condition body).Succeeds) :
    body.Succeeds := by
  obtain ⟨-, _, hlabel⟩ := h.of_bind
  obtain ⟨-, _, hmark⟩ := hlabel.of_bind
  obtain ⟨-, _, hcond⟩ := hmark.of_bind
  obtain ⟨-, _, hbody⟩ := hcond.of_bind
  exact hbody.of_bind.1

/-! ## Notes -/

namespace Notes

variable {R} {w : R.World} (hnotes : R.Notes)

include hnotes

/-- Constant conditions among nodes with alike children. -/
lemma constantCondition_node (htoken : R.Cited token) (h : Forall₂ R.Alike children children') :
    R.Rel w (fun _ r r' => r' = r ∨ R.lenient ∧ r' = none)
      (constantCondition? (.node kind token value ops children))
      (constantCondition? (.node kind token value ops children')) := by
  cases hop : isTransparent kind ops with
  | true =>
    rw [constantCondition_of_transparent hop, constantCondition_of_transparent hop]
    exact rel_onlyChild h (fun _ _ ht => ht.isAbsent) fun _ _ ht => ht.constant w
  | false =>
    rw [constantCondition_of_plain hop, constantCondition_of_plain hop]
    split
    · exact R.rel_bind (hnotes htoken) fun _ _ _ _ _ => R.rel_pure fun _ _ => .inl rfl
    · exact R.rel_pure fun _ _ => .inl rfl

variable {x : Lowering σ Unit} {y : Lowering τ Unit} (hxy : ∀ w, R.Step w x y)

include hxy

/-- Notes about alike bodies in front of something that lowers the bodies. -/
lemma unreachable (ht : R.Alike t t')
    (hbody : x.Succeeds → (statement settings t : Lowering σ Unit).Succeeds) :
    R.Step w (noteUnreachable t >>= fun _ => x) (noteUnreachable t' >>= fun _ => y) := by
  rcases ht.upright with hupright | ⟨hlenient, hinner⟩
  · suffices hnote : R.Step w (noteUnreachable t) (noteUnreachable t') from R.rel_bind hnote
      fun w' _ _ _ _ => hxy w'
    cases hupright with
    | absent => exact R.rel_pure fun _ _ => trivial
    | node htoken hempty =>
      simp only [noteUnreachable, hempty]
      split
      · exact R.rel_pure fun _ _ => trivial
      · exact hnotes htoken
  · -- The body is no statement, and so the first run stops there.
    refine R.rel_stopped hlenient fun s u code s' hx => ?_
    obtain ⟨_, _, _, _, hstmt⟩ := hbody ⟨s, u, code, s', yields_noteUnreachable_bind.mp hx⟩
    exact not_yields_statement hinner hstmt

/-- A condition in front of a body, with a note if the body is never executed. -/
lemma noting {condition condition'} (hcond : R.Alike condition condition') (ht : R.Alike t t')
    (hbody : x.Succeeds → (statement settings t : Lowering σ Unit).Succeeds) :
    R.Step w
      (do
        if (← constantCondition? condition) = some false then noteUnreachable t
        x)
      (do
        if (← constantCondition? condition') = some false then noteUnreachable t'
        y) := by
  refine R.rel_bind (hcond.constant w) fun w1 _ known known' hknown => ?_
  rcases hknown with rfl | ⟨hlenient, rfl⟩
  · split
    · exact hnotes.unreachable hxy ht hbody
    · exact hxy w1
  · simp only [reduceCtorEq, if_false]
    split
    · exact R.rel_quiet hlenient (quiet_noteUnreachable t) fun _ => hxy w1
    · exact hxy w1

omit hxy

/-- Assignments of twins to a name. -/
lemma assign {nameToken name} (htoken : R.Cited token) (ht : R.Twins t t') :
    R.Step w (assign settings token nameToken name t)
    (assign settings' token nameToken name t') := by
  refine R.rel_bind (R.rel_useName nameToken name) ?_
  rintro w1 - type _ rfl
  cases type with
  | bool => exact R.rel_boolValue ht.condition (R.value_global w1 name)
  | num =>
    refine R.rel_bind (ht.number w1) fun w2 _ v v' hv => ?_
    have hsame : v' = .global name ↔ v = .global name := by cases R.value_sort hv <;> simp
    by_cases hself : v = .global name
    · rw [if_pos hself, if_pos (hsame.mpr hself), hself, hsame.mpr hself]
      exact R.rel_bind (hnotes htoken) fun _ _ _ _ _ => R.rel_selfCopy name
    · rw [if_neg hself, if_neg (mt hsame.mp hself)]
      refine R.rel_emit (.copy (R.value_global w2 name) hv fun x hx => ?_)
      rwa [← Operand.global.inj hx]

/-- Assignments with the same target. -/
lemma assignment (htoken : R.Cited token) (h : Forall₂ R.Alike children children')
    (hread : Option.Rel R.SameRoot children.head? children'.head?) :
    R.Step w (assignment settings token children) (assignment settings' token children') := by
  cases h with
  | nil => exact R.rel_fail token _
  | cons _ hrest =>
    cases hread with
    | some hroot =>
      cases hroot with
      | absent hgaps =>
        cases hrest with
        | nil => exact R.rel_fail token _
        | cons _ hrest =>
          cases hrest <;> first | exact R.rel_incomplete hgaps | exact R.rel_fail token _
      | @node nameKind _ _ _ _ _ _ =>
        cases hrest with
        | nil => cases nameKind <;> exact R.rel_fail token _
        | cons hval hrest =>
          cases nameKind with
          | identifier =>
            cases hrest <;>
              first | exact hnotes.assign htoken hval.toTwins | exact R.rel_fail token _
          | _ => exact R.rel_fail token _

/-- The test of a case with the same value. -/
lemma caseTest (hv : R.Value w v v') {l l'} (hl : R.Target w l l') {seen}
    (hread : Option.Rel R.SameRoot children.head? children'.head?) :
    R.Rel w (fun _ => Eq) (caseTest v seen token l children)
    (caseTest v' seen token l' children') := by
  match children, children', hread with
  | [], [], _ => exact R.rel_fail token _
  | _ :: _, _ :: _, .some hroot =>
    cases hroot with
    | absent hgaps => exact R.rel_incomplete hgaps
    | @node kind valueToken text _ _ _ hcited =>
      cases kind with
      | intLiteral =>
        simp only [ThreeAddress.caseTest]
        cases Text.readInt64 text with
        | error e => exact R.rel_fail valueToken _
        | ok n =>
          have hjump : ∀ w', w ≤ w' → R.Rel w' (fun _ => Eq)
              (emit (.jumpIf .eq v (.const n) l) >>= fun _ => pure n)
              (emit (.jumpIf .eq v' (.const n) l') >>= fun _ => pure n) := fun w' hw' =>
            R.rel_bind (R.rel_emit (.jumpIf (hv.mono hw') (R.value_const w' n) (hl.mono hw')))
            fun _ _ _ _ _ =>
              R.rel_pure fun _ _ => rfl
          dsimp only
          split
          · exact R.rel_bind (hnotes hcited) fun w' hw' _ _ _ => hjump w' hw'
          · exact hjump w (le_refl w)
      | _ => exact R.rel_fail token _

/-- The tests of a `switch`. The labels of its clauses correspond, and none of the clauses is
refused. -/
lemma dispatch {clauses clauses'} (h : Forall₂ R.Alike clauses clauses')
    (hv : R.Value w v v') {d d'} (hd : Option.Rel (R.Target w) d d') {seen} :
    R.Rel w (fun w' r r' => Forall₂ (R.Target w') r.1 r'.1 ∧ Option.Rel (R.Target w') r.2 r'.2 ∧
        Forall₂ R.Upright clauses clauses' ∧ r.1.length = clauses.length)
      (dispatch v seen d clauses) (dispatch v' seen d' clauses') := by
  induction h generalizing w seen d d' with
  | nil => exact R.rel_pure fun _ hw => ⟨.nil, rel_target_mono hd hw, .nil, rfl⟩
  | @cons t t' clauses clauses' ht _ ih =>
    refine R.rel_bind R.rel_freshLabel fun w1 hw1 l l' hl => ?_
    have hmore : ∀ {w2 seen d d'}, w1 ≤ w2 → Option.Rel (R.Target w2) d d' → R.Upright t t' →
        R.Rel w2 (fun w' r r' => Forall₂ (R.Target w') r.1 r'.1 ∧
          Option.Rel (R.Target w') r.2 r'.2 ∧
            Forall₂ R.Upright (t :: clauses) (t' :: clauses') ∧ r.1.length = (t :: clauses).length)
          (dispatch v seen d clauses >>= fun r => pure (l :: r.1, r.2))
          (dispatch v' seen d' clauses' >>= fun r => pure (l' :: r.1, r.2)) := by
      intro w2 seen d d' hw2 hd hupright
      refine R.rel_bind (ih (hv.mono (le_trans hw1 hw2)) hd) ?_
      rintro w3 hw3 r r' ⟨hlabels, hdefault, hclauses, hlen⟩
      refine R.rel_pure fun w4 hw4 => ⟨.cons (hl.mono (le_trans hw2 (le_trans hw3 hw4))) ?_,
        rel_target_mono hdefault hw4, .cons hupright hclauses, congrArg Nat.succ hlen⟩
      exact hlabels.imp fun _ _ h => h.mono hw4
    rcases ht.upright with hupright | ⟨hlenient, hinner⟩
    · have hup := hupright
      cases hupright with
      | absent hgaps => exact R.rel_incomplete hgaps
      | @node kind token _ _ _ _ _ _ hread _ =>
        cases kind with
        | caseClause =>
          refine R.rel_bind (hnotes.caseTest (hv.mono hw1) hl (hread (by decide))) ?_
          rintro w2 hw2 n _ rfl
          exact hmore hw2 (rel_target_mono hd (le_trans hw1 hw2)) hup
        | defaultClause =>
          cases hd with
          | some h => exact R.rel_fail token _
          | none => exact hmore (le_refl w1) (.some hl) hup
        | _ => exact R.rel_fail token _
    · -- What is no clause stops the first run.
      refine R.rel_stopped hlenient fun s r code s' => ?_
      cases t with
      | absent => exact hinner.elim
      | node kind token value ops children =>
        have hkind : kind ∉ NodeKind.outer := hinner
        cases kind <;> first | exact not_yields_fail | exact absurd (by decide) hkind

/-- Conditional nodes with alike children. -/
lemma conditional_node (h : Forall₂ R.Alike children children') :
    R.Step w (statement settings (.node .conditional token value ops children))
      (statement settings' (.node .conditional token value ops children')) := by
  have hlen := h.length_eq
  match children, children', h with
  | [], [], _ | [_], [_], _ => exact R.rel_fail token _
  | [_, _], [_, _], .cons hcond (.cons ht .nil)
  | [_, _, .absent], [_, _, .absent], .cons hcond (.cons ht (.cons _ .nil)) =>
    exact hnotes.noting (fun w => rel_conditional hcond.condition ht.body) hcond ht
      fun h => (succeeds_of_conditional h).1
  | [_, _, .node _ _ _ _ _], [_, _, .node _ _ _ _ _], .cons hcond (.cons ht (.cons hother .nil)) =>
    have hif : ∀ w, R.Step w _ _ := fun w =>
      rel_conditional_else hcond.condition ht.body hother.body
    have hthen : ∀ w, R.Step w _ _ := fun w => hnotes.unreachable (w := w) hif ht
      fun h => (succeeds_of_conditional h).1
    have helse : ∀ w, R.Step w _ _ := fun w => hnotes.unreachable (w := w) hif hother
      fun h => (succeeds_of_conditional h).2 _ rfl
    refine R.rel_bind (hcond.constant w) fun w1 _ known known' hknown => ?_
    rcases hknown with rfl | ⟨hlenient, rfl⟩
    · match known' with
      | none => exact hif w1
      | some true => exact helse w1
      | some false => exact hthen w1
    · match known with
      | none => exact hif w1
      | some true | some false =>
        exact R.rel_quiet hlenient (quiet_noteUnreachable _) fun _ => hif w1
  | [_, _, .absent], [_, _, .node _ _ _ _ _], .cons _ (.cons _ (.cons hother .nil))
  | [_, _, .node _ _ _ _ _], [_, _, .absent], .cons _ (.cons _ (.cons hother .nil)) =>
      cases hother.isAbsent
  | _ :: _ :: u :: _ :: _, _ :: _ :: u' :: _ :: _, _ =>
      cases u <;> cases u' <;> exact R.rel_fault _ hlen

/-- Selection nodes with alike children. -/
lemma selection_node (h : Forall₂ R.Alike children children') :
    R.Step w (statement settings (.node .selection token value ops children))
      (statement settings' (.node .selection token value ops children')) := by
  cases h with
  | nil => exact R.rel_fail token _
  | cons ht hclauses =>
    refine R.rel_bind (rel_scrutineeTemp ht.toTwins ht.token_eq) fun w1 _ v v' hv => ?_
    refine R.rel_bind R.rel_freshLabel fun w2 hw2 done done' hdone => ?_
    refine R.rel_bind (hnotes.dispatch hclauses (hv.mono hw2) .none) ?_
    rintro w3 hw3 ⟨labels, default?⟩ ⟨labels', default?'⟩ ⟨hlabels, hdefault, hupright, hlen⟩
    have hjump : R.Target w3 (default?.getD done) (default?'.getD done') := by
      cases hdefault with
      | none => exact hdone.mono hw3
      | some h => exact h
    refine R.rel_bind (R.rel_emit (.jump hjump)) fun w4 hw4 _ _ _ => ?_
    have hdone4 : R.Target w4 done done' := hdone.mono (le_trans hw3 hw4)
    refine R.rel_bind (rel_clauseBodies hupright hdone4 (hlabels.imp fun _ _ h =>
      h.mono hw4) hlen) ?_
    exact fun w5 hw5 _ _ _ => R.rel_emit (.mark (hdone4.mono hw5))

variable (htoken : R.Cited token) (h : List.Forall₂ R.Alike children children')
  (hread : kind ∈ NodeKind.readers → Option.Rel R.SameRoot children.head? children'.head?)

include htoken h hread

/-- Nodes with alike children as statements. -/
lemma statement_node : R.Step w (statement settings (.node kind token value ops children))
    (statement settings' (.node kind token value ops children')) := by
  cases kind with
  | program | block =>
    exact rel_statements h
  | declaration => exact R.rel_pure fun _ _ => trivial
  | statement =>
    match children, children', h with
    | [], [], _ => exact R.rel_pure fun _ _ => trivial
    | [_], [_], .cons ht .nil =>
      exact ht.body w
    | _ :: _ :: _, _ :: _ :: _, h => exact R.rel_fault _ h.length_eq
  | assignment =>
    exact hnotes.assignment htoken h (hread (by decide))
  | conditional => exact hnotes.conditional_node h
  | loop =>
    match children, children', h with
    | [_, _], [_, _], .cons hcond (.cons ht .nil) =>
      exact hnotes.noting (fun w => rel_loop hcond.condition ht.body) hcond ht succeeds_of_loop
    | [], [], h | [_], [_], h | _ :: _ :: _ :: _, _ :: _ :: _ :: _, h =>
        exact R.rel_fault _ h.length_eq
  | selection => exact hnotes.selection_node h
  | _ => exact R.rel_fail token _

/-- Nodes with alike children are alike, if what they read themselves is the same. -/
lemma alike_node :
    R.Alike (.node kind token value ops children) (.node kind token value ops children') where
  toTwins := .node (h.imp fun _ _ ht => ht.toTwins)
  constant _ := hnotes.constantCondition_node htoken h
  body _ := hnotes.statement_node htoken h hread
  upright := by
    refine .inl (.node htoken ?_ hread fun w => ?_)
    · cases h <;> rfl
    · cases h with
      | nil => cases kind <;> exact R.rel_pure fun _ _ => trivial
      | cons ht hrest =>
        cases kind with
        | caseClause => exact rel_statements hrest
        | _ => exact rel_statements (.cons ht hrest)

omit htoken h hread

/-- A tree is alike to itself. -/
lemma alike (ht : R.Admits t) : R.Alike t t := by
  induction ht with
  | absent hgaps =>
    exact ⟨.absent hgaps, fun _ => R.rel_incomplete hgaps, fun _ => R.rel_fail _ _,
      .inl (.absent hgaps)⟩
  | @node kind token value ops children htoken hchildren ih =>
    refine hnotes.alike_node htoken (forall₂_same.mpr ih) fun _ => ?_
    cases children with
    | nil => exact .none
    | cons t _ =>
      cases hchildren t (.head _) with
      | absent hgaps => exact .some (.absent hgaps)
      | node htoken => exact .some (.node htoken)

end Notes

end Lockstep

end ThreeAddress
