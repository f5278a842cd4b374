import ThreeAddress.Proofs.Lowering.Refusal

/-!
# Code that control can come to

A condition that is a truth value is the only tree whose code leaves one of its exits unused.
Without such conditions every part of a program is within reach: if control can come to the code of
a part, it can come to every place in it, to all exits of a condition (`ConditionCode.accessible`),
and to the place behind a statement (`StatementCode.accessible`). The proofs are by induction on the
translation scheme.
-/

namespace ThreeAddress

open List Lowering

/-! ## Parts of trees -/

namespace Tree.Contains

variable {root a b c : Tree} {kind : NodeKind} {token : Token} {value : String}
  {ops : List TokenKind} {rest : List Tree}

lemma first (h : root.Contains (.node kind token value ops (a :: rest))) : root.Contains a :=
    h.child mem_cons_self

lemma second (h : root.Contains (.node kind token value ops (a :: b :: rest))) : root.Contains b :=
  h.child (mem_cons_of_mem _ mem_cons_self)

lemma third (h : root.Contains (.node kind token value ops (a :: b :: c :: rest))) :
    root.Contains c :=
  h.child (mem_cons_of_mem _ (mem_cons_of_mem _ mem_cons_self))

/-- A visit of a tree comes to the nodes of its parts. -/
lemma mem_visit {t} (h : root.Contains t) {node} (hnode : node ∈ t.visit fun _ => false) :
    node ∈ root.visit fun _ => false := by
  induction h with
  | self => exact hnode
  | child _ ht ih =>
    refine ih ?_
    exact mem_cons_of_mem _ (mem_visitAll ht hnode)

end Tree.Contains

/-- A tree without truth values. -/
def Tree.Unliteral (root : Tree) : Prop :=
  ∀ token value ops children, ¬ root.Contains (.node .boolLiteral token value ops children)

/-! ## Pieces of code -/

/-- Control can come to every place of a piece of code. -/
def Passed (code : List Instr) (place : Nat) (piece : List Instr) : Prop :=
  ∀ j, j < piece.length → Accessible code (place + j)

/-- Control can come to the marks of a label. -/
def LabelAccessible (code : List Instr) (l : Label) : Prop := ∀ j, MarkedAt code l.name j →
    Accessible code j

/-- Control can come to the exits of a condition; an exit that is absent is the place behind the
code. -/
def ExitsAccessible (code : List Instr) (behind : Nat) (e : Exits) : Prop :=
  ∀ b, match e b with
    | some l => LabelAccessible code l
    | none => Accessible code behind

section Pieces

variable {code c c1 c2 : List Instr} {p : Nat} {i : Instr} {l : Label} {e : Exits}

lemma passed_nil : Passed code p [] := fun j hj => absurd hj (Nat.not_lt_zero j)

lemma passed_single (h : Accessible code p) : Passed code p [i] := by
  intro j hj
  obtain rfl : j = 0 := Nat.lt_one_iff.mp hj
  exact h

lemma Passed.append (h1 : Passed code p c1) (h2 : Passed code (p + c1.length) c2) :
    Passed code p (c1 ++ c2) := by
  intro j hj
  by_cases hlt : j < c1.length
  · exact h1 j hlt
  · have hplace : p + j = p + c1.length + (j - c1.length) := by omega
    rw [hplace]
    exact h2 _ (by rw [length_append] at hj; omega)

/-- Two pieces of code, with what is known about the place behind them. -/
lemma Passed.then {Q : Nat → Prop} (h1 : Passed code p c1)
    (h2 : Passed code (p + c1.length) c2 ∧ Q (p + c1.length + c2.length)) :
    Passed code p (c1 ++ c2) ∧ Q (p + (c1 ++ c2).length) := by
  rw [length_append, ← Nat.add_assoc]
  exact ⟨h1.append h2.1, h2.2⟩

lemma LabelAccessible.at_mark (h : LabelAccessible code l) (hp : code[p]? = some (.mark l)) :
    Accessible code p := h p ⟨_, l, hp, rfl, rfl, rfl⟩

lemma Accessible.jump (h : Accessible code p) (hp : code[p]? = some i) (hop : i.op.isJump = true)
    (hl : i.target = some l) : LabelAccessible code l := fun _ hj => h.step (.taken hp hop hl hj)

lemma Accessible.next (h : Accessible code p) (hp : code[p]? = some i) (hop : i.op ≠ .jump) :
    Accessible code (p + 1) := h.step (.next hp hop)

lemma Accessible.mark (h : Accessible code p) (hp : code[p]? = some (.mark l)) :
    Passed code p [.mark l] ∧ Accessible code (p + 1) := ⟨passed_single h, h.next hp nofun⟩

/-- Control passes through code without unconditional jumps. -/
lemma Accessible.straight (h : Accessible code p) (hcode : CodeAt code p c)
    (hc : ∀ i ∈ c, i.op ≠ .jump) :
    Passed code p c ∧ Accessible code (p + c.length) := by
  induction c generalizing p with
  | nil => exact ⟨passed_nil, h⟩
  | cons i c ih =>
    obtain ⟨hi, hrest⟩ := forall_mem_cons.mp hc
    exact (passed_single (i := i) h).then (ih (h.next hcode.head hi) hcode.tail hrest)

lemma ExitsAccessible.of_some {behind b} (h : ExitsAccessible code behind e) (hb : e b = some l) :
    LabelAccessible code l := by
  have hexit := h b
  rwa [hb] at hexit

lemma ExitsAccessible.of_none {behind b} (h : ExitsAccessible code behind e) (hb : e b = none) :
    Accessible code behind := by
  have hexit := h b
  rwa [hb] at hexit

lemma exitsAccessible_of_both {behind x y}
    (htrue : match x with | some l => LabelAccessible code l | none => Accessible code behind)
    (hfalse : match y with | some l => LabelAccessible code l | none => Accessible code behind)
    (hx : e true = x) (hy : e false = y) : ExitsAccessible code behind e := by
  subst hx hy
  intro b
  cases b with
  | true => exact htrue
  | false => exact hfalse

/-- A comparison goes to all of its exits. -/
lemma accessible_branchCode {op left right} (hexit : ∃ b, e b ≠ none)
    (hcode : CodeAt code p (branchCode op left right e)) (h : Accessible code p) :
    Passed code p (branchCode op left right e) ∧
    ExitsAccessible code (p + (branchCode op left right e).length) e := by
  unfold branchCode at hcode ⊢
  cases htrue : e true with
  | some t =>
    cases hfalse : e false with
    | some f =>
      simp only [htrue, hfalse] at hcode ⊢
      have hnext := h.next hcode.head nofun
      exact ⟨(passed_single h).append (passed_single hnext),
        exitsAccessible_of_both (h.jump hcode.head rfl rfl)
        (hnext.jump hcode.tail.head rfl rfl) htrue hfalse⟩
    | none =>
      simp only [htrue, hfalse] at hcode ⊢
      exact ⟨passed_single h, exitsAccessible_of_both (h.jump hcode.head rfl rfl)
        (h.next hcode.head nofun) htrue hfalse⟩
  | none =>
    cases hfalse : e false with
    | some f =>
      simp only [htrue, hfalse] at hcode ⊢
      exact ⟨passed_single h, exitsAccessible_of_both (h.next hcode.head nofun)
        (h.jump hcode.head rfl rfl) htrue hfalse⟩
    | none =>
      obtain ⟨b, hb⟩ := hexit
      cases b with
      | true => exact absurd htrue hb
      | false => exact absurd hfalse hb

/-- Both truth values are written behind a condition, and control goes on. -/
lemma accessible_valueCode {target k} (hcode : CodeAt code p (valueCode target k))
    (h : ExitsAccessible code p (valueExits k)) :
    Passed code p (valueCode target k) ∧ Accessible code (p + (valueCode target k).length) := by
  have hwhole : valueCode target k = [.mark (labelOf k), .copy target (.const 1)] ++
      ([.jump (labelOf (k + 2))] ++ [.mark (labelOf (k + 1)), .copy target (.const 0),
        .mark (labelOf (k + 2))]) :=
    rfl
  rw [hwhole] at hcode ⊢
  -- the mark of either truth value is an exit of the condition
  have hone := (h.of_some (b := true) rfl).at_mark hcode.left.head
  obtain ⟨hfirst, hjump⟩ := hone.straight hcode.left (by simp [Instr.mark, Instr.copy])
  have hzero := (h.of_some (b := false) rfl).at_mark hcode.right.right.head
  obtain ⟨hlast, hend⟩ := hzero.straight hcode.right.right (by simp [Instr.mark, Instr.copy])
  exact hfirst.then ((passed_single hjump).then ⟨hlast, hend⟩)

end Pieces

/-! ## Expressions -/

section Straight

variable {Γ : Scope} {t : Tree} {n n' : Nat} {v target : Operand} {c : List Instr}

lemma NumberCode.op_ne_jump (h : NumberCode Γ t n v c n') : ∀ i ∈ c, i.op ≠ .jump := by
  intro i hi hop
  have hjump := (h.arithmetic i hi).isJump_eq_false
  rw [hop] at hjump
  cases hjump

lemma NumberCode.copied_op_ne_jump (h : NumberCode Γ t n v c n') :
    ∀ i ∈ c ++ [.copy target v], i.op ≠ .jump :=
  forall_mem_append.mpr ⟨h.op_ne_jump, forall_mem_singleton.mpr nofun⟩

end Straight

section Conditions

variable {code : List Instr} {root : Tree} {Γ : Scope}

mutual

/-- Control that comes to the code of a condition without truth values can come to every place in it
and to all of its exits. -/
lemma ConditionCode.accessible (hlit : root.Unliteral) {t e n c n' p}
    (h : ConditionCode Γ t e n c n') (ht : root.Contains t) (hexit : ∃ b, e b ≠ none)
    (hcode : CodeAt code p c) (hp : Accessible code p) :
    Passed code p c ∧ ExitsAccessible code (p + c.length) e := by
  cases h with
  | wrapper _ hinner => exact hinner.accessible hlit ht.first hexit hcode hp
  | literal b => exact absurd ht (hlit _ _ _ _)
  | «variable» _ => exact accessible_branchCode hexit hcode hp
  | @negation _ _ _ odd _ _ _ _ _ _ hinner =>
    obtain ⟨b, hb⟩ := hexit
    have hexit' : ∃ b, e (b != odd) ≠ none :=
      ⟨b != odd, by rwa [Bool.bne_assoc, bne_self_eq_false, Bool.bne_false]⟩
    obtain ⟨hpassed, hexits⟩ := hinner.accessible hlit ht.first hexit' hcode hp
    refine ⟨hpassed, fun b => ?_⟩
    have hswapped := hexits (b != odd)
    simp only [Bool.bne_assoc, bne_self_eq_false, Bool.bne_false] at hswapped
    exact hswapped
  | numbers _ hleft hright =>
    have hstraight := forall_mem_append.mpr ⟨hleft.op_ne_jump, hright.op_ne_jump⟩
    obtain ⟨hpassed, hend⟩ := hp.straight hcode.left hstraight
    exact hpassed.then (Q := (ExitsAccessible code · e))
      (accessible_branchCode hexit hcode.right hend)
  | booleans _ hleft hright =>
    have hboth : ∀ k, ∃ b, valueExits k b ≠ none := fun k => ⟨true, nofun⟩
    obtain ⟨hpassed1, hexits1⟩ := hleft.accessible hlit ht.first (hboth _) hcode.left.left.left hp
    obtain ⟨hval1, hend1⟩ := hpassed1.then (accessible_valueCode hcode.left.left.right hexits1)
    obtain ⟨hpassed2, hexits2⟩ :=
      hright.accessible hlit ht.second (hboth _) hcode.left.right.left hend1
    have hval2 := hpassed2.then (accessible_valueCode hcode.left.right.right hexits2)
    obtain ⟨hvalues, hend2⟩ := hval1.then hval2
    exact hvalues.then (Q := (ExitsAccessible code · e))
      (accessible_branchCode hexit hcode.right hend2)
  | logic hchain =>
    exact hchain.accessible hlit (fun t hmem => ht.child hmem) hexit hcode hp

/-- Control that comes to the code of a chain without truth values can come to every place in it and
to all of its exits. -/
lemma LogicCode.accessible (hlit : root.Unliteral) {ops operands e n c n' p}
    (h : LogicCode Γ ops operands e n c n') (ht : ∀ t ∈ operands, root.Contains t)
    (hexit : ∃ b, e b ≠ none) (hcode : CodeAt code p c) (hp : Accessible code p) : Passed code p c ∧
    ExitsAccessible code (p + c.length) e := by
  cases h with
  | last hlast => exact hlast.accessible hlit (ht _ mem_cons_self) hexit hcode hp
  | @leaving _ d _ _ _ _ l _ _ _ _ _ _ _ hleft hrest =>
    obtain ⟨hhead, htail⟩ := forall_mem_cons.mp ht
    obtain ⟨hpassed, hexits⟩ := hleft.accessible hlit hhead ⟨d, nofun⟩ hcode.left hp
    have hmiddle := (hexits.of_some (b := !d) (by simp [decidingExits])).at_mark hcode.right.head
    obtain ⟨hmark, hnext⟩ := hmiddle.mark hcode.right.head
    exact hpassed.then (Q := (ExitsAccessible code · e))
      (hmark.then (Q := (ExitsAccessible code · e))
        (hrest.accessible hlit htail hexit hcode.right.tail hnext))
  | @skipping _ d _ _ _ _ _ _ _ _ _ _ hnone hleft hrest =>
    obtain ⟨hhead, htail⟩ := forall_mem_cons.mp ht
    obtain ⟨hpassed, hexits⟩ := hleft.accessible hlit hhead ⟨d, nofun⟩ hcode.left hp
    have hmiddle := (hexits.of_some (b := !d) (by simp [decidingExits])).at_mark hcode.right.head
    obtain ⟨hmark, hnext⟩ := hmiddle.mark hcode.right.head
    obtain ⟨hpassed', hexits'⟩ := hrest.accessible hlit htail hexit hcode.right.tail.left hnext
    have hskip := (hexits.of_some (b := d) (by simp [decidingExits])).at_mark
      hcode.right.tail.right.head
    obtain ⟨hall, hend⟩ := hpassed.then
      (hmark.then (hpassed'.then (hskip.mark hcode.right.tail.right.head)))
    refine ⟨hall, fun b => ?_⟩
    have hb := hexits' b
    cases heb : e b with
    | some l =>
      rw [heb] at hb
      exact hb
    | none => exact hend

end

end Conditions

/-! ## Statements -/

lemma mem_of_mem_clauseBody {kind children t}
    (h : t ∈ clauseBody kind children) : t ∈ children := by
  unfold clauseBody at h
  split at h
  · exact mem_cons_of_mem _ h
  · exact h

section Statements

variable {code : List Instr} {root : Tree} {settings : Settings} {Γ : Scope}
  {c : List Instr} {p : Nat}

/-- Control passes through the code of the scrutinee of a `switch`. -/
lemma ScrutineeCode.accessible {t n n' v} (h : ScrutineeCode Γ t n v c n') (hcode : CodeAt code p c)
    (hp : Accessible code p) : Passed code p c ∧ Accessible code (p + c.length) := by
  cases h with
  | computed hval => exact hp.straight hcode hval.op_ne_jump
  | copied hval _ => exact hp.straight hcode hval.copied_op_ne_jump

/-- Control passes through the tests of a `switch`, and from them it can come to the labels of all
cases. -/
lemma DispatchCode.accessible {v d d' clauses n n' labels}
    (h : DispatchCode v d clauses n c labels d' n') (hcode : CodeAt code p c)
    (hp : Accessible code p) :
    (Passed code p c ∧ Accessible code (p + c.length)) ∧
    ∀ l ∈ labels, LabelAccessible code l ∨ d' = some l := by
  induction h generalizing p with
  | done => exact ⟨⟨passed_nil, hp⟩, forall_mem_nil _⟩
  | case _ _ ih =>
    obtain ⟨hthrough, hlabels⟩ := ih hcode.tail (hp.next hcode.head nofun)
    exact ⟨(passed_single hp).then hthrough,
      forall_mem_cons.mpr ⟨.inl (hp.jump hcode.head rfl rfl), hlabels⟩⟩
  | default hrest ih =>
    obtain ⟨hthrough, hlabels⟩ := ih hcode hp
    exact ⟨hthrough, forall_mem_cons.mpr ⟨.inr (hrest.no_second_default rfl).2, hlabels⟩⟩

mutual

/-- Control that comes to the code of a statement without truth values can come to every place in it
and to the place behind it. -/
lemma StatementCode.accessible (hlit : root.Unliteral) {t n c n' p}
    (h : StatementCode settings Γ t n c n') (ht : root.Contains t) (hcode : CodeAt code p c)
    (hp : Accessible code p) :
    Passed code p c ∧ Accessible code (p + c.length) := by
  match h with
  | .sequence _ hchildren => exact hchildren.accessible hlit (fun t hmem => ht.child hmem) hcode hp
  | .declaration | .empty => exact ⟨passed_nil, hp⟩
  | .inner hinner => exact hinner.accessible hlit ht.first hcode hp
  | .boolAssignment _ hval =>
    obtain ⟨hpassed, hexits⟩ := hval.accessible hlit ht.second ⟨true, nofun⟩ hcode.left hp
    exact hpassed.then (accessible_valueCode hcode.right hexits)
  | .numAssignment _ hval _ => exact hp.straight hcode hval.copied_op_ne_jump
  | .selfAssignment _ hval _ => exact hp.straight hcode hval.op_ne_jump
  | .conditional _ hcond hthen =>
    obtain ⟨hpassed1, hexits⟩ := hcond.accessible hlit ht.first ⟨false, nofun⟩ hcode.left.left hp
    obtain ⟨hpassed2, -⟩ := hthen.accessible hlit ht.second hcode.left.right
      (hexits.of_none (b := true) rfl)
    have hdone := (hexits.of_some (b := false) rfl).at_mark hcode.right.head
    exact (hpassed1.append hpassed2).then (hdone.mark hcode.right.head)
  | .alternative hcond hthen helse =>
    obtain ⟨hpassed1, hexits⟩ :=
      hcond.accessible hlit ht.first ⟨false, nofun⟩ hcode.left.left.left.left hp
    obtain ⟨hthen, hjump⟩ := hpassed1.then (hthen.accessible hlit ht.second
      hcode.left.left.left.right (hexits.of_none (b := true) rfl))
    have hmark := (hexits.of_some (b := false) rfl).at_mark hcode.left.left.right.tail.head
    obtain ⟨hmarked, helse0⟩ := hthen.then
      ((passed_single hjump).then (hmark.mark hcode.left.left.right.tail.head))
    obtain ⟨helse, hend⟩ := hmarked.then (helse.accessible hlit ht.third hcode.left.right helse0)
    exact helse.then (hend.mark hcode.right.head)
  | .loop hcond hbody =>
    obtain ⟨hmark, hstart⟩ := hp.mark hcode.head
    obtain ⟨hpassed, hexits⟩ := hcond.accessible hlit ht.first
      ⟨false, nofun⟩ hcode.tail.left.left hstart
    obtain ⟨hbody, hjump⟩ := hpassed.then (hbody.accessible hlit ht.second
      hcode.tail.left.right (hexits.of_none (b := true) rfl))
    have hdone := (hexits.of_some (b := false) rfl).at_mark hcode.tail.right.tail.head
    exact hmark.then (hbody.then
      ((passed_single hjump).then (hdone.mark hcode.tail.right.tail.head)))
  | @StatementCode.selection _ _ _ _ _ _ _ n _ c1 _ c2 labels d _ c3 _ hscrut hdisp hclauses =>
    obtain ⟨hpassed1, hend1⟩ := hscrut.accessible hcode.left.left.left.left hp
    obtain ⟨htests, hcases⟩ := hdisp.accessible hcode.left.left.left.right hend1
    obtain ⟨hpassed2, hend2⟩ := hpassed1.then htests
    have hjump := hend2.jump hcode.left.left.right.head rfl rfl
    have hlabels : ∀ l ∈ labels, LabelAccessible code l := by
      intro l hl
      rcases hcases l hl with haccessible | hdefault
      · exact haccessible
      · rwa [hdefault, Option.getD_some] at hjump
    obtain ⟨hpassed3, hend3⟩ := hclauses.accessible hlit
      (fun t hmem => ht.child (mem_cons_of_mem _ hmem)) hlabels hcode.left.right
    -- a `switch` without clauses jumps to its end, and the last clause of any other falls through
    -- to it
    have hdone : Accessible code
        (p + (c1 ++ c2 ++ [Instr.jump (d.getD (labelOf n.labels))] ++ c3).length) := by
      cases labels with
      | nil =>
        cases hdisp
        exact hjump.at_mark hcode.right.head
      | cons l labels =>
        have hfall := hend3 (cons_ne_nil l labels)
        rwa [Nat.add_assoc, ← length_append] at hfall
    exact ((hpassed2.append (passed_single hend2)).append hpassed3).then
      (hdone.mark hcode.right.head)

/-- The same for several statements. -/
lemma StatementsCode.accessible (hlit : root.Unliteral) {ts n c n' p}
    (h : StatementsCode settings Γ ts n c n') (ht : ∀ t ∈ ts, root.Contains t)
    (hcode : CodeAt code p c) (hp : Accessible code p) :
    Passed code p c ∧ Accessible code (p + c.length) := by
  match h with
  | .nil => exact ⟨passed_nil, hp⟩
  | .cons hfirst hrest =>
    obtain ⟨hhead, htail⟩ := forall_mem_cons.mp ht
    obtain ⟨hpassed, hend⟩ := hfirst.accessible hlit hhead hcode.left hp
    exact hpassed.then (hrest.accessible hlit htail hcode.right hend)

/-- Control that can come to the labels of all clauses of a `switch` can come to every place in
their code, and behind it, unless there are none. -/
lemma ClausesCode.accessible (hlit : root.Unliteral) {done labels clauses n c n' p}
    (h : ClausesCode settings Γ done labels clauses n c n') (ht : ∀ t ∈ clauses, root.Contains t)
    (hlabels : ∀ l ∈ labels, LabelAccessible code l) (hcode : CodeAt code p c) :
    Passed code p c ∧ (labels ≠ [] → Accessible code (p + c.length)) := by
  match h with
  | .nil => exact ⟨passed_nil, fun hne => absurd rfl hne⟩
  | .cons hbody hrest =>
    obtain ⟨hclause, hothers⟩ := forall_mem_cons.mp ht
    obtain ⟨hlabel, hlabels'⟩ := forall_mem_cons.mp hlabels
    obtain ⟨hmarked, hmark⟩ := (hlabel.at_mark hcode.head).mark hcode.head
    obtain ⟨hpassed1, hend1⟩ := hbody.accessible hlit
      (fun t hmem => hclause.child (mem_of_mem_clauseBody hmem)) hcode.tail.left.left hmark
    obtain ⟨hpassed2, hend2⟩ := hrest.accessible hlit hothers hlabels' hcode.tail.right
    cases hrest with
    | nil =>
      refine ⟨hmarked.append ((hpassed1.append passed_nil).append hpassed2), fun _ => ?_⟩
      simpa [leaveCode, Nat.add_assoc, Nat.add_comm 1] using hend1
    | cons _ _ =>
      obtain ⟨hall, hend⟩ := hmarked.then ((hpassed1.append (passed_single hend1)).then
        ⟨hpassed2, hend2 (cons_ne_nil _ _)⟩)
      exact ⟨hall, fun _ => hend⟩

end

end Statements

/-! ## Programs -/

/-- In the code of a program without truth values every instruction is reachable. -/
theorem lowered_code_is_reachable (settings : Settings) (state : LowerState) (root : Tree)
    (hlower : (lower settings root state).outcome = .ok ())
    (hliteral : ∀ token value ops children,
      ¬ root.Contains (.node .boolLiteral token value ops children)) :
    reachable (lower settings root state).code =
      .ok (List.replicate (lower settings root state).code.length true) := by
  obtain ⟨seen, hreachable, hlength, hseen⟩ := reachable_iff_accessible (lower_checkLabels hlower)
  have hpassed := ((lower_follows (yields_of_outcome hlower)).1.accessible hliteral .self
    (.self _) .refl).1
  rw [hreachable, ← hlength]
  refine congrArg Except.ok (List.eq_replicate_iff.mpr ⟨rfl, fun b hb => ?_⟩)
  obtain ⟨i, hi⟩ := List.getElem?_of_mem hb
  have hlt : i < (lower settings root state).code.length :=
    hlength ▸ (List.getElem?_eq_some_iff.mp hi).1
  have htrue := (hseen i).mpr ⟨hlt, by simpa using hpassed i hlt⟩
  exact Option.some.inj (hi.symm.trans htrue)

/-- A program with a loop on two comparisons and a `switch` without default in it. -/
def guardedSwitch : Tree :=
  let x := Tree.leaf .identifier {} "x"
  let number text := Tree.leaf .intLiteral {} text
  let less a b := Tree.node .comparison {} "" [.less] [a, b]
  .branch .program {} [.node .declaration {} "num" [] [x],
    .branch .loop {} [.node .logic {} "" [.orOr] [less x (number "3"), less (number "5") x],
      .branch .selection {} [x, .branch .caseClause {}
        [number "1", .branch .assignment {} [x, number "4"]],
        .branch .caseClause {} [number "1"]]]]

/-- Both clauses of the `switch` are reachable, although the second is never selected. -/
theorem guardedSwitch_is_reachable : (lower {} guardedSwitch {}).outcome = .ok () ∧
    (∀ token value ops children,
      ¬ guardedSwitch.Contains (.node .boolLiteral token value ops children)) ∧
    (lower {} guardedSwitch {}).code.length = 17 ∧
    reachable (lower {} guardedSwitch {}).code = .ok (List.replicate 17 true) := by
  have hlower : (lower {} guardedSwitch {}).outcome = .ok () := by decide +kernel
  have hlength : (lower {} guardedSwitch {}).code.length = 17 := by decide +kernel
  have hliteral : ∀ token value ops children,
      ¬ guardedSwitch.Contains (.node .boolLiteral token value ops children) := by
    intro token value ops children h
    have hkind : NodeKind.boolLiteral ∈ (guardedSwitch.visit fun _ => false).map Prod.fst :=
      List.mem_map_of_mem (h.mem_visit List.mem_cons_self)
    exact absurd hkind (by decide)
  refine ⟨hlower, hliteral, hlength, ?_⟩
  have hreachable := lowered_code_is_reachable {} {} guardedSwitch
  rw [hreachable hlower hliteral, hlength]

end ThreeAddress
