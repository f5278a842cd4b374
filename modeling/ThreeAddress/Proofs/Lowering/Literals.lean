import ThreeAddress.Proofs.Lowering.Follows
import ThreeAddress.Proofs.Names.Range
import ThreeAddress.Proofs.Parser.Origins

/-!
# Constants that are copied

The numbers in the expressions of a source text are words of digits; a sign in front of a number is
an operator. Only the value of a case may carry a sign of its own. So the constants that the code of
a source text copies are never negative: they are written as numbers in expressions, or are truth
values.
-/

namespace ThreeAddress

open List Lowering

variable {file : Int} {source : List Char} {code : List Instr} {n n' : Nat} {v : Operand}
  {settings : Settings} {t : Tree}

/-! ## Texts without a sign -/

/-- A text does not begin with a minus sign. -/
def Text.Unsigned (text : String) : Prop := text.toList.head? ≠ some '-'

/-- A number that is read from a text without a minus sign is not negative. -/
lemma Text.readInt64_nonneg {text w} (htext : Unsigned text)
    (h : readInt64 text = .ok w) : 0 ≤ w.toInt := by
  unfold readInt64 at h
  split at h
  · rename_i cs hcs
    exact absurd (by rw [hcs]; rfl) htext
  · split at h
    · rename_i n _
      split at h
      · rename_i hn
        cases h
        rw [Int64.toInt_ofNat_of_lt hn]
        exact Int.natCast_nonneg n
      · cases h
    · cases h

/-- The word of a number has no sign. -/
lemma Spelled.unsigned {value word} (h : Spelled .number value word) : Text.Unsigned value := by
  cases h with
  | fixed hkind => cases hkind
  | number hc =>
    rw [Text.Unsigned, String.toList_ofList, head?_cons]
    intro heq
    cases heq
    cases hc

/-- The numbers among the tokens of a source text have no sign. -/
lemma Token.unsigned_of_mem_scan {t} (ht : t ∈ scan settings file source)
    (hkind : t.kind = .number) :
    Text.Unsigned t.value := by
  obtain ⟨word, hword⟩ := spelled_of_mem_scan ht (by simp [hkind])
  exact (hkind ▸ hword).unsigned

/-! ## Literals in trees -/

/-- The numbers in a tree have no sign, those that are the values of cases left aside. -/
inductive Tree.PlainLiterals : Tree → Prop
  | absent : Tree.PlainLiterals .absent
  | node {kind token value ops children} (hvalue : kind = .intLiteral → Text.Unsigned value)
      (hchildren : ∀ t ∈ clauseBody kind children, Tree.PlainLiterals t) :
      Tree.PlainLiterals (.node kind token value ops children)

namespace Tree

variable {kind : NodeKind} {token : Token} {value : String} {ops : List TokenKind}
  {children : List Tree}

lemma PlainLiterals.of_node (h : PlainLiterals (.node kind token value ops children)) :
    (kind = .intLiteral → Text.Unsigned value) ∧ ∀ t ∈ clauseBody kind children,
    PlainLiterals t := by
  cases h with
  | node hval hchildren => exact ⟨hval, hchildren⟩

/-- The children of a node that is no case have plain literals if the node has. -/
lemma PlainLiterals.parts (h : PlainLiterals (.node kind token value ops children))
    (hcase : kind ≠ .caseClause) : ∀ t ∈ children, PlainLiterals t := by
  have hparts := h.of_node.2
  rwa [clauseBody_of_ne hcase] at hparts

/-- The literals of a tree are plain if the numbers among the tokens it stems from have no sign. -/
lemma StemsFrom.plainLiterals {tokens} (h : t.StemsFrom tokens)
    (htokens : ∀ x ∈ tokens, x.kind = .number → Text.Unsigned x.value) : t.PlainLiterals := by
  induction h with
  | node hval _ _ ih =>
    refine .node (fun hkind => ?_) ih
    obtain ⟨x, hx, hnum, rfl⟩ := hval hkind
    exact htokens x hx hnum

end Tree

/-! ## Copied constants -/

/-- The constant that an instruction copies, if it copies one, is not negative. -/
def Instr.CopiesPlain (i : Instr) : Prop := ∀ dst w, i = .copy dst (.const w) → 0 ≤ w.toInt

lemma copiesPlain_of_result {i : Instr} (h : i.result = none) : i.CopiesPlain := by
  rintro dst w rfl
  cases h

/-- A copy of a constant that is not negative, or of no constant. -/
lemma copiesPlain_copy {dst} (h : ∀ w, v = .const w → 0 ≤ w.toInt) :
    (Instr.copy dst v).CopiesPlain := by
  intro dst' w heq
  injection heq with _ _ hargs
  injection hargs with hargs
  exact h w (Option.some.inj hargs)

section Code

variable {Γ : Scope}

/-- The value of a chain is that of its first part, or in a temporary. -/
lemma ChainCode.value_cases {kind acc ops operands}
    (h : ChainCode Γ kind acc ops operands n v code n') :
    v = acc ∨ ∃ k, v = tempOf k := by
  induction operands generalizing acc ops n code with
  | nil =>
    cases h with
    | done => exact .inl rfl
  | cons operand operands ih =>
    cases h with
    | more _ _ hrest =>
      rcases ih hrest with rfl | hv
      · exact .inr ⟨_, rfl⟩
      · exact .inr hv

/-- A numeric expression with plain literals that is a constant is not negative. -/
lemma NumberCode.const_nonneg {t n v code n'} (h : NumberCode Γ t n v code n')
    (ht : t.PlainLiterals) :
    ∀ w, v = .const w → 0 ≤ w.toInt := by
  match h with
  | .wrapper htransparent hinner =>
    refine hinner.const_nonneg (ht.parts ?_ _ mem_cons_self)
    rintro rfl
    cases htransparent
  | .literal hw =>
    intro w heq
    obtain rfl := Operand.const.inj heq
    exact Text.readInt64_nonneg (ht.of_node.1 rfl) hw
  | .variable _ =>
    intro w heq
    cases heq
  | .chain hkind hfirst hrest =>
    rcases hrest.value_cases with rfl | ⟨k, rfl⟩
    · exact hfirst.const_nonneg (ht.parts (by rcases hkind with rfl | rfl <;> decide) _
        mem_cons_self)
    · intro w heq
      cases heq
  | .unsigned _ hinner => exact hinner.const_nonneg (ht.parts (by decide) _ mem_cons_self)
  | .negated _ _ =>
    intro w heq
    cases heq

lemma copiesPlain_truth {dst} (b : Bool) :
    (Instr.copy dst (.const (if b then 1 else 0))).CopiesPlain := by
  refine copiesPlain_copy fun w heq => ?_
  cases heq
  cases b <;> decide

/-- A truth value that is written is not negative. -/
lemma copiesPlain_valueCode {target k} : ∀ i ∈ valueCode target k, i.CopiesPlain := by
  intro i hi
  rcases truth_of_mem_valueCode hi with hres | ⟨b, rfl⟩
  · exact copiesPlain_of_result hres
  · exact copiesPlain_truth b

lemma Instr.Deciding.copiesPlain {i : Instr} (h : i.Deciding) : i.CopiesPlain := by
  cases h with
  | arithmetic harithmetic =>
    rintro dst w rfl
    exact absurd rfl harithmetic.op_ne_copy
  | truth b => exact copiesPlain_truth b
  | control hres => exact copiesPlain_of_result hres

lemma NumberCode.copiesPlain (h : NumberCode Γ t n v code n') : ∀ i ∈ code, i.CopiesPlain :=
  fun i hi => (h.deciding i hi).copiesPlain

lemma ConditionCode.copiesPlain {e n n'} (h : ConditionCode Γ t e n code n') :
    ∀ i ∈ code, i.CopiesPlain := fun i hi => (h.deciding i hi).copiesPlain

/-- The scrutinee of a `switch` with plain literals is not copied if it is negative. -/
lemma ScrutineeCode.copiesPlain (h : ScrutineeCode Γ t n v code n') (ht : t.PlainLiterals) :
    ∀ i ∈ code, i.CopiesPlain := by
  cases h with
  | computed hval => exact hval.copiesPlain
  | copied hval =>
    simp only [forall_mem_append, forall_mem_singleton]
    exact ⟨hval.copiesPlain, copiesPlain_copy (hval.const_nonneg ht)⟩

lemma Instr.Jumps.copiesPlain {i : Instr} (h : i.Jumps) : i.CopiesPlain :=
    copiesPlain_of_result h.result

mutual

/-- The code of a statement with plain literals copies no negative constant. -/
lemma StatementCode.copiesPlain {settings} {t : Tree} {n code n'}
    (h : StatementCode settings Γ t n code n') (ht : t.PlainLiterals) :
    ∀ i ∈ code, i.CopiesPlain := by
  match h with
  | .sequence hkind hchildren =>
    exact hchildren.copiesPlain (ht.parts (by rcases hkind with rfl | rfl <;> decide))
  | .declaration | .empty => exact forall_mem_nil _
  | .inner hinner => exact hinner.copiesPlain (ht.parts (by decide) _ mem_cons_self)
  | .boolAssignment _ hval => exact forall_mem_append.mpr ⟨hval.copiesPlain, copiesPlain_valueCode⟩
  | .numAssignment _ hval _ =>
    have hplain := ht.parts (by decide) _ (mem_cons_of_mem _ mem_cons_self)
    simp only [forall_mem_append, forall_mem_singleton]
    exact ⟨hval.copiesPlain, copiesPlain_copy (hval.const_nonneg hplain)⟩
  | .selfAssignment _ hval _ => exact hval.copiesPlain
  | .conditional _ hcond hthen =>
    have hplain := ht.parts (by decide) _ (mem_cons_of_mem _ mem_cons_self)
    simp only [forall_mem_append, forall_mem_singleton]
    exact ⟨⟨hcond.copiesPlain, hthen.copiesPlain hplain⟩, copiesPlain_of_result rfl⟩
  | .alternative hcond hthen helse =>
    obtain ⟨-, hbodies⟩ := forall_mem_cons.mp (ht.parts (by decide))
    obtain ⟨hthen', helse'⟩ := forall_mem_cons.mp hbodies
    simp only [forall_mem_append, forall_mem_cons]
    exact ⟨⟨⟨⟨hcond.copiesPlain, hthen.copiesPlain hthen'⟩, copiesPlain_of_result rfl,
      copiesPlain_of_result rfl,
      forall_mem_nil _⟩, helse.copiesPlain (helse' _ mem_cons_self)⟩, copiesPlain_of_result rfl,
      forall_mem_nil _⟩
  | .loop hcond hbody =>
    have hplain := ht.parts (by decide) _ (mem_cons_of_mem _ mem_cons_self)
    simp only [forall_mem_append, forall_mem_cons]
    exact ⟨copiesPlain_of_result rfl, ⟨hcond.copiesPlain, hbody.copiesPlain hplain⟩,
      copiesPlain_of_result rfl, copiesPlain_of_result rfl, forall_mem_nil _⟩
  | .selection hscrut hdisp hclauses =>
    obtain ⟨hscrut', hclauses'⟩ := forall_mem_cons.mp (ht.parts (by decide))
    simp only [forall_mem_append, forall_mem_singleton]
    exact ⟨⟨⟨⟨hscrut.copiesPlain hscrut', fun i hi => (hdisp.jumps i hi).copiesPlain⟩,
      copiesPlain_of_result rfl⟩, hclauses.copiesPlain hclauses'⟩, copiesPlain_of_result rfl⟩

/-- The code of several statements with plain literals copies no negative constant. -/
lemma StatementsCode.copiesPlain {settings ts n code n'}
    (h : StatementsCode settings Γ ts n code n') (hts : ∀ t ∈ ts, t.PlainLiterals) :
    ∀ i ∈ code, i.CopiesPlain := by
  match h with
  | .nil => exact forall_mem_nil _
  | .cons ht hrest =>
    obtain ⟨hfirst, hothers⟩ := forall_mem_cons.mp hts
    exact forall_mem_append.mpr ⟨ht.copiesPlain hfirst, hrest.copiesPlain hothers⟩

/-- The code of clauses with plain literals copies no negative constant. -/
lemma ClausesCode.copiesPlain {settings done labels clauses n code n'}
    (h : ClausesCode settings Γ done labels clauses n code n')
    (hclauses : ∀ t ∈ clauses, t.PlainLiterals) :
    ∀ i ∈ code, i.CopiesPlain := by
  match h with
  | .nil => exact forall_mem_nil _
  | .cons hbody hrest =>
    obtain ⟨hclause, hothers⟩ := forall_mem_cons.mp hclauses
    simp only [forall_mem_append, forall_mem_cons]
    exact ⟨copiesPlain_of_result rfl, ⟨hbody.copiesPlain hclause.of_node.2, fun i hi =>
      (jumps_leaveCode done _ i hi).copiesPlain⟩, hrest.copiesPlain hothers⟩

end

end Code

/-- The code of a source text copies no negative constant. -/
theorem copiesPlain_of_source {root} {state : LowerState}
    (hsource : Tree.ofSource settings file source = .ok root)
    (hlower : (lower settings root state).outcome = .ok ()) :
    ∀ i ∈ (lower settings root state).code, i.CopiesPlain :=
  (lower_follows (yields_of_outcome hlower)).1.copiesPlain
    ((stemsFrom_of_source hsource).plainLiterals fun _ ht =>
      Token.unsigned_of_mem_scan (mem_of_mem_dropLast ht))

end ThreeAddress
