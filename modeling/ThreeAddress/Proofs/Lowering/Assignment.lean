import Mathlib.Data.Set.Insert
import ThreeAddress.Proofs.Code.Flow
import ThreeAddress.Proofs.Names.Marks

/-!
# Temporaries are written before they are read

`Covered code index k p A` says that every walk of at most `k` edges from the place `p` on reads
only temporaries that are in `A` or are written on the walk itself. The lemmas on code go backwards:
a piece of code is covered at its beginning if what follows is covered with more temporaries
written, and so are the places that the piece can jump to. Since a loop comes back to its own
beginning only after an edge, it is covered by induction on `k`.

That the code of every statement is covered from its beginning is an induction over the translation
scheme. Between statements no temporary has to be remembered, so that the set is empty there.
-/

namespace ThreeAddress

open List Lowering Machine

variable {c code : List Instr} {labels : List Label} {clauses : List Tree} {k l n n' p : Nat}
  {v : Operand} {d : Option Label} {A B : Set Operand} {index : LabelIndex} {Γ : Scope}

/-! ## Covered places -/

/-- Every walk of at most `k` edges from a place on, before which the operands in `A` have been
written, reads only temporaries that have been written. -/
def Covered (code : List Instr) (index : LabelIndex) : Nat → Nat → Set Operand → Prop
  | 0, _, _ => True
  | k + 1, p, A => ∀ i, code[p]? = some i →
      (∀ name id, i.Reads (.temp name id) → .temp name id ∈ A) ∧
      ∀ q, Edge code index p q → Covered code index k q (A ∪ {v | i.result = some v})

/-- An operand is in a set if it is a temporary. -/
def Operand.Ready (A : Set Operand) (v : Operand) : Prop := ∀ name id, v = .temp name id → v ∈ A

section Covered

variable {i : Instr}

lemma Covered.mono (h : Covered code index k p A) (hAB : A ⊆ B) : Covered code index k p B := by
  induction k generalizing p A B with
  | zero => trivial
  | succ k ih =>
    intro i hi
    obtain ⟨hreads, hnext⟩ := h i hi
    refine ⟨fun name id hread => hAB (hreads name id hread), fun q hq => ?_⟩
    exact ih (hnext q hq) (Set.union_subset_union_left _ hAB)

/-- Shorter walks are covered too. -/
lemma Covered.pred (h : Covered code index (k + 1) p A) : Covered code index k p A := by
  induction k generalizing p A with
  | zero => trivial
  | succ k ih =>
    intro i hi
    obtain ⟨hreads, hnext⟩ := h i hi
    exact ⟨hreads, fun q hq => ih (hnext q hq)⟩

lemma Covered.shorter {j} (h : Covered code index k p A) (hj : j ≤ k) :
    Covered code index j p A := by
  induction hj with
  | refl => exact h
  | step _ ih => exact ih h.pred

/-- A place can be given in another way. -/
lemma Covered.at_place {q} (h : Covered code index k q A) (hq : p = q := by
      simp only [length_append, length_cons, length_nil]
      omega) : Covered code index k p A :=
  hq ▸ h

/-- The exit of a condition that falls through when it holds is covered if the place of its label
is. -/
lemma Covered.at_exit {l} (hlink : Linked code index) (hl : code[p]? = some (.mark l))
    (h : Covered code index k p A) :
    ∀ b l', exits none (some l) b = some l' → Covered code index k (place index (some l')) A := by
  intro b l' hl'
  cases b with
  | true => cases hl'
  | false =>
    cases hl'
    exact h.at_place (hlink _ _ hl)

lemma covered_outside (hp : code[p]? = none) : Covered code index k p A := by
  cases k with
  | zero => trivial
  | succ k =>
    intro i hi
    rw [hp] at hi
    cases hi

/-- An instruction is covered if it reads what has been written and what follows is covered. -/
lemma Covered.of_next (hi : code[p]? = some i)
    (hreads : ∀ name id, i.Reads (.temp name id) → .temp name id ∈ A)
    (hnext : ∀ q, Edge code index p q → Covered code index k q (A ∪ {v | i.result = some v})) :
    Covered code index (k + 1) p A := by
  intro i' hi'
  cases hi.symm.trans hi'
  exact ⟨hreads, hnext⟩

lemma Covered.of_plain (hi : code[p]? = some i) (hjump : i.op.isJump = false)
    (hreads : ∀ name id, i.Reads (.temp name id) → .temp name id ∈ A)
    (h : Covered code index k (p + 1) (A ∪ {v | i.result = some v})) :
    Covered code index k p A := by
  refine (Covered.of_next hi hreads fun q hq => ?_).pred
  rwa [hq.eq_succ hi hjump]

/-- A mark, which uses up an edge. -/
lemma Covered.of_mark {l} (hi : code[p]? = some (.mark l)) (h : Covered code index k (p + 1) A) :
    Covered code index (k + 1) p A := by
  refine .of_next hi (fun name id hread => ?_) fun q hq => ?_
  · simp [Instr.Reads, Instr.mark] at hread
  · rw [hq.eq_succ hi rfl]
    exact h.mono Set.subset_union_left

lemma Covered.of_jump {l} (hi : code[p]? = some (.jump l))
    (h : Covered code index k (place index (some l)) A) :
    Covered code index k p A := by
  refine (Covered.of_next hi (fun name id hread => ?_) fun q hq => ?_).pred
  · simp [Instr.Reads, Instr.jump] at hread
  · rcases hq.eq_place hi rfl rfl with rfl | ⟨-, hop⟩
    · exact h.mono Set.subset_union_left
    · exact absurd rfl hop

/-- A conditional jump, in either sense. -/
lemma Covered.of_test {l op left right} (hi : code[p]? = some i) (hop : i.op.isJump = true)
    (htarget : i.target = some l) (hargs : i.args = [])
    (htest : i.test = some ⟨op, some left, some right⟩) (hleft : left.Ready A)
    (hright : right.Ready A) (htaken : Covered code index k (place index (some l)) A)
    (hnext : Covered code index k (p + 1) A) : Covered code index k p A := by
  refine (Covered.of_next hi (fun name id hread => ?_) fun q hq => ?_).pred
  · rcases hread with hread | ⟨t, ht, hread⟩
    · rw [hargs] at hread
      cases hread
    · obtain rfl := Option.some.inj (htest.symm.trans ht)
      rcases hread with hread | hread
      · obtain rfl := Option.some.inj hread
        exact hleft name id rfl
      · obtain rfl := Option.some.inj hread
        exact hright name id rfl
  · rcases hq.eq_place hi htarget hop with rfl | ⟨rfl, -⟩
    · exact htaken.mono Set.subset_union_left
    · exact hnext.mono Set.subset_union_left

end Covered

lemma Operand.Ready.mono (h : v.Ready A) (hAB : A ⊆ B) : v.Ready B := fun name id hv =>
    hAB (h name id hv)

lemma Operand.Ready.of_mem (h : v ∈ A) : v.Ready A := fun _ _ _ => h

lemma Operand.Ready.const (w : Int64) : (Operand.const w).Ready A := nofun

lemma Operand.Ready.global (x : String) : (Operand.global x).Ready A := nofun

/-! ## Expressions -/

/-- An operation whose arguments are ready reads nothing else. -/
lemma reads_of_args {i : Instr} (htest : i.test = none) (hargs : ∀ v, some v ∈ i.args → v.Ready A)
    (name : String) (id : Int) (h : i.Reads (.temp name id)) : .temp name id ∈ A := by
  rcases h with h | ⟨t, ht, -⟩
  · exact hargs _ h name id rfl
  · rw [htest] at ht
    cases ht

mutual

/-- The code of a numeric expression is covered if what follows is covered once its value is ready.
-/
lemma NumberCode.covered {t : Tree} {n : Nat} {v : Operand} {c : List Instr} {n' k p : Nat}
    {A : Set Operand} (h : NumberCode Γ t n v c n') (hat : CodeAt code p c)
    (hrest : ∀ B, A ⊆ B → v.Ready B → Covered code index k (p + c.length) B) :
    Covered code index k p A := by
  match h with
  | .wrapper _ hinner | .unsigned _ hinner => exact hinner.covered hat hrest
  | .literal _ => exact hrest A subset_rfl (.const _)
  | .variable _ => exact hrest A subset_rfl (.global _)
  | .chain _ hfirst hrestCode =>
    refine hfirst.covered hat.left fun B hAB hacc => ?_
    exact hrestCode.covered hat.right hacc fun C hBC hv => (hrest C (hAB.trans hBC) hv).at_place
  | .negated _ hinner =>
    refine hinner.covered hat.left fun B hAB hv => ?_
    refine .of_plain hat.right.head rfl (reads_of_args rfl fun u hu => ?_) ?_
    · obtain rfl := Option.some.inj (mem_singleton.mp hu)
      exact hv
    · rw [length_append] at hrest
      exact hrest _ (hAB.trans Set.subset_union_left) (.of_mem (.inr rfl))

/-- The rest of a chain is covered if what follows is covered once its value is ready. -/
lemma ChainCode.covered {kind : NodeKind} {acc : Operand} {ops : List TokenKind}
    {operands : List Tree} {n : Nat} {v : Operand} {c : List Instr} {n' k p : Nat} {A : Set Operand}
    (h : ChainCode Γ kind acc ops operands n v c n') (hat : CodeAt code p c) (hacc : acc.Ready A)
    (hrest : ∀ B, A ⊆ B → v.Ready B → Covered code index k (p + c.length) B) :
    Covered code index k p A := by
  match h with
  | .done => exact hrest A subset_rfl hacc
  | .more hop hoperand hmore =>
    have hjump := isJump_of_isBinary (isBinary_of_arithOpcode hop)
    refine hoperand.covered hat.left fun B hAB hright => ?_
    refine .of_plain hat.right.head hjump (reads_of_args rfl fun u hu => ?_) ?_
    · rcases mem_pair.mp hu with hu | hu
      · obtain rfl := Option.some.inj hu
        exact hacc.mono hAB
      · obtain rfl := Option.some.inj hu
        exact hright
    · refine hmore.covered hat.right.tail (.of_mem (.inr rfl)) fun C hBC hv => ?_
      exact (hrest C (hAB.trans (Set.subset_union_left.trans hBC)) hv).at_place

end

/-- A jump to an exit of a condition. -/
lemma covered_jumpCode {l} (hat : CodeAt code p (jumpCode l))
    (hexit : ∀ l', l = some l' → Covered code index k (place index (some l')) A)
    (hrest : Covered code index k (p + (jumpCode l).length) A) : Covered code index k p A := by
  cases l with
  | none => exact hrest
  | some l => exact .of_jump hat.head (hexit l rfl)

/-- Jumps on a comparison to the exits of a condition. -/
lemma covered_branchCode {op left right e} (hat : CodeAt code p (branchCode op left right e))
    (hleft : left.Ready A) (hright : right.Ready A)
    (hexits : ∀ b l, e b = some l → Covered code index k (place index (some l)) A)
    (hrest : Covered code index k (p + (branchCode op left right e).length) A) :
    Covered code index k p A := by
  unfold branchCode at hat hrest
  cases htrue : e true with
  | none =>
    cases hfalse : e false with
    | none =>
      rw [htrue, hfalse] at hrest
      exact hrest
    | some f =>
      rw [htrue, hfalse] at hat hrest
      exact .of_test hat.head rfl rfl rfl rfl hleft hright (hexits false f hfalse) hrest
  | some t =>
    cases hfalse : e false with
    | none =>
      rw [htrue, hfalse] at hat hrest
      exact .of_test hat.head rfl rfl rfl rfl hleft hright (hexits true t htrue) hrest
    | some f =>
      rw [htrue, hfalse] at hat hrest
      exact .of_test hat.head rfl rfl rfl rfl hleft hright (hexits true t htrue)
        (.of_jump hat.tail.head (hexits false f hfalse))

/-- What writes a truth value is covered from its beginning and from the labels of both outcomes if
what follows is covered once it is written. -/
lemma covered_valueCode (hlink : Linked code index) {target}
    (hat : CodeAt code p (valueCode target l))
    (hrest : Covered code index k (p + 6) (A ∪ {target})) :
    Covered code index k p A ∧ ∀ b l', valueExits l b = some l' →
    Covered code index k (place index (some l')) A := by
  have hres : ∀ w, {v | (Instr.copy target (.const w)).result = some v} = {target} := fun w => by
    ext v
    simp [Instr.copy, eq_comm]
  have hreads : ∀ w name id, (Instr.copy target (.const w)).Reads (.temp name id) →
      .temp name id ∈ A :=
    fun w => reads_of_args rfl fun v hv => by
      obtain rfl := Option.some.inj (mem_singleton.mp hv)
      exact .const w
  -- The code ends with the mark that the first branch jumps to and the second one runs into.
  have hend : Covered code index k (p + 5) (A ∪ {target}) :=
    (Covered.of_mark hat.tail.tail.tail.tail.tail.head hrest).pred
  have hzero : Covered code index k (p + 3) A := by
    refine (Covered.of_mark hat.tail.tail.tail.head ?_).pred
    refine .of_plain hat.tail.tail.tail.tail.head rfl (hreads 0) ?_
    rw [hres]
    exact hend
  have hone : Covered code index k p A := by
    refine (Covered.of_mark hat.head ?_).pred
    refine .of_plain hat.tail.head rfl (hreads 1) ?_
    rw [hres]
    refine .of_jump hat.tail.tail.head ?_
    rw [hlink _ _ hat.tail.tail.tail.tail.tail.head]
    exact hend
  refine ⟨hone, fun b l' hl' => ?_⟩
  cases b with
  | true =>
    obtain rfl := Option.some.inj hl'
    rw [hlink _ _ hat.head]
    exact hone
  | false =>
    obtain rfl := Option.some.inj hl'
    rw [hlink _ _ hat.tail.tail.tail.head]
    exact hzero

/-- A condition whose truth value is written is covered if what follows is covered once it is
written. -/
lemma covered_materialized (hlink : Linked code index) {target}
    (hat : CodeAt code p (c ++ valueCode target l))
    (hcond : (∀ b l', valueExits l b = some l' → Covered code index k (place index (some l')) A) →
      Covered code index k (p + c.length) A → Covered code index k p A)
    (hrest : Covered code index k (p + (c ++ valueCode target l).length) (A ∪ {target})) :
    Covered code index k p A := by
  have hlen : p + c.length + 6 = p + (c ++ valueCode target l).length := by
    rw [length_append, Nat.add_assoc]
    rfl
  obtain ⟨hbegin, hexits⟩ := covered_valueCode hlink hat.right (hrest.at_place hlen)
  exact hcond hexits hbegin

/-- The exits of the left operand of a chain are covered if both its labels are. -/
lemma covered_decidingExits {d decided middle}
    (hdecided : Covered code index k (place index (some decided)) A)
    (hmiddle : Covered code index k (place index (some middle)) A) :
    ∀ b l, decidingExits d decided middle b = some l →
    Covered code index k (place index (some l)) A := by
  intro b l hl
  cases hl
  split
  · exact hdecided
  · exact hmiddle

mutual

/-- The code of a condition is covered if its exits are and what follows is. -/
lemma ConditionCode.covered (hlink : Linked code index) {t} {e} {n} {c}
    {n'} {k p} {A} (h : ConditionCode Γ t e n c n') (hat : CodeAt code p c)
    (hexits : ∀ b l, e b = some l → Covered code index k (place index (some l)) A)
    (hrest : Covered code index k (p + c.length) A) : Covered code index k p A := by
  match h with
  | .wrapper _ hinner => exact hinner.covered hlink hat hexits hrest
  | .negation _ hinner => exact hinner.covered hlink hat (fun b l hl => hexits _ l hl) hrest
  | .literal b => exact covered_jumpCode hat (fun l hl => hexits b l hl) hrest
  | .variable _ => exact covered_branchCode hat (.global _) (.const 1) hexits hrest
  | .numbers _ hleft hright =>
    refine hleft.covered hat.left.left fun B hAB hl => ?_
    refine hright.covered hat.left.right fun C hBC hr => ?_
    have hAC := hAB.trans hBC
    exact covered_branchCode hat.right.at_place (hl.mono hBC) hr
      (fun b l hl => (hexits b l hl).mono hAC) (hrest.mono hAC).at_place
  | .booleans _ hleft hright =>
    refine covered_materialized hlink hat.left.left (fun hexits' hrest' =>
      hleft.covered hlink hat.left.left.left hexits' hrest') ?_
    refine covered_materialized hlink hat.left.right (fun hexits' hrest' =>
      hright.covered hlink hat.left.right.left hexits' hrest') ?_
    have hmore : ∀ B C, A ⊆ A ∪ B ∪ C := fun _ _ =>
      Set.subset_union_left.trans Set.subset_union_left
    exact covered_branchCode hat.right.at_place (.of_mem (.inl (.inr rfl))) (.of_mem (.inr rfl))
      (fun b l hl => (hexits b l hl).mono (hmore _ _)) (hrest.mono (hmore _ _)).at_place
  | .logic hchain => exact hchain.covered hlink hat hexits hrest

/-- The code of a chain of conditions is covered if its exits are and what follows is. -/
lemma LogicCode.covered (hlink : Linked code index) {ops} {operands} {e}
    {n} {c} {n'} {k p} {A} (h : LogicCode Γ ops operands e n c n')
    (hat : CodeAt code p c)
    (hexits : ∀ b l, e b = some l → Covered code index k (place index (some l)) A)
    (hrest : Covered code index k (p + c.length) A) :
    Covered code index k p A := by
  match h with
  | .last hlast => exact hlast.covered hlink hat hexits hrest
  | .leaving _ hexit hleft hmore =>
    have hmiddle := (Covered.of_mark hat.right.head
      (hmore.covered hlink hat.right.tail hexits hrest.at_place)).pred
    refine hleft.covered hlink hat.left (covered_decidingExits (hexits _ _ hexit) ?_) hmiddle
    rw [hlink _ _ hat.right.head]
    exact hmiddle
  | .skipping _ hexit hleft hmore =>
    have hend := (Covered.of_mark hat.right.tail.right.head hrest.at_place).pred
    have hmiddle := (Covered.of_mark hat.right.head
      (hmore.covered hlink hat.right.tail.left hexits hend)).pred
    refine hleft.covered hlink hat.left (covered_decidingExits ?_ ?_) hmiddle
    · rw [hlink _ _ hat.right.tail.right.head]
      exact hend
    · rw [hlink _ _ hat.right.head]
      exact hmiddle

end

/-! ## Statements -/

section Statements

variable {settings : Settings}

/-- The scrutinee of a `switch` is covered if what follows is covered once its value is ready. -/
lemma ScrutineeCode.covered {t} (h : ScrutineeCode Γ t n v c n') (hat : CodeAt code p c)
    (hrest : ∀ B, v.Ready B → Covered code index k (p + c.length) B) :
    Covered code index k p ∅ := by
  cases h with
  | computed hval => exact hval.covered hat fun B _ hv => hrest B hv
  | copied hval _ =>
    refine hval.covered hat.left fun B _ hv => ?_
    refine .of_plain hat.right.head rfl (reads_of_args rfl fun u hu => ?_) ?_
    · cases mem_singleton.mp hu
      exact hv
    · rw [length_append] at hrest
      exact hrest _ (.of_mem (.inr rfl))

/-- The tests of a `switch` are covered if its clauses are and what follows is. -/
lemma DispatchCode.covered {d'} (h : DispatchCode v d clauses n c labels d' n')
    (hat : CodeAt code p c) (hv : v.Ready A)
    (hlabels : ∀ l ∈ labels, Covered code index k (place index (some l)) A)
    (hrest : Covered code index k (p + c.length) A) : Covered code index k p A := by
  induction h generalizing p with
  | done => exact hrest
  | case _ _ ih =>
    obtain ⟨hlabel, hlabels⟩ := forall_mem_cons.mp hlabels
    exact .of_test hat.head rfl rfl rfl rfl hv (.const _) hlabel
      (ih hat.tail hlabels hrest.at_place)
  | default _ ih => exact ih hat (forall_mem_cons.mp hlabels).2 hrest

/-- The label of the default clause of a `switch` is the label of a clause. -/
lemma DispatchCode.default_mem {d'} (h : DispatchCode v d clauses n c labels d' n') :
    d' = d ∨ ∃ l ∈ labels, d' = some l := by
  induction h with
  | done => exact .inl rfl
  | case _ _ ih =>
    rcases ih with hd | ⟨l, hl, hd⟩
    · exact .inl hd
    · exact .inr ⟨l, mem_cons_of_mem _ hl, hd⟩
  | default _ ih =>
    rcases ih with hd | ⟨l, hl, hd⟩
    · exact .inr ⟨_, mem_cons_self, hd⟩
    · exact .inr ⟨l, mem_cons_of_mem _ hl, hd⟩

/-- A `switch` goes to one of its clauses or to its end. -/
lemma covered_selection {t n1 l' c1 c2 done} (hscrut : ScrutineeCode Γ t n v c1 n1)
    (hdisp : DispatchCode v none clauses l c2 labels d l')
    (hat : CodeAt code p (c1 ++ c2 ++ [.jump (d.getD done)]))
    (hlabels : ∀ l ∈ labels, Covered code index k (place index (some l)) ∅)
    (hdone : Covered code index k (place index (some done)) ∅) : Covered code index k p ∅ := by
  refine hscrut.covered hat.left.left fun B hv => ?_
  refine hdisp.covered hat.left.right hv (fun l hl => (hlabels l hl).mono (Set.empty_subset B)) ?_
  have hjump : code[p + c1.length + c2.length]? = some (.jump (d.getD done)) :=
    hat.right.at_place.head
  refine .of_jump hjump (Covered.mono ?_ (Set.empty_subset B))
  rcases hdisp.default_mem with rfl | ⟨l, hl, rfl⟩
  · exact hdone
  · exact hlabels l hl

/-- The jump to the end of a `switch`. -/
lemma covered_leaveCode {done following} (hat : CodeAt code p (leaveCode done following))
    (hdone : Covered code index k (place index (some done)) A)
    (hrest : Covered code index k (p + (leaveCode done following).length) A) :
    Covered code index k p A := by
  unfold leaveCode at hat hrest
  split at hat
  · rename_i hempty
    rwa [if_pos hempty] at hrest
  · exact .of_jump hat.head hdone

mutual

/-- The code of a statement is covered if what follows is. -/
lemma StatementCode.covered (hlink : Linked code index) {t : Tree} {n : Names}
    {c : List Instr} {n' : Names} {k p : Nat} (h : StatementCode settings Γ t n c n')
    (hat : CodeAt code p c) (hrest : Covered code index k (p + c.length) ∅) :
    Covered code index k p ∅ := by
  match h with
  | .sequence _ hchildren => exact hchildren.covered hlink hat hrest
  | .declaration | .empty => exact hrest
  | .inner ht => exact ht.covered hlink hat hrest
  | .boolAssignment _ ht =>
    exact covered_materialized hlink hat (ht.covered hlink hat.left)
      (hrest.mono (Set.empty_subset _))
  | .numAssignment _ ht _ =>
    refine ht.covered hat.left fun B _ hv => ?_
    refine .of_plain hat.right.head rfl (reads_of_args rfl fun u hu => ?_) ?_
    · obtain rfl := Option.some.inj (mem_singleton.mp hu)
      exact hv
    · rw [length_append] at hrest
      exact hrest.mono (Set.empty_subset _)
  | .selfAssignment _ ht _ => exact ht.covered hat fun B _ _ => hrest.mono (Set.empty_subset B)
  | .conditional _ hcond hthen =>
    have hend := (Covered.of_mark hat.right.head hrest.at_place).pred
    have hthen' := hthen.covered hlink hat.left.right hend.at_place
    exact hcond.covered hlink hat.left.left (hend.at_exit hlink hat.right.head) hthen'
  | .alternative hcond hthen helse =>
    have hend := (Covered.of_mark hat.right.head hrest.at_place).pred
    have hfails := hat.left.left.right.tail.head
    have helse' := (Covered.of_mark hfails
      (helse.covered hlink hat.left.right hend.at_place).at_place).pred
    have hleave := Covered.of_jump hat.left.left.right.head
      (hend.at_place (hlink _ _ hat.right.head))
    have hthen' := hthen.covered hlink hat.left.left.left.right hleave.at_place
    exact hcond.covered hlink hat.left.left.left.left (helse'.at_exit hlink hfails) hthen'
  | .loop hcond hbody =>
    have hend := hat.tail.right.tail.head
    have hdone : Covered code index k _ ∅ := (Covered.of_mark hend hrest.at_place).pred
    -- The walk comes back to the mark at the beginning, with fewer edges left.
    have hloop : ∀ j, j ≤ k → Covered code index j p ∅ := by
      intro j
      induction j with
      | zero => exact fun _ => trivial
      | succ j ih =>
        intro hj
        have hback := Covered.of_jump hat.tail.right.head
          ((ih (Nat.le_of_succ_le hj)).at_place (hlink _ _ hat.head))
        have hbody' := hbody.covered hlink hat.tail.left.right hback.at_place
        have hexit := (hdone.shorter (Nat.le_of_succ_le hj)).at_exit hlink hend
        exact .of_mark hat.head (hcond.covered hlink hat.tail.left.left hexit hbody')
    exact hloop k (le_refl k)
  | .selection hscrut hdisp hclauses =>
    have hend := (Covered.of_mark hat.right.head hrest.at_place).pred
    have hdone := hlink _ _ hat.right.head
    obtain ⟨-, hlabels⟩ := hclauses.covered hlink hat.left.right hend.at_place (hend.at_place hdone)
    exact covered_selection hscrut hdisp hat.left.left hlabels (hend.at_place hdone)

/-- The code of several statements is covered if what follows is. -/
lemma StatementsCode.covered (hlink : Linked code index) {ts} {n} {c}
    {n'} {k p} (h : StatementsCode settings Γ ts n c n') (hat : CodeAt code p c)
    (hrest : Covered code index k (p + c.length) ∅) : Covered code index k p ∅ := by
  match h with
  | .nil => exact hrest
  | .cons ht hts =>
    exact ht.covered hlink hat.left (hts.covered hlink hat.right hrest.at_place)

/-- The code of the clauses of a `switch` is covered from its beginning and from the label of each
clause, if what follows and the end of the `switch` are covered. -/
lemma ClausesCode.covered (hlink : Linked code index) {done} {labels} {clauses}
    {n} {c} {n'} {k p} (h : ClausesCode settings Γ done labels clauses n c n')
    (hat : CodeAt code p c) (hrest : Covered code index k (p + c.length) ∅)
    (hdone : Covered code index k (place index (some done)) ∅) :
    Covered code index k p ∅ ∧ ∀ l ∈ labels, Covered code index k (place index (some l)) ∅ := by
  match h with
  | .nil => exact ⟨hrest, fun l hl => absurd hl not_mem_nil⟩
  | .cons hbody hmore =>
    obtain ⟨hnext, hlabels⟩ := hmore.covered hlink hat.tail.right hrest.at_place hdone
    have hleave := covered_leaveCode hat.tail.left.right hdone hnext.at_place
    have hclause := (Covered.of_mark hat.head (hbody.covered hlink hat.tail.left.left hleave)).pred
    refine ⟨hclause, forall_mem_cons.mpr ⟨?_, hlabels⟩⟩
    rw [hlink _ _ hat.head]
    exact hclause

end

end Statements

end ThreeAddress
