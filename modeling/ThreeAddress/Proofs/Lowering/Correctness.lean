import ThreeAddress.Proofs.Lowering.Execution

/-!
# Running a generated program agrees with the meaning of its tree

A machine at the code of a statement which does not end can execute any number of instructions; this
is an induction on the translation scheme, with an induction on the number of instructions for every
loop. With what is known of statements that end, a run of a generated program finishes with the
store in which its tree ends, fails where its tree divides by zero, and is stopped at every step
limit if its tree does not end.
-/

namespace ThreeAddress

open Lowering Machine

variable {code : List Instr} {index : LabelIndex} {settings : Settings} {Γ : Scope}

/-! ## Statements that do not end -/

/-- A machine at a loop that does not end can execute any number of instructions, if one at a body
that does not end can. -/
lemma loop_lasts (hlink : Linked code index) {token value ops condition body l l' n n1 n2 c1 c2 m}
    (hc : ConditionCode Γ condition (exits none (some l')) n c1 n1)
    (hcbody : StatementCode settings Γ body n1 c2 n2)
    (hbody : ∀ {m' : Machine}, CodeAt code m'.next c2 → (∀ r, ¬ Exec Γ body m'.store r) →
      ∀ k, Lasts code index k m')
    (hat : CodeAt code m.next (.mark l :: (c1 ++ c2 ++ [.jump l, .mark l'])))
    (hnever : ∀ r, ¬ Exec Γ (.node .loop token value ops [condition, body]) m.store r) (k : Nat) :
    Lasts code index k m := by
  induction k generalizing m with
  | zero => exact .zero
  | succ k ih =>
    refine .of_step hat.head (step_mark l) ?_
    rcases loop_decides hlink hat hc with ⟨b, m1, hval, harr⟩ | ⟨hval, -⟩
    · cases b with
      | false => exact absurd (.loopEnd hval) (hnever _)
      | true =>
        have hat1 : CodeAt code m1.next c2 := harr.next ▸ hat.tail.left.right
        have hstore : m1.store = m.store := harr.agrees.store_eq
        by_cases hends : ∃ r, Exec Γ body m.store r
        · obtain ⟨r, hr⟩ := hends
          cases r with
          | divisionByZero => exact absurd (.loopBodyFault hval hr) (hnever _)
          | done σ =>
            -- a whole round leads back to the mark, which is an instruction more
            obtain ⟨m2, hreaches, hnext, rfl⟩ := hr.realized hlink hcbody hat1 hstore
            rw [harr.next] at hnext
            have hagain := ih (m := { m2 with next := m.next }) hat fun r hr' =>
              hnever r (.loopAgain hval hr hr')
            exact hagain.of_reaches (harr.reaches.trans
              (hreaches.trans (loop_returns hlink hat m2 hnext)))
        · rw [← hstore] at hends
          exact (hbody hat1 (fun r hr => hends ⟨r, hr⟩) k).of_reaches harr.reaches
    · exact absurd (.loopFault hval) (hnever _)

mutual

/-- A machine at the code of a statement that does not end can execute any number of instructions.
-/
lemma StatementCode.lasts (hlink : Linked code index) {t n c n' m}
    (h : StatementCode settings Γ t n c n') (hat : CodeAt code m.next c)
    (hnever : ∀ r, ¬ Exec Γ t m.store r) (k : Nat) : Lasts code index k m := by
  match h with
  | .sequence hkind hchildren =>
    exact hchildren.lasts hlink hat (fun r hr => hnever r (.sequence hkind hr)) k
  | .declaration => exact absurd .declaration (hnever _)
  | .empty => exact absurd .empty (hnever _)
  | .inner ht => exact ht.lasts hlink hat (fun r hr => hnever r (.inner hr)) k
  | h@(.boolAssignment ..) | h@(.numAssignment ..) | h@(.selfAssignment ..) =>
    obtain ⟨_, _, _, _, -, ⟨v, hval, -⟩ | ⟨hval, -⟩⟩ := h.assigns hlink hat
    · exact absurd (.assignment hval) (hnever _)
    · exact absurd (.assignmentFault hval) (hnever _)
  | .conditional hrest hc hcthen =>
    rcases conditional_decides hlink hat hc with ⟨b, m1, hval, harr⟩ | ⟨hval, -⟩
    · cases b with
      | true =>
        refine (hcthen.lasts hlink (harr.next ▸ hat.left.right) (fun r hr => ?_) k).of_reaches
          harr.reaches
        rw [harr.agrees.store_eq] at hr
        exact hnever r (.conditionalThen hval hr)
      | false => exact absurd (.conditionalSkip hrest hval) (hnever _)
    · exact absurd (.conditionalFault hval) (hnever _)
  | .alternative hc hcthen hcelse =>
    rcases alternative_decides hlink hat hc with ⟨b, m1, hval, harr⟩ | ⟨hval, -⟩
    · cases b with
      | true =>
        refine (hcthen.lasts hlink (harr.next ▸ hat.left.left.left.right) (fun r hr => ?_)
          k).of_reaches harr.reaches
        rw [harr.agrees.store_eq] at hr
        exact hnever r (.conditionalThen hval hr)
      | false =>
        refine (hcelse.lasts hlink (harr.next ▸ hat.left.right) (fun r hr => ?_) k).of_reaches
          harr.reaches
        rw [harr.agrees.store_eq] at hr
        exact hnever r (.conditionalElse hval hr)
    · exact absurd (.conditionalFault hval) (hnever _)
  | .loop hc hcbody => exact loop_lasts hlink hc hcbody (hcbody.lasts hlink) hat hnever k
  | .selection hcscrutinee hdisp hclauses =>
    rcases hcscrutinee.computes index hat.left.left.left.left with ⟨w, _, hval, -⟩ | ⟨hval, -⟩
    · have hnever' : ∀ r, ¬ ExecAll Γ (selected w _) m.store r := fun r hr =>
        hnever r (.selection hval hr)
      rcases selection_arrives hcscrutinee hdisp hat.left.left hval with
        ⟨clause, l, m1, hmem, hselected, harr⟩ | ⟨hselected, -⟩
      · rw [hselected, ← harr.agrees.store_eq] at hnever'
        exact (hclauses.lasts hlink hat.left.right hmem harr.next hnever' k).of_reaches harr.reaches
      · rw [hselected] at hnever'
        exact absurd .nil (hnever' _)
    · exact absurd (.selectionFault hval) (hnever _)

/-- A machine at the code of statements that do not end can execute any number of instructions. -/
lemma StatementsCode.lasts (hlink : Linked code index) {ts n c n' m}
    (h : StatementsCode settings Γ ts n c n') (hat : CodeAt code m.next c)
    (hnever : ∀ r, ¬ ExecAll Γ ts m.store r) (k : Nat) : Lasts code index k m := by
  match h with
  | .nil => exact absurd .nil (hnever _)
  | @StatementsCode.cons _ _ t _ _ _ _ _ _ ht hts =>
    by_cases hends : ∃ r, Exec Γ t m.store r
    · obtain ⟨r, hr⟩ := hends
      cases r with
      | done σ =>
        obtain ⟨m1, hreaches, hnext, rfl⟩ := hr.realized hlink ht hat.left rfl
        exact (hts.lasts hlink (hnext ▸ hat.right) (fun r hr' => hnever r (.cons hr hr'))
          k).of_reaches hreaches
      | divisionByZero => exact absurd (.fault hr) (hnever _)
    · exact ht.lasts hlink hat.left (fun r hr => hends ⟨r, hr⟩) k

/-- A machine at a clause of a `switch` that does not end can execute any number of instructions. -/
lemma ClausesCode.lasts (hlink : Linked code index) {done l labels clauses clause n c n' p m}
    (h : ClausesCode settings Γ done labels clauses n c n') (hat : CodeAt code p c)
    (hmem : (clause, l) ∈ clauses.zip labels) (hnext : m.next = place index (some l))
    (hnever : ∀ r, ¬ ExecAll Γ clause.clauseStatements m.store r) (k : Nat) :
    Lasts code index k m := by
  match h with
  | .nil => cases hmem
  | .cons hbody hrest =>
    rw [List.zip_cons_cons, List.mem_cons] at hmem
    rcases hmem with hmem | hmem
    · obtain ⟨rfl, rfl⟩ := Prod.mk.inj hmem
      rw [clauseStatements_node] at hnever
      exact (hbody.lasts hlink (m := { m with next := p + 1 }) hat.tail.left.left
        hnever k).of_reaches (reaches_past_mark hat.head m (hnext.trans (hlink p l hat.head)))
    · exact hrest.lasts hlink hat.tail.right hmem hnext hnever k

end

/-! ## Programs -/

section Programs

variable {start : Bindings} {limit : Int} {record : Bool}

section Whole

variable {t : Tree} {n n' : Names} (hindex : labelIndex code = .ok index)
  (hcheck : checkLabels code = .ok ()) (hcode : StatementCode settings Γ t n code n')
include hindex hcheck hcode

/-- The code of a statement that ends finishes with the store in which the statement ends. -/
lemma run_of_done {σ} (h : Exec Γ t (storeOf start) (.done σ)) : ∃ least : Int, ∀ limit,
    least ≤ limit → ∃ r, run code start limit record = .finished r ∧ storeOf r.globals = σ := by
  obtain ⟨m, ⟨k, hpath⟩, hnext, hstore⟩ := h.realized (linked_of_labelIndex hindex)
    (m := { globals := start }) hcode (CodeAt.self code) rfl
  refine ⟨k + 1, fun limit hlimit => ?_⟩
  have hend : code[m.next]? = none := by simp [hnext]
  have hfuel : k ≤ limit.toNat := by omega
  obtain ⟨trail, htrail, rfl⟩ := hpath.exists_trail
  rw [run_eq_runFrom hindex hcheck (by omega)]
  exact ⟨_, runFrom_finished htrail hend hfuel, hstore⟩

/-- The code of a statement that divides by zero fails with a division by zero. -/
lemma run_of_divisionByZero (h : Exec Γ t (storeOf start) .divisionByZero) : ∃ least : Int, ∀ limit,
    least ≤ limit → ∃ i instr, run code start limit record = .failed i instr .divisionByZero := by
  obtain ⟨m, instr, ⟨k, hpath⟩, hi, hstep⟩ := h.realized (linked_of_labelIndex hindex)
    (m := { globals := start }) hcode (CodeAt.self code) rfl
  refine ⟨k + 1, fun limit hlimit => ⟨m.next, instr, ?_⟩⟩
  obtain ⟨trail, htrail, rfl⟩ := hpath.exists_trail
  rw [run_eq_runFrom hindex hcheck (by omega)]
  exact runFrom_failed htrail hi hstep (by omega)

/-- The code of a statement that does not end is stopped. -/
lemma run_of_never (h : ∀ r, ¬ Exec Γ t (storeOf start) r) (hlimit : 0 < limit) :
    ∃ r, run code start limit record = .stopped r := by
  rw [run_eq_runFrom hindex hcheck hlimit]
  exact runFrom_of_lasts (hcode.lasts (linked_of_labelIndex hindex) (m := { globals := start })
    (CodeAt.self code) h _)

end Whole

/-- Running a generated program agrees with the meaning of its tree. If the tree ends in a store,
the run finishes with that store at every large enough step limit; if the tree divides by zero, so
does the run at every large enough step limit; and if the tree does neither, the run is stopped at
every step limit. -/
theorem run_generated_agrees (settings : Settings) (state : LowerState) (root : Tree)
    (program : Program) (hgenerate : (generate settings state root).outcome = .ok program)
    (start : Bindings) (record : Bool) :
    (∀ σ, Exec root.scope root (storeOf start) (.done σ) → ∃ least : Int, ∀ limit, least ≤ limit →
      ∃ r, run program.code start limit record = .finished r ∧ storeOf r.globals = σ) ∧
    (Exec root.scope root (storeOf start) .divisionByZero → ∃ least : Int, ∀ limit, least ≤ limit →
      ∃ i instr, run program.code start limit record = .failed i instr .divisionByZero) ∧
    ((∀ r, ¬ Exec root.scope root (storeOf start) r) → ∀ limit, 0 < limit →
      ∃ r, run program.code start limit record = .stopped r) := by
  obtain ⟨hlower, hprogram⟩ := lower_of_generate hgenerate
  have hcode := (lower_follows (yields_of_outcome hlower)).1
  have hcheck := lower_checkLabels hlower
  obtain ⟨index, hindex⟩ := labelIndex_of_checkLabels hcheck
  rw [hprogram]
  exact ⟨fun σ h => run_of_done hindex hcheck hcode h, fun h =>
    run_of_divisionByZero hindex hcheck hcode h,
    fun h limit hlimit => run_of_never hindex hcheck hcode h hlimit⟩

/-- A program with a loop that adds 1 to `x` while `x` is less than 2. -/
def countingLoop : Tree :=
  let x := Tree.leaf .identifier {} "x"
  let number text := Tree.leaf .intLiteral {} text
  let condition := Tree.node .comparison {} "" [.less] [x, number "2"]
  let increment := Tree.branch .assignment {} [x, .node .sum {} "" [.plus] [x, number "1"]]
  .branch .program {} [.node .declaration {} "num" [] [x], .branch .loop {} [condition, increment]]

/-- Started from 0, the loop ends with 2. -/
theorem run_countingLoop : ∃ program, (generate {} {} countingLoop).outcome = .ok program ∧
    ∃ least : Int, ∀ limit, least ≤ limit →
      ∃ r, run program.code {} limit false = .finished r ∧ storeOf r.globals "x" = 2 := by
  have hexec : Exec countingLoop.scope countingLoop (storeOf {})
      (.done (((storeOf {}).set "x" 1).set "x" 2)) :=
    .sequence (.inl rfl) (.cons .declaration (.cons (.loopAgain rfl (.assignment rfl)
      (.loopAgain rfl (.assignment rfl) (.loopEnd rfl))) .nil))
  obtain ⟨program, hprogram⟩ : ∃ program, (generate {} {} countingLoop).outcome = .ok program := by
    have hok : (generate {} {} countingLoop).outcome.isOk = true := by decide +kernel
    cases h : (generate {} {} countingLoop).outcome with
    | error e => rw [h] at hok; cases hok
    | ok program => exact ⟨program, rfl⟩
  have hagrees := run_generated_agrees {} {} countingLoop program
  obtain ⟨least, hleast⟩ := (hagrees hprogram {} false).1 _ hexec
  refine ⟨program, hprogram, least, fun limit hlimit => ?_⟩
  obtain ⟨r, hrun, hstore⟩ := hleast limit hlimit
  exact ⟨r, hrun, congrFun hstore "x"⟩

end Programs

end ThreeAddress
