import ThreeAddress.Proofs.Lowering.Accessible

/-!
# Conditions skip what need not be evaluated

A machine that executes the code of a condition executes the tests of the atoms that are evaluated
and no others (`ConditionCode.tested`), and it does not enter the code of the right operands of a
chain whose left operand has decided (`logicChain_skips`). Nor does it write a variable.
-/

namespace ThreeAddress

open List Lowering Machine

variable {b d : Bool} {e : Exits} {c c₁ c₂ code : List Instr} {tests : List Nat}
  {ops : List TokenKind} {rest : List Tree} {n n' : Nat} {right v : Operand} {op : TokenKind}
  {left t : Tree} {index : LabelIndex} {m : Machine}

/-! ## Variables -/

/-- The code of a condition writes no variable. -/
lemma ConditionCode.result_ne_global {Γ n n'} (h : ConditionCode Γ t e n c n') :
    ∀ i ∈ c, ∀ x, i.result ≠ some (.global x) := by
  intro i hi x hx
  cases h.deciding i hi with
  | arithmetic harithmetic => cases harithmetic <;> cases hx
  | truth b => cases hx
  | control hres => cases hres.symm.trans hx

/-! ## Right operands -/

/-- The machine executes the code of a condition, up to an exit or a division by zero, without an
instruction from one place up to another. -/
def Avoids (code : List Instr) (index : LabelIndex) (m : Machine) (c : List Instr) (e : Exits)
    (lo hi : Nat) : Prop :=
  ∃ trail m', Stays code index m.next (m.next + c.length) m trail m' ∧
    ((∃ b, m'.next = exitPlace index (m.next + c.length) (e b)) ∨
      DividesWithin code index m.next (m.next + c.length) m') ∧
    ∀ q ∈ trail, q < lo ∨ hi ≤ q

section Skips

variable {kind : NodeKind} {token : Token} {holds fails : Option Label} {s s' : LowerState}

/-- The parts of the code of a chain with several operands. -/
lemma logicChain_cons_parts (hop : decisive? op = some d)
    (h : (logicChain kind token (op :: ops) (left :: rest) holds fails).Yields s () c s') :
    ∃ decided middle s0 c₁ s1 c₂ c3,
      ConditionCode s.scope left (decidingExits d decided middle) s0 c₁ s1.names ∧
      s1.scope = s.scope ∧
        (logicChain kind token ops rest holds fails).Yields s1 () c₂ s' ∧
        JoinCode (exits holds fails) d decided c3 ∧ c = c₁ ++ .mark middle :: (c₂ ++ c3) := by
  rw [logicChain_cons hop] at h
  cases hexit : exits holds fails d with
  | some l =>
    rw [hexit] at h
    obtain ⟨c₁, s1, c₂, hleft, hright, rfl⟩ := yields_shortCircuit_some h
    obtain ⟨hl, hs1⟩ := cond_follows left hleft
    rw [scope_names, exits_eta] at hl
    exact ⟨l, _, _, c₁, s1, c₂, [], hl, hs1, hright, .inl ⟨hexit, rfl⟩, by rw [append_nil]⟩
  | none =>
    rw [hexit] at h
    obtain ⟨c₁, s1, c₂, hleft, hright, rfl⟩ := yields_shortCircuit_none h
    obtain ⟨hl, hs1⟩ := cond_follows left hleft
    rw [scope_names, exits_eta] at hl
    exact ⟨_, _, _, c₁, s1, c₂, _, hl, hs1, hright, .inr ⟨hexit, rfl⟩, rfl⟩

/-- A chain does not execute what its left operand does not go to and the rest avoids. -/
lemma avoids_chain (hlink : Linked code index) {c3 decided middle lo hi left}
    (hjoin : JoinCode e d decided c3) (hat : CodeAt code m.next (c₁ ++ .mark middle :: (c₂ ++ c3)))
    (hlo : m.next + c₁.length + 1 ≤ lo) (hhi : hi ≤ m.next + c₁.length + 1 + c₂.length)
    (hleft : Tested code index n m c₁ (decidingExits d decided middle) left tests)
    (hrest : ∀ m2 : Machine, left ≠ .ok (.bool d) → m2.next = m.next + c₁.length + 1 →
      m2.store = m.store →
      Avoids code index m2 c₂ e lo hi) :
    Avoids code index m (c₁ ++ .mark middle :: (c₂ ++ c3)) e lo hi := by
  have hlen : m.next + (c₁ ++ .mark middle :: (c₂ ++ c3)).length = m.next + c₁.length + 1 +
      (c₂ ++ c3).length := by
    simp only [length_append, length_cons]
    omega
  rcases hleft with ⟨b, trail, m1, rfl, hstays, hnext, hagrees, -⟩ | ⟨trail, m1, rfl,
    hstays, hdivides, -⟩
  · by_cases hb : b = d
    · subst hb
      rw [decidingExits, if_pos rfl] at hnext
      obtain ⟨trail', place, hstays', hplace, -, havoids⟩ :=
        hstays.leave_chain hlink hjoin hat hnext
      refine ⟨trail', _, hstays', .inl ⟨b, hplace⟩, fun q hq => ?_⟩
      rcases havoids q hq with hq | hq <;> omega
    · rw [decidingExits, if_neg hb] at hnext
      obtain ⟨henter, -⟩ := hstays.enter_rest hlink hat hnext
      unfold Avoids
      rw [hlen]
      have hwide := henter.widen (le_refl _) (Nat.le_add_right _ (c₂ ++ c3).length)
      have hfrom : m.next ≤ m.next + c₁.length + 1 := by omega
      have hfirst : ∀ q ∈ trail ++ [m.next + c₁.length], q < lo ∨ hi ≤ q := fun q hq =>
        .inl (lt_of_lt_of_le (henter.inside q hq).2 hlo)
      obtain ⟨trail2, m3, hstays2, hend, havoids⟩ :=
        hrest { m1 with next := m.next + c₁.length + 1 }
        (fun h => hb (Value.bool.inj (Except.ok.inj h))) rfl hagrees.store_eq
      rcases hend with ⟨b', hnext2⟩ | hdivides
      · have hat2 : CodeAt code (m.next + c₁.length + 1) (c₂ ++ c3) := hat.right.tail
        obtain ⟨trail3, place, hstays3, hplace, -, hbehind⟩ := hstays2.leave_rest hjoin hat2 hnext2
        refine ⟨_, _, hwide.append (hstays3.widen hfrom (le_refl _)), .inl ⟨b', hplace⟩, ?_⟩
        exact forall_mem_append.mpr ⟨hfirst, forall_mem_append.mpr
          ⟨havoids, fun q hq => .inr (le_trans hhi (hbehind q hq))⟩⟩
      · have hle : m.next + c₁.length + 1 + c₂.length ≤ m.next + c₁.length + 1 +
            (c₂ ++ c3).length := by
          rw [length_append]
          omega
        exact ⟨_, m3, hwide.append (hstays2.widen hfrom hle), .inr (hdivides.widen hfrom hle),
          forall_mem_append.mpr ⟨hfirst, havoids⟩⟩
  · rw [Avoids, hlen]
    exact ⟨trail, m1, hstays.widen (le_refl _) (by omega),
      .inr (hdivides.widen (le_refl _) (by omega)),
      fun q hq => .inl (by have := (hstays.inside q hq).2; omega)⟩

/-- An operand of a chain that has decided keeps the machine out of the code of the operands to its
right. -/
lemma logicChain_skips (hlink : Linked code index) (before : List Tree) {opsBefore opsAfter}
    (hop : decisive? op = some d) (hlen : opsBefore.length = before.length)
    (h : (logicChain kind token (opsBefore ++ op :: opsAfter) (before ++ left :: rest) holds
      fails).Yields s () c s') :
    ∃ c₁ s1 c₂ c3, c = c₁ ++ c₂ ++ c3 ∧
    (logicChain kind token opsAfter rest holds fails).Yields s1 () c₂ s' ∧
      (∀ i ∈ c3, i.op = .mark) ∧
      ∀ m : Machine, CodeAt code m.next c → eval s.scope m.store left = .ok (.bool d) →
        Avoids code index m c (exits holds fails) (m.next + c₁.length)
        (m.next + c₁.length + c₂.length) := by
  induction before generalizing opsBefore s c with
  | nil =>
    obtain rfl := eq_nil_of_length_eq_zero hlen
    obtain ⟨decided, middle, s0, c₁, s1, c₂, c3, hleft, -, hrest, hjoin, rfl⟩ :=
      logicChain_cons_parts hop h
    refine ⟨c₁ ++ [.mark middle], s1, c₂, c3, by simp, hrest, hjoin.op_eq_mark,
      fun m hat hdecided => ?_⟩
    have htested := hleft.tested hlink ⟨d, nofun⟩ hat.left []
    rw [hdecided] at htested
    refine avoids_chain hlink hjoin hat ?_ ?_ htested fun m2 hne => absurd rfl hne
    · simp [Nat.add_assoc]
    · simp [Nat.add_assoc]
  | cons t before ih =>
    obtain ⟨op', opsBefore, rfl⟩ := exists_cons_of_length_eq_add_one hlen
    cases hop' : decisive? op' with
    | none => exact absurd h (not_yields_logicChain hop')
    | some d' =>
      obtain ⟨decided, middle, s0, c₁, s1, c₂, c3, hleft, hscope, hrest, hjoin, rfl⟩ :=
        logicChain_cons_parts hop' h
      obtain ⟨a1, s2, a2, a3, rfl, hright, hmarks, havoids⟩ := ih (Nat.succ.inj hlen) hrest
      refine ⟨c₁ ++ .mark middle :: a1, s2, a2, a3 ++ c3, by simp, hright,
        forall_mem_append.mpr ⟨hmarks, hjoin.op_eq_mark⟩, fun m hat hdecided => ?_⟩
      have hplace : m.next + (c₁ ++ .mark middle :: a1).length =
          m.next + c₁.length + 1 + a1.length := by
        simp only [length_append, length_cons]
        omega
      rw [hplace]
      refine avoids_chain hlink hjoin hat (Nat.le_add_right _ _) ?_
        (hleft.tested hlink ⟨d', nofun⟩ hat.left []) fun m2 _ hnext hstore => ?_
      · simp only [length_append]
        omega
      · have hrestAt := hat.right.tail.left.at_place hnext
        rw [← hnext]
        exact havoids m2 hrestAt (by rw [hscope, hstore]; exact hdecided)

/-- The code of a condition that is a chain is that of the chain. -/
lemma yields_logicChain_of_cond {value children} (hops : op ∈ ops)
    (h : (cond (.node .logic token value ops children) holds fails).Yields s () c s') :
    (logicChain .logic token ops children holds fails).Yields s () c s' := by
  unfold cond at h
  split at h
  · rename_i htransparent
    rw [isEmpty_iff.mp htransparent] at hops
    cases hops
  · exact (yields_checkChain_bind h).2.2

end Skips

/-! ## Leaving at the targets -/

/-- Control leaves code that ends at a place for a target: it comes to the mark of the target, or
falls off the end where there is none. -/
def LeavesFor (code : List Instr) (stop : Nat) (target : Option Label) (place : Nat) : Prop :=
  match target with
  | some l => MarkedAt code l.name place
  | none => place = stop

section Targets

variable {start stop : Nat}

/-- A machine that goes to an exit that is not in the code leaves the code there. -/
lemma leavesFor_exitPlace (hindex : labelIndex code = .ok index)
    (hlabels : ∀ b l, e b = some l → ∃ j, MarkedAt code l.name j ∧ (j < start ∨ stop ≤ j))
    (hnext : m.next = exitPlace index stop (e b)) :
    LeavesFor code stop (e b) m.next ∧ (m.next < start ∨ stop ≤ m.next) := by
  rw [hnext]
  cases hb : e b with
  | none => exact ⟨rfl, .inr (le_refl _)⟩
  | some l =>
    obtain ⟨j, hmarked, houtside⟩ := hlabels b l hb
    have hplace : exitPlace index stop (some l) = j := by
      rw [exitPlace, place, (labelIndex_getElem? hindex).mpr hmarked, Option.getD_some]
    rw [hplace]
    exact ⟨hmarked, houtside⟩

/-- What is avoided on the way through the code is not executed on any other way through it. -/
lemma Avoids.of_stays {lo hi trail m'} (h : Avoids code index m c e lo hi)
    (hindex : labelIndex code = .ok index)
    (hlabels : ∀ b l, e b = some l → ∃ j, MarkedAt code l.name j ∧
      (j < m.next ∨ m.next + c.length ≤ j))
    (hstays : Stays code index m.next (m.next + c.length) m trail m')
    (hend : Through code index m.next (m.next + c.length) m') : ∀ q ∈ trail, q < lo ∨ hi ≤ q := by
  obtain ⟨trail', m1, hstays', hend', havoids⟩ := h
  have hthrough : Through code index m.next (m.next + c.length) m1 := by
    rcases hend' with ⟨b, hnext⟩ | hdivides
    · exact .inl (leavesFor_exitPlace hindex hlabels hnext).2
    · exact .inr hdivides
  obtain ⟨rfl, -⟩ := hstays.unique hstays' hend hthrough
  exact havoids

end Targets

/-- The code of a condition leaves for the target of its truth value or divides by zero, writes no
variable, and tests exactly the atoms that are evaluated, in the order of evaluation. Nothing of the
code of the operands to the right of one that has decided is executed. -/
theorem condition_code_short_circuits (t : Tree) (holds fails : Option Label) (s : LowerState)
    (code : List Instr) (index : LabelIndex) (m : Machine)
    (hcond : (cond t holds fails s).outcome = .ok ()) (htarget : holds ≠ none ∨ fails ≠ none)
    (hindex : labelIndex code = .ok index) (hat : CodeAt code m.next (cond t holds fails s).code)
    (hlabels : ∀ l, holds = some l ∨ fails = some l → ∃ j, MarkedAt code l.name j ∧
      (j < m.next ∨ m.next + (cond t holds fails s).code.length ≤ j)) :
    let c := (cond t holds fails s).code
    let stop := m.next + c.length
    (∀ i ∈ c, ∀ x, i.result ≠ some (.global x)) ∧
    List.Forall₂ (TestedAt code) (t.atoms s.scope) (testPlaces m.next c) ∧
    ∃ trail m', Stays code index m.next stop m trail m' ∧
      ((∃ b, eval s.scope m.store t = .ok (.bool b) ∧
          LeavesFor code stop (if b then holds else fails) m'.next ∧
          (m'.next < m.next ∨ stop ≤ m'.next)) ∨
        eval s.scope m.store t = .error .divisionByZero ∧ DividesWithin code index m.next stop m') ∧
      m'.globals = m.globals ∧
      testsAlong code trail = evaluated s.scope m.store t (testPlaces m.next c) ∧
      ∀ token value opsBefore op opsAfter before left rest d,
        t = .node .logic token value (opsBefore ++ op :: opsAfter) (before ++ left :: rest) →
        opsBefore.length = before.length → decisive? op = some d →
        eval s.scope m.store left = .ok (.bool d) →
        ∃ c₁ s₁ c₂ c₃, c = c₁ ++ c₂ ++ c₃ ∧
          (logicChain .logic token opsAfter rest holds fails).Yields s₁ () c₂
          (cond t holds fails s).state ∧
          (∀ i ∈ c₃, i.op = .mark) ∧
          ∀ q ∈ trail, q < m.next + c₁.length ∨ m.next + c₁.length + c₂.length ≤ q := by
  intro c stop
  have hlinked := linked_of_labelIndex hindex
  have hyields := yields_of_outcome hcond
  obtain ⟨hcode, -⟩ := cond_follows t hyields
  have hexit : ∃ b, exits holds fails b ≠ none :=
    htarget.elim (fun h => ⟨true, h⟩) fun h => ⟨false, h⟩
  have houtside : ∀ b l, exits holds fails b = some l → ∃ j, MarkedAt code l.name j ∧
      (j < m.next ∨ stop ≤ j) :=
    fun b l hb => hlabels l (by cases b; exacts [.inr hb, .inl hb])
  have hresult := hcode.result_ne_global
  refine ⟨hresult, hcode.testedBy hexit hat, ?_⟩
  have htested := hcode.tested hlinked hexit hat []
  rw [List.append_nil] at htested
  obtain ⟨trail, m', hstays, hend, hthrough, htests⟩ :
    ∃ trail m', Stays code index m.next stop m trail m' ∧
      ((∃ b, eval s.scope m.store t = .ok (.bool b) ∧
          LeavesFor code stop (if b then holds else fails) m'.next ∧
          (m'.next < m.next ∨ stop ≤ m'.next)) ∨
        eval s.scope m.store t = .error .divisionByZero ∧ DividesWithin code index m.next stop m') ∧
      Through code index m.next stop m' ∧
      testsAlong code trail = evaluated s.scope m.store t (testPlaces m.next c) := by
    rcases htested with ⟨b, trail, m', hvalue, hstays, hnext, -, htests⟩ |
      ⟨trail, m', hvalue, hstays, hdivides, htests⟩
    · obtain ⟨hleaves, hout⟩ := leavesFor_exitPlace hindex houtside hnext
      refine ⟨trail, m', hstays, .inl ⟨b, hvalue, ?_, hout⟩, .inl hout, htests⟩
      cases b <;> exact hleaves
    · exact ⟨trail, m', hstays, .inr ⟨hvalue, hdivides⟩, .inr hdivides, htests⟩
  refine ⟨trail, m', hstays, hend, hstays.globals_eq fun q i hlower hupper hi => ?_, htests, ?_⟩
  · obtain ⟨j, rfl⟩ := Nat.exists_eq_add_of_le hlower
    rw [hat j (Nat.lt_of_add_lt_add_left hupper)] at hi
    exact hresult i (List.mem_of_getElem? hi)
  · rintro token value opsBefore op opsAfter before left rest d rfl hlength hop hleft
    obtain ⟨c₁, s₁, c₂, c₃, hc, hrest, hmarks, havoids⟩ :=
      logicChain_skips hlinked before hop hlength
      (yields_logicChain_of_cond (List.mem_append_right opsBefore List.mem_cons_self) hyields)
    exact ⟨c₁, s₁, c₂, c₃, hc, hrest, hmarks,
      (havoids m hat hleft).of_stays hindex houtside hstays hthrough⟩

/-- A test of a divisor and then one of a quotient. -/
def guardedQuotient : Tree :=
  let x := Tree.leaf .identifier {} "x"
  let number text := Tree.leaf .intLiteral {} text
  .node .logic {} "" [.andAnd] [.node .comparison {} "" [.less] [number "0", x],
    .node .comparison {} "" [.less] [.node .product {} "" [.slash] [number "6", x], number "3"]]

/-- A program with a loop on these tests. -/
def guardedLoop : Tree :=
  let x := Tree.leaf .identifier {} "x"
  .branch .program {} [.node .declaration {} "num" [] [x],
    .branch .loop {} [guardedQuotient, .branch .assignment {} [x, Tree.leaf .intLiteral {} "4"]]]

/-- With a zero divisor the loop is left after the first of the two tests, before the division. -/
theorem guardedLoop_short_circuits :
    let code := (lower {} guardedLoop {}).code
    let s : LowerState := { (collectAll guardedLoop.declarations {}).state with names := ⟨0, 2⟩ }
    let lowered := cond guardedQuotient none (some (labelOf 1)) s
    lowered.outcome = .ok () ∧ CodeAt code 1 lowered.code ∧ testPlaces 1 lowered.code = [1, 5] ∧
    ∃ index trail m', labelIndex code = .ok index ∧ Stays code index 1 6 { next := 1 } trail m' ∧
      MarkedAt code "_L1" m'.next ∧ m'.globals = {} ∧ testsAlong code trail = [1] := by
  intro code s lowered
  have hlower : (lower {} guardedLoop {}).outcome = .ok () := by decide +kernel
  have hcond : lowered.outcome = .ok () := by decide +kernel
  have hlength : lowered.code.length = 5 := by decide +kernel
  have hparts : code = [.mark (labelOf 0)] ++ (lowered.code ++ code.drop 6) := by decide +kernel
  have hwhole : CodeAt code 0 ([.mark (labelOf 0)] ++ (lowered.code ++ code.drop 6)) :=
    hparts ▸ CodeAt.self code
  have hat : CodeAt code 1 lowered.code := hwhole.right.left
  have hlast : code[8]? = some (.mark (labelOf 1)) := by decide +kernel
  have hmarked : MarkedAt code "_L1" 8 := ⟨_, _, hlast, rfl, rfl, rfl⟩
  obtain ⟨index, hindex⟩ := labelIndex_of_checkLabels (lower_checkLabels hlower)
  obtain ⟨-, -, trail, m', hstays, hend, hglobals, htests, -⟩ :=
    condition_code_short_circuits guardedQuotient none (some (labelOf 1)) s code index
        { next := 1 } hcond (.inr nofun) hindex hat fun l hl => by
      obtain rfl : labelOf 1 = l := by simpa using hl
      exact ⟨8, hmarked, .inr (by rw [hlength]; decide)⟩
  have hvalue : eval s.scope (Machine.store { next := 1 }) guardedQuotient =
    .ok (.bool false) := by rfl
  have hplaces : testPlaces 1 lowered.code = [1, 5] := by decide +kernel
  have hinside : Stays code index 1 (1 + lowered.code.length) { next := 1 } trail m' := hstays
  rw [hlength] at hinside
  have hfirst : testsAlong code trail = [1] := by
    refine htests.trans ?_
    rfl
  refine ⟨hcond, hat, hplaces, index, trail, m', hindex, hinside, ?_, hglobals, hfirst⟩
  rcases hend with ⟨b, hb, hleaves, -⟩ | ⟨hb, -⟩
  · obtain rfl : false = b := Value.bool.inj (Except.ok.inj (hvalue.symm.trans hb))
    exact hleaves
  · cases hvalue.symm.trans hb

end ThreeAddress
