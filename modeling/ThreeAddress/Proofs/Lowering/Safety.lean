import ThreeAddress.Proofs.Lowering.Assignment
import ThreeAddress.Proofs.Lowering.Lanes

/-!
# Runs of lowered code do not go wrong

A typed instruction whose temporaries have values is executed or divides by zero (`step_progress`).
In lowered code a run always comes to such an instruction: it follows a walk, on which every
temporary is written before it is read. So the only failure of a run is a division by zero.
-/

namespace ThreeAddress

open List Lowering Machine

variable {i : Instr} {index : LabelIndex} {Δ : Lanes} {m m' : Machine} {v : Operand}
  {Γ : Scope} {name : String}

/-! ## Progress -/

/-- The temporaries that an instruction reads have values. -/
def Machine.Supplies (m : Machine) (i : Instr) : Prop :=
  ∀ name id, i.Reads (.temp name id) → ∃ w, m.temps[name]? = some w

lemma exists_read_temp {id} (h : ∃ w, m.temps[name]? = some w) :
    ∃ w, m.read (some (.temp name id)) = .ok w := by
  obtain ⟨w, hw⟩ := h
  exact ⟨w, by simp only [Machine.read, hw]⟩

/-- A number that an instruction reads can be read. -/
lemma Machine.Supplies.exists_read (hm : m.Supplies i) (hv : v.Numeric Γ Δ)
    (hreads : i.Reads v) : ∃ w, m.read (some v) = .ok w := by
  cases hv with
  | const w => exact ⟨w, rfl⟩
  | held hholds =>
    cases hholds with
    | global _ => exact ⟨_, rfl⟩
    | temp _ => exact exists_read_temp (hm _ _ hreads)

lemma exists_compare {op} (hop : op.isRelation = true) (x y : Int64) :
    ∃ b, compare op x y = .ok b := by
  cases op with
  | eq | ne | lt | gt | le | ge => exact ⟨_, rfl⟩
  | _ => cases hop

/-- A binary operation has a result unless it divides by zero. -/
lemma compute_isBinary {op} (hop : op.isBinary = true) (x y : Int64) :
    (∃ w, compute op [x, y] = .ok w) ∨ compute op [x, y] = .error .divisionByZero := by
  cases op with
  | add | sub | mul => exact .inl ⟨_, rfl⟩
  | div | rem =>
    by_cases hy : y = 0
    · exact .inr (if_pos hy)
    · exact .inl ⟨_, if_neg hy⟩
  | _ => cases hop

/-- A typed test can be decided. -/
lemma Machine.Supplies.exists_decide {t} (hm : m.Supplies i) (ht : i.test = some t)
    (htyped : t.Typed Γ Δ) :
    ∃ b, m.decide i.test = .ok b := by
  have hleft : ∀ v, t.left = some v → i.Reads v := fun v hv => .inr ⟨t, ht, .inl hv⟩
  have hright : ∀ v, t.right = some v → i.Reads v := fun v hv => .inr ⟨t, ht, .inr hv⟩
  have hdecide : ∀ x y b, m.read t.left = .ok x → m.read t.right = .ok y →
      compare t.op x y = .ok b → m.decide i.test = .ok b := by
    intro x y b hx hy hb
    simp only [ht, decide, hx, hy, bind, Except.bind, hb]
  cases htyped with
  | numbers hop hl hr =>
    obtain ⟨x, hx⟩ := hm.exists_read hl (hleft _ rfl)
    obtain ⟨y, hy⟩ := hm.exists_read hr (hright _ rfl)
    obtain ⟨b, hb⟩ := exists_compare hop x y
    exact ⟨b, hdecide x y b hx hy hb⟩
  | flag _ => exact ⟨_, hdecide _ _ _ rfl rfl rfl⟩
  | truths hop _ _ =>
    obtain ⟨x, hx⟩ := exists_read_temp (hm _ _ (hleft _ rfl))
    obtain ⟨y, hy⟩ := exists_read_temp (hm _ _ (hright _ rfl))
    obtain ⟨b, hb⟩ := exists_compare hop x y
    exact ⟨b, hdecide x y b hx hy hb⟩

/-- A copy into what is held is executed if its source can be read. -/
lemma step_copy {dst src type w} (hdst : dst.Holds Γ Δ type) (hw : m.read (some src) = .ok w) :
    ∃ m', m.step index (.copy dst src) = .ok m' := by
  obtain ⟨m1, hm1⟩ : ∃ m1, m.write (some dst) w = .ok m1 := by
    cases hdst with
    | global | temp => exact ⟨_, rfl⟩
  exact ⟨_, step_write rfl nofun (readAll_one hw) rfl hm1⟩

/-- A typed instruction is executed, if its temporaries have values, or divides by zero. -/
theorem step_progress (htyped : i.Typed Γ Δ) (hm : m.Supplies i) :
    (∃ m', m.step index i = .ok m') ∨ m.step index i = .error .divisionByZero := by
  cases htyped with
  | number hdst hsrc =>
    obtain ⟨w, hw⟩ := hm.exists_read hsrc (.inl mem_cons_self)
    exact .inl (step_copy hdst hw)
  | truth b hdst => exact .inl (step_copy hdst rfl)
  | neg _ hsrc =>
    obtain ⟨w, hw⟩ := hm.exists_read hsrc (.inl mem_cons_self)
    exact .inl ⟨_, step_write rfl nofun (readAll_one hw) rfl rfl⟩
  | binary hop _ hleft hright =>
    have hjump := isJump_of_isBinary hop
    have hmark := ne_mark_of_isBinary hop
    obtain ⟨x, hx⟩ := hm.exists_read hleft (.inl mem_cons_self)
    obtain ⟨y, hy⟩ := hm.exists_read hright (.inl (mem_cons_of_mem _ mem_cons_self))
    rcases compute_isBinary hop x y with ⟨w, hw⟩ | hzero
    · exact .inl ⟨_, step_write hjump hmark (readAll_two hx hy) hw rfl⟩
    · exact .inr (step_fault hjump hmark (readAll_two hx hy) hzero)
  | jumpIf htest | jumpUnless htest =>
    obtain ⟨b, hb⟩ := hm.exists_decide rfl htest
    left
    show ∃ m', (m.decide _ >>= _) = Except.ok m'
    rw [hb]
    exact ⟨_, rfl⟩
  | jump l => exact .inl ⟨_, step_jump l⟩
  | mark l => exact .inl ⟨_, step_mark l⟩

/-! ## Walks of lowered code -/

section Walks

variable {code : List Instr} {visited : List Nat} {p : Nat}

/-- The operands that the instructions at some places write. -/
def writtenAt (code : List Instr) (visited : List Nat) : Set Operand :=
  {v | ∃ j ∈ visited, ∃ i, code[j]? = some i ∧ i.result = some v}

/-- If all walks are covered at the beginning, then they are covered wherever a walk has come. -/
lemma Walk.covered (hcovered : ∀ k, Covered code index k 0 ∅) (h : Walk code index visited p)
    (k : Nat) :
    Covered code index k p (writtenAt code visited) := by
  induction h generalizing k with
  | start => exact (hcovered k).mono (Set.empty_subset _)
  | @step visited i j hwalk hedge ih =>
    have hedge' := hedge
    obtain ⟨instr, js, hi, -, -⟩ := hedge
    refine ((ih (k + 1) instr hi).2 j hedge').mono (Set.union_subset ?_ ?_)
    · rintro v ⟨j, hj, hwritten⟩
      exact ⟨j, mem_append_left _ hj, hwritten⟩
    · intro v hv
      exact ⟨i, mem_append_right _ mem_cons_self, instr, hi, hv⟩

/-- A machine is where a walk has come, and the temporaries that were written on the walk have
values. -/
def Machine.Follows (code : List Instr) (index : LabelIndex) (m : Machine) : Prop :=
  ∃ visited, Walk code index visited m.next ∧
    ∀ name id, .temp name id ∈ writtenAt code visited → ∃ w, m.temps[name]? = some w

/-- An executed instruction leaves temporaries with values. -/
lemma step_keeps_temps (h : m.step index i = .ok m')
    (hname : ∃ w, m.temps[name]? = some w) : ∃ w, m'.temps[name]? = some w := by
  rcases step_cases h with ⟨-, rfl⟩ | ⟨-, rfl⟩ | ⟨_, -, -, rfl⟩ | ⟨_, -, -, rfl⟩ |
    ⟨-, -, xs, w, m1, -, -, hwrite, rfl⟩
  · exact hname
  · exact hname
  · exact hname
  · exact hname
  · rcases write_cases hwrite with ⟨x, -, rfl⟩ | ⟨name', id, -, rfl⟩
    · exact hname
    · show ∃ w', (m.temps.insert name' w)[name]? = some w'
      rw [Std.TreeMap.getElem?_insert]
      split
      · exact ⟨w, rfl⟩
      · exact hname

/-- A typed instruction with a result is an operation. -/
lemma Instr.Typed.plain (h : i.Typed Γ Δ) (hres : i.result = some v) :
    i.op.isJump = false ∧ i.op ≠ .mark := by
  cases h with
  | number _ _ | truth _ _ | neg _ _ => exact ⟨rfl, nofun⟩
  | binary hop _ _ _ => exact ⟨isJump_of_isBinary hop, ne_mark_of_isBinary hop⟩
  | jumpIf _ | jumpUnless _ | jump _ | mark _ => cases hres

/-- A typed instruction gives a value to the temporary that is its result. -/
lemma step_writes_temp {id} (htyped : i.Typed Γ Δ) (h : m.step index i = .ok m')
    (hres : i.result = some (.temp name id)) : ∃ w, m'.temps[name]? = some w := by
  obtain ⟨hjump, hmark⟩ := htyped.plain hres
  obtain ⟨xs, w, m1, -, -, hwrite, rfl⟩ := step_plain_cases hjump hmark h
  rw [hres] at hwrite
  cases hwrite
  exact ⟨w, Std.TreeMap.getElem?_insert_self⟩

/-- Where all jumps go to labels in the index, an executed instruction of typed code follows the
walk. -/
lemma Machine.Follows.step (hm : m.Follows code index) (htyped : i.Typed Γ Δ)
    (hi : code[m.next]? = some i) (h : m.step index i = .ok m')
    (hindex : i.op.isJump = true → ∃ l j, i.target = some l ∧ index[l.name]? = some j) :
    m'.Follows code index := by
  obtain ⟨visited, hwalk, htemps⟩ := hm
  refine ⟨visited ++ [m.next], hwalk.step (step_edge hi h hindex), ?_⟩
  rintro name id ⟨j, hj, instr, hinstr, hres⟩
  rcases mem_append.mp hj with hj | hj
  · exact step_keeps_temps h (htemps name id ⟨j, hj, instr, hinstr, hres⟩)
  · obtain rfl := mem_singleton.mp hj
    obtain rfl := Option.some.inj (hi.symm.trans hinstr)
    exact step_writes_temp htyped h hres

/-- A machine on a covered walk has the values that the next instruction reads. -/
lemma Machine.Follows.supplies (hcovered : ∀ k, Covered code index k 0 ∅)
    (hm : m.Follows code index) (hi : code[m.next]? = some i) : m.Supplies i := by
  obtain ⟨visited, hwalk, htemps⟩ := hm
  intro name id hreads
  exact htemps name id (((hwalk.covered hcovered 1) i hi).1 name id hreads)

end Walks

/-! ## Lowered programs -/

section Programs

variable {settings : Settings} {state : LowerState} {root : Tree}

section

variable (h : (lower settings root state).outcome = .ok ())
  (hindex : labelIndex (lower settings root state).code = .ok index)
include h hindex

/-- Lowered code is covered from its beginning on. -/
lemma lower_covered (k : Nat) : Covered (lower settings root state).code index k 0 ∅ := by
  have hcode := (lower_follows (yields_of_outcome h)).1
  refine hcode.covered (linked_of_labelIndex hindex) (.self _) (covered_outside ?_)
  simp

/-- A run of lowered code follows a walk. -/
lemma lower_run_follows {k start}
    (hpath : Path (lower settings root state).code index k { globals := start } m) :
    m.Follows (lower settings root state).code index := by
  obtain ⟨Δ, hlaned⟩ := (lower_follows (yields_of_outcome h)).1.hasLanes
  have hstart : Follows (lower settings root state).code index { globals := start } := by
    refine ⟨[], .start, ?_⟩
    rintro name id ⟨j, hj, -⟩
    cases hj
  refine hpath.invariant (P := fun m => m.Follows _ index) (fun hi hstep hm => ?_) hstart
  have hmem := mem_of_getElem? hi
  refine hm.step (hlaned.typed _ hmem) hi hstep fun hjump => ?_
  obtain ⟨l, hl, hmark⟩ := lower_targets h _ hmem hjump
  obtain ⟨j, hj⟩ := getElem?_of_mem hmark
  exact ⟨labelOf l, j, hl, labelIndex_locates hindex hj⟩

/-- A run of lowered code can go on with the next instruction, or divides by zero. -/
lemma lower_run_progress {k start}
    (hpath : Path (lower settings root state).code index k { globals := start } m)
    (hi : (lower settings root state).code[m.next]? = some i) :
    (∃ m', m.step index i = .ok m') ∨ m.step index i = .error .divisionByZero := by
  obtain ⟨Δ, hlaned⟩ := (lower_follows (yields_of_outcome h)).1.hasLanes
  have hfollows := lower_run_follows h hindex hpath
  have hsupplies := hfollows.supplies (lower_covered h hindex) hi
  exact step_progress (hlaned.typed i (mem_of_getElem? hi)) hsupplies

end

/-- In lowered code every temporary is written before it is read, on every walk from the first
instruction on. So a run finishes, is stopped at its step limit, or divides by zero: no other
failure is possible. -/
theorem lowered_code_is_safe (settings : Settings) (state : LowerState) (root : Tree)
    (hlower : (lower settings root state).outcome = .ok ()) :
    (∃ index, labelIndex (lower settings root state).code = .ok index ∧
      ∀ visited p i name id, Walk (lower settings root state).code index visited p →
        (lower settings root state).code[p]? = some i → i.Reads (.temp name id) →
        ∃ j ∈ visited, ∃ writer, (lower settings root state).code[j]? = some writer ∧
          writer.result = some (.temp name id)) ∧
    ∀ start limit record,
      (∃ r, run (lower settings root state).code start limit record = .finished r) ∨
      (∃ r, run (lower settings root state).code start limit record = .stopped r) ∨
      ∃ p i, run (lower settings root state).code start limit record =
      .failed p i .divisionByZero := by
  have hcheck := lower_checkLabels hlower
  obtain ⟨index, hindex⟩ := labelIndex_of_checkLabels hcheck
  have hcovered := lower_covered hlower hindex
  refine ⟨⟨index, hindex, ?_⟩, fun start limit record => ?_⟩
  · intro visited p i name id hwalk hi hreads
    exact ((hwalk.covered hcovered 1) i hi).1 name id hreads
  · obtain ⟨k, m, hpath, hend⟩ := run_follows hindex hcheck start limit record
    rcases hend with ⟨-, r, hrun, -⟩ | ⟨-, r, hrun, -⟩ | ⟨i, fault, hi, hfault, hrun⟩
    · exact .inl ⟨r, hrun⟩
    · exact .inr (.inl ⟨r, hrun⟩)
    · rcases lower_run_progress hlower hindex hpath hi with ⟨m', hstep⟩ | hzero
      · rw [hstep] at hfault
        cases hfault
      · rw [hzero] at hfault
        obtain rfl := Except.error.inj hfault
        exact .inr (.inr ⟨_, _, hrun⟩)

/-- A program that gives `x` another value if the quotient of 6 and `x` is 2. -/
def switchedQuotient : Tree :=
  let x := Tree.leaf .identifier {} "x"
  let number text := Tree.leaf .intLiteral {} text
  let quotient := Tree.node .product {} "" [.slash] [number "6", x]
  .branch .program {} [.node .declaration {} "num" [] [x], .branch .selection {} [quotient,
    .branch .caseClause {} [number "2", .branch .assignment {} [x, number "1"]]]]

/-- Whatever it is started from, the program finishes, is stopped, or divides by zero. -/
theorem switchedQuotient_is_safe : (lower {} switchedQuotient {}).outcome = .ok () ∧
    ∀ start limit record, (∃ r, run (lower {} switchedQuotient {}).code start limit record =
      .finished r) ∨
      (∃ r, run (lower {} switchedQuotient {}).code start limit record = .stopped r) ∨
      ∃ p i, run (lower {} switchedQuotient {}).code start limit record =
      .failed p i .divisionByZero := by
  have hlower : (lower {} switchedQuotient {}).outcome = .ok () := by rfl
  have hsafe := lowered_code_is_safe {} {} switchedQuotient
  exact ⟨hlower, (hsafe hlower).2⟩

end Programs

end ThreeAddress
