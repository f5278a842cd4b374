import ThreeAddress.Backend
import ThreeAddress.Proofs.Qbe.Execution

/-!
# The QBE backend simulates the machine

Every executed instruction of a regular program is matched by at least one line of its module, and
afterwards the two are at corresponding places and still agree (`step_simulated`). So a run that
finishes is matched up to the end of the code, where the variables are printed, and a run that can
be continued forever keeps the module running. A division of the least word by -1 has no meaning in
the language: there the module gets stuck.
-/

namespace ThreeAddress

variable {names : List String} {k n : Nat} {op : Opcode} {x : String} {il : Il.Module}
  {index : LabelIndex} {m m' : Machine} {s : Il.State} {p : Program} {st : State}

namespace Qbe

open Lowering Machine

/-! ## Operations -/

section Operations

variable {x y w : Int64} {b : Bool}

lemma operate?_unary (hop : op = .copy ∨ op = .neg) (h : compute op [x] = .ok w) :
    Il.operate? op [x] = some w := by
  rcases hop with rfl | rfl <;> exact congrArg some (Except.ok.inj h)

/-- An operation on two words that the machine executes is the same in the language, unless it
divides the least word by -1. -/
lemma operate?_binary (hop : op.isBinary = true) (h : compute op [x, y] = .ok w)
    (hdefined : ¬ ((op = .div ∨ op = .rem) ∧ x = Int64.minValue ∧ y = -1)) :
    Il.operate? op [x, y] = some w := by
  cases op with
  | add | sub | mul => exact congrArg some (Except.ok.inj h)
  | div | rem =>
    simp only [compute] at h
    split at h
    · cases h
    · rename_i hy
      simp only [Il.operate?, isUndefinedQuotient_eq_false hy fun hmin => hdefined ⟨by simp, hmin⟩]
      exact congrArg some (Except.ok.inj h)
  | _ => cases hop

/-- A comparison is the same in the language. -/
lemma relate?_eq (h : compare op x y = .ok b) : Il.relate? op x y = some b := by
  cases op with
  | eq =>
    cases h
    simp [Il.relate?, beq_eq_decide]
  | ne =>
    cases h
    simp [Il.relate?, bne, beq_eq_decide]
  | lt | gt | le | ge => exact congrArg some (Except.ok.inj h)
  | _ => cases h

end Operations

/-! ## Steps -/

/-- A state of the module and a state of the machine are at corresponding places and agree. -/
structure Related (p : Program) (m : Machine) (s : Il.State) : Prop where
  place : s.next = placeOf p.code m.next
  agrees : Agrees (p.globals.map Prod.fst) m s

section Forms

variable {s1 s2 : State} {load load' lines : List Line} {dst src left right : Operand}
  {value value' : Value} {last1 last2 last3 : Nat}

/-- The first line that assigns a result computes it. -/
lemma Assigned.head {last args last'} (h : Assigned names last op args dst lines last') :
    ∃ r rest, lines = .compute r op args :: rest := by
  cases h with
  | global | temp => exact ⟨_, _, rfl⟩

/-- The lines of an operation on one operand do what the machine does. -/
lemma unary_executes (hop : op = .copy ∨ op = .neg)
    (hload : Loaded names (open? s1).2 src load value last1)
    (hassign : Assigned names last1 op [value] dst lines last2) (hm : Agrees names m s)
    (hstep : m.step index (.unary op dst src) = .ok m') :
    Executes il ((open? s1).1 ++ (load ++ lines)) s (Agrees names m') := by
  obtain ⟨x, w, m1, hx, hw, hwrite, rfl⟩ := step_unary_inv hop hstep
  refine (open_executes s1 hm).append fun t ht => (hload.executes ht hx).append ?_
  rintro t' ⟨hfresh, hval, -, -⟩
  have hvalues : t'.values? ([value].map Value.il) = some [x] := by simp [Il.State.values?, hval]
  exact (hassign.executes (hfresh.agrees ht) hvalues (operate?_unary hop hw) hwrite).mono
    fun t'' ht'' => ht''.at

/-- The lines of an operation on two operands do what the machine does, unless the machine divides
the least word by -1. -/
lemma binary_executes (hop : op.isBinary = true)
    (hleft : Loaded names (open? s1).2 left load value last1)
    (hright : Loaded names last1 right load' value' last2)
    (hassign : Assigned names last2 op [value, value'] dst lines last3) (hm : Agrees names m s)
    (hstep : m.step index (.binary op dst left right) = .ok m')
    (hoverflow : ¬ m.Overflows (.binary op dst left right)) :
    Executes il ((open? s1).1 ++ (load ++ load' ++ lines)) s (Agrees names m') := by
  obtain ⟨x, y, w, m1, hx, hy, hw, hwrite, rfl⟩ := step_binary_inv hop hstep
  have hres : Il.operate? op [x, y] = some w := operate?_binary hop hw fun ⟨hquotient, hmin, hy'⟩ =>
    hoverflow ⟨hquotient, hmin ▸ hy' ▸ readAll_two hx hy⟩
  refine (open_executes s1 hm).append fun t ht => (hleft.execute_two hright ht hx hy).append ?_
  rintro t' ⟨hagrees, hval, hval'⟩
  have hvalues : t'.values? ([value, value'].map Value.il) = some [x, y] := by
    simp [Il.State.values?, hval, hval']
  exact (hassign.executes hagrees hvalues hres hwrite).mono fun t'' ht'' => ht''.at

end Forms

section Steps

variable {i : Instr}

/-- The block of a marked label stands at the place of the mark. -/
lemma place?_marked (h : Compiled p st il) (hindex : labelIndex p.code = .ok index)
    (hk : .mark (labelOf k) ∈ p.code) :
    il.place? (Block.marked k).name = some (placeOf p.code (place index (some (labelOf k)))) := by
  obtain ⟨j, hj⟩ := List.getElem?_of_mem hk
  obtain ⟨s1, li, s2, hselect, -, hcode, -⟩ := h.codeAt_placeOf hj
  obtain ⟨rfl, -⟩ := Prod.mk.inj (Except.ok.inj hselect)
  rw [linked_of_labelIndex hindex j _ hj]
  exact Il.Module.place?_eq h.valid hcode.head

/-- A branch goes to the block of its label if the comparison came out as wanted, and else to the
block behind it. -/
lemma branchLine_exec (wanted b : Bool) {place}
    (htest : s.temps (Register.scratch n).name = some (if b then 1 else 0))
    (hplace : il.place? (if b = wanted then Block.marked k else Block.through n).name =
      some place) :
    (branchLine wanted n k).il.exec il s = some { s with next := place } := by
  cases wanted <;> cases b <;> simp_all [branchLine, Line.il, Il.Line.exec, Il.State.value?]

/-- The lines of a branch go where the machine goes. -/
lemma branch_simulated {left right wanted target s1 load load' value value' last1 last2 li}
    (hvalid : il.Valid) (hleft : Loaded names (open? s1).2 left load value last1)
    (hright : Loaded names last1 right load' value' last2)
    (hli : li = (open? s1).1 ++ (load ++ load' ++ ([.compare (last2 + 1) op value value'] ++
      [branchLine wanted (last2 + 1) k, .block (.through (last2 + 1))])))
    (hcode : CodeAt il.body s.next (li.map Line.il)) (hm : Agrees names m s)
    (hstep : m.step index (.branch wanted op left right (labelOf k)) = .ok m')
    (htarget : il.place? (Block.marked k).name = some target) :
    ∃ n s', Runs il.step (n + 1) s s' ∧ Agrees names m' s' ∧
      (m'.next = place index (some (labelOf k)) ∧ s'.next = target ∨
        m'.next = m.next + 1 ∧ s'.next = s.next + li.length) := by
  obtain ⟨x, y, b, hx, hy, hb, rfl⟩ := step_branch_inv hstep
  have hfront : Executes il ((open? s1).1 ++
      (load ++ load' ++ [.compare (last2 + 1) op value value'])) s fun t => Agrees names m t ∧
      t.temps (Register.scratch (last2 + 1)).name = some (if b then 1 else 0) := by
    refine (open_executes s1 hm).append fun t ht => (hleft.execute_two hright ht hx hy).append ?_
    rintro t' ⟨hagrees, hval, hval'⟩
    have hexec : (Line.compare (last2 + 1) op value value').il.exec il t' = some { t' with
        next := t'.next + 1
        temps := Il.set t'.temps (Register.scratch (last2 + 1)).name (if b then 1 else 0) } := by
      simp [Line.il, Il.Line.exec, hval, hval', relate?_eq hb]
    exact executes_line hexec rfl ⟨Fresh.set_scratch.agrees hagrees, if_pos rfl⟩
  rw [← List.append_assoc (_ ++ _), ← List.append_assoc (open? s1).1] at hli
  subst hli
  rw [List.map_append] at hcode
  obtain ⟨t, hsteps, hnext, hagrees, htest⟩ := hfront.run hcode.left
  have hend := hcode.right.at_place (hnext.trans (by rw [List.length_map]))
  have hthrough := Il.Module.place?_eq hvalid hend.tail.head
  by_cases hbw : b = wanted
  · have hexec := branchLine_exec (k := k) wanted b htest (by rw [if_pos hbw]; exact htarget)
    refine ⟨_, _, hsteps.trans (Il.Module.runs_line hend.head hexec), hagrees.at,
      .inl ⟨if_pos hbw, rfl⟩⟩
  · have hexec := branchLine_exec (k := k) wanted b htest (by rw [if_neg hbw]; exact hthrough)
    refine ⟨_, _, (hsteps.trans (Il.Module.runs_line hend.head hexec)).trans
      (Il.Module.runs_line hend.tail.head rfl), hagrees.at, .inr ⟨if_neg hbw, ?_⟩⟩
    show t.next + 1 + 1 = _
    simp only [hnext, List.length_append, List.length_cons, List.length_nil]
    omega

/-- An executed instruction is matched by lines of the module. -/
lemma step_simulated (h : Compiled p st il) (hindex : labelIndex p.code = .ok index)
    (hm : Related p m s) (hi : p.code[m.next]? = some i) (hstep : m.step index i = .ok m')
    (hoverflow : ¬ m.Overflows i) :
    ∃ k s', Runs il.step (k + 1) s s' ∧ Related p m' s' := by
  obtain ⟨s1, li, s2, -, hselected, hcode, hnext⟩ := h.codeAt_placeOf hi
  rw [← hm.place] at hcode hnext
  have hmem := List.mem_of_getElem? hi
  -- an instruction that does not jump runs through all of its lines
  have hstraight : Executes il li s (Agrees (p.globals.map Prod.fst) m') → li ≠ [] →
      m'.next = m.next + 1 → ∃ k s', Runs il.step (k + 1) s s' ∧ Related p m' s' := by
    intro hexecutes hne hm'
    obtain ⟨s', hsteps, hnext', hagrees⟩ := hexecutes.run hcode
    refine ⟨li.length - 1, s', ?_, ?_, hagrees⟩
    · rwa [Nat.sub_add_cancel (List.length_pos_iff.mpr hne)]
    · rw [hm', hnext, hnext']
  cases hselected with
  | @unary op dst src load value last1 lines last2 hop hload hassign =>
    have hjump : op.isJump = false := by rcases hop with rfl | rfl <;> rfl
    have hmark : op ≠ .mark := by rcases hop with rfl | rfl <;> nofun
    refine hstraight (unary_executes hop hload hassign hm.agrees hstep) ?_
      (step_plain_next hjump hmark hstep)
    obtain ⟨r, rest, rfl⟩ := hassign.head
    simp
  | @binary op dst left right load value last1 load' value' last2 lines last3 hop hleft
      hright hassign =>
    refine hstraight (binary_executes hop hleft hright hassign hm.agrees hstep hoverflow) ?_
      (step_plain_next (isJump_of_isBinary hop) (ne_mark_of_isBinary hop) hstep)
    obtain ⟨r, rest, rfl⟩ := hassign.head
    simp
  | branch wanted k hop hleft hright =>
    have hmark := h.regular.targets _ hmem (by cases wanted <;> rfl) (labelOf k)
      (by cases wanted <;> rfl)
    obtain ⟨n, s', hsteps, hagrees, hplace⟩ :=
      branch_simulated h.valid hleft hright rfl hcode hm.agrees hstep (place?_marked h hindex hmark)
    refine ⟨n, s', hsteps, ?_, hagrees⟩
    rcases hplace with ⟨hm', hs'⟩ | ⟨hm', hs'⟩
    · rw [hm', hs']
    · rw [hm', hs', hnext]
  | jump k =>
    obtain rfl := Except.ok.inj hstep
    rw [List.map_append] at hcode
    obtain ⟨t, hsteps, hnext', hagrees⟩ := (open_executes s1 hm.agrees).run hcode.left
    have hjump := (hcode.right.at_place (hnext'.trans (by rw [List.length_map]))).head
    have htarget := place?_marked h hindex (h.regular.targets _ hmem rfl _ rfl)
    have hexec : (Line.jump (.marked k)).il.exec il t =
        some { t with next := placeOf p.code (place index (some (labelOf k))) } := by
      simp [Line.il, Il.Line.exec, htarget]
    exact ⟨_, _, hsteps.trans (Il.Module.runs_line hjump hexec), rfl, hagrees.at⟩
  | mark k =>
    obtain rfl := Except.ok.inj hstep
    exact ⟨0, _, Il.Module.runs_line hcode.head rfl, hnext.symm, hm.agrees.at⟩

/-- When the machine is about to divide the least word by -1, the module gets stuck. -/
lemma overflow_stuck (h : Compiled p st il) (hm : Related p m s) (hi : p.code[m.next]? = some i)
    (hoverflow : m.Overflows i) :
    ∃ k s', Runs il.step k s s' ∧ il.step s' = none ∧ il.returned? s' = none := by
  obtain ⟨s1, li, s2, -, hselected, hcode, -⟩ := h.codeAt_placeOf hi
  rw [← hm.place] at hcode
  obtain ⟨hquotient, hargs⟩ := hoverflow
  cases hselected with
  | @binary op dst left right load value last1 load' value' last2 lines last3 hop hleft
      hright hassign =>
    obtain ⟨x, y, hx, hy, hxy⟩ := readAll_two_inv hargs
    obtain ⟨rfl, rfl⟩ : Int64.minValue = x ∧ -1 = y := by simpa using hxy
    obtain ⟨r, rest, rfl⟩ := hassign.head
    rw [← List.append_assoc, List.map_append] at hcode
    have hloads : Executes il ((open? s1).1 ++ (load ++ load')) s _ :=
      (open_executes s1 hm.agrees).append fun t ht => hleft.execute_two hright ht hx hy
    obtain ⟨t, hsteps, hnext, -, hval, hval'⟩ := hloads.run hcode.left
    have hline := (hcode.right.at_place (hnext.trans (by rw [List.length_map]))).head
    have hvalues : t.values? [value.il, value'.il] = some [Int64.minValue, -1] := by
      simp [Il.State.values?, hval, hval']
    have hundefined : Il.operate? op [Int64.minValue, -1] = none := by
      rcases hquotient with rfl | rfl <;> rfl
    refine ⟨_, t, hsteps, ?_, ?_⟩
    · unfold Il.Module.step
      rw [hline]
      simp [Line.il, Il.Line.exec, hvalues, hundefined]
    · unfold Il.Module.returned?
      rw [hline]
      rfl
  | unary hop => rcases hop with rfl | rfl <;> rcases hquotient with h | h <;> cases h
  | branch wanted => cases wanted <;> rcases hquotient with h | h <;> cases h
  | jump | mark => rcases hquotient with h | h <;> cases h

/-- A run of the machine is matched by one of the module with at least as many steps, or there is a
division of the least word by -1 on the way and the module gets stuck. -/
theorem path_simulated (h : Compiled p st il) (hindex : labelIndex p.code = .ok index)
    (hpath : Path p.code index n m m') (hm : Related p m s) :
    (∃ k s', n ≤ k ∧ Runs il.step k s s' ∧ Related p m' s') ∨
    (∃ k s', Runs il.step k s s' ∧ il.step s' = none ∧ il.returned? s' = none) ∧
      ∃ j m1 i, Path p.code index j m m1 ∧ p.code[m1.next]? = some i ∧ m1.Overflows i := by
  induction hpath generalizing s with
  | refl => exact .inl ⟨0, s, le_refl _, .refl, hm⟩
  | @step n m m1 m' i hi hstep hrest ih =>
    by_cases hoverflow : m.Overflows i
    · exact .inr ⟨overflow_stuck h hm hi hoverflow, 0, m, i, .refl, hi, hoverflow⟩
    · obtain ⟨k, s1, hsteps, hm1⟩ := step_simulated h hindex hm hi hstep hoverflow
      rcases ih hm1 with ⟨k', s', hle, hsteps', hm'⟩ | ⟨⟨k', s', hsteps', hstuck⟩, j, m2,
        i', hpath, hover⟩
      · exact .inl ⟨k + 1 + k', s', by omega, hsteps.trans hsteps', hm'⟩
      · exact .inr ⟨⟨k + 1 + k', s', hsteps.trans hsteps', hstuck⟩, j + 1, m2, i',
          .step hi hstep hpath, hover⟩

end Steps

/-! ## Printing -/

/-- The call that prints a variable. -/
lemma print_exec {w} (hx : Text.IsName x) (htext : il.text? (formatSymbol x) = some (formatOf x))
    (hw : s.temps (Register.scratch n).name = some w) :
    (Line.print x n).il.exec il s = some { s with
      next := s.next + 1
      output := s.output ++ (printedLine x w).toList } := by
  have hformat := formatted?_formatOf hx w
  simp only [Line.il, Il.Line.exec, Il.State.value?, hw, htext, hformat, bind, Option.bind, pure]

/-- The lines that print variables. -/
lemma printLines_execute {globals} (hnames : ∀ x ∈ names, Text.IsName x)
    (htext : ∀ x ∈ names, il.text? (formatSymbol x) = some (formatOf x))
    (hmemory : ∀ x ∈ names, s.memory (variableSymbol x) = some (storeOf globals x)) (last : Nat) :
    Executes il (printLines last names) s fun s' =>
    s'.output = s.output ++ (printed globals names).toList := by
  induction names generalizing s last with
  | nil => exact executes_nil (by simp [printed])
  | cons x xs ih =>
    obtain ⟨hx, hxs⟩ := List.forall_mem_cons.mp hnames
    obtain ⟨hxtext, hxstext⟩ := List.forall_mem_cons.mp htext
    obtain ⟨hxmemory, hxsmemory⟩ := List.forall_mem_cons.mp hmemory
    have hload : (Line.load (last + 1) x).il.exec il s = some { s with
        next := s.next + 1
        temps := Il.set s.temps (Register.scratch (last + 1)).name (storeOf globals x) } := by
      simp [Line.il, Il.Line.exec, hxmemory]
    have hline : Executes il [.load (last + 1) x, .print x (last + 1)] s fun s' =>
      s'.memory = s.memory ∧
        s'.output = s.output ++ (printedLine x (storeOf globals x)).toList := by
      refine (executes_line (Q := (· = _)) hload rfl rfl).append ?_
      rintro s1 rfl
      exact executes_line (print_exec hx hxtext (if_pos rfl)) rfl ⟨rfl, rfl⟩
    refine Executes.append hline ?_
    rintro s1 ⟨hmemory1, houtput1⟩
    rw [← hmemory1] at hxsmemory
    refine (ih hxs hxstext hxsmemory (last + 1)).mono fun s' hs' => ?_
    rw [hs', houtput1]
    simp [printed]

/-! ## Programs -/

/-- The entry of a name in a table with an entry for every name. -/
lemma lookup_map (symbol : String → String) (hsymbol : ∀ x y, symbol x = symbol y → x = y)
    (data : String → Il.Data) (hx : x ∈ names) :
    (names.map fun y => (symbol y, data y)).lookup (symbol x) = some (data x) := by
  induction names with
  | nil => cases hx
  | cons y ys ih =>
    by_cases hxy : x = y
    · simp [hxy]
    · have hne : (symbol x == symbol y) = false := beq_eq_false_iff_ne.mpr fun h =>
        hxy (hsymbol x y h)
      rw [List.map_cons, List.lookup_cons, hne]
      exact ih ((List.mem_cons.mp hx).resolve_left hxy)

/-- The data word of a variable holds zero at first. -/
lemma lookup_variable (h : Compiled p st il) (hx : x ∈ p.globals.map Prod.fst) :
    il.data.lookup (variableSymbol x) = some (.word 0) := by
  obtain ⟨lines, -, rfl⟩ := h.selected
  have hword := lookup_map variableSymbol (fun x y h => (String.append_right_inj _).mp h)
    (fun _ => .word 0) hx
  show List.lookup _ (_ ++ _) = _
  rw [List.lookup_append]
  exact congrArg (Option.or · _) hword

/-- The format of a variable is found. -/
lemma text?_format (h : Compiled p st il) (hx : x ∈ p.globals.map Prod.fst) :
    il.text? (formatSymbol x) = some (formatOf x) := by
  obtain ⟨lines, -, rfl⟩ := h.selected
  have hformat := lookup_map formatSymbol (fun x y h => (String.append_right_inj _).mp h)
    (fun x => .text (formatOf x)) hx
  have hwords : ((p.globals.map Prod.fst).map fun y => (variableSymbol y, Il.Data.word 0)).lookup
      (formatSymbol x) = none := by
    rw [List.lookup_eq_none_iff]
    intro entry hentry
    obtain ⟨y, -, rfl⟩ := List.mem_map.mp hentry
    have hne : formatSymbol x ≠ variableSymbol y := by
      intro h
      have hhead := congrArg (fun name : String => name.toList.head?) h
      simp [formatSymbol, variableSymbol] at hhead
    exact bne_iff_ne.mpr hne
  have hdata : (moduleOf p lines st).il.data.lookup (formatSymbol x) =
      some (.text (formatOf x)) := by
    show List.lookup _ (_ ++ _) = _
    rw [List.lookup_append]
    exact (congrArg (Option.or · _) hwords).trans hformat
  rw [Il.Module.text?, hdata]

/-- The function begins where the machine begins. -/
lemma start_related (h : Compiled p st il) : ∃ s, Runs il.step 1 il.start s ∧
    Related p { globals := {} } s := by
  have hstart : il.body[0]? = some (.label "start") := by
    obtain ⟨lines, -, rfl⟩ := h.selected
    rfl
  refine ⟨{ il.start with next := 1 }, Il.Module.runs_line hstart rfl, rfl, ?_, ?_, rfl⟩
  · intro x hx
    unfold Il.Module.start
    simp [lookup_variable h hx, storeOf]
  · intro k w hw
    simp [Machine.read, tempOf] at hw

/-- Behind the code the function prints the variables and returns zero. -/
lemma end_simulated (hnames : ∀ x ∈ p.globals.map Prod.fst, Text.IsName x) (h : Compiled p st il)
    (hm : Related p m s) (hend : p.code[m.next]? = none) :
    ∃ k s', Runs il.step k s s' ∧ il.returned? s' = some 0 ∧
      s'.output = (printed m.globals (p.globals.map Prod.fst)).toList := by
  have hplace : placeOf p.code m.next = placeOf p.code p.code.length := by
    rw [placeOf, placeOf, List.take_length,
      List.take_of_length_le (List.getElem?_eq_none_iff.mp hend)]
  have hcode := h.codeAt_endLines
  rw [← hplace, ← hm.place, endLines, ← List.append_assoc, List.map_append] at hcode
  have hexit : Executes il (if st.inBlock then [] else [.block .exit]) s fun s' =>
      s'.memory = s.memory ∧ s'.output = s.output := by
    split
    · exact executes_nil ⟨rfl, rfl⟩
    · exact executes_line rfl rfl ⟨rfl, rfl⟩
  have hprint : Executes il ((if st.inBlock then [] else [.block .exit]) ++
      printLines st.last (p.globals.map Prod.fst)) s fun s' =>
        s'.output = (printed m.globals (p.globals.map Prod.fst)).toList := by
    refine hexit.append ?_
    rintro s1 ⟨hmemory, houtput⟩
    have hvalues : ∀ x ∈ p.globals.map Prod.fst, s1.memory (variableSymbol x) =
        some (storeOf m.globals x) := by
      rw [hmemory]
      exact hm.agrees.memory
    refine (printLines_execute hnames (fun x hx => text?_format h hx) hvalues st.last).mono
      fun s' hs' => ?_
    rw [hs', houtput, hm.agrees.output, List.nil_append]
  obtain ⟨s', hsteps, hnext, houtput⟩ := hprint.run hcode.left
  have hret := (hcode.right.at_place (hnext.trans (by rw [List.length_map]))).head
  refine ⟨_, s', hsteps, ?_, houtput⟩
  unfold Il.Module.returned?
  rw [hret]
  rfl

/-- A path of the machine from the beginning that leaves the code. -/
lemma returns_of_path (h : Compiled p st il) (hnames : ∀ x ∈ p.globals.map Prod.fst, Text.IsName x)
    (hindex : labelIndex p.code = .ok index) (hnever : NeverOverflows p.code {})
    (hpath : Path p.code index n { globals := {} } m) (hend : p.code[m.next]? = none) :
    il.Returns 0 (printed m.globals (p.globals.map Prod.fst)) := by
  obtain ⟨s0, hstart, hrelated⟩ := start_related h
  rcases path_simulated h hindex hpath hrelated with
    ⟨k, s1, -, hsteps, hm⟩ | ⟨-, j, m1, i, hpath', hi, hoverflow⟩
  · obtain ⟨k', s', hsteps', hreturned, houtput⟩ := end_simulated hnames h hm hend
    exact ⟨_, s', (hstart.trans hsteps).trans hsteps', hreturned, houtput⟩
  · exact absurd hoverflow (hnever m1 i ⟨index, j, hindex, hpath'⟩ hi)

/-- Paths of the machine of every length. -/
lemma runsForever_of_paths (h : Compiled p st il) (hindex : labelIndex p.code = .ok index)
    (hpaths : ∀ n, ∃ m, Path p.code index n { globals := {} } m) :
    (∀ value output, ¬ il.Returns value output) ∧ (NeverOverflows p.code {} → il.RunsForever) := by
  obtain ⟨s0, hstart, hrelated⟩ := start_related h
  have hmatched : ∀ n, (∃ k s', n ≤ k ∧ Runs il.step k il.start s') ∨
      (∃ k s', Runs il.step k il.start s' ∧ il.step s' = none ∧ il.returned? s' = none) ∧
        ¬ NeverOverflows p.code {} := by
    intro n
    obtain ⟨m, hpath⟩ := hpaths n
    rcases path_simulated h hindex hpath hrelated with
      ⟨k, s', hle, hsteps, -⟩ | ⟨⟨k, s', hsteps, hstuck⟩, j, m1, i, hpath', hi, hoverflow⟩
    · exact .inl ⟨1 + k, s', by omega, hstart.trans hsteps⟩
    · refine .inr ⟨⟨1 + k, s', hstart.trans hsteps, hstuck⟩, fun hnever => ?_⟩
      exact hnever m1 i ⟨index, j, hindex, hpath'⟩ hi hoverflow
  constructor
  · intro value output hreturns
    by_cases hforever : ∀ n, ∃ k s', n ≤ k ∧ Runs il.step k il.start s'
    · exact (Il.Module.runsForever_of_lasting hforever).not_returns value output hreturns
    · obtain ⟨n, hn⟩ := not_forall.mp hforever
      obtain ⟨⟨k, s', hsteps, hstep, hreturned⟩, -⟩ := (hmatched n).resolve_left hn
      rw [hreturns.eq_of_stuck hsteps hstep] at hreturned
      cases hreturned
  · intro hnever
    refine Il.Module.runsForever_of_lasting fun n => ?_
    exact (hmatched n).resolve_right fun hstuck => hstuck.2 hnever

end Qbe

open Machine

/-- The QBE text of a program that is generated from a source text behaves like a run of the program
from nothing. If the run finishes, and no division on the way is one of the least word by -1, then
the text prints the variables with the values that the run leaves them, and returns zero. If the run
is stopped at every step limit, then the text does not return; it runs forever unless there is such
a division. -/
theorem emitQbe_simulates_run (settings : Settings) (file : Int) (source : List Char) (root : Tree)
    (state : LowerState) (program : Program)
    (hsource : Tree.ofSource settings file source = .ok root)
    (hgenerate : (generate settings state root).outcome = .ok program) :
    ∃ text il, emitQbe program = .ok text ∧ Il.read text = some il ∧
      (∀ limit record r, run program.code {} limit record = .finished r →
        NeverOverflows program.code {} →
        il.Returns 0 (printed r.globals (program.globals.map Prod.fst))) ∧
      ∀ record, (∀ limit, 0 < limit → ∃ r, run program.code {} limit record = .stopped r) →
        (∀ value output, ¬ il.Returns value output) ∧
        (NeverOverflows program.code {} → il.RunsForever) := by
  have hp := regular_of_generate hgenerate
  have hnames := isName_of_generate hsource hgenerate
  obtain ⟨lines, st, hlines, hselected⟩ := Qbe.exists_selectedAll hp.forms {}
  have hselects := hselected.selects hnames (List.Nodup.of_map _ hp.marks)
  have hcompiled : Qbe.Compiled program st _ :=
    ⟨hp, Qbe.moduleOf_valid hp hnames hselects, lines, hlines, rfl⟩
  obtain ⟨index, hindex⟩ := labelIndex_of_checkLabels hp.labels
  refine ⟨_, _, ?_, Qbe.read_moduleOf hp hnames hselects, ?_, ?_⟩
  · rw [emitQbe, Qbe.ofProgram_eq hlines]
  · intro limit record r hrun hnever
    obtain ⟨n, m, hpath, hend⟩ := run_follows hindex hp.labels {} limit record
    rcases hend with ⟨hend, r', hrun', hglobals⟩ | ⟨-, r', hrun', -⟩ | ⟨i, fault, -, -, hrun'⟩
    · obtain rfl := RunOutcome.finished.inj (hrun.symm.trans hrun')
      rw [hglobals]
      exact Qbe.returns_of_path hcompiled hnames hindex hnever hpath hend
    · cases hrun.symm.trans hrun'
    · cases hrun.symm.trans hrun'
  · intro record hstopped
    refine Qbe.runsForever_of_paths hcompiled hindex fun n => ?_
    exact paths_of_stopped hindex hp.labels hstopped n

/-- A source text that squares a number until it is large. -/
def squaringSource : List Char := "num x; x = 2; while (x < 9) x = x * x;".toList

/-- The text of the program prints what the number has become. -/
theorem emitQbe_squaringSource :
    ∃ root program text il, Tree.ofSource {} 0 squaringSource = .ok root ∧
    (generate {} {} root).outcome = .ok program ∧ emitQbe program = .ok text ∧
    Il.read text = some il ∧
    il.Returns 0 "x = 16\n" := by
  have hprinted : printedBy? squaringSource 100 = some "x = 16\n" := by decide +kernel
  obtain ⟨root, program, r, hsource, hgenerate, hnever, hrun, htext⟩ :=
    exists_of_printedBy? hprinted
  obtain ⟨text, il, hemit, hread, hfinished, -⟩ :=
    emitQbe_simulates_run {} 0 squaringSource root {} program hsource hgenerate
  refine ⟨root, program, text, il, hsource, hgenerate, hemit, hread, ?_⟩
  rw [← htext]
  exact hfinished 100 false r hrun hnever

end ThreeAddress
