import ThreeAddress.Proofs.Llvm.Slots

/-!
# Execution of selected instructions

A state of an execution agrees with a state of the machine if the globals hold the values of the
declared variables, the stack slots have been made and hold the values of the temporaries, and
nothing is printed yet. The instructions that load operands only give results, so agreement is kept;
the instructions for an operation do to memory what the machine does with its result.
-/

namespace ThreeAddress.Llvm

open Lowering Machine

variable {names : List String} {il : Module} {m m' : Machine} {f : Frame}
  {insts : List Inst} {x y w : Int64}

/-! ## Agreement -/

/-- A state of an execution agrees with a state of the machine. -/
structure Agrees (names : List String) (il : Module) (m : Machine) (f : Frame) : Prop where
  globals : ∀ x ∈ names, f.globals x = some (storeOf m.globals x)
  slots : ∀ (k : Nat) w, m.read (some (tempOf k)) = .ok w →
    f.slots ("_t" ++ toString k) = some (some w)
  /-- The stack slots have been made. -/
  made : ∀ n, .alloca n ∈ il.code entry → f.slots n ≠ none
  output : f.output = []

section Agreement

variable (h : Agrees names il m f)
include h

lemma Agrees.bind (r : Nat) (d : Datum) : Agrees names il m (f.bind r d) :=
    ⟨h.globals, h.slots, h.made, h.output⟩

lemma Agrees.at {b o n} : Agrees names il { m with next := n } { f with block := b, offset := o } :=
  ⟨h.globals, h.slots, h.made, h.output⟩

/-- A variable that is given a value in both states. -/
lemma Agrees.insert_global (x : String) (w : Int64) :
    Agrees names il { m with globals := m.globals.insert x w }
      { f.advance with globals := Function.update f.globals x (some w) } where
  globals y hy := by
    show Function.update f.globals x (some w) y = _
    rw [Function.update_apply, storeOf, Std.TreeMap.getElem?_insert]
    by_cases hxy : x = y
    · simp [hxy]
    · rw [if_neg fun hyx => hxy hyx.symm, h.globals y hy, if_neg (by simpa using hxy)]
      rfl
  slots := h.slots
  made := h.made
  output := h.output

/-- A temporary that is given a value in both states. -/
lemma Agrees.insert_temp (k : Nat) (w : Int64) :
    Agrees names il { m with temps := m.temps.insert ("_t" ++ toString k) w }
      { f.advance with slots := Function.update f.slots ("_t" ++ toString k) (some (some w)) } where
  globals := h.globals
  slots j w' hw' := by
    show Function.update f.slots ("_t" ++ toString k) (some (some w)) ("_t" ++ toString j) = _
    rw [Function.update_apply]
    simp only [Machine.read, tempOf, Std.TreeMap.getElem?_insert] at hw'
    by_cases hjk : j = k
    · subst hjk
      simpa using hw'
    · have hkey : "_t" ++ toString k ≠ "_t" ++ toString j := fun h => hjk (tempOf_name_inj h).symm
      rw [if_neg hkey.symm]
      rw [if_neg (by simpa using hkey)] at hw'
      exact h.slots j w' hw'
  made n hn := by
    show Function.update f.slots ("_t" ++ toString k) (some (some w)) n ≠ none
    rw [Function.update_apply]
    split
    · exact Option.some_ne_none _
    · exact h.made n hn
  output := h.output

/-- What the machine writes is stored. -/
lemma Agrees.store {dst place w} (hdst : dst.Stored names) (hplace : place? dst = some place)
    (hwrite : m.write (some dst) w = .ok m') (hmade : ∀ n, place = .slot n → f.slots n ≠ none) :
    ∃ f', f.store? w place = some f' ∧ Agrees names il m' f' ∧ f'.block = f.block ∧
    f'.offset = f.offset + 1 := by
  cases hdst with
  | @global x hx =>
    cases hplace
    cases hwrite
    have hstore : f.store? w (.global x) =
        some { f.advance with globals := Function.update f.globals x (some w) } := by
      simp [Frame.store?, h.globals x hx]
    exact ⟨_, hstore, h.insert_global x w, rfl, rfl⟩
  | temp k =>
    cases hplace
    cases hwrite
    obtain ⟨content, hcontent⟩ := Option.ne_none_iff_exists'.mp (hmade _ rfl)
    have hstore : f.store? w (.slot ("_t" ++ toString k)) =
        some { f.advance with
          slots := Function.update f.slots ("_t" ++ toString k) (some (some w)) } := by
      rw [Frame.store?, hcontent]
      rfl
    exact ⟨_, hstore, h.insert_temp k w, rfl, rfl⟩

end Agreement

/-! ## Straight code -/

/-- Instructions that stand at the position of a state are executed one after the other, and lead to
a state with a property. -/
def Module.Executes (il : Module) (insts : List Inst) (f : Frame) (Q : Frame → Prop) : Prop :=
  ThreeAddress.Executes il.step il.code (fun f => (f.block, f.offset)) insts f Q

section Straight

variable {v left right dst : Operand} {r : Nat} {Q : Frame → Prop}

/-- The execution of instructions that stand at the position of a state. -/
lemma Module.Executes.run (h : il.Executes insts f Q)
    (hcode : CodeAt (il.code f.block) f.offset insts) :
    ∃ f', Runs il.step insts.length f f' ∧ f'.block = f.block ∧
    f'.offset = f.offset + insts.length ∧ Q f' := by
  obtain ⟨f', hsteps, hplace, hQ⟩ := h hcode
  obtain ⟨hblock, hoffset⟩ := Prod.mk.inj hplace
  exact ⟨f', hsteps, hblock, hoffset, hQ⟩

/-- A single instruction. -/
lemma executes_inst {inst f'} (hexec : inst.exec il f = some f') (hblock : f'.block = f.block)
    (hoffset : f'.offset = f.offset + 1) (h : Q f') : il.Executes [inst] f Q := by
  refine executes_one (fun hinst => ?_) (Prod.ext hblock hoffset) h
  unfold Module.step
  rwa [hinst]

/-- Behind the last instruction of a block, the block is left. -/
lemma runs_exit {t f'} (hend : f.offset = (il.code f.block).length)
    (hexit : il.exit? f.block = some t) (hexec : t.exec f = some f') : Runs il.step 1 f f' := by
  refine .single ?_
  unfold Module.step
  rw [hend, List.getElem?_eq_none (le_refl _)]
  simp only [hexit]
  exact hexec

/-- The instructions that load an operand give its value, and no results with lower numbers. -/
lemma loads_execute (hv : v.Valued names) (hm : Agrees names il m f)
    (hread : m.read (some v) = .ok x) :
    il.Executes (loads r v) f fun f' =>
      Agrees names il m f' ∧ f'.word? (loaded r v) = some x ∧
      ∀ n < r, f'.results n = f.results n := by
  have hload : ∀ place, f.load? place = some x → il.Executes [.load r place] f fun f' =>
      Agrees names il m f' ∧ f'.word? (.result r) = some x ∧
      ∀ n < r, f'.results n = f.results n := by
    intro place hplace
    have hexec : (Inst.load r place).exec il f = some (f.bind r (.word x)) :=
      by simp [Inst.exec, hplace]
    refine executes_inst hexec rfl rfl ⟨hm.bind r _, ?_, fun n hn => ?_⟩
    · simp [Frame.word?, Frame.value?, Frame.bind]
    · exact Function.update_of_ne (Nat.ne_of_lt hn) _ _
  cases hv with
  | const w =>
    cases hread
    exact executes_nil ⟨hm, rfl, fun _ _ => rfl⟩
  | stored hv =>
    cases hv with
    | @global name hname =>
      refine hload (.global name) ?_
      rw [Frame.load?, hm.globals name hname]
      exact congrArg some (Except.ok.inj hread)
    | temp k =>
      refine hload (.slot ("_t" ++ toString k)) ?_
      rw [Frame.load?, hm.slots k x hread]
      rfl

/-- A loaded operand is kept by what gives results with higher numbers. -/
lemma word?_loaded {f' : Frame} (hv : v.Valued names)
    (h : ∀ n < after r v, f'.results n = f.results n) :
    f'.word? (loaded r v) = f.word? (loaded r v) := by
  cases hv with
  | const w => rfl
  | stored hv =>
    have hres : f'.results r = f.results r := by
      refine h r ?_
      cases hv with
      | global | temp => exact Nat.lt_succ_self r
    cases hv with
    | global | temp => simp [Frame.word?, Frame.value?, loaded, tempOf, hres]

/-- The instructions that load two operands give their values. -/
lemma loads_execute_two (hleft : left.Valued names) (hright : right.Valued names)
    (hm : Agrees names il m f) (hx : m.read (some left) = .ok x)
    (hy : m.read (some right) = .ok y) :
    il.Executes (loads r left ++ loads (after r left) right) f fun f' => Agrees names il m f' ∧
      f'.word? (loaded r left) = some x ∧ f'.word? (loaded (after r left) right) = some y := by
  refine (loads_execute hleft hm hx).append ?_
  rintro f1 ⟨hm1, hval, -⟩
  refine (loads_execute hright hm1 hy).mono ?_
  rintro f2 ⟨hm2, hval', hkept⟩
  refine ⟨hm2, ?_, hval'⟩
  rw [word?_loaded hleft hkept, hval]

/-- The instruction that stores a value does what the machine does with it. -/
lemma store_executes {place value} (hwf : il.WellFormed) (hdst : dst.Stored names)
    (hplace : place? dst = some place) (hm : Agrees names il m f) (hval : f.word? value = some w)
    (hwrite : m.write (some dst) w = .ok m') :
    il.Executes [.store value place] f (Agrees names il m') := by
  -- That the slot is made is known because the instruction stands in the module.
  intro hcode
  have hmade : ∀ n, place = .slot n → f.slots n ≠ none := by
    rintro n rfl
    exact hm.made n (hwf.made _ _ (List.mem_of_getElem? hcode.head) n (.inr rfl))
  obtain ⟨f', hstore, hm', hblock, hoffset⟩ := hm.store hdst hplace hwrite hmade
  have hexec : (Inst.store value place).exec il f = some f' := by simp [Inst.exec, hval, hstore]
  exact executes_inst hexec hblock hoffset hm' hcode

/-- The instructions for an arithmetic operation do what the machine does with its result. -/
lemma compute_executes {place op value value'} (hwf : il.WellFormed) (hdst : dst.Stored names)
    (hplace : place? dst = some place) (hm : Agrees names il m f) (hval : f.word? value = some x)
    (hval' : f.word? value' = some y) (hw : op.value? x y = some w)
    (hwrite : m.write (some dst) w = .ok m') :
    il.Executes [.compute r op value value', .store (.result r) place] f (Agrees names il m') := by
  have hexec : (Inst.compute r op value value').exec il f = some (f.bind r (.word w)) := by
    simp [Inst.exec, hval, hval', hw]
  have hcompute : il.Executes [.compute r op value value'] f (· = f.bind r (.word w)) :=
    executes_inst hexec rfl rfl rfl
  refine hcompute.append ?_
  rintro f1 rfl
  refine store_executes hwf hdst hplace (hm.bind r _) ?_ hwrite
  simp [Frame.word?, Frame.value?, Frame.bind]

end Straight

/-! ## Operations -/

section Operations

variable {index : LabelIndex} {i : Instr} {op : Opcode} {operation : Operation} {b : Bool}

/-- An operation on two words that the machine executes has the same result, unless it divides the
least word by -1. -/
lemma value?_eq (hop : operation? op = some operation) (h : compute op [x, y] = .ok w)
    (hoverflow : ¬ ((op = .div ∨ op = .rem) ∧ x = Int64.minValue ∧ y = -1)) :
    operation.value? x y = some w := by
  cases op with
  | add | sub | mul =>
    cases hop
    exact congrArg some (Except.ok.inj h)
  | div | rem =>
    cases hop
    simp only [compute] at h
    split at h
    · cases h
    · rename_i hy
      have hdefined := isUndefinedQuotient_eq_false hy fun hmin => hoverflow ⟨by simp, hmin⟩
      simp only [Operation.value?, hdefined]
      exact congrArg some (Except.ok.inj h)
  | _ => cases hop

/-- A comparison comes out as in the machine. -/
lemma holds_eq (h : compare op x y = .ok b) : (Select.predicateOf op).holds x y = b := by
  cases op with
  | eq =>
    cases h
    simp [Select.predicateOf, Predicate.holds, beq_eq_decide]
  | ne =>
    cases h
    simp [Select.predicateOf, Predicate.holds, bne, beq_eq_decide]
  | lt | gt | le | ge => exact Except.ok.inj h
  | _ => cases h

/-- The instructions for an operation do what the machine does, unless it divides the least word by
-1. -/
theorem Computes.executes (hinsts : Computes names i insts) (hwf : il.WellFormed)
    (hm : Agrees names il m f) (hstep : m.step index i = .ok m') (hoverflow : ¬ m.Overflows i) :
    il.Executes insts f (Agrees names il m') := by
  cases hinsts with
  | @copy dst src place r hdst hsrc hplace =>
    obtain ⟨x, w, m1, hx, hw, hwrite, rfl⟩ := step_unary_inv (.inl rfl) hstep
    obtain rfl : x = w := Except.ok.inj hw
    refine (loads_execute hsrc hm hx).append ?_
    rintro f1 ⟨hm1, hval, -⟩
    exact (store_executes hwf hdst hplace hm1 hval hwrite).mono fun f' hm' => hm'.at
  | @neg dst src place r hdst hsrc hplace =>
    obtain ⟨x, w, m1, hx, hw, hwrite, rfl⟩ := step_unary_inv (.inr rfl) hstep
    have hres : Operation.sub.value? 0 x = some w := by
      rw [Operation.value?, Int64.zero_sub]
      exact congrArg some (Except.ok.inj hw)
    refine (loads_execute hsrc hm hx).append ?_
    rintro f1 ⟨hm1, hval, -⟩
    exact (compute_executes hwf hdst hplace hm1 rfl hval hres hwrite).mono fun f' hm' => hm'.at
  | @binary op operation dst left right place r hop hdst hleft hright hplace =>
    have hbinary : op.isBinary = true := by
      cases op with
      | add | sub | mul | div | rem => rfl
      | _ => cases hop
    obtain ⟨x, y, w, m1, hx, hy, hw, hwrite, rfl⟩ := step_binary_inv hbinary hstep
    have hres : operation.value? x y = some w := by
      refine value?_eq hop hw ?_
      rintro ⟨hquotient, rfl, rfl⟩
      exact hoverflow ⟨hquotient, readAll_two hx hy⟩
    rw [← List.append_assoc]
    refine (loads_execute_two hleft hright hm hx hy).append ?_
    rintro f1 ⟨hm1, hval, hval'⟩
    exact (compute_executes hwf hdst hplace hm1 hval hval' hres hwrite).mono fun f' hm' => hm'.at

/-- The instructions for the test of a branch compare its operands. -/
lemma testInsts_execute {left right r} (hleft : left.Valued names) (hright : right.Valued names)
    (hm : Agrees names il m f) (hx : m.read (some left) = .ok x) (hy : m.read (some right) = .ok y)
    (hb : compare op x y = .ok b) : il.Executes (testInsts r op left right) f fun f' =>
      Agrees names il m f' ∧ f'.value? (.result (after (after r left) right)) =
      some (.truth b) := by
  unfold testInsts
  rw [← List.append_assoc]
  refine (loads_execute_two hleft hright hm hx hy).append ?_
  rintro f1 ⟨hm1, hval, hval'⟩
  have hexec : (Inst.compare (after (after r left) right) (Select.predicateOf op) (loaded r left)
      (loaded (after r left) right)).exec il f1 =
      some (f1.bind (after (after r left) right) (.truth b)) := by
    simp [Inst.exec, hval, hval', holds_eq hb]
  refine executes_inst hexec rfl rfl ⟨hm1.bind _ _, ?_⟩
  simp [Frame.value?, Frame.bind]

/-- A branch goes to its target if the comparison came out as wanted, and else through. -/
lemma branchEnd_exec {test} (wanted : Bool) (target through : Nat)
    (htest : f.value? test = some (.truth b)) :
    (branchEnd wanted test target through).exec f =
      some { f with block := if b = wanted then target else through, offset := 0 } := by
  cases wanted <;> cases b <;> simp [branchEnd, Terminator.exec, htest]

end Operations

end ThreeAddress.Llvm
