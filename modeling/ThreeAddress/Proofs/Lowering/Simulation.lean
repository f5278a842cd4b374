import ThreeAddress.Proofs.Machine.Paths
import ThreeAddress.Proofs.Names.Marks
import ThreeAddress.Proofs.Semantics.BigStep

/-!
# The code of numeric expressions computes their values

The machine that reaches the code of a numeric expression gets to its end with the value that the
expression has in the store of the variables; or it gets to a division by zero, if that is what the
expression has instead of a value. On the way it writes new temporaries only: the variables, and the
temporaries with smaller numbers, stay as they are. The proofs are by induction on the translation
scheme. `Decides` says the like of a condition, which leaves at one of its exits.
-/

namespace ThreeAddress

open Lowering Machine

variable {b : Bool} {places : Bool → Nat} {value : Except Trouble Value} {e : Exits} {w x y : Int64}
  {ops : List TokenKind} {ts : List Tree} {m m' m1 : Machine} {k n place : Nat} {kind : NodeKind}
  {opcode : Opcode} {left right : Operand} {op : TokenKind} {inner t : Tree} {code : List Instr}
  {index : LabelIndex} {Γ : Scope} {σ : Store} {token : Token}

/-! ## Operators -/

/-- The code of an arithmetic sign computes what the sign means. -/
lemma compute_of_arithOpcode (h : arithOpcode? kind op = some opcode) (x y : Int64) :
    (∃ w, arithmetic op x y = .ok w ∧ compute opcode [x, y] = .ok w) ∨
      arithmetic op x y = .error .divisionByZero ∧
      compute opcode [x, y] = .error .divisionByZero := by
  have hrem : Int64.ofInt (x.toInt.tmod y.toInt) = x % y :=
    by rw [← Int64.toInt_mod, Int64.ofInt_toInt]
  have hdiv : Int64.ofInt (x.toInt.tdiv y.toInt) = x / y := by
    apply Int64.toInt_inj.mp
    rw [Int64.toInt_ofInt, Int64.toInt_div]
  unfold arithOpcode? at h
  split at h
  · obtain rfl : .add = opcode := by split at h <;> simp_all
    exact .inl ⟨x + y, by simp [arithmetic], rfl⟩
  · obtain rfl : .sub = opcode := by split at h <;> simp_all
    exact .inl ⟨x - y, by simp [arithmetic], rfl⟩
  · obtain rfl : .mul = opcode := by split at h <;> simp_all
    exact .inl ⟨x * y, by simp [arithmetic], rfl⟩
  · obtain rfl : .div = opcode := by split at h <;> simp_all
    by_cases hy : y = 0
    · exact .inr ⟨by simp [arithmetic, hy], by simp [compute, hy]⟩
    · exact .inl ⟨x / y, by simp [arithmetic, hy, hdiv], by simp [compute, hy]⟩
  · obtain rfl : .rem = opcode := by split at h <;> simp_all
    by_cases hy : y = 0
    · exact .inr ⟨by simp [arithmetic, hy], by simp [compute, hy]⟩
    · exact .inl ⟨x % y, by simp [arithmetic, hy, hrem], by simp [compute, hy]⟩
  · cases h

/-- The code of a comparison sign decides what the sign means. -/
lemma compare_of_relationOpcode (h : relationOpcode? op = some opcode)
    (x y : Int64) : ∃ b, related op x y = .ok b ∧ Machine.compare opcode x y = .ok b := by
  unfold relationOpcode? at h
  split at h
  all_goals cases h
  · exact ⟨_, rfl, congrArg Except.ok (beq_eq_decide ..)⟩
  · exact ⟨_, rfl, by simp [Machine.compare, bne, beq_eq_decide]⟩
  · exact ⟨_, rfl, by simp [Machine.compare, Int64.lt_iff_toInt_lt]⟩
  · exact ⟨_, rfl, by simp [Machine.compare, Int64.lt_iff_toInt_lt]⟩
  · exact ⟨_, rfl, by simp [Machine.compare, Int64.le_iff_toInt_le]⟩
  · exact ⟨_, rfl, by simp [Machine.compare, Int64.le_iff_toInt_le]⟩

/-- A run of signs changes the sign of a number or leaves it as it is. -/
lemma applySigns_of_signParity {negate} (h : signParity ops = .ok negate) (w : Int64) :
    applySigns (.num w) ops = .ok (.num (if negate then -w else w)) := by
  have hneg : ∀ x : Int64, Int64.ofInt (-x.toInt) = -x := fun x => by simp
  fun_induction signParity ops generalizing negate with
  | case1 =>
    obtain rfl := Except.ok.inj h
    rfl
  | case2 ops ih =>
    rw [applySigns, ih h]
    rfl
  | case3 ops ih =>
    cases hparity : signParity ops with
    | error e =>
      rw [hparity] at h
      cases h
    | ok b =>
      rw [hparity] at h
      obtain rfl : (!b) = negate := Except.ok.inj h
      rw [applySigns, ih hparity]
      show Except.ok (Value.num (.ofInt (-(if b then -w else w).toInt))) = _
      rw [hneg]
      cases b <;> simp
  | case4 => cases h

/-- A run of `!` turns a truth value into its opposite or leaves it as it is. -/
lemma applyBangs_of_bangParity {odd} (h : bangParity ops = .ok odd) (b : Bool) :
    applyBangs (.bool b) ops = .ok (.bool (b != odd)) := by
  fun_induction bangParity ops generalizing odd with
  | case1 =>
    cases h
    simp [applyBangs]
  | case2 ops ih =>
    cases hparity : bangParity ops with
    | error e =>
      rw [hparity] at h
      cases h
    | ok odd' =>
      rw [hparity] at h
      cases h
      rw [applyBangs, ih hparity]
      cases b <;> cases odd' <;> rfl
  | case3 => cases h

/-! ## What expressions leave unchanged -/

/-- The store that gives every variable its value, and 0 to a variable without one. -/
def storeOf (globals : Bindings) : Store := fun x => globals[x]?.getD 0

/-- The store that the machine holds. -/
def Machine.store (m : Machine) : Store := storeOf m.globals

/-- The machine has the same variables as before, and the same temporaries with numbers below `n`.
-/
structure Machine.Agrees (n : Nat) (m m' : Machine) : Prop where
  globals : m'.globals = m.globals
  temps : ∀ k, k < n → m'.temps["_t" ++ toString k]? = m.temps["_t" ++ toString k]?

/-- The machine reaches a place and has changed only temporaries with numbers from `n` on. -/
structure Arrives (code : List Instr) (index : LabelIndex) (n : Nat) (m : Machine) (place : Nat)
    (m' : Machine) : Prop where
  reaches : Reaches code index m m'
  next : m'.next = place
  agrees : m.Agrees n m'

section Frame

variable {n' : Nat} {m2 : Machine} {place' : Nat}

lemma Machine.Agrees.store_eq (h : m.Agrees n m1) : m1.store = m.store := by
  unfold store
  rw [h.globals]

/-- An operand whose temporary has a small number keeps its value. -/
lemma Machine.Agrees.read_eq {v} (h : m.Agrees n m1) (hv : v.Within {} ⟨n, 0⟩) :
    m1.read (some v) = m.read (some v) := by
  cases hv with
  | const w => rfl
  | global x => simp only [read, h.globals]
  | temp _ hupper => simp only [read, tempOf, h.temps _ hupper]

/-- A machine that goes on from where it has arrived, with larger numbers only. -/
lemma Arrives.trans (h1 : Arrives code index n m place m1) (h2 : Arrives code index n' m1 place' m2)
    (hn : n ≤ n') : Arrives code index n m place' m2 where
  reaches := h1.reaches.trans h2.reaches
  next := h2.next
  agrees := ⟨h2.agrees.globals.trans h1.agrees.globals, fun k hk =>
    (h2.agrees.temps k (Nat.lt_of_lt_of_le hk hn)).trans (h1.agrees.temps k hk)⟩

lemma Arrives.refl : Arrives code index n m m.next m := ⟨.refl, rfl, ⟨rfl, fun _ _ => rfl⟩⟩

/-- An instruction that only moves on. -/
lemma Arrives.of_step {i} (hi : code[m.next]? = some i)
    (hstep : m.step index i = .ok { m with next := place }) :
    Arrives code index n m place { m with next := place } :=
  ⟨.of_step hi hstep, rfl, ⟨rfl, fun _ _ => rfl⟩⟩

/-- An instruction that writes a temporary with a larger number. -/
lemma Arrives.of_compute {i xs} (hi : code[m.next]? = some i) (hjump : i.op.isJump = false)
    (hmark : i.op ≠ .mark) (hargs : m.readAll i.args = .ok xs) (hw : compute i.op xs = .ok w)
    (hres : i.result = some (tempOf k)) (hk : n ≤ k) :
    ∃ m', Arrives code index n m (m.next + 1) m' ∧ m'.read (some (tempOf k)) = .ok w := by
  have hwrite : m.write i.result w =
      .ok { m with temps := m.temps.insert ("_t" ++ toString k) w } := by
    rw [hres]
    rfl
  refine ⟨_, ⟨.of_step hi (step_write hjump hmark hargs hw hwrite), rfl, rfl, fun j hj => ?_⟩, ?_⟩
  · have hne : k ≠ j := by omega
    show (m.temps.insert _ w)[_]? = _
    rw [Std.TreeMap.getElem?_insert]
    simp [hne]
  · simp [Machine.read, tempOf]

end Frame

/-! ## Numbers -/

mutual

/-- The value of a numeric expression is in a constant, a variable or a temporary with a smaller
number.
-/
lemma NumberCode.value_within {Γ t n v code n'} (h : NumberCode Γ t n v code n') :
    v.Within {} ⟨n', 0⟩ ∧ n ≤ n' := by
  match h with
  | .wrapper _ hinner | .unsigned _ hinner => exact hinner.value_within
  | .literal _ => exact ⟨.const _, le_refl _⟩
  | .variable _ => exact ⟨.global _, le_refl _⟩
  | .chain _ hfirst hrest =>
    obtain ⟨hacc, hle⟩ := hfirst.value_within
    obtain ⟨hv, hle'⟩ := hrest.value_within hacc
    exact ⟨hv, le_trans hle hle'⟩
  | .negated _ hinner =>
    exact ⟨.temp (Nat.zero_le _) (Nat.lt_succ_self _), Nat.le_succ_of_le hinner.value_within.2⟩

/-- The value of a chain is in a constant, a variable or a temporary with a smaller number. -/
lemma ChainCode.value_within {Γ kind acc ops operands n v code n'}
    (h : ChainCode Γ kind acc ops operands n v code n') (hacc : acc.Within {} ⟨n, 0⟩) :
    v.Within {} ⟨n', 0⟩ ∧ n ≤ n' := by
  match h with
  | .done => exact ⟨hacc, le_refl _⟩
  | .more _ hoperand hrest =>
    obtain ⟨hv, hle⟩ := hrest.value_within (.temp (Nat.zero_le _) (Nat.lt_succ_self _))
    exact ⟨hv, le_trans hoperand.value_within.2 (Nat.le_of_succ_le hle)⟩

end

/-- The machine computes a number into an operand and arrives at a place, or divides by zero, in
accordance with the value of an expression. -/
def Computes (code : List Instr) (index : LabelIndex) (n : Nat) (m : Machine)
    (place : Nat) (v : Operand) (value : Except Trouble Value) : Prop :=
  (∃ w m', value = .ok (.num w) ∧ Arrives code index n m place m' ∧ m'.read (some v) = .ok w) ∨
    value = .error .divisionByZero ∧ Fails code index m

/-- A node that only stands for its child has the value of the child. -/
lemma eval_of_isTransparent {Γ σ token value} (h : isTransparent kind ops = true) :
    eval Γ σ (.node kind token value ops [inner]) = eval Γ σ inner := by
  have hbind : (eval Γ σ inner >>= fun v => .ok v) = eval Γ σ inner := by
    cases eval Γ σ inner <;> rfl
  cases kind with
  | expression | group => rfl
  | sum | product | signed | negation | comparison | logic =>
    obtain rfl : ops = [] := List.isEmpty_iff.mp h
    first
      | exact hbind
      | rfl
  | _ => cases h

section Values

variable {value : String}

/-- The value of a chain of arithmetic operators begins with its first operand. -/
lemma eval_chain {first rest} (hkind : kind = .sum ∨ kind = .product) :
    eval Γ σ (.node kind token value ops (first :: rest)) = eval Γ σ first >>= fun v =>
    evalChain Γ σ v ops rest := by
  rcases hkind with rfl | rfl <;> rfl

end Values

section Numbers

/-- A number that is computed behind a place that the machine arrives at. -/
lemma Computes.of_arrives {n' place' v} (h2 : Computes code index n' m1 place' v value)
    (h1 : Arrives code index n m place m1) (hn : n ≤ n') :
    Computes code index n m place' v value := by
  rcases h2 with ⟨w, m', hval, harr, hread⟩ | ⟨hval, hfails⟩
  · exact .inl ⟨w, m', hval, h1.trans harr hn, hread⟩
  · exact .inr ⟨hval, hfails.of_reaches h1.reaches⟩

/-- A number that is computed from another one. -/
lemma Computes.bind {f place' v v'} (h : Computes code index n m place v value)
    (hf : ∀ w m1, Arrives code index n m place m1 → m1.read (some v) = .ok w →
      Computes code index n m place' v' (f (.num w))) : Computes code index n m place' v'
      (value >>= f) := by
  rcases h with ⟨w, m1, rfl, harr, hread⟩ | ⟨rfl, hfails⟩
  · exact hf w m1 harr hread
  · exact .inr ⟨rfl, hfails⟩

/-- An arithmetic instruction computes what its sign means, or divides by zero. -/
lemma computes_binary (hop : arithOpcode? kind op = some opcode)
    (hi : code[m.next]? = some (.binary opcode (tempOf k) left right)) (hk : n ≤ k)
    (hleft : m.read (some left) = .ok x) (hright : m.read (some right) = .ok y) :
    (∃ w m', arithmetic op x y = .ok w ∧ Arrives code index n m (m.next + 1) m' ∧
      m'.read (some (tempOf k)) = .ok w) ∨ arithmetic op x y = .error .divisionByZero ∧
      Fails code index m := by
  have hbinary := isBinary_of_arithOpcode hop
  have hjump : (Instr.binary opcode (tempOf k) left right).op.isJump = false :=
    isJump_of_isBinary hbinary
  have hmark : (Instr.binary opcode (tempOf k) left right).op ≠ .mark := ne_mark_of_isBinary hbinary
  have hargs := readAll_two hleft hright
  rcases compute_of_arithOpcode hop x y with ⟨w, hval, hcompute⟩ | ⟨hval, hcompute⟩
  · obtain ⟨m', harr, hread⟩ := Arrives.of_compute hi hjump hmark hargs hcompute rfl hk
    exact .inl ⟨w, m', hval, harr, hread⟩
  · exact .inr ⟨hval, .of_step hi (step_fault hjump hmark hargs hcompute)⟩

variable (index)

mutual

/-- The code of a numeric expression computes its value. -/
lemma NumberCode.computes {t n v c n' m} (h : NumberCode Γ t n v c n')
    (hat : CodeAt code m.next c) :
    Computes code index n m (m.next + c.length) v (eval Γ m.store t) := by
  match h with
  | .wrapper htransparent hinner =>
    rw [eval_of_isTransparent htransparent]
    exact hinner.computes hat
  | .literal hw => exact .inl ⟨_, m, by simp [eval, hw], .refl, rfl⟩
  | .variable hx => exact .inl ⟨_, m, by simp [eval, variableValue, hx]; rfl, .refl, rfl⟩
  | .chain hkind hfirst hrest =>
    rw [eval_chain hkind]
    refine (hfirst.computes hat.left).bind fun x m1 harr hread => ?_
    obtain ⟨hacc, hle⟩ := hfirst.value_within
    have hmore := hrest.computes (harr.next ▸ hat.right) hacc hread
    rw [harr.agrees.store_eq, harr.next, Nat.add_assoc, ← List.length_append] at hmore
    exact hmore.of_arrives harr hle
  | .unsigned hops hinner =>
    refine (hinner.computes hat).bind fun w m1 harr hread => ?_
    exact .inl ⟨w, m1, applySigns_of_signParity hops w, harr, hread⟩
  | .negated hops hinner =>
    refine (hinner.computes hat.left).bind fun w m1 harr hread => ?_
    have hi := hat.right.head
    rw [← harr.next] at hi
    obtain ⟨m2, harr2, hread2⟩ :=
      Arrives.of_compute hi rfl nofun (readAll_one hread) rfl rfl hinner.value_within.2
    rw [List.length_append, ← Nat.add_assoc, ← harr.next]
    exact .inl ⟨-w, m2, applySigns_of_signParity hops w, harr.trans harr2 (le_refl n), hread2⟩

/-- The code of the rest of a chain computes the value of the chain. -/
lemma ChainCode.computes {kind acc ops operands n v c n' m x}
    (h : ChainCode Γ kind acc ops operands n v c n') (hat : CodeAt code m.next c)
    (hacc : acc.Within {} ⟨n, 0⟩) (hx : m.read (some acc) = .ok x) :
    Computes code index n m (m.next + c.length) v (evalChain Γ m.store (.num x) ops operands) := by
  match h with
  | .done => exact .inl ⟨x, m, rfl, .refl, hx⟩
  | .more hop hoperand hrest =>
    obtain ⟨hright, hle⟩ := hoperand.value_within
    refine (hoperand.computes hat.left).bind fun y m1 harr hread => ?_
    have hi := hat.right.head
    rw [← harr.next] at hi
    have hacc1 := (harr.agrees.read_eq hacc).trans hx
    show Computes _ _ _ _ _ _ (arithmetic _ x y >>= _)
    rcases computes_binary hop hi hle hacc1 hread with ⟨w, m2, hw, harr2, hread2⟩ | ⟨hw, hfails⟩
    · have hat2 := hat.right.tail
      rw [← harr.next, ← harr2.next] at hat2
      have hmore := hrest.computes hat2 (.temp (Nat.zero_le _) (Nat.lt_succ_self _)) hread2
      have hboth := harr.trans harr2 (le_refl n)
      rw [hboth.agrees.store_eq] at hmore
      rw [hw, List.length_append, List.length_cons,
        Nat.add_comm _ 1, ← Nat.add_assoc, ← Nat.add_assoc, ← harr.next, ← harr2.next]
      exact hmore.of_arrives hboth (Nat.le_succ_of_le hle)
    · rw [hw]
      exact .inr ⟨rfl, hfails.of_reaches harr.reaches⟩

end

end Numbers

/-! ## Conditions -/

/-- The place where control goes: that of a label, or where it falls through. -/
def exitPlace (index : LabelIndex) (fallThrough : Nat) : Option Label → Nat
  | some l => Machine.place index (some l)
  | none => fallThrough

/-- The machine arrives at a place that depends on a truth value, or divides by zero, in accordance
with the value of an expression. -/
def Decides (code : List Instr) (index : LabelIndex) (n : Nat) (m : Machine) (places : Bool → Nat)
    (value : Except Trouble Value) : Prop :=
  (∃ b m', value = .ok (.bool b) ∧ Arrives code index n m (places b) m') ∨
    value = .error .divisionByZero ∧ Fails code index m

/-- A jump goes to its label or falls through. -/
lemma arrives_jumpCode {l} (hat : CodeAt code m.next (jumpCode l)) :
    ∃ m', Arrives code index n m (exitPlace index (m.next + (jumpCode l).length) l) m' := by
  cases l with
  | none => exact ⟨m, .refl⟩
  | some l => exact ⟨_, .of_step hat.head (step_jump l)⟩

/-- The result of an instruction does not depend on where the machine is. -/
lemma write_next {dst} (h : m.write dst w = .ok m') (place : Nat) :
    write { m with next := place } dst w = .ok { m' with next := place } := by
  unfold write at h ⊢
  split at h
  · cases h
    rfl
  · cases h
    rfl
  · cases h

lemma step_copy_const {dst} (hwrite : m.write (some dst) w = .ok m') :
    m.step index (.copy dst (.const w)) = .ok { m' with next := m'.next + 1 } :=
  step_write rfl nofun rfl rfl hwrite

/-- Behind a condition that leaves at the labels `k` and `k + 1`, its truth value is written. -/
lemma reaches_valueCode (hlink : Linked code index) {target}
    (hat : CodeAt code place (valueCode target k))
    (hnext : m.next = exitPlace index place (valueExits k b))
    (hwrite : m.write (some target) (Value.bool b).word = .ok m') :
    Reaches code index m { m' with next := place + 6 } := by
  have hcopy : ∀ p, step index (.copy target (.const (Value.bool b).word)) { m with next := p } =
      .ok { m' with next := p + 1 } := fun p => step_copy_const (write_next hwrite p)
  have hat3 := hat.tail.tail.tail
  have hlast : code[place + 5]? = some (.mark (labelOf (k + 2))) := hat3.tail.tail.head
  have hend : Reaches code index { m' with next := place + 5 } { m' with next := place + 6 } :=
    .of_step hlast (step_mark _)
  cases b with
  | true =>
    have hplace : m.next = place := hnext.trans (hlink _ _ hat.head)
    have hstart : Reaches code index m { m with next := place + 1 } := by
      refine .of_step (hplace ▸ hat.head) ?_
      rw [step_mark, hplace]
    have hval : Reaches code index { m with next := place + 1 } { m' with next := place + 2 } :=
      .of_step hat.tail.head (hcopy (place + 1))
    have hjump : Reaches code index { m' with next := place + 2 }
        { m' with next := place + 5 } := by
      refine .of_step hat.tail.tail.head ?_
      rw [step_jump, hlink _ _ hlast]
    exact hstart.trans (hval.trans (hjump.trans hend))
  | false =>
    have hplace : m.next = place + 3 := hnext.trans (hlink _ _ hat3.head)
    have hstart : Reaches code index m { m with next := place + 4 } := by
      refine .of_step (hplace ▸ hat3.head) ?_
      rw [step_mark, hplace]
    have hval : Reaches code index { m with next := place + 4 } { m' with next := place + 5 } :=
      .of_step hat3.tail.head (hcopy (place + 4))
    exact hstart.trans (hval.trans hend)

section Values

variable {value : String}

lemma eval_comparison {left right} : eval Γ σ (.node .comparison token value [op] [left, right]) =
      eval Γ σ left >>= fun l => eval Γ σ right >>= fun r => compareValues op l r := rfl

/-- The left operand of a chain decides it, or else the rest does. -/
lemma evalLogic_cons {d} (hop : decisive? op = some d) (ht : eval Γ σ t = .ok (.bool b)) :
    evalLogic Γ σ (op :: ops) (t :: ts) = if b = d then .ok (.bool d)
      else evalLogic Γ σ ops ts >>= fun v => v.truth >>= fun b' => .ok (.bool b') := by
  cases op with
  | orOr | andAnd =>
    cases hop
    rw [evalLogic, ht]
    cases b <;> rfl
  | _ => cases hop

lemma evalLogic_cons_error (ht : eval Γ σ t = .error .divisionByZero) :
    evalLogic Γ σ (op :: ops) (t :: ts) = .error .divisionByZero := by
  rw [evalLogic, ht]
  rfl

end Values

/-- A decision does not depend on how its places are written. -/
lemma Decides.congr {places'} (h : Decides code index n m places value)
    (heq : ∀ b, places b = places' b) :
    Decides code index n m places' value := (funext heq : places = places') ▸ h

/-- Control that goes to a label comes out behind its mark. -/
lemma Arrives.past_mark (hlink : Linked code index) {fallThrough l}
    (h : Arrives code index n m (exitPlace index fallThrough (some l)) m1)
    (hmark : code[place]? = some (.mark l)) :
    ∃ m2, Arrives code index n m (place + 1) m2 := by
  have hnext : m1.next = place := h.next.trans (hlink _ _ hmark)
  have hstep : Arrives code index n m1 (m1.next + 1) _ := .of_step (hnext ▸ hmark) (step_mark l)
  rw [hnext] at hstep
  exact ⟨_, h.trans hstep (le_refl n)⟩

end ThreeAddress
