import ThreeAddress.Machine
import ThreeAddress.Proofs.Code.Labels

/-!
# Paths of the machine

`Path code index k m m'` says that the machine gets from the state `m` to the state `m'` by
executing `k` instructions of `code`, and a trail adds the places of these instructions. A run goes
along a trail and ends because the trail leaves the code, because it leads to an instruction that
fails, or because it is as long as the step limit allows.

A piece of code that stands at a place inside a program is described by `CodeAt`. The rest of the
file says what single instructions do there.
-/

namespace ThreeAddress

open List

namespace Machine

/-- The machine gets from a state to another by executing `k` instructions. -/
inductive Path (code : List Instr) (index : LabelIndex) : Nat → Machine → Machine → Prop
  | refl {m} : Path code index 0 m m
  | step {k m m₁ m' i} (hi : code[m.next]? = some i) (hstep : m.step index i = .ok m₁)
      (hrest : Path code index k m₁ m') : Path code index (k + 1) m m'

/-- The machine gets from a state to another. -/
def Reaches (code : List Instr) (index : LabelIndex) (m m' : Machine) : Prop :=
  ∃ k, Path code index k m m'

/-- The machine gets from a state to an instruction that divides by zero. -/
def Fails (code : List Instr) (index : LabelIndex) (m : Machine) : Prop :=
  ∃ m' i, Reaches code index m m' ∧ code[m'.next]? = some i ∧
    m'.step index i = .error .divisionByZero

/-- The machine can execute at least `n` instructions. -/
def Lasts (code : List Instr) (index : LabelIndex) (n : Nat) (m : Machine) : Prop :=
  ∃ k m', n ≤ k ∧ Path code index k m m'

section Paths

variable {code : List Instr} {index : LabelIndex} {m m₁ m2 : Machine} {i : Instr}

lemma Path.trans {j k} (h1 : Path code index j m m₁) (h2 : Path code index k m₁ m2) :
    Path code index (j + k) m m2 := by
  induction h1 with
  | refl => rwa [Nat.zero_add]
  | step hi hstep _ ih =>
    rw [Nat.add_right_comm]
    exact .step hi hstep (ih h2)

lemma Reaches.refl : Reaches code index m m := ⟨0, .refl⟩

lemma Reaches.trans (h1 : Reaches code index m m₁) (h2 : Reaches code index m₁ m2) :
    Reaches code index m m2 := by
  obtain ⟨j, h1⟩ := h1
  obtain ⟨k, h2⟩ := h2
  exact ⟨j + k, h1.trans h2⟩

lemma Reaches.of_step (hi : code[m.next]? = some i) (hstep : m.step index i = .ok m₁) :
    Reaches code index m m₁ := ⟨1, .step hi hstep .refl⟩

lemma Fails.of_reaches (h2 : Fails code index m₁) (h1 : Reaches code index m m₁) :
    Fails code index m := by
  obtain ⟨m', i, hreach, hi, hstep⟩ := h2
  exact ⟨m', i, h1.trans hreach, hi, hstep⟩

lemma Fails.of_step (hi : code[m.next]? = some i)
    (hstep : m.step index i = .error .divisionByZero) :
    Fails code index m := ⟨m, i, .refl, hi, hstep⟩

lemma Lasts.zero : Lasts code index 0 m := ⟨0, m, Nat.zero_le _, .refl⟩

/-- A machine that can go on after a path can go on before it. -/
lemma Lasts.of_reaches {n} (h2 : Lasts code index n m₁) (h1 : Reaches code index m m₁) :
    Lasts code index n m := by
  obtain ⟨j, h1⟩ := h1
  obtain ⟨k, m', hk, h2⟩ := h2
  exact ⟨j + k, m', Nat.le_add_left_of_le hk, h1.trans h2⟩

/-- An instruction more can be executed before those that follow. -/
lemma Lasts.of_step {n} (hi : code[m.next]? = some i) (hstep : m.step index i = .ok m₁)
    (h : Lasts code index n m₁) :
    Lasts code index (n + 1) m := by
  obtain ⟨k, m', hk, hpath⟩ := h
  exact ⟨k + 1, m', Nat.succ_le_succ hk, .step hi hstep hpath⟩

/-- A part of a path can be executed. -/
lemma Path.take {j k} (h : Path code index (j + k) m m2) : ∃ m₁, Path code index j m m₁ ∧
    Path code index k m₁ m2 := by
  induction j generalizing m with
  | zero => exact ⟨m, .refl, by rwa [Nat.zero_add] at h⟩
  | succ j ih =>
    rw [Nat.add_right_comm] at h
    cases h with
    | step hi hstep hrest =>
      obtain ⟨m', hpath, hrest'⟩ := ih hrest
      exact ⟨m', .step hi hstep hpath, hrest'⟩

end Paths

/-! ## Trails -/

/-- The machine gets from a state to another by executing the instructions at the places of a trail,
in order. -/
inductive Trail (code : List Instr) (index : LabelIndex) : List Nat → Machine → Machine → Prop
  | nil {m} : Trail code index [] m m
  | cons {trail m m₁ m' i} (hi : code[m.next]? = some i) (hstep : m.step index i = .ok m₁)
      (hrest : Trail code index trail m₁ m') : Trail code index (m.next :: trail) m m'

section Trails

variable {code : List Instr} {index : LabelIndex} {m m₁ m' : Machine} {trail trail' : List Nat}
  {i : Instr}

lemma Trail.append (h : Trail code index trail m m₁) (h' : Trail code index trail' m₁ m') :
    Trail code index (trail ++ trail') m m' := by
  induction h with
  | nil => exact h'
  | cons hi hstep _ ih => exact .cons hi hstep (ih h')

lemma Trail.single (hi : code[m.next]? = some i) (hstep : m.step index i = .ok m₁) :
    Trail code index [m.next] m m₁ := .cons hi hstep .nil

lemma Trail.path (h : Trail code index trail m m') : Path code index trail.length m m' := by
  induction h with
  | nil => exact .refl
  | cons hi hstep _ ih => exact .step hi hstep ih

lemma Path.exists_trail {k} (h : Path code index k m m') : ∃ trail, Trail code index trail m m' ∧
    trail.length = k := by
  induction h with
  | refl => exact ⟨[], .nil, rfl⟩
  | @step k m m₁ m' i hi hstep _ ih =>
    obtain ⟨trail, htrail, rfl⟩ := ih
    exact ⟨m.next :: trail, .cons hi hstep htrail, rfl⟩

/-- Within a number of steps, a trail leads out of the code or to an instruction that fails, or it
goes on to the last of the steps. -/
lemma exists_trail (code : List Instr) (index : LabelIndex) (fuel : Nat) (m : Machine) :
    ∃ trail m', Trail code index trail m m' ∧ (trail.length ≤ fuel ∧ code[m'.next]? = none ∨
      (∃ i, trail.length = fuel ∧ code[m'.next]? = some i) ∨
      ∃ i fault, trail.length < fuel ∧ code[m'.next]? = some i ∧
      m'.step index i = .error fault) := by
  induction fuel generalizing m with
  | zero =>
    refine ⟨[], m, .nil, ?_⟩
    cases hi : code[m.next]? with
    | none => exact .inl ⟨Nat.le_refl _, rfl⟩
    | some i => exact .inr (.inl ⟨i, rfl, rfl⟩)
  | succ fuel ih =>
    cases hi : code[m.next]? with
    | none => exact ⟨[], m, .nil, .inl ⟨Nat.zero_le _, hi⟩⟩
    | some i =>
      cases hstep : m.step index i with
      | error fault => exact ⟨[], m, .nil, .inr (.inr ⟨i, fault, Nat.succ_pos _, hi, hstep⟩)⟩
      | ok m₁ =>
        obtain ⟨trail, m', htrail, hend⟩ := ih m₁
        refine ⟨m.next :: trail, m', .cons hi hstep htrail, ?_⟩
        simpa only [length_cons, Nat.add_le_add_iff_right, Nat.add_lt_add_iff_right,
          Nat.add_right_cancel_iff] using hend

end Trails

/-! ## Runs -/

/-- What a run that has gone along a trail leaves behind. -/
def resultOf (record : Bool) (trail : List Nat) (m : Machine) : RunResult :=
  ⟨m.globals, trail.length, if record then trail else []⟩

section Runs

variable {code : List Instr} {index : LabelIndex} {m m' : Machine} {record : Bool}
  {trail : List Nat} {fuel : Nat} {i : Instr}

section

variable (h : Trail code index trail m m')
include h

/-- A trail is the beginning of a run. -/
lemma runFrom_of_trail (record : Bool) (fuel steps : Nat) (trace : List Nat) :
    runFrom code.toArray index record (trail.length + fuel) m steps trace =
      runFrom code.toArray index record fuel m' (steps + trail.length)
        ((if record then trail else []).reverse ++ trace) := by
  induction h generalizing steps trace with
  | nil => simp
  | @cons trail m m₁ m' i hi hstep _ ih =>
    rw [length_cons, Nat.add_right_comm, runFrom]
    simp only [getElem?_toArray, hi, hstep]
    rw [ih, Nat.add_assoc, Nat.add_comm 1]
    cases record with
    | true | false => simp

/-- A trail that leaves the code is a run that finishes, whatever else it could have executed. -/
lemma runFrom_finished (hend : code[m'.next]? = none) (hfuel : trail.length ≤ fuel) :
    runFrom code.toArray index record fuel m 0 [] = .finished (resultOf record trail m') := by
  obtain ⟨rest, rfl⟩ := Nat.exists_eq_add_of_le hfuel
  rw [runFrom_of_trail h, Nat.zero_add, append_nil, resultOf]
  have hsize : ¬ m'.next < code.length := by simpa using hend
  cases rest with
  | zero => simp [runFrom, hsize]
  | succ rest => simp [runFrom, hend]

/-- A trail to an instruction that fails is a run that fails. -/
lemma runFrom_failed {fault} (hi : code[m'.next]? = some i) (hstep : m'.step index i = .error fault)
    (hfuel : trail.length < fuel) : runFrom code.toArray index record fuel m 0 [] =
    .failed m'.next i fault := by
  obtain ⟨rest, rfl⟩ := Nat.exists_eq_add_of_lt hfuel
  rw [Nat.add_assoc, runFrom_of_trail h, runFrom]
  simp only [getElem?_toArray, hi, hstep]

/-- A trail that has come to an instruction that may not be executed any more is a run that is
stopped. -/
lemma runFrom_stopped (hi : code[m'.next]? = some i) :
    runFrom code.toArray index record trail.length m 0 [] =
    .stopped (resultOf record trail m') := by
  have hsize : m'.next < code.toArray.size := (List.getElem?_eq_some_iff.mp hi).1
  have hrun := runFrom_of_trail h record 0 0 []
  rw [Nat.add_zero, Nat.zero_add, append_nil] at hrun
  rw [hrun, runFrom, if_pos hsize, reverse_reverse, resultOf]

end

/-- A machine that can execute one more instruction than it may is stopped. -/
lemma runFrom_of_lasts (h : Lasts code index (fuel + 1) m) :
    ∃ r, runFrom code.toArray index record fuel m 0 [] = .stopped r := by
  obtain ⟨k, m', hk, hpath⟩ := h
  obtain ⟨rest, rfl⟩ := Nat.exists_eq_add_of_le hk
  rw [Nat.add_assoc, Nat.add_comm 1] at hpath
  obtain ⟨m₁, hfirst, hmore⟩ := hpath.take
  obtain ⟨trail, htrail, rfl⟩ := hfirst.exists_trail
  cases hmore with
  | step hi _ _ => exact ⟨_, runFrom_stopped htrail hi⟩

variable (hindex : labelIndex code = .ok index)
include hindex

/-- Code that passes the check of labels is run for the number of steps that is asked for. -/
lemma run_eq_runFrom {start limit} (hcheck : checkLabels code = .ok ()) (hlimit : 0 < limit) :
    run code start limit record = runFrom code.toArray index record limit.toNat
    { globals := start } 0 [] := by
  simp only [run, hindex, hcheck, if_neg (Int.not_le.mpr hlimit)]

/-- Every run of code that passes the check of labels goes along a trail, and ends because the trail
leaves the code, because it has the length that is allowed, or because the next instruction fails.
-/
lemma run_cases (hcheck : checkLabels code = .ok ()) (start : Bindings)
    (limit : Int) (record : Bool) : ∃ fuel trail m', (0 < limit → fuel = limit.toNat) ∧
      Trail code index trail { globals := start } m' ∧
      (trail.length ≤ fuel ∧ code[m'.next]? = none ∧
        run code start limit record = .finished (resultOf record trail m') ∨
      (∃ i, trail.length = fuel ∧ code[m'.next]? = some i ∧
        run code start limit record = .stopped (resultOf record trail m')) ∨
      ∃ i fault, trail.length < fuel ∧ code[m'.next]? = some i ∧ m'.step index i = .error fault ∧
        run code start limit record = .failed m'.next i fault) := by
  have hrun : ∃ fuel, (0 < limit → fuel = limit.toNat) ∧ run code start limit record =
      runFrom code.toArray index record fuel { globals := start } 0 [] := by
    refine ⟨if limit ≤ 0 then defaultStepLimit else limit.toNat, fun hlimit =>
      if_neg (Int.not_le.mpr hlimit), ?_⟩
    simp only [run, hindex, hcheck]
  obtain ⟨fuel, hfuel, hrun⟩ := hrun
  obtain ⟨trail, m', htrail, hend⟩ := exists_trail code index fuel { globals := start }
  refine ⟨fuel, trail, m', hfuel, htrail, ?_⟩
  rw [hrun]
  rcases hend with ⟨hle, hend⟩ | ⟨i, rfl, hi⟩ | ⟨i, fault, hlt, hi, hstep⟩
  · exact .inl ⟨hle, hend, runFrom_finished htrail hend hle⟩
  · exact .inr (.inl ⟨i, rfl, hi, runFrom_stopped htrail hi⟩)
  · exact .inr (.inr ⟨i, fault, hlt, hi, hstep, runFrom_failed htrail hi hstep hlt⟩)

/-- What a run leaves behind tells the trail that it has gone along. -/
lemma run_trail {start limit r}
    (h : run code start limit record = .finished r ∨ run code start limit record = .stopped r) :
    ∃ trail m', Trail code index trail { globals := start } m' ∧ r = resultOf record trail m' := by
  have hcheck : checkLabels code = .ok () := by
    cases hcheck : checkLabels code with
    | ok _ => rfl
    | error fault => simp [run, hindex, hcheck] at h
  obtain ⟨fuel, trail, m', -, htrail, hend⟩ := run_cases hindex hcheck start limit record
  refine ⟨trail, m', htrail, ?_⟩
  rcases hend with ⟨-, -, hrun⟩ | ⟨i, -, -, hrun⟩ | ⟨i, fault, -, -, -, hrun⟩
  · simpa [hrun, eq_comm] using h
  · simpa [hrun, eq_comm] using h
  · simp [hrun] at h

/-- Every run of code that passes the check of labels follows a path to the state in which it ends.
-/
lemma run_follows (hcheck : checkLabels code = .ok ())
    (start : Bindings) (limit : Int) (record : Bool) :
    ∃ k m', Path code index k { globals := start } m' ∧
      ((code[m'.next]? = none ∧ ∃ r, run code start limit record = .finished r ∧
        r.globals = m'.globals) ∨
      ((0 < limit → k = limit.toNat) ∧ ∃ r, run code start limit record = .stopped r ∧
        r.globals = m'.globals) ∨
      ∃ i fault, code[m'.next]? = some i ∧ m'.step index i = .error fault ∧
        run code start limit record = .failed m'.next i fault) := by
  obtain ⟨fuel, trail, m', hfuel, htrail, hend⟩ := run_cases hindex hcheck start limit record
  refine ⟨trail.length, m', htrail.path, ?_⟩
  rcases hend with ⟨-, hend, hrun⟩ | ⟨i, hlen, -, hrun⟩ | ⟨i, fault, -, hi, hstep, hrun⟩
  · exact .inl ⟨hend, _, hrun, rfl⟩
  · exact .inr (.inl ⟨fun hlimit => hlen.trans (hfuel hlimit), _, hrun, rfl⟩)
  · exact .inr (.inr ⟨i, fault, hi, hstep, hrun⟩)

/-- A run that is stopped at every step limit has paths of every length. -/
lemma paths_of_stopped {start} (hcheck : checkLabels code = .ok ())
    (h : ∀ limit, 0 < limit → ∃ r, run code start limit record = .stopped r) (n : Nat) :
    ∃ m, Path code index n { globals := start } m := by
  have hpos : (0 : Int) < (n + 1 : Nat) := Int.natCast_pos.mpr (Nat.succ_pos n)
  obtain ⟨k, m, hpath, hend⟩ := run_follows hindex hcheck start (n + 1 : Nat) record
  obtain ⟨r, hrun⟩ := h _ hpos
  rw [hrun] at hend
  rcases hend with ⟨-, r', hrun', -⟩ | ⟨hk, -⟩ | ⟨i, fault, -, -, hrun'⟩
  · cases hrun'
  · have hk : k = n + 1 := hk hpos
    rw [hk] at hpath
    obtain ⟨m₁, hfirst, -⟩ := hpath.take
    exact ⟨m₁, hfirst⟩
  · cases hrun'

end Runs

/-- What one executed instruction keeps, a path keeps. -/
lemma Path.invariant {code : List Instr} {index : LabelIndex} {P : Machine → Prop}
    {k : Nat} {m m' : Machine}
    (hstep : ∀ {m m₁ i}, code[m.next]? = some i → m.step index i = .ok m₁ → P m → P m₁)
    (h : Path code index k m m') (hm : P m) : P m' := by
  induction h with
  | refl => exact hm
  | step hi hone _ ih => exact ih (hstep hi hone hm)

/-- The machine that runs code from given values of the variables comes to a state. -/
def Visits (code : List Instr) (start : Bindings) (m : Machine) : Prop :=
  ∃ index k, labelIndex code = .ok index ∧ Path code index k { globals := start } m

end Machine

/-! ## Code inside a program -/

/-- A piece of code stands at a place in a program. -/
def CodeAt {α : Type} (code : List α) (place : Nat) (piece : List α) : Prop :=
  ∀ j, j < piece.length → code[place + j]? = piece[j]?

section CodeAt

variable {α : Type} {code c1 c2 : List α} {place : Nat} {i : α}

lemma CodeAt.self (code : List α) : CodeAt code 0 code := fun j _ => by rw [Nat.zero_add]

lemma CodeAt.left (h : CodeAt code place (c1 ++ c2)) : CodeAt code place c1 := by
  intro j hj
  rw [h j (by simp only [length_append]; omega), getElem?_append_left hj]

/-- The second of two pieces stands behind the first. -/
lemma CodeAt.right (h : CodeAt code place (c1 ++ c2)) : CodeAt code (place + c1.length) c2 := by
  intro j hj
  rw [Nat.add_assoc, h (c1.length + j) (by simp only [length_append]; omega),
    getElem?_append_right (Nat.le_add_right _ _), Nat.add_sub_cancel_left]

lemma CodeAt.head (h : CodeAt code place (i :: c1)) : code[place]? = some i := by
  have h0 := h 0 (Nat.succ_pos _)
  rwa [Nat.add_zero] at h0

lemma CodeAt.tail (h : CodeAt code place (i :: c1)) : CodeAt code (place + 1) c1 := by
  rw [← singleton_append] at h
  exact h.right

lemma CodeAt.at_place {place'} (h : CodeAt code place c1) (hplace : place' = place := by
      simp only [length_append, length_cons, length_nil]
      omega) :
    CodeAt code place' c1 := hplace ▸ h

end CodeAt

/-- The index of the labels of a program sends every label to its mark. -/
def Linked (code : List Instr) (index : LabelIndex) : Prop :=
  ∀ j l, code[j]? = some (.mark l) → Machine.place index (some l) = j

lemma linked_of_labelIndex {code index} (h : labelIndex code = .ok index) :
    Linked code index := fun j l hj => by
  rw [Machine.place, labelIndex_locates h hj, Option.getD_some]

namespace Machine

section Instructions

variable {index : LabelIndex} {m : Machine}

lemma step_mark (l : Label) : m.step index (.mark l) = .ok { m with next := m.next + 1 } := rfl

lemma step_jump (l : Label) :
    m.step index (.jump l) = .ok { m with next := place index (some l) } := rfl

/-- An operation that neither jumps nor marks reads its arguments and writes its result. -/
lemma step_plain {i} (hjump : i.op.isJump = false) (hmark : i.op ≠ .mark) : m.step index i = (do
      let args ← m.readAll i.args
      let value ← compute i.op args
      let m ← m.write i.result value
      return { m with next := m.next + 1 }) := by
  unfold step
  split
  · rename_i hop
    exact absurd hop hmark
  · rename_i hop
    rw [hop] at hjump
    cases hjump
  · rename_i hop
    rw [hop] at hjump
    cases hjump
  · rename_i hop
    rw [hop] at hjump
    cases hjump
  · rfl

section Plain

variable {i : Instr} {xs : List Int64} {w : Int64}

/-- An operation whose result can be written. -/
lemma step_write {m'} (hjump : i.op.isJump = false) (hmark : i.op ≠ .mark)
    (hargs : m.readAll i.args = .ok xs) (hw : compute i.op xs = .ok w)
    (hwrite : m.write i.result w = .ok m') :
    m.step index i = .ok { m' with next := m'.next + 1 } := by
  rw [step_plain hjump hmark, hargs]
  show (compute i.op xs >>= fun value => m.write i.result value >>= _) = _
  rw [hw]
  show (m.write i.result w >>= _) = _
  rw [hwrite]
  rfl

/-- An operation that has no result. -/
lemma step_fault {fault} (hjump : i.op.isJump = false) (hmark : i.op ≠ .mark)
    (hargs : m.readAll i.args = .ok xs) (hw : compute i.op xs = .error fault) :
    m.step index i = .error fault := by
  rw [step_plain hjump hmark, hargs]
  show (compute i.op xs >>= _) = _
  rw [hw]
  rfl

end Plain

lemma readAll_one {v w} (hv : m.read (some v) = .ok w) : m.readAll [some v] = .ok [w] := by
  simp [readAll, hv, bind, Except.bind, pure, Except.pure]

variable {left right : Operand} {x y : Int64} (hleft : m.read (some left) = .ok x)
  (hright : m.read (some right) = .ok y)
include hleft hright

lemma readAll_two : m.readAll [some left, some right] = .ok [x, y] := by
  simp [readAll, hleft, hright, bind, Except.bind, pure, Except.pure]

lemma step_jumpIf {op l b} (hb : compare op x y = .ok b) :
    m.step index (.jumpIf op left right l) =
    .ok { m with next := if b then place index (some l) else m.next + 1 } := by
  simp [step, Instr.jumpIf, decide, hleft, hright, hb, bind, Except.bind, pure, Except.pure]

/-- A conditional jump on the opposite. -/
lemma step_jumpUnless {op l b} (hb : compare op x y = .ok b) :
      m.step index (.jumpUnless op left right l) =
      .ok { m with next := if b then m.next + 1 else place index (some l) } := by
  simp [step, Instr.jumpUnless, decide, hleft, hright, hb, bind, Except.bind, pure, Except.pure]

end Instructions

end Machine

end ThreeAddress
