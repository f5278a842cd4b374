import ThreeAddress.Proofs.Lowering.Simulation
import ThreeAddress.Proofs.Machine.Trails

/-!
# Executing a piece of code

`Stays code index lo hi m trail m'` is a trail that does not leave the places from `lo` up to `hi`.
Such a trail is all that the machine can do there once it has left the range, or cannot go on in it
(`Stays.unique`).

What is known of a piece of code in every program holds in the program that consists of nothing
else: there the places before the piece hold instructions that cannot be executed, so that the
machine stays in the piece (`Reaches.stays`). In this way what has been proved about the values of
expressions tells as well which instructions are executed on the way.

The tests of a piece of code are its conditional jumps. `testPlaces` are their places in the code,
and `testsAlong` those that are executed along a trail.
-/

namespace ThreeAddress

open List Machine

variable {code c : List Instr} {index : LabelIndex} {m : Machine} {trail trail' : List Nat}
  {i : Instr} {p : Nat}

/-! ## Trails in a range -/

/-- The machine gets from a state to another by a trail in a range of places. -/
structure Stays (code : List Instr) (index : LabelIndex) (lo hi : Nat) (m : Machine)
    (trail : List Nat) (m' : Machine) : Prop where
  path : Trail code index trail m m'
  inside : ∀ q ∈ trail, lo ≤ q ∧ q < hi

/-- The next instruction is in a range of places and divides by zero. -/
structure DividesWithin (code : List Instr) (index : LabelIndex) (lo hi : Nat)
    (m : Machine) : Prop where
  lower : lo ≤ m.next
  upper : m.next < hi
  fault : ∃ i, code[m.next]? = some i ∧ m.step index i = .error .divisionByZero

/-- The machine has left a range of places, or it is at a division by zero in it. -/
def Through (code : List Instr) (index : LabelIndex) (lo hi : Nat) (m : Machine) : Prop :=
  (m.next < lo ∨ hi ≤ m.next) ∨ DividesWithin code index lo hi m

section Ranges

variable {lo hi lo' hi' : Nat} {m1 m2 : Machine}

lemma Stays.refl : Stays code index lo hi m [] m := ⟨.nil, forall_mem_nil _⟩

lemma Stays.single (hi : code[m.next]? = some i) (hstep : m.step index i = .ok m1)
    (hlower : lo ≤ m.next) (hupper : m.next < hi') : Stays code index lo hi' m [m.next] m1 :=
  ⟨.single hi hstep, forall_mem_singleton.mpr ⟨hlower, hupper⟩⟩

lemma Stays.append (h : Stays code index lo hi m trail m1)
    (h' : Stays code index lo hi m1 trail' m2) :
    Stays code index lo hi m (trail ++ trail') m2 :=
  ⟨h.path.append h'.path, forall_mem_append.mpr ⟨h.inside, h'.inside⟩⟩

lemma Stays.widen (h : Stays code index lo hi m trail m1) (hlo : lo' ≤ lo) (hhi : hi ≤ hi') :
    Stays code index lo' hi' m trail m1 :=
  ⟨h.path, fun q hq => ⟨le_trans hlo (h.inside q hq).1, lt_of_lt_of_le (h.inside q hq).2 hhi⟩⟩

lemma DividesWithin.widen (h : DividesWithin code index lo hi m) (hlo : lo' ≤ lo) (hhi : hi ≤ hi') :
    DividesWithin code index lo' hi' m :=
  ⟨le_trans hlo h.lower, lt_of_lt_of_le h.upper hhi, h.fault⟩

/-- A machine that is through a range cannot execute another instruction in it. -/
lemma Through.not_stays_cons (h : Through code index lo hi m) {q} :
    ¬ Stays code index lo hi m (q :: trail) m1 := by
  rintro ⟨htrail, hinside⟩
  have hq := hinside q mem_cons_self
  cases htrail with
  | cons hi hstep _ =>
    rcases h with houtside | ⟨-, -, i, hi', hfault⟩
    · omega
    · cases hi.symm.trans hi'
      rw [hstep] at hfault
      cases hfault

/-- There is only one trail through a range from a given state. -/
lemma Stays.unique (h : Stays code index lo hi m trail m1) (h' : Stays code index lo hi m trail' m2)
    (hend : Through code index lo hi m1) (hend' : Through code index lo hi m2) :
    trail = trail' ∧ m1 = m2 := by
  induction trail generalizing m trail' with
  | nil =>
    cases h.path
    cases trail' with
    | nil =>
      cases h'.path
      exact ⟨rfl, rfl⟩
    | cons q trail' => exact absurd h' hend.not_stays_cons
  | cons q trail ih =>
    cases trail' with
    | nil =>
      cases h'.path
      exact absurd h hend'.not_stays_cons
    | cons q' trail' =>
      obtain ⟨htrail, hinside⟩ := h
      obtain ⟨htrail', hinside'⟩ := h'
      cases htrail with
      | cons hi hstep hrest =>
        cases htrail' with
        | cons hi' hstep' hrest' =>
          cases hi.symm.trans hi'
          cases hstep.symm.trans hstep'
          obtain ⟨rfl, rfl⟩ := ih ⟨hrest, fun q hq => hinside q (mem_cons_of_mem _ hq)⟩
            ⟨hrest', fun q hq => hinside' q (mem_cons_of_mem _ hq)⟩
          exact ⟨rfl, rfl⟩

/-- Along a trail the variables keep their values if no instruction writes one. -/
lemma Stays.globals_eq (h : Stays code index lo hi m trail m1)
    (hcode : ∀ q i, lo ≤ q → q < hi → code[q]? = some i → ∀ x, i.result ≠ some (.global x)) :
    m1.globals = m.globals := by
  obtain ⟨htrail, hinside⟩ := h
  induction htrail with
  | nil => rfl
  | cons hi hstep _ ih =>
    obtain ⟨⟨hlower, hupper⟩, hrest⟩ := forall_mem_cons.mp hinside
    rw [ih hrest]
    rcases step_cases hstep with ⟨-, rfl⟩ | ⟨-, rfl⟩ | ⟨_, -, -, rfl⟩ | ⟨_, -, -, rfl⟩ |
      ⟨-, -, _, _, _, -, -, hwrite, rfl⟩
    · rfl
    · rfl
    · rfl
    · rfl
    · rcases write_cases hwrite with ⟨x, hx, -⟩ | ⟨_, _, -, rfl⟩
      · exact absurd hx (hcode _ _ hlower hupper hi x)
      · rfl

end Ranges

/-! ## A piece of code by itself -/

/-- An instruction that cannot be executed. -/
def idle : Instr := { op := .copy }

/-- The program in which a piece of code stands at its place, and nothing else can be executed. -/
def isolated (place : Nat) (piece : List Instr) : List Instr := List.replicate place idle ++ piece

section Isolated

variable {q : Nat} {m' : Machine}

/-- The piece of code stands at its place. -/
lemma codeAt_isolated (p : Nat) (c : List Instr) : CodeAt (isolated p c) p c := by
  have h : CodeAt (isolated p c) (0 + (replicate p idle).length) c :=
    (CodeAt.self (isolated p c)).right
  rwa [length_replicate, Nat.zero_add] at h

/-- An instruction of the program is idle or one of the piece, which stands in any other program as
well. -/
lemma isolated_cases (hat : CodeAt code p c) (h : (isolated p c)[q]? = some i) :
    i = idle ∨ (p ≤ q ∧ q < p + c.length) ∧ code[q]? = some i := by
  by_cases hq : q < p
  · left
    rw [isolated, List.getElem?_append_left (by simpa using hq)] at h
    exact eq_of_mem_replicate (mem_of_getElem? h)
  · right
    obtain ⟨j, rfl⟩ := Nat.exists_eq_add_of_le (Nat.not_lt.mp hq)
    rw [isolated, List.getElem?_append_right (by simp), length_replicate,
      Nat.add_sub_cancel_left] at h
    have hj := (List.getElem?_eq_some_iff.mp h).1
    exact ⟨by omega, (hat j hj).trans h⟩

lemma Linked.isolated (hlink : Linked code index) (hat : CodeAt code p c) :
    Linked (isolated p c) index := by
  intro j l hj
  rcases isolated_cases hat hj with hidle | ⟨-, hcode⟩
  · cases hidle
  · exact hlink j l hcode

/-- What the machine reaches by executing a piece by itself, it reaches by a trail in the piece. -/
lemma Machine.Reaches.stays (h : Reaches (isolated p c) index m m') (hat : CodeAt code p c) :
    ∃ trail, Stays code index p (p + c.length) m trail m' := by
  obtain ⟨k, hpath⟩ := h
  induction hpath with
  | refl => exact ⟨[], .refl⟩
  | @step k m m1 m' i hi hstep _ ih =>
    obtain ⟨trail, hrest⟩ := ih
    rcases isolated_cases hat hi with rfl | ⟨⟨hlower, hupper⟩, hcode⟩
    · cases hstep
    · exact ⟨m.next :: trail, (Stays.single hcode hstep hlower hupper).append hrest⟩

/-- A division by zero that the machine comes to by executing a piece by itself is in the piece. -/
lemma Machine.Fails.stays (h : Fails (isolated p c) index m) (hat : CodeAt code p c) :
    ∃ trail m', Stays code index p (p + c.length) m trail m' ∧
    DividesWithin code index p (p + c.length) m' := by
  obtain ⟨m', i, hreaches, hi, hfault⟩ := h
  obtain ⟨trail, hstays⟩ := hreaches.stays hat
  rcases isolated_cases hat hi with rfl | ⟨⟨hlower, hupper⟩, hcode⟩
  · cases hfault
  · exact ⟨trail, m', hstays, hlower, hupper, i, hcode, hfault⟩

end Isolated

/-! ## Tests -/

/-- A test is a conditional jump. -/
def Instr.isTest (i : Instr) : Bool := i.op == .jumpIf || i.op == .jumpUnless

/-- The places of the tests of a piece of code. -/
def testPlaces (place : Nat) : List Instr → List Nat
  | [] => []
  | i :: c => if i.isTest then place :: testPlaces (place + 1) c else testPlaces (place + 1) c

/-- The tests that are executed along a trail. -/
def testsAlong (code : List Instr) (trail : List Nat) : List Nat :=
  trail.filter fun q => (code[q]?).any Instr.isTest

/-- The tests of one piece of code come before those of the next. -/
@[simp] lemma testPlaces_append (p : Nat) (c1 c2 : List Instr) :
    testPlaces p (c1 ++ c2) = testPlaces p c1 ++ testPlaces (p + c1.length) c2 := by
  induction c1 generalizing p with
  | nil => rfl
  | cons i c1 ih =>
    rw [cons_append, testPlaces, testPlaces, ih, length_cons, Nat.add_assoc, Nat.add_comm 1]
    split <;> rfl

lemma testPlaces_cons {i} (h : i.isTest = false) (p : Nat) (c : List Instr) :
    testPlaces p (i :: c) = testPlaces (p + 1) c := by
  rw [testPlaces, h]
  rfl

lemma testPlaces_eq_nil (h : ∀ i ∈ c, i.isTest = false) (p : Nat) : testPlaces p c = [] := by
  induction c generalizing p with
  | nil => rfl
  | cons i c ih =>
    obtain ⟨hi, hc⟩ := forall_mem_cons.mp h
    rw [testPlaces_cons hi, ih hc]

@[simp] lemma testsAlong_append (code : List Instr) (trail trail' : List Nat) :
    testsAlong code (trail ++ trail') = testsAlong code trail ++ testsAlong code trail' :=
  filter_append ..

/-- No test is executed in code without tests. -/
lemma testsAlong_eq_nil (hat : CodeAt code p c) (h : ∀ i ∈ c, i.isTest = false)
    (hinside : ∀ q ∈ trail, p ≤ q ∧ q < p + c.length) : testsAlong code trail = [] := by
  refine filter_eq_nil_iff.mpr fun q hq => ?_
  obtain ⟨hlower, hupper⟩ := hinside q hq
  obtain ⟨j, rfl⟩ := Nat.exists_eq_add_of_le hlower
  have hj : j < c.length := Nat.lt_of_add_lt_add_left hupper
  rw [hat j hj, getElem?_eq_getElem hj, Option.any_some, h _ (getElem_mem hj)]
  exact Bool.false_ne_true

end ThreeAddress
