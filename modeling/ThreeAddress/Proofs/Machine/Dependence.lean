import Mathlib.Data.Set.Function
import ThreeAddress.Proofs.Code.Flow
import ThreeAddress.Proofs.Lowering.Simulation
import ThreeAddress.Proofs.Names.Session

/-!
# What a run depends on

An instruction reads the variables that it names and writes at most its result. So two machines that
differ only in variables that code does not name do the same (`step_alike`): they execute the same
instructions, fail at the same one, and keep the same values in the variables that the code names. A
variable that is no result keeps its value, or stays without one.
-/

namespace ThreeAddress

/-- The wording of the error that a run ends with, if it does. -/
def RunOutcome.complaint? : RunOutcome → Option String
  | rejected fault => some fault.message
  | finished _ => none
  | stopped r => some (stepLimitMessage r)
  | failed index i fault => some (runFailure index i fault)

/-- Two runs end in the same way, after as many steps and with the same record, and leave the same
values of some variables. -/
inductive RunOutcome.Alike (xs : Set String) : RunOutcome → RunOutcome → Prop
  | rejected (fault) : Alike xs (.rejected fault) (.rejected fault)
  | finished {g g' steps trace} (h : Set.EqOn (storeOf g) (storeOf g') xs) :
      Alike xs (.finished ⟨g, steps, trace⟩) (.finished ⟨g', steps, trace⟩)
  | stopped {g g' steps trace} (h : Set.EqOn (storeOf g) (storeOf g') xs) :
      Alike xs (.stopped ⟨g, steps, trace⟩) (.stopped ⟨g', steps, trace⟩)
  | failed (index i fault) : Alike xs (.failed index i fault) (.failed index i fault)

/-- Runs that end alike end with the same error. -/
lemma RunOutcome.Alike.complaint?_eq {xs} {o o' : RunOutcome} (h : o.Alike xs o') :
    o.complaint? = o'.complaint? := by
  cases h with
  | rejected | finished | stopped | failed => rfl

namespace Machine

/-- Two machines are about to execute the same instruction, and hold the same values of the
temporaries and of some variables. -/
structure Alike (xs : Set String) (m m' : Machine) : Prop where
  next : m.next = m'.next
  temps : m.temps = m'.temps
  globals : Set.EqOn m.store m'.store xs

/-- Two instructions have failed for the same reason, or they have left two machines alike. -/
inductive AlikeResults (xs : Set String) : Except RunFault Machine → Except RunFault Machine → Prop
  | error (fault) : AlikeResults xs (.error fault) (.error fault)
  | ok {m m'} (h : m.Alike xs m') : AlikeResults xs (.ok m) (.ok m')

section Results

variable {xs : Set String} {α : Type}

/-- Two computations go on from the same value. -/
lemma AlikeResults.bind_eq {x x' : Except RunFault α} {f f' : α → Except RunFault Machine}
    (hx : x = x') (hf : ∀ a, AlikeResults xs (f a) (f' a)) :
    AlikeResults xs (x >>= f) (x' >>= f') := by
  subst hx
  cases x with
  | error fault => exact .error fault
  | ok a => exact hf a

/-- Two computations go on from machines that are alike. -/
lemma AlikeResults.bind {x x' f f'} (hx : AlikeResults xs x x')
    (hf : ∀ {m m'}, m.Alike xs m' → AlikeResults xs (f m) (f' m')) :
    AlikeResults xs (x >>= f) (x' >>= f') := by
  cases hx with
  | error fault => exact .error fault
  | ok h => exact hf h

end Results

section Instructions

variable {xs : Set String} {m m' : Machine} {i : Instr} (h : m.Alike xs m')
include h

/-- Machines that are alike stay so if the same instruction is to be executed next. -/
lemma Alike.moved {n n'} (hn : n = n') :
    AlikeResults xs (.ok { m with next := n }) (.ok { m' with next := n' }) :=
    .ok ⟨hn, h.temps, h.globals⟩

/-- Both machines read the same from an operand that is none of the other variables. -/
lemma Alike.read_eq {v} (hv : ∀ x, v = some (.global x) → x ∈ xs) : m.read v = m'.read v := by
  cases v with
  | none => rfl
  | some v =>
    cases v with
    | const | label => rfl
    | global x => exact congrArg Except.ok (h.globals (hv x rfl))
    | temp name id => rw [read, read, h.temps]

lemma Alike.readAll_eq {vs} (hvs : ∀ x, some (.global x) ∈ vs → x ∈ xs) :
    m.readAll vs = m'.readAll vs := by
  induction vs with
  | nil => rfl
  | cons v vs ih =>
    rw [readAll, readAll, h.read_eq fun x hx => hvs x (hx ▸ List.mem_cons_self),
      ih fun x hx => hvs x (List.mem_cons_of_mem _ hx)]

lemma Alike.decide_eq (hi : ∀ x, i.Mentions (.global x) → x ∈ xs) :
    m.decide i.test = m'.decide i.test := by
  cases ht : i.test with
  | none => rfl
  | some t =>
    rw [decide, decide, h.read_eq fun x hx => hi x (.inr (.inr ⟨t, ht, .inl hx⟩)),
      h.read_eq fun x hx => hi x (.inr (.inr ⟨t, ht, .inr hx⟩))]

lemma Alike.write (dst : Option Operand) (w : Int64) :
    AlikeResults xs (m.write dst w) (m'.write dst w) := by
  cases dst with
  | none => exact .error _
  | some v =>
    cases v with
    | const | label => exact .error _
    | global x =>
      refine .ok ⟨h.next, h.temps, fun y hy => ?_⟩
      simp only [store, storeOf, Std.TreeMap.getElem?_insert]
      split
      · rfl
      · exact h.globals hy
    | temp name id => exact .ok ⟨h.next, congrArg (·.insert name w) h.temps, h.globals⟩

/-- Machines that differ only in variables that an instruction does not name fail alike or stay
alike. -/
lemma Alike.step (index : LabelIndex) (hi : ∀ x, i.Mentions (.global x) → x ∈ xs) :
    AlikeResults xs (m.step index i) (m'.step index i) := by
  have hnext : m.next + 1 = m'.next + 1 := congrArg (· + 1) h.next
  by_cases hplain : i.op.isJump = false ∧ i.op ≠ .mark
  · obtain ⟨hjump, hmark⟩ := hplain
    rw [step_plain hjump hmark, step_plain hjump hmark]
    refine .bind_eq (h.readAll_eq fun x hx => hi x (.inr (.inl hx))) fun args => ?_
    refine .bind_eq rfl fun w => ?_
    exact (h.write i.result w).bind fun h' => h'.moved (congrArg (· + 1) h'.next)
  · unfold Machine.step
    cases hop : i.op with
    | mark => exact h.moved hnext
    | jump => exact h.moved rfl
    | jumpIf | jumpUnless =>
      refine .bind_eq (h.decide_eq hi) fun b => h.moved ?_
      rw [hnext]
    | _ => simp [hop, Opcode.isJump] at hplain

end Instructions

/-! ## Runs -/

/-- Runs from machines that differ only in variables that the code does not name end alike. -/
lemma Alike.runFrom {code xs m m'} (h : m.Alike xs m') (hcode : globalNames code ⊆ xs)
    (index : LabelIndex) (record : Bool) (fuel steps : Nat) (trace : List Nat) :
    (runFrom code.toArray index record fuel m steps trace).Alike xs
      (runFrom code.toArray index record fuel m' steps trace) := by
  induction fuel generalizing m m' steps trace with
  | zero =>
    rw [ThreeAddress.runFrom, ThreeAddress.runFrom, h.next]
    split
    · exact .stopped h.globals
    · exact .finished h.globals
  | succ fuel ih =>
    rw [ThreeAddress.runFrom, ThreeAddress.runFrom, List.getElem?_toArray,
      List.getElem?_toArray, h.next]
    cases hi : code[m'.next]? with
    | none => exact .finished h.globals
    | some i =>
      have hstep := h.step index fun x hx => hcode ⟨i, List.mem_of_getElem? hi, hx⟩
      simp only
      generalize m.step index i = e, m'.step index i = e' at hstep ⊢
      cases hstep with
      | error fault => exact .failed _ i fault
      | ok h' => exact ih h' _ _

/-- A variable that is no result keeps its value wherever the machine comes. -/
lemma Visits.getElem?_eq {code start m} (h : Visits code start m) {x}
    (hx : ∀ i ∈ code, i.result ≠ some (.global x)) :
    m.globals[x]? = start[x]? := by
  obtain ⟨index, k, -, hpath⟩ := h
  refine hpath.invariant (P := fun m => m.globals[x]? = start[x]?)
    (fun {m m1 i} hi hstep hm => ?_) rfl
  rcases step_cases hstep with ⟨-, rfl⟩ | ⟨-, rfl⟩ | ⟨_, -, -, rfl⟩ | ⟨_, -, -, rfl⟩ |
    ⟨-, -, _, w, m2, -, -, hwrite, rfl⟩
  · exact hm
  · exact hm
  · exact hm
  · exact hm
  · rcases write_cases hwrite with ⟨y, hy, rfl⟩ | ⟨_, _, -, rfl⟩
    · have hne : y ≠ x := fun heq => hx i (List.mem_of_getElem? hi) (heq ▸ hy)
      simpa [Std.TreeMap.getElem?_insert, hne] using hm
    · exact hm

end Machine

open Machine in
/-- A run depends only on the variables that its code names, and changes only those that are
results. From values that agree on the variables that the code names, where a missing value counts
as 0, two runs end in the same way, with the same error, after as many steps and with the same
record, and leave values that agree on these variables. A variable that is no result of an
instruction has its first value, or none, in every state of a run and at its end. -/
theorem run_depends_on_named_variables (code : List Instr) :
    (∀ start start' limit record, Set.EqOn (storeOf start) (storeOf start') (globalNames code) →
      (run code start limit record).Alike (globalNames code) (run code start' limit record) ∧
      (run code start limit record).complaint? = (run code start' limit record).complaint?) ∧
    ∀ start x, (∀ i ∈ code, i.result ≠ some (.global x)) →
      (∀ m, Visits code start m → m.globals[x]? = start[x]?) ∧
      ∀ limit record r, run code start limit record = .finished r ∨
      run code start limit record = .stopped r →
        r.globals[x]? = start[x]? := by
  refine ⟨fun start start' limit record h => ?_, fun start x hx =>
    ⟨fun m hm => hm.getElem?_eq hx, ?_⟩⟩
  · have halike : (run code start limit record).Alike (globalNames code)
        (run code start' limit record) := by
      unfold run
      cases labelIndex code with
      | error fault => exact .rejected fault
      | ok index =>
        cases checkLabels code with
        | error fault => exact .rejected fault
        | ok _ =>
          have hstart : Machine.Alike (globalNames code) { globals := start }
              { globals := start' } := ⟨rfl, rfl, h⟩
          exact hstart.runFrom subset_rfl _ _ _ _ _
    exact ⟨halike, halike.complaint?_eq⟩
  · intro limit record r hr
    cases hindex : labelIndex code with
    | error fault => simp [run, hindex] at hr
    | ok index =>
      obtain ⟨trail, m, htrail, rfl⟩ := run_trail hindex hr
      exact Visits.getElem?_eq ⟨index, trail.length, hindex, htrail.path⟩ hx

/-- A variable becomes the quotient of 6 and another. -/
def quotientOfSix : List Instr := [.binary .div (.global "q") (.const 6) (.global "d")]

/-- The value of the divisor, and one of a variable that the code does not name. -/
def divisorValues (d : Int64) : Bindings := .ofList [("d", d), ("z", 5)]

/-- Without a value of the divisor and with the value 0 the same division fails, whatever `z` is;
and a run that finishes leaves `z` as it is. -/
theorem quotientOfSix_depends :
    (run quotientOfSix {} 10 true).Alike (globalNames quotientOfSix)
    (run quotientOfSix (divisorValues 0) 10 true) ∧
    (run quotientOfSix {} 10 true).complaint? = some "instruction 0 (q = 6 / d): division by zero" ∧
    ∃ r, run quotientOfSix (divisorValues 2) 10 true = .finished r ∧ r.globals["q"]? = some 3 ∧
      r.globals["z"]? = (divisorValues 2)["z"]? := by
  have hrun : run quotientOfSix (divisorValues 2) 10 true =
      .finished ⟨(divisorValues 2).insert "q" 3, 1, [0]⟩ := rfl
  have hz : ∀ i ∈ quotientOfSix, i.result ≠ some (.global "z") := by decide
  obtain ⟨halike, hkept⟩ := run_depends_on_named_variables quotientOfSix
  refine ⟨(halike _ _ 10 true ?_).1, by
    decide +kernel, _, hrun, rfl, (hkept _ "z" hz).2 10 true _ (.inl hrun)⟩
  rintro x ⟨i, hi, hx⟩
  rw [quotientOfSix, List.mem_singleton] at hi
  subst hi
  have hname : x = "q" ∨ x = "d" := by simpa [Instr.Mentions, Instr.binary, eq_comm] using hx
  rcases hname with rfl | rfl
  · rfl
  · rfl

end ThreeAddress
