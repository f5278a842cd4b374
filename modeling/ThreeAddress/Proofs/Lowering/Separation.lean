import ThreeAddress.Proofs.Lowering.Lanes
import ThreeAddress.Proofs.Lowering.Simulation
import ThreeAddress.Proofs.Names.Session

/-!
# Truth values in generated programs

What the types of emitted code come to, in terms of the program alone: `Program.Separates` says
which operands its instructions may have, given the declared types of its variables. Since a
variable for truth values is only ever given the constants 0 and 1, it holds one of them after every
step of a run, if it did so at the beginning, and in any case from its first assignment on.
-/

namespace ThreeAddress

open List Lowering Machine

variable {Γ : Scope} {Δ : Lanes} {i : Instr} {x : String}

/-! ## Operands of typed instructions -/

section Operands

variable {v : Operand}

/-- An argument of a typed instruction is a number. -/
lemma Instr.Typed.args (h : i.Typed Γ Δ) (hv : some v ∈ i.args) : v.Numeric Γ Δ := by
  cases h with
  | number _ hsrc | neg _ hsrc =>
    cases mem_singleton.mp hv
    exact hsrc
  | truth b _ =>
    cases mem_singleton.mp hv
    exact .const _
  | binary _ _ hleft hright =>
    rcases mem_pair.mp hv with hv | hv
    · exact Option.some.inj hv ▸ hleft
    · exact Option.some.inj hv ▸ hright
  | jumpIf _ | jumpUnless _ | jump _ | mark _ => cases hv

/-- A typed instruction that has a test has no arguments, and its test is typed. -/
lemma Instr.Typed.test {t} (h : i.Typed Γ Δ) (ht : i.test = some t) :
    i.args = [] ∧ t.Typed Γ Δ := by
  cases h with
  | jumpIf htest | jumpUnless htest => exact ⟨rfl, Option.some.inj ht ▸ htest⟩
  | number _ _ | truth _ _ | neg _ _ | binary _ _ _ _ | jump _ | mark _ => cases ht

/-- A typed instruction has all its arguments. -/
lemma Instr.Typed.args_present (h : i.Typed Γ Δ) : none ∉ i.args := by
  cases h with
  | number | truth | neg | binary | jumpIf | jumpUnless | jump | mark =>
    simp [Instr.copy, Instr.neg, Instr.binary, Instr.jumpIf, Instr.jumpUnless,
      Instr.jump, Instr.mark]

lemma Test.Typed.present {t : Test} (h : t.Typed Γ Δ) : t.left ≠ none ∧ t.right ≠ none := by
  cases h with
  | numbers | flag | truths => exact ⟨nofun, nofun⟩

/-- The result of a typed instruction is held. -/
lemma Instr.Typed.result (h : i.Typed Γ Δ) (hv : i.result = some v) : ∃ type, v.Holds Γ Δ type := by
  cases h with
  | number hdst _ => exact ⟨.num, Option.some.inj hv ▸ hdst⟩
  | truth _ hdst => exact ⟨.bool, Option.some.inj hv ▸ hdst⟩
  | neg hk _ | binary _ hk _ _ => exact ⟨.num, Option.some.inj hv ▸ .temp hk⟩
  | jumpIf _ | jumpUnless _ | jump _ | mark _ => cases hv

/-- What a typed instruction reads is a number, or it is read in a test as a truth value. -/
lemma Instr.Typed.reads (h : i.Typed Γ Δ) (hv : i.Reads v) : v.Numeric Γ Δ ∨ i.args = [] ∧
    ((∃ k, v = tempOf k ∧ Δ k = some .bool) ∨
      ∃ x, v = .global x ∧ Γ x = some .bool ∧
      i.test = some ⟨.eq, some (.global x), some (.const 1)⟩) := by
  rcases hv with hv | ⟨t, ht, hv⟩
  · exact .inl (h.args hv)
  · obtain ⟨hargs, htyped⟩ := h.test ht
    cases htyped with
    | numbers _ hleft hright =>
      rcases hv with hv | hv
      · exact .inl (Option.some.inj hv ▸ hleft)
      · exact .inl (Option.some.inj hv ▸ hright)
    | flag hx =>
      rcases hv with hv | hv
      · exact .inr ⟨hargs, .inr ⟨_, (Option.some.inj hv).symm, hx, ht⟩⟩
      · exact .inl (Option.some.inj hv ▸ .const 1)
    | truths _ hj hk =>
      rcases hv with hv | hv
      · exact .inr ⟨hargs, .inl ⟨_, (Option.some.inj hv).symm, hj⟩⟩
      · exact .inr ⟨hargs, .inl ⟨_, (Option.some.inj hv).symm, hk⟩⟩

/-- A typed instruction that writes a variable for truth values copies 0 or 1. -/
lemma Instr.Typed.result_bool (h : i.Typed Γ Δ) (hx : Γ x = some .bool)
    (hres : i.result = some (.global x)) :
    i = .copy (.global x) (.const 0) ∨ i = .copy (.global x) (.const 1) := by
  cases h with
  | number hdst _ =>
    cases hres
    have hnum := (Operand.Numeric.held hdst).declared
    rw [hx] at hnum
    cases hnum
  | truth b _ =>
    cases hres
    cases b with
    | false => exact .inl rfl
    | true => exact .inr rfl
  | neg | binary | jumpIf | jumpUnless | jump | mark => cases hres

lemma Operand.Holds.declared {type} (h : (Operand.global x).Holds Γ Δ type) : Γ x = some type := by
  cases h with
  | global hx => exact hx

/-- A typed instruction mentions declared variables only. -/
lemma Instr.Typed.declared (h : i.Typed Γ Δ) (hx : i.Mentions (.global x)) :
    ∃ type, Γ x = some type := by
  rcases hx with hx | hx
  · obtain ⟨type, hholds⟩ := h.result hx
    exact ⟨type, hholds.declared⟩
  · rcases h.reads hx with hnum | ⟨-, ⟨k, hk, -⟩ | ⟨y, hy, hbool, -⟩⟩
    · exact ⟨.num, hnum.declared⟩
    · cases hk
    · cases hy
      exact ⟨.bool, hbool⟩

end Operands

/-! ## Variables for truth values at run time -/

section Truths

variable {index : LabelIndex} {m m₁ m₂ : Machine} {code : List Instr}

/-- A variable has a truth value, where 0 stands for one that is missing. -/
def HoldsTruth (globals : Bindings) (x : String) : Prop := storeOf globals x = 0 ∨
    storeOf globals x = 1

/-- An instruction changes no variable but its result. -/
lemma step_globals_of_ne (h : m.step index i = .ok m₁) (hres : i.result ≠ some (.global x)) :
    m₁.globals[x]? = m.globals[x]? := by
  rcases step_cases h with ⟨-, rfl⟩ | ⟨-, rfl⟩ | ⟨_, -, -, rfl⟩ | ⟨_, -, -, rfl⟩ |
    ⟨-, -, xs, w, m', -, -, hwrite, rfl⟩
  · rfl
  · rfl
  · rfl
  · rfl
  · rcases write_cases hwrite with ⟨y, hy, rfl⟩ | ⟨name, id, -, rfl⟩
    · have hne : y ≠ x := fun hxy => hres (hxy ▸ hy)
      rw [Std.TreeMap.getElem?_insert]
      simp [hne]
    · rfl

/-- A typed instruction that writes a variable for truth values leaves 0 or 1 in it. -/
lemma step_writes_truth (htyped : i.Typed Γ Δ) (hx : Γ x = some .bool) (h : m.step index i = .ok m₁)
    (hres : i.result = some (.global x)) : HoldsTruth m₁.globals x := by
  rcases htyped.result_bool hx hres with rfl | rfl
  · cases h
    exact .inl (by simp [storeOf])
  · cases h
    exact .inr (by simp [storeOf])

/-- A typed instruction leaves a truth value in a variable for truth values. -/
lemma step_keeps_truth (htyped : i.Typed Γ Δ) (hx : Γ x = some .bool) (h : m.step index i = .ok m₁)
    (hm : HoldsTruth m.globals x) : HoldsTruth m₁.globals x := by
  by_cases hres : i.result = some (.global x)
  · exact step_writes_truth htyped hx h hres
  · rwa [HoldsTruth, storeOf, step_globals_of_ne h hres]

/-- A run of typed code leaves a truth value in a variable for truth values. -/
lemma Machine.Reaches.keeps_truth (htyped : ∀ i ∈ code, i.Typed Γ Δ) (hx : Γ x = some .bool)
    (h : Reaches code index m m₁) (hm : HoldsTruth m.globals x) : HoldsTruth m₁.globals x := by
  obtain ⟨k, hpath⟩ := h
  refine hpath.invariant (P := fun m => HoldsTruth m.globals x) (fun hi hstep hm => ?_) hm
  exact step_keeps_truth (htyped _ (mem_of_getElem? hi)) hx hstep hm

end Truths

/-! ## Generated programs -/

/-- The program uses its variables according to their types. -/
structure Program.Separates (p : Program) : Prop where
  /-- Every variable that occurs is declared. -/
  declared : ∀ i ∈ p.code, ∀ x, i.Mentions (.global x) → ∃ type, (x, type) ∈ p.globals
  /-- A variable for truth values is given a constant 0 or 1. -/
  written : ∀ i ∈ p.code, ∀ x, p.globalType? x = some .bool → i.result = some (.global x) →
    i = .copy (.global x) (.const 0) ∨ i = .copy (.global x) (.const 1)
  /-- A variable for truth values is read on the left of a test against 1 only. -/
  tested : ∀ i ∈ p.code, ∀ x, p.globalType? x = some .bool → i.Reads (.global x) →
    i.args = [] ∧ i.test = some ⟨.eq, some (.global x), some (.const 1)⟩
  /-- No operand is missing. -/
  present : ∀ i ∈ p.code, none ∉ i.args ∧ ∀ t, i.test = some t → t.left ≠ none ∧ t.right ≠ none
  /-- All other operands are constants, temporaries and variables for numbers. -/
  operands : ∀ i ∈ p.code, ∀ v, i.Reads v → (∃ x, v = .global x ∧ p.globalType? x = some .bool) ∨
    (∃ w, v = .const w) ∨ (∃ name id, v = .temp name id) ∨ ∃ x, v = .global x ∧
    p.globalType? x = some .num
  /-- A temporary that gets both 1 and 0 is no argument of an operation. -/
  temporaries : ∀ name id, .copy (.temp name id) (.const 1) ∈ p.code →
    .copy (.temp name id) (.const 0) ∈ p.code → ∀ i ∈ p.code, some (.temp name id) ∉ i.args

section Programs

variable {settings : Settings} {state : LowerState} {root : Tree} {p : Program}

section

variable (h : (generate settings state root).outcome = .ok p)
include h

/-- The variables of a generated program are the symbols that lowering has collected. -/
lemma globals_of_generate :
    p.globals = (lower settings root state).state.symbols.order.map fun s => (s.name, s.type) := by
  have hlower := (lower_of_generate h).1
  simp only [generate, hlower, lower_checkLabels hlower] at h
  split at h <;> exact congrArg Program.globals (Except.ok.inj h).symm

/-- The types of the variables of a program are those that its tree declares. -/
lemma globalType?_of_generate (x : String) : p.globalType? x = root.scope x := by
  have hscope := (lower_follows (yields_of_outcome (lower_of_generate h).1)).2
  rw [← hscope, LoweringState.scope, Program.globalType?, globals_of_generate h]
  rw [SymbolTable.scope, SymbolTable.find_eq_find?]
  generalize (lower settings root state).state.symbols.order = symbols
  induction symbols with
  | nil => rfl
  | cons s rest ih =>
    rw [map_cons, lookup_cons, find?_cons, Bool.beq_comm]
    cases s.name == x with
    | true => rfl
    | false => exact ih

/-- The code of a generated program has lanes, for the types of its variables. -/
lemma laned_of_generate : ∃ Δ n n', Laned p.globalType? Δ n n' p.code := by
  have hscope : p.globalType? = root.scope := funext (globalType?_of_generate h)
  obtain ⟨hlower, hcode⟩ := lower_of_generate h
  obtain ⟨Δ, hlaned⟩ := (lower_follows (yields_of_outcome hlower)).1.hasLanes
  rw [hscope, hcode]
  exact ⟨Δ, _, _, hlaned⟩

end

/-- Code with lanes separates truth values and numbers. -/
lemma separates_of_laned {Δ n n'} (h : Laned p.globalType? Δ n n' p.code) : p.Separates where
  declared i hi x hx := by
    obtain ⟨type, hx⟩ := (h.typed i hi).declared hx
    obtain ⟨l1, l2, hglobals, -⟩ := lookup_eq_some_iff.mp hx
    exact ⟨type, by simp [hglobals]⟩
  written i hi x hx hres := (h.typed i hi).result_bool hx hres
  tested i hi x hx hreads := by
    rcases (h.typed i hi).reads hreads with hnum | ⟨hargs, ⟨k, hk, -⟩ | ⟨y, hy, -, htest⟩⟩
    · have hnum := hnum.declared
      rw [hx] at hnum
      cases hnum
    · cases hk
    · cases hy
      exact ⟨hargs, htest⟩
  present i hi := ⟨(h.typed i hi).args_present, fun t ht => ((h.typed i hi).test ht).2.present⟩
  operands i hi v hreads := by
    rcases (h.typed i hi).reads hreads with hnum | ⟨-, ⟨k, rfl, -⟩ | ⟨x, rfl, hx, -⟩⟩
    · cases hnum with
      | const w => exact .inr (.inl ⟨w, rfl⟩)
      | held hv =>
        cases hv with
        | global hx => exact .inr (.inr (.inr ⟨_, rfl, hx⟩))
        | temp hk => exact .inr (.inr (.inl ⟨_, _, rfl⟩))
    · exact .inr (.inr (.inl ⟨_, _, rfl⟩))
    · exact .inl ⟨x, rfl, hx⟩
  temporaries name id hone hzero i hi harg := by
    generalize hv : Operand.temp name id = v at harg
    cases (h.typed i hi).args harg with
    | const w => cases hv
    | held hholds =>
      cases hholds with
      | global hx => cases hv
      | temp hk =>
        rw [hv] at hone hzero
        exact h.single _ hk ⟨hone, hzero⟩

/-- A generated program keeps truth values and numbers apart. Only declared variables occur, a
variable for truth values is written with the constants 0 and 1 and read in tests against 1, all
other operands are constants, temporaries and variables for numbers, and no temporary that gets
truth values is an argument of an operation. So a run leaves truth values in the variables for truth
values if it finds them there; and after an assignment to such a variable it has a truth value in
any case. -/
theorem generated_separates_truths (settings : Settings) (state : LowerState) (root : Tree)
    (program : Program) (hgenerate : (generate settings state root).outcome = .ok program) :
    program.Separates ∧
    (∀ start, (∀ x, program.globalType? x = some .bool → HoldsTruth start x) →
      (∀ m, Visits program.code start m →
        ∀ x, program.globalType? x = some .bool → HoldsTruth m.globals x) ∧
      ∀ limit record r, run program.code start limit record = .finished r ∨
        run program.code start limit record = .stopped r →
        ∀ x, program.globalType? x = some .bool → HoldsTruth r.globals x) ∧
    ∀ start index m i m₁ m₂ x, program.globalType? x = some .bool →
    labelIndex program.code = .ok index →
      Reaches program.code index { globals := start } m → program.code[m.next]? = some i →
      i.result = some (.global x) → m.step index i = .ok m₁ → Reaches program.code index m₁ m₂ →
      HoldsTruth m₂.globals x := by
  obtain ⟨Δ, n, n', hlaned⟩ := laned_of_generate hgenerate
  have hcheck : checkLabels program.code = .ok () := by
    obtain ⟨hlower, hcode⟩ := lower_of_generate hgenerate
    rw [hcode]
    exact lower_checkLabels hlower
  refine ⟨separates_of_laned hlaned, fun start hstart => ⟨?_, ?_⟩, ?_⟩
  · rintro m ⟨index, k, -, hpath⟩ x hx
    exact Reaches.keeps_truth hlaned.typed hx ⟨k, hpath⟩ (hstart x hx)
  · intro limit record r hrun x hx
    obtain ⟨index, hindex⟩ := labelIndex_of_checkLabels hcheck
    obtain ⟨k, m, hpath, hend⟩ := run_follows hindex hcheck start limit record
    have hm := Reaches.keeps_truth hlaned.typed hx ⟨k, hpath⟩ (hstart x hx)
    have hr : r.globals = m.globals := by
      rcases hend with ⟨-, r', hr', hglobals⟩ | ⟨-, r', hr', hglobals⟩ | ⟨i, fault, -, -, hfailed⟩
      · rw [hr'] at hrun
        simp only [RunOutcome.finished.injEq, reduceCtorEq, or_false] at hrun
        rw [← hrun, hglobals]
      · rw [hr'] at hrun
        simp only [RunOutcome.stopped.injEq, reduceCtorEq, false_or] at hrun
        rw [← hrun, hglobals]
      · simp [hfailed] at hrun
    rwa [hr]
  · intro start index m i m₁ m₂ x hx _ _ hi hresult hstep hrest
    have htyped := hlaned.typed i (List.mem_of_getElem? hi)
    exact hrest.keeps_truth hlaned.typed hx (step_writes_truth htyped hx hstep hresult)

/-- A program that finds out whether `x < 1` is true, remembers it in `b`, and adds 1 to `x` if so.
-/
def flaggedStep : Tree :=
  let x := Tree.leaf .identifier {} "x"
  let b := Tree.leaf .identifier {} "b"
  let one := Tree.leaf .intLiteral {} "1"
  let less := Tree.node .comparison {} "" [.less] [x, one]
  let comparison := Tree.node .comparison {} "" [.equal] [less, .leaf .boolLiteral {} "true"]
  let increment := Tree.branch .assignment {} [x, .node .sum {} "" [.plus] [x, one]]
  .branch .program {} [.node .declaration {} "num" [] [x], .node .declaration {} "bool" [] [b],
    .branch .assignment {} [b, comparison], .branch .conditional {} [b, increment]]

/-- Started from nothing, the program always has a truth value in `b`. -/
theorem flaggedStep_separates : ∃ program, (generate {} {} flaggedStep).outcome = .ok program ∧
    program.Separates ∧ program.globalType? "b" = some .bool ∧
    ∀ m, Visits program.code {} m → HoldsTruth m.globals "b" := by
  have hlower : (lower {} flaggedStep {}).outcome = .ok () := by decide +kernel
  obtain ⟨program, hgenerate, -⟩ := generate_of_ok hlower
  have hb : program.globalType? "b" = some .bool := by
    rw [globalType?_of_generate hgenerate]
    decide +kernel
  have hstart : ∀ x, HoldsTruth {} x := fun x => .inl (by simp [storeOf])
  have hgenerated := generated_separates_truths {} {} flaggedStep program
  obtain ⟨hseparates, hruns, -⟩ := hgenerated hgenerate
  exact ⟨program, hgenerate, hseparates, hb, fun m hm =>
    (hruns {} fun x _ => hstart x).1 m hm "b" hb⟩

end Programs

end ThreeAddress
