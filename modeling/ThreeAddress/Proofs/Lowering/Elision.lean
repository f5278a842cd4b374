import ThreeAddress.Proofs.Lowering.Correctness
import ThreeAddress.Proofs.Names.Equivariance

/-!
# Eliding copies of a variable to itself

A program is lowered twice, with such copies elided and with them kept. The two runs of lowering are
compared step by step (`Comparison.elision`): they stop alike, mint the same names, and the first
listing is the second one without the copies.

That the two listings behave alike when they are run is no matter of comparing the listings, in
which the places of all jumps differ. Both are code of one tree, and what either does is what the
tree means (`runsAlike_of_statementCode`).
-/

namespace ThreeAddress

open List Lowering

/-! ## Copies of a variable to itself -/

/-- Whether an instruction copies a variable to itself. -/
def Instr.isSelfCopy (i : Instr) : Bool :=
  match i.result with
  | some (.global x) => i = .copy (.global x) (.global x)
  | _ => false

/-- The copies of variables to themselves. -/
lemma Instr.isSelfCopy_iff {i : Instr} : i.isSelfCopy = true ↔
    ∃ x, i = .copy (.global x) (.global x) := by
  unfold Instr.isSelfCopy
  constructor
  · intro h
    split at h
    · exact ⟨_, of_decide_eq_true h⟩
    · cases h
  · rintro ⟨x, rfl⟩
    exact decide_eq_true rfl

/-- Code without its copies of variables to themselves. -/
def withoutSelfCopies (code : List Instr) : List Instr := code.filter fun i => !i.isSelfCopy

/-- An instruction stays what it is, a copy of a variable to itself or not, when names are minted
later. -/
lemma Instr.isSelfCopy_shift (n : Names) (i : Instr) : (i.shift n).isSelfCopy = true →
    i.isSelfCopy = true := by
  rw [Instr.isSelfCopy_iff, Instr.isSelfCopy_iff]
  rintro ⟨x, hx⟩
  obtain ⟨op, result, args, test, target⟩ := i
  simp only [Instr.shift, Instr.copy, Instr.mk.injEq, Option.map_eq_some_iff,
    Option.map_eq_none_iff, map_eq_singleton_iff, Operand.shift_eq_global] at hx
  obtain ⟨rfl, ⟨_, rfl, rfl⟩, ⟨_, rfl, _, rfl, rfl⟩, rfl, rfl⟩ := hx
  exact ⟨x, rfl⟩

/-! ## Two runs of lowering -/

/-- Two runs of which the first elides copies of variables to themselves and the second keeps them.
-/
def Comparison.elision (settings : Settings) :
    Comparison (settings.setFeature .elideSelfCopies true)
    (settings.setFeature .elideSelfCopies false) where
  ahead := {}
  Cited _ := True
  gaps := True
  Code c c' := c.map (Instr.shift {}) = withoutSelfCopies c'
  code_nil := rfl
  code_append hc hd := by rw [map_append, hc, hd]; exact (filter_append ..).symm
  code_emit {i} hi := by
    have hshift : (i.shift {}).isSelfCopy = false := by
      rw [Bool.eq_false_iff]
      intro h
      obtain ⟨x, rfl⟩ := Instr.isSelfCopy_iff.mp (Instr.isSelfCopy_shift _ _ h)
      exact hi x rfl
    rw [withoutSelfCopies, filter_cons_of_pos (by rw [hshift]; rfl), filter_nil]
    rfl
  code_selfCopy x := by
    have hself : (Instr.copy (.global x) (.global x)).isSelfCopy = true :=
      Instr.isSelfCopy_iff.mpr ⟨x, rfl⟩
    simp [selfCopy, Settings.setFeature, withoutSelfCopies, hself]

section Within

variable {b n : Names}

lemma Label.Within.shift_zero {l : Label} (hl : l.Within b n) : l.shift {} = l := by
  obtain ⟨k, -, -, rfl⟩ := hl
  rfl

lemma Operand.Within.shift_zero {v : Operand} (hv : v.Within b n) : v.shift {} = v := by
  cases hv <;> rfl

/-- An instruction with minted names is its own shift if no more names are minted. -/
lemma Instr.Within.shift_zero {i : Instr} (hi : i.Within b n) : i.shift {} = i := by
  cases hi with
  | copy hdst hsrc | neg hdst hsrc =>
    simp [Instr.shift, Instr.copy, Instr.neg, hdst.shift_zero, hsrc.shift_zero]
  | binary _ hdst hleft hright =>
    simp [Instr.shift, Instr.binary, hdst.shift_zero, hleft.shift_zero, hright.shift_zero]
  | jumpIf hleft hright hl | jumpUnless hleft hright hl =>
    simp [Instr.shift, Instr.jumpIf, Instr.jumpUnless, Test.shift, hleft.shift_zero,
      hright.shift_zero, hl.shift_zero]
  | jump hl | mark hl => simp [Instr.shift, Instr.jump, Instr.mark, hl.shift_zero]

end Within

/-- Whether copies of variables to themselves are elided changes the code of a tree by these copies,
and nothing else that lowering comes to. -/
lemma lower_elision (settings : Settings) (root : Tree) (s : LowerState) :
    let on := lower (settings.setFeature .elideSelfCopies true) root s
    let off := lower (settings.setFeature .elideSelfCopies false) root s
    off.outcome = on.outcome ∧ off.notes = on.notes ∧ off.state = on.state ∧
      on.code = withoutSelfCopies off.code := by
  intro on off
  by_cases hroot : ∀ token value ops children, root ≠ .node .program token value ops children
  · simp only [on, off, lower_of_ne_program hroot, true_and]
    rfl
  · push Not at hroot
    obtain ⟨token, value, ops, children, rfl⟩ := hroot
    have hresults : (Comparison.elision settings).Results (fun _ _ => True) () on off :=
      Comparison.results_lower (C := .elision settings) (Tree.admitted_all _) rfl rfl
    obtain ⟨houtcomes, hcode, hnotes, -, -, hsymbols, -, htemps, hlabels⟩ := hresults
    have hwithin := (lower_within (settings.setFeature .elideSelfCopies true)
      (.node .program token value ops children) s).2
    have hsame : on.code.map (Instr.shift {}) = on.code :=
      (map_congr_left fun i hi => (hwithin i hi).shift_zero).trans (map_id _)
    exact ⟨houtcomes.eq, hnotes, LoweringState.ext (Names.ext htemps hlabels) hsymbols rfl,
      hsame.symm.trans hcode⟩

/-! ## Two runs of the machine -/

/-- Two listings have the same outcome from the same values of the variables: at all large enough
step limits both finish, with the same value of every variable; or at all large enough step limits
both divide by zero; or both are stopped at every step limit. -/
inductive RunsAlike (code code' : List Instr) (start : Bindings) (record : Bool) : Prop
  | finished (least : Int) (h : ∀ limit, least ≤ limit →
      ∃ r r', run code start limit record = .finished r ∧
      run code' start limit record = .finished r' ∧ ∀ x : String, r.globals[x]?.getD 0 =
      r'.globals[x]?.getD 0)
  | divisionByZero (least : Int) (h : ∀ limit, least ≤ limit → ∃ i instr i' instr',
      run code start limit record = .failed i instr .divisionByZero ∧
      run code' start limit record = .failed i' instr' .divisionByZero)
  | stopped (h : ∀ limit, ∃ r r', run code start limit record = .stopped r ∧
      run code' start limit record = .stopped r')

/-- The default step limit stands in for one that is not positive. -/
lemma exists_limit_pos (limit : Int) :
    ∃ limit' > 0, ∀ (code : List Instr) (start : Bindings) (record : Bool),
    run code start limit record = run code start limit' record := by
  by_cases hlimit : limit ≤ 0
  · refine ⟨defaultStepLimit, by decide, fun code start record => ?_⟩
    simp only [run, if_pos hlimit]
    rfl
  · exact ⟨limit, by omega, fun _ _ _ => rfl⟩

/-- Two listings that are code of one tree have the same outcome. -/
lemma runsAlike_of_statementCode {settings settings' Γ t n n1 n' n1' code code'}
    (hcheck : checkLabels code = .ok ()) (hcheck' : checkLabels code' = .ok ())
    (hcode : StatementCode settings Γ t n code n1)
    (hcode' : StatementCode settings' Γ t n' code' n1') (start : Bindings) (record : Bool) :
    RunsAlike code code' start record := by
  obtain ⟨index, hindex⟩ := labelIndex_of_checkLabels hcheck
  obtain ⟨index', hindex'⟩ := labelIndex_of_checkLabels hcheck'
  by_cases hends : ∃ r, Exec Γ t (storeOf start) r
  · obtain ⟨r, hr⟩ := hends
    cases r with
    | done σ =>
      have hruns : ∃ least : Int, ∀ limit, least ≤ limit →
          ∃ r, run code start limit record = .finished r ∧ storeOf r.globals = σ :=
        run_of_done hindex hcheck hcode hr
      have hruns' : ∃ least : Int, ∀ limit, least ≤ limit →
          ∃ r, run code' start limit record = .finished r ∧ storeOf r.globals = σ :=
        run_of_done hindex' hcheck' hcode' hr
      obtain ⟨least, hruns⟩ := hruns
      obtain ⟨least', hruns'⟩ := hruns'
      refine .finished (max least least') fun limit hlimit => ?_
      obtain ⟨hleast, hleast'⟩ := Int.max_le.mp hlimit
      obtain ⟨r, hrun, hstore⟩ := hruns limit hleast
      obtain ⟨r', hrun', hstore'⟩ := hruns' limit hleast'
      exact ⟨r, r', hrun, hrun', congrFun (hstore.trans hstore'.symm)⟩
    | divisionByZero =>
      have hruns : ∃ least : Int, ∀ limit, least ≤ limit →
          ∃ i instr, run code start limit record = .failed i instr .divisionByZero :=
        run_of_divisionByZero hindex hcheck hcode hr
      have hruns' : ∃ least : Int, ∀ limit, least ≤ limit →
          ∃ i instr, run code' start limit record = .failed i instr .divisionByZero :=
        run_of_divisionByZero hindex' hcheck' hcode' hr
      obtain ⟨least, hruns⟩ := hruns
      obtain ⟨least', hruns'⟩ := hruns'
      refine .divisionByZero (max least least') fun limit hlimit => ?_
      obtain ⟨hleast, hleast'⟩ := Int.max_le.mp hlimit
      obtain ⟨i, instr, hrun⟩ := hruns limit hleast
      obtain ⟨i', instr', hrun'⟩ := hruns' limit hleast'
      exact ⟨i, instr, i', instr', hrun, hrun'⟩
  · have hnever : ∀ r, ¬ Exec Γ t (storeOf start) r := fun r hr => hends ⟨r, hr⟩
    refine .stopped fun limit => ?_
    obtain ⟨l, hl, hlimit⟩ := exists_limit_pos limit
    have hrun : ∃ r, run code start l record = .stopped r :=
      run_of_never hindex hcheck hcode hnever hl
    have hrun' : ∃ r, run code' start l record = .stopped r :=
      run_of_never hindex' hcheck' hcode' hnever hl
    obtain ⟨r, hrun⟩ := hrun
    obtain ⟨r', hrun'⟩ := hrun'
    exact ⟨r, r', (hlimit ..).trans hrun, (hlimit ..).trans hrun'⟩

/-! ## Programs -/

/-- The program that is generated when lowering succeeds: its labels pass the check, so that it does
not matter whether they are checked. -/
lemma generate_eq_of_ok {settings s root} (h : (lower settings root s).outcome = .ok ()) :
    (generate settings s root).outcome = .ok
      { globals := (lower settings root s).state.symbols.order.map fun x => (x.name, x.type)
        code := (lower settings root s).code
        temps := (lower settings root s).state.names.temps
        labels := (lower settings root s).state.names.labels } := by
  simp only [generate, h, lower_checkLabels h, ite_self]

/-- Eliding copies of variables to themselves preserves meaning. Of any tree, from any state, the
two ways to generate a program make the same notes and leave the same state; they fail with the same
error, or give programs with the same variables and the same numbers of names, of which the first
has the code of the second without these copies, and the two have the same outcome from all values
of the variables. -/
theorem elision_preserves_meaning (settings : Settings) (state : LowerState) (root : Tree) :
    let on := generate (settings.setFeature .elideSelfCopies true) state root
    let off := generate (settings.setFeature .elideSelfCopies false) state root
    on.notes = off.notes ∧ on.state = off.state ∧
      ((∃ e, on.outcome = .error e ∧ off.outcome = .error e) ∨
        ∃ p q, on.outcome = .ok p ∧ off.outcome = .ok q ∧
          p.globals = q.globals ∧ p.temps = q.temps ∧ p.labels = q.labels ∧
          p.code = withoutSelfCopies q.code ∧
          ∀ start record, RunsAlike p.code q.code start record) := by
  intro on off
  obtain ⟨houtcome, hnotes, hstate, hcode⟩ := lower_elision settings root state
  refine ⟨hnotes.symm, hstate.symm, ?_⟩
  cases hon : (lower (settings.setFeature .elideSelfCopies true) root state).outcome with
  | error stop =>
    exact .inl ⟨_, generate_of_error hon, generate_of_error (houtcome.trans hon)⟩
  | ok u =>
    have hoff := houtcome.trans hon
    refine .inr ⟨_, _, generate_eq_of_ok hon, generate_eq_of_ok hoff, ?_, ?_, ?_, hcode,
      fun start record => ?_⟩
    · rw [hstate]
    · rw [hstate]
    · rw [hstate]
    · exact runsAlike_of_statementCode (lower_checkLabels hon) (lower_checkLabels hoff)
        (lower_follows (yields_of_outcome hon)).1
        (lower_follows (yields_of_outcome hoff)).1 start record

end ThreeAddress
