import Mathlib.Data.List.Chain
import ThreeAddress.Proofs.Code.Search

/-!
# Trails of the machine

What a run records is its trail (`run_trail`), and each executed instruction follows the flow of
control (`step_flows`). So what is recorded runs along the edges, from the first instruction on,
through places that the search for the reachable instructions marks.
-/

namespace ThreeAddress

namespace Machine

section Trails

variable {code : List Instr} {index : LabelIndex} {m m1 m' : Machine} {trail : List Nat} {i : Instr}

/-- A place of a trail is the place of an instruction at which the machine has come. -/
lemma Trail.visited (h : Trail code index trail m m') {p} (hp : p ∈ trail) :
    ∃ k m1, Path code index k m m1 ∧ m1.next = p ∧ p < code.length := by
  induction h with
  | nil => cases hp
  | @cons trail m m1 m' i hi hstep _ ih =>
    rcases List.mem_cons.mp hp with rfl | hp
    · exact ⟨0, m, .refl, rfl, (List.getElem?_eq_some_iff.mp hi).1⟩
    · obtain ⟨k, m2, hpath, hnext, hlt⟩ := ih hp
      exact ⟨k + 1, m2, .step hi hstep hpath, hnext, hlt⟩

variable (hindex : labelIndex code = .ok index) (hcheck : checkLabels code = .ok ())
include hindex hcheck

/-- An executed instruction follows the flow of control, if labels have been checked. -/
lemma step_flows (hi : code[m.next]? = some i) (hstep : m.step index i = .ok m1) :
    Flows code m.next m1.next := by
  obtain ⟨index', hindex', hjumps⟩ := bind_eq_ok hcheck
  obtain rfl := Except.ok.inj (hindex.symm.trans hindex')
  obtain ⟨instr, js, hinstr, hjs, hmem⟩ :=
    step_edge hi hstep (checkJumpsFrom_eq_ok_iff.mp hjumps i (List.mem_of_getElem? hi))
  exact (mem_successors_iff hindex hinstr hjs).mp hmem

/-- A trail follows the flow of control from the place where it starts to the place where it ends.
-/
lemma Trail.isChain (h : Trail code index trail m m') :
    (trail ++ [m'.next]).IsChain (Flows code) ∧ (trail ++ [m'.next]).head? = some m.next := by
  induction h with
  | nil => exact ⟨.singleton _, rfl⟩
  | @cons trail m m1 m' i hi hstep _ ih =>
    obtain ⟨hchain, hhead⟩ := ih
    refine ⟨?_, rfl⟩
    rw [List.cons_append, List.isChain_cons]
    refine ⟨fun j hj => ?_, hchain⟩
    rw [hhead] at hj
    obtain rfl := Option.some.inj hj
    exact step_flows hindex hcheck hi hstep

/-- Control can come to a place that the machine comes to. -/
lemma Path.accessible {k} (h : Path code index k m m') (hstart : Accessible code m.next) :
    Accessible code m'.next :=
  h.invariant (P := fun m => Accessible code m.next)
    (fun hi hstep hm => hm.step (step_flows hindex hcheck hi hstep)) hstart

end Trails

/-! ## Recorded places -/

/-- The machine comes to the places that a run has recorded. -/
lemma run_visited {code index} (hindex : labelIndex code = .ok index) {start limit record r}
    (h : run code start limit record = .finished r ∨ run code start limit record = .stopped r) {p}
    (hp : p ∈ r.trace) :
    ∃ k m, Path code index k { globals := start } m ∧ m.next = p := by
  obtain ⟨trail, m', htrail, rfl⟩ := run_trail hindex h
  cases record with
  | false => cases hp
  | true =>
    obtain ⟨k, m, hpath, hnext, -⟩ := htrail.visited hp
    exact ⟨k, m, hpath, hnext⟩

end Machine

/-- What a run of code whose labels have been checked records starts at the first instruction,
follows the flow of control, and passes through accessible places only. -/
lemma run_trace_flows {code} (hcheck : checkLabels code = .ok ()) {start limit record r}
    (h : run code start limit record = .finished r ∨ run code start limit record = .stopped r) :
    (r.trace ≠ [] → r.trace.head? = some 0) ∧ r.trace.IsChain (Flows code) ∧
      (∀ i ∈ r.trace, i < code.length ∧ Accessible code i) ∧
      (record = true → r.trace.length = r.steps) := by
  obtain ⟨index, hindex⟩ := labelIndex_of_checkLabels hcheck
  obtain ⟨trail, m', htrail, rfl⟩ := Machine.run_trail hindex h
  obtain ⟨hchain, hhead⟩ := htrail.isChain hindex hcheck
  cases record with
  | false => simp [Machine.resultOf]
  | true =>
    refine ⟨fun hne => ?_, hchain.left_of_append, fun i hi => ?_, fun _ => rfl⟩
    · rwa [List.head?_append_of_ne_nil trail hne] at hhead
    · obtain ⟨k, m1, hpath, rfl, hlt⟩ := htrail.visited hi
      exact ⟨hlt, hpath.accessible hindex hcheck .refl⟩

/-- The search for the reachable instructions is exact. It refuses code that marks a name twice, and
otherwise comes to an end, also without a bound on its turns: at a jump to a label that is not
marked if control can come to one, and else with marks for just the places that control can come to.
What a run records starts at the first instruction and goes along the edges through marked places.
-/
theorem reachable_exact_for_runs (code : List Instr) :
    ((∀ instr ∈ code, instr.op = .mark ∨ instr.op.isJump = true → ∃ l, instr.target = some l) →
      ((∃ name i, reachable code = .error (.duplicateLabel name i)) ↔ MarkedTwice code) ∧
      ((∃ name, reachable code = .error (.unmarkedLabel name)) ↔
        ¬ MarkedTwice code ∧ ∃ i, Accessible code i ∧ Dangling code i) ∧
      (¬ MarkedTwice code → ∃ index result, labelIndex code = .ok index ∧
        Search code index [0] (Array.replicate code.length false) result ∧
        reachable code = result.map Array.toList) ∧
      (¬ MarkedTwice code → (∀ i, Accessible code i → ¬ Dangling code i) →
        ∃ seen, reachable code = .ok seen ∧ seen.length = code.length ∧
          ∀ i : Nat, seen[i]? = some true ↔ i < code.length ∧ Accessible code i)) ∧
    (checkLabels code = .ok () → ∃ seen, reachable code = .ok seen ∧
      ∀ start limit record r,
        run code start limit record = .finished r ∨ run code start limit record = .stopped r →
        (r.trace ≠ [] → r.trace.head? = some 0) ∧ r.trace.IsChain (Flows code) ∧
          (∀ i ∈ r.trace, seen[i]? = some true) ∧ (record = true → r.trace.length = r.steps)) := by
  refine ⟨fun htarget => ?_, fun hcheck => ?_⟩
  · have hmarks : ∀ instr ∈ code, instr.op = .mark → ∃ l, instr.target = some l :=
      fun instr hinstr hop => htarget instr hinstr (.inl hop)
    have hjumps : ∀ instr ∈ code, instr.op.isJump = true → ∃ l, instr.target = some l :=
      fun instr hinstr hop => htarget instr hinstr (.inr hop)
    rcases labelIndex_cases hmarks with ⟨index, hindex, honce⟩ | ⟨name, i, hindex, htwice⟩
    · rcases reachable_of_labelIndex hindex hjumps with
        ⟨seen, hsearch, hreachable, hexplored⟩ | ⟨name, i, hsearch, hreachable,
          haccessible, hdangling⟩
      · have hnone : ∀ i, Accessible code i → ¬ Dangling code i := by
          rintro i haccessible ⟨instr, l, hi, hdangling⟩
          have hlt := (List.getElem?_eq_some_iff.mp hi).1
          exact (hexplored.marked i ((hexplored.seen_iff i).mpr ⟨hlt, haccessible⟩)).2
            ⟨instr, l, hi, hdangling⟩
        rw [hreachable]
        refine ⟨⟨?_, fun htwice => absurd htwice honce⟩, ⟨?_, ?_⟩, fun _ => ?_, fun _ _ => ?_⟩
        · rintro ⟨_, _, h⟩
          cases h
        · rintro ⟨_, h⟩
          cases h
        · rintro ⟨-, i, haccessible, hdangling⟩
          exact absurd hdangling (hnone i haccessible)
        · exact ⟨index, .ok seen, hindex, hsearch, rfl⟩
        · refine ⟨seen.toList, rfl, ?_, fun i => ?_⟩
          · rw [Array.length_toList, hexplored.size]
          · rw [Array.getElem?_toList]
            exact hexplored.seen_iff i
      · rw [hreachable]
        refine ⟨⟨?_, fun htwice => absurd htwice honce⟩,
          ⟨fun _ => ⟨honce, i, haccessible, hdangling⟩, fun _ => ?_⟩,
          fun _ => ?_, fun _ hnone => absurd hdangling (hnone i haccessible)⟩
        · rintro ⟨_, _, h⟩
          cases h
        · exact ⟨name, rfl⟩
        · exact ⟨index, .error (.unmarkedLabel name), hindex, hsearch, rfl⟩
    · have hreachable : reachable code = .error (.duplicateLabel name i) := by
        rw [reachable, hindex]
        rfl
      rw [hreachable]
      refine ⟨⟨fun _ => htwice, fun _ => ⟨name, i, rfl⟩⟩, ⟨?_, fun h => absurd htwice h.1⟩,
        fun honce => absurd htwice honce, fun honce => absurd htwice honce⟩
      rintro ⟨_, h⟩
      cases h
  · obtain ⟨seen, hreachable, -, hseen⟩ := reachable_iff_accessible hcheck
    refine ⟨seen, hreachable, fun start limit record r hrun => ?_⟩
    obtain ⟨hhead, hchain, hplaces, hsteps⟩ := run_trace_flows hcheck hrun
    exact ⟨hhead, hchain, fun i hi => (hseen i).mpr (hplaces i hi), hsteps⟩

/-- A variable is set behind a jump that is always taken. -/
def skippedCopy : List Instr :=
  [.jumpUnless .lt (.global "x") (.const 1) ⟨"_L0", 0⟩, .jump ⟨"_L1", 1⟩,
    .copy (.global "x") (.const 2), .mark ⟨"_L0", 0⟩, .mark ⟨"_L1", 1⟩]

/-- The labels of `skippedCopy` are marked once, control can come to every instruction but the copy,
and a run passes through two of them on its way to the last. -/
theorem skippedCopy_reachable_exact :
    (∀ instr ∈ skippedCopy, instr.op = .mark ∨ instr.op.isJump = true →
      ∃ l, instr.target = some l) ∧
    checkLabels skippedCopy = .ok () ∧ ¬ MarkedTwice skippedCopy ∧
    (∀ i, Accessible skippedCopy i → ¬ Dangling skippedCopy i) ∧ ¬ Accessible skippedCopy 2 ∧
    ∃ r, run skippedCopy {} 0 true = .finished r ∧ r.trace = [0, 1, 4] ∧
    r.trace.IsChain (Flows skippedCopy) := by
  have htarget : ∀ instr ∈ skippedCopy, instr.op = .mark ∨ instr.op.isJump = true →
      ∃ l, instr.target = some l := by
    simp [skippedCopy, Instr.jumpUnless, Instr.jump, Instr.copy, Instr.mark, Opcode.isJump]
  have hcheck : checkLabels skippedCopy = .ok () := by rfl
  have hreachable : reachable skippedCopy = .ok [true, true, false, true, true] := by rfl
  obtain ⟨hexact, hruns⟩ := reachable_exact_for_runs skippedCopy
  obtain ⟨htwice, hdangling, -, hseen⟩ := hexact htarget
  have honce : ¬ MarkedTwice skippedCopy := fun h => by
    obtain ⟨_, _, h⟩ := htwice.mpr h
    rw [hreachable] at h
    cases h
  have hnone : ∀ i, Accessible skippedCopy i → ¬ Dangling skippedCopy i := fun i hi h => by
    obtain ⟨_, h⟩ := hdangling.mpr ⟨honce, i, hi, h⟩
    rw [hreachable] at h
    cases h
  obtain ⟨seen, hok, -, hplaces⟩ := hseen honce hnone
  obtain rfl := Except.ok.inj (hreachable.symm.trans hok)
  obtain ⟨seen, -, hrun⟩ := hruns hcheck
  refine ⟨htarget, hcheck, honce, hnone, fun h => ?_, _, rfl, rfl,
    (hrun {} 0 true _ (.inl rfl)).2.1⟩
  exact absurd ((hplaces 2).mpr ⟨by decide, h⟩) (by decide)

end ThreeAddress
