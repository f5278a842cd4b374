import ThreeAddress.Proofs.Code.Flow
import ThreeAddress.Proofs.Code.Listing

/-!
# Step limits

An instruction that has the arguments and the test that its operation needs is executed or fails for
what it reads or writes, so that a run of such instructions finishes, fails or is stopped. A run
that is not stopped has come to its end within the limit and does the same with every larger one. A
run that is stopped has gone along the first part of the trail that it goes along with a larger
limit.
-/

namespace ThreeAddress

open List

/-- A computation that fails does so in its first part or in its second. -/
lemma bind_eq_error {ε α β : Type} {x : Except ε α} {f : α → Except ε β} {e : ε}
    (h : x >>= f = .error e) :
    x = .error e ∨ ∃ a, x = .ok a ∧ f a = .error e := by
  cases x with
  | error e' => exact .inl (congrArg _ (Except.error.inj h))
  | ok a => exact .inr ⟨a, rfl, h⟩

/-- An instruction has the arguments and the test that its operation needs to be executed. -/
structure Instr.Complete (i : Instr) : Prop where
  args : i.op.arity ≤ i.args.length
  test : i.op = .jumpIf ∨ i.op = .jumpUnless → ∃ t, i.test = some t

namespace Machine

section Complete

variable {index : LabelIndex} {m : Machine} {i : Instr}

lemma read_ne_incomplete (v : Option Operand) : m.read v ≠ .error .incomplete := by
  intro h
  unfold read at h
  split at h
  · cases h
  · cases h
  · split at h <;> cases h
  · cases h

/-- Reading several operands gives as many values, or fails for one of them. -/
lemma readAll_cases (vs : List (Option Operand)) :
    m.readAll vs ≠ .error .incomplete ∧ ∀ xs, m.readAll vs = .ok xs → xs.length = vs.length := by
  induction vs with
  | nil => exact ⟨nofun, fun xs h => by rw [← Except.ok.inj h]; rfl⟩
  | cons v vs ih =>
    constructor
    · intro h
      rcases bind_eq_error h with h | ⟨x, -, h⟩
      · exact m.read_ne_incomplete v h
      · rcases bind_eq_error h with h | ⟨xs, -, h⟩
        · exact ih.1 h
        · cases h
    · intro xs h
      obtain ⟨x, -, h⟩ := bind_eq_ok h
      obtain ⟨ys, hys, h⟩ := bind_eq_ok h
      rw [← Except.ok.inj h, length_cons, length_cons, ih.2 ys hys]

/-- An operation on enough values never needs a part that is missing. -/
lemma compute_ne_incomplete {op xs} (h : op.arity ≤ xs.length) :
    compute op xs ≠ .error .incomplete := by
  intro hcompute
  have htwo : 2 ≤ xs.length → ∃ x y ys, xs = x :: y :: ys := by
    intro hlen
    obtain ⟨x, ys, rfl⟩ := exists_cons_of_length_pos (Nat.lt_of_lt_of_le Nat.zero_lt_two hlen)
    obtain ⟨y, zs, rfl⟩ := exists_cons_of_length_pos (Nat.le_of_succ_le_succ hlen)
    exact ⟨x, y, zs, rfl⟩
  cases op with
  | copy | neg =>
    obtain ⟨x, xs, rfl⟩ := exists_cons_of_length_pos h
    cases hcompute
  | add | sub | mul =>
    obtain ⟨x, y, xs, rfl⟩ := htwo h
    cases hcompute
  | div | rem =>
    obtain ⟨x, y, xs, rfl⟩ := htwo h
    simp only [compute] at hcompute
    split at hcompute <;> cases hcompute
  | eq | ne | lt | gt | le | ge | jumpIf | jumpUnless | jump | mark | unknown n => cases hcompute

/-- Deciding a test that is there never needs a part that is missing. -/
lemma decide_ne_incomplete (t : Test) : m.decide (some t) ≠ .error .incomplete := by
  intro h
  rcases bind_eq_error h with h | ⟨x, -, h⟩
  · exact m.read_ne_incomplete _ h
  rcases bind_eq_error h with h | ⟨y, -, h⟩
  · exact m.read_ne_incomplete _ h
  · cases hop : t.op <;> rw [hop] at h <;> cases h

/-- Executing a complete instruction never needs a part that is missing. -/
lemma step_ne_incomplete (hi : i.Complete) : m.step index i ≠ .error .incomplete := by
  intro h
  by_cases hplain : i.op.isJump = false ∧ i.op ≠ .mark
  · obtain ⟨hjump, hmark⟩ := hplain
    have hread := m.readAll_cases i.args
    rw [step_plain hjump hmark] at h
    rcases bind_eq_error h with h | ⟨xs, hxs, h⟩
    · exact hread.1 h
    rcases bind_eq_error h with h | ⟨w, -, h⟩
    · have hlen : i.op.arity ≤ xs.length := by
        rw [hread.2 xs hxs]
        exact hi.args
      exact compute_ne_incomplete hlen h
    rcases bind_eq_error h with h | ⟨m', -, h⟩
    · unfold write at h
      split at h <;> cases h
    · cases h
  · -- Among the others only the conditional jumps look at a part that could be missing.
    have hbranch : ∀ f : Bool → Machine, i.op = .jumpIf ∨ i.op = .jumpUnless →
        (do let b ← m.decide i.test; return f b : Except RunFault Machine) ≠
        .error .incomplete := by
      intro f hop h
      obtain ⟨t, ht⟩ := hi.test hop
      rw [ht] at h
      rcases bind_eq_error h with h | ⟨b, -, h⟩
      · exact m.decide_ne_incomplete t h
      · cases h
    unfold step at h
    cases hop : i.op with
    | mark | jump =>
      rw [hop] at h
      cases h
    | jumpIf =>
      rw [hop] at h
      exact hbranch _ (.inl hop) h
    | jumpUnless =>
      rw [hop] at h
      exact hbranch _ (.inr hop) h
    | copy | add | sub | mul | div | rem | neg | eq | ne | lt | gt | le | ge | unknown n =>
      rw [hop] at hplain
      exact hplain ⟨rfl, nofun⟩

/-- Complete code whose labels have been checked is not rejected, and no instruction fails for a
part that is missing. -/
lemma run_of_complete {code} (hcode : ∀ i ∈ code, i.Complete) (hcheck : checkLabels code = .ok ())
    (start : Bindings) (limit : Int) (record : Bool) :
    (∀ fault, run code start limit record ≠ .rejected fault) ∧
      ∀ p i, run code start limit record ≠ .failed p i .incomplete := by
  obtain ⟨index, hindex⟩ := labelIndex_of_checkLabels hcheck
  obtain ⟨k, m, -, hend⟩ := run_follows hindex hcheck start limit record
  generalize run code start limit record = outcome at hend ⊢
  rcases hend with ⟨-, r, rfl, -⟩ | ⟨-, r, rfl, -⟩ | ⟨i, fault, hi, hfault, rfl⟩
  · exact ⟨fun _ h => RunOutcome.noConfusion h, fun _ _ h => RunOutcome.noConfusion h⟩
  · exact ⟨fun _ h => RunOutcome.noConfusion h, fun _ _ h => RunOutcome.noConfusion h⟩
  · refine ⟨fun _ h => RunOutcome.noConfusion h, fun p i' h => ?_⟩
    injection h with _ _ hincomplete
    rw [hincomplete] at hfault
    exact step_ne_incomplete (hcode i (mem_of_getElem? hi)) hfault

end Complete

/-! ## Larger limits -/

section Larger

variable {code : List Instr} {start : Bindings} {record : Bool} {limit limit' : Int}
  (hcheck : checkLabels code = .ok ()) (hpos : 0 < limit) (hle : limit ≤ limit')
include hcheck hpos hle

/-- A run that is not stopped ends in the same way with a larger limit, and within the smaller one.
-/
lemma run_of_not_stopped (h : ∀ r, run code start limit record ≠ .stopped r) :
    run code start limit' record = run code start limit record ∧
      ∀ r, run code start limit record = .finished r → r.steps ≤ limit := by
  obtain ⟨index, hindex⟩ := labelIndex_of_checkLabels hcheck
  have hmore : limit.toNat ≤ limit'.toNat := Int.toNat_le_toNat hle
  have hlimit' : 0 < limit' := hpos.trans_le hle
  rw [run_eq_runFrom hindex hcheck hlimit']
  obtain ⟨fuel, trail, m, hfuel, htrail, hend⟩ := run_cases hindex hcheck start limit record
  obtain rfl := hfuel hpos
  rcases hend with ⟨hlen, hend, hrun⟩ | ⟨i, -, -, hrun⟩ | ⟨i, fault, hlen, hi, hstep, hrun⟩
  · rw [hrun]
    refine ⟨runFrom_finished htrail hend (hlen.trans hmore), fun r hr => ?_⟩
    rw [← RunOutcome.finished.inj hr]
    exact (Int.ofNat_le.mpr hlen).trans_eq (Int.toNat_of_nonneg hpos.le)
  · exact absurd hrun (h _)
  · rw [hrun]
    exact ⟨runFrom_failed htrail hi hstep (hlen.trans_le hmore), nofun⟩

/-- A run that is stopped has gone along a trail as long as the limit, and a run with a larger limit
goes along this trail first. -/
lemma run_of_stopped {r} (h : run code start limit record = .stopped r) :
    ∃ index trail m, labelIndex code = .ok index ∧ Trail code index trail { globals := start } m ∧
      trail.length = limit ∧ r = resultOf record trail m ∧
      ∀ r', run code start limit' record = .finished r' ∨
      run code start limit' record = .stopped r' →
        r.trace <+: r'.trace := by
  obtain ⟨index, hindex⟩ := labelIndex_of_checkLabels hcheck
  obtain ⟨fuel, trail, m, hfuel, htrail, hend⟩ := run_cases hindex hcheck start limit record
  obtain rfl := hfuel hpos
  rcases hend with ⟨-, -, hrun⟩ | ⟨i, hlen, -, hrun⟩ | ⟨i, fault, -, -, -, hrun⟩
  · cases h.symm.trans hrun
  · cases h.symm.trans hrun
    have hlimit : (trail.length : Int) = limit := by rw [hlen, Int.toNat_of_nonneg hpos.le]
    refine ⟨index, trail, m, hindex, htrail, hlimit, rfl, fun r' hr' => ?_⟩
    -- With the larger limit the machine goes on from where it has been stopped.
    obtain ⟨rest, hrest⟩ := Nat.exists_eq_add_of_le (hlen ▸ Int.toNat_le_toNat hle)
    obtain ⟨trail', m', htrail', hend'⟩ := exists_trail code index rest m
    have hlonger : (resultOf record trail m).trace <+:
        (resultOf record (trail ++ trail') m').trace := by
      cases record with
      | true => exact ⟨trail', rfl⟩
      | false => exact prefix_rfl
    rw [run_eq_runFrom hindex hcheck (hpos.trans_le hle), hrest] at hr'
    have hall := htrail.append htrail'
    rcases hend' with ⟨hlen', hnone⟩ | ⟨i, rfl, hi⟩ | ⟨i, fault, hlen', hi, hstep⟩
    · rw [runFrom_finished hall hnone (by rw [length_append]; omega)] at hr'
      simp only [RunOutcome.finished.injEq, reduceCtorEq, or_false] at hr'
      rwa [← hr']
    · rw [← length_append, runFrom_stopped hall hi] at hr'
      simp only [RunOutcome.stopped.injEq, reduceCtorEq, false_or] at hr'
      rwa [← hr']
    · rw [runFrom_failed hall hi hstep (by rw [length_append]; omega)] at hr'
      simp at hr'
  · cases h.symm.trans hrun

end Larger

end Machine

open Machine in
/-- The step limit only cuts runs short. Code whose labels have been checked and whose instructions
are complete is run to its end, to a failure other than that of a part that is missing, or to the
limit. A run that is not stopped at a limit ends in the same way with every larger one. A run that
is stopped has executed just as many instructions as the limit allows, leaves the values that the
variables have then, and has recorded the beginning of what it records with a larger limit. A run
that leaves the code after as many instructions as the limit allows finishes. -/
theorem run_cut_short_by_limit (code : List Instr) (hcheck : checkLabels code = .ok ())
    (hcomplete : ∀ i ∈ code, i.Complete) (start : Bindings) (record : Bool) (limit limit' : Int)
    (hpos : 0 < limit) (hle : limit ≤ limit') :
    ((∀ fault, run code start limit record ≠ .rejected fault) ∧
      ∀ p i, run code start limit record ≠ .failed p i .incomplete) ∧
    ((∀ r, run code start limit record ≠ .stopped r) →
      run code start limit' record = run code start limit record ∧
        ∀ r, run code start limit record = .finished r → r.steps ≤ limit) ∧
    (∀ r, run code start limit record = .stopped r →
      r.steps = limit ∧ (record = true → r.trace.length = limit) ∧
      (∃ index m, labelIndex code = .ok index ∧ Path code index limit.toNat { globals := start } m ∧
        r.globals = m.globals) ∧
      ∀ r', run code start limit' record = .finished r' ∨
      run code start limit' record = .stopped r' →
        r.trace <+: r'.trace) ∧
    ∀ index m, labelIndex code = .ok index → Path code index limit.toNat { globals := start } m →
      code[m.next]? = none →
      ∃ r, run code start limit record = .finished r ∧ r.steps = limit ∧ r.globals = m.globals := by
  refine ⟨run_of_complete hcomplete hcheck start limit record, run_of_not_stopped hcheck hpos hle,
    fun r hr => ?_, fun index m hindex hpath hend => ?_⟩
  · obtain ⟨index, trail, m, hindex, htrail, hlimit, rfl, hlonger⟩ :=
      run_of_stopped hcheck hpos hle hr
    have hlength : trail.length = limit.toNat := by rw [← hlimit, Int.toNat_natCast]
    refine ⟨hlimit, ?_, ⟨index, m, hindex, hlength ▸ htrail.path, rfl⟩, hlonger⟩
    rintro rfl
    exact hlimit
  · obtain ⟨trail, htrail, hlength⟩ := hpath.exists_trail
    have hlimit : (trail.length : Int) = limit := by rw [hlength, Int.toNat_of_nonneg hpos.le]
    refine ⟨resultOf record trail m, ?_, hlimit, rfl⟩
    rw [run_eq_runFrom hindex hcheck hpos]
    exact runFrom_finished htrail hend hlength.le

/-- A variable is counted up to 3. -/
def countToThree : List Instr :=
  [.mark ⟨"_L0", 0⟩, .binary .add (.global "x") (.global "x") (.const 1),
    .jumpIf .lt (.global "x") (.const 3) ⟨"_L0", 0⟩]

/-- With a limit of 4 the run is stopped in the second turn, and what it has recorded is the
beginning of the record of the whole run, which takes 9 instructions and finishes with a limit of 9.
-/
theorem countToThree_cut_short : checkLabels countToThree = .ok () ∧
    (∀ i ∈ countToThree, i.Complete) ∧
    ∃ r r', run countToThree {} 4 true = .stopped r ∧ run countToThree {} 9 true = .finished r' ∧
      r.steps = 4 ∧ r.trace <+: r'.trace ∧ r'.trace = [0, 1, 2, 0, 1, 2, 0, 1, 2] ∧
      run countToThree {} 100 true = .finished r' := by
  have hcheck : checkLabels countToThree = .ok () := by rfl
  have hcomplete : ∀ i ∈ countToThree, i.Complete := by
    intro i hi
    simp only [countToThree, List.mem_cons, List.not_mem_nil, or_false] at hi
    rcases hi with rfl | rfl | rfl
    · exact ⟨Nat.zero_le _, by simp [Instr.mark]⟩
    · exact ⟨Nat.le_refl _, by simp [Instr.binary]⟩
    · exact ⟨Nat.zero_le _, fun _ => ⟨_, rfl⟩⟩
  obtain ⟨-, -, hstopped, -⟩ :=
    run_cut_short_by_limit countToThree hcheck hcomplete {} true 4 9 (by decide) (by decide)
  obtain ⟨-, hended, -⟩ :=
    run_cut_short_by_limit countToThree hcheck hcomplete {} true 9 100 (by decide) (by decide)
  obtain ⟨-, -, -, hbegins⟩ := hstopped _ rfl
  exact ⟨hcheck, hcomplete, _, _, rfl, rfl, rfl, hbegins _ (.inl rfl), rfl,
    (hended fun _ h => by cases h).1⟩

end ThreeAddress
