import Mathlib.Data.List.Induction
import ThreeAddress.Proofs.Lowering.Elision
import ThreeAddress.Proofs.Lowering.Robustness

/-!
# Lowering into a sink

Instructions can be given to a sink as they are emitted. The sink is a part of the state, but it has
no influence on the lowering: lowering into a sink is compared step by step with lowering without
one (`lower_into`), and the sink holds in the end what it has made of the emitted code. For a writer
that takes a number of instructions and then fails this is the beginning of the listing
(`stream_eq`).
-/

namespace ThreeAddress

open List Lowering

/-! ## Sinks -/

/-- Lowering into a sink comes to what lowering without one comes to, and puts the code into the
sink. -/
lemma lower_into {σ : Type} [Sink σ] (settings : Settings) (root : Tree)
    (s : LowerState) (sink : σ) :
    let plain := lower settings root s
    lower settings root (s.into sink) =
      ⟨plain.outcome, plain.code, plain.notes,
        plain.state.into (plain.code.foldl Sink.put sink)⟩ := by
  intro plain
  by_cases hroot : ∀ token value ops children, root ≠ .node .program token value ops children
  · simp only [plain, lower_of_ne_program hroot]
    rfl
  · push Not at hroot
    obtain ⟨token, value, ops, children, rfl⟩ := hroot
    have hresults : (Comparison.shifted settings {}).Results (fun _ _ => True)
        (s.into sink).sink plain (lower settings (.node .program token value ops children)
          (s.into sink)) :=
      Comparison.results_lower (C := .shifted settings {}) (Tree.admitted_all _)
        (Nat.add_zero _).symm (Nat.add_zero _).symm
    obtain ⟨houtcomes, hcode, hnotes, -, hsink, hsymbols, -, htemps, hlabels⟩ := hresults
    have hwithin := (lower_within settings (.node .program token value ops children) s).2
    have hsame : plain.code.map (Instr.shift {}) = plain.code :=
      (map_congr_left fun i hi => (hwithin i hi).shift_zero).trans (map_id _)
    rw [hcode.trans hsame] at hsink
    exact LoweringResult.ext houtcomes.eq (hcode.trans hsame) hnotes
      (LoweringState.ext (Names.ext htemps hlabels) hsymbols hsink)

/-! ## Writers -/

/-- The number of instructions that a writer takes of `n`. -/
def takenOf (limit : Option Nat) (n : Nat) : Nat := limit.elim n (min · n)

lemma takenOf_eq_self {limit n} (h : ∀ k ∈ limit, n ≤ k) : takenOf limit n = n := by
  cases limit with
  | none => rfl
  | some k => exact Nat.min_eq_right (h k rfl)

lemma takenOf_of_le {k n} (h : k ≤ n) : takenOf (some k) n = k := Nat.min_eq_left h

section Emit

variable {s : Stream} {i : Instr}

lemma Stream.emit_of_failed {k} (h : s.failedAt = some k) : s.emit i = s := by
  rw [emit, h, Option.isSome_some, if_pos rfl]

lemma Stream.emit_of_full (h : s.failedAt = none) (hfull : s.limit = some s.count) :
    s.emit i = { s with failedAt := some s.count } := by
  rw [emit, h, Option.isSome_none, if_neg Bool.false_ne_true, if_pos hfull]

lemma Stream.emit_of_room (h : s.failedAt = none) (hroom : s.limit ≠ some s.count) :
    s.emit i = { s with text := s.text ++ i.textOrNote "v" ++ "\n", count := s.count + 1 } := by
  rw [emit, h, Option.isSome_none, if_neg Bool.false_ne_true, if_neg hroom]

end Emit

lemma stream_concat (limit : Option Nat) (code : List Instr) (i : Instr) :
    stream limit (code ++ [i]) = (stream limit code).emit i := by
  rw [stream, foldl_append]
  rfl

/-- A writer takes instructions up to its limit, and fails at the next one. -/
lemma stream_eq (limit : Option Nat) (code : List Instr) : stream limit code =
    { limit
      text := String.join ((code.take (takenOf limit code.length)).map fun i =>
        i.textOrNote "v" ++ "\n")
      count := takenOf limit code.length
      failedAt := limit.filter (· < code.length) } := by
  induction code using reverseRecOn with
  | nil => cases limit <;> simp [stream, takenOf]
  | append_singleton code i ih =>
    rw [stream_concat, ih, length_append, length_singleton]
    by_cases hroom : ∀ k ∈ limit, code.length < k
    · -- The writer has taken everything so far, and takes one more.
      have hopen : ∀ n ≤ code.length + 1, limit.filter (· < n) = none := fun n hn =>
        Option.filter_eq_none_iff.mpr fun k hk => by simpa using hn.trans (hroom k hk)
      have hmore : limit ≠ some code.length := fun h => Nat.lt_irrefl _ (hroom _ h)
      rw [takenOf_eq_self fun k hk => (hroom k hk).le, takenOf_eq_self hroom,
        hopen _ (Nat.le_succ _),
        hopen _ le_rfl, take_length, take_of_length_le (by simp), Stream.emit_of_room rfl hmore]
      simp [String.append_assoc]
    · -- The writer has taken as many as it takes, and fails unless it has failed before.
      push Not at hroom
      obtain ⟨k, rfl, hk⟩ := hroom
      have htake : (code ++ [i]).take k = code.take k := take_append_of_le_length hk
      rw [takenOf_of_le hk, takenOf_of_le (Nat.le_succ_of_le hk), htake]
      have hfailed : (some k).filter (· < code.length + 1) = some k :=
        by simpa using Nat.lt_succ_of_le hk
      rw [hfailed]
      rcases hk.lt_or_eq with hlt | rfl
      · have hbefore : (some k).filter (· < code.length) = some k := by simpa using hlt
        rw [hbefore, Stream.emit_of_failed rfl]
      · rw [Stream.emit_of_full (by simp) rfl]

/-- Emitted instructions have the arguments of their operations, also if lowering stops. -/
lemma arity_le_of_lower (settings : Settings) (root : Tree) (s : LowerState) :
    ∀ i ∈ (lower settings root s).code, i.op.arity ≤ i.args.length := by
  intro i hi
  cases (lower_within settings root s).2 i hi with
  | copy | neg => exact Nat.le_refl _
  | @binary op _ _ _ hop => cases op <;> first | exact Nat.le_refl _ | cases hop
  | jumpIf | jumpUnless | jump | mark => exact Nat.zero_le _

/-- The texts of instructions that can be listed are the lines of the listing. -/
lemma map_textOrNote_eq {code lines} (h : listing? code = some lines) (verb : String) :
    code.map (Instr.textOrNote verb) = lines := by
  have hlines : Forall₂ (fun i line => i.textOrNote verb = line) code lines :=
    (listing?_eq_some_iff.mp h).imp fun i line hi => by rw [Instr.textOrNote, hi]
  exact forall₂_eq_eq_eq ▸ forall₂_map_left_iff.mpr hlines

/-- What a writer complains about that has received code. -/
lemma complaint_stream (limit : Option Nat) (code : List Instr) (reason : String) :
    (stream limit code).complaint reason = limit.elim "" fun k =>
      if k < code.length then "writing instruction " ++ toString k ++ ": " ++ reason else "" := by
  rw [stream_eq, Stream.complaint]
  cases limit with
  | none => rfl
  | some k =>
    rw [Option.filter_some, Option.elim_some]
    by_cases hk : k < code.length <;> simp [hk]

/-- Streaming matches the listing, up to the first failure of the writer. Lowering a tree without
absent nodes into any sink comes to the same outcome, notes and state as lowering it without one,
whether it succeeds or stops with a fault, and the sink has received the emitted instructions in
their order. A writer that takes a number of instructions and then fails has the first lines of the
listing of the program, as many as it takes; it fails if there are more, and tells the number of the
instruction. -/
theorem streaming_matches_listing (settings : Settings) (state : LowerState) (root : Tree)
    (hwhole : root.Whole) :
    let program := lower settings root state
    let n := program.code.length
    program.outcome ≠ .error .incomplete ∧
    (∀ {σ : Type} [Sink σ] (sink : σ),
      let delivered := lower settings root (state.into sink)
      delivered.outcome = program.outcome ∧ delivered.notes = program.notes ∧
      delivered.state = program.state.into (program.code.foldl Sink.put sink)) ∧
    ∃ lines, listing? program.code = some lines ∧ ∀ limit : Option Nat,
      let written := (lower settings root (state.into { limit : Stream })).state.sink
      written.text = String.join ((lines.take (takenOf limit n)).map (· ++ "\n")) ∧
      written.count = takenOf limit n ∧
      (∀ k, written.failedAt = some k ↔ limit = some k ∧ k < n) ∧
      ∀ reason, written.complaint reason = limit.elim "" fun k =>
        if k < n then "writing instruction " ++ toString k ++ ": " ++ reason else "" := by
  intro program n
  have hcomplete : program.outcome ≠ .error .incomplete :=
    (lower_of_whole settings state (fun _ => True) hwhole fun _ _ => trivial).1
  obtain ⟨lines, hlines⟩ := exists_listing_iff.mpr (arity_le_of_lower settings root state)
  refine ⟨hcomplete, fun sink => ?_, lines, hlines, fun limit => ?_⟩
  · rw [lower_into]
    exact ⟨rfl, rfl, rfl⟩
  · have hwritten : (lower settings root (state.into { limit : Stream })).state.sink =
        stream limit program.code := by
      rw [lower_into]
      rfl
    have hfirst : (program.code.take (takenOf limit n)).map (fun i => i.textOrNote "v" ++ "\n") =
        (lines.take (takenOf limit n)).map (· ++ "\n") := by
      rw [← map_textOrNote_eq hlines "v", ← List.map_take, List.map_map]
      rfl
    rw [hwritten]
    refine ⟨?_, ?_, fun k => ?_, complaint_stream limit program.code⟩
    · rw [stream_eq, ← hfirst]
    · rw [stream_eq]
    · rw [stream_eq, Option.filter_eq_some_iff, decide_eq_true_iff]

/-- A program that gives a variable two values and then names a variable that is not declared. -/
def brokenOff : Tree :=
  let assign name value := Tree.branch .assignment {} [.leaf .identifier {} name,
    .leaf .intLiteral {} value]
  .branch .program {} [.node .declaration {} "num" [] [.leaf .identifier {} "x"],
    assign "x" "5", assign "x" "6", assign "y" "7"]

/-- Lowering stops at the third assignment. A writer that takes one instruction has the first line
of what was emitted before, and has failed at the second. -/
theorem brokenOff_streamed : brokenOff.Whole ∧
    (lower {} brokenOff {}).outcome ≠ .ok () ∧
    let written := lower {} brokenOff (({} : LowerState).into ({ limit := some 1 } : Stream))
    written.outcome = (lower {} brokenOff {}).outcome ∧ written.state.sink.text = "x = 5\n" ∧
      written.state.sink.complaint "full" = "writing instruction 1: full" := by
  have hwhole : brokenOff.Whole := by simp [brokenOff, Tree.leaf, Tree.branch, Tree.whole_node_iff]
  obtain ⟨-, hdelivered, lines, hlines, hwritten⟩ :=
    streaming_matches_listing {} {} brokenOff hwhole
  have hlisting : listing? (lower {} brokenOff {}).code = some ["x = 5", "x = 6"] :=
    by decide +kernel
  have hlength : (lower {} brokenOff {}).code.length = 2 := by decide +kernel
  obtain rfl := Option.some.inj (hlines.symm.trans hlisting)
  obtain ⟨htext, -, -, hcomplaint⟩ := hwritten (some 1)
  rw [hlength] at htext hcomplaint
  exact ⟨hwhole, by decide, (hdelivered _).1, htext, hcomplaint "full"⟩

end ThreeAddress
