import ThreeAddress.Proofs.Names.Marks

/-!
# Names over whole sessions

A compiler can be called many times; what one call leaves behind, the next one starts from. A call
emits the code of a tree or makes a program of it, and may fail. A session is a list of calls,
performed one after the other, and its records say for every call which names were minted before and
after it, how it ended, and which instructions it gave out: also a call that fails may have emitted
some.

The main result is that over every session labels and temporaries are minted and used exactly once:
the listing of a call that succeeds marks each label minted by the call once and no other label,
jumps to those labels only, and uses the temporaries minted by the call and no others; and no name
of a label or temporary stands in the listings of two calls.
-/

namespace ThreeAddress

open List Lowering

/-! ## Occurrences of names -/

/-- An operand occurs in an instruction. -/
def Instr.Mentions (i : Instr) (v : Operand) : Prop :=
  i.result = some v ∨ some v ∈ i.args ∨ ∃ t, i.test = some t ∧ (t.left = some v ∨ t.right = some v)

/-- The name of a label occurs in an instruction, as its target or as an operand. -/
def Instr.MentionsLabel (i : Instr) (name : String) : Prop :=
  ∃ l : Label, l.name = name ∧ (i.target = some l ∨ i.Mentions (.label l))

/-- The variables that code names. -/
def globalNames (code : List Instr) : Set String := {x | ∃ i ∈ code, i.Mentions (.global x)}

section Mentions

variable {b n : Names} {i : Instr}

/-- The operands of an instruction in range are in range. -/
lemma Instr.Within.of_mentions {v} (h : i.Within b n) (hv : i.Mentions v) : v.Within b n := by
  cases h with
  | copy hdst hsrc | neg hdst hsrc =>
    simp only [Mentions, Instr.copy, Instr.neg, Option.some.injEq, mem_singleton, reduceCtorEq,
      false_and, exists_false, or_false] at hv
    rcases hv with rfl | rfl
    · exact hdst
    · exact hsrc
  | binary _ hdst hleft hright =>
    simp only [Mentions, Instr.binary, Option.some.injEq, mem_cons, not_mem_nil, reduceCtorEq,
      false_and, exists_false, or_false] at hv
    rcases hv with rfl | rfl | rfl
    · exact hdst
    · exact hleft
    · exact hright
  | jumpIf hleft hright _ | jumpUnless hleft hright _ =>
    simp only [Mentions, Instr.jumpIf, Instr.jumpUnless, Option.some.injEq, not_mem_nil,
      reduceCtorEq, exists_eq_left', false_or] at hv
    rcases hv with rfl | rfl
    · exact hleft
    · exact hright
  | jump _ | mark _ => simp [Mentions, Instr.jump, Instr.mark] at hv

/-- The labels of an instruction in range are in range. -/
lemma Instr.Within.of_target {l} (h : i.Within b n) (hl : i.target = some l) : l.Within b n := by
  cases h with
  | copy | neg | binary => cases hl
  | jumpIf _ _ hwithin | jumpUnless _ _ hwithin | jump hwithin | mark hwithin =>
    exact Option.some.inj hl ▸ hwithin

/-- A label that occurs in an instruction in range has the name of a minted one. -/
lemma Instr.Within.of_mentionsLabel {name} (h : i.Within b n) (hname : i.MentionsLabel name) :
    ∃ k, b.labels ≤ k ∧ k < n.labels ∧ name = (labelOf k).name := by
  obtain ⟨l, rfl, hl | hl⟩ := hname
  · obtain ⟨k, hlower, hupper, rfl⟩ := h.of_target hl
    exact ⟨k, hlower, hupper, rfl⟩
  · cases h.of_mentions hl

/-- A temporary that occurs in an instruction in range is a minted one. -/
lemma Instr.Within.of_mentions_temp {name id} (h : i.Within b n) (hv : i.Mentions (.temp name id)) :
    ∃ k, b.temps ≤ k ∧ k < n.temps ∧ .temp name id = tempOf k := by
  generalize hw : Operand.temp name id = w at hv
  cases h.of_mentions hv with
  | const | global => cases hw
  | temp hlower hupper => exact ⟨_, hlower, hupper, rfl⟩

end Mentions

/-! ## Sessions -/

/-- A call: to emit the code of a tree, or to make a program of it. -/
inductive Call
  | translate (settings : Settings) (root : Tree)
  | generate (settings : Settings) (root : Tree)

/-- What is known of a call after it. -/
structure CallRecord where
  /-- The names minted before the call. -/
  before : Names
  /-- The names minted when the call ends. -/
  after : Names
  outcome : Except GenerateError Unit
  /-- The instructions given out: those emitted, or those of the program. -/
  listing : List Instr

/-- The record of a call and the state it leaves behind. -/
def Call.perform (s : LowerState) : Call → CallRecord × LowerState
  | translate settings root =>
    let lowered := lower settings root s
    ({ before := s.names
       after := lowered.state.names
       outcome := lowered.outcome.mapError .stopped
       listing := lowered.code }, lowered.state)
  | generate settings root =>
    let generated := ThreeAddress.generate settings s root
    ({ before := s.names
       after := generated.state.names
       outcome := generated.outcome.map fun _ => ()
       listing := match generated.outcome with
         | .ok program => program.code
         | .error _ => [] }, generated.state)

/-- The records of calls that are made one after the other. -/
def session (s : LowerState) : List Call → List CallRecord
  | [] => []
  | call :: calls => (call.perform s).1 :: session (call.perform s).2 calls

namespace CallRecord

/-- The name of a label occurs in the listing of a call. -/
def UsesLabel (r : CallRecord) (name : String) : Prop := ∃ i ∈ r.listing, i.MentionsLabel name

/-- A temporary with a name occurs in the listing of a call. -/
def UsesTemp (r : CallRecord) (name : String) : Prop :=
  ∃ i ∈ r.listing, ∃ id, i.Mentions (.temp name id)

/-- The listing of a call marks every label minted by the call exactly once and no others, jumps to
these labels only, passes the check of labels, and uses just the temporaries minted by the call. -/
structure Exact (r : CallRecord) : Prop where
  marked_once : ∀ k, r.before.labels ≤ k → k < r.after.labels →
    r.listing.count (.mark (labelOf k)) = 1
  marked_only : ∀ i ∈ r.listing, i.op = .mark →
    ∃ k, r.before.labels ≤ k ∧ k < r.after.labels ∧ i = .mark (labelOf k)
  jumps : ∀ i ∈ r.listing, i.op.isJump = true →
    ∃ k, r.before.labels ≤ k ∧ k < r.after.labels ∧ i.target = some (labelOf k)
  checked : checkLabels r.listing = .ok ()
  temps : ∀ name id, (∃ i ∈ r.listing, i.Mentions (.temp name id)) ↔
    ∃ k, r.before.temps ≤ k ∧ k < r.after.temps ∧ .temp name id = tempOf k

/-- What holds of every call: its names are minted after the earlier ones, its listing uses no
others, and uses all of them if the call succeeds; and it never fails because of its labels. -/
structure Sound (r : CallRecord) : Prop where
  le : r.before ≤ r.after
  within : ∀ i ∈ r.listing, i.Within r.before r.after
  complete : r.outcome = .ok () → Complete r.before r.listing r.after []
  verified : ∀ fault, r.outcome ≠ .error (.unverified fault)

/-- A call that succeeds uses exactly the names it minted. -/
lemma Sound.exact {r : CallRecord} (h : r.Sound) (hok : r.outcome = .ok ()) : r.Exact where
  marked_once k hlower hupper := by
    have hperm : (marked r.listing).Perm (labelsBetween r.before.labels r.after.labels) :=
      (h.complete hok).marked
    have hmarks : ∀ i ∈ r.listing, i.op = .mark → ∃ l, i = .mark l := fun i hi hop =>
      let ⟨k, _, _, hk⟩ := (h.within i hi).of_mark hop
      ⟨labelOf k, hk⟩
    rw [count_mark hmarks, hperm.count_eq]
    exact count_eq_one_of_mem (nodup_map_name_labelsBetween _ _).of_map
      (mem_labelsBetween.mpr ⟨k, hlower, hupper, rfl⟩)
  marked_only i hi hop := (h.within i hi).of_mark hop
  jumps i hi hop := (h.within i hi).of_jump hop
  checked := checkLabels_of_complete (h.complete hok) h.within
  temps name id := by
    constructor
    · rintro ⟨i, hi, hmentions⟩
      exact (h.within i hi).of_mentions_temp hmentions
    · rintro ⟨k, hlower, hupper, hk⟩
      obtain ⟨i, hi, hres⟩ := (h.complete hok).written k hlower hupper
      exact ⟨i, hi, .inl (hres.trans (congrArg some hk.symm))⟩

/-- No label of a call occurs in a later one. -/
lemma Sound.usesLabel_disjoint {r r' : CallRecord} (h : r.Sound) (h' : r'.Sound)
    (hle : r.after ≤ r'.before) {name} (hr : r.UsesLabel name) : ¬ r'.UsesLabel name := by
  rintro ⟨i', hi', hname'⟩
  obtain ⟨i, hi, hname⟩ := hr
  obtain ⟨k, -, hupper, rfl⟩ := (h.within i hi).of_mentionsLabel hname
  obtain ⟨k', hlower, -, hk⟩ := (h'.within i' hi').of_mentionsLabel hname'
  obtain rfl := labelOf_name_inj hk
  exact absurd (lt_of_lt_of_le hupper (le_trans hle.labels hlower)) (lt_irrefl k)

/-- No temporary of a call occurs in a later one. -/
lemma Sound.usesTemp_disjoint {r r' : CallRecord} (h : r.Sound) (h' : r'.Sound)
    (hle : r.after ≤ r'.before) {name} (hr : r.UsesTemp name) : ¬ r'.UsesTemp name := by
  rintro ⟨i', hi', id', hname'⟩
  obtain ⟨i, hi, id, hname⟩ := hr
  obtain ⟨k, -, hupper, hk⟩ := (h.within i hi).of_mentions_temp hname
  obtain ⟨k', hlower, -, hk'⟩ := (h'.within i' hi').of_mentions_temp hname'
  cases hk
  obtain rfl := tempOf_name_inj (Operand.temp.inj hk').1
  exact absurd (lt_of_lt_of_le hupper (le_trans hle.temps hlower)) (lt_irrefl k)

end CallRecord

/-- Every call is sound, starts at the names of its state and ends at those of the state it leaves.
-/
lemma perform_sound (s : LowerState) (call : Call) :
    (call.perform s).1.Sound ∧ (call.perform s).1.before = s.names ∧
      (call.perform s).1.after = (call.perform s).2.names := by
  refine ⟨?_, by cases call <;> rfl, by cases call <;> rfl⟩
  cases call with
  | translate settings root =>
    obtain ⟨hle, hwithin⟩ := lower_within settings root s
    refine ⟨hle, hwithin, fun hok => ?_, fun fault => ?_⟩
    · refine lower_complete ?_
      cases houtcome : (lower settings root s).outcome with
      | ok u => rfl
      | error stop => simp [Call.perform, houtcome, Except.mapError] at hok
    · cases houtcome : (lower settings root s).outcome <;>
        simp [Call.perform, houtcome, Except.mapError]
  | generate settings root =>
    obtain ⟨hle, hwithin⟩ := lower_within settings root s
    cases houtcome : (lower settings root s).outcome with
    | ok u =>
      obtain ⟨p, hp, hcode⟩ := generate_of_ok houtcome
      refine ⟨hle, ?_, fun _ => ?_, fun fault => ?_⟩
      · simpa [Call.perform, hp, hcode] using hwithin
      · simpa [Call.perform, hp, hcode] using lower_complete houtcome
      · simp [Call.perform, hp, Except.map]
    | error stop =>
      have herror := generate_of_error houtcome
      refine ⟨hle, ?_, fun hok => ?_, fun fault => ?_⟩
      · simp [Call.perform, herror]
      · simp [Call.perform, herror, Except.map] at hok
      · simp [Call.perform, herror, Except.map]

/-- The calls of a session are sound, and each starts after the names of the state. -/
lemma session_sound (s : LowerState) (calls : List Call) : ∀ r ∈ session s calls, r.Sound ∧
    s.names ≤ r.before := by
  induction calls generalizing s with
  | nil => exact fun r hr => absurd hr not_mem_nil
  | cons call calls ih =>
    obtain ⟨hsound, hbefore, hafter⟩ := perform_sound s call
    refine forall_mem_cons.mpr ⟨⟨hsound, le_of_eq hbefore.symm⟩, fun r hr => ?_⟩
    obtain ⟨hr, hle⟩ := ih (call.perform s).2 r hr
    refine ⟨hr, le_trans (le_of_eq hbefore.symm) (le_trans hsound.le ?_)⟩
    exact le_trans (le_of_eq hafter) hle

/-- A call starts at the names that the earlier calls of the session have reached, or later. -/
lemma session_ordered (s : LowerState) (calls : List Call) :
    (session s calls).Pairwise fun r r' => r.after ≤ r'.before := by
  induction calls generalizing s with
  | nil => exact Pairwise.nil
  | cons call calls ih =>
    obtain ⟨-, -, hafter⟩ := perform_sound s call
    refine pairwise_cons.mpr ⟨fun r hr => ?_, ih _⟩
    exact le_trans (le_of_eq hafter) (session_sound _ calls r hr).2

/-- Over every session labels and temporaries are minted and marked exactly once. -/
theorem session_mints_and_marks_once (s : LowerState) (calls : List Call) :
    (∀ r ∈ session s calls, r.outcome = .ok () → r.Exact) ∧
      (∀ r ∈ session s calls, ∀ fault, r.outcome ≠ .error (.unverified fault)) ∧
        (session s calls).Pairwise fun r r' =>
          ∀ name, ¬ (r.UsesLabel name ∧ r'.UsesLabel name) ∧
          ¬ (r.UsesTemp name ∧ r'.UsesTemp name) := by
  have hsound := session_sound s calls
  refine ⟨fun r hr hok => (hsound r hr).1.exact hok, fun r hr => (hsound r hr).1.verified, ?_⟩
  refine (session_ordered s calls).imp_of_mem fun {r r'} hr hr' hle name => ⟨?_, ?_⟩
  · rintro ⟨hlabel, hlabel'⟩
    exact (hsound r hr).1.usesLabel_disjoint (hsound r' hr').1 hle hlabel hlabel'
  · rintro ⟨htemp, htemp'⟩
    exact (hsound r hr).1.usesTemp_disjoint (hsound r' hr').1 hle htemp htemp'

/-- Three calls: the assignment of a comparison to `b`, a loop that makes the same assignment
without a declaration of `b`, and a loop that runs while `b` is true. -/
def sampleCalls : List Call :=
  let b := Tree.leaf .identifier {} "b"
  let true' := Tree.leaf .boolLiteral {} "true"
  let declaration := Tree.node .declaration {} "bool" [] [b]
  let assignment := Tree.branch .assignment {} [b, .node .comparison {} "" [.equal] [b, true']]
  [.generate {} (.branch .program {} [declaration, assignment]),
    .translate {} (.branch .program {} [.branch .loop {} [true', assignment]]),
    .translate {} (.branch .program {}
      [declaration, .branch .loop {} [b, .branch .statement {} []]])]

/-- The second call fails after it has minted labels, and the third one goes on behind them. -/
theorem session_sampleCalls : ∃ r₁ r₂ r₃ : CallRecord, session {} sampleCalls = [r₁, r₂, r₃] ∧
    (r₁.outcome = .ok () ∧ r₁.before = ⟨0, 0⟩ ∧ r₁.after = ⟨2, 9⟩ ∧ r₁.Exact) ∧
    ((∃ e, r₂.outcome = .error e) ∧ r₂.after = ⟨2, 11⟩) ∧
    (r₃.outcome = .ok () ∧ r₃.before = ⟨2, 11⟩ ∧ r₃.after = ⟨2, 13⟩ ∧ r₃.Exact) := by
  obtain ⟨hexact, -⟩ := session_mints_and_marks_once {} sampleCalls
  have hlength : (session {} sampleCalls).length = 3 := by decide +kernel
  have hviews : (session {} sampleCalls).map
      (fun r => (decide (r.outcome = .ok ()), r.before, r.after)) =
      [(true, ⟨0, 0⟩, ⟨2, 9⟩), (false, ⟨2, 9⟩, ⟨2, 11⟩), (true, ⟨2, 11⟩, ⟨2, 13⟩)] := by
    decide +kernel
  obtain ⟨r₁, r₂, r₃, hsession⟩ := length_eq_three.mp hlength
  rw [hsession] at hexact hviews
  simp only [map_cons, map_nil, cons.injEq, Prod.mk.injEq, and_true, decide_eq_true_eq,
    decide_eq_false_iff_not] at hviews
  obtain ⟨⟨hok₁, hbefore₁, hafter₁⟩, ⟨hfails₂, -, hafter₂⟩, hok₃, hbefore₃, hafter₃⟩ := hviews
  have herror₂ : ∃ e, r₂.outcome = .error e := by
    cases h : r₂.outcome with
    | error e => exact ⟨e, rfl⟩
    | ok _ => exact absurd h hfails₂
  exact ⟨r₁, r₂, r₃, hsession, ⟨hok₁, hbefore₁, hafter₁, hexact r₁ (by simp) hok₁⟩,
    ⟨herror₂, hafter₂⟩, hok₃, hbefore₃, hafter₃, hexact r₃ (by simp) hok₃⟩

end ThreeAddress
