import ThreeAddress.Proofs.Lowering.Sites

/-!
# Code that is never executed

Control comes to a range of places only through what stands right before it or by a jump to a label
that is marked in it. A range behind a jump, to whose labels no jump from elsewhere goes, is sealed:
control does not come to it (`Sealed.not_accessible`). The body of an `if` or a `while` that is not
executed for a condition known in advance is such a range.

The clause of a `switch` whose value is that of an earlier one is sealed but for the test of its own
value. When this test is made the test of the earlier clause has failed, and the scrutinee has not
changed since then, so the test fails as well (`Sealed.not_selected`).
-/

namespace ThreeAddress

open List Lowering Machine

variable {l : Label} {c x z code : List Instr} {ts : List Tree} {s s' s1 : LowerState}
  {settings : Settings} {a b : Site} {role : Role} {v : Operand} {w : Int64}

/-! ## Sealed code -/

/-- The marks of code are those of labels with numbers in a set. -/
def MarksOnly (c : List Instr) (L : Set Nat) : Prop :=
  ∀ i ∈ c, i.op = .mark → ∃ k ∈ L, i = .mark (labelOf k)

lemma MarksOnly.mark_cons {L} (h : MarksOnly c L) (k : Nat) :
    MarksOnly (.mark (labelOf k) :: c) (insert k L) := by
  refine forall_mem_cons.mpr ⟨fun _ => ⟨k, Set.mem_insert k L, rfl⟩, fun i hi hop => ?_⟩
  obtain ⟨j, hj, rfl⟩ := h i hi hop
  exact ⟨j, Set.mem_insert_of_mem k hj, rfl⟩

/-- The places from `lo` up to `hi` come behind a jump, and only the gates jump to the labels that
are marked there. -/
structure Sealed (code : List Instr) (gates : Set Nat) (lo hi : Nat) (L : Set Nat) : Prop where
  behind : ∃ p l, lo = p + 1 ∧ code[p]? = some (.jump l)
  marks : ∀ q ∈ Set.Ico lo hi, ∀ i, code[q]? = some i → i.op = .mark →
    ∃ k ∈ L, i = .mark (labelOf k)
  jumps : JumpsFrom code ((Set.Ico lo hi)ᶜ \ gates) Lᶜ

section Sealing

variable {gates L : Set Nat} {lo hi p q r : Nat}

/-- Control comes to sealed code through a gate. -/
lemma Sealed.gate_of_flows (h : Sealed code gates lo hi L) (hflow : Flows code q r)
    (hq : q ∉ Set.Ico lo hi) (hr : r ∈ Set.Ico lo hi) : q ∈ gates := by
  by_contra hgate
  cases hflow with
  | next hi hop =>
    obtain ⟨p, l, rfl, hp⟩ := h.behind
    obtain rfl : q = p := by
      simp only [Set.mem_Ico, not_and, not_lt] at hq hr
      omega
    obtain rfl := Option.some.inj (hi.symm.trans hp)
    exact hop rfl
  | taken hi hop hl hj =>
    obtain ⟨k, hk, htarget⟩ := h.jumps q ⟨hq, hgate⟩ _ hi hop
    obtain ⟨instr, l, hr', hmark, hl', hname⟩ := hj
    obtain ⟨k', hk', rfl⟩ := h.marks r hr instr hr' hmark
    obtain rfl := Option.some.inj (hl.symm.trans htarget)
    obtain rfl := Option.some.inj hl'
    exact hk (labelOf_name_inj hname ▸ hk')

/-- Control does not come to code that is sealed without gates. -/
lemma Sealed.not_accessible (h : Sealed code ∅ lo hi L) (hq : q ∈ Set.Ico lo hi) :
    ¬ Accessible code q := by
  intro haccessible
  induction haccessible with
  | refl =>
    obtain ⟨p, l, rfl, -⟩ := h.behind
    exact Nat.not_succ_le_zero p hq.1
  | tail _ hflow ih => exact h.gate_of_flows hflow ih hq

/-- The places of a piece of code are places of the code. -/
lemma CodeAt.lt_length (hat : CodeAt code p c) (hq : q ∈ Set.Ico p (p + c.length)) :
    q < code.length := by
  obtain ⟨j, rfl⟩ := Nat.exists_eq_add_of_le hq.1
  have hj := Nat.lt_of_add_lt_add_left hq.2
  exact (List.getElem?_eq_some_iff.mp ((hat j hj).trans (List.getElem?_eq_getElem hj))).1

/-- A piece of code behind a jump is sealed if no jump from elsewhere goes to the labels it marks.
-/
lemma CodeAt.sealed (hat : CodeAt code p c)
    (hbehind : ∃ p' l, p = p' + 1 ∧ code[p']? = some (.jump l)) (hmarks : MarksOnly c L)
    (hjumps : JumpsFrom code ((Set.Ico p (p + c.length))ᶜ \ gates) Lᶜ) :
    Sealed code gates p (p + c.length) L where
  behind := hbehind
  marks := by
    rintro q ⟨hlower, hupper⟩ i hi
    obtain ⟨j, rfl⟩ := Nat.exists_eq_add_of_le hlower
    rw [hat j (Nat.lt_of_add_lt_add_left hupper)] at hi
    exact hmarks i (mem_of_getElem? hi)
  jumps := hjumps

/-- Nested code behind a jump is sealed. -/
lemma Nested.sealed (h : Nested code p c L)
    (hbehind : ∃ p' l, p = p' + 1 ∧ code[p']? = some (.jump l)) (hmarks : MarksOnly c L) :
    Sealed code ∅ p (p + c.length) L := by
  refine h.code_at.sealed hbehind hmarks ?_
  rw [Set.sdiff_empty]
  exact h.spared

/-- A part of nested code behind a jump is sealed with one gate if the rest does not jump to its
labels. -/
lemma Nested.gated {y d g L'} (h : Nested code p (x ++ g :: ((y ++ [.jump l]) ++ (d ++ z))) L)
    (hL : L' ⊆ L) (hx : JumpsTo x L'ᶜ) (hy : JumpsTo (y ++ [.jump l]) L'ᶜ) (hz : JumpsTo z L'ᶜ)
    (hmarks : MarksOnly d L') :
    Sealed code {p + x.length} (p + x.length + 1 + (y ++ [Instr.jump l]).length)
      (p + x.length + 1 + (y ++ [Instr.jump l]).length + d.length) L' := by
  have hrest := h.code_at.right.tail
  refine hrest.right.left.sealed ⟨_, l, ?_, hrest.left.right.head⟩ hmarks ?_
  · rw [length_append, ← Nat.add_assoc]
    rfl
  · have hinside := ((h.code_at.left.jumpsFrom hx).union (hrest.left.jumpsFrom hy)).union
      (hrest.right.right.jumpsFrom hz)
    have houtside := h.spared.mono (subset_refl _) (Set.compl_subset_compl.mpr hL)
    refine (houtside.union hinside).mono (fun q hq => ?_) (subset_refl _)
    simp only [Set.mem_sdiff, Set.mem_compl_iff, Set.mem_Ico, not_and, not_lt,
      Set.mem_singleton_iff, Set.mem_union, length_append, length_cons] at hq ⊢
    omega

end Sealing

/-! ## Conditions that are known in advance -/

/-- A condition is a truth value, or nodes that only stand for one. -/
inductive Tree.IsKnown (b : Bool) : Tree → Prop
  | literal {token value ops children} (hvalue : decide (value = "true") = b) :
      Tree.IsKnown b (.node .boolLiteral token value ops children)
  | under {kind token value ops t} (hkind : isTransparent kind ops = true) (ht : Tree.IsKnown b t) :
      Tree.IsKnown b (.node kind token value ops [t])

/-- A condition that is known in advance is lowered to a jump to its exit. -/
lemma cond_of_isKnown {condition b holds fails} (hknown : condition.IsKnown b)
    (h : (cond condition holds fails).Yields s () c s') : c = jumpCode (exits holds fails b) := by
  induction hknown with
  | @literal token value ops children hval =>
    unfold cond at h
    rw [if_neg (by simp [isTransparent])] at h
    subst hval
    simp only at h
    split at h
    · rename_i htrue
      rw [htrue]
      exact (yields_jumpTo.mp h).1
    · rename_i hne
      rw [decide_eq_false hne]
      split at h
      · exact (yields_jumpTo.mp h).1
      · exact absurd h not_yields_fail
  | @under kind token value ops t hkind ht ih =>
    unfold cond at h
    rw [if_pos hkind] at h
    cases ht with
    | literal => exact ih h
    | under => exact ih h

/-! ## Bodies that are never executed -/

/-- A body is never executed, as its condition is known in advance. -/
def Role.IsDead : Role → Prop
  | .thenBody condition | .loopBody condition => condition.IsKnown false
  | .elseBody condition => condition.IsKnown true
  | .part | .clause _ _ => False

/-- Statements mark their own labels only. -/
lemma statements_marks (h : (statements settings ts).Yields s () c s') :
    MarksOnly c (Set.Ico s.names.labels s'.names.labels) := by
  obtain ⟨-, rfl, rfl⟩ := yields_iff.mp h
  intro i hi hop
  obtain ⟨k, hlower, hupper, rfl⟩ :=
    ((keeps_statements settings ts (le_refl _) s (le_refl _)).2.1 i hi).of_mark hop
  exact ⟨k, ⟨hlower, hupper⟩, rfl⟩

lemma Fits.code_at (h : Fits settings code a) : CodeAt code a.place (a.code settings) := by
  obtain ⟨c, s', hyields, hnested⟩ := h
  obtain ⟨-, rfl, -⟩ := yields_iff.mp hyields
  exact hnested.code_at

/-- A site that fits is sealed behind a jump. -/
lemma Fits.sealed (h : Fits settings code a)
    (hbehind : ∃ p l, a.place = p + 1 ∧ code[p]? = some (.jump l)) :
    ∃ L, Sealed code ∅ a.place (a.place + (a.code settings).length) L := by
  obtain ⟨c, s', hyields, hnested⟩ := h
  have hmarks := statements_marks hyields
  obtain ⟨-, rfl, -⟩ := yields_iff.mp hyields
  exact ⟨_, hnested.sealed hbehind hmarks⟩

/-- The place and the code of statements behind a lowering. -/
lemma Site.after_parts {x body c1 d s2} (hx : x.Yields a.state () c1 s1)
    (hd : (statements settings body).Yields s1 () d s2) :
    (a.after x body).place = a.place + c1.length ∧ (a.after x body).code settings = d := by
  obtain ⟨-, rfl, rfl⟩ := yields_iff.mp hx
  exact ⟨rfl, (yields_iff.mp hd).2.1⟩

/-- Statements come behind a jump if what is lowered before them ends with one. -/
lemma behind_jump (c1 : List Instr) {x body c2} (hat : CodeAt code a.place (c1 ++ .jump l :: c2))
    (hx : x.Yields a.state () (c1 ++ [.jump l]) s1) :
    ∃ p l', (a.after x body).place = p + 1 ∧ code[p]? = some (.jump l') := by
  obtain ⟨-, hcode, -⟩ := yields_iff.mp hx
  refine ⟨a.place + c1.length, l, ?_, hat.right.head⟩
  rw [Site.after, hcode, length_append, Nat.add_assoc]
  rfl

/-- The second body of an `if` whose condition holds is sealed together with its mark, to which only
the condition would jump. -/
lemma Fits.sealed_else {token value ops condition t e} (h : Fits settings code a)
    (he : e.isAbsent = false) (hbody : a.body =
      [.node .conditional token value ops [condition, t, e]]) (hknown : condition.IsKnown true) :
    ∃ lo L, lo ≤ (a.after (beforeElse settings condition t) [e]).place ∧ Sealed code ∅ lo
      ((a.after (beforeElse settings condition t) [e]).place +
        ((a.after (beforeElse settings condition t) [e]).code settings).length) L := by
  obtain ⟨c, s', hyields, hnested⟩ := h
  rw [hbody, yields_statements_singleton] at hyields
  obtain ⟨c1, s1, c2, s2, c3, hcond, hthen, helse, rfl⟩ :=
    conditional_some_parts (yields_alternative he hyields)
  obtain rfl : c1 = [] := cond_of_isKnown hknown hcond
  have hmarks := statements_marks (yields_statements_singleton.mpr helse)
  obtain ⟨hle1, -⟩ := cond_jumpsTo (j := 0) hcond Nat.zero_lt_two
  obtain ⟨⟨-, hle2⟩, hjumps2⟩ := statements_jumpsTo (yields_statements_singleton.mpr hthen)
  obtain ⟨⟨-, hle3⟩, -⟩ := statements_jumpsTo (yields_statements_singleton.mpr helse)
  have hwhole : Nested code a.place ((c2 ++ [.jump (labelOf (a.state.names.labels + 1))]) ++
      ((.mark (labelOf a.state.names.labels) :: c3) ++
        [.mark (labelOf (a.state.names.labels + 1))]))
      (Set.Ico a.state.names.labels s'.names.labels) := by
    simpa using hnested
  -- the labels of the sealed code are that of its mark and those of the body
  have hlabels : insert a.state.names.labels (Set.Ico s2.names.labels s'.names.labels) ⊆
      Set.Ico a.state.names.labels s'.names.labels := by
    rintro k (rfl | ⟨hlower, hupper⟩) <;> constructor <;> omega
  have hbefore : Set.Ico (a.state.names.labels + 1) s2.names.labels ⊆
      (insert a.state.names.labels (Set.Ico s2.names.labels s'.names.labels))ᶜ := by
    rintro k ⟨hlower, hupper⟩ (rfl | ⟨hlower', -⟩) <;> omega
  have hthenJumps := hjumps2.mono ((Set.Ico_subset_Ico_left (Nat.le_of_succ_le hle1)).trans hbefore)
  have hpart := hwhole.part hlabels
    (hthenJumps.append (jumpsTo_nil.jump_cons (hbefore ⟨le_refl _, by omega⟩)))
    (jumpsTo_nil.mark_cons _)
  obtain ⟨hplace, hcode⟩ := Site.after_parts (yields_beforeElse hcond hthen)
    (yields_statements_singleton.mpr helse)
  have hstart : (a.after (beforeElse settings condition t) [e]).place =
      a.place + (c2 ++ [Instr.jump (labelOf (a.state.names.labels + 1))]).length + 1 := by
    rw [hplace]
    simp [Nat.add_assoc]
  refine ⟨_, insert a.state.names.labels (Set.Ico s2.names.labels s'.names.labels),
    le_trans (Nat.le_succ _) (le_of_eq hstart.symm), ?_⟩
  rw [hcode, hstart, Nat.add_right_comm]
  exact hpart.sealed
    ⟨a.place + c2.length, _, by rw [length_append]; rfl, hwhole.code_at.left.right.head⟩
    (hmarks.mark_cons _)

/-- A body that is never executed is sealed. -/
lemma Inside.sealed (hin : Inside settings role a b) (hfits : Fits settings code a)
    (hdead : role.IsDead) :
    ∃ lo L, lo ≤ b.place ∧ Sealed code ∅ lo (b.place + (b.code settings).length) L := by
  have hb := hfits.inside hin
  suffices hbehind : (∃ p l, b.place = p + 1 ∧ code[p]? = some (.jump l)) ∨
    ∃ condition, role = .elseBody condition by
    rcases hbehind with hbehind | ⟨condition, rfl⟩
    · obtain ⟨L, hsealed⟩ := hb.sealed hbehind
      exact ⟨b.place, L, le_refl _, hsealed⟩
    · cases hin with
      | elseBody he hbody => exact hfits.sealed_else he hbody hdead
  obtain ⟨c, s', hyields, hnested⟩ := hfits
  have hat := hnested.code_at
  cases hin with
  | item | sequence | inner | clause => cases hdead
  | elseBody => exact .inr ⟨_, rfl⟩
  | onlyBody hrest hbody =>
    rw [hbody, yields_statements_singleton] at hyields
    obtain ⟨c1, s1, c2, hcond, -, rfl⟩ := conditional_none_parts (yields_only hrest hyields)
    obtain rfl := cond_of_isKnown hdead hcond
    exact .inl (behind_jump [] hat.left (yields_freshLabel_bind.mpr hcond))
  | thenBody he hbody =>
    rw [hbody, yields_statements_singleton] at hyields
    obtain ⟨c1, s1, c2, s2, c3, hcond, -, -, rfl⟩ :=
      conditional_some_parts (yields_alternative he hyields)
    obtain rfl := cond_of_isKnown hdead hcond
    exact .inl (behind_jump [] hat.left.left.left
      (yields_freshLabel_bind.mpr (yields_freshLabel_bind.mpr hcond)))
  | loopBody hbody =>
    rw [hbody, yields_statements_singleton] at hyields
    obtain ⟨c1, s1, c2, hcond, -, rfl⟩ := loop_parts (yields_loop hyields)
    obtain rfl := cond_of_isKnown hdead hcond
    exact .inl (behind_jump [.mark _] hat (yields_beforeLoop hcond))

/-! ## Values that are tested again -/

/-- A value is compared with an operand at two places, and only other comparisons of the operand are
in between. -/
structure Retested (code : List Instr) (v : Operand) (w : Int64) (first again : Nat) : Prop where
  lt : first < again
  first_test : ∃ l, code[first]? = some (.jumpIf .eq v (.const w) l)
  between : ∀ q, first < q → q < again → ∃ u l, code[q]? = some (.jumpIf .eq v (.const u) l)
  again_test : ∃ l, code[again]? = some (.jumpIf .eq v (.const w) l)

section Retests

variable {index : LabelIndex} {first again : Nat} {m m1 : Machine}

/-- A comparison stands at each place up to the second of two tests. -/
lemma Retested.test (h : Retested code v w first again) {q} (hlower : first ≤ q)
    (hupper : q ≤ again) :
    ∃ u l, code[q]? = some (.jumpIf .eq v (.const u) l) := by
  rcases hlower.eq_or_lt with rfl | hlower
  · exact ⟨w, h.first_test⟩
  · rcases hupper.eq_or_lt with rfl | hupper
    · exact ⟨w, h.again_test⟩
    · exact h.between q hlower hupper

/-- A test goes to its label if the operand has the value, and on if not. -/
lemma step_test (hindex : labelIndex code = .ok index) (hcheck : checkLabels code = .ok ()) {u}
    (hi : code[m.next]? = some (.jumpIf .eq v (.const u) l))
    (hstep : m.step index (.jumpIf .eq v (.const u) l) = .ok m1) :
    (m.read (some v) = .ok u ∧ MarkedAt code l.name m1.next) ∨
      (m.read (some v) ≠ .ok u ∧ m1 = { m with next := m.next + 1 }) := by
  obtain ⟨b, hb, hm1⟩ := bind_eq_ok hstep
  obtain ⟨x, hx, hb⟩ := bind_eq_ok hb
  obtain rfl : (x == u) = b := Except.ok.inj hb
  obtain rfl := Except.ok.inj hm1
  rw [hx]
  by_cases heq : x = u
  · subst heq
    obtain ⟨index', hindex', hjumps⟩ := bind_eq_ok hcheck
    obtain rfl := Except.ok.inj (hindex.symm.trans hindex')
    obtain ⟨l', j, hl', hj⟩ := checkJumpsFrom_eq_ok_iff.mp hjumps _ (mem_of_getElem? hi) rfl
    obtain rfl := Option.some.inj hl'
    have hplace : place index (some l) = j := by rw [place, hj, Option.getD_some]
    refine .inl ⟨rfl, ?_⟩
    rw [beq_self_eq_true, if_pos rfl]
    exact hplace ▸ (labelIndex_getElem? hindex).mp hj
  · exact .inr ⟨fun h => heq (Except.ok.inj h), by simp [heq]⟩

/-- When the second of two tests of a value is made, the operand does not have it. -/
lemma Retested.refuted (h : Retested code v w first again) (hindex : labelIndex code = .ok index)
    (hcheck : checkLabels code = .ok ()) {i} (hi : code[m.next]? = some i)
    (hstep : m.step index i = .ok m1)
    (hm : first < m.next → m.next ≤ again → m.read (some v) ≠ .ok w) (hlower : first < m1.next)
    (hupper : m1.next ≤ again) : m1.read (some v) ≠ .ok w := by
  obtain ⟨u', l', hnext⟩ := h.test hlower.le hupper
  have hmark : ∀ name, ¬ MarkedAt code name m1.next := by
    rintro name ⟨instr, l, hinstr, hop, -⟩
    obtain rfl := Option.some.inj (hnext.symm.trans hinstr)
    cases hop
  -- no label is marked there, so control comes from the test right before
  have hbefore : m1.next = m.next + 1 := by
    have hflow := step_flows hindex hcheck hi hstep
    generalize m1.next = r at hflow hmark
    cases hflow with
    | next => rfl
    | taken _ _ _ hj => exact absurd hj (hmark _)
  obtain ⟨u, l, htest⟩ := h.test (q := m.next) (by omega) (by omega)
  obtain rfl := Option.some.inj (hi.symm.trans htest)
  rcases step_test hindex hcheck hi hstep with ⟨-, hj⟩ | ⟨hne, rfl⟩
  · exact absurd hj (hmark _)
  · rcases (Nat.le_of_lt_succ hlower).eq_or_lt with hfirst | hlater
    · obtain ⟨l0, hfirstTest⟩ := h.first_test
      rw [hfirst, htest] at hfirstTest
      cases hfirstTest
      exact hne
    · exact hm hlater (Nat.le_of_succ_le hupper)

/-- Control does not come to code that is sealed but for the second of two tests of a value. -/
lemma Sealed.not_selected {lo hi k L} (h : Sealed code {again} lo hi L)
    (htests : Retested code v w first again) (hagain : again + 1 < lo)
    (hindex : labelIndex code = .ok index) (hcheck : checkLabels code = .ok ())
    (hpath : Path code index k m m1) (hstart : m.next = 0) : m1.next ∉ Set.Ico lo hi := by
  refine (hpath.invariant (P := fun m => m.next ∉ Set.Ico lo hi ∧
    (first < m.next → m.next ≤ again → m.read (some v) ≠ .ok w)) (fun {m m1 i} hi hstep hm =>
    ⟨fun hmem => ?_, ?_⟩)
    ⟨fun hmem => ?_, fun hlt => ?_⟩).1
  · -- only the second test leads there, and only if it holds
    obtain rfl := h.gate_of_flows (step_flows hindex hcheck hi hstep) hm.1 hmem
    obtain ⟨l, htest⟩ := htests.again_test
    obtain rfl := Option.some.inj (hi.symm.trans htest)
    rcases step_test hindex hcheck hi hstep with ⟨hread, -⟩ | ⟨-, rfl⟩
    · exact hm.2 htests.lt (le_refl _) hread
    · exact Nat.not_le_of_lt hagain hmem.1
  · exact htests.refuted hindex hcheck hi hstep hm.2
  · rw [hstart] at hmem
    exact Nat.not_lt_of_le hmem.1 (Nat.lt_of_le_of_lt (Nat.zero_le _) hagain)
  · omega

end Retests

/-! ## Clauses that are never selected -/

/-- A clause of a `switch` has the value of an earlier one. -/
def Role.IsRepeated : Role → Prop
  | .clause leading t => ∃ w, t.caseValue? = some w ∧ ∃ earlier ∈ leading,
      earlier.caseValue? = some w
  | .part | .thenBody _ | .elseBody _ | .loopBody _ => False

section Tests

variable {d d' : Option Label} {n n' : Nat} {labels : List Label}

/-- The tests of clauses come behind those of the clauses before them. -/
lemma DispatchCode.split {us} (h : DispatchCode v d (ts ++ us) n c labels d' n') :
    ∃ c1 labels1 d1 c2 labels2, DispatchCode v d ts n c1 labels1 d1 (n + ts.length) ∧
      DispatchCode v d1 us (n + ts.length) c2 labels2 d' n' ∧ c = c1 ++ c2 := by
  induction ts generalizing d n c labels with
  | nil => exact ⟨[], [], d, c, labels, .done, h, rfl⟩
  | cons t ts ih =>
    have hlen : n + (t :: ts).length = n + 1 + ts.length := by
      rw [length_cons, Nat.add_right_comm, Nat.add_assoc]
    rw [hlen]
    cases h with
    | case hw hrest =>
      obtain ⟨c1, labels1, d1, c2, labels2, hts, hus, rfl⟩ := ih hrest
      exact ⟨_, _, d1, c2, labels2, .case hw hts, hus, rfl⟩
    | default hrest =>
      obtain ⟨c1, labels1, d1, c2, labels2, hts, hus, rfl⟩ := ih hrest
      exact ⟨_, _, d1, c2, labels2, .default hts, hus, rfl⟩

/-- The tests of clauses begin with that of the first, if it is a case. -/
lemma DispatchCode.first {t} (h : DispatchCode v d (t :: ts) n c labels d' n')
    (hw : t.caseValue? = some w) :
    ∃ c' labels', DispatchCode v d ts (n + 1) c' labels' d' n' ∧
    c = .jumpIf .eq v (.const w) (labelOf n) :: c' := by
  cases h with
  | case hw' hrest =>
    rw [Tree.caseValue?, hw'] at hw
    cases hw
    exact ⟨_, _, hrest, rfl⟩
  | default => cases hw

/-- The tests of a `switch` around that of a clause with the value of an earlier one: the value is
tested behind `x` and again behind `y`, and only the second test jumps to the label of the clause.
-/
lemma DispatchCode.repeated {leading following clause}
    (h : DispatchCode v none (leading ++ clause :: following) n c labels d n')
    (hw : clause.caseValue? = some w)
    (hearlier : ∃ earlier ∈ leading, earlier.caseValue? = some w) :
    ∃ x k y z, c = (x ++ .jumpIf .eq v (.const w) (labelOf k) :: y) ++
        .jumpIf .eq v (.const w) (labelOf (n + leading.length)) :: z ∧
      (∀ i ∈ y, ∃ u l, i = .jumpIf .eq v (.const u) l) ∧
      JumpsTo (x ++ .jumpIf .eq v (.const w) (labelOf k) :: y)
      (Set.Ico n n' \ {n + leading.length}) ∧
      JumpsTo z (Set.Ico n n' \ {n + leading.length}) ∧
      (d = none ∨ ∃ j ∈ Set.Ico n n' \ {n + leading.length}, d = some (labelOf j)) ∧
      n + leading.length < n' := by
  obtain ⟨c1, _, d1, _, _, hleading, hrest, rfl⟩ := h.split
  obtain ⟨z, _, hfollowing, rfl⟩ := hrest.first hw
  have hlt : n + leading.length < n' := hfollowing.le
  have hbefore : Set.Ico n (n + leading.length) ⊆ Set.Ico n n' \ {n + leading.length} :=
    fun k hk => ⟨⟨hk.1, hk.2.trans hlt⟩, hk.2.ne⟩
  have hafter : Set.Ico (n + leading.length + 1) n' ⊆ Set.Ico n n' \ {n + leading.length} :=
    fun k hk => ⟨⟨by have := hk.1; omega, hk.2⟩, (Nat.lt_of_succ_le hk.1).ne'⟩
  have hdefault : d = none ∨ ∃ j ∈ Set.Ico n n' \ {n + leading.length}, d = some (labelOf j) := by
    rcases hfollowing.default_minted with rfl | ⟨j, hj, rfl⟩
    · rcases hleading.default_minted with rfl | ⟨j, hj, rfl⟩
      · exact .inl rfl
      · exact .inr ⟨j, hbefore hj, rfl⟩
    · exact .inr ⟨j, hafter hj, rfl⟩
  have hjumps := hleading.jumpsTo.mono hbefore
  obtain ⟨earlier, hmem, hw'⟩ := hearlier
  obtain ⟨ts, us, rfl⟩ := append_of_mem hmem
  obtain ⟨x, _, _, _, _, -, hmore, rfl⟩ := hleading.split
  obtain ⟨y, _, hbetween, rfl⟩ := hmore.first hw'
  refine ⟨x, _, y, z, rfl, fun i hi => ?_, hjumps, hfollowing.jumpsTo.mono hafter, hdefault, hlt⟩
  obtain ⟨u, k, -, rfl⟩ := hbetween.tests i hi
  exact ⟨u, labelOf k, rfl⟩

/-- A piece of code with two tests of a value and only tests of the operand between them. -/
lemma CodeAt.retested {code y p l'}
    (hat : CodeAt code p ((x ++ .jumpIf .eq v (.const w) l :: y) ++
      .jumpIf .eq v (.const w) l' :: z)) (hy : ∀ i ∈ y, ∃ u l, i = .jumpIf .eq v (.const u) l) :
    Retested code v w (p + x.length) (p + (x ++ .jumpIf .eq v (.const w) l :: y).length) where
  lt := by
    rw [length_append, length_cons]
    omega
  first_test := ⟨l, hat.left.right.head⟩
  between := by
    intro q hlower hupper
    obtain ⟨j, rfl⟩ := Nat.exists_eq_add_of_le (Nat.succ_le_of_lt hlower)
    have hj : j < y.length := by
      rw [length_append, length_cons] at hupper
      omega
    obtain ⟨u, l, hi⟩ := hy _ (getElem_mem hj)
    refine ⟨u, l, ?_⟩
    rw [hat.left.right.tail j hj, getElem?_eq_getElem hj, hi]
  again_test := ⟨l', hat.right.head⟩

end Tests

/-- The labels of a clause of a `switch`, with that of its mark, are not jumped to by the code
around it, if they are not by the tests. -/
lemma ClauseParts.spares {scrutinee clause leading following v d n j s2 c1 c2 c3 body c4}
    (h : ClauseParts settings s scrutinee leading clause following s' v d n s1 s2 c1 c2 c3 body c4)
    (hj : s.names.labels < j ∧ j < n) (hx : JumpsTo x (Set.Ico (s.names.labels + 1) n \ {j}))
    (hz : JumpsTo z (Set.Ico (s.names.labels + 1) n \ {j}))
    (hdefault : d = none ∨ ∃ k ∈ Set.Ico (s.names.labels + 1) n \ {j}, d = some (labelOf k)) :
    insert j (Set.Ico s1.names.labels s2.names.labels) ⊆ Set.Ico s.names.labels s'.names.labels ∧
      JumpsTo (c1 ++ x) (insert j (Set.Ico s1.names.labels s2.names.labels))ᶜ ∧
      JumpsTo (z ++ .jump (d.getD (labelOf s.names.labels)) :: c3)
        (insert j (Set.Ico s1.names.labels s2.names.labels))ᶜ ∧
      JumpsTo c4 (insert j (Set.Ico s1.names.labels s2.names.labels))ᶜ := by
  obtain ⟨hlt, hle⟩ := h.tests_le
  obtain ⟨⟨-, hle1⟩, -⟩ := statements_jumpsTo h.lowered
  have hle2 := h.body_le
  have hother : ∀ k, k ≠ j → k < s1.names.labels ∨ s2.names.labels ≤ k →
      k ∈ (insert j (Set.Ico s1.names.labels s2.names.labels))ᶜ := by
    rintro k hne hout (rfl | ⟨hlower, hupper⟩)
    · exact hne rfl
    · omega
  have htests : Set.Ico (s.names.labels + 1) n \ {j} ⊆
      (insert j (Set.Ico s1.names.labels s2.names.labels))ᶜ :=
    fun k hk => hother k hk.2 (.inl (lt_of_lt_of_le hk.1.2 hle))
  have hend : s.names.labels ∈ (insert j (Set.Ico s1.names.labels s2.names.labels))ᶜ :=
    hother _ hj.1.ne (.inl (by omega))
  refine ⟨?_, (h.first_jumps.mono (Set.empty_subset _)).append (hx.mono htests),
    (hz.mono htests).append ?_, h.last_jumps.mono ?_⟩
  · rintro k (rfl | ⟨hlower, hupper⟩) <;> constructor <;> omega
  · have hleading : JumpsTo c3 (insert j (Set.Ico s1.names.labels s2.names.labels))ᶜ := by
      refine h.leading_jumps.mono ?_
      rintro k (rfl | ⟨hlower, hupper⟩)
      · exact hend
      · exact hother k (by omega) (.inl hupper)
    rcases hdefault with rfl | ⟨k, hk, rfl⟩
    · exact hleading.jump_cons hend
    · exact hleading.jump_cons (htests hk)
  · rintro k (rfl | ⟨hlower, hupper⟩)
    · exact hend
    · exact hother k (by omega) (.inr hlower)

/-- The clause of a `switch` with the value of an earlier one is sealed together with its mark, but
for the test of its value, which has been tested before. -/
lemma Inside.sealed_clause (hin : Inside settings role a b) (hfits : Fits settings code a)
    (hrepeated : role.IsRepeated) : ∃ p l v w first again L, b.place = p + 1 ∧
    code[p]? = some (.mark l) ∧
      Retested code v w first again ∧ again + 1 < p ∧
        Sealed code {again} p (b.place + (b.code settings).length) L := by
  obtain ⟨c, s', hyields, hnested⟩ := hfits
  cases hin with
  | item | sequence | inner | onlyBody | thenBody | elseBody | loopBody => cases hrepeated
  | @clause _ token value ops scrutinee leading clause following hbody =>
    rw [hbody, yields_statements_singleton] at hyields
    obtain ⟨v, d, n, s1, s2, c1, c2, c3, body, c4, hparts, rfl⟩ := clause_parts hyields
    obtain ⟨w, hw, hearlier⟩ := hrepeated
    obtain ⟨labels, htests⟩ := hparts.tests
    obtain ⟨x, k, y, z, rfl, hy, hxy, hz, hdefault, hlt⟩ := htests.repeated hw hearlier
    obtain ⟨hlabels, hbefore, hmiddle, hafter⟩ := hparts.spares ⟨by omega, hlt⟩ hxy hz hdefault
    -- the code between the second test and the clause ends with a jump
    obtain ⟨y', l', hleave⟩ := hparts.leading_leave
    have hwhole : Nested code a.place (((c1 ++ x) ++ .jumpIf .eq v (.const w) (labelOf k) :: y) ++
          .jumpIf .eq v (.const w) (labelOf (a.state.names.labels + 1 + leading.length)) ::
            (((z ++ y') ++ [.jump l']) ++
              ((.mark (labelOf (a.state.names.labels + 1 + leading.length)) :: body) ++ c4)))
        (Set.Ico a.state.names.labels s'.names.labels) := by
      rw [append_assoc z, ← hleave]
      simpa using hnested
    rw [hleave, ← append_assoc] at hmiddle
    rw [← append_assoc] at hbefore
    have hsealed := hwhole.gated hlabels hbefore hmiddle hafter
      ((statements_marks hparts.lowered).mark_cons _)
    obtain ⟨hplace, hcode⟩ := Site.after_parts hparts.before hparts.lowered
    have hlast : c3.length = y'.length := by simpa using congrArg length hleave
    have hstart : (a.after (beforeClause settings scrutinee leading clause following)
        clause.clauseStatements).place =
          a.place + ((c1 ++ x) ++ Instr.jumpIf .eq v (.const w) (labelOf k) :: y).length + 1 +
          ((z ++ y') ++ [Instr.jump l']).length + 1 := by
      rw [hplace]
      simp only [length_append, length_cons, length_nil, hlast]
      omega
    have hpositive : 0 < ((z ++ y') ++ [Instr.jump l']).length := by
      rw [length_append]
      exact Nat.succ_pos _
    refine ⟨_, _, v, w, _, _, insert (a.state.names.labels + 1 + leading.length)
      (Set.Ico s1.names.labels s2.names.labels), hstart, hwhole.code_at.right.tail.right.head,
      hwhole.code_at.retested hy, Nat.lt_add_of_pos_right hpositive, ?_⟩
    rw [hcode, hstart, Nat.add_assoc _ 1 body.length, Nat.add_comm 1]
    exact hsealed

/-- A body that is never executed is not reachable. -/
lemma Inside.not_reachable (hin : Inside settings role a b) (hfits : Fits settings code a)
    (hdead : role.IsDead) (hcheck : checkLabels code = .ok ()) : ∃ seen, reachable code = .ok seen ∧
      ∀ q ∈ Set.Ico b.place (b.place + (b.code settings).length), seen[q]? = some false := by
  have hat := (hfits.inside hin).code_at
  obtain ⟨lo, L, hlo, hsealed⟩ := hin.sealed hfits hdead
  obtain ⟨seen, hreachable, hlen, hseen⟩ := reachable_iff_accessible hcheck
  refine ⟨seen, hreachable, fun q hq => ?_⟩
  have hplace : q < seen.length := hlen ▸ hat.lt_length hq
  have hfalse : seen[q] ≠ true := by
    intro htrue
    have haccessible := ((hseen q).mp (htrue ▸ getElem?_eq_getElem hplace)).2
    exact hsealed.not_accessible ⟨hlo.trans hq.1, hq.2⟩ haccessible
  rw [getElem?_eq_getElem hplace, Bool.eq_false_of_not_eq_true hfalse]

/-- No run executes the mark or the body of a clause of a `switch` with the value of an earlier one.
-/
lemma Inside.not_executed (hin : Inside settings role a b) (hfits : Fits settings code a)
    (hrepeated : role.IsRepeated) (hcheck : checkLabels code = .ok ()) :
    ∃ p l, b.place = p + 1 ∧ code[p]? = some (.mark l) ∧
      ∀ start limit record r, run code start limit record = .finished r ∨
      run code start limit record = .stopped r →
        ∀ q ∈ r.trace, q ∉ Set.Ico p (b.place + (b.code settings).length) := by
  obtain ⟨p, l, v, w, first, again, L, hplace, hmark, htests, hagain, hsealed⟩ :=
    hin.sealed_clause hfits hrepeated
  refine ⟨p, l, hplace, hmark, fun start limit record r hrun q hq => ?_⟩
  obtain ⟨index, hindex⟩ := labelIndex_of_checkLabels hcheck
  obtain ⟨k, m, hpath, rfl⟩ := run_visited hindex hrun hq
  exact hsealed.not_selected htests hagain hindex hcheck hpath rfl

end ThreeAddress
