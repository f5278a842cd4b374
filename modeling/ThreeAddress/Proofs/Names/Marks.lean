import Mathlib.Data.List.Nodup
import ThreeAddress.Proofs.Code.Labels
import ThreeAddress.Proofs.Lowering.Follows
import ThreeAddress.Proofs.Names.Range

/-!
# Minted names are used

`Complete n code n' extra` says that `code`, whose lowering started at the names `n` and ended at
`n'`, uses up what it minted: every label of the numbers in between is marked exactly once, every
temporary of the numbers in between is written, and apart from these labels just those in `extra`
are marked, as many times as they occur there.

Complete pieces of code are put together with `Complete.append`. Labels that are minted before a
piece and marked in it are accounted for with `Complete.mint`. The main result is that the code of
every statement of the translation scheme is complete with nothing extra.
-/

namespace ThreeAddress

open List Lowering

variable {i : Instr} {code : List Instr} {n n' : Names} {l r : Nat} {v : Operand}

/-! ## Ranges of labels -/

/-- The labels numbered from `l` on, before `l'`. -/
def labelsBetween (l l' : Nat) : List Label := (List.range' l (l' - l)).map labelOf

@[simp] lemma labelsBetween_self (l : Nat) : labelsBetween l l = [] := by
  simp [labelsBetween]

lemma labelsBetween_append {m} (hlm : l ≤ m) (hmr : m ≤ r) :
    labelsBetween l m ++ labelsBetween m r = labelsBetween l r := by
  have hsplit : r - l = (m - l) + (r - m) := by omega
  simp only [labelsBetween, ← map_append]
  rw [hsplit, ← range'_append_1, Nat.add_sub_cancel' hlm]

lemma labelsBetween_cons (h : l < r) :
    labelsBetween l r = labelOf l :: labelsBetween (l + 1) r := by
  rw [← labelsBetween_append (Nat.le_succ l) h]
  simp [labelsBetween]

/-- A label is in a range if its number is. -/
lemma mem_labelsBetween {x} : x ∈ labelsBetween l r ↔ ∃ k, l ≤ k ∧ k < r ∧ x = labelOf k := by
  simp only [labelsBetween, mem_map, mem_range'_1]
  constructor
  · rintro ⟨k, ⟨hlower, hupper⟩, rfl⟩
    exact ⟨k, hlower, by omega, rfl⟩
  · rintro ⟨k, hlower, hupper, rfl⟩
    exact ⟨k, ⟨hlower, by omega⟩, rfl⟩

/-! ## Complete code -/

/-- An operand gets a value somewhere in code. -/
def Written (code : List Instr) (v : Operand) : Prop := ∃ i ∈ code, i.result = some v

/-- Code uses up the names minted for it, and marks the labels in `extra` besides. -/
structure Complete (n : Names) (code : List Instr) (n' : Names) (extra : List Label) : Prop where
  le : n ≤ n'
  marked : (marked code).Perm (extra ++ labelsBetween n.labels n'.labels)
  written : ∀ k, n.temps ≤ k → k < n'.temps → Written code (tempOf k)

section Complete

variable {n n1 n2 n' : Names} {c1 c2 code : List Instr} {extra e1 e2 : List Label}

lemma complete_of_marked (h : marked code = extra) : Complete n code n extra where
  le := le_refl n
  marked := by simp [h]
  written k hlower hupper := absurd hupper (Nat.not_lt.mpr hlower)

lemma complete_of_unmarked (h : ∀ i ∈ code, i.op ≠ .mark) : Complete n code n [] :=
  complete_of_marked (filterMap_eq_nil_iff.mpr fun i hi => if_neg (h i hi))

lemma complete_mark (l : Label) : Complete n [.mark l] n [l] := complete_of_marked rfl

lemma complete_jump_mark (l l' : Label) : Complete n [.jump l, .mark l'] n [l'] :=
    complete_of_marked rfl

/-- An instruction that writes a new temporary is complete. -/
lemma complete_write (hop : i.op ≠ .mark) (hres : i.result = some (tempOf n.temps)) :
    Complete n [i] n.addTemp [] where
  le := ⟨Nat.le_succ _, le_refl _⟩
  marked := by simp [marked_cons_of_ne hop, Names.addTemp]
  written k hlower hupper := by
    obtain rfl : k = n.temps := Nat.le_antisymm (Nat.lt_succ_iff.mp hupper) hlower
    exact ⟨i, mem_singleton_self i, hres⟩

/-- Complete pieces, one after the other, are complete. -/
lemma Complete.append (h1 : Complete n c1 n1 e1) (h2 : Complete n1 c2 n2 e2) :
    Complete n (c1 ++ c2) n2 (e1 ++ e2) where
  le := le_trans h1.le h2.le
  marked := by
    rw [marked_append, ← labelsBetween_append h1.le.labels h2.le.labels]
    refine (h1.marked.append h2.marked).trans ?_
    rw [append_assoc, append_assoc]
    refine Perm.append_left e1 ?_
    rw [← append_assoc, ← append_assoc]
    exact perm_append_comm.append_right _
  written k hlower hupper := by
    rcases Nat.lt_or_ge k n1.temps with hk | hk
    · obtain ⟨i, hi, hres⟩ := h1.written k hlower hk
      exact ⟨i, mem_append_left _ hi, hres⟩
    · obtain ⟨i, hi, hres⟩ := h2.written k hk hupper
      exact ⟨i, mem_append_right _ hi, hres⟩

/-- Labels that are minted before a piece of code, and marked in it, are no longer extra. -/
lemma Complete.mint (k : Nat) (h : Complete (n.addLabels k) code n' extra)
    (hextra : extra.Perm (e1 ++ labelsBetween n.labels (n.labels + k))) :
    Complete n code n' e1 where
  le := ⟨h.le.temps, le_trans (Nat.le_add_right _ k) h.le.labels⟩
  marked := by
    refine (h.marked.trans (hextra.append_right _)).trans ?_
    rw [append_assoc]
    exact (Perm.of_eq (labelsBetween_append (Nat.le_add_right _ k) h.le.labels)).append_left e1
  written := h.written

end Complete

/-! ## Completeness of the scheme -/

/-- What writes a truth value marks three labels and mints nothing. -/
lemma complete_valueCode {target} (k : Nat) :
    Complete n (valueCode target k) n (labelsBetween k (k + 3)) := by
  refine complete_of_marked ?_
  simp [valueCode, labelsBetween, marked_cons_of_ne, Instr.copy, Instr.jump, range']

/-- A condition whose truth value is written to a new temporary is complete. -/
lemma complete_boolean (h : Complete (n.addTemp.addLabels 3) code n' []) :
    Complete n (code ++ valueCode (tempOf n.temps) n.labels) n' [] := by
  have hval : Complete n.addTemp (code ++ valueCode (tempOf n.temps) n.labels) n' [] :=
    (h.append (complete_valueCode n.labels)).mint 3 (by simp [Names.addTemp])
  refine ⟨⟨le_trans (Nat.le_succ _) hval.le.temps, hval.le.labels⟩, hval.marked,
    fun k hlower hupper => ?_⟩
  rcases Nat.lt_or_ge n.temps k with hk | hk
  · exact hval.written k hk hupper
  · obtain rfl : k = n.temps := Nat.le_antisymm hk hlower
    exact ⟨.copy (tempOf n.temps) (.const 1), mem_append_right _ (by simp [valueCode]), rfl⟩

mutual

/-- The code of a numeric expression is complete. -/
lemma NumberCode.complete {Γ t n v code n'} (l : Nat) (h : NumberCode Γ t n v code n') :
    Complete ⟨n, l⟩ code ⟨n', l⟩ [] := by
  match h with
  | .wrapper _ hinner | .unsigned _ hinner => exact hinner.complete l
  | .literal _ | .variable _ => exact complete_of_marked rfl
  | .chain _ hfirst hrest => exact (hfirst.complete l).append (hrest.complete l)
  | .negated _ hinner => exact (hinner.complete l).append (complete_write nofun rfl)

/-- The code of the rest of a chain is complete. -/
lemma ChainCode.complete {Γ kind acc ops operands n v code n'} (l : Nat)
    (h : ChainCode Γ kind acc ops operands n v code n') : Complete ⟨n, l⟩ code ⟨n', l⟩ [] := by
  match h with
  | .done => exact complete_of_marked rfl
  | .more hop hoperand hrest =>
    have hmark := ne_mark_of_isBinary (isBinary_of_arithOpcode hop)
    exact (hoperand.complete l).append
      (Complete.append (complete_write hmark rfl) (hrest.complete l))

end

mutual

/-- The code of a condition is complete. -/
lemma ConditionCode.complete {Γ t e n code n'} (h : ConditionCode Γ t e n code n') :
    Complete n code n' [] := by
  match h with
  | .wrapper _ hinner => exact hinner.complete
  | .negation _ hinner => exact hinner.complete
  | .literal _ => exact complete_of_unmarked fun i hi => (jumps_jumpCode _ i hi).op_ne_mark
  | .variable _ => exact complete_of_unmarked fun i hi => (jumps_branchCode _ _ _ _ i hi).op_ne_mark
  | .numbers _ hleft hright =>
    exact ((hleft.complete n.labels).append (hright.complete n.labels)).append
      (complete_of_unmarked fun i hi => (jumps_branchCode _ _ _ _ i hi).op_ne_mark)
  | .booleans _ hleft hright =>
    exact ((complete_boolean hleft.complete).append (complete_boolean hright.complete)).append
      (complete_of_unmarked fun i hi => (jumps_branchCode _ _ _ _ i hi).op_ne_mark)
  | .logic hchain => exact hchain.complete

/-- The code of a chain of conditions is complete. -/
lemma LogicCode.complete {Γ ops operands e n code n'} (h : LogicCode Γ ops operands e n code n') :
    Complete n code n' [] := by
  match h with
  | .last hlast => exact hlast.complete
  | .leaving _ _ hleft hrest =>
    exact (hleft.complete.append ((complete_mark _).append hrest.complete)).mint 1
      (by simp [labelsBetween])
  | .skipping _ _ hleft hrest =>
    exact (hleft.complete.append ((complete_mark _).append
      (hrest.complete.append (complete_mark _)))).mint 2 (by simp [labelsBetween, range'])

end

/-- The code of the scrutinee of a `switch` is complete. -/
lemma ScrutineeCode.complete {Γ t n n'} (l : Nat) (h : ScrutineeCode Γ t n v code n') :
    Complete ⟨n, l⟩ code ⟨n', l⟩ [] := by
  cases h with
  | computed hval => exact hval.complete l
  | copied hval _ => exact (hval.complete l).append (complete_write nofun rfl)

/-- The labels of the clauses of a `switch` are those minted for them. -/
lemma DispatchCode.labels_eq {d d' clauses n n' labels}
    (h : DispatchCode v d clauses n code labels d' n') :
    labels = labelsBetween n n' := by
  induction h with
  | done => exact (labelsBetween_self _).symm
  | case _ hrest ih | default hrest ih => rw [ih, labelsBetween_cons hrest.le]

/-- A `switch` is complete if its parts are: the labels of its clauses and of its end are minted
before the clauses and marked in them. -/
lemma complete_selection {d clauses c1 c2 c3 n1 n2 labels}
    (hscrut : Complete n c1 ⟨n1, n.labels⟩ [])
    (hdisp : DispatchCode v none clauses (n.labels + 1) c2 labels d n2)
    (hclauses : Complete ⟨n1, n2⟩ c3 n' labels) :
    Complete n (c1 ++ c2 ++ [.jump (d.getD (labelOf n.labels))] ++ c3 ++
      [.mark (labelOf n.labels)]) n' [] := by
  have hle := hdisp.le
  obtain rfl := hdisp.labels_eq
  obtain ⟨k, rfl⟩ := Nat.exists_eq_add_of_le (Nat.le_of_succ_le hle)
  have htests : Complete (⟨n1, n.labels⟩ : Names)
      (c2 ++ [.jump (d.getD (labelOf n.labels))]) _ [] :=
    complete_of_unmarked fun i hi => by
      rcases mem_append.mp hi with hi | hi
      · exact (hdisp.jumps i hi).op_ne_mark
      · obtain rfl := mem_singleton.mp hi
        exact nofun
  have hend : Complete (⟨n1, n.labels⟩ : Names) (c3 ++ [.mark (labelOf n.labels)]) n' [] := by
    refine (hclauses.append (complete_mark (labelOf n.labels))).mint k ?_
    rw [nil_append, labelsBetween_cons hle]
    exact perm_append_singleton _ _
  have hall := (hscrut.append htests).append hend
  simpa using hall

mutual

/-- The code of a statement is complete. -/
theorem StatementCode.complete {settings Γ t n code n'} (h : StatementCode settings Γ t n code n') :
    Complete n code n' [] := by
  match h with
  | .sequence _ hchildren => exact hchildren.complete
  | .declaration | .empty => exact complete_of_marked rfl
  | .inner ht => exact ht.complete
  | .boolAssignment _ ht =>
    exact (ht.complete.append (complete_valueCode n.labels)).mint 3 (by simp)
  | .numAssignment _ ht _ =>
    exact (ht.complete n.labels).append (complete_of_unmarked fun i hi => by simp_all [Instr.copy])
  | .selfAssignment _ ht _ => exact ht.complete n.labels
  | .conditional _ hcond hthen =>
    exact ((hcond.complete.append hthen.complete).append (complete_mark _)).mint 1
      (by simp [labelsBetween])
  | .alternative hcond hthen helse =>
    have hbodies := ((hcond.complete.append hthen.complete).append
      (complete_jump_mark (labelOf (n.labels + 1)) (labelOf n.labels))).append helse.complete
    exact (hbodies.append (complete_mark _)).mint 2 (by simp [labelsBetween, range'])
  | .loop hcond hbody =>
    have hbody' := (hcond.complete.append hbody.complete).append
      (complete_jump_mark (labelOf n.labels) (labelOf (n.labels + 1)))
    exact ((complete_mark _).append hbody').mint 2 (by simp [labelsBetween, range'])
  | .selection hscrut hdisp hclauses =>
    exact complete_selection (hscrut.complete n.labels) hdisp hclauses.complete

/-- The code of several statements is complete. -/
lemma StatementsCode.complete {settings Γ ts n code n'}
    (h : StatementsCode settings Γ ts n code n') :
    Complete n code n' [] := by
  match h with
  | .nil => exact complete_of_marked rfl
  | .cons ht hts => exact ht.complete.append hts.complete

/-- The code of the clauses of a `switch` is complete, and marks their labels. -/
lemma ClausesCode.complete {settings Γ done labels clauses n code n'}
    (h : ClausesCode settings Γ done labels clauses n code n') : Complete n code n' labels := by
  match h with
  | .nil => exact complete_of_marked rfl
  | .cons hbody hrest =>
    exact (complete_mark _).append ((hbody.complete.append (complete_of_unmarked fun i hi =>
      (jumps_leaveCode _ _ i hi).op_ne_mark)).append hrest.complete)

end

/-! ## Generated programs -/

lemma nodup_map_name_labelsBetween (l l' : Nat) : ((labelsBetween l l').map Label.name).Nodup := by
  rw [labelsBetween, map_map]
  exact Nodup.map (fun j k h => labelOf_name_inj h) nodup_range'

/-- Complete code that keeps to its names passes the check of labels. -/
lemma checkLabels_of_complete (hcomplete : Complete n code n' [])
    (hwithin : ∀ i ∈ code, i.Within n n') : checkLabels code = .ok () := by
  have hperm : (marked code).Perm (labelsBetween n.labels n'.labels) := hcomplete.marked
  refine checkLabels_eq_ok (fun i hi hop => ?_) ?_ fun i hi hjump => ?_
  · obtain ⟨k, -, -, rfl⟩ := (hwithin i hi).of_mark hop
    exact ⟨labelOf k, rfl⟩
  · exact (hperm.map Label.name).nodup_iff.mpr (nodup_map_name_labelsBetween _ _)
  · obtain ⟨k, hlower, hupper, htarget⟩ := (hwithin i hi).of_jump hjump
    have hmem : labelOf k ∈ marked code :=
      hperm.mem_iff.mpr (mem_labelsBetween.mpr ⟨k, hlower, hupper, rfl⟩)
    exact ⟨labelOf k, htarget, mem_map_of_mem hmem⟩

section Programs

variable {settings : Settings} {root : Tree} {s : LowerState}

section

variable (h : (lower settings root s).outcome = .ok ())
include h

/-- The code of a program that is lowered is complete. -/
theorem lower_complete :
    Complete s.names (lower settings root s).code (lower settings root s).state.names [] :=
  (lower_follows (yields_of_outcome h)).1.complete

/-- The code of a program that is lowered passes the check of labels. -/
theorem lower_checkLabels : checkLabels (lower settings root s).code = .ok () :=
  checkLabels_of_complete (lower_complete h) (lower_within settings root s).2

/-- Every jump of lowered code goes to a minted label, which is marked. -/
lemma lower_targets : ∀ i ∈ (lower settings root s).code, i.op.isJump = true →
      ∃ k, i.target = some (labelOf k) ∧ .mark (labelOf k) ∈ (lower settings root s).code := by
  intro i hi hjump
  have hwithin := (lower_within settings root s).2
  obtain ⟨k, hlower, hupper, htarget⟩ := (hwithin i hi).of_jump hjump
  have hmarked : labelOf k ∈ marked (lower settings root s).code :=
    (lower_complete h).marked.mem_iff.mpr (mem_labelsBetween.mpr ⟨k, hlower, hupper, rfl⟩)
  refine ⟨k, htarget, ?_⟩
  rw [← count_pos_iff] at hmarked ⊢
  rwa [count_mark fun i hi hop => ?_]
  obtain ⟨j, -, -, hj⟩ := (hwithin i hi).of_mark hop
  exact ⟨labelOf j, hj⟩

end

@[simp] lemma generate_state :
    (generate settings s root).state = (lower settings root s).state := rfl

/-- A program is generated when it can be lowered. -/
lemma generate_of_ok (h : (lower settings root s).outcome = .ok ()) :
    ∃ p, (generate settings s root).outcome = .ok p ∧ p.code = (lower settings root s).code := by
  simp only [generate, h, lower_checkLabels h]
  split <;> exact ⟨_, rfl, rfl⟩

lemma generate_of_error {stop} (h : (lower settings root s).outcome = .error stop) :
    (generate settings s root).outcome = .error (.stopped stop) := by
  simp only [generate, h]

/-- A generated program has the code that lowering emits. -/
lemma lower_of_generate {p} (h : (generate settings s root).outcome = .ok p) :
    (lower settings root s).outcome = .ok () ∧ p.code = (lower settings root s).code := by
  cases hlower : (lower settings root s).outcome with
  | ok u =>
    obtain ⟨p', hp', hcode⟩ := generate_of_ok hlower
    rw [hp'] at h
    cases h
    exact ⟨rfl, hcode⟩
  | error stop =>
    rw [generate_of_error hlower] at h
    cases h

end Programs

end ThreeAddress
