import Mathlib.Tactic.Common
import ThreeAddress.Code.Labels

/-!
# Marked labels

The labels that code marks, in order, decide whether its labels pass the check: they do if no name
is marked twice and every jump goes to a marked name. The index of the labels then sends every name
to the place of its mark.
-/

namespace ThreeAddress

open List

variable {index : LabelIndex} {code : List Instr}

/-! ## Marks -/

/-- The labels that code marks, in order. -/
def marked (code : List Instr) : List Label :=
  code.filterMap fun i => if i.op = .mark then i.target else none

@[simp] lemma marked_append (c1 c2 : List Instr) : marked (c1 ++ c2) = marked c1 ++ marked c2 :=
    filterMap_append

@[simp] lemma marked_nil : marked [] = [] := rfl

@[simp] lemma marked_mark (l : Label) (code : List Instr) :
    marked (.mark l :: code) = l :: marked code := rfl

lemma marked_cons_of_ne {i} (h : i.op ≠ .mark) (code : List Instr) :
    marked (i :: code) = marked code := by
  simp [marked, h]

/-- If marks consist of their labels only, a label is marked as often as its mark occurs. -/
lemma count_mark (h : ∀ i ∈ code, i.op = .mark → ∃ l, i = .mark l) (l : Label) :
    code.count (.mark l) = (marked code).count l := by
  induction code with
  | nil => rfl
  | cons i code ih =>
    obtain ⟨hhead, htail⟩ := forall_mem_cons.mp h
    rw [count_cons, ih htail]
    by_cases hmark : i.op = .mark
    · obtain ⟨l', rfl⟩ := hhead hmark
      rw [marked_mark, count_cons]
      simp [Instr.mark]
    · rw [marked_cons_of_ne hmark]
      have hne : i ≠ .mark l := fun heq => hmark (heq ▸ rfl)
      simp [hne]

/-! ## Marks of a name -/

/-- The instruction at a place marks a label with a name. -/
def MarkedAt (code : List Instr) (name : String) (j : Nat) : Prop :=
  ∃ instr l, code[j]? = some instr ∧ instr.op = .mark ∧ instr.target = some l ∧ l.name = name

/-- Some name is marked at two places. -/
def MarkedTwice (code : List Instr) : Prop :=
  ∃ name i j, i < j ∧ MarkedAt code name i ∧ MarkedAt code name j

section Marks

variable {instr : Instr} {name : String} {i j : Nat} {index' : LabelIndex}

@[simp] lemma markedAt_cons_succ : MarkedAt (instr :: code) name (j + 1) ↔
    MarkedAt code name j := by
  simp only [MarkedAt, getElem?_cons_succ]

@[simp] lemma markedAt_cons_zero :
    MarkedAt (instr :: code) name 0 ↔ instr.op = .mark ∧ ∃ l, instr.target = some l ∧
    l.name = name := by
  constructor
  · rintro ⟨_, l, hinstr, hop, hl, hname⟩
    cases hinstr
    exact ⟨hop, l, hl, hname⟩
  · rintro ⟨hop, l, hl, hname⟩
    exact ⟨instr, l, rfl, hop, hl, hname⟩

@[simp] lemma not_markedAt_nil : ¬ MarkedAt [] name j := by
  rintro ⟨_, _, hj, -⟩
  simp at hj

/-- The index has the places it had and those of the marks that come after. -/
lemma labelIndexFrom_getElem? (h : labelIndexFrom i index code = .ok index') :
    index'[name]? = some j ↔ index[name]? = some j ∨ ∃ k, j = i + k ∧ MarkedAt code name k := by
  induction code generalizing i index with
  | nil =>
    cases h
    simp
  | cons instr code ih =>
    -- a mark in the tail is one place further on, seen from the whole code
    have hshift : (∃ k, j = i + k ∧ MarkedAt (instr :: code) name k) ↔
        (j = i ∧ MarkedAt (instr :: code) name 0) ∨ ∃ k, j = i + 1 + k ∧ MarkedAt code name k := by
      constructor
      · rintro ⟨k, rfl, hk⟩
        cases k with
        | zero => exact .inl ⟨rfl, hk⟩
        | succ k => exact .inr ⟨k, by omega, markedAt_cons_succ.mp hk⟩
      · rintro (⟨rfl, hzero⟩ | ⟨k, rfl, hk⟩)
        · exact ⟨0, rfl, hzero⟩
        · exact ⟨k + 1, by omega, markedAt_cons_succ.mpr hk⟩
    rw [hshift, markedAt_cons_zero]
    simp only [labelIndexFrom] at h
    split at h
    · rename_i hmark
      split at h
      · cases h
      · rename_i l hl
        split at h
        · cases h
        · rename_i hnew
          rw [ih h, Std.TreeMap.getElem?_insert]
          by_cases hname : l.name = name
          · have hnone : index[name]? = none := by
              rw [← hname, Std.TreeMap.getElem?_eq_none]
              exact mt Std.TreeMap.mem_iff_contains.mp hnew
            simp [hname, hmark, hl, hnone, eq_comm]
          · simp [hname, hl]
    · rename_i hmark
      rw [ih h]
      simp [hmark]

lemma labelIndex_getElem? (h : labelIndex code = .ok index) : index[name]? = some j ↔
    MarkedAt code name j := by
  rw [labelIndexFrom_getElem? h]
  simp

/-- If marks have their labels, what prevents an index is a name that is in it already or is marked
twice. -/
lemma labelIndexFrom_eq_error {e} (h : labelIndexFrom i index code = .error e)
    (htarget : ∀ instr ∈ code, instr.op = .mark → ∃ l, instr.target = some l) :
    ∃ name k, e = .duplicateLabel name (i + k) ∧ MarkedAt code name k ∧
      (index.contains name = true ∨ ∃ j < k, MarkedAt code name j) := by
  induction code generalizing i index with
  | nil => cases h
  | cons instr code ih =>
    obtain ⟨hhead, htail⟩ := forall_mem_cons.mp htarget
    have hcode : ∀ {index1 : LabelIndex}, labelIndexFrom (i + 1) index1 code = .error e →
        (∀ name, index1.contains name = true → index.contains name = true ∨
          MarkedAt (instr :: code) name 0) →
        ∃ name k, e = .duplicateLabel name (i + k) ∧ MarkedAt (instr :: code) name k ∧
          (index.contains name = true ∨ ∃ j < k, MarkedAt (instr :: code) name j) := by
      intro index1 h1 hold
      obtain ⟨name, k, rfl, hk, hbefore⟩ := ih h1 htail
      refine ⟨name, k + 1, by rw [Nat.add_assoc, Nat.add_comm 1], markedAt_cons_succ.mpr hk, ?_⟩
      rcases hbefore with hcontains | ⟨j, hj, hmarked⟩
      · rcases hold name hcontains with hcontains | hzero
        · exact .inl hcontains
        · exact .inr ⟨0, Nat.succ_pos k, hzero⟩
      · exact .inr ⟨j + 1, Nat.succ_lt_succ hj, markedAt_cons_succ.mpr hmarked⟩
    simp only [labelIndexFrom] at h
    split at h
    · rename_i hmark
      obtain ⟨l, hl⟩ := hhead hmark
      have hzero : MarkedAt (instr :: code) l.name 0 := markedAt_cons_zero.mpr ⟨hmark, l, hl, rfl⟩
      simp only [hl] at h
      split at h
      · rename_i hold
        obtain rfl := Except.error.inj h
        exact ⟨l.name, 0, rfl, hzero, .inl hold⟩
      · refine hcode h fun name hname => ?_
        rw [Std.TreeMap.contains_insert, Bool.or_eq_true] at hname
        rcases hname with hname | hname
        · obtain rfl : l.name = name := by simpa using hname
          exact .inr hzero
        · exact .inl hname
    · exact hcode h fun name hname => .inl hname

/-- If marks have their labels, there is an index unless a name is marked twice, and then that is
the fault. -/
lemma labelIndex_cases (htarget : ∀ instr ∈ code, instr.op = .mark → ∃ l, instr.target = some l) :
    (∃ index, labelIndex code = .ok index ∧ ¬ MarkedTwice code) ∨
      ∃ name i, labelIndex code = .error (.duplicateLabel name i) ∧ MarkedTwice code := by
  cases h : labelIndex code with
  | ok index =>
    refine .inl ⟨index, rfl, ?_⟩
    rintro ⟨name, i, j, hij, hi, hj⟩
    have heq := ((labelIndex_getElem? h).mpr hi).symm.trans ((labelIndex_getElem? h).mpr hj)
    cases heq
    exact Nat.lt_irrefl i hij
  | error e =>
    obtain ⟨name, k, rfl, hk, hbefore⟩ := labelIndexFrom_eq_error h htarget
    refine .inr ⟨name, 0 + k, rfl, ?_⟩
    rcases hbefore with hcontains | ⟨j, hj, hmarked⟩
    · simp at hcontains
    · exact ⟨name, j, k, hj, hmarked, hk⟩

end Marks

/-! ## The index of the labels -/

/-- In the index of code every marked name has the place of its mark. -/
lemma labelIndex_locates (h : labelIndex code = .ok index) {j} {l : Label}
    (hj : code[j]? = some (.mark l)) :
    index[l.name]? = some j :=
  (labelIndex_getElem? h).mpr ⟨_, l, hj, rfl, rfl, rfl⟩

/-- Jumps pass the check if all of them go to labels with a place. -/
lemma checkJumpsFrom_eq_ok_iff {i} : checkJumpsFrom index i code = .ok () ↔
    ∀ instr ∈ code, instr.op.isJump = true → ∃ l place, instr.target = some l ∧
    index[l.name]? = some place := by
  induction code generalizing i with
  | nil => simp [checkJumpsFrom]
  | cons instr code ih =>
    rw [forall_mem_cons, ← ih (i := i + 1), checkJumpsFrom]
    by_cases hjump : instr.op.isJump = true
    · cases instr.target with
      | none => simp [hjump]
      | some l =>
        cases hplace : index[l.name]? <;>
          simp [hjump, hplace, Std.TreeMap.contains_eq_isSome_getElem?]
    · simp [hjump]

/-- A name that is marked is so at some place. -/
lemma exists_markedAt {name} (h : name ∈ (marked code).map Label.name) :
    ∃ j, MarkedAt code name j := by
  obtain ⟨l, hl, rfl⟩ := mem_map.mp h
  obtain ⟨instr, hinstr, htarget⟩ := mem_filterMap.mp hl
  obtain ⟨j, hj⟩ := mem_iff_getElem?.mp hinstr
  split at htarget
  · rename_i hop
    exact ⟨j, instr, l, hj, hop, htarget, rfl⟩
  · cases htarget

/-- No name is marked twice if the names of the marked labels are different. -/
lemma not_markedTwice (h : ((marked code).map Label.name).Nodup) : ¬ MarkedTwice code := by
  rintro ⟨name, i, j, hij, ⟨instr, l, hi, hop, hl, hname⟩, instr', l', hj, hop', hl', hname'⟩
  rw [Nodup, marked, map_filterMap, pairwise_filterMap, pairwise_iff_getElem] at h
  obtain ⟨hlt, rfl⟩ := List.getElem?_eq_some_iff.mp hi
  obtain ⟨hlt', rfl⟩ := List.getElem?_eq_some_iff.mp hj
  exact h i j hlt hlt' hij name (by simp [hop, hl, hname]) name (by simp [hop', hl', hname']) rfl

/-- The labels of code pass the check when no name is marked twice and jumps go to marked names. -/
theorem checkLabels_eq_ok (htarget : ∀ instr ∈ code, instr.op = .mark → ∃ l, instr.target = some l)
    (hnodup : ((marked code).map Label.name).Nodup)
    (hjumps : ∀ instr ∈ code, instr.op.isJump = true →
      ∃ l, instr.target = some l ∧ l.name ∈ (marked code).map Label.name) :
    checkLabels code = .ok () := by
  rcases labelIndex_cases htarget with ⟨index, hindex, -⟩ | ⟨-, -, -, htwice⟩
  · have hcheck : checkJumpsFrom index 0 code = .ok () := by
      refine checkJumpsFrom_eq_ok_iff.mpr fun instr hinstr hjump => ?_
      obtain ⟨l, hl, hmem⟩ := hjumps instr hinstr hjump
      obtain ⟨j, hj⟩ := exists_markedAt hmem
      exact ⟨l, j, hl, (labelIndex_getElem? hindex).mpr hj⟩
    rw [checkLabels, hindex]
    exact hcheck
  · exact absurd htwice (not_markedTwice hnodup)

/-- Code that passes the check has an index of its labels. -/
lemma labelIndex_of_checkLabels (h : checkLabels code = .ok ()) :
    ∃ index, labelIndex code = .ok index := by
  unfold checkLabels at h
  cases hindex : labelIndex code with
  | ok index => exact ⟨index, rfl⟩
  | error fault =>
    rw [hindex] at h
    cases h

end ThreeAddress
