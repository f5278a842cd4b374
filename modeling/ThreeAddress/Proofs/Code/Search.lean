import Mathlib.Logic.Relation
import ThreeAddress.Proofs.Code.Flow

/-!
# The search finds what control can reach

`Flows code i j` is an edge of the control flow, read off the code alone: from every instruction but
an unconditional jump to the next one, and from every jump to the marks of its label. `Accessible
code i` says that the edges lead from the first instruction to the place `i`.

`Search` is the search with its stack, and with no bound on the number of its turns. A derivation of
it is finite, so that it says in particular that the search ends. The bound that `reachable` sets is
never used up, because a turn either takes an index from the stack or marks an instruction and adds
at most two indices (`search_explore`). Throughout the search, what is marked and what is on the
stack is accessible; and what control can go to from a marked instruction is marked, on the stack,
or behind the code (`Explored`). At the end the stack is empty, so the marked places are the
accessible ones.
-/

namespace ThreeAddress

open List

/-! ## The flow of control -/

/-- Control can go from a place to another: to the next one, except from an unconditional jump, and
from a jump to a mark of its label. -/
inductive Flows (code : List Instr) : Nat → Nat → Prop
  | next {i instr} (hi : code[i]? = some instr) (hop : instr.op ≠ .jump) : Flows code i (i + 1)
  | taken {i instr l j} (hi : code[i]? = some instr) (hop : instr.op.isJump = true)
      (hl : instr.target = some l) (hj : MarkedAt code l.name j) : Flows code i j

/-- Control can come to a place from the first instruction. -/
def Accessible (code : List Instr) (i : Nat) : Prop := Relation.ReflTransGen (Flows code) 0 i

/-- The instruction at a place jumps to a label that is not marked. -/
def Dangling (code : List Instr) (i : Nat) : Prop :=
  ∃ instr l, code[i]? = some instr ∧ instr.op.isJump = true ∧ instr.target = some l ∧
    ∀ j, ¬ MarkedAt code l.name j

section Flow

variable {code : List Instr} {index : LabelIndex} {i j : Nat} {instr : Instr} {next : List Nat}

/-- The successors of an instruction are the places that control can go to from it. -/
lemma mem_successors_iff (hindex : labelIndex code = .ok index) (hi : code[i]? = some instr)
    (hnext : successors index i instr = .ok next) : j ∈ next ↔ Flows code i j := by
  have hflows : Flows code i j ↔ (instr.op ≠ .jump ∧ j = i + 1) ∨
      (instr.op.isJump = true ∧ ∃ l, instr.target = some l ∧ MarkedAt code l.name j) := by
    constructor
    · rintro (⟨hi', hop⟩ | ⟨hi', hop, hl, hj⟩)
      · cases hi.symm.trans hi'
        exact .inl ⟨hop, rfl⟩
      · cases hi.symm.trans hi'
        exact .inr ⟨hop, _, hl, hj⟩
    · rintro (⟨hop, rfl⟩ | ⟨hop, l, hl, hj⟩)
      · exact .next hi hop
      · exact .taken hi hop hl hj
  rw [hflows]
  unfold successors at hnext
  by_cases hjump : instr.op.isJump = true
  · rw [if_pos hjump] at hnext
    cases hl : instr.target with
    | none =>
      rw [hl] at hnext
      cases hnext
    | some l =>
      rw [hl] at hnext
      cases hplace : index[l.name]? with
      | none =>
        simp only [hplace] at hnext
        cases hnext
      | some target =>
        have hmarked : MarkedAt code l.name j ↔ j = target := by
          rw [← labelIndex_getElem? hindex, hplace, Option.some.injEq, eq_comm]
        simp only [hplace] at hnext
        cases hnext
        by_cases hop : instr.op = .jump
        · simp [hop, hmarked, Opcode.isJump]
        · simp [hop, hjump, hmarked, or_comm]
  · rw [if_neg hjump] at hnext
    cases hnext
    have hop : instr.op ≠ .jump := fun h => hjump (h ▸ rfl)
    simp [hjump, hop]

/-- If jumps have their labels, an instruction has successors or jumps to a label that is not
marked. -/
lemma successors_cases (hindex : labelIndex code = .ok index) (hi : code[i]? = some instr)
    (htarget : instr.op.isJump = true → ∃ l, instr.target = some l) :
    (∃ next, successors index i instr = .ok next ∧ ¬ Dangling code i) ∨
      ∃ name, successors index i instr = .error (.unmarkedLabel name) ∧ Dangling code i := by
  have hdangling : Dangling code i ↔
      instr.op.isJump = true ∧ ∃ l, instr.target = some l ∧ ∀ j, ¬ MarkedAt code l.name j := by
    constructor
    · rintro ⟨instr', l, hi', hrest⟩
      cases hi.symm.trans hi'
      exact ⟨hrest.1, l, hrest.2⟩
    · rintro ⟨hjump, l, hl, hunmarked⟩
      exact ⟨instr, l, hi, hjump, hl, hunmarked⟩
  rw [hdangling]
  unfold successors
  by_cases hjump : instr.op.isJump = true
  · obtain ⟨l, hl⟩ := htarget hjump
    rw [if_pos hjump, hl]
    cases hplace : index[l.name]? with
    | none =>
      simp only [hplace]
      refine .inr ⟨l.name, rfl, hjump, l, rfl, fun j hj => ?_⟩
      rw [← labelIndex_getElem? hindex, hplace] at hj
      cases hj
    | some target =>
      simp only [hplace]
      refine .inl ⟨_, rfl, ?_⟩
      rintro ⟨-, l', hl', hunmarked⟩
      cases hl'
      exact hunmarked target ((labelIndex_getElem? hindex).mp hplace)
  · rw [if_neg hjump]
    exact .inl ⟨_, rfl, fun h => hjump h.1⟩

lemma Accessible.step (h : Accessible code i) (hflow : Flows code i j) : Accessible code j :=
  Relation.ReflTransGen.tail h hflow

end Flow

/-! ## The search -/

/-- The search, with the indices on its stack and the marks made so far, comes to a result. -/
inductive Search (code : List Instr) (index : LabelIndex) :
    List Nat → Array Bool → Except CodeFault (Array Bool) → Prop
  | done {seen} : Search code index [] seen (.ok seen)
  | outside {i work seen result} (hi : code[i]? = none)
      (hrest : Search code index work seen result) :
      Search code index (i :: work) seen result
  | again {i work seen result} (hi : seen[i]? = some true)
      (hrest : Search code index work seen result) :
      Search code index (i :: work) seen result
  | fault {i instr work seen e} (hi : code[i]? = some instr) (hseen : seen[i]? = some false)
      (he : successors index i instr = .error e) : Search code index (i :: work) seen (.error e)
  | visit {i instr next work seen result} (hi : code[i]? = some instr)
      (hseen : seen[i]? = some false) (hnext : successors index i instr = .ok next)
      (hrest : Search code index (next.reverse ++ work) (seen.setIfInBounds i true) result) :
      Search code index (i :: work) seen result

section Search

variable {code : List Instr} {index : LabelIndex} {work : List Nat} {seen seen' : Array Bool}

lemma length_successors_le {i instr next} (h : successors index i instr = .ok next) :
    next.length ≤ 2 := by
  unfold successors at h
  repeat' split at h
  all_goals cases h
  all_goals simp

/-- A place that is marked for the first time is one fewer that is not marked. -/
lemma count_setIfInBounds {i} (h : seen[i]? = some false) :
    (seen.setIfInBounds i true).count false + 1 = seen.count false := by
  obtain ⟨hi, hfalse⟩ := Array.getElem?_eq_some_iff.mp h
  have hpos : 0 < seen.count false := Array.count_pos_iff.mpr (hfalse ▸ Array.getElem_mem hi)
  rw [Array.setIfInBounds, dif_pos hi, Array.count_set, hfalse]
  simp only [beq_self_eq_true, if_true, show (true == false) = false from rfl,
    Bool.false_eq_true, if_false]
  omega

/-- With enough turns the search comes to its own result. -/
lemma search_explore (turns : Nat) (hsize : seen.size = code.length)
    (hturns : 2 * seen.count false + work.length ≤ turns) :
    Search code index work seen (explore code.toArray index turns work seen) := by
  induction turns generalizing work seen with
  | zero =>
    obtain rfl : work = [] := eq_nil_of_length_eq_zero (by omega)
    exact .done
  | succ turns ih =>
    cases work with
    | nil => exact .done
    | cons i work =>
      rw [length_cons] at hturns
      rw [explore]
      simp only [List.getElem?_toArray]
      cases hi : code[i]? with
      | none => exact .outside hi (ih hsize (by omega))
      | some instr =>
        have hlt : i < seen.size := hsize ▸ (List.getElem?_eq_some_iff.mp hi).1
        have hget : seen[i]? = some (seen.getD i true) := by
          simp [Array.getD_eq_getD_getElem?, hlt]
        cases hval : seen.getD i true with
        | true =>
          rw [hval] at hget
          exact .again hget (ih hsize (by omega))
        | false =>
          rw [hval] at hget
          cases hnext : successors index i instr with
          | error e =>
            simp only [hnext]
            exact .fault hi hget hnext
          | ok next =>
            simp only [hnext]
            refine .visit hi hget hnext (ih (Array.size_setIfInBounds.trans hsize) ?_)
            have hcount := count_setIfInBounds hget
            have hlen := length_successors_le hnext
            simp only [length_append, length_reverse]
            omega

/-- Where the search is: what is marked or on the stack is accessible, and control that leaves a
marked place, none of which jumps to an unmarked label, comes to a marked place, to one on the
stack, or behind the code. -/
structure Explored (code : List Instr) (work : List Nat) (seen : Array Bool) : Prop where
  size : seen.size = code.length
  stacked : ∀ i ∈ work, Accessible code i
  marked : ∀ i : Nat, seen[i]? = some true → Accessible code i ∧ ¬ Dangling code i
  closed : ∀ i j, seen[i]? = some true → Flows code i j → seen[j]? = some true ∨
    j ∈ work ∨ code.length ≤ j
  start : seen[0]? = some true ∨ 0 ∈ work ∨ code.length = 0

/-- The search starts with the first place on its stack and nothing marked. -/
lemma explored_start (code : List Instr) :
    Explored code [0] (Array.replicate code.length false) where
  size := Array.size_replicate
  stacked i hi := by
    obtain rfl := mem_singleton.mp hi
    exact .refl
  marked i hi := by simp [Array.getElem?_replicate] at hi
  closed i j hi _ := by simp [Array.getElem?_replicate] at hi
  start := .inr (.inl mem_cons_self)

/-- An index that is marked or behind the code may be taken from the stack. -/
lemma Explored.drop {i} (h : Explored code (i :: work) seen)
    (hi : seen[i]? = some true ∨ code.length ≤ i) :
    Explored code work seen where
  size := h.size
  stacked j hj := h.stacked j (mem_cons_of_mem _ hj)
  marked := h.marked
  closed a b ha hab := by
    rcases h.closed a b ha hab with hb | hb | hb
    · exact .inl hb
    · rcases mem_cons.mp hb with rfl | hb
      · exact hi.imp_right .inr
      · exact .inr (.inl hb)
    · exact .inr (.inr hb)
  start := by
    rcases h.start with hzero | hzero | hzero
    · exact .inl hzero
    · rcases mem_cons.mp hzero with rfl | hzero
      · exact hi.imp_right fun hlen => .inr (Nat.le_zero.mp hlen)
      · exact .inr (.inl hzero)
    · exact .inr (.inr hzero)

/-- An instruction that is visited is marked, and its successors are put on the stack. -/
lemma Explored.visit (hindex : labelIndex code = .ok index) {i instr next}
    (h : Explored code (i :: work) seen) (hi : code[i]? = some instr)
    (hnext : successors index i instr = .ok next) (hdangling : ¬ Dangling code i) :
    Explored code (next.reverse ++ work) (seen.setIfInBounds i true) := by
  have hlt : i < seen.size := h.size ▸ (List.getElem?_eq_some_iff.mp hi).1
  have hmem : ∀ j : Nat, (seen.setIfInBounds i true)[j]? = some true ↔ j = i ∨
      seen[j]? = some true := by
    intro j
    by_cases hj : i = j
    · simp [hj, hj ▸ hlt]
    · simp [hj, Ne.symm hj]
  have hi' : Accessible code i := h.stacked i mem_cons_self
  -- a place that was marked or on the stack is now marked or on the stack
  have hkept : ∀ j, seen[j]? = some true ∨ j ∈ i :: work ∨ code.length ≤ j →
      (seen.setIfInBounds i true)[j]? = some true ∨ j ∈ next.reverse ++ work ∨ code.length ≤ j := by
    intro j hj
    rw [hmem, mem_append]
    rcases hj with hj | hj | hj
    · exact .inl (.inr hj)
    · rcases mem_cons.mp hj with rfl | hj
      · exact .inl (.inl rfl)
      · exact .inr (.inl (.inr hj))
    · exact .inr (.inr hj)
  refine ⟨by simpa using h.size, fun j hj => ?_, fun j hj => ?_, fun a b ha hab => ?_, ?_⟩
  · rcases mem_append.mp hj with hj | hj
    · exact hi'.step ((mem_successors_iff hindex hi hnext).mp (mem_reverse.mp hj))
    · exact h.stacked j (mem_cons_of_mem _ hj)
  · rcases (hmem j).mp hj with rfl | hj
    · exact ⟨hi', hdangling⟩
    · exact h.marked j hj
  · rcases (hmem a).mp ha with rfl | ha
    · exact .inr (.inl (mem_append_left _
        (mem_reverse.mpr ((mem_successors_iff hindex hi hnext).mpr hab))))
    · exact hkept b (h.closed a b ha hab)
  · rcases h.start with hzero | hzero | hzero
    · exact .inl ((hmem 0).mpr (.inr hzero))
    · rcases hkept 0 (.inr (.inl hzero)) with hkept | hkept | hkept
      · exact .inl hkept
      · exact .inr (.inl hkept)
      · exact .inr (.inr (Nat.le_zero.mp hkept))
    · exact .inr (.inr hzero)

/-- The search ends with nothing left on its stack, or at an accessible jump to a label that is not
marked. -/
lemma Search.explored (hindex : labelIndex code = .ok index)
    (htarget : ∀ instr ∈ code, instr.op.isJump = true → ∃ l, instr.target = some l) {result}
    (h : Search code index work seen result) (hstart : Explored code work seen) :
    (∃ seen', result = .ok seen' ∧ Explored code [] seen') ∨
      ∃ name i, result = .error (.unmarkedLabel name) ∧ Accessible code i ∧ Dangling code i := by
  induction h with
  | done => exact .inl ⟨_, rfl, hstart⟩
  | outside hi _ ih => exact ih (hstart.drop (.inr (getElem?_eq_none_iff.mp hi)))
  | again hi _ ih => exact ih (hstart.drop (.inl hi))
  | fault hi _ he =>
    rcases successors_cases hindex hi (htarget _ (mem_of_getElem? hi)) with
      ⟨next, hnext, -⟩ | ⟨name, hname, hdangling⟩
    · rw [he] at hnext
      cases hnext
    · rw [he] at hname
      cases hname
      exact .inr ⟨name, _, rfl, hstart.stacked _ mem_cons_self, hdangling⟩
  | visit hi _ hnext _ ih =>
    rcases successors_cases hindex hi (htarget _ (mem_of_getElem? hi)) with
      ⟨_, -, hdangling⟩ | ⟨name, hname, -⟩
    · exact ih (hstart.visit hindex hi hnext hdangling)
    · rw [hnext] at hname
      cases hname

/-- When the stack is empty, the marked places are those that control can come to. -/
lemma Explored.seen_iff (h : Explored code [] seen) (i : Nat) :
    seen[i]? = some true ↔ i < code.length ∧ Accessible code i := by
  constructor
  · intro hi
    obtain ⟨hlt, -⟩ := Array.getElem?_eq_some_iff.mp hi
    exact ⟨h.size ▸ hlt, (h.marked i hi).1⟩
  · rintro ⟨hlt, haccessible⟩
    -- every place on the way lies inside the code: control never comes back from behind it
    have hclosed : seen[i]? = some true ∨ code.length ≤ i := by
      induction haccessible with
      | refl =>
        rcases h.start with hzero | hzero | hzero
        · exact .inl hzero
        · cases hzero
        · exact .inr (Nat.le_of_eq hzero)
      | @tail a b _ hab ih =>
        have ha : a < code.length := by
          cases hab with
          | next hi _ | taken hi _ _ _ => exact (List.getElem?_eq_some_iff.mp hi).1
        rcases ih ha with hseen | hbehind
        · rcases h.closed a b hseen hab with hb | hb | hb
          · exact .inl hb
          · cases hb
          · exact .inr hb
        · exact absurd ha (Nat.not_lt.mpr hbehind)
    exact hclosed.resolve_right (Nat.not_le.mpr hlt)

end Search

/-! ## Reachable instructions -/

/-- If marks and jumps have their labels, the search for the reachable instructions of code whose
labels are marked once comes to an end, with a mark for just the places that control can come to,
unless it comes to a jump to a label that is not marked. -/
lemma reachable_of_labelIndex {code index} (hindex : labelIndex code = .ok index)
    (htarget : ∀ instr ∈ code, instr.op.isJump = true → ∃ l, instr.target = some l) :
    (∃ seen, Search code index [0] (Array.replicate code.length false) (.ok seen) ∧
      reachable code = .ok seen.toList ∧ Explored code [] seen) ∨
    ∃ name i, Search code index [0] (Array.replicate code.length false)
    (.error (.unmarkedLabel name)) ∧
      reachable code = .error (.unmarkedLabel name) ∧ Accessible code i ∧ Dangling code i := by
  have hsearch : Search code index [0] (Array.replicate code.length false) _ :=
    search_explore (2 * code.length + 1) Array.size_replicate (by simp)
  have hreachable : reachable code = (do
      let seen ← explore code.toArray index (2 * code.length + 1) [0]
        (Array.replicate code.length false)
      return seen.toList) := by
    rw [reachable, hindex]
    rfl
  rcases hsearch.explored hindex htarget (explored_start code) with
    ⟨seen, hres, hexplored⟩ | ⟨name, i, hres, haccessible, hdangling⟩
  · rw [hres] at hsearch hreachable
    exact .inl ⟨seen, hsearch, hreachable, hexplored⟩
  · rw [hres] at hsearch hreachable
    exact .inr ⟨name, i, hsearch, hreachable, haccessible, hdangling⟩

/-- In code whose labels have been checked, the reachable instructions are those that control can
come to. -/
theorem reachable_iff_accessible {code} (h : checkLabels code = .ok ()) :
    ∃ seen, reachable code = .ok seen ∧ seen.length = code.length ∧
      ∀ i : Nat, seen[i]? = some true ↔ i < code.length ∧ Accessible code i := by
  obtain ⟨index, hindex, hjumps⟩ := bind_eq_ok h
  have htargets := checkJumpsFrom_eq_ok_iff.mp hjumps
  have htarget : ∀ instr ∈ code, instr.op.isJump = true → ∃ l, instr.target = some l := by
    intro instr hinstr hjump
    obtain ⟨l, _, hl, -⟩ := htargets instr hinstr hjump
    exact ⟨l, hl⟩
  rcases reachable_of_labelIndex hindex htarget with
    ⟨seen, -, hreachable, hexplored⟩ | ⟨_, i, -, -, -, instr, l, hi, hjump, hl, hunmarked⟩
  · refine ⟨seen.toList, hreachable, ?_, fun i => ?_⟩
    · rw [Array.length_toList, hexplored.size]
    · rw [Array.getElem?_toList]
      exact hexplored.seen_iff i
  · obtain ⟨l', place, hl', hplace⟩ := htargets instr (mem_of_getElem? hi) hjump
    obtain rfl := Option.some.inj (hl.symm.trans hl')
    exact absurd ((labelIndex_getElem? hindex).mp hplace) (hunmarked place)

end ThreeAddress
