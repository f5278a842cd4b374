import ThreeAddress.Proofs.Code.Flow
import ThreeAddress.Proofs.Names.Marks

/-!
# Truth values and numbers are kept apart

Emitted code has types. Variables have those of the scope, and temporaries those that `Lanes` gives
them: a temporary holds numbers if arithmetic or the scrutinee of a `switch` writes it, and truth
values if it is written behind a condition. `Instr.Typed` says which instructions respect the types.
A truth value gets into a variable or a temporary only as the constant 0 or 1, and comes out of it
only in a test: of a variable against 1, or of two temporaries against each other.

Every piece of code of the translation scheme is typed, under lanes for just the temporaries that it
mints (`Laned`). Lanes of different pieces have nothing in common, so that they can be put together.
-/

namespace ThreeAddress

open List Lowering

/-! ## Types of code -/

/-- The types of the temporaries, by their numbers. -/
abbrev Lanes := Nat → Option ValueType

/-- A variable or a temporary holds values of a type. -/
inductive Operand.Holds (Γ : Scope) (Δ : Lanes) (type : ValueType) : Operand → Prop
  | global {x} (hx : Γ x = some type) : Operand.Holds Γ Δ type (.global x)
  | temp {k} (hk : Δ k = some type) : Operand.Holds Γ Δ type (tempOf k)

/-- An operand has a number as its value. -/
inductive Operand.Numeric (Γ : Scope) (Δ : Lanes) : Operand → Prop
  | const (w : Int64) : Operand.Numeric Γ Δ (.const w)
  | held {v} (hv : v.Holds Γ Δ .num) : Operand.Numeric Γ Δ v

/-- A comparison of numbers, of a variable that holds a truth value with 1, or of two temporaries
that hold truth values. -/
inductive Test.Typed (Γ : Scope) (Δ : Lanes) : Test → Prop
  | numbers {op left right} (hop : op.isRelation = true) (hleft : left.Numeric Γ Δ)
      (hright : right.Numeric Γ Δ) : Test.Typed Γ Δ ⟨op, some left, some right⟩
  | flag {x} (hx : Γ x = some .bool) : Test.Typed Γ Δ ⟨.eq, some (.global x), some (.const 1)⟩
  | truths {op j k} (hop : op.isRelation = true) (hj : Δ j = some .bool) (hk : Δ k = some .bool) :
      Test.Typed Γ Δ ⟨op, some (tempOf j), some (tempOf k)⟩

/-- An instruction that respects the types. -/
inductive Instr.Typed (Γ : Scope) (Δ : Lanes) : Instr → Prop
  | number {dst src} (hdst : dst.Holds Γ Δ .num) (hsrc : src.Numeric Γ Δ) :
      Instr.Typed Γ Δ (.copy dst src)
  | truth {dst} (b : Bool) (hdst : dst.Holds Γ Δ .bool) :
      Instr.Typed Γ Δ (.copy dst (.const (if b then 1 else 0)))
  | neg {k src} (hk : Δ k = some .num) (hsrc : src.Numeric Γ Δ) :
      Instr.Typed Γ Δ (.neg (tempOf k) src)
  | binary {op k left right} (hop : op.isBinary = true) (hk : Δ k = some .num)
      (hleft : left.Numeric Γ Δ) (hright : right.Numeric Γ Δ) :
      Instr.Typed Γ Δ (.binary op (tempOf k) left right)
  | jumpIf {op left right l} (htest : Test.Typed Γ Δ ⟨op, some left, some right⟩) :
      Instr.Typed Γ Δ (.jumpIf op left right l)
  | jumpUnless {op left right l} (htest : Test.Typed Γ Δ ⟨op, some left, some right⟩) :
      Instr.Typed Γ Δ (.jumpUnless op left right l)
  | jump (l : Label) : Instr.Typed Γ Δ (.jump l)
  | mark (l : Label) : Instr.Typed Γ Δ (.mark l)

section Operands

variable {Γ : Scope} {Δ : Lanes} {type : ValueType} {k : Nat}

lemma Operand.Holds.lane (h : (tempOf k).Holds Γ Δ type) : Δ k = some type := by
  generalize hv : tempOf k = v at h
  cases h with
  | global hx => cases hv
  | temp hk => exact tempOf_name_inj (Operand.temp.inj hv).1 ▸ hk

/-- A variable that has a number as its value is declared as a number. -/
lemma Operand.Numeric.declared {x} (h : (Operand.global x).Numeric Γ Δ) : Γ x = some .num := by
  cases h with
  | held hv =>
    generalize hg : Operand.global x = v at hv
    cases hv with
    | global hx =>
      cases hg
      exact hx
    | temp hk => cases hg

/-- A copy into a temporary needs a lane for it. -/
lemma Instr.Typed.copy_lane {v} (h : Instr.Typed Γ Δ (.copy (tempOf k) v)) :
    ∃ type, Δ k = some type := by
  generalize hi : Instr.copy (tempOf k) v = i at h
  cases h with
  | number hdst hsrc =>
    obtain rfl : tempOf k = _ := Option.some.inj (Instr.mk.inj hi).2.1
    exact ⟨.num, hdst.lane⟩
  | truth b hdst =>
    obtain rfl : tempOf k = _ := Option.some.inj (Instr.mk.inj hi).2.1
    exact ⟨.bool, hdst.lane⟩
  | neg => cases hi
  | binary hop =>
    obtain ⟨rfl, -⟩ := Instr.mk.inj hi
    cases hop
  | jumpIf | jumpUnless | jump | mark => cases hi

end Operands

/-! ## Lanes of several pieces -/

/-- More temporaries have lanes, and the lanes are the same. -/
def Lanes.Le (Δ Δ' : Lanes) : Prop := ∀ k type, Δ k = some type → Δ' k = some type

/-- The lanes of two pieces of code. -/
def Lanes.or (Δ Δ' : Lanes) : Lanes := fun k => (Δ k).or (Δ' k)

/-- The lanes of temporaries that hold numbers. -/
def numberLanes (n n' : Nat) : Lanes := fun k => if n ≤ k ∧ k < n' then some .num else none

/-- The lane of one temporary that holds truth values. -/
def truthLane (n : Nat) : Lanes := fun k => if k = n then some .bool else none

section Monotone

variable {Γ : Scope} {Δ Δ' : Lanes}

lemma Operand.Holds.mono {type} {v : Operand} (h : v.Holds Γ Δ type) (hle : Δ.Le Δ') :
    v.Holds Γ Δ' type := by
  cases h with
  | global hx => exact .global hx
  | temp hk => exact .temp (hle _ _ hk)

lemma Operand.Numeric.mono {v : Operand} (h : v.Numeric Γ Δ) (hle : Δ.Le Δ') : v.Numeric Γ Δ' := by
  cases h with
  | const w => exact .const w
  | held hv => exact .held (hv.mono hle)

lemma Test.Typed.mono {t : Test} (h : t.Typed Γ Δ) (hle : Δ.Le Δ') : t.Typed Γ Δ' := by
  cases h with
  | numbers hop hleft hright => exact .numbers hop (hleft.mono hle) (hright.mono hle)
  | flag hx => exact .flag hx
  | truths hop hj hk => exact .truths hop (hle _ _ hj) (hle _ _ hk)

/-- A typed instruction stays typed under more lanes. -/
lemma Instr.Typed.mono {i : Instr} (h : i.Typed Γ Δ) (hle : Δ.Le Δ') : i.Typed Γ Δ' := by
  cases h with
  | number hdst hsrc => exact .number (hdst.mono hle) (hsrc.mono hle)
  | truth b hdst => exact .truth b (hdst.mono hle)
  | neg hk hsrc => exact .neg (hle _ _ hk) (hsrc.mono hle)
  | binary hop hk hleft hright => exact .binary hop (hle _ _ hk) (hleft.mono hle) (hright.mono hle)
  | jumpIf htest => exact .jumpIf (htest.mono hle)
  | jumpUnless htest => exact .jumpUnless (htest.mono hle)
  | jump l => exact .jump l
  | mark l => exact .mark l

lemma Lanes.Le.trans {Δ''} (h1 : Δ.Le Δ') (h2 : Δ'.Le Δ'') : Δ.Le Δ'' := fun k type hk =>
    h2 k type (h1 k type hk)

lemma Lanes.le_or_left (Δ Δ' : Lanes) : Δ.Le (Δ.or Δ') := by
  intro k type hk
  simp [Lanes.or, hk]

lemma Lanes.le_or_right (hapart : ∀ k type, Δ' k = some type → Δ k = none) : Δ'.Le (Δ.or Δ') := by
  intro k type hk
  simp [Lanes.or, hk, hapart k type hk]

/-- The numbers of a range are in the lanes of a larger one. -/
lemma numberLanes_le {n n' m m'} (hlower : m ≤ n) (hupper : n' ≤ m') :
    (numberLanes n n').Le (numberLanes m m') := by
  intro k type hk
  unfold numberLanes at hk ⊢
  split at hk
  · rename_i hrange
    rwa [if_pos ⟨by omega, by omega⟩]
  · cases hk

lemma numberLanes_range {n n' k type} (h : numberLanes n n' k = some type) : n ≤ k ∧ k < n' := by
  unfold numberLanes at h
  split at h
  · assumption
  · cases h

lemma numberLanes_eq {n n' k} (hlower : n ≤ k) (hupper : k < n') :
    numberLanes n n' k = some .num := if_pos ⟨hlower, hupper⟩

end Monotone

/-- A piece of code is typed by lanes for the temporaries from `n` on, before `n'`, and no temporary
in the lane of numbers gets both a copy of 1 and a copy of 0. -/
structure Laned (Γ : Scope) (Δ : Lanes) (n n' : Nat) (code : List Instr) : Prop where
  le : n ≤ n'
  range : ∀ k type, Δ k = some type → n ≤ k ∧ k < n'
  typed : ∀ i ∈ code, i.Typed Γ Δ
  single : ∀ k, Δ k = some .num →
    ¬ (.copy (tempOf k) (.const 1) ∈ code ∧ .copy (tempOf k) (.const 0) ∈ code)

/-- A piece of code has lanes for the temporaries it mints. -/
def HasLanes (Γ : Scope) (n : Names) (code : List Instr) (n' : Names) : Prop :=
  ∃ Δ, Laned Γ Δ n.temps n'.temps code

section Pieces

variable {Γ : Scope} {Δ Δ1 Δ2 : Lanes} {n n1 n2 n' : Nat} {c c1 c2 : List Instr}

/-- A piece with lanes has them in any larger range. -/
lemma Laned.widen (h : Laned Γ Δ n1 n2 c) (hlower : n ≤ n1) (hupper : n2 ≤ n') :
    Laned Γ Δ n n' c where
  le := by
    have hle := h.le
    omega
  range k type hk := by
    have hrange := h.range k type hk
    omega
  typed := h.typed
  single := h.single

/-- A copy into a temporary does not stand in a piece that has no lane for it. -/
lemma copy_notMem_of_typed {k v} (htyped : ∀ i ∈ c, i.Typed Γ Δ) (hk : Δ k = none) :
    .copy (tempOf k) v ∉ c := by
  intro hmem
  obtain ⟨type, hlane⟩ := (htyped _ hmem).copy_lane
  rw [hk] at hlane
  cases hlane

/-- Two pieces whose lanes have nothing in common have lanes together. -/
lemma Laned.merge (h1 : Laned Γ Δ1 n n' c1) (h2 : Laned Γ Δ2 n n' c2)
    (hapart : ∀ k type, Δ2 k = some type → Δ1 k = none) : Laned Γ (Δ1.or Δ2) n n' (c1 ++ c2) where
  le := h1.le
  range k type hk := by
    rcases Option.or_eq_some_iff.mp hk with hk | ⟨-, hk⟩
    · exact h1.range k type hk
    · exact h2.range k type hk
  typed i hi := by
    rcases mem_append.mp hi with hi | hi
    · exact (h1.typed i hi).mono (Lanes.le_or_left Δ1 Δ2)
    · exact (h2.typed i hi).mono (Lanes.le_or_right hapart)
  single k hk := by
    rintro ⟨hone, hzero⟩
    rw [mem_append] at hone hzero
    rcases Option.or_eq_some_iff.mp hk with hk | ⟨hnone, hk⟩
    · have hk2 : Δ2 k = none := by
        cases hlane : Δ2 k with
        | none => rfl
        | some type =>
          rw [hapart k type hlane] at hk
          cases hk
      exact h1.single k hk ⟨hone.resolve_right (copy_notMem_of_typed h2.typed hk2),
        hzero.resolve_right (copy_notMem_of_typed h2.typed hk2)⟩
    · exact h2.single k hk ⟨hone.resolve_left (copy_notMem_of_typed h1.typed hnone),
        hzero.resolve_left (copy_notMem_of_typed h1.typed hnone)⟩

section

variable (h1 : Laned Γ Δ1 n n1 c1) (h2 : Laned Γ Δ2 n1 n2 c2)
include h1 h2

/-- Pieces that mint different temporaries have lanes apart. -/
lemma Laned.apart {k type} (hk : Δ2 k = some type) : Δ1 k = none := by
  cases hlane : Δ1 k with
  | none => rfl
  | some type' =>
    have hlower := (h2.range k type hk).1
    have hupper := (h1.range k type' hlane).2
    omega

lemma Laned.append : Laned Γ (Δ1.or Δ2) n n2 (c1 ++ c2) :=
  (h1.widen (le_refl n) h2.le).merge (h2.widen h1.le (le_refl n2)) fun _ _ => h1.apart h2

lemma Laned.le_or : Δ2.Le (Δ1.or Δ2) := Lanes.le_or_right fun _ _ => h1.apart h2

end

/-- Instructions that write no temporary can follow. -/
lemma Laned.follow (h : Laned Γ Δ n n' c1) (htyped : ∀ i ∈ c2, i.Typed Γ Δ)
    (hres : ∀ i ∈ c2, ∀ k, i.result ≠ some (tempOf k)) : Laned Γ Δ n n' (c1 ++ c2) where
  le := h.le
  range := h.range
  typed i hi := by
    rcases mem_append.mp hi with hi | hi
    · exact h.typed i hi
    · exact htyped i hi
  single k hk := by
    rintro ⟨hone, hzero⟩
    rw [mem_append] at hone hzero
    have hcopies : ∀ v, .copy (tempOf k) v ∉ c2 := fun v hmem => hres _ hmem k rfl
    exact h.single k hk ⟨hone.resolve_right (hcopies _), hzero.resolve_right (hcopies _)⟩

lemma laned_nil (n : Nat) : Laned Γ (fun _ => none) n n [] where
  le := le_refl n
  range _ _ hk := by cases hk
  typed i hi := absurd hi not_mem_nil
  single _ hk := by cases hk

/-- What writes a truth value to a target is typed if the target holds truth values. -/
lemma typed_valueCode {dst} (hdst : dst.Holds Γ Δ .bool) (k : Nat) :
    ∀ i ∈ valueCode dst k, i.Typed Γ Δ := by
  intro i hi
  simp only [valueCode, mem_cons, not_mem_nil, or_false] at hi
  rcases hi with rfl | rfl | rfl | rfl | rfl | rfl
  · exact .mark _
  · exact .truth true hdst
  · exact .jump _
  · exact .mark _
  · exact .truth false hdst
  · exact .mark _

/-- What writes a truth value into a new temporary. -/
lemma laned_valueCode (n k : Nat) : Laned Γ (truthLane n) n (n + 1) (valueCode (tempOf n) k) where
  le := Nat.le_succ n
  range j type hj := by
    unfold truthLane at hj
    split at hj
    · rename_i hjn
      omega
    · cases hj
  typed := typed_valueCode (.temp (if_pos rfl)) k
  single j hj := by
    unfold truthLane at hj
    split at hj <;> cases hj

end Pieces

/-! ## Expressions -/

section Follow

variable {Γ : Scope} {Δ : Lanes} {n n' : Nat} {c : List Instr} {op : Opcode} {left right : Operand}

lemma Laned.jump (h : Laned Γ Δ n n' c) (l : Option Label) : Laned Γ Δ n n' (c ++ jumpCode l) := by
  refine h.follow ?_ fun i hi k => (jumps_jumpCode l i hi).result_ne _
  cases l with
  | none => exact forall_mem_nil _
  | some l => exact forall_mem_singleton.mpr (.jump l)

/-- Branches can follow the code of what they test. -/
lemma Laned.branch (h : Laned Γ Δ n n' c) (htest : Test.Typed Γ Δ ⟨op, some left, some right⟩)
    (e : Exits) :
    Laned Γ Δ n n' (c ++ branchCode op left right e) := by
  refine h.follow ?_ fun i hi k => (jumps_branchCode op left right e i hi).result_ne _
  unfold branchCode
  split
  · exact forall_mem_cons.mpr ⟨.jumpIf htest, forall_mem_singleton.mpr (.jump _)⟩
  · exact forall_mem_singleton.mpr (.jumpIf htest)
  · exact forall_mem_singleton.mpr (.jumpUnless htest)
  · exact forall_mem_nil _

end Follow

lemma isRelation_of_relationOpcode {op opcode} (h : relationOpcode? op = some opcode) :
    opcode.isRelation = true := by
  unfold relationOpcode? at h
  split at h <;> cases h <;> rfl

mutual

/-- The code of a numeric expression is typed wherever its temporaries hold numbers, and its value
is a number. -/
lemma NumberCode.typed {Γ t n v code n' Δ} (h : NumberCode Γ t n v code n')
    (hΔ : (numberLanes n n').Le Δ) :
    (∀ i ∈ code, i.Typed Γ Δ) ∧ v.Numeric Γ Δ := by
  match h with
  | .wrapper _ hinner | .unsigned _ hinner => exact hinner.typed hΔ
  | .literal _ => exact ⟨forall_mem_nil _, .const _⟩
  | .variable hx => exact ⟨forall_mem_nil _, .held (.global hx)⟩
  | .chain _ hfirst hrest =>
    have hle := (hfirst.complete 0).le.temps
    have hle' := (hrest.complete 0).le.temps
    obtain ⟨hcode, hacc⟩ := hfirst.typed ((numberLanes_le (le_refl _) hle').trans hΔ)
    obtain ⟨hcode', hv⟩ := hrest.typed ((numberLanes_le hle (le_refl _)).trans hΔ) hacc
    exact ⟨forall_mem_append.mpr ⟨hcode, hcode'⟩, hv⟩
  | .negated _ hinner =>
    have hle := (hinner.complete 0).le.temps
    have hlane := hΔ _ .num (numberLanes_eq hle (Nat.lt_succ_self _))
    obtain ⟨hcode, hv⟩ := hinner.typed ((numberLanes_le (le_refl _) (Nat.le_succ _)).trans hΔ)
    exact ⟨forall_mem_append.mpr ⟨hcode, forall_mem_singleton.mpr (.neg hlane hv)⟩,
      .held (.temp hlane)⟩

/-- The code of the rest of a chain is typed wherever its temporaries, and what it starts from, hold
numbers. -/
lemma ChainCode.typed {Γ kind acc ops operands n v code n' Δ}
    (h : ChainCode Γ kind acc ops operands n v code n') (hΔ : (numberLanes n n').Le Δ)
    (hacc : acc.Numeric Γ Δ) : (∀ i ∈ code, i.Typed Γ Δ) ∧ v.Numeric Γ Δ := by
  match h with
  | .done => exact ⟨forall_mem_nil _, hacc⟩
  | .more hop hoperand hrest =>
    have hle := (hoperand.complete 0).le.temps
    have hle' := (hrest.complete 0).le.temps
    have hbinary := isBinary_of_arithOpcode hop
    have hlane := hΔ _ .num (numberLanes_eq hle hle')
    obtain ⟨hcode, hright⟩ := hoperand.typed
      ((numberLanes_le (le_refl _) (Nat.le_of_succ_le hle')).trans hΔ)
    obtain ⟨hcode', hv⟩ := hrest.typed
      ((numberLanes_le (Nat.le_succ_of_le hle) (le_refl _)).trans hΔ) (.held (.temp hlane))
    have hoperation : Instr.Typed Γ Δ _ := .binary hbinary hlane hacc hright
    exact ⟨forall_mem_append.mpr ⟨hcode, forall_mem_cons.mpr ⟨hoperation, hcode'⟩⟩, hv⟩

end

/-- The code of a numeric expression has the lanes of numbers. -/
lemma NumberCode.laned {Γ t n v code n'} (h : NumberCode Γ t n v code n') :
    Laned Γ (numberLanes n n') n n' code ∧ v.Numeric Γ (numberLanes n n') := by
  obtain ⟨hcode, hv⟩ := h.typed (fun _ _ hk => hk)
  have hcopies : ∀ k w, .copy (tempOf k) w ∉ code := fun k w hmem =>
    (h.arithmetic _ hmem).op_ne_copy rfl
  exact ⟨⟨(h.complete 0).le.temps, fun k type hk => numberLanes_range hk, hcode,
    fun k _ hboth => hcopies k _ hboth.1⟩, hv⟩

section Names

variable {Γ : Scope} {n n1 n2 : Names} {c1 c2 : List Instr}

lemma HasLanes.append (h1 : HasLanes Γ n c1 n1) (h2 : HasLanes Γ n1 c2 n2) :
    HasLanes Γ n (c1 ++ c2) n2 := by
  obtain ⟨Δ1, h1⟩ := h1
  obtain ⟨Δ2, h2⟩ := h2
  exact ⟨_, h1.append h2⟩

lemma HasLanes.minted {k} (h : HasLanes Γ (n.addLabels k) c1 n1) : HasLanes Γ n c1 n1 := h

lemma hasLanes_plain (htyped : ∀ i ∈ c1, i.Typed Γ fun _ => none)
    (hres : ∀ i ∈ c1, ∀ k, i.result ≠ some (tempOf k)) : HasLanes Γ n c1 n :=
  ⟨_, (laned_nil n.temps).follow htyped hres⟩

lemma hasLanes_mark (n : Names) (l : Label) : HasLanes Γ n [.mark l] n :=
  hasLanes_plain (forall_mem_singleton.mpr (.mark l)) (forall_mem_singleton.mpr nofun)

lemma hasLanes_jump (n : Names) (l : Label) : HasLanes Γ n [.jump l] n :=
    ⟨_, (laned_nil n.temps).jump (some l)⟩

lemma hasLanes_jump_mark (n : Names) (l l' : Label) : HasLanes Γ n [.jump l, .mark l'] n :=
  (hasLanes_jump n l).append (hasLanes_mark n l')

/-- The jump to the end of a `switch` needs no lanes. -/
lemma hasLanes_leave (n : Names) (done : Label) (following : List Tree) :
    HasLanes Γ n (leaveCode done following) n := by
  unfold leaveCode
  split
  · exact ⟨_, laned_nil n.temps⟩
  · exact hasLanes_jump n done

/-- What writes a truth value into a variable. -/
lemma hasLanes_value {x} (n : Names) (k : Nat) (hx : Γ x = some .bool) :
    HasLanes Γ n (valueCode (.global x) k) n := by
  refine hasLanes_plain (typed_valueCode (.global hx) k) fun i hi j hj => ?_
  rcases truth_of_mem_valueCode hi with hres | ⟨b, rfl⟩
  · cases hres.symm.trans hj
  · cases hj

/-- A condition whose truth value is written into a temporary that was minted before it. -/
lemma HasLanes.truth (h : HasLanes Γ (n.addTemp.addLabels 3) c1 n1) : ∃ Δ,
    Laned Γ Δ n.temps n1.temps (c1 ++ valueCode (tempOf n.temps) n.labels) ∧
    Δ n.temps = some .bool := by
  obtain ⟨Δ, h⟩ := h
  have hval : Laned Γ (truthLane n.temps) n.temps (n.temps + 1) _ :=
    laned_valueCode n.temps n.labels
  have hapart : ∀ k type, truthLane n.temps k = some type → Δ k = none := by
    intro k type hk
    obtain ⟨hlower, hupper⟩ := hval.range k type hk
    cases hlane : Δ k with
    | none => rfl
    | some type' =>
      have hrange : n.temps + 1 ≤ k := (h.range k type' hlane).1
      omega
  exact ⟨_, (h.widen (Nat.le_succ _) (le_refl _)).merge (hval.widen (le_refl _) h.le) hapart,
    Lanes.le_or_right hapart _ _ (if_pos rfl)⟩

end Names

mutual

/-- The code of a condition has lanes. -/
lemma ConditionCode.hasLanes {Γ t e n code n'} (h : ConditionCode Γ t e n code n') :
    HasLanes Γ n code n' := by
  match h with
  | .wrapper _ hinner | .negation _ hinner => exact hinner.hasLanes
  | .literal b => exact ⟨_, (laned_nil n.temps).jump (e b)⟩
  | .variable hx => exact ⟨_, (laned_nil n.temps).branch (.flag hx) e⟩
  | .numbers hop hleft hright =>
    obtain ⟨hlaned, hl⟩ := hleft.laned
    obtain ⟨hlaned', hr⟩ := hright.laned
    refine ⟨_, (hlaned.append hlaned').branch (.numbers (isRelation_of_relationOpcode hop) ?_ ?_) e⟩
    · exact hl.mono (Lanes.le_or_left _ _)
    · exact hr.mono (hlaned.le_or hlaned')
  | .booleans hop hleft hright =>
    obtain ⟨Δ, hlaned, hlane⟩ := hleft.hasLanes.truth
    obtain ⟨Δ', hlaned', hlane'⟩ := hright.hasLanes.truth
    refine ⟨_, (hlaned.append hlaned').branch (.truths (isRelation_of_relationOpcode hop) ?_ ?_) e⟩
    · exact Lanes.le_or_left _ _ _ _ hlane
    · exact hlaned.le_or hlaned' _ _ hlane'
  | .logic hchain => exact hchain.hasLanes

/-- The code of a chain of conditions has lanes. -/
lemma LogicCode.hasLanes {Γ ops operands e n code n'} (h : LogicCode Γ ops operands e n code n') :
    HasLanes Γ n code n' := by
  match h with
  | .last hlast => exact hlast.hasLanes
  | .leaving _ _ hleft hrest =>
    exact hleft.hasLanes.minted.append ((hasLanes_mark _ _).append hrest.hasLanes)
  | .skipping _ _ hleft hrest =>
    exact hleft.hasLanes.minted.append
      ((hasLanes_mark _ _).append (hrest.hasLanes.append (hasLanes_mark _ _)))

end

/-! ## Statements -/

/-- The scrutinee of a `switch` is in a temporary that holds a number. -/
lemma ScrutineeCode.laned {Γ t n v code n'} (h : ScrutineeCode Γ t n v code n') :
    Laned Γ (numberLanes n n') n n' code ∧ v.Numeric Γ (numberLanes n n') := by
  cases h with
  | computed hval => exact hval.laned
  | @copied v code n1 hval _ =>
    have hle := (hval.complete 0).le.temps
    have hlane := numberLanes_eq hle (Nat.lt_succ_self n1)
    obtain ⟨hcode, hv⟩ := hval.typed (numberLanes_le (le_refl n) (Nat.le_succ n1))
    have hcopies : ∀ k w, .copy (tempOf k) w ∈ code ++ [Instr.copy (tempOf n1) v] → w = v := by
      intro k w hmem
      rcases mem_append.mp hmem with hmem | hmem
      · exact absurd rfl (hval.arithmetic _ hmem).op_ne_copy
      · have heq := mem_singleton.mp hmem
        exact Option.some.inj (cons.inj (Instr.mk.inj heq).2.2.1).1
    refine ⟨⟨Nat.le_succ_of_le hle, fun _ _ hk => numberLanes_range hk, ?_, ?_⟩,
      .held (.temp hlane)⟩
    · exact forall_mem_append.mpr ⟨hcode, forall_mem_singleton.mpr (.number (.temp hlane) hv)⟩
    · rintro k - ⟨hone, hzero⟩
      have hboth := (hcopies k _ hone).trans (hcopies k _ hzero).symm
      cases Operand.const.inj hboth

/-- The dispatch of a `switch` has the lanes of its scrutinee. -/
lemma hasLanes_dispatch {Γ t n n1 l l' v c1 c2 clauses labels d d'} (target : Label)
    (hscrut : ScrutineeCode Γ t n v c1 n1) (hdisp : DispatchCode v d clauses l c2 labels d' l') :
    ∃ Δ, Laned Γ Δ n n1 (c1 ++ c2 ++ [.jump target]) := by
  obtain ⟨hlaned, hv⟩ := hscrut.laned
  refine ⟨_, (hlaned.follow (fun i hi => ?_) fun i hi k => (hdisp.jumps i hi).result_ne _).jump
    (some target)⟩
  obtain ⟨w, k, -, rfl⟩ := hdisp.tests i hi
  exact .jumpIf (.numbers rfl hv (.const w))

mutual

/-- The code of a statement has lanes. -/
theorem StatementCode.hasLanes {settings Γ t n code n'} (h : StatementCode settings Γ t n code n') :
    HasLanes Γ n code n' := by
  match h with
  | .sequence _ hchildren => exact hchildren.hasLanes
  | .declaration | .empty => exact ⟨_, laned_nil n.temps⟩
  | .inner ht => exact ht.hasLanes
  | .boolAssignment hx ht => exact ht.hasLanes.minted.append (hasLanes_value _ _ hx)
  | .numAssignment hx ht _ =>
    obtain ⟨hlaned, hv⟩ := ht.laned
    exact ⟨_, hlaned.follow (forall_mem_singleton.mpr (.number (.global hx) hv))
      (forall_mem_singleton.mpr nofun)⟩
  | .selfAssignment _ ht _ => exact ⟨_, ht.laned.1⟩
  | .conditional _ hcond hthen =>
    exact (hcond.hasLanes.minted.append hthen.hasLanes).append (hasLanes_mark _ _)
  | .alternative hcond hthen helse =>
    exact (((hcond.hasLanes.minted.append hthen.hasLanes).append
      (hasLanes_jump_mark _ _ _)).append helse.hasLanes).append (hasLanes_mark _ _)
  | .loop hcond hbody =>
    exact (hasLanes_mark _ _).append ((hcond.hasLanes.minted.append hbody.hasLanes).append
      (hasLanes_jump_mark _ _ _))
  | .selection hscrut hdisp hclauses =>
    obtain ⟨Δ, hlaned⟩ := hasLanes_dispatch _ hscrut hdisp
    obtain ⟨Δ', hlaned'⟩ := hclauses.hasLanes
    exact HasLanes.append ⟨_, hlaned.append hlaned'⟩ (hasLanes_mark _ _)

/-- The code of several statements has lanes. -/
lemma StatementsCode.hasLanes {settings Γ ts n code n'}
    (h : StatementsCode settings Γ ts n code n') :
    HasLanes Γ n code n' := by
  match h with
  | .nil => exact ⟨_, laned_nil n.temps⟩
  | .cons ht hts => exact ht.hasLanes.append hts.hasLanes

/-- The code of the clauses of a `switch` has lanes. -/
lemma ClausesCode.hasLanes {settings Γ done labels clauses n code n'}
    (h : ClausesCode settings Γ done labels clauses n code n') : HasLanes Γ n code n' := by
  match h with
  | .nil => exact ⟨_, laned_nil n.temps⟩
  | .cons hbody hrest =>
    exact (hasLanes_mark _ _).append
      ((hbody.hasLanes.append (hasLanes_leave _ _ _)).append hrest.hasLanes)

end

end ThreeAddress
