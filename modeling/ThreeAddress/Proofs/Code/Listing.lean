import Mathlib.Data.List.Forall2
import Mathlib.Tactic.Common
import ThreeAddress.Code.Canonical

/-!
# Code that can be listed

The text of an instruction shows as many arguments as its operation has, and nothing else that could
be missing. So code can be listed exactly if its instructions have the arguments of their
operations; and then it has a canonical listing as well, since renaming keeps the operations and the
number of arguments.
-/

namespace ThreeAddress

open List

/-- A list is mapped to a list of results if each of its members has the result at its place. -/
lemma mapM_eq_some_iff {α β : Type} {f : α → Option β} {as : List α} {bs : List β} :
    as.mapM f = some bs ↔ Forall₂ (fun a b => f a = some b) as bs := by
  induction as generalizing bs with
  | nil =>
    rw [mapM_nil, forall₂_nil_left_iff]
    exact ⟨fun h => (Option.some.inj h).symm, fun h => h ▸ rfl⟩
  | cons a as ih =>
    rw [mapM_cons, forall₂_cons_left_iff]
    constructor
    · intro h
      obtain ⟨b, hb, h⟩ := Option.bind_eq_some_iff.mp h
      obtain ⟨bs', hbs, h⟩ := Option.bind_eq_some_iff.mp h
      exact ⟨b, bs', hb, ih.mp hbs, (Option.some.inj h).symm⟩
    · rintro ⟨b, bs', hb, hbs, rfl⟩
      simp only [hb, ih.mpr hbs]
      rfl

/-- A list is mapped to a list of results if each of its members has one. -/
lemma exists_mapM_iff {α β : Type} {f : α → Option β} {as : List α} :
    (∃ bs, as.mapM f = some bs) ↔ ∀ a ∈ as, ∃ b, f a = some b := by
  simp only [mapM_eq_some_iff]
  induction as with
  | nil => exact ⟨fun _ => forall_mem_nil _, fun _ => ⟨[], .nil⟩⟩
  | cons a as ih =>
    rw [forall_mem_cons, ← ih]
    constructor
    · rintro ⟨bs, h⟩
      cases h with
      | cons hb hbs => exact ⟨⟨_, hb⟩, _, hbs⟩
    · rintro ⟨⟨b, hb⟩, bs, hbs⟩
      exact ⟨b :: bs, .cons hb hbs⟩

/-- The number of arguments that an operation has. -/
def Opcode.arity : Opcode → Nat
  | .copy | .neg => 1
  | .add | .sub | .mul | .div | .rem => 2
  | _ => 0

/-- An argument has a text if it is there. -/
lemma Instr.exists_argText_iff {i : Instr} {k} : (∃ s, i.argText k = .ok s) ↔
    k < i.args.length := by
  unfold Instr.argText
  cases hk : i.args[k]? with
  | some v => exact ⟨fun _ => (List.getElem?_eq_some_iff.mp hk).1, fun _ => ⟨_, rfl⟩⟩
  | none =>
    refine ⟨?_, fun h => absurd h (Nat.not_lt.mpr (List.getElem?_eq_none_iff.mp hk))⟩
    rintro ⟨s, h⟩
    cases h

/-- An instruction has a text exactly if it has the arguments of its operation. -/
lemma Instr.exists_text_iff {i : Instr} : (∃ s, i.text = .ok s) ↔ i.op.arity ≤ i.args.length := by
  have hone : ∀ f : String → String,
      (∃ s, (do let a ← i.argText 0; return f a : Except MissingArgument String) = .ok s) ↔
      1 ≤ i.args.length := by
    intro f
    have hfirst := i.exists_argText_iff (k := 0)
    rw [← Nat.succ_le_iff] at hfirst
    rw [← hfirst]
    cases i.argText 0 with
    | ok a => exact ⟨fun _ => ⟨a, rfl⟩, fun _ => ⟨f a, rfl⟩⟩
    | error e =>
      constructor
      · rintro ⟨s, h⟩
        cases h
      · rintro ⟨a, h⟩
        cases h
  have htwo : ∀ f : String → String → String,
      (∃ s, (do let a ← i.argText 0; let b ← i.argText 1; return f a b : Except MissingArgument
        String) = .ok s) ↔
        2 ≤ i.args.length := by
    intro f
    have hfirst := i.exists_argText_iff (k := 0)
    have hsecond := i.exists_argText_iff (k := 1)
    constructor
    · rintro ⟨s, h⟩
      cases h1 : i.argText 1 with
      | ok b => exact hsecond.mp ⟨b, h1⟩
      | error e =>
        rw [h1] at h
        cases h0 : i.argText 0 <;> rw [h0] at h <;> cases h
    · intro h
      obtain ⟨a, ha⟩ := hfirst.mpr (by omega)
      obtain ⟨b, hb⟩ := hsecond.mpr h
      exact ⟨f a b, by rw [ha, hb]; rfl⟩
  unfold Instr.text
  cases i.op with
  | copy | neg => exact hone _
  | add | sub | mul | div | rem => exact htwo _
  | eq | ne | lt | gt | le | ge | jumpIf | jumpUnless | jump | mark | unknown n =>
    exact ⟨fun _ => Nat.zero_le _, fun _ => ⟨_, rfl⟩⟩

/-- The lines of a listing are the texts of the instructions. -/
lemma listing?_eq_some_iff {code : List Instr} {lines : List String} :
    listing? code = some lines ↔ Forall₂ (fun i line => i.text = .ok line) code lines := by
  have htext : ∀ (i : Instr) (line : String), i.text.toOption = some line ↔ i.text = .ok line := by
    intro i line
    cases i.text <;> simp [Except.toOption]
  simp only [listing?, mapM_eq_some_iff, htext]

/-- Code can be listed exactly if its instructions have the arguments of their operations. -/
theorem exists_listing_iff {code : List Instr} :
    (∃ lines, listing? code = some lines) ↔ ∀ i ∈ code, i.op.arity ≤ i.args.length := by
  have htext : ∀ i : Instr, (∃ s, i.text.toOption = some s) ↔ i.op.arity ≤ i.args.length := by
    intro i
    rw [← Instr.exists_text_iff]
    cases i.text <;> simp [Except.toOption]
  simp only [listing?, exists_mapM_iff, htext]

namespace Renaming

lemma length_operands (r : Renaming) (vs : List (Option Operand)) :
    (r.operands vs).1.length = vs.length := by
  induction vs generalizing r with
  | nil => rfl
  | cons v vs ih => exact congrArg (· + 1) (ih (r.operand v).2)

/-- Renamed instructions have the arguments of their operations if the instructions do. -/
lemma arity_le_of_mem_code {r : Renaming} {code} (h : ∀ i ∈ code, i.op.arity ≤ i.args.length) :
    ∀ i ∈ r.code code, i.op.arity ≤ i.args.length := by
  induction code generalizing r with
  | nil => exact forall_mem_nil _
  | cons i code ih =>
    obtain ⟨hi, hcode⟩ := forall_mem_cons.mp h
    have hargs : (r.instr i).1.args.length = i.args.length :=
      length_operands (r.test i.test).2 i.args
    exact forall_mem_cons.mpr ⟨Nat.le_trans hi (Nat.le_of_eq hargs.symm), ih hcode⟩

end Renaming

/-- Code whose instructions have the arguments of their operations has a canonical listing. -/
theorem exists_canonical {code} (h : ∀ i ∈ code, i.op.arity ≤ i.args.length) :
    ∃ lines, canonical? code = some lines :=
  exists_listing_iff.mpr (Renaming.arity_le_of_mem_code h)

end ThreeAddress
