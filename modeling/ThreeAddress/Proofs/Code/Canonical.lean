import Mathlib.Data.List.Forall2
import Mathlib.Logic.Relator
import Mathlib.Tactic.Common
import ThreeAddress.Code.Canonical

/-!
# Canonical listings forget names

Two pieces of code that differ only in the names of temporaries and labels are `Renamed`: the names
that correspond are given by two relations, and the numbers that temporaries and labels carry do not
matter. If the relations are one-to-one, then the canonical listings are the same.

Canonical names are given out in order of first appearance, so the proof follows the renaming along
the code: names that correspond have been given the same number, and equally many numbers have been
given out.
-/

namespace ThreeAddress

/-! ## Renamed code -/

section Renamed

variable (T L : String → String → Prop)

/-- Operands that differ only in the names of temporaries and labels. -/
inductive Operand.Renamed : Operand → Operand → Prop
  | const (w : Int64) : Operand.Renamed (.const w) (.const w)
  | global (x : String) : Operand.Renamed (.global x) (.global x)
  | temp {name name' : String} {id id' : Int} (h : T name name') :
      Operand.Renamed (.temp name id) (.temp name' id')
  | label {l l' : Label} (h : L l.name l'.name) : Operand.Renamed (.label l) (.label l')

/-- Tests that differ only in the names of temporaries and labels. -/
structure Test.Renamed (t t' : Test) : Prop where
  op_eq : t'.op = t.op
  left : Option.Rel (Operand.Renamed T L) t.left t'.left
  right : Option.Rel (Operand.Renamed T L) t.right t'.right

/-- Instructions that differ only in the names of temporaries and labels. -/
structure Instr.Renamed (i i' : Instr) : Prop where
  op_eq : i'.op = i.op
  result : Option.Rel (Operand.Renamed T L) i.result i'.result
  args : List.Forall₂ (Option.Rel (Operand.Renamed T L)) i.args i'.args
  test : Option.Rel (Test.Renamed T L) i.test i'.test
  target : Option.Rel (fun l l' : Label => L l.name l'.name) i.target i'.target

end Renamed

/-! ## Numbers in order of appearance -/

namespace Renaming

/-- Equally many names have numbers, and names that correspond have the same number or none. -/
structure Numbered (R : String → String → Prop)
    (numbers numbers' : Std.TreeMap String Nat) : Prop where
  size_eq : numbers'.size = numbers.size
  number_eq {name name' : String} : R name name' → numbers'[name']? = numbers[name]?

variable {R T L : String → String → Prop} {r r' : Renaming}

/-- Names that correspond get the same number. -/
lemma Numbered.numberOf {numbers numbers' name name'} (hR : Relator.BiUnique R)
    (h : Numbered R numbers numbers') (hname : R name name') :
    (numberOf numbers' name').1 = (numberOf numbers name).1 ∧
      Numbered R (numberOf numbers name).2 (numberOf numbers' name').2 := by
  have hnum := h.number_eq hname
  unfold Renaming.numberOf
  cases hfound : numbers[name]? with
  | some k =>
    rw [hfound] at hnum
    rw [hnum]
    exact ⟨rfl, h⟩
  | none =>
    rw [hfound] at hnum
    rw [hnum]
    have hnew : numbers.contains name = false := by
      rw [Std.TreeMap.contains_eq_isSome_getElem?, hfound, Option.isSome_none]
    have hnew' : numbers'.contains name' = false := by
      rw [Std.TreeMap.contains_eq_isSome_getElem?, hnum, Option.isSome_none]
    refine ⟨h.size_eq, ?_, ?_⟩
    · simp only [Std.TreeMap.size_insert, hnew, hnew', h.size_eq]
    · -- Another name is new on both sides or on none, since the names correspond one to one.
      intro other other' hother
      rw [Std.TreeMap.getElem?_insert, Std.TreeMap.getElem?_insert, h.size_eq, h.number_eq hother]
      have hsame : (compare name' other' = .eq) ↔ (compare name other = .eq) := by
        rw [Std.LawfulEqCmp.compare_eq_iff_eq, Std.LawfulEqCmp.compare_eq_iff_eq]
        constructor
        · rintro rfl
          exact hR.1 hname hother
        · rintro rfl
          exact hR.2 hname hother
      simp only [hsame]

/-- The renamings of two pieces of code have come equally far. -/
structure Agree (T L : String → String → Prop) (r r' : Renaming) : Prop where
  temps : Numbered T r.temps r'.temps
  labels : Numbered L r.labels r'.labels

/-- Labels that correspond get the same name. -/
lemma Agree.label {l l'} (hL : Relator.BiUnique L) (hr : Agree T L r r') (hl : L l.name l'.name) :
    (r'.label l').1 = (r.label l).1 ∧ Agree T L (r.label l).2 (r'.label l').2 := by
  obtain ⟨hnum, hlabels⟩ := hr.labels.numberOf hL hl
  refine ⟨?_, hr.temps, hlabels⟩
  simp only [Renaming.label]
  rw [hnum]

/-- Operands that correspond become the same. -/
lemma Agree.operand {v v'} (hT : Relator.BiUnique T) (hL : Relator.BiUnique L) (hr : Agree T L r r')
    (hv : Option.Rel (Operand.Renamed T L) v v') :
    (r'.operand v').1 = (r.operand v).1 ∧ Agree T L (r.operand v).2 (r'.operand v').2 := by
  cases hv with
  | none => exact ⟨rfl, hr⟩
  | some hv =>
    cases hv with
    | const | global => exact ⟨rfl, hr⟩
    | temp h =>
      obtain ⟨hnum, htemps⟩ := hr.temps.numberOf hT h
      refine ⟨?_, htemps, hr.labels⟩
      simp only [Renaming.operand]
      rw [hnum]
    | label h =>
      obtain ⟨hlabel, hagree⟩ := hr.label hL h
      refine ⟨?_, hagree⟩
      simp only [Renaming.operand]
      rw [hlabel]

/-- Lists of operands that correspond become the same. -/
lemma Agree.operands {vs vs'} (hT : Relator.BiUnique T) (hL : Relator.BiUnique L)
    (hr : Agree T L r r') (hvs : List.Forall₂ (Option.Rel (Operand.Renamed T L)) vs vs') :
    (r'.operands vs').1 = (r.operands vs).1 ∧ Agree T L (r.operands vs).2 (r'.operands vs').2 := by
  induction hvs generalizing r r' with
  | nil => exact ⟨rfl, hr⟩
  | cons hv hvs ih =>
    obtain ⟨hfirst, hr1⟩ := hr.operand hT hL hv
    obtain ⟨hrest, hr2⟩ := ih hr1
    exact ⟨congrArg₂ List.cons hfirst hrest, hr2⟩

/-- Tests that correspond become the same. -/
lemma Agree.test {t t'} (hT : Relator.BiUnique T) (hL : Relator.BiUnique L) (hr : Agree T L r r')
    (ht : Option.Rel (Test.Renamed T L) t t') :
    (r'.test t').1 = (r.test t).1 ∧ Agree T L (r.test t).2 (r'.test t').2 := by
  cases ht with
  | none => exact ⟨rfl, hr⟩
  | some ht =>
    obtain ⟨hleft, hr1⟩ := hr.operand hT hL ht.left
    obtain ⟨hright, hr2⟩ := hr1.operand hT hL ht.right
    refine ⟨?_, hr2⟩
    simp only [Renaming.test, ht.op_eq, hleft, hright]

/-- Targets that correspond become the same. -/
lemma Agree.target {l l'} (hL : Relator.BiUnique L) (hr : Agree T L r r')
    (hl : Option.Rel (fun l l' : Label => L l.name l'.name) l l') :
    (r'.target l').1 = (r.target l).1 ∧ Agree T L (r.target l).2 (r'.target l').2 := by
  cases hl with
  | none => exact ⟨rfl, hr⟩
  | some hl =>
    obtain ⟨hlabel, hagree⟩ := hr.label hL hl
    exact ⟨congrArg some hlabel, hagree⟩

/-- Instructions that correspond become the same. -/
lemma Agree.instr {i i'} (hT : Relator.BiUnique T) (hL : Relator.BiUnique L) (hr : Agree T L r r')
    (hi : i.Renamed T L i') : (r'.instr i').1 = (r.instr i).1 ∧
    Agree T L (r.instr i).2 (r'.instr i').2 := by
  obtain ⟨htest, hr1⟩ := hr.test hT hL hi.test
  obtain ⟨hargs, hr2⟩ := hr1.operands hT hL hi.args
  obtain ⟨hres, hr3⟩ := hr2.operand hT hL hi.result
  obtain ⟨htarget, hr4⟩ := hr3.target hL hi.target
  refine ⟨?_, hr4⟩
  simp only [Renaming.instr, hi.op_eq, htest, hargs, hres, htarget]

/-- Code that corresponds becomes the same. -/
lemma Agree.code {code code'} (hT : Relator.BiUnique T) (hL : Relator.BiUnique L)
    (hr : Agree T L r r') (hcode : List.Forall₂ (Instr.Renamed T L) code code') :
    r'.code code' = r.code code := by
  induction hcode generalizing r r' with
  | nil => rfl
  | cons hi hcode ih =>
    obtain ⟨hfirst, hr1⟩ := hr.instr hT hL hi
    exact congrArg₂ List.cons hfirst (ih hr1)

end Renaming

/-- Code that differs only in the names of temporaries and labels has the same canonical listing, or
none, if the names correspond one to one. -/
theorem canonical?_of_renamed {T L code code'} (hT : Relator.BiUnique T) (hL : Relator.BiUnique L)
    (hcode : List.Forall₂ (Instr.Renamed T L) code code') : canonical? code' = canonical? code := by
  have hstart : Renaming.Agree T L {} {} := ⟨⟨rfl, fun _ => rfl⟩, ⟨rfl, fun _ => rfl⟩⟩
  rw [canonical?, canonical?, hstart.code hT hL hcode]

end ThreeAddress
