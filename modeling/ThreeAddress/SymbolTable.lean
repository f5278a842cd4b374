import ThreeAddress.Lowering.Fault

/-!
# Symbol tables

A program has a single scope. A table lists its symbols in the order of their first declarations,
and an index tells where the symbol of a name stands in the list; the two are kept in step. A symbol
keeps the type and the place of its first declaration; a later declaration must agree with the type
and changes nothing. Names that begin with an underscore belong to the compiler and cannot be
declared.
-/

namespace ThreeAddress

/-- A declared variable, with the number of its uses. -/
structure Symbol where
  name : String
  type : ValueType
  token : Token := {}
  uses : Nat := 0
  deriving DecidableEq, Repr

/-- The index leads a name to a place in the list if a symbol with this name stands there. -/
def InStep (order : List Symbol) (index : List (String × Nat)) : Prop :=
  ∀ name i, index.lookup name = some i ↔ order[i]?.map Symbol.name = some name

theorem InStep.nil : InStep [] [] := fun name i => by simp

/-- A symbol with a new name can be added at the end. -/
theorem InStep.add {order : List Symbol} {index : List (String × Nat)}
    (h : InStep order index) {s : Symbol} (hnew : index.lookup s.name = none) :
    InStep (order ++ [s]) ((s.name, order.length) :: index) := by
  intro name i
  have hname := h name i
  by_cases hs : name = s.name
  · subst hs
    rw [List.lookup_cons_self]
    rcases Nat.lt_trichotomy i order.length with hi | rfl | hi
    · have hother : order[i]?.map Symbol.name ≠ some s.name := by simp [← hname, hnew]
      rw [List.getElem?_append_left hi]
      exact iff_of_false (fun he => Nat.ne_of_gt hi (Option.some.inj he)) hother
    · simp
    · rw [List.getElem?_eq_none (by simp; omega)]
      exact iff_of_false (fun he => Nat.ne_of_lt hi (Option.some.inj he)) (by simp)
  · rw [List.lookup_cons, beq_eq_false_iff_ne.mpr hs]
    rcases Nat.lt_trichotomy i order.length with hi | rfl | hi
    · rw [List.getElem?_append_left hi]
      exact hname
    · rw [List.getElem?_eq_none (Nat.le_refl _)] at hname
      simpa [Ne.symm hs] using hname
    · rw [List.getElem?_eq_none (by simp; omega)]
      rw [List.getElem?_eq_none (by omega)] at hname
      exact hname

/-- A symbol can be changed as long as it keeps its name. -/
theorem InStep.modify {order : List Symbol} {index : List (String × Nat)}
    (h : InStep order index) (i : Nat) {f : Symbol → Symbol} (hf : ∀ s, (f s).name = s.name) :
    InStep (order.modify i f) index := by
  intro name j
  rw [h name j, List.getElem?_modify]
  cases order[j]? with
  | none => exact Iff.rfl
  | some s => by_cases hij : i = j <;> simp [hij, hf]

/-- The declared variables, in order of first declaration, and where each name stands among them. -/
structure SymbolTable where
  order : List Symbol := []
  index : List (String × Nat) := []
  inStep : InStep order index := by exact InStep.nil
  deriving DecidableEq, Repr

namespace SymbolTable

/-- The symbol with a name. -/
def find (t : SymbolTable) (name : String) : Option Symbol :=
  (t.index.lookup name).bind fun i => t.order[i]?

/-- Whether a name is declared. -/
def has (t : SymbolTable) (name : String) : Bool :=
  (t.index.lookup name).isSome

/-- The type of a declared name. -/
def lookup (t : SymbolTable) (name : String) : Except LowerFault ValueType :=
  match find t name with
  | some s => .ok s.type
  | none => .error (.undeclared name)

/-- Whether a name can be declared. -/
def isValidName (name : String) : Bool :=
  match name.toList with
  | [] => false
  | c :: _ => c != '_'

/-- The index leads every name that is there to a symbol. -/
theorem index_eq_none_of_find {t : SymbolTable} {name : String} (h : find t name = none) :
    t.index.lookup name = none := by
  cases hindex : t.index.lookup name with
  | none => rfl
  | some i =>
    rw [find, hindex, Option.bind_some] at h
    have hname := (t.inStep name i).mp hindex
    rw [h] at hname
    cases hname

/-- Adds a symbol with a new name. -/
def add (t : SymbolTable) (s : Symbol) (h : t.index.lookup s.name = none) : SymbolTable where
  order := t.order ++ [s]
  index := (s.name, t.order.length) :: t.index
  inStep := t.inStep.add h

/-- What a declaration of a name at a token with a type keyword comes to, and the table after it. -/
def declare (t : SymbolTable) (name keyword : String) (token : Token) :
    Except LowerFault Symbol × SymbolTable :=
  if isValidName name then
    let type := ValueType.ofKeyword keyword
    match h : find t name with
    | some s =>
      if s.type = type then (.ok s, t) else (.error (.redeclared name type s.type), t)
    | none =>
      let s : Symbol := { name, type, token }
      (.ok s, t.add s (index_eq_none_of_find h))
  else (.error (.invalidName name), t)

/-- Counts a use of a name. -/
def use (t : SymbolTable) (name : String) : SymbolTable :=
  match t.index.lookup name with
  | some i =>
    { t with
      order := t.order.modify i fun s => { s with uses := s.uses + 1 }
      inStep := t.inStep.modify i fun _ => rfl }
  | none => t

end SymbolTable

end ThreeAddress
