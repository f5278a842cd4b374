import Mathlib.Tactic.Common
import ThreeAddress.SymbolTable

/-!
# Scopes

A scope gives the declared names their types. A symbol table describes one, and so do the
declarations of a tree: a name has the type of its first declaration. Declaring a name adds it to
the scope of a table unless it is there already, and counting a use changes the table but not its
scope.
-/

namespace ThreeAddress

open List

/-- The declared type of each name. -/
abbrev Scope := String → Option ValueType

namespace SymbolTable

variable {t t' : SymbolTable} {name keyword : String} {token : Token}

/-- The scope that a symbol table describes. -/
def scope (t : SymbolTable) : Scope := fun name => (find t name).map Symbol.type

/-- The names of the list are those of the index. -/
lemma has_iff_mem : has t name = true ↔ name ∈ t.order.map Symbol.name := by
  rw [has, Option.isSome_iff_exists, mem_iff_getElem?]
  exact exists_congr fun i => by rw [t.inStep name i, getElem?_map]

lemma has_eq_isSome : has t name = (find t name).isSome := by
  cases hfind : find t name with
  | none => rw [has, index_eq_none_of_find hfind, Option.isSome_none, Option.isSome_none]
  | some s =>
    obtain ⟨i, hi, -⟩ := Option.bind_eq_some_iff.mp hfind
    rw [has, hi, Option.isSome_some, Option.isSome_some]

/-- A name finds the only symbol that has it. -/
lemma find_eq_some_iff {s} : find t name = some s ↔ s ∈ t.order ∧ s.name = name := by
  constructor
  · intro h
    obtain ⟨i, hi, hs⟩ := Option.bind_eq_some_iff.mp h
    have hname := (t.inStep name i).mp hi
    rw [hs, Option.map_some, Option.some_inj] at hname
    exact ⟨mem_of_getElem? hs, hname⟩
  · rintro ⟨hs, rfl⟩
    obtain ⟨i, hi⟩ := mem_iff_getElem?.mp hs
    have hplace := (t.inStep s.name i).mpr (by rw [hi, Option.map_some])
    rw [find, hplace, Option.bind_some, hi]

lemma find_eq_find? (t : SymbolTable) (name : String) :
    find t name = t.order.find? (·.name == name) := by
  cases hfirst : t.order.find? (·.name == name) with
  | some s =>
    exact find_eq_some_iff.mpr
      ⟨mem_of_find?_eq_some hfirst, by simpa using find?_some hfirst⟩
  | none =>
    refine Option.eq_none_iff_forall_ne_some.mpr fun s hs => ?_
    obtain ⟨hmem, hname⟩ := find_eq_some_iff.mp hs
    exact find?_eq_none.mp hfirst s hmem (by simpa using hname)

/-- A name finds the symbol that was added for it. -/
lemma find_add {s : Symbol} (h : t.index.lookup s.name = none) (x : String) :
    find (t.add s h) x = if x = s.name then some s else find t x := by
  by_cases hx : x = s.name
  · simp [find, add, hx]
  · rw [if_neg hx, find, add, lookup_cons, beq_eq_false_iff_ne.mpr hx]
    refine Option.bind_congr fun i hi => getElem?_append_left ?_
    have hplace := (t.inStep x i).mp hi
    exact Nat.lt_of_not_le fun hlen => by simp [getElem?_eq_none hlen] at hplace

/-- Counting a use keeps the symbol that a name finds, up to the number of its uses. -/
lemma scope_use (t : SymbolTable) (name : String) : scope (use t name) = scope t := by
  funext x
  unfold use
  split
  · rename_i i _
    simp only [scope, find, Option.map_bind]
    refine Option.bind_congr fun j _ => ?_
    rw [Function.comp_apply, Function.comp_apply, getElem?_modify]
    cases t.order[j]? with
    | none => rfl
    | some s => by_cases hij : i = j <;> simp [hij]
  · rfl

/-- A use is counted at the symbol with the name. -/
lemma order_use (t : SymbolTable) (name : String) : (use t name).order =
    t.order.map fun s => if s.name = name then { s with uses := s.uses + 1 } else s := by
  refine ext_getElem? fun j => ?_
  rw [getElem?_map]
  have hplace := t.inStep name j
  unfold use
  split
  · rename_i i hi
    rw [hi, Option.some_inj] at hplace
    rw [getElem?_modify]
    cases hj : t.order[j]? with
    | none => rfl
    | some s =>
      rw [hj, Option.map_some, Option.some_inj] at hplace
      simp [hplace]
  · rename_i hnone
    rw [hnone] at hplace
    cases hj : t.order[j]? with
    | none => rfl
    | some s =>
      rw [hj, Option.map_some, Option.some_inj] at hplace
      simp [mt hplace.mpr nofun]

lemma lookup_eq_ok_iff {type} : lookup t name = .ok type ↔ scope t name = some type := by
  unfold lookup scope
  cases find t name with
  | none | some => simp

lemma isValidName_iff {name} : isValidName name = true ↔ name ≠ "" ∧
    name.toList.head? ≠ some '_' := by
  unfold isValidName
  rw [Ne, ← String.toList_inj]
  cases name.toList with
  | nil => simp
  | cons c cs => simp

/-- What a declaration can come to. The table is the same unless there is a new symbol at the end.
-/
inductive Declared (t : SymbolTable) (name keyword : String) (token : Token) :
    Except LowerFault Symbol × SymbolTable → Prop
  | added (hvalid : isValidName name = true) (h : t.index.lookup name = none) :
      Declared t name keyword token (.ok { name, type := .ofKeyword keyword, token },
        t.add { name, type := .ofKeyword keyword, token } h)
  | repeated {s} (hvalid : isValidName name = true) (h : find t name = some s)
      (htype : s.type = .ofKeyword keyword) :
      Declared t name keyword token (.ok s, t)
  | refused {s} (hvalid : isValidName name = true) (h : find t name = some s)
      (htype : s.type ≠ .ofKeyword keyword) :
      Declared t name keyword token (.error (.redeclared name (.ofKeyword keyword) s.type), t)
  | invalid (h : isValidName name = false) :
      Declared t name keyword token (.error (.invalidName name), t)

lemma declared (t : SymbolTable) (name keyword : String) (token : Token) :
    Declared t name keyword token (declare t name keyword token) := by
  unfold declare
  split
  · rename_i hvalid
    dsimp only
    split
    · rename_i s hfind
      split
      · rename_i htype
        exact .repeated hvalid hfind htype
      · rename_i htype
        exact .refused hvalid hfind htype
    · exact .added hvalid _
  · rename_i hvalid
    exact .invalid (Bool.eq_false_iff.mpr hvalid)

/-- A declaration that fails leaves no trace. -/
lemma declare_of_error {fault}
    (h : declare t name keyword token = (.error fault, t')) : t' = t := by
  have hdeclared := declared t name keyword token
  rw [h] at hdeclared
  cases hdeclared <;> rfl

/-- A declaration that succeeds adds a new name at the end, and leaves a table that has the name as
it was. -/
lemma declare_eq_ok {s} (h : declare t name keyword token = (.ok s, t')) :
    isValidName name = true ∧ (has t name = true → t' = t) ∧
      t'.order = if has t name then t.order else t.order ++
      [{ name, type := .ofKeyword keyword, token }] := by
  have hdeclared := declared t name keyword token
  rw [h] at hdeclared
  cases hdeclared with
  | added hvalid hnew =>
    have hhas : has t name = false := by rw [has, hnew, Option.isSome_none]
    simp [hhas, hvalid, add]
  | repeated hvalid hfind =>
    have hhas : has t name = true := by rw [has_eq_isSome, hfind, Option.isSome_some]
    simp [hhas, hvalid]

/-- A declaration adds its name to the scope, where the name keeps the type it had before. -/
lemma scope_declare {s} (h : declare t name keyword token = (.ok s, t')) (x : String) :
    scope t' x = (scope t x).or (if x = name then some (.ofKeyword keyword) else none) := by
  have hdeclared := declared t name keyword token
  rw [h] at hdeclared
  cases hdeclared with
  | added _ hnew =>
    have hnone : find t name = none := by rw [find, hnew, Option.bind_none]
    by_cases hx : x = name
    · simp [scope, find_add, hx, hnone]
    · simp [scope, find_add, hx]
  | repeated _ hfind htype =>
    by_cases hx : x = name
    · simp [scope, hx, hfind, htype]
    · simp [hx]

/-- A name can be declared if it is valid and has no other type already. -/
lemma exists_declare_eq_ok_iff : (∃ r, (declare t name keyword token).1 = .ok r) ↔
    isValidName name = true ∧ ∀ type, scope t name = some type → type = .ofKeyword keyword := by
  have hdeclared := declared t name keyword token
  generalize declare t name keyword token = r at hdeclared
  cases hdeclared with
  | added hvalid hnew =>
    have hnone : find t name = none := by rw [find, hnew, Option.bind_none]
    simp [hvalid, scope, hnone]
  | repeated hvalid hfind htype => simp [hvalid, scope, hfind, htype]
  | refused hvalid hfind htype => simp [scope, hfind, htype]
  | invalid hvalid => simp [hvalid]

end SymbolTable

/-- The name that a declaration declares, with its type. -/
def Tree.declared? : Tree → Option (String × ValueType)
  | .node _ _ keyword _ [.node .identifier _ name _ _] => some (name, .ofKeyword keyword)
  | _ => none

/-- The scope of several declarations. -/
def declaredScope (declarations : List Tree) : Scope := fun x =>
  (declarations.filterMap Tree.declared?).lookup x

lemma declaredScope_append (ts us : List Tree) (x : String) :
    declaredScope (ts ++ us) x = (declaredScope ts x).or (declaredScope us x) := by
  simp only [declaredScope, filterMap_append, lookup_append]

/-- The scope of a single declaration has its name only. -/
lemma declaredScope_singleton {t name type} (h : t.declared? = some (name, type)) (x : String) :
    declaredScope [t] x = if x = name then some type else none := by
  simp only [declaredScope, filterMap_cons, h, filterMap_nil]
  by_cases hx : x = name
  · rw [hx, lookup_cons_self, if_pos rfl]
  · rw [lookup_cons, beq_eq_false_iff_ne.mpr hx, if_neg hx]
    rfl

/-- The scope of a program. -/
def Tree.scope (root : Tree) : Scope := declaredScope root.declarations

end ThreeAddress
