import ThreeAddress.Proofs.Scope

/-!
# Symbol tables under any history

A table is built by requests to declare names, some of which succeed and some of which fail. The
names and types of those that have succeeded are its log. A table `Records` its log: it lists the
names of the log in the order of their first entries, the index leads each of them to its place in
the list and no other name anywhere, and each has the type of its first entry. Every request keeps
this, with the log longer by one entry if it has succeeded, and so it holds after every history.
-/

namespace ThreeAddress

open List

/-- Names without their repetitions are different. -/
lemma nodup_eraseDups : ∀ names : List String, names.eraseDups.Nodup
  | [] => nodup_nil
  | x :: xs => by
    rw [eraseDups_cons, nodup_cons, mem_eraseDups]
    exact ⟨by simp, nodup_eraseDups _⟩
termination_by names => names.length
decreasing_by exact Nat.lt_succ_of_le (length_filter_le _ _)

namespace SymbolTable

/-- A request to declare a name with a type keyword, at a token. -/
structure Request where
  name : String
  keyword : String
  token : Token := {}

/-- What a request comes to, and the table after it. -/
def Request.ask (t : SymbolTable) (r : Request) : Except LowerFault Symbol × SymbolTable :=
  declare t r.name r.keyword r.token

/-- The table after several requests. -/
def afterAll (t : SymbolTable) (rs : List Request) :
    SymbolTable := rs.foldl (fun t r => (r.ask t).2) t

/-- The names and types of the requests that succeed, in their order. -/
def successes (t : SymbolTable) : List Request → List (String × ValueType)
  | [] => []
  | r :: rs =>
    match r.ask t with
    | (.ok _, t') => (r.name, .ofKeyword r.keyword) :: successes t' rs
    | (.error _, t') => successes t' rs

/-- A table tells what a log says: the first entries of its names. -/
structure Records (t : SymbolTable) (log : List (String × ValueType)) : Prop where
  names : t.order.map Symbol.name = (log.map Prod.fst).eraseDups
  nodup : (t.order.map Symbol.name).Nodup
  index_iff : ∀ x i, t.index.lookup x = some i ↔ (log.map Prod.fst).eraseDups[i]? = some x
  has_iff : ∀ x, has t x = true ↔ x ∈ log.map Prod.fst
  lookup_iff : ∀ x type, lookup t x = .ok type ↔ log.lookup x = some type
  valid : ∀ x ∈ t.order.map Symbol.name, isValidName x = true

variable {t : SymbolTable} {log : List (String × ValueType)} {name keyword : String} {token : Token}

/-! ## One request -/

/-- A request that succeeds lists its name behind those before it, unless it repeats one. -/
lemma names_declare {s t' names} (h : declare t name keyword token = (.ok s, t'))
    (hnames : t.order.map Symbol.name = eraseDups names) :
    t'.order.map Symbol.name = (names ++ [name]).eraseDups := by
  obtain ⟨-, -, horder⟩ := declare_eq_ok h
  have hmem : has t name = true ↔ name ∈ names := by rw [has_iff_mem, hnames, mem_eraseDups]
  rw [eraseDups_append, ← hnames, horder]
  by_cases hhas : has t name = true
  · simp [hhas, removeAll, hmem.mp hhas]
  · simp [hhas, removeAll, mt hmem.mpr hhas, eraseDups_cons]

/-! ## Histories -/

namespace Records

lemma of_names (hnames : t.order.map Symbol.name = (log.map Prod.fst).eraseDups)
    (hlookup : ∀ x type, lookup t x = .ok type ↔ log.lookup x = some type)
    (hvalid : ∀ x ∈ t.order.map Symbol.name, isValidName x = true) : Records t log where
  names := hnames
  nodup := hnames ▸ nodup_eraseDups _
  index_iff x i := by rw [t.inStep, ← hnames, getElem?_map]
  has_iff x := by rw [has_iff_mem, hnames, mem_eraseDups]
  lookup_iff := hlookup
  valid := hvalid

lemma nil : Records {} [] := .of_names rfl (by simp [lookup, find]) (forall_mem_nil _)

/-- A request that succeeds makes the log longer. -/
lemma declare (h : Records t log) {s t'} (hok : declare t name keyword token = (.ok s, t')) :
    Records t' (log ++ [(name, .ofKeyword keyword)]) := by
  have hnames := names_declare hok h.names
  refine .of_names (by rwa [map_append]) (fun x type => ?_) fun x hx => ?_
  · have hbefore : scope t x = log.lookup x := by
      ext type
      rw [← lookup_eq_ok_iff, h.lookup_iff]
    rw [lookup_eq_ok_iff, scope_declare hok, lookup_append, hbefore]
    by_cases hx : x = name
    · rw [hx, if_pos rfl, lookup_cons_self]
    · rw [if_neg hx, lookup_cons, beq_eq_false_iff_ne.mpr hx, lookup_nil]
  · rw [hnames, mem_eraseDups, mem_append, ← mem_eraseDups, ← h.names, mem_singleton] at hx
    rcases hx with hx | rfl
    · exact h.valid x hx
    · exact (declare_eq_ok hok).1

/-- A table keeps to its log under any requests. -/
lemma afterAll (h : Records t log) (rs : List Request) :
    Records (t.afterAll rs) (log ++ successes t rs) := by
  induction rs generalizing t log with
  | nil => rwa [successes, append_nil]
  | cons r rs ih =>
    rw [SymbolTable.afterAll, foldl_cons, successes]
    rcases hasked : r.ask t with ⟨outcome, t'⟩
    cases outcome with
    | error fault =>
      obtain rfl := declare_of_error hasked
      exact ih h
    | ok s =>
      have hnext := ih (h.declare hasked)
      rwa [append_assoc] at hnext

end Records

/-- After every history of requests on a new table, the table tells the first successes of the names
and nothing else, in its list and in its index alike; later requests leave them so. A request fails
exactly if its name is empty, begins with an underscore or has another type; and one that fails or
repeats a name leaves the table as it was. -/
theorem history_recorded (history : List Request) :
    let t := afterAll {} history
    Records t (successes {} history) ∧
    (∀ x type more, lookup t x = .ok type → lookup (afterAll {} (history ++ more)) x = .ok type) ∧
    (∀ x ∈ t.order.map Symbol.name, x ≠ "" ∧ x.toList.head? ≠ some '_') ∧
    ∀ r : Request,
      ((∃ fault, (r.ask t).1 = .error fault) ↔ r.name = "" ∨ r.name.toList.head? = some '_' ∨
        ∃ type, lookup t r.name = .ok type ∧ type ≠ .ofKeyword r.keyword) ∧
      (afterAll {} (history ++ [r]) = t ↔ (∃ fault, (r.ask t).1 = .error fault) ∨
        has t r.name = true) := by
  intro t
  have hrecords : Records t (successes {} history) := Records.nil.afterAll history
  have happend : ∀ more, afterAll {} (history ++ more) = afterAll t more := fun more => foldl_append
  refine ⟨hrecords, fun x type more hx => ?_, fun x hx => isValidName_iff.mp (hrecords.valid x hx),
    fun r => ⟨?_, ?_⟩⟩
  · have hmore := hrecords.afterAll more
    rw [happend, hmore.lookup_iff, lookup_append, (hrecords.lookup_iff x type).mp hx,
      Option.some_or]
  · have hfails : (∃ fault, (r.ask t).1 = .error fault) ↔ ¬ ∃ s, (r.ask t).1 = .ok s := by
      cases (r.ask t).1 <;> simp
    rw [hfails, Request.ask, exists_declare_eq_ok_iff, isValidName_iff]
    simp only [lookup_eq_ok_iff]
    grind
  · have hlast : afterAll t [r] = (r.ask t).2 := rfl
    rw [happend, hlast]
    rcases hasked : r.ask t with ⟨outcome, t'⟩
    cases outcome with
    | error fault => simp [declare_of_error hasked]
    | ok s =>
      obtain ⟨-, hsame, horder⟩ := declare_eq_ok hasked
      cases hhas : has t r.name with
      | true => simp [hsame hhas]
      | false =>
        have hlonger : t' ≠ t := by
          rintro rfl
          simp [hhas] at horder
        simp [hlonger]

end SymbolTable

end ThreeAddress
