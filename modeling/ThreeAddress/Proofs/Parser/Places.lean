import ThreeAddress.Proofs.Parser.Soundness
import ThreeAddress.Proofs.Token.Layout

/-!
# Places do not matter to the parser

The reader asks for the kinds of tokens, and copies their texts and places into the tree. So
forgetting the places of all tokens before reading, and forgetting them in the tree, comes to the
same (`parse_unplaced`). This is shown of each of its steps (`Read.Unplaces`). The length of a token
belongs to its place: the value of a case reaches from its sign to its digits, so that it is the
longer the more stands between them.

Together with what is known of the scanner, the layout of a source text does not matter to its tree.
-/

namespace ThreeAddress

open List

/-! ## Forgetting places -/

/-- A token without its line, its column and its length. -/
def Token.unplaced (t : Token) : Token := { t with line := 0, column := 0, length := 0 }

mutual

/-- A tree without the places of its tokens. -/
def Tree.unplaced : Tree → Tree
  | .absent => .absent
  | .node kind token value ops children =>
      .node kind token.unplaced value ops (Tree.unplacedAll children)

/-- Trees without the places of their tokens. -/
def Tree.unplacedAll : List Tree → List Tree
  | [] => []
  | t :: ts => t.unplaced :: Tree.unplacedAll ts

end

@[simp]
lemma Tree.unplacedAll_eq_map (ts : List Tree) : Tree.unplacedAll ts = ts.map Tree.unplaced := by
  induction ts with
  | nil => rfl
  | cons t ts ih => rw [Tree.unplacedAll, ih, map_cons]

/-- A branch without its places. -/
@[simp]
lemma Tree.unplaced_branch (kind : NodeKind) (token : Token) (children : List Tree) :
    (Tree.branch kind token children).unplaced = .branch kind token.unplaced
    (children.map Tree.unplaced) := by
  rw [Tree.branch, Tree.unplaced, Tree.unplacedAll_eq_map, Tree.branch]

lemma Tree.unplaced_node (kind : NodeKind) (token : Token) (value : String) (ops : List TokenKind)
    (children : List Tree) :
    (Tree.node kind token value ops children).unplaced =
      .node kind token.unplaced value ops (children.map Tree.unplaced) := by
  rw [Tree.unplaced, Tree.unplacedAll_eq_map]

/-! ## Readings -/

/-- A cursor without the places of its tokens. -/
def Cursor.unplaced (p : Cursor) : Cursor where
  tokens := p.tokens.map Token.unplaced
  pos := p.pos
  current := p.current.unplaced
  previous := p.previous.unplaced

/-- An end without a result, without places. -/
def Halt.unplaced : Halt → Halt
  | .fault e => .fault { e with token := e.token.unplaced }
  | .outOfRange => .outOfRange
  | .exhausted => .exhausted

/-- What reading comes to, without places. -/
def unplacedOutcome {α β : Type} (f : α → β) : Except Halt α → Except Halt β
  | .ok a => .ok (f a)
  | .error h => .error h.unplaced

namespace Read

variable {α β γ δ : Type} {f : α → γ} {g : β → δ} {x y : Read β} {x' y' : Read δ}

/-- Without places, one reading goes as another does with them. -/
def Unplaces (g : β → δ) (x : Read β) (x' : Read δ) : Prop :=
  ∀ p : Cursor, x' p.unplaced = unplacedOutcome (Prod.map g Cursor.unplaced) (x p)

namespace Unplaces

lemma pure {b : β} {d : δ} (h : g b = d) : Unplaces g (pure b) (pure d) := fun _ => by
  rw [← h]
  rfl

lemma bind {x : Read α} {x' : Read γ} {k : α → Read β} {k' : γ → Read δ} (hx : Unplaces f x x')
    (hk : ∀ a, Unplaces g (k a) (k' (f a))) : Unplaces g (x >>= k) (x' >>= k') := by
  intro p
  rw [bind_run, bind_run, hx p]
  cases x p with
  | error h => rfl
  | ok q => exact hk q.1 q.2

lemma get {k : Cursor → Read β} {k' : Cursor → Read δ}
    (hk : ∀ p : Cursor, Unplaces g (k p) (k' p.unplaced)) :
    Unplaces g (get >>= k) (get >>= k') := fun p => hk p p

lemma fail (t : Token) (fault : ParseFault) : Unplaces g (fail t fault)
    (fail t.unplaced fault) := fun _ => rfl

lemma exhausted : Unplaces g exhausted exhausted := fun _ => rfl

lemma ite (b : Prop) [Decidable b] (hx : Unplaces g x x') (hy : Unplaces g y y') :
    Unplaces g (if b then x else y) (if b then x' else y') := by
  split
  · exact hx
  · exact hy

lemma refuseIllegal : Unplaces id refuseIllegal refuseIllegal :=
  get fun p => ite (p.current.kind = .illegal) (fail _ _) (pure rfl)

lemma tokenAt (tokens : Array Token) (i : Nat) :
    Unplaces Token.unplaced (liftM (tokenAt tokens i))
    (liftM (ThreeAddress.tokenAt (tokens.map Token.unplaced) i)) := by
  intro p
  rw [ThreeAddress.tokenAt, ThreeAddress.tokenAt, Array.getElem?_map]
  cases tokens[i]? <;> rfl

lemma set (p : Cursor) : Unplaces (fun a => a) (set p) (set p.unplaced) := fun _ => rfl

lemma advance : Unplaces id advance advance := by
  refine get fun p => ?_
  have hsize : p.unplaced.tokens.size = p.tokens.size := Array.size_map
  rw [hsize]
  refine ite (p.pos < p.tokens.size - 1) (bind (tokenAt _ _) fun next => ?_) refuseIllegal
  exact bind (set { p with pos := p.pos + 1, current := next, previous := p.current }) fun _ =>
    refuseIllegal

lemma check (kinds : TokenKind → Bool) : Unplaces id (check kinds) (check kinds) :=
  bind refuseIllegal fun _ => get fun _ => pure rfl

lemma ifCheck {kinds : TokenKind → Bool} (hx : Unplaces g x x') (hy : Unplaces g y y') :
    Unplaces g (Read.check kinds >>= fun b => if b = true then x else y)
      (Read.check kinds >>= fun b => if b = true then x' else y') :=
      bind (check kinds) fun _ => ite _ hx hy

lemma accept (kind : TokenKind) : Unplaces id (accept kind) (accept kind) :=
  ifCheck (bind advance fun _ => pure rfl) (pure rfl)

lemma ifAccept {kind : TokenKind} (hx : Unplaces g x x') (hy : Unplaces g y y') :
    Unplaces g (Read.accept kind >>= fun b => if b = true then x else y)
      (Read.accept kind >>= fun b => if b = true then x' else y') :=
      bind (accept kind) fun _ => ite _ hx hy

lemma expect (kind : TokenKind) (fault : ParseFault) :
    Unplaces Token.unplaced (expect kind fault) (expect kind fault) :=
  ifCheck (bind advance fun _ => get fun _ => pure rfl) (get fun p => fail p.current fault)

end Unplaces

/-- A reading of a tree goes in the same way without places. -/
abbrev Placeless (x : Read Tree) : Prop := Unplaces Tree.unplaced x x

lemma unplaces_signs (k : Rank) (n : Nat) : Unplaces id (signs k n) (signs k n) := by
  induction n with
  | zero => exact .exhausted
  | succ n ih =>
    exact .ifCheck (.get fun _ => .bind .advance fun _ => .bind ih fun _ => .pure rfl) (.pure rfl)

section Levels

variable {n : Nat} {k : Rank} {operand : Read Tree} (h : Placeless operand)

include h

lemma placeless_marked : Placeless (marked n k operand) :=
  .get fun _ => .bind (unplaces_signs k n) fun _ => .bind h fun _ => .ite _ (.pure rfl) (.pure rfl)

lemma unplaces_chainRest :
    Unplaces (map (Prod.map id Tree.unplaced)) (chainRest k operand n) (chainRest k operand n) := by
  induction n with
  | zero => exact .exhausted
  | succ n ih =>
    refine .ifCheck (.get fun _ => .bind .advance fun _ => ?_) (.pure rfl)
    exact .bind h fun _ => .bind ih fun _ => .pure rfl

lemma unplaces_comparisonRest :
    Unplaces (map (Prod.map id Tree.unplaced)) (comparisonRest operand)
    (comparisonRest operand) := by
  refine .get fun _ => .ite _ (.bind .advance fun _ => ?_) (.pure rfl)
  exact .bind h fun _ => .get fun _ => .ite _ (.fail _ _) (.pure rfl)

lemma placeless_joined {rest : Read (List (TokenKind × Tree))}
    (hrest : Unplaces (map (Prod.map id Tree.unplaced)) rest rest) :
    Placeless (joined k operand rest) := by
  refine .get fun p => .bind h fun e => .bind hrest fun rest => ?_
  rw [isEmpty_map]
  refine .ite _ (.pure rfl) (.pure ?_)
  rw [Tree.unplaced_node, map_map, map_cons, map_map, map_map]
  rfl

lemma placeless_primary : Placeless (primary operand) := by
  refine .get fun _ => .ifAccept (.bind h fun _ => .bind (.expect _ _) fun _ => .pure rfl) ?_
  exact .ifAccept (.pure rfl) (.ifAccept (.pure rfl)
    (.ifAccept (.pure rfl) (.ifAccept (.pure rfl) (.fail _ _))))

end Levels

lemma placeless_logic (n : Nat) : Placeless (logic n) := by
  induction n with
  | zero => exact .exhausted
  | succ n ih =>
    have hsigned : Placeless (signed n (logic n)) :=
      placeless_marked (placeless_marked (placeless_primary ih))
    have hproduct : Placeless (product n (logic n)) :=
      placeless_joined hsigned (unplaces_chainRest hsigned)
    have hsum : Placeless (sum n (logic n)) :=
      placeless_joined hproduct (unplaces_chainRest hproduct)
    have hcomparison : Placeless (comparison (sum n (logic n))) :=
      placeless_joined hsum (unplaces_comparisonRest hsum)
    exact placeless_joined hcomparison (unplaces_chainRest hcomparison)

lemma placeless_expression (n : Nat) : Placeless (expression n) :=
  .get fun _ => .bind (placeless_logic n) fun _ => .pure rfl

lemma placeless_heading (n : Nat) (heading : Heading) : Placeless (Read.heading n heading) :=
  .bind (.expect _ _) fun _ => .bind (placeless_expression n) fun _ =>
    .bind (.expect _ _) fun _ => .pure rfl

lemma placeless_assignment (n : Nat) : Placeless (assignment n) :=
  .get fun _ => .bind .advance fun _ => .bind (.expect _ _) fun _ =>
    .bind (placeless_expression n) fun _ =>
    .bind (.expect _ _) fun _ => .pure rfl

lemma placeless_caseValue : Placeless caseValue :=
  .get fun _ => .bind (.accept _) fun _ => .bind (.expect _ _) fun _ =>
    .bind (.expect _ _) fun _ => .pure rfl

section Statements

variable {n : Nat} {statement : Read Tree} (h : Placeless statement)

include h

lemma unplaces_statementsUntil (ends : TokenKind → Bool) :
    Unplaces (map Tree.unplaced) (statementsUntil ends statement n)
    (statementsUntil ends statement n) := by
  induction n with
  | zero => exact .exhausted
  | succ n ih => exact .ifCheck (.pure rfl) (.bind h fun _ => .bind ih fun _ => .pure rfl)

lemma unplaces_clauses :
    Unplaces (map Tree.unplaced) (clauses statement n) (clauses statement n) := by
  induction n with
  | zero => exact .exhausted
  | succ n ih =>
    have hbody := unplaces_statementsUntil (n := n) h endsClause
    refine .ifCheck (.pure rfl) (.get fun _ => .ifAccept ?_ (.ifAccept ?_ (.fail _ _)))
    · exact .bind placeless_caseValue fun _ => .bind hbody fun _ => .bind ih fun _ =>
        .pure (by simp [Cursor.unplaced])
    · exact .bind (.expect _ _) fun _ => .bind hbody fun _ => .bind ih fun _ =>
        .pure (by simp [Cursor.unplaced])

lemma unplaces_selection (t : Token) :
    Unplaces Tree.unplaced (selection n statement t) (selection n statement t.unplaced) :=
  .bind (placeless_heading n _) fun _ => .bind (.expect _ _) fun _ =>
    .bind (unplaces_clauses h) fun _ =>
    .bind (.expect _ _) fun _ => .pure (by simp)

lemma unplaces_statements :
    Unplaces (map Tree.unplaced) (statements statement n) (statements statement n) := by
  induction n with
  | zero => exact .exhausted
  | succ n ih =>
    refine .ifCheck (.pure rfl) (.ifCheck (.get fun _ => .fail _ _) ?_)
    exact .bind h fun _ => .bind ih fun _ => .pure rfl

end Statements

lemma placeless_statement (settings : Settings) (n : Nat) : Placeless (statement settings n) := by
  induction n with
  | zero => exact .exhausted
  | succ n ih =>
    refine .get fun p => .ifAccept (.pure rfl)
      (.ifAccept ?_ (.ifAccept ?_ (.ifAccept ?_ (.ifCheck ?_ ?_))))
    · refine .bind (unplaces_statementsUntil ih _) fun _ => .bind (.expect _ _) fun _ => .pure ?_
      simp [Tree.wrapStatement, Cursor.unplaced]
    · refine .bind (placeless_heading n _) fun _ => .bind ih fun _ => .ifAccept ?_ (.pure rfl)
      exact .bind ih fun _ => .pure rfl
    · exact .bind (placeless_heading n _) fun _ => .bind ih fun _ => .pure rfl
    · exact .ite _ (.bind .advance fun _ => .bind (unplaces_selection ih p.current) fun _ =>
        .pure rfl) (.fail _ _)
    · exact .ifCheck (placeless_assignment n)
        (.ifCheck (.fail _ _) (.ifCheck (.fail _ _) (.fail _ _)))

lemma unplaces_declaredNames (keyword : Token) (n : Nat) :
    Unplaces (map Tree.unplaced) (declaredNames keyword n) (declaredNames keyword.unplaced n) := by
  induction n with
  | zero => exact .exhausted
  | succ n ih =>
    exact .bind (.expect _ _) fun _ => .ifAccept (.bind ih fun _ => .pure rfl) (.pure rfl)

lemma unplaces_declarations (m n : Nat) :
    Unplaces (map Tree.unplaced) (declarations m n) (declarations m n) := by
  induction n with
  | zero => exact .exhausted
  | succ n ih =>
    have hdeclaration : Unplaces (map Tree.unplaced) (declaration m) (declaration m) :=
      .get fun p => .bind .advance fun _ => .bind (unplaces_declaredNames p.current m) fun _ =>
        .bind (.expect _ _) fun _ => .pure rfl
    exact .ifCheck (.bind hdeclaration fun _ => .bind ih fun _ => .pure map_append) (.pure rfl)

lemma placeless_program (settings : Settings) (n : Nat) : Placeless (program settings n) :=
  .get fun _ => .bind (unplaces_declarations n n) fun _ =>
    .bind (unplaces_statements (placeless_statement settings n)) fun _ =>
    .pure (by simp [Cursor.unplaced])

end Read

/-! ## Programs -/

/-- What reading comes to, without the places of its tokens. -/
def unplacedResult : Except ParseError Tree → Except ParseError Tree
  | .ok tree => .ok tree.unplaced
  | .error e => .error { e with token := e.token.unplaced }

lemma Token.terminated_unplaced (tokens : List Token) :
    Token.terminated (tokens.map Token.unplaced) =
    (Token.terminated tokens).map Token.unplaced := by
  have hlast : (tokens.map Token.unplaced).getLast?.any (·.kind = .endOfFile) =
      tokens.getLast?.any (·.kind = .endOfFile) := by
    rw [getLast?_map]
    cases tokens.getLast? <;> rfl
  rw [Token.terminated, Token.terminated, hlast]
  split
  · rfl
  · rw [map_append]
    rfl

/-- Places do not matter to the parser. -/
lemma parse_unplaced (settings : Settings) (tokens : List Token) :
    Tree.parse settings (tokens.map Token.unplaced) =
    unplacedResult (Tree.parse settings tokens) := by
  have hread : Tree.read settings (tokens.map Token.unplaced) =
      unplacedOutcome Tree.unplaced (Tree.read settings tokens) := by
    let p : Cursor :=
      { tokens := (Token.terminated tokens).toArray, current := tokens.head?.getD {} }
    have hstart : Cursor.start (tokens.map Token.unplaced).toArray = .ok p.unplaced := by
      have hfirst : (tokens.map Token.unplaced).head?.getD {} =
          (tokens.head?.getD {}).unplaced := by
        cases tokens <;> rfl
      rw [Cursor.start_eq, Token.terminated_unplaced, hfirst, ← map_toArray]
      rfl
    have hprogram := Read.placeless_program settings (tokens.length + 2) p
    have hrun (q : Cursor) : (Read.program settings (tokens.length + 2)).run' q =
        (Read.program settings (tokens.length + 2) q).map Prod.fst := rfl
    simp only [Tree.read, Tree.readWithin, hstart, Cursor.start_eq, length_map, bind,
      Except.bind, hrun, hprogram]
    cases Read.program settings (tokens.length + 2) p <;> rfl
  rw [Tree.parse, Tree.parse, hread]
  cases Tree.read settings tokens with
  | ok tree => rfl
  | error h => cases h <;> rfl

/-! ## Layout -/

/-- Texts made of the same words have the same tokens, up to their places. -/
lemma scan_unplaced_eq {settings words text text'} (file : Int)
    (htext : LaidOut settings words text) (htext' : LaidOut settings words text') :
    (Token.scan settings file text').map Token.unplaced = (Token.scan settings file text).map
    Token.unplaced := by
  have hforget : Token.unplaced = Token.unplaced ∘ Token.unlocated := rfl
  have hsame : (Token.scan settings file text').map Token.unlocated =
      (Token.scan settings file text).map Token.unlocated :=
    (Token.scanFrom_laidOut htext' []).trans (Token.scanFrom_laidOut htext []).symm
  rw [hforget, ← map_map, hsame, map_map]

/-- Layout does not matter. Whatever stands between the words of a text, the scanner finds these
words, in their order and with their lengths, and then the end of the file; and of any two texts
made of the same words the parser makes the same, up to the places of tokens: the same tree, or the
same error. -/
theorem layout_is_immaterial (settings : Settings) (file : Int) (words : List Word)
    (text text' : List Char) (htext : LaidOut settings words text)
    (htext' : LaidOut settings words text') :
    ((Token.scan settings file text).map fun t => (t.kind, t.value, t.length)) =
        (words.map fun w => (w.kind, w.value, (w.text.length : Int))) ++ [(.endOfFile, "", 0)] ∧
      (∀ tree, Tree.ofSource settings file text = .ok tree →
        ∃ tree', Tree.ofSource settings file text' = .ok tree' ∧ tree'.unplaced = tree.unplaced) ∧
      ∀ e, Tree.ofSource settings file text = .error e →
        ∃ e', Tree.ofSource settings file text' = .error e' ∧ e'.token.unplaced = e.token.unplaced ∧
          e'.fault = e.fault := by
  have hparse : unplacedResult (Tree.ofSource settings file text') =
      unplacedResult (Tree.ofSource settings file text) := by
    rw [Tree.ofSource, ← parse_unplaced, scan_unplaced_eq file htext htext', parse_unplaced]
    rfl
  refine ⟨?_, fun tree htree => ?_, fun e he => ?_⟩
  · have hforget : (fun t : Token => (t.kind, t.value, t.length)) =
        (fun t : Token => (t.kind, t.value, t.length)) ∘ Token.unlocated := rfl
    have hscan : (Token.scan settings file text).map Token.unlocated = _ :=
      Token.scanFrom_laidOut htext []
    rw [hforget, ← List.map_map, hscan, List.map_append, List.map_map]
    rfl
  · rw [htree] at hparse
    cases htree' : Tree.ofSource settings file text' with
    | ok tree' =>
      rw [htree'] at hparse
      exact ⟨tree', rfl, Except.ok.inj hparse⟩
    | error e =>
      rw [htree'] at hparse
      cases hparse
  · rw [he] at hparse
    cases he' : Tree.ofSource settings file text' with
    | ok tree' =>
      rw [he'] at hparse
      cases hparse
    | error e' =>
      rw [he'] at hparse
      obtain ⟨htoken, hfault⟩ := ParseError.mk.inj (Except.error.inj hparse)
      exact ⟨e', rfl, htoken, hfault⟩

/-- The words of `x = 1 ;`. -/
def assignmentWords : List Word :=
  [⟨.identifier, String.ofList ['x'], ['x'], .identifier rfl (by simp) (by decide), by decide⟩,
    ⟨.assign, "", TokenKind.assign.spelling.toList, .fixed rfl, by decide⟩,
    ⟨.number, String.ofList ['1'], ['1'], .number rfl (by simp), by decide⟩,
    ⟨.semicolon, "", TokenKind.semicolon.spelling.toList, .fixed rfl, by decide⟩]

/-- The words on one line, and with comments that look like code and like the end of a comment. -/
theorem assignmentWords_layouts :
    let text := "x = 1 ;".toList
    let text' := "x /* = // */ =\n1 // */ ;\n;".toList
    LaidOut {} assignmentWords text ∧ LaidOut {} assignmentWords text' ∧
      ((Token.scan {} 0 text').map fun t => (t.kind, t.value, t.length)) =
        (assignmentWords.map fun w => (w.kind, w.value, (w.text.length : Int))) ++
        [(.endOfFile, "", 0)] ∧
      ∃ tree tree', Tree.ofSource {} 0 text = .ok tree ∧ Tree.ofSource {} 0 text' = .ok tree' ∧
        tree'.unplaced = tree.unplaced := by
  intro text text'
  have htext : LaidOut {} assignmentWords text :=
    .more _ (c := ' ') rfl .nil (.more _ (c := ' ') rfl .nil
      (.more _ (c := ' ') rfl .nil (.last _)))
  have hblock : Layout {} ('/' :: '*' :: " = // ".toList ++ ['*', '/'] ++ [' ']) :=
    .blockComment rfl (by decide) (.blank rfl .nil)
  have hline : Layout {} ('/' :: '/' :: " */ ;".toList ++ ['\n']) :=
    .lineComment rfl (by decide) .nil
  have htext' : LaidOut {} assignmentWords text' :=
    .more _ (c := ' ') rfl hblock
    (.more _ (c := '\n') rfl .nil (.more _ (c := ' ') rfl hline (.last _)))
  have hlayouts := layout_is_immaterial {} 0 assignmentWords
  have hread : (Tree.ofSource {} 0 text).toOption.isSome = true := by decide +kernel
  obtain ⟨tree, htree⟩ := Option.isSome_iff_exists.mp hread
  replace htree := ok_of_toOption htree
  obtain ⟨tree', htree', hsame⟩ := (hlayouts text text' htext htext').2.1 _ htree
  exact ⟨htext, htext', (hlayouts text' text htext' htext).1, tree, tree', htree, htree', hsame⟩

end ThreeAddress
