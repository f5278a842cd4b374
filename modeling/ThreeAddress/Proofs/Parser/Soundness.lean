import ThreeAddress.Proofs.Parser.Coverage

/-!
# Exactly the programs of the grammar are read

Reading a list of tokens settles (`settles_program`), so what is read is derived by the grammar; and
along a derivation all that the grammar derives is read. An `else` is taken by the `if` whose first
branch has just been read, so the tree is the one with every `else` at the nearest `if`.
-/

namespace ThreeAddress

open List Read

variable {settings : Settings} {t : Token} {ts us : List Token}

section Rule

variable {rule : ElseRule}

mutual

/-- A statement with every `else` at the nearest `if` is a statement. -/
lemma Statement.toAny {ts t} (h : Statement rule settings ts t) : Statement .any settings ts t := by
  match h with
  | .empty hstop => exact .empty hstop
  | .block hopen hbody hclose => exact .block hopen hbody.toAny hclose
  | .conditional hkey hopen he hclose ht => exact .conditional hkey hopen he hclose ht.toAny
  | .alternative hkey hopen he hclose ht hother hu _ =>
    exact .alternative hkey hopen he hclose ht.toAny hother hu.toAny nofun
  | .loop hkey hopen he hclose ht => exact .loop hkey hopen he hclose ht.toAny
  | .selection hkey henabled hopen he hclose hleft hclauses hright =>
    exact .selection hkey henabled hopen he hclose hleft hclauses.toAny hright
  | .assignment hname hsign he hstop => exact .assignment hname hsign he hstop

lemma Statements.toAny {ts trees} (h : Statements rule settings ts trees) :
    Statements .any settings ts trees := by
  match h with
  | .nil => exact .nil
  | .cons ht hrest => exact .cons ht.toAny hrest.toAny

/-- Clauses with every `else` at the nearest `if` are clauses. -/
lemma Clauses.toAny {ts clauses} (h : Clauses rule settings ts clauses) :
    Clauses .any settings ts clauses := by
  match h with
  | .nil => exact .nil
  | .case hkey hval hcolon hbody hrest => exact .case hkey hval hcolon hbody.toAny hrest.toAny
  | .default hkey hcolon hbody hrest => exact .default hkey hcolon hbody.toAny hrest.toAny

end

/-- A program with every `else` at the nearest `if` is a program. -/
lemma ProgramText.toAny {tree} (h : ProgramText rule settings ts tree) :
    ProgramText .any settings ts tree := by
  cases h with
  | program hdecls hstmts heof hstart =>
    exact .program hdecls hstmts.toAny heof hstart

end Rule

/-! ## An `else` at the nearest `if` -/

/-- A statement with an open `if` takes an `else`. -/
lemma Statement.attach {ts t other us u} (h : Statement .nearest settings ts t)
    (hopen : t.endsOpen = true) (hother : other.kind = .kwElse)
    (hu : Statement .nearest settings us u) :
    ∃ tree, Statement .nearest settings (ts ++ other :: us) tree := by
  match h with
  | .empty _ | .block _ _ _ | .selection _ _ _ _ _ _ _ _ | .assignment _ _ _ _ => cases hopen
  | @Statement.conditional _ _ _ _ _ _ _ _ body hkey hopening he hclosing hbody =>
    by_cases hbodyOpen : body.endsOpen = true
    · obtain ⟨tree, htree⟩ := hbody.attach hbodyOpen hother hu
      exact ⟨_, by simpa using Statement.conditional hkey hopening he hclosing htree⟩
    · exact ⟨_, .alternative hkey hopening he hclosing hbody hother hu fun _ =>
        Bool.eq_false_iff.mpr hbodyOpen⟩
  | .alternative hkey hopening he hclosing hthen helse hlast hclosed =>
    obtain ⟨tree, htree⟩ := hlast.attach hopen hother hu
    exact ⟨_, by
      simpa using Statement.alternative hkey hopening he hclosing hthen helse htree hclosed⟩
  | .loop hkey hopening he hclosing hbody =>
    obtain ⟨tree, htree⟩ := hbody.attach hopen hother hu
    exact ⟨_, by simpa using Statement.loop hkey hopening he hclosing htree⟩

mutual

/-- The tokens of a statement have a tree with every `else` at the nearest `if`. -/
lemma Statement.exists_nearest {ts t} (h : Statement .any settings ts t) :
    ∃ tree, Statement .nearest settings ts tree := by
  match h with
  | .empty hstop => exact ⟨_, .empty hstop⟩
  | .block hopening hbody hclosing =>
    obtain ⟨trees, hbody⟩ := hbody.exists_nearest
    exact ⟨_, .block hopening hbody hclosing⟩
  | .conditional hkey hopening he hclosing ht =>
    obtain ⟨tree, ht⟩ := ht.exists_nearest
    exact ⟨_, .conditional hkey hopening he hclosing ht⟩
  | .alternative hkey hopening he hclosing ht hother hu _ =>
    obtain ⟨tree, ht⟩ := ht.exists_nearest
    obtain ⟨last, hu⟩ := hu.exists_nearest
    by_cases hopen : tree.endsOpen = true
    · obtain ⟨body, hbody⟩ := ht.attach hopen hother hu
      exact ⟨_, by simpa using Statement.conditional hkey hopening he hclosing hbody⟩
    · exact ⟨_, .alternative hkey hopening he hclosing ht hother hu fun _ =>
        Bool.eq_false_iff.mpr hopen⟩
  | .loop hkey hopening he hclosing ht =>
    obtain ⟨tree, ht⟩ := ht.exists_nearest
    exact ⟨_, .loop hkey hopening he hclosing ht⟩
  | .selection hkey henabled hopening he hclosing hleft hclauses hright =>
    obtain ⟨clauses, hclauses⟩ := hclauses.exists_nearest
    exact ⟨_, .selection hkey henabled hopening he hclosing hleft hclauses hright⟩
  | .assignment hname hsign he hstop => exact ⟨_, .assignment hname hsign he hstop⟩

lemma Statements.exists_nearest {ts trees} (h : Statements .any settings ts trees) :
    ∃ trees, Statements .nearest settings ts trees := by
  match h with
  | .nil => exact ⟨_, .nil⟩
  | .cons ht hrest =>
    obtain ⟨tree, ht⟩ := ht.exists_nearest
    obtain ⟨trees, hrest⟩ := hrest.exists_nearest
    exact ⟨_, .cons ht hrest⟩

/-- The tokens of clauses have trees with every `else` at the nearest `if`. -/
lemma Clauses.exists_nearest {ts clauses} (h : Clauses .any settings ts clauses) :
    ∃ clauses, Clauses .nearest settings ts clauses := by
  match h with
  | .nil => exact ⟨_, .nil⟩
  | .case hkey hval hcolon hbody hrest =>
    obtain ⟨trees, hbody⟩ := hbody.exists_nearest
    obtain ⟨clauses, hrest⟩ := hrest.exists_nearest
    exact ⟨_, .case hkey hval hcolon hbody hrest⟩
  | .default hkey hcolon hbody hrest =>
    obtain ⟨trees, hbody⟩ := hbody.exists_nearest
    obtain ⟨clauses, hrest⟩ := hrest.exists_nearest
    exact ⟨_, .default hkey hcolon hbody hrest⟩

end

lemma ProgramText.exists_nearest {tree} (h : ProgramText .any settings ts tree) :
    ∃ tree, ProgramText .nearest settings ts tree := by
  cases h with
  | program hdecls hstmts heof hstart =>
    obtain ⟨statements, hstmts⟩ := hstmts.exists_nearest
    exact ⟨_, .program hdecls hstmts heof hstart⟩

/-! ## The tokens of a text -/

/-- The reader can go past the tokens of a program. -/
lemma passable_of_text {ds declarations ss trees} (hds : Declarations ds declarations)
    (hss : Statements .nearest settings ss trees) : Passable (ds ++ ss) := by
  have hread := comes_programText hds hss (show ({} : Token).kind = .endOfFile from rfl)
    (Nat.lt_succ_self _) []
  obtain ⟨pre, hpre, heq⟩ := hread.passes
  rwa [append_cancel_right heq]

/-- The tokens before a wrong one could stand in a program. -/
lemma ProgramFails.passable {fault} (h : ProgramFails settings us t fault) : Passable us := by
  obtain ⟨ws, ds, declarations, ss, statements, hus, hds, hss⟩ := h.mended
  have hall : Passable (us ++ ws) := hus ▸ passable_of_text hds hss
  exact (Passable.append_iff.mp hall).1

/-! ## Programs -/

lemma takeWhile_before_eof {body} {eof : Token} (hbody : ∀ t ∈ body, t.kind ≠ .endOfFile)
    (heof : eof.kind = .endOfFile) (ts : List Token) :
    (body ++ eof :: ts).takeWhile (fun t => t.kind ≠ .endOfFile) = body := by
  rw [takeWhile_append_of_pos (by simpa using hbody), takeWhile_cons_of_neg (by simp [heof]),
    append_nil]

lemma Token.takeWhile_terminated (tokens : List Token) :
    (Token.terminated tokens).takeWhile (fun t => t.kind ≠ .endOfFile) =
      tokens.takeWhile (fun t => t.kind ≠ .endOfFile) := by
  rw [Token.terminated]
  split
  · rfl
  · rw [takeWhile_append]
    split
    · rename_i hlength
      exact (append_nil _).trans (IsPrefix.eq_of_length ( takeWhile_prefix _) hlength).symm
    · rfl

namespace Tree

variable {tokens : List Token}

lemma parse_of_text {ds declarations ss trees} {eof : Token} (hds : Declarations ds declarations)
    (hss : Statements .nearest settings ss trees) (heof : eof.kind = .endOfFile)
    (htokens : Token.terminated tokens = ds ++ ss ++ eof :: us) : parse settings tokens =
      .ok (.branch .program (tokens.head?.getD {})
        (declarations ++ [.branch .block (tokens.head?.getD {}) trees])) := by
  rw [parse, read, readWithin_of_text hds hss heof htokens (Nat.lt_succ_self _)]

lemma parse_of_fails {fault vs} (h : ProgramFails settings us t fault)
    (htokens : Token.terminated tokens = us ++ t :: vs) :
    parse settings tokens = .error (t.refusal fault) := by
  rw [parse, read, h.refused htokens (Nat.lt_succ_self _)]

end Tree

/-- The declarations and statements of a parsed tree are derived by the grammar from the tokens
before the end of the file, whether or not there is one. -/
lemma exists_texts_of_parse {tree tokens} (h : Tree.parse settings tokens = .ok tree) :
    ∃ ds declarations ss statements, Declarations ds declarations ∧
    Statements .nearest settings ss statements ∧
      tokens.takeWhile (fun t => t.kind ≠ .endOfFile) = ds ++ ss ∧
          tree = .branch .program (tokens.head?.getD {})
          (declarations ++ [.branch .block (tokens.head?.getD {}) statements]) := by
  rcases Tree.readWithin_cases settings tokens with ⟨ds, declarations, ss, trees, eof, vs, hds,
    hss, heof, htokens⟩ | ⟨us, t, vs, fault, hfails, htokens⟩
  · have hpassable := passable_of_text hds hss
    refine ⟨ds, declarations, ss, trees, hds, hss, ?_, ?_⟩
    · rw [← Token.takeWhile_terminated, htokens,
        takeWhile_before_eof (fun t ht => TokenKind.ne_endOfFile (hpassable t ht)) heof]
    · rw [Tree.parse_of_text hds hss heof htokens] at h
      exact (Except.ok.inj h).symm
  · rw [Tree.parse_of_fails hfails htokens] at h
    cases h

/-- A program that is read is one of the grammar, with every `else` at the nearest `if`. -/
theorem programText_of_parse {body} {eof : Token} {tree} (hbody : ∀ t ∈ body, t.kind ≠ .endOfFile)
    (heof : eof.kind = .endOfFile) (h : Tree.parse settings (body ++ [eof]) = .ok tree) :
    ProgramText .nearest settings (body ++ [eof]) tree := by
  obtain ⟨ds, declarations, ss, statements, hdecls, hstmts, hbefore, rfl⟩ := exists_texts_of_parse h
  obtain rfl := (takeWhile_before_eof hbody heof []).symm.trans hbefore
  refine .program hdecls hstmts heof ?_
  cases ds ++ ss <;> rfl

/-- A program of the grammar is read. -/
lemma ProgramText.parses {tree} (h : ProgramText .nearest settings ts tree) :
    Tree.parse settings ts = .ok tree := by
  cases h with
  | @program ds declarations ss statements eof start hds hss heof hstart =>
    have hterminated : Token.terminated (ds ++ ss ++ [eof]) = ds ++ ss ++ [eof] := by
      rw [Token.terminated, getLast?_concat, Option.any_some, if_pos (decide_eq_true heof)]
    rw [Tree.parse_of_text hds hss heof hterminated, hstart]
    rfl

/-- The parser accepts exactly the programs of the grammar, and the tree it returns is the one that
has every `else` at the nearest `if`. -/
theorem parse_accepts_grammar (settings : Settings) (body : List Token) (eof : Token)
    (hbody : ∀ t ∈ body, t.kind ≠ .endOfFile) (heof : eof.kind = .endOfFile) :
    ((∃ tree, Tree.parse settings (body ++ [eof]) = .ok tree) ↔
      ∃ tree, ProgramText .any settings (body ++ [eof]) tree) ∧
    ∀ tree, Tree.parse settings (body ++ [eof]) = .ok tree ↔
      ProgramText .nearest settings (body ++ [eof]) tree := by
  refine ⟨⟨?_, ?_⟩, fun tree => ⟨fun h => programText_of_parse hbody heof h, fun h => h.parses⟩⟩
  · rintro ⟨tree, h⟩
    exact ⟨tree, (programText_of_parse hbody heof h).toAny⟩
  · rintro ⟨tree, h⟩
    obtain ⟨tree, h⟩ := h.exists_nearest
    exact ⟨tree, h.parses⟩

lemma ok_of_toOption {ε α : Type} {x : Except ε α} {a : α}
    (h : x.toOption = some a) : x = .ok a := by
  cases x with
  | error e => cases h
  | ok b => rw [Option.some.inj h]

/-- A result that is computed from that of a computation which succeeds. -/
lemma ok_of_toOption_map {ε α β : Type} {x : Except ε α} {f : α → β} {b : β}
    (h : x.toOption.map f = some b) :
    ∃ a, x = .ok a ∧ f a = b := by
  obtain ⟨a, ha, rfl⟩ := Option.map_eq_some_iff.mp h
  exact ⟨a, ok_of_toOption ha, rfl⟩

/-- The tokens of `if (a) if (b) ; else ;`, before the end of the file. -/
def danglingElse : List Token :=
  let name text : Token := { kind := .identifier, value := text }
  [{ kind := .kwIf }, { kind := .leftParen }, name "a", { kind := .rightParen },
    { kind := .kwIf }, { kind := .leftParen }, name "b", { kind := .rightParen },
    { kind := .semicolon }, { kind := .kwElse }, { kind := .semicolon }]

/-- The tokens have a tree, with the `else` at the second `if`. -/
theorem parse_danglingElse : ∃ tree, Tree.parse {} (danglingElse ++ [({} : Token)]) = .ok tree ∧
    ProgramText .nearest {} (danglingElse ++ [({} : Token)]) tree := by
  have hread : (Tree.parse {} (danglingElse ++ [({} : Token)])).toOption.isSome = true :=
    by decide +kernel
  obtain ⟨tree, htree⟩ := Option.isSome_iff_exists.mp hread
  have hparse := ok_of_toOption htree
  exact ⟨tree, hparse, ((parse_accepts_grammar {} danglingElse {} (by decide) rfl).2 tree).mp
    hparse⟩

end ThreeAddress
