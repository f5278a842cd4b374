import ThreeAddress.Proofs.Parser.Soundness

/-!
# Errors stand at the first impossible token

A list of tokens that is refused breaks off at a token, and what breaks off can be mended
(`ProgramFails.mended`). So the tokens before it are the beginning of a program, and the token at
which the parser stops is the first that no program could have there.
-/

namespace ThreeAddress

open List

variable {settings : Settings} {t : Token} {us vs : List Token}

/-- The last token, and no other, marks the end of the file. -/
def Terminated (tokens : List Token) : Prop :=
  ∃ body eof, tokens = body ++ [eof] ∧ eof.kind = .endOfFile ∧ ∀ t ∈ body, t.kind ≠ .endOfFile

/-- A terminated list of tokens that the parser reads to a tree. -/
def Accepted (settings : Settings) (tokens : List Token) : Prop :=
  Terminated tokens ∧ ∃ tree, Tree.parse settings tokens = .ok tree

/-- Nothing is added behind a list that ends. -/
lemma Token.terminated_of_eof (body) {eof : Token} (heof : eof.kind = .endOfFile) :
    Token.terminated (body ++ [eof]) = body ++ [eof] := by
  rw [Token.terminated, getLast?_concat, Option.any_some, if_pos (decide_eq_true heof)]

/-- The tokens before a wrong one are the beginning of a program. -/
lemma ProgramFails.exists_accepted {fault} (h : ProgramFails settings us t fault) :
    ∃ rest, Accepted settings (us ++ rest) := by
  obtain ⟨ws, ds, declarations, ss, statements, hus, hds, hss⟩ := h.mended
  let eof : Token := {}
  have hpassable := passable_of_text hds hss
  refine ⟨ws ++ [eof], ?_, ?_⟩ <;> rw [← append_assoc, hus]
  · exact ⟨ds ++ ss, eof, rfl, rfl, fun t ht => TokenKind.ne_endOfFile (hpassable t ht)⟩
  · exact ⟨_, Tree.parse_of_text hds hss rfl (Token.terminated_of_eof _ rfl)⟩

/-- A list of tokens is refused at a wrong token whatever stands behind it. -/
lemma ProgramFails.parse_append {fault} (h : ProgramFails settings us t fault) (rest : List Token) :
    Tree.parse settings (us ++ t :: rest) = .error (t.refusal fault) := by
  obtain ⟨ws, hws⟩ : ∃ ws, Token.terminated (us ++ t :: rest) = us ++ t :: ws := by
    rw [Token.terminated]
    split
    · exact ⟨rest, rfl⟩
    · exact ⟨rest ++ [({} : Token)], by simp⟩
  exact Tree.parse_of_fails h hws

/-- An error of the parser stands at the first impossible token: the tokens before it begin a
program, and every list of tokens that begins with them and it has the same error. A list with an
illegal token has an error, and no illegal token stands before it. -/
theorem parse_error_at_first_impossible (settings : Settings) (tokens : List Token)
    (htokens : Terminated tokens) :
    (∀ e, Tree.parse settings tokens = .error e → ∃ before after,
      tokens = before ++ e.token :: after ∧
      (∃ rest, Accepted settings (before ++ rest)) ∧
      (∀ rest, Tree.parse settings (before ++ e.token :: rest) = .error e ∧
        ¬ Accepted settings (before ++ e.token :: rest)) ∧
      ∀ t ∈ before, t.kind ≠ .illegal) ∧
    ((∃ t ∈ tokens, t.kind = .illegal) → ∃ e, Tree.parse settings tokens = .error e) := by
  obtain ⟨body, eof, rfl, heof, hbody⟩ := htokens
  have hsame := Token.terminated_of_eof body heof
  rcases Tree.readWithin_cases settings (body ++ [eof]) with ⟨ds, declarations, ss, trees, eof', vs,
    hds, hss, heof', hsplit⟩ | ⟨us, t, vs, fault, hfails, hsplit⟩
  · have hparse := Tree.parse_of_text hds hss heof' hsplit
    refine ⟨fun e he => ?_, fun ⟨t, ht, hkind⟩ => ?_⟩
    · rw [hparse] at he
      cases he
    · have hpassable := passable_of_text hds hss
      -- The body is the text, as both stand before the first end of the file.
      have hbefore : body = ds ++ ss := by
        rw [← takeWhile_before_eof hbody heof [], ← hsame, hsplit,
          takeWhile_before_eof (fun t ht => TokenKind.ne_endOfFile (hpassable t ht)) heof']
      rcases mem_append.mp ht with ht | ht
      · exact absurd hkind (TokenKind.ne_illegal (hpassable t (hbefore ▸ ht)))
      · rw [mem_singleton.mp ht, heof] at hkind
        cases hkind
  · have hparse := Tree.parse_of_fails hfails hsplit
    rw [hsame] at hsplit
    refine ⟨fun e he => ?_, fun _ => ⟨_, hparse⟩⟩
    obtain rfl : t.refusal fault = e := Except.error.inj (hparse.symm.trans he)
    refine ⟨us, vs, hsplit, hfails.exists_accepted, fun rest => ⟨hfails.parse_append rest, ?_⟩,
      fun t ht => TokenKind.ne_illegal (hfails.passable t ht)⟩
    rintro ⟨-, tree, htree⟩
    exact absurd ((hfails.parse_append rest).symm.trans htree) nofun

/-- The tokens of `while ((a < b < c)) ;`. -/
def doubleComparison : List Token :=
  let name text : Token := { kind := .identifier, value := text }
  [{ kind := .kwWhile }, { kind := .leftParen }, { kind := .leftParen }, name "a",
    { kind := .less },
    name "b", { kind := .less }, name "c", { kind := .rightParen }, { kind := .rightParen },
    { kind := .semicolon }, {}]

/-- The second comparison is the first impossible token. -/
theorem parse_doubleComparison_error : Terminated doubleComparison ∧
    ∃ e, Tree.parse {} doubleComparison = .error e ∧ e.fault = .chainedComparison ∧
      ∃ before after, doubleComparison = before ++ e.token :: after ∧
        (∃ rest, Accepted {} (before ++ rest)) ∧
        (∀ rest, Tree.parse {} (before ++ e.token :: rest) = .error e ∧
          ¬ Accepted {} (before ++ e.token :: rest)) ∧
        ∀ t ∈ before, t.kind ≠ .illegal := by
  have hends : Terminated doubleComparison := ⟨doubleComparison.dropLast, {}, rfl, rfl, by decide⟩
  have hfault : (match Tree.parse {} doubleComparison with
      | .ok _ => none
      | .error e => some e.fault) = some .chainedComparison := by decide +kernel
  cases hparse : Tree.parse {} doubleComparison with
  | ok tree => simp [hparse] at hfault
  | error e =>
    rw [hparse] at hfault
    exact ⟨hends, e, rfl, Option.some.inj hfault,
      (parse_error_at_first_impossible {} doubleComparison hends).1 e hparse⟩

end ThreeAddress
