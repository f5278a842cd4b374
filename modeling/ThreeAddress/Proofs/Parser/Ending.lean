import ThreeAddress.Proofs.Parser.Soundness

/-!
# Where parsing ends

A list of tokens need not come from a source text: it may be empty, lack the mark for the end of the
file, or have it, or illegal tokens, anywhere. The parser reads every list to an outcome. It asks
for no token outside the list, and however many more rounds its loops are given, they do not use
them. The outcome does not depend on what stands behind the first of these tokens (`Token.upToEnd`).
-/

namespace ThreeAddress

open List Read

variable {settings : Settings} {t : Token} {us vs tokens : List Token}

/-! ## Tokens behind the end -/

/-- The tokens up to the first that marks the end of the file or is illegal; if there is none, the
end of the file follows them. -/
def Token.upToEnd : List Token → List Token
  | [] => [{}]
  | t :: ts => if t.kind = .endOfFile ∨ t.kind = .illegal then [t] else t :: upToEnd ts

namespace Token

lemma head?_upToEnd (tokens : List Token) :
    (upToEnd tokens).head? = some (tokens.head?.getD {}) := by
  cases tokens with
  | nil => rfl
  | cons t tokens =>
    rw [upToEnd]
    split <;> rfl

lemma upToEnd_terminated (tokens : List Token) : upToEnd (terminated tokens) = upToEnd tokens := by
  have happend : upToEnd (tokens ++ [({} : Token)]) = upToEnd tokens := by
    induction tokens with
    | nil => rfl
    | cons t tokens ih => rw [cons_append, upToEnd, upToEnd, ih]
  rw [terminated]
  split
  · rfl
  · exact happend

lemma upToEnd_append (hus : Passable us) (ts : List Token) :
    upToEnd (us ++ ts) = us ++ upToEnd ts := by
  induction us with
  | nil => rfl
  | cons t us ih =>
    obtain ⟨ht, hus⟩ := Passable.cons_iff.mp hus
    rw [cons_append, upToEnd, if_neg (by simpa [TokenKind.isPassable] using ht),
      ih hus, cons_append]

/-- The list up to the end begins like the list itself, as far as the reader comes. -/
lemma exists_terminated_upToEnd (hus : Passable us) (htokens : terminated tokens = us ++ t :: vs) :
    ∃ ws, terminated (upToEnd tokens) = us ++ t :: ws := by
  obtain ⟨ws, hws⟩ : ∃ ws, upToEnd (t :: vs) = t :: ws := by
    rw [upToEnd]
    split <;> exact ⟨_, rfl⟩
  rw [← upToEnd_terminated, htokens, upToEnd_append hus, hws, terminated]
  split
  · exact ⟨ws, rfl⟩
  · exact ⟨ws ++ [({} : Token)], by simp⟩

end Token

/-! ## One outcome -/

lemma Token.refusal_ne_runaway {fault : ParseFault} (h : fault ≠ .runaway) (t : Token) :
    (t.refusal fault).fault ≠ .runaway := by
  rw [Token.refusal]
  split
  · simp
  · exact h

/-- A list of tokens, and the list up to its end, are read to one outcome in however many rounds. -/
lemma exists_outcome (settings : Settings) (tokens : List Token) :
    ∃ outcome : Except ParseError Tree,
    (∀ e, outcome = .error e → e.fault ≠ .runaway) ∧
    ∀ ts ∈ [tokens, Token.upToEnd tokens], ∀ rounds,
      ts.length + 1 < rounds → Tree.readWithin settings rounds ts = outcome.mapError .fault := by
  have hhead : (Token.upToEnd tokens).head?.getD {} = tokens.head?.getD {} := by
    rw [Token.head?_upToEnd]
    rfl
  simp only [forall_mem_cons, not_mem_nil, false_implies, implies_true, and_true]
  rcases Tree.readWithin_cases settings tokens with ⟨ds, declarations, ss, trees, eof, vs, hds,
    hss, heof, htokens⟩ | ⟨us, t, vs, fault, hfails, htokens⟩
  · obtain ⟨ws, hends⟩ := Token.exists_terminated_upToEnd (passable_of_text hds hss) htokens
    let tree : Tree := .branch .program (tokens.head?.getD {})
      (declarations ++ [.branch .block (tokens.head?.getD {}) trees])
    refine ⟨.ok tree, fun e he => (by cases he), fun rounds h => ?_, fun rounds h => ?_⟩
    · rw [Tree.readWithin_of_text hds hss heof htokens h, Except.mapError]
    · rw [Tree.readWithin_of_text hds hss heof hends h, hhead, Except.mapError]
  · obtain ⟨ws, hends⟩ := Token.exists_terminated_upToEnd hfails.passable htokens
    refine ⟨.error (t.refusal fault), fun e he => ?_, fun rounds h => ?_, fun rounds h => ?_⟩
    · cases he
      exact Token.refusal_ne_runaway hfails.ne_runaway t
    · rw [hfails.refused htokens h, Except.mapError]
    · rw [hfails.refused hends h, Except.mapError]

/-- Parsing ends for every list of tokens, inside the list, with a tree or with an error of syntax.
More rounds for its loops change nothing. The outcome is that of the list up to the first token that
marks the end of the file or is illegal. -/
theorem parse_ends (settings : Settings) (tokens : List Token) :
    ((∃ tree, Tree.read settings tokens = .ok tree ∧ Tree.parse settings tokens = .ok tree) ∨
      ∃ e, Tree.read settings tokens = .error (.fault e) ∧ Tree.parse settings tokens = .error e ∧
        e.fault ≠ .runaway) ∧
    (∀ rounds, tokens.length + 1 < rounds → Tree.readWithin settings rounds tokens =
      Tree.read settings tokens) ∧
    Tree.read settings (Token.upToEnd tokens) = Tree.read settings tokens ∧
    Tree.parse settings (Token.upToEnd tokens) = Tree.parse settings tokens := by
  obtain ⟨outcome, hfault, hall⟩ := exists_outcome settings tokens
  have hread : Tree.read settings tokens = outcome.mapError .fault :=
    hall _ (by simp) _ (Nat.lt_succ_self _)
  have hends : Tree.read settings (Token.upToEnd tokens) = outcome.mapError .fault :=
    hall _ (by simp) _ (Nat.lt_succ_self _)
  refine ⟨?_, fun rounds h => (hall _ (by simp) rounds h).trans hread.symm,
    hends.trans hread.symm, ?_⟩
  · rw [Tree.parse, hread]
    cases outcome with
    | ok tree => exact .inl ⟨tree, rfl, rfl⟩
    | error e => exact .inr ⟨e, rfl, rfl, hfault e rfl⟩
  · rw [Tree.parse, Tree.parse, hread, hends]

end ThreeAddress
