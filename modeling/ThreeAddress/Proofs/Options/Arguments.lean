import Mathlib.Tactic.Common
import ThreeAddress.Options.Arguments

/-!
# Arguments one after the other

Arguments are read from the left: one that is no flag is kept, and a flag is given its value, which
may be the argument behind it (`Given`). `Reads` says that a list is read to its end in this way,
and `Stops` what reading comes to where it cannot go on: at the end, at the terminator, or at an
argument that is refused. Every list is read up to such a place (`exists_stops`), so that the
arguments behind a list that has been read are read as if they stood alone, from the flags as they
are then.
-/

namespace ThreeAddress.Options

/-- A flag, alone or with the argument behind it, is given its value. -/
inductive Given (fs : FlagSet) : List String → FlagSet → Prop
  | attached {argument f mention value fs'}
      (hform : formOf fs argument = .flag f mention (some value))
      (hvalue : assign fs f mention value = .ok fs') : Given fs [argument] fs'
  | alone {argument f mention fs'} (hform : formOf fs argument = .flag f mention none)
      (htruth : f.value.isTruth = true) (hvalue : assign fs f mention "" = .ok fs') :
      Given fs [argument] fs'
  | separate {argument f mention value fs'} (hform : formOf fs argument = .flag f mention none)
      (htruth : f.value.isTruth = false) (hvalue : assign fs f mention value = .ok fs') :
      Given fs [argument, value] fs'

/-- All arguments of a list are read, none of them as the terminator: they turn the flags `fs` into
other ones and leave the positional arguments. -/
inductive Reads : FlagSet → List String → FlagSet → List String → Prop
  | nil {fs} : Reads fs [] fs []
  | keep {fs fs' argument rest kept} (hform : formOf fs argument = .positional)
      (hrest : Reads fs rest fs' kept) :
      Reads fs (argument :: rest) fs' (argument :: kept)
  | give {fs fs' fs'' used rest kept} (hflag : Given fs used fs')
      (hrest : Reads fs' rest fs'' kept) :
      Reads fs (used ++ rest) fs'' kept

/-- Some argument is read as the terminator: those before it have been read, and it is not the value
of a flag. -/
def MeetsTerminator (fs : FlagSet) (xs : List String) : Prop :=
  ∃ before after fs' kept, xs = before ++ "--" :: after ∧ Reads fs before fs' kept

/-- Reading ends in front of a list, with positional arguments and perhaps an error. -/
inductive Stops (fs : FlagSet) : List String → List String → Option FlagError → Prop
  | finished : Stops fs [] [] none
  | terminator {rest} : Stops fs ("--" :: rest) rest none
  | unknown {argument rest} (hform : formOf fs argument = .unknown) :
      Stops fs (argument :: rest) [] (some (.unknown argument))
  | missing {argument f mention} (hform : formOf fs argument = .flag f mention none)
      (htruth : f.value.isTruth = false) : Stops fs [argument] [] (some (.needsArgument mention))
  | invalid {argument f mention value rest}
      (hform : formOf fs argument = .flag f mention (some value)) (htruth : f.value.isTruth = true)
      (hvalue : value ≠ "" ∧ Text.readBool? value = none) :
      Stops fs (argument :: rest) [] (some (.invalidTruth mention value))

/-! ## Where reading stops -/

variable {fs fs' : FlagSet} {f : Flag} {argument mention value : String}
  {xs used rest kept more : List String} {error : Option FlagError}

lemma eq_terminator (h : formOf fs argument = .terminator) : argument = "--" := by
  unfold formOf at h
  split at h
  · rename_i hlist
    exact String.toList_inj.mp hlist
  · dsimp only at h
    split at h
    · cases h
    · split at h
      · cases h
      · unfold shorthandForm at h
        repeat' split at h
        all_goals cases h
  · cases h

/-- Only a truth value can refuse an argument. -/
lemma assign_eq_error {e} (h : assign fs f mention value = .error e) :
    f.value.isTruth = true ∧ (value ≠ "" ∧ Text.readBool? value = none) ∧
    e = .invalidTruth mention value := by
  unfold assign at h
  cases hval : f.value with
  | text | list => simp [hval, FlagValue.set?] at h
  | truth b =>
    rw [hval, FlagValue.set?] at h
    by_cases hempty : value = ""
    · simp [hempty] at h
    · cases hread : Text.readBool? value with
      | some => simp [hempty, hread] at h
      | none =>
        simp only [if_neg hempty, hread, Option.map_none, Except.error.injEq] at h
        exact ⟨rfl, ⟨hempty, rfl⟩, h.symm⟩

lemma Given.parse_append (h : Given fs used fs') (ys : List String) :
    parse fs (used ++ ys) = parse fs' ys := by
  cases h with
  | attached hform hval => simp [parse, hform, hval]
  | alone hform htruth hval => simp [parse, hform, htruth, hval]
  | separate hform htruth hval => simp [parse, hform, htruth, hval]

/-- What stands behind arguments that have been read is read from the flags that they leave. -/
lemma Reads.parse_append (h : Reads fs xs fs' kept) (ys : List String) :
    parse fs (xs ++ ys) = ⟨(parse fs' ys).flags, kept ++ (parse fs' ys).positional,
      (parse fs' ys).error⟩ := by
  induction h with
  | nil => rfl
  | keep hform hrest ih => simp [parse, hform, ih, Parsed.cons]
  | give hflag hrest ih => rw [List.append_assoc, hflag.parse_append, ih]

lemma Stops.parse_eq (h : Stops fs rest more error) : parse fs rest = ⟨fs, more, error⟩ := by
  cases h with
  | finished => rfl
  | terminator => simp [parse, formOf]
  | unknown hform => rw [parse, hform]
  | missing hform htruth => simp [parse, hform, htruth]
  | @invalid _ f mention value _ hform htruth hval =>
    have hassign : assign fs f mention value = .error (.invalidTruth mention value) := by
      cases hcur : f.value <;> simp_all [assign, FlagValue.set?, FlagValue.isTruth]
    simp [parse, hform, hassign]

/-- Every list of arguments is read up to a place where reading stops. -/
lemma exists_stops (fs : FlagSet) (args : List String) : ∃ before rest fs' kept more error,
    args = before ++ rest ∧ Reads fs before fs' kept ∧ Stops fs' rest more error := by
  have hgive {fs fs' : FlagSet} {used args : List String} (hflag : Given fs used fs')
      (h : ∃ before rest fs'' kept more error,
        args = before ++ rest ∧ Reads fs' before fs'' kept ∧ Stops fs'' rest more error) :
      ∃ before rest fs'' kept more error,
        used ++ args = before ++ rest ∧ Reads fs before fs'' kept ∧ Stops fs'' rest more error := by
    obtain ⟨before, rest, fs'', kept, more, error, rfl, hreads, hstops⟩ := h
    exact ⟨used ++ before, rest, fs'', kept, more, error, (List.append_assoc ..).symm,
      .give hflag hreads, hstops⟩
  have hstop {fs : FlagSet} {args more : List String} {error} (h : Stops fs args more error) :
      ∃ before rest fs' kept more error,
        args = before ++ rest ∧ Reads fs before fs' kept ∧ Stops fs' rest more error :=
    ⟨[], args, fs, [], more, error, rfl, .nil, h⟩
  fun_induction parse fs args with
  | case1 fs => exact hstop .finished
  | case2 fs argument rest hform ih =>
    obtain ⟨before, rest', fs', kept, more, error, rfl, hreads, hstops⟩ := ih
    exact ⟨argument :: before, rest', fs', argument :: kept, more, error, rfl,
      .keep hform hreads, hstops⟩
  | case3 fs argument rest hform => exact eq_terminator hform ▸ hstop .terminator
  | case4 fs argument rest hform => exact hstop (.unknown hform)
  | case5 fs argument rest f mention value hform fs' hval ih =>
      exact hgive (.attached hform hval) ih
  | case6 fs argument rest f mention value hform e hval =>
    obtain ⟨htruth, hinvalid, -⟩ := assign_eq_error hval
    exact hstop (.invalid hform htruth hinvalid)
  | case7 fs argument rest f mention hform htruth fs' hval ih =>
      exact hgive (.alone hform htruth hval) ih
  | case8 fs argument rest f mention hform htruth e hval =>
    exact absurd rfl (assign_eq_error hval).2.1.1
  | case9 fs argument f mention hform htruth =>
      exact hstop (.missing hform (Bool.eq_false_iff.mpr htruth))
  | case10 fs argument f mention hform htruth value rest fs' hval ih =>
    exact hgive (.separate hform (Bool.eq_false_iff.mpr htruth) hval) ih
  | case11 fs argument f mention hform htruth value rest e hval =>
    exact absurd (assign_eq_error hval).1 htruth

/-- Arguments that are accepted without a terminator have all been read. -/
lemma reads_of_parse (herror : (parse fs xs).error = none) (hopen : ¬ MeetsTerminator fs xs) :
    Reads fs xs (parse fs xs).flags (parse fs xs).positional := by
  obtain ⟨before, rest, fs', kept, more, error, rfl, hreads, hstops⟩ := exists_stops fs xs
  have hparse := hreads.parse_append rest
  rw [hstops.parse_eq] at hparse
  rw [hparse] at herror ⊢
  cases hstops with
  | finished => simpa using hreads
  | terminator => exact absurd ⟨before, _, fs', kept, rfl, hreads⟩ hopen
  | unknown | missing | invalid => cases herror

/-! ## Lists of arguments -/

/-- Arguments are read one list after the other: behind a list that is accepted without a
terminator, another list is read as it would be alone, from the flags that the first one leaves,
with the same values, positional arguments and error; and a terminator keeps all that follows it.
Every list of arguments is read up to a place where reading stops with an answer. -/
theorem parse_composes (fs : FlagSet) :
    (∀ xs ys, (parse fs xs).error = none → ¬ MeetsTerminator fs xs →
      parse fs (xs ++ ys) = ⟨(parse (parse fs xs).flags ys).flags,
        (parse fs xs).positional ++ (parse (parse fs xs).flags ys).positional,
        (parse (parse fs xs).flags ys).error⟩ ∧
      parse fs (xs ++ "--" :: ys) = ⟨(parse fs xs).flags, (parse fs xs).positional ++ ys, none⟩) ∧
    ∀ args, ∃ before rest fs' kept more error, args = before ++ rest ∧ Reads fs before fs' kept ∧
      Stops fs' rest more error ∧ parse fs args = ⟨fs', kept ++ more, error⟩ := by
  refine ⟨fun xs ys herror hopen => ?_, fun args => ?_⟩
  · have hreads := reads_of_parse herror hopen
    refine ⟨hreads.parse_append ys, ?_⟩
    rw [hreads.parse_append, Stops.terminator.parse_eq]
  · obtain ⟨before, rest, fs', kept, more, error, rfl, hbefore, hstops⟩ := exists_stops fs args
    refine ⟨before, rest, fs', kept, more, error, rfl, hbefore, hstops, ?_⟩
    rw [hbefore.parse_append, hstops.parse_eq]

/-- Behind a terminator everything is kept. -/
lemma MeetsTerminator.positional_append (h : MeetsTerminator fs xs) (ys : List String) :
    (parse fs (xs ++ ys)).positional = (parse fs xs).positional ++ ys := by
  obtain ⟨before, after, fs', kept, rfl, hreads⟩ := h
  rw [List.append_assoc, List.cons_append, hreads.parse_append, hreads.parse_append,
    Stops.terminator.parse_eq, Stops.terminator.parse_eq, List.append_assoc]

/-- A text, a truth value and a list. -/
def sampleFlags : FlagSet :=
  { flags := [.ofText "out" "o" "" "" "", .ofTruth "v" "" false "", .ofList "I" "" [] "" ""] }

/-- A terminator that is the value of a flag ends nothing. -/
theorem parse_sampleFlags_append :
    (parse sampleFlags ["-o", "--", "a", "-I=b"]).error = none ∧
    parse sampleFlags (["-o", "--", "a", "-I=b"] ++ ["--v", "c", "-I"]) =
      ⟨(parse sampleFlags (["-o", "--", "a", "-I=b"] ++ ["--v", "c"])).flags, ["a", "c"],
        some (.needsArgument "I")⟩ := by
  have herror : (parse sampleFlags ["-o", "--", "a", "-I=b"]).error = none := by cbv
  have hopen : ¬ MeetsTerminator sampleFlags ["-o", "--", "a", "-I=b"] := fun h => by
    have hkept : (parse sampleFlags (["-o", "--", "a", "-I=b"] ++ ["-v"])).positional =
      ["a"] := by cbv
    have hall := h.positional_append ["-v"]
    rw [hkept] at hall
    exact absurd (congrArg List.length hall) (by decide)
  refine ⟨herror, ?_⟩
  rw [((parse_composes sampleFlags).1 _ ["--v", "c", "-I"] herror hopen).1]
  cbv

end ThreeAddress.Options
