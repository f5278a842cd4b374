import ThreeAddress.Options.Switches
import ThreeAddress.Proofs.Code.Flow
import ThreeAddress.Proofs.Options.Arguments

/-!
# Switches in any order

The switches of the settings can be given as arguments, which set flags that are copied into the
settings afterwards, or applied to the settings one by one. While arguments are read, a flag of the
groups is on exactly if its switch has been among them (`Shows`), so that the settings depend only
on which switches occur; and applying them one by one comes to the same unless a name is switched
both on and off.
-/

namespace ThreeAddress.Options

/-- What can be switched. -/
inductive Subject
  | warning (w : Warning)
  | feature (f : Feature)
  deriving DecidableEq

/-- What the switches of a subject begin with. -/
def Subject.stem : Subject → String
  | warning _ => "W"
  | feature _ => "F"

def Subject.name : Subject → String
  | warning w => w.name
  | feature f => f.name

/-- Whether a subject is on. -/
def Subject.isOn (s : Settings) : Subject → Bool
  | warning w => s.warning w
  | feature f => s.feature f

/-- The settings with other tables. -/
def withTables (s : Settings) (t : Subject → Bool) : Settings :=
  { s with warning := fun w => t (.warning w), feature := fun f => t (.feature f) }

/-- A subject that is to be on or off. -/
structure Mark where
  subject : Subject
  on : Bool
  deriving DecidableEq

namespace Mark

/-- The name of the flag that stands for a mark. -/
def flagName : Mark → String
  | ⟨x, true⟩ => x.stem ++ x.name
  | ⟨x, false⟩ => x.stem ++ "no-" ++ x.name

/-- The switch that stands for a mark, as an argument. -/
def switch (m : Mark) : String := "-" ++ m.flagName

/-- The settings with one subject as a mark wants it. -/
def set (s : Settings) (m : Mark) : Settings :=
  withTables s fun x => if x = m.subject then m.on else x.isOn s

end Mark

/-- What the tables say after marks: off wins over on, and both over what was there. -/
def tableAfter (settings : Settings) (marks : List Mark) (x : Subject) : Bool :=
  if ⟨x, false⟩ ∈ marks then false else if ⟨x, true⟩ ∈ marks then true else x.isOn settings

namespace Mark

/-! ## One switch after the other -/

variable {s : Settings} {m m' : Mark} {x : Subject}

lemma isOn_set : x.isOn (m.set s) = if x = m.subject then m.on else x.isOn s := by
  cases x <;> rfl

lemma applySwitch?_switch (s : Settings) (m : Mark) : s.applySwitch? m.switch = some (m.set s) := by
  rcases m with ⟨w | f, on⟩
  · have hset : set s ⟨.warning w, on⟩ = s.setWarning w on := by
      simp [set, withTables, Settings.setWarning, Subject.isOn]
    rw [hset]
    cases w <;> cases on <;> rfl
  · have hset : set s ⟨.feature f, on⟩ = s.setFeature f on := by
      simp [set, withTables, Settings.setFeature, Subject.isOn]
    rw [hset]
    cases f <;> cases on <;> rfl

/-- Different marks have different flags, for they change settings in which nothing is as one of
them wants it. -/
lemma flagName_inj (h : m.flagName = m'.flagName) : m = m' := by
  have hset (s : Settings) : m.set s = m'.set s :=
    Option.some.inj (by rw [← applySwitch?_switch, ← applySwitch?_switch, switch, switch, h])
  have hon := congrArg m.subject.isOn
    (hset { warning := fun _ => !m.on, feature := fun _ => !m.on })
  have hother :
      m.subject.isOn { warning := fun _ => !m.on, feature := fun _ => !m.on } = !m.on := by
    cases m.subject <;> rfl
  rw [isOn_set, if_pos rfl, isOn_set, hother] at hon
  split at hon
  · rename_i hsubject
    cases m; cases m'
    exact mk.injEq .. ▸ ⟨hsubject, hon⟩
  · simp at hon

lemma flagName_chars (m : Mark) :
    ∃ c cs, m.flagName.toList = c :: cs ∧ c ≠ '-' ∧ cutAtEquals (c :: cs) = (m.flagName, none) := by
  rcases m with ⟨w | f, on⟩
  · cases w <;> cases on <;> exact ⟨_, _, rfl, by decide, by decide⟩
  · cases f <;> cases on <;> exact ⟨_, _, rfl, by decide, by decide⟩

/-- Applied one by one, switches that do not contradict each other leave the tables that their marks
want. -/
lemma applySwitches_eq (marks : List Mark)
    (hmarks : ∀ x, ¬ (⟨x, true⟩ ∈ marks ∧ ⟨x, false⟩ ∈ marks)) :
    s.applySwitches (marks.map switch) = withTables s (tableAfter s marks) := by
  induction marks generalizing s with
  | nil => rfl
  | cons m marks ih =>
    have hstep : s.applySwitches ((m :: marks).map switch) = (m.set s).applySwitches
        (marks.map switch) := by
      simp [Settings.applySwitches, applySwitch?_switch]
    have htable : tableAfter (m.set s) marks = tableAfter s (m :: marks) := by
      funext x
      simp only [tableAfter, isOn_set]
      rcases m with ⟨y, on⟩
      have hy := hmarks y
      cases on <;> grind
    rw [hstep, ih fun y hy => hmarks y ⟨.tail _ hy.1, .tail _ hy.2⟩, htable]
    rfl

end Mark

/-! ## The flags of the groups -/

variable {fs fs' : FlagSet} {f : Flag} {m : Mark} {marks : List Mark}

/-- Flags stand behind those that were there, under names that were free. -/
def Adds (fs : FlagSet) (flags : List Flag) (fs' : FlagSet) : Prop :=
  fs'.flags = fs.flags ++ flags ∧ ∀ f ∈ flags, fs.find? f.name = none

lemma Adds.append {fs1 : FlagSet} {flags more} (h : Adds fs flags fs1) (h' : Adds fs1 more fs') :
    Adds fs (flags ++ more) fs' := by
  refine ⟨by rw [h'.1, h.1, List.append_assoc], List.forall_mem_append.mpr ⟨h.2, fun f hf => ?_⟩⟩
  have hfind := h'.2 f hf
  rw [FlagSet.find?, h.1, List.find?_append, Option.or_eq_none_iff] at hfind
  exact hfind.1

lemma adds_define (h : fs.define f = (fs', none)) : Adds fs [f] fs' := by
  unfold FlagSet.define at h
  unfold Adds
  grind [Option.not_isSome_iff_eq_none]

lemma adds_defineAll {flags} (h : fs.defineAll flags = .ok fs') : Adds fs flags fs' := by
  induction flags generalizing fs with
  | nil => cases h; exact ⟨by simp, by simp⟩
  | cons f flags ih =>
    rw [FlagSet.defineAll] at h
    split at h
    · exact (adds_define ‹_›).append (ih h)
    · cases h

lemma adds_addGroups {gs} (h : fs.addGroups gs = .ok fs') :
    Adds fs (gs.flatMap fun g => g.switches.flatMap Switch.flags) fs' := by
  induction gs generalizing fs with
  | nil => cases h; exact ⟨by simp, by simp⟩
  | cons g gs ih =>
    obtain ⟨fs1, hgroup, hrest⟩ := bind_eq_ok h
    obtain ⟨fs2, hdefine, hgroup⟩ := bind_eq_ok hgroup
    have hdefined := adds_defineAll hdefine
    have hadds : Adds fs (g.switches.flatMap Switch.flags) fs1 := by
      cases hgroup
      exact hdefined
    exact hadds.append (ih hrest)

lemma value?_setValue (name x : String) (value : FlagValue) :
    (fs.setValue name value).value? x = (fs.value? x).map fun old =>
    if x = name then value else old := by
  have hname : ((fun g : Flag => g.name == x) ∘ fun g =>
      if g.name = name then { g with value } else g) = fun g => g.name == x := by
    funext g
    by_cases hg : g.name = name <;> simp [hg]
  rw [FlagSet.value?, FlagSet.value?, FlagSet.find?, FlagSet.find?, FlagSet.setValue,
    List.find?_map, hname]
  cases hfind : fs.flags.find? fun g => g.name == x with
  | none => rfl
  | some g =>
    have hx : g.name = x := by simpa using List.find?_some hfind
    by_cases hg : x = name <;> simp [hx, hg]

/-- The flags of the groups tell which marks have been given. -/
def Shows (fs : FlagSet) (marks : List Mark) : Prop :=
  ∀ m : Mark, fs.value? m.flagName = some (.truth (decide (m ∈ marks)))

/-- A set of flags to which the groups have been added shows no mark. -/
lemma shows_withSwitches (h : withSwitches fs = .ok fs') : Shows fs' [] := by
  intro m
  obtain ⟨hflags, hfree⟩ := adds_addGroups h
  have hoff : ∀ f ∈ [warningGroup, featureGroup].flatMap fun g => g.switches.flatMap Switch.flags,
      f.value = .truth false := by
    simp [warningGroup, featureGroup, warningSwitch, featureSwitch, Switch.flags, Flag.ofTruth,
      or_imp, forall_and]
  obtain ⟨f, hf, hname⟩ : ∃ f ∈ [warningGroup, featureGroup].flatMap fun g =>
    g.switches.flatMap Switch.flags,
      f.name = m.flagName := by
    rcases m with ⟨w | f, on⟩
    · cases w <;> cases on <;> decide
    · cases f <;> cases on <;> decide
  have hnew : fs.flags.find? (fun g => g.name == m.flagName) = none := hname ▸ hfree f hf
  rw [FlagSet.value?, FlagSet.find?, hflags, List.find?_append, hnew, Option.none_or]
  cases hfind : List.find? (fun g => g.name == m.flagName)
      ([warningGroup, featureGroup].flatMap fun g => g.switches.flatMap Switch.flags) with
  | none => exact absurd hname (by simpa using List.find?_eq_none.mp hfind f hf)
  | some g => simp [hoff g (List.mem_of_find?_eq_some hfind)]

lemma formOf_switch (h : fs.find? m.flagName = some f) :
    formOf fs m.switch = .flag f m.flagName none := by
  obtain ⟨c, cs, hchars, hc, hcut⟩ := m.flagName_chars
  have hlist : m.switch.toList = '-' :: c :: cs := by simp [Mark.switch, hchars]
  simp [formOf, hlist, hc, hcut, h]

/-- A switch that is read adds its mark to those that are shown. -/
lemma Shows.given (h : Shows fs marks) (m : Mark) : ∃ fs', Given fs [m.switch] fs' ∧
    Shows fs' (marks ++ [m]) := by
  obtain ⟨f, hfind, hval⟩ := Option.map_eq_some_iff.mp (h m)
  have hname : f.name = m.flagName := by simpa using List.find?_some hfind
  refine ⟨fs.setValue m.flagName (.truth true), .alone (formOf_switch hfind) ?_ ?_, fun m' => ?_⟩
  · rw [hval, FlagValue.isTruth]
  · rw [assign, hval, hname]
    rfl
  · rw [value?_setValue, h m']
    by_cases hm : m' = m
    · simp [hm]
    · simp [hm, mt Mark.flagName_inj hm]

/-- Switches are all read, and then exactly their marks are shown. -/
lemma Shows.reads {before} (h : Shows fs before) (marks : List Mark) :
    ∃ fs', Reads fs (marks.map Mark.switch) fs' [] ∧ Shows fs' (before ++ marks) := by
  induction marks generalizing fs before with
  | nil => exact ⟨fs, .nil, by rwa [List.append_nil]⟩
  | cons m marks ih =>
    obtain ⟨fs1, hgiven, hshows⟩ := h.given m
    obtain ⟨fs', hreads, hall⟩ := ih hshows
    exact ⟨fs', .give hgiven hreads, by rwa [List.append_cons]⟩

/-! ## Settings -/

lemma Shows.applyGroups (h : Shows fs marks) (settings : Settings) :
    applyGroups fs settings = withTables settings (tableAfter settings marks) := by
  have hswitched (x : Subject) (s : Switch) (hon : s.onName = Mark.flagName ⟨x, true⟩)
      (hoff : s.offName = Mark.flagName ⟨x, false⟩) :
      switched fs s (x.isOn settings) = tableAfter settings marks x := by
    simp [switched, FlagSet.isOn, hon, hoff, h _, tableAfter]
  unfold Options.applyGroups withTables
  congr 1
  · funext f; exact hswitched (.feature f) (featureSwitch f) rfl rfl
  · funext w; exact hswitched (.warning w) (warningSwitch w) rfl rfl

/-- The switches of the settings in any order and number, given as arguments to flags with the
groups, are all accepted and leave no positional argument. Then a subject is off if it is switched
off anywhere, else on if it is switched on, and else as it was, so that only the occurrence of the
switches counts. If no subject is switched both ways, applying the switches one by one comes to the
same. -/
theorem groups_switch_settings (hfs : withSwitches fs = .ok fs') (settings : Settings)
    (marks : List Mark) :
    ∃ flags, parse fs' (marks.map Mark.switch) = ⟨flags, [], none⟩ ∧
      applyGroups flags settings = withTables settings (tableAfter settings marks) ∧
      (∀ marks' : List Mark, (∀ m, m ∈ marks' ↔ m ∈ marks) →
        applyGroups (parse fs' (marks'.map Mark.switch)).flags settings =
        applyGroups flags settings) ∧
      ((∀ x, ¬ (⟨x, true⟩ ∈ marks ∧ ⟨x, false⟩ ∈ marks)) →
        (∀ m ∈ marks, ∀ s : Settings, (s.applySwitch? m.switch).isSome = true) ∧
        settings.applySwitches (marks.map Mark.switch) = applyGroups flags settings) := by
  have hparse (marks : List Mark) : ∃ flags, parse fs' (marks.map Mark.switch) = ⟨flags, [], none⟩ ∧
      applyGroups flags settings = withTables settings (tableAfter settings marks) := by
    obtain ⟨flags, hreads, hshows⟩ := (shows_withSwitches hfs).reads marks
    have hall := hreads.parse_append []
    rw [List.append_nil, Stops.finished.parse_eq] at hall
    exact ⟨flags, hall, hshows.applyGroups settings⟩
  obtain ⟨flags, hflags, hafter⟩ := hparse marks
  refine ⟨flags, hflags, hafter, fun marks' hmarks => ?_, fun hmarks => ⟨fun m _ s => ?_, ?_⟩⟩
  · obtain ⟨flags', hflags', hafter'⟩ := hparse marks'
    have htable : tableAfter settings marks' = tableAfter settings marks := by
      funext x
      simp only [tableAfter, hmarks]
    rw [hflags', hafter', hafter, htable]
  · rw [Mark.applySwitch?_switch, Option.isSome_some]
  · rw [hafter, Mark.applySwitches_eq marks hmarks]

/-- A warning that is switched both ways is off, whatever comes last. -/
theorem groups_switch_settings_both_ways : ∃ fs' flags, withSwitches {} = .ok fs' ∧
    parse fs' ["-Wextra", "-Fno-switch", "-Wno-extra", "-Wextra"] = ⟨flags, [], none⟩ ∧
    (applyGroups flags {}).warning .extra = false ∧
    (applyGroups flags {}).feature .switchStatements = false := by
  obtain ⟨fs', hfs⟩ : ∃ fs', withSwitches {} = .ok fs' := ⟨_, rfl⟩
  obtain ⟨flags, hparse, hafter, -⟩ := groups_switch_settings hfs {}
    [⟨.warning .extra, true⟩, ⟨.feature .switchStatements, false⟩, ⟨.warning .extra, false⟩,
      ⟨.warning .extra, true⟩]
  exact ⟨fs', flags, hfs, hparse, hafter ▸ rfl, hafter ▸ rfl⟩

end ThreeAddress.Options
