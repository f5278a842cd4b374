import Mathlib.Algebra.GroupWithZero.Nat
import Mathlib.Data.List.Nodup
import Mathlib.Logic.Relation
import ThreeAddress.Suite.Run

/-!
# Tests in parallel

Files can be tested by several workers at once. A feeder goes through the files: it answers at once
for a file that is not to be tested, and puts the others into a channel, from which the workers take
them. All results go into a second channel, which nobody empties before the workers have ended. A
`Pool` is a state of this, and an `Act` what one party does. The results that are there or still to
come (`inFlight`) are the same before and after every act but for their order, so that neither
channel can overflow, and in the end the sorted results are those of testing one file after the
other.
-/

namespace ThreeAddress.Suite

open List

/-- What is to be tested: different files, those that are skipped, the digests of the files or why
they cannot be read, and what testing a file with a digest comes to. -/
structure Bench where
  files : List String
  skipped : List String
  digest : String → Except FileError String
  test : String → String → TestResult
  nodup : files.Nodup
  file_test : ∀ file d, (test file d).file = file

/-- A worker waits for a file, has a file with its digest, or has ended. -/
inductive Worker
  | idle
  | busy (file digest : String)
  | ended

/-- A state of the feeder, the channels and the workers. -/
structure Pool where
  /-- The files that the feeder has yet to look at. -/
  pending : List String
  /-- The digests of the files that are tested, with the files. -/
  seen : List (String × String) := []
  /-- Whether the channel of the files is closed. -/
  closed : Bool := false
  tasks : List (String × String) := []
  results : List TestResult := []
  workers : List Worker

namespace Bench

/-- What is done about a file, given the file before it that has a digest: there is a result at
once, or a digest with which the file is tested. -/
def plan (b : Bench) (first? : String → Option String) (file : String) : TestResult ⊕ String :=
  if file ∈ b.skipped then .inl { file, status := .skip, message := "Explicitly skipped" }
  else
    match b.digest file with
    | .error e =>
      .inl { file, status := .error, message := "Failed to read file for hashing: " ++ e.message }
    | .ok d =>
      match first? d with
      | some first => .inl { file, status := .skip, message := "Content is identical to " ++ first }
      | none => .inr d

/-- What one party does. -/
inductive Act (b : Bench) (p : Pool) : Pool → Prop
  | answer {file rest r} (hpending : p.pending = file :: rest)
      (hplan : b.plan (p.seen.lookup ·) file = .inl r) :
      Act b p { p with pending := rest, results := p.results ++ [r] }
  | assign {file rest d} (hpending : p.pending = file :: rest)
      (hplan : b.plan (p.seen.lookup ·) file = .inr d) :
      Act b p { p with
        pending := rest, seen := (d, file) :: p.seen, tasks := p.tasks ++ [(file, d)] }
  | close (hpending : p.pending = []) (hclosed : p.closed = false) :
      Act b p { p with closed := true }
  | receive {file d rest before after} (htasks : p.tasks = (file, d) :: rest)
      (hworkers : p.workers = before ++ .idle :: after) :
      Act b p { p with tasks := rest, workers := before ++ .busy file d :: after }
  | deliver {file d before after} (hworkers : p.workers = before ++ .busy file d :: after) :
      Act b p { p with
        results := p.results ++ [b.test file d], workers := before ++ .idle :: after }
  | finish {before after} (hclosed : p.closed = true) (htasks : p.tasks = [])
      (hworkers : p.workers = before ++ .idle :: after) :
      Act b p { p with workers := before ++ .ended :: after }

/-- An act that is carried out: each channel has room for as many entries as there are files. -/
def Step (b : Bench) (p p' : Pool) : Prop :=
  b.Act p p' ∧ p'.tasks.length ≤ b.files.length ∧ p'.results.length ≤ b.files.length

/-- The beginning, with one worker at least. -/
def start (b : Bench) (jobs : Int) : Pool :=
  { pending := b.files, workers := replicate (max jobs 1).toNat .idle }

/-- The results of files, one after the other. -/
def outcomes (b : Bench) (seen : List (String × String)) : List String → List TestResult
  | [] => []
  | file :: files =>
    match b.plan (seen.lookup ·) file with
    | .inl r => r :: b.outcomes seen files
    | .inr d => b.test file d :: b.outcomes ((d, file) :: seen) files

/-- The first of some files that is not skipped and has a digest. -/
def tested? (b : Bench) (files : List String) (d : String) : Option String :=
  files.find? fun g => !b.skipped.contains g && (b.digest g).toOption == some d

/-- The result of a file: it is skipped if it is to be, an error if it cannot be read, skipped if a
file before it is tested that has the same digest, and else that of its test. -/
def verdict (b : Bench) (file : String) : TestResult :=
  match b.plan (b.tested? (b.files.takeWhile (· ≠ file))) file with
  | .inl r => r
  | .inr d => b.test file d

/-- The result that a worker is about to deliver. -/
def held (b : Bench) : Worker → List TestResult
  | .busy file d => [b.test file d]
  | _ => []

/-- The results that are there and those still to come. -/
def inFlight (b : Bench) (p : Pool) : List TestResult :=
  p.results ++ p.workers.flatMap b.held ++ p.tasks.map (fun t => b.test t.1 t.2) ++
    b.outcomes p.seen p.pending

variable {b : Bench} {p p' : Pool} {jobs : Int}

/-! ## One file after the other -/

lemma file_of_plan {first? file r} (h : b.plan first? file = .inl r) : r.file = file := by
  unfold plan at h
  repeat' split at h
  all_goals cases h
  all_goals rfl

lemma map_file_outcomes (seen : List (String × String)) (files : List String) :
    (b.outcomes seen files).map TestResult.file = files := by
  induction files generalizing seen with
  | nil => rfl
  | cons file files ih =>
    rw [outcomes]
    split
    · rw [map_cons, ih, file_of_plan ‹_›]
    · rw [map_cons, ih, b.file_test]

lemma tested?_concat (before : List String) (file e : String) : b.tested? (before ++ [file]) e =
    (b.tested? before e).or (if file ∉ b.skipped ∧
      (b.digest file).toOption = some e then some file else none) := by
  simp [tested?, find?_append, find?_singleton]

/-- A file that is not tested changes nothing for the files behind it. -/
lemma tested?_of_plan_inl {before file r} (h : b.plan (b.tested? before) file = .inl r) :
    b.tested? (before ++ [file]) = b.tested? before := by
  funext e
  rw [tested?_concat]
  unfold plan at h
  grind [Except.toOption]

lemma tested?_of_plan_inr {before file d} (h : b.plan (b.tested? before) file = .inr d)
    (e : String) :
    b.tested? (before ++ [file]) e = if e = d then some file else b.tested? before e := by
  rw [tested?_concat]
  unfold plan at h
  grind [Except.toOption]

/-- Files behind others, of which those with their digests are known that have been tested. -/
lemma outcomes_eq_map {seen} {before files}
    (hfiles : b.files = before ++ files) (hseen : ∀ d, seen.lookup d = b.tested? before d) :
    b.outcomes seen files = files.map b.verdict := by
  induction files generalizing seen before with
  | nil => rfl
  | cons file files ih =>
    have hbefore : b.files.takeWhile (· ≠ file) = before := by
      have hnew : ∀ g ∈ before, g ≠ file := fun g hg =>
        (nodup_append.mp (hfiles ▸ b.nodup)).2.2 g hg file mem_cons_self
      rw [hfiles, takeWhile_append_of_pos (by simpa using hnew)]
      simp
    have hrest : b.files = (before ++ [file]) ++ files := by rw [hfiles, append_cons]
    rw [outcomes, map_cons, verdict, hbefore, funext hseen]
    cases hplan : b.plan (b.tested? before) file with
    | inl r => exact congrArg _ (ih hrest fun e => by rw [hseen, tested?_of_plan_inl hplan])
    | inr d =>
      refine congrArg _ (ih hrest fun e => ?_)
      rw [tested?_of_plan_inr hplan, lookup_cons, hseen]
      by_cases he : e = d
      · rw [he, beq_self_eq_true, if_pos rfl]
      · rw [beq_eq_false_iff_ne.mpr he, if_neg he]

/-- The runner finds the digests and the results of tests as they are on the bench, in every state
out of a set that tests do not leave: what a test comes to depends on its file only. -/
structure Describes (b : Bench) (s : Setting) (earlier : Report)
    (states : Set RunState) : Prop where
  read : ∀ w ∈ states, ∀ file ∈ b.files, (w.files.read s.directory file).map Digest.ofText =
    b.digest file
  test : ∀ w ∈ states, ∀ file ∈ b.files, ∀ d, b.digest file = .ok d →
    (testFile s earlier file d w).1 = b.test file d ∧ (testFile s earlier file d w).2 ∈ states

lemma bind_apply {α β} (x : Run α) (f : α → Run β) (w : RunState) :
    (x >>= f) w = f (x w).1 (x w).2 := rfl

lemma get_bind {α} (f : RunState → Run α) (w : RunState) : (get >>= f) w = f w w := rfl

lemma Describes.testEach {s earlier states} (h : b.Describes s earlier states) {w} (hw : w ∈ states)
    (seen : List (String × String)) {files} (hfiles : files ⊆ b.files) :
    (testEach s earlier b.skipped seen files w).1 = b.outcomes seen files := by
  induction files generalizing seen w with
  | nil => rfl
  | cons file files ih =>
    obtain ⟨hfile, hfiles⟩ := cons_subset.mp hfiles
    have hread := h.read w hw file hfile
    rw [Suite.testEach, outcomes, plan]
    by_cases hskip : file ∈ b.skipped
    · rw [if_pos (contains_iff_mem.mpr hskip), if_pos hskip]
      exact congrArg _ (ih hw seen hfiles)
    · rw [if_neg (mt contains_iff_mem.mp hskip), if_neg hskip, ← hread, get_bind]
      cases hcontent : w.files.read s.directory file with
      | error e => exact congrArg _ (ih hw seen hfiles)
      | ok content =>
        rw [hcontent] at hread
        cases hseen : seen.lookup (Digest.ofText content) with
        | some first =>
          simp only [Except.map, hseen]
          exact congrArg _ (ih hw seen hfiles)
        | none =>
          simp only [Except.map, hseen]
          obtain ⟨hres, hstate⟩ := h.test w hw file hfile _ hread.symm
          rw [← hres, ← ih hstate _ hfiles]
          rfl

/-! ## Acts -/

/-- No act makes a result or loses one. -/
lemma Act.inFlight_perm (h : b.Act p p') : b.inFlight p' ~ b.inFlight p := by
  rw [perm_iff_count]
  intro r
  simp only [inFlight, count_append]
  cases h with
  | answer hpending hplan =>
    simp only [hpending, outcomes, hplan, count_append, count_cons, count_nil]
    omega
  | assign hpending hplan =>
    simp only [hpending, outcomes, hplan, map_append, map_cons, map_nil, count_append,
      count_cons, count_nil]
    omega
  | close => rfl
  | receive htasks hworkers =>
    simp only [htasks, hworkers, held, flatMap_append, flatMap_cons, map_cons, count_append,
      count_cons, count_nil]
    omega
  | deliver hworkers =>
    simp only [hworkers, held, flatMap_append, flatMap_cons, count_append, count_cons, count_nil]
    omega
  | finish hclosed htasks hworkers => simp only [hworkers, held, flatMap_append, flatMap_cons]

/-- How much is left to do. -/
def load (p : Pool) : Nat :=
  3 * p.pending.length + 2 * p.tasks.length + (if p.closed then 0 else 1) +
    (p.workers.map fun | .idle => 1 | .busy .. => 2 | .ended => 0).sum

lemma Act.load_lt (h : b.Act p p') : load p' < load p := by
  cases h <;> simp_all [load] <;> omega

/-- Unless all workers have ended, some party can act. -/
lemma exists_act (b : Bench) (hrunning : ∃ x ∈ p.workers, x ≠ .ended) : ∃ p', b.Act p p' := by
  cases hpending : p.pending with
  | cons file rest =>
    cases hplan : b.plan (p.seen.lookup ·) file with
    | inl r => exact ⟨_, .answer hpending hplan⟩
    | inr d => exact ⟨_, .assign hpending hplan⟩
  | nil =>
    cases hclosed : p.closed with
    | false => exact ⟨_, .close hpending hclosed⟩
    | true =>
      obtain ⟨x, hx, hne⟩ := hrunning
      obtain ⟨before, after, hworkers⟩ := append_of_mem hx
      cases x with
      | ended => exact absurd rfl hne
      | busy file d => exact ⟨_, .deliver hworkers⟩
      | idle =>
        cases htasks : p.tasks with
        | nil => exact ⟨_, .finish hclosed htasks hworkers⟩
        | cons t rest => exact ⟨_, .receive htasks hworkers⟩

/-- What every act keeps: the results, that the channel is closed behind the last file, and that a
worker ends only when it is closed and empty. -/
structure Sound (b : Bench) (p : Pool) : Prop where
  results : b.inFlight p ~ b.outcomes [] b.files
  closed : p.closed = true → p.pending = []
  ended : .ended ∈ p.workers → p.closed = true ∧ p.tasks = []
  workers : p.workers ≠ []

namespace Sound

lemma start (b : Bench) (jobs : Int) : b.Sound (b.start jobs) where
  results := by
    have hidle : (b.start jobs).workers.flatMap b.held = [] :=
      flatMap_eq_nil_iff.mpr fun x hx => by rw [eq_of_mem_replicate hx]; rfl
    rw [inFlight, hidle]
    exact .refl _
  closed := by simp [Bench.start]
  ended := by simp [Bench.start]
  workers h := by
    have := congrArg length h
    rw [Bench.start, length_replicate, length_nil] at this
    omega

lemma act (h : b.Sound p) (hact : b.Act p p') : b.Sound p' where
  results := hact.inFlight_perm.trans h.results
  closed hclosed := by
    have hpending := h.closed
    cases hact <;> simp_all
  ended hended := by
    have hpending := h.closed
    have hall := h.ended
    cases hact <;> simp_all
  workers := by
    have hne := h.workers
    cases hact <;> simp_all

/-- Neither channel holds more than there are files. -/
lemma room (h : b.Sound p) : p.tasks.length ≤ b.files.length ∧
    p.results.length ≤ b.files.length := by
  have hall := h.results.length_eq
  have hfiles := congrArg length (map_file_outcomes (b := b) [] b.files)
  simp only [inFlight, length_append, length_map] at hall hfiles
  omega

/-- When all workers have ended, all results are there. -/
lemma results_perm (h : b.Sound p) (hended : ∀ x ∈ p.workers, x = .ended) :
    p.results ~ b.outcomes [] b.files := by
  obtain ⟨x, hx⟩ := exists_mem_of_ne_nil _ h.workers
  obtain ⟨hclosed, htasks⟩ := h.ended (hended x hx ▸ hx)
  have hheld : p.workers.flatMap b.held = [] := flatMap_eq_nil_iff.mpr fun x hx => by
    rw [hended x hx]; rfl
  have hresults := h.results
  rw [inFlight, hheld, htasks, h.closed hclosed, outcomes] at hresults
  simpa using hresults

end Sound

/-- A schedule goes on until all workers have ended. -/
lemma Sound.exists_end (h : b.Sound p) :
    ∃ p', Relation.ReflTransGen b.Step p p' ∧ ∀ x ∈ p'.workers, x = .ended := by
  induction hload : load p using Nat.strongRecOn generalizing p with
  | ind n ih =>
    by_cases hrunning : ∃ x ∈ p.workers, x ≠ .ended
    · obtain ⟨p1, hact⟩ := exists_act b hrunning
      obtain ⟨p', hrun, hended⟩ := ih _ (hload ▸ hact.load_lt) (h.act hact) rfl
      exact ⟨p', .head ⟨hact, (h.act hact).room⟩ hrun, hended⟩
    · exact ⟨p, .refl, by simpa using hrunning⟩

lemma sound_of_run (hrun : Relation.ReflTransGen b.Step (b.start jobs) p) : b.Sound p := by
  induction hrun with
  | refl => exact .start b jobs
  | tail _ hstep ih => exact ih.act hstep.1

end Bench

/-- Results by file. -/
def byFile (results : List TestResult) : List TestResult :=
  results.mergeSort fun a b => decide (a.file ≤ b.file)

/-- Results of different files are sorted in one way. -/
lemma byFile_eq_of_perm {l l'} (h : l ~ l') (hnodup : (l'.map TestResult.file).Nodup) :
    byFile l = byFile l' := by
  have hsorted (l : List TestResult) :
      (byFile l).Pairwise fun a b => decide (a.file ≤ b.file) = true :=
    pairwise_mergeSort
      (fun a b c hab hbc => by
        simpa using String.le_trans (of_decide_eq_true hab) (of_decide_eq_true hbc))
      (fun a b => by simpa using String.le_total a.file b.file) l
  have hperm (l : List TestResult) : byFile l ~ l := mergeSort_perm ..
  refine Perm.eq_of_pairwise (fun x y hx hy hxy hyx => ?_) (hsorted l) (hsorted l')
    ((hperm l).trans (h.trans (hperm l').symm))
  have hfile := String.le_antisymm (of_decide_eq_true hxy) (of_decide_eq_true hyx)
  exact inj_on_of_nodup_map hnodup (h.mem_iff.mp ((hperm l).mem_iff.mp hx))
    ((hperm l').mem_iff.mp hy) hfile

/-- The runner loses no result and doubles none, whatever the schedule. However the feeder and any
number of workers take turns, no act has to wait for room in a channel, and the schedule goes on
until all workers have ended. Then the sorted results have one entry for each file, which is its
verdict; they are those of testing the files one after the other, where a test depends on its file
only. -/
theorem schedules_agree (b : Bench) (jobs : Int) {p : Pool}
    (hrun : Relation.ReflTransGen b.Step (b.start jobs) p) :
    (∀ p', b.Act p p' → b.Step p p') ∧
    (∃ p', Relation.ReflTransGen b.Step p p' ∧ ∀ x ∈ p'.workers, x = .ended) ∧
    ((∀ x ∈ p.workers, x = .ended) →
      byFile p.results = byFile (b.files.map b.verdict) ∧
      (byFile p.results).map TestResult.file ~ b.files ∧
      ∀ s earlier states, b.Describes s earlier states → ∀ w ∈ states,
        byFile p.results = byFile (testEach s earlier b.skipped [] b.files w).1) := by
  have hsound := Bench.sound_of_run hrun
  refine ⟨fun p' hact => ⟨hact, (hsound.act hact).room⟩, hsound.exists_end, fun hended => ?_⟩
  have hresults := hsound.results_perm hended
  have hfiles := Bench.map_file_outcomes (b := b) [] b.files
  have hsorted := byFile_eq_of_perm hresults (by rw [hfiles]; exact b.nodup)
  refine ⟨?_, ?_, fun s earlier states hstates w hw => ?_⟩
  · rw [hsorted, Bench.outcomes_eq_map (nil_append b.files).symm fun _ => rfl]
  · have hperm := ((mergeSort_perm _ _ : byFile p.results ~ _).trans hresults).map TestResult.file
    rwa [hfiles] at hperm
  · rw [hsorted, hstates.testEach hw [] (Subset.refl _)]

/-! ## A runner without time -/

lemma runEach_of_timeout {s} (h : s.options.timeout < startTime) (file : String)
    (plan : List (String × List String)) (w : RunState) : (runEach s file plan w).2 = w := by
  induction plan with
  | nil => rfl
  | cons stage plan ih =>
    have hexecute (args : List String) : (execute s args w).2 = w := by
      rw [execute, Bench.get_bind, if_pos h]
      rfl
    have hrun : (runEach s file (stage :: plan) w).2 =
      (runEach s file plan (execute s _ w).2).2 := rfl
    rw [hrun, hexecute, ih]

lemma testFile_of_timeout {s} (h : s.options.timeout < startTime) (file d : String) (w : RunState) :
    (testFile s [] file d w).1.file = file ∧ (testFile s [] file d w).2 = w := by
  have hexpected : (∃ r, expectedResults s [] file d w = (.error r, w) ∧ r.file = file) ∨
      ∃ e, expectedResults s [] file d w = (.ok e, w) := by
    rw [expectedResults, Bench.get_bind]
    cases w.files.read s.directory (expectedPath s.options file) with
    | ok text =>
      dsimp only
      cases parseTarget text with
      | ok e => exact .inr ⟨e, rfl⟩
      | error f => exact .inl ⟨_, rfl, rfl⟩
    | error e => by_cases hmissing :
        e.fault = .missing <;> exact .inl ⟨_, by simp only [hmissing]; rfl, rfl⟩
  obtain ⟨r, hr, hfile⟩ | ⟨e, he⟩ := hexpected
  · have htest : testFile s [] file d w = (r, w) := by rw [testFile, Bench.bind_apply, hr]; rfl
    rw [htest]
    exact ⟨hfile, rfl⟩
  · have hstages : (runStages s file d w).2 = w := runEach_of_timeout h ..
    have hfile (actual : TargetResult) :
        (compareResults s.options.ignored s.options.native file e actual).file = file := by
      simp only [compareResults, apply_ite TestResult.file, ite_self]
    rw [testFile, Bench.bind_apply, he]
    dsimp only
    rw [Bench.bind_apply, hstages]
    split <;> exact ⟨hfile _, rfl⟩

/-- Two files of the same content. -/
def sampleState : RunState :=
    { files := .ofList [(["a"], .file "num x;"), (["b"], .file "num x;")] }

/-- Options that leave no time for tests. -/
def sampleSetting : Setting :=
  { options := { optionsOf [] with timeout := 0 }, directory := [], scratch := "" }

/-- Two files of the same content, and one between them that is not there. -/
def sampleBench : Bench where
  files := ["b", "c", "a"]
  skipped := []
  digest file := (sampleState.files.read [] file).map Digest.ofText
  test file d := (testFile sampleSetting [] file d sampleState).1
  nodup := by decide
  file_test file d := (testFile_of_timeout (by decide) ..).1

/-- Two workers come to the results of testing one file after the other. -/
theorem schedules_agree_sample :
    ∃ p, Relation.ReflTransGen sampleBench.Step (sampleBench.start 2) p ∧
    byFile p.results = byFile (testEach sampleSetting [] [] [] ["b", "c", "a"] sampleState).1 := by
  obtain ⟨p, hrun, hended⟩ := (schedules_agree sampleBench 2 .refl).2.1
  refine ⟨p, hrun, ((schedules_agree sampleBench 2 hrun).2.2 hended).2.2 _ _
    {sampleState} ⟨?_, ?_⟩ _ rfl⟩
  · rintro w rfl file -
    rfl
  · rintro w rfl file - d -
    exact ⟨rfl, (testFile_of_timeout (by decide) ..).2⟩

end ThreeAddress.Suite
