import Mathlib.Algebra.GroupWithZero.Nat
import BuildInProgress.Lib.Interleaving
import BuildInProgress.StepRuns

/-!
# The log of a project

Whenever steps are created, destroyed or reordered, `Project#log` adds an entry with the steps of that moment to
a JSON file in an S3 bucket: it reads the file, appends the entry and writes the whole file back.  Executions
come from delayed jobs and from `ProjectsController#log`, so they can interleave, here at each access to the
bucket or the database.
-/

open Text

/-- A step as the log has it; only a label has the last two fields. -/
structure LogStep where
  id : Nat
  name : Text
  position : Int
  ancestry : Option Text
  label : Option Bool
  labelColor : Option (Option Text)
  deriving DecidableEq, Repr

/-- An element of `data` in the file. -/
structure LogEntry where
  updatedAt : Nat
  title : Text
  wordCount : Nat
  imageCount : Nat
  steps : List LogStep
  deriving DecidableEq, Repr

namespace Database

/-- `Project#word_count` -/
def wordCount (db : Database) (p : Nat) : Nat :=
  ((db.projectSteps p).map fun s => (s.description.map List.length).getD 0).sum

/-- `Project#image_count` -/
def imageCount (db : Database) (p : Nat) : Nat := (db.projectImages p).length

/-- `step_json` -/
def stepJson (s : Step) : LogStep :=
  let isLabel := s.label = some true
  { id := s.id
    name := s.name
    position := s.position
    ancestry := s.ancestry
    label := if isLabel then s.label else none
    labelColor := if isLabel then some s.labelColor else none }

/-- `steps_json` -/
def stepsJson (db : Database) (p : Nat) : List LogStep := (db.orderedSteps p).map stepJson

end Database

/-- The database, the file of the project if there is one, and the databases from which the executions that
have ended took the steps, `none` for one that did not get so far. -/
structure Logged where
  db : Database
  log : Option (List LogEntry)
  ended : List (Option Database)

/-- What comes in: an execution of `log`, or another request that changes the database. -/
inductive LogRequest where
  | log
  | other (db : Database)

/-- Where an execution goes on at its next turn.  `json` is the file it has parsed, `none` for the empty array it
starts with, and `exist` what the second `obj.exists?` said. -/
inductive LogPoint where
  | received (r : LogRequest)
  /-- It has found the project and looks for the file. -/
  | lookUp (project : Project)
  | read (project : Project)
  /-- It looks for the file once more. -/
  | lookAgain (project : Project) (json : Option (List LogEntry))
  | takeSteps (project : Project) (json : Option (List LogEntry)) (exist : Bool)
  | countWords (project : Project) (json : Option (List LogEntry)) (exist : Bool) (taken : Database)
  | countImages (project : Project) (json : Option (List LogEntry)) (exist : Bool) (taken : Database) (words : Nat)
  | write (json : Option (List LogEntry)) (exist : Bool) (taken : Database) (entry : LogEntry)

namespace Logged

/-- `data` of the file. -/
def entries (x : Logged) : List LogEntry := x.log.getD []

def close (x : Logged) (taken : Option Database) : Logged := { x with ended := x.ended ++ [taken] }

/-- `write(project_json.to_json)` at the end of an execution. -/
def put (x : Logged) (entries : List LogEntry) (taken : Database) : Logged :=
  { x with log := some entries }.close (some taken)

end Logged

namespace LogPoint

open Database

/-- `Project#log` for project `p`. -/
def access (p : Nat) (_ : Unit) : LogPoint → Logged → Logged × Option LogPoint
  | received (.other db), x => ({ x with db := db }, none)
  | received .log, x => (x, (x.db.projects.find? p).map lookUp)
  | lookUp project, x => (x, some (if x.log.isSome then read project else lookAgain project none))
  | read project, x =>
    match x.log with
    | none => (x.close none, none)
    | some entries => (x, some (lookAgain project (some entries)))
  | lookAgain project json, x => (x, some (takeSteps project json x.log.isSome))
  | takeSteps project json exist, x => (x, some (countWords project json exist x.db))
  | countWords project json exist taken, x => (x, some (countImages project json exist taken (x.db.wordCount p)))
  | countImages project json exist taken words, x =>
    (x, some (write json exist taken
      ⟨project.updatedAt, project.title, words, x.db.imageCount p, taken.stepsJson p⟩))
  | write _ false taken entry, x => (x.put [entry] taken, none)
  | write (some entries) true taken entry, x => (x.put (entries ++ [entry]) taken, none)
  -- `[]["data"]` raises
  | write none true taken _, x => (x.close (some taken), none)

end LogPoint

/-! ## An execution that is not interrupted -/

namespace Logged

/-- The entry that an execution adds when nothing changes while it runs. -/
def newEntry (x : Logged) (project : Project) : LogEntry :=
  ⟨project.updatedAt, project.title, x.db.wordCount project.id, x.db.imageCount project.id, x.db.stepsJson project.id⟩

end Logged

namespace LogPoint

open Interleaving

theorem alone_log {x : Logged} {p : Nat} {project : Project} (h : x.db.projects.find? p = some project) :
    Alone (access p) () (received .log) x (x.put (x.entries ++ [x.newEntry project]) x.db) := by
  obtain ⟨-, rfl⟩ := Table.find?_eq_some.mp h
  have hproject : x.db.projects.find? project.id = some project := h
  have hfound : access project.id () (received .log) x = (x, some (lookUp project)) := by
    rw [access, hproject]
    rfl
  refine .more hfound ?_
  -- without a log the read is skipped
  cases hlog : x.log with
  | none =>
    have hentries : x.entries = [] := by
      rw [Logged.entries, hlog]
      rfl
    have hlook : access project.id () (lookUp project) x = (x, some (lookAgain project none)) := by
      rw [access, hlog]
      rfl
    have hagain : access project.id () (lookAgain project none) x = (x, some (takeSteps project none false)) := by
      rw [access, hlog]
      rfl
    rw [hentries]
    exact .more hlook (.more hagain (.more rfl (.more rfl (.more rfl (.last rfl)))))
  | some entries =>
    have hentries : x.entries = entries := by
      rw [Logged.entries, hlog]
      rfl
    have hlook : access project.id () (lookUp project) x = (x, some (read project)) := by
      rw [access, hlog]
      rfl
    have hread : access project.id () (read project) x = (x, some (lookAgain project (some entries))) := by
      rw [access, hlog]
    have hagain : access project.id () (lookAgain project (some entries)) x =
        (x, some (takeSteps project (some entries) true)) := by
      rw [access, hlog]
      rfl
    rw [hentries]
    exact .more hlook (.more hread (.more hagain (.more rfl (.more rfl (.more rfl (.last rfl))))))

/-! ## What executions know of the file -/

/-- What an execution has found in the bucket, `none` if its two looks at it disagree. -/
def found : Option (List LogEntry) → Bool → Option (Option (List LogEntry))
  | _, false => some none
  | some entries, true => some (some entries)
  | none, true => none

/-- What an execution relies on when it comes to write. -/
def seen : LogPoint → Option (Option (List LogEntry))
  | lookAgain _ json => json.map some
  | takeSteps _ json exist => found json exist
  | countWords _ json exist _ => found json exist
  | countImages _ json exist _ _ => found json exist
  | write json exist _ _ => found json exist
  | _ => none

theorem access_write {json log : Option (List LogEntry)} {exist : Bool} (h : found json exist = some log) (p : Nat)
    (taken : Database) (entry : LogEntry) (x : Logged) :
    access p () (write json exist taken entry) x = (x.put (log.getD [] ++ [entry]) taken, none) := by
  cases exist with
  | false =>
    cases h
    rfl
  | true =>
    cases json with
    | none => cases h
    | some entries =>
      cases h
      rfl

theorem access_write_none {json : Option (List LogEntry)} {exist : Bool} (h : found json exist = none) (p : Nat)
    (taken : Database) (entry : LogEntry) (x : Logged) :
    access p () (write json exist taken entry) x = (x.close (some taken), none) := by
  cases exist with
  | false => cases h
  | true =>
    cases json with
    | none => rfl
    | some entries => cases h

end LogPoint

namespace Logged

/-- Executions have ended since, or the file is the same. -/
structure Later (x y : Logged) : Prop where
  ended : x.ended.length ≤ y.ended.length
  log : y.log = x.log ∨ (x.ended.length < y.ended.length ∧ y.log.isSome = true)

/-- No more entries have been added than executions have ended. -/
def Bounded (before : List LogEntry) (x : Logged) : Prop :=
  x.entries.length ≤ before.length + x.ended.length

theorem Later.of_eq {x y : Logged} (hlog : y.log = x.log) (hended : y.ended = x.ended) : x.Later y :=
  ⟨by rw [hended], Or.inl hlog⟩

theorem later_close (x : Logged) (taken : Option Database) : x.Later (x.close taken) :=
  ⟨by rw [close, List.length_append]; exact Nat.le_add_right _ _, Or.inl rfl⟩

theorem later_put (x : Logged) (entries : List LogEntry) (taken : Database) : x.Later (x.put entries taken) := by
  have hended : x.ended.length < (x.put entries taken).ended.length := by
    rw [put, close, List.length_append]
    exact Nat.lt_succ_self _
  exact ⟨Nat.le_of_lt hended, Or.inr ⟨hended, rfl⟩⟩

end Logged

namespace LogPoint

open Interleaving

variable {p : Nat} {before : List LogEntry}

/-- The file is what the execution has found, or has had too many entries added for it to be. -/
def Knows (p : Nat) (before : List LogEntry) (r : LogPoint) (x : Logged) : Prop :=
  (∀ log ∈ r.seen, x.log = log ∨ (log.getD []).length < before.length + x.ended.length) ∧
    match r with
    | read _ => x.log.isSome = true
    | write _ _ taken entry => entry.steps = taken.stepsJson p
    | _ => True

theorem Knows.later {r : LogPoint} {x y : Logged} (h : r.Knows p before x) (hbounded : x.Bounded before)
    (hlater : x.Later y) : r.Knows p before y := by
  refine ⟨fun log hlog => ?_, ?_⟩
  · rcases h.1 log hlog with hsame | hfew
    · rcases hlater.log with heq | ⟨hmore, -⟩
      · exact Or.inl (heq.trans hsame)
      · refine Or.inr (Nat.lt_of_le_of_lt ?_ (Nat.add_lt_add_left hmore _))
        rw [← hsame]
        exact hbounded
    · exact Or.inr (Nat.lt_of_lt_of_le hfew (Nat.add_le_add_left hlater.ended _))
  · cases r with
    | read project =>
      rcases hlater.log with heq | ⟨-, hsome⟩
      · exact heq.symm ▸ h.2
      · exact hsome
    | write json exist taken entry => exact h.2
    | _ => trivial

theorem access_later (r : LogPoint) (x : Logged) : x.Later (access p () r x).1 := by
  cases r with
  | received r =>
    cases r with
    | log => exact .of_eq rfl rfl
    | other db => exact .of_eq rfl rfl
  | read project =>
    rw [access]
    split
    · exact Logged.later_close x _
    · exact .of_eq rfl rfl
  | write json exist taken entry =>
    cases hfound : found json exist with
    | none =>
      rw [access_write_none hfound]
      exact Logged.later_close x _
    | some log =>
      rw [access_write hfound]
      exact Logged.later_put x _ _
  | _ => exact .of_eq rfl rfl

/-- What an execution finds is what it then knows. -/
theorem knows_found (x : Logged) (json : Option (List LogEntry)) (h : ∀ log, json = some log →
    x.log = some log ∨ log.length < before.length + x.ended.length) :
    ∀ log ∈ found json x.log.isSome, x.log = log ∨ (log.getD []).length < before.length + x.ended.length := by
  intro log hlog
  cases hnow : x.log with
  | none =>
    rw [hnow] at hlog
    cases hlog
    exact Or.inl rfl
  | some entries =>
    rw [hnow] at hlog
    cases json with
    | none => cases hlog
    | some read =>
      cases hlog
      rw [← hnow]
      exact h read rfl

theorem keeps_knows (p : Nat) (before : List LogEntry) :
    Keeps LogPoint.received (access p) (Logged.Bounded before) (Knows p before) := by
  constructor
  · intro r x _
    exact ⟨fun _ hlog => (nomatch hlog), trivial⟩
  · intro _ r x hbounded hknows
    -- only the write makes the log longer
    cases r with
    | received r =>
      cases r with
      | log => exact hbounded
      | other db => exact hbounded
    | read project =>
      rw [access]
      split
      · exact Nat.le_trans hbounded (Nat.add_le_add_left (Logged.later_close x none).ended _)
      · exact hbounded
    | write json exist taken entry =>
      cases hfound : found json exist with
      | none =>
        rw [access_write_none hfound]
        exact Nat.le_trans hbounded (Nat.add_le_add_left (Logged.later_close x _).ended _)
      | some log =>
        rw [access_write hfound]
        have hlen : (log.getD []).length ≤ before.length + x.ended.length := by
          rcases hknows.1 log hfound with hsame | hfew
          · rw [← hsame]
            exact hbounded
          · exact Nat.le_of_lt hfew
        show (log.getD [] ++ [entry]).length ≤ before.length + (x.ended ++ [some taken]).length
        rw [List.length_append, List.length_append]
        exact Nat.add_le_add_right hlen 1
    | _ => exact hbounded
  · intro _ r x hbounded hknows q hq
    cases r with
    | received r =>
      cases r with
      | log =>
        obtain ⟨project, -, rfl⟩ := Option.map_eq_some_iff.mp hq
        exact ⟨fun _ hlog => (nomatch hlog), trivial⟩
      | other db => cases hq
    | lookUp project =>
      rw [access] at hq ⊢
      cases hlog : x.log with
      | none =>
        rw [hlog] at hq
        cases hq
        exact ⟨fun _ hseen => (nomatch hseen), trivial⟩
      | some entries =>
        rw [hlog] at hq
        cases hq
        exact ⟨fun _ hseen => (nomatch hseen), congrArg Option.isSome hlog⟩
    | read project =>
      rw [access] at hq ⊢
      cases hlog : x.log with
      | none =>
        rw [hlog] at hq
        cases hq
      | some entries =>
        rw [hlog] at hq
        cases hq
        refine ⟨fun log hseen => ?_, trivial⟩
        cases hseen
        exact Or.inl hlog
    | lookAgain project json =>
      cases hq
      refine ⟨knows_found x json fun entries hjson => ?_, trivial⟩
      cases hjson
      exact hknows.1 (some entries) rfl
    | takeSteps project json exist =>
      cases hq
      exact ⟨hknows.1, trivial⟩
    | countWords project json exist taken =>
      cases hq
      exact ⟨hknows.1, trivial⟩
    | countImages project json exist taken words =>
      cases hq
      exact ⟨hknows.1, rfl⟩
    | write json exist taken entry =>
      cases hfound : found json exist with
      | none =>
        rw [access_write_none hfound] at hq
        cases hq
      | some log =>
        rw [access_write hfound] at hq
        cases hq
  · intro _ r x hbounded _ q hq
    exact hq.later hbounded (access_later r x)

end LogPoint

/-! ## The file is only appended to -/

namespace Logged

variable {p : Nat} {before : List LogEntry} {x : Logged}

/-- The file starts with the entries it had before.  The others are one for each execution that has ended, with
the steps in order of position as they were when that execution took them. -/
def LogKept (p : Nat) (before : List LogEntry) (x : Logged) : Prop :=
  before <+: x.entries ∧ ((x.entries.drop before.length).map fun e => some e.steps).Perm
    (x.ended.map (Option.map fun db => db.stepsJson p))

instance (p : Nat) (before : List LogEntry) (x : Logged) : Decidable (x.LogKept p before) :=
  inferInstanceAs (Decidable (_ ∧ _))

theorem logKept_iff : x.LogKept p before ↔ ∃ added, x.entries = before ++ added ∧
    (added.map fun e => some e.steps).Perm (x.ended.map (Option.map fun db => db.stepsJson p)) := by
  constructor
  · rintro ⟨⟨added, hadded⟩, hperm⟩
    rw [← hadded, List.drop_left] at hperm
    exact ⟨added, hadded.symm, hperm⟩
  · rintro ⟨added, hadded, hperm⟩
    refine ⟨⟨added, hadded.symm⟩, ?_⟩
    rw [hadded, List.drop_left]
    exact hperm

theorem LogKept.length (h : x.LogKept p before) : x.entries.length = before.length + x.ended.length := by
  obtain ⟨added, hadded, hperm⟩ := logKept_iff.mp h
  have hlen := hperm.length_eq
  rw [List.length_map, List.length_map] at hlen
  rw [hadded, List.length_append, hlen]

theorem LogKept.congr {y : Logged} (hlog : y.log = x.log) (hended : y.ended = x.ended) :
    y.LogKept p before ↔ x.LogKept p before := by
  rw [LogKept, LogKept, entries, hlog, hended, entries]

/-- An execution that appends its entry to the file of this moment keeps the log. -/
theorem LogKept.put (h : x.LogKept p before) {taken : Database} {entry : LogEntry}
    (hentry : entry.steps = taken.stepsJson p) : (x.put (x.entries ++ [entry]) taken).LogKept p before := by
  obtain ⟨added, hadded, hperm⟩ := logKept_iff.mp h
  refine logKept_iff.mpr ⟨added ++ [entry], ?_, ?_⟩
  · show x.entries ++ [entry] = before ++ (added ++ [entry])
    rw [hadded, List.append_assoc]
  · show List.Perm _ ((x.ended ++ [some taken]).map _)
    rw [List.map_append, List.map_append, List.map_singleton, List.map_singleton, hentry]
    exact hperm.append_right _

/-- One that ends without an entry does not. -/
theorem LogKept.not_close (h : x.LogKept p before) (taken : Option Database) : ¬ (x.close taken).LogKept p before := by
  intro hclose
  have hlen : x.entries.length = before.length + (x.ended ++ [taken]).length := hclose.length
  rw [h.length, List.length_append] at hlen
  exact absurd hlen (Nat.ne_of_lt (Nat.add_lt_add_left (Nat.lt_succ_self _) _))

end Logged

namespace LogPoint

variable {p : Nat} {before : List LogEntry}

/-- When an execution writes, its two looks for the file agree and the file is still what it has found. -/
def Undisturbed (r : LogPoint) (x : Logged) : Prop :=
  match r with
  | write json exist _ _ => found json exist = some x.log
  | _ => True

instance (r : LogPoint) (x : Logged) : Decidable (r.Undisturbed x) := by
  unfold Undisturbed
  split <;> infer_instance

theorem undisturbed_iff {r : LogPoint} {x : Logged} (hknows : r.Knows p before x) (h : x.LogKept p before) :
    r.Undisturbed x ↔ (access p () r x).1.LogKept p before := by
  cases r with
  | received r =>
    refine iff_of_true trivial ?_
    cases r with
    | log => exact h
    | other db => exact (Logged.LogKept.congr rfl rfl).mpr h
  | read project =>
    obtain ⟨entries, hlog⟩ := Option.isSome_iff_exists.mp hknows.2
    refine iff_of_true trivial ?_
    rw [access, hlog]
    exact h
  | write json exist taken entry =>
    rw [Undisturbed]
    cases hfound : found json exist with
    | none =>
      rw [access_write_none hfound]
      exact iff_of_false (fun hsame => by cases hsame) (h.not_close _)
    | some log =>
      rw [access_write hfound, Option.some.injEq]
      constructor
      · intro hsame
        rw [hsame]
        exact h.put hknows.2
      · intro hkept
        rcases hknows.1 log hfound with hsame | hfew
        · exact hsame.symm
        · -- entries that were added in between are overwritten
          have hlen : (log.getD [] ++ [entry]).length = before.length + (x.ended ++ [some taken]).length := hkept.length
          rw [List.length_append, List.length_append] at hlen
          exact absurd (Nat.add_right_cancel hlen) (Nat.ne_of_lt hfew)
  | _ => exact iff_of_true trivial h

end LogPoint

/-- However the executions interleave with each other and with changes to the database, the log has at every
moment been only appended to, one entry for each execution that has ended, exactly when no execution
writes after another has since it looked for the file and read it. -/
theorem log_kept_iff (p : Nat) (db : Database) (log : Option (List LogEntry))
    (es : List (Interleaving.Event LogRequest Unit)) :
    (∀ n, (Run.after (Interleaving.step LogPoint.received (LogPoint.access p)) ⟨⟨db, log, []⟩, []⟩
        (es.take n)).shared.LogKept p (log.getD [])) ↔
      Run.Along (Interleaving.step LogPoint.received (LogPoint.access p))
        (fun s (e : Interleaving.Event LogRequest Unit) =>
          Interleaving.Admits (fun _ (r : LogPoint) x => r.Undisturbed x) s e) ⟨⟨db, log, []⟩, []⟩ es := by
  have hstart : Logged.LogKept p (log.getD []) ⟨db, log, []⟩ :=
    Logged.logKept_iff.mpr ⟨[], (List.append_nil _).symm, List.Perm.nil⟩
  have hbounded : Logged.Bounded (log.getD []) ⟨db, log, []⟩ := hstart.length.le
  exact (LogPoint.keeps_knows p (log.getD [])).forall_take_iff
    (fun _ _ _ _ hknows h => LogPoint.undisturbed_iff hknows h) ⟨hbounded, fun _ hp => by cases hp⟩ hstart es

/-- Two executions on an empty project, which take turns as `ks` says. -/
def twoLogs (log : Option (List LogEntry)) (ks : List Nat) : Logged :=
  (Run.after (Interleaving.step LogPoint.received (LogPoint.access 1)) ⟨⟨.oneProject "Lamp".toList none, log, []⟩, []⟩
    ([.arrive .log, .arrive .log] ++ ks.map fun k => .turn k ())).shared

/-- Two executions that find no file; two that append to one; one that finds a file only at its second look. -/
theorem log_overwritten :
    let kept : LogEntry := ⟨0, [], 0, 0, []⟩
    ¬ (twoLogs none [0, 1, 0, 1, 0, 1, 0, 1, 0, 1, 0, 1, 0, 0]).LogKept 1 [] ∧
      (twoLogs none [0, 1, 0, 1, 0, 1, 0, 1, 0, 1, 0, 1, 0, 0]).ended.length = 2 ∧
      ¬ (twoLogs (some [kept]) [0, 0, 0, 1, 1, 1, 1, 1, 1, 1, 1, 0, 0, 0, 0, 0]).LogKept 1 [kept] ∧
      (twoLogs (some [kept]) [0, 0, 0, 1, 1, 1, 1, 1, 1, 1, 1, 0, 0, 0, 0, 0]).ended.length = 2 ∧
      ¬ (twoLogs none [0, 0, 1, 1, 1, 1, 1, 1, 1, 0, 0, 0, 0, 0]).LogKept 1 [] ∧
      (twoLogs none [0, 0, 1, 1, 1, 1, 1, 1, 1, 0, 0, 0, 0, 0]).ended.length = 2 := by
  decide +kernel
