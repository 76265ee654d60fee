import Mathlib.Data.String.Basic
import BuildInProgress.StepRuns

/-!
# Remixing a project

`Project#remix` copies a project with its steps, renames the ids in the ancestries of the copied
steps, and copies images and videos.  `dup` copies every column of a step except id and timestamps.
A copied step is kept in memory through the loop: what a failed `update_attributes` has assigned
stays assigned, and makes the later updates of the same step fail as well.
-/

open Text Ancestry

namespace Database

/-! ## The copies -/

/-- `step.users.order("username")` -/
def stepUsersByName (db : Database) (s : Nat) : List User :=
  (db.stepUsers s).insertionSort fun a b => a.username ≤ b.username

/-- The record of the new project. -/
def remixProject (project : Project) (now id : Nat) : Project :=
  { project with
    id
    privacy := none
    remixAncestry := some (childAncestry project.remixAncestry project.id)
    built := some false
    featured := none
    createdAt := now
    updatedAt := now
    title := if !includes project.title "Remix".toList && project.title.length < 24 then
      project.title ++ " Remix".toList else project.title }

/-- Save the duplicates of the steps below the new project `q`. -/
def insertCopies (db : Database) (now q : Nat) (ss : List Step) : Database :=
  ss.foldl (fun db s =>
    { db with
      steps := db.steps.insert (fun i =>
        { s with id := i, projectId := some q, createdAt := now, updatedAt := now })
        (fun _ => rfl) }) db

/-- `step_hash`: the steps of both projects in position order, matched by their index. -/
def stepHash (db : Database) (p q i : Nat) : Option Nat :=
  (((db.orderedSteps p).map Step.id).zip ((db.orderedSteps q).map Step.id)).lookup i

/-- The ancestry of a step as an array of ids. -/
def ancestryArray : Option Text → List Nat
  | none => [0]
  | some a => if a.contains '/' then (split '/' a).map toNat else [toNat a]

/-- The array mapped through the hash and joined; an id that is no key leaves an empty text. -/
def remixAncestry (hash : Nat → Option Nat) (ancestry : Option Text) : Text :=
  join '/' ((ancestryArray ancestry).map fun i => (hash i).elim [] toS)

/-- `remix_step.users << user` -/
def addStepUser (s : Nat) (db : Database) (u : User) : Database :=
  { db with edits := db.edits.insert (fun i => ⟨i, some u.id, some s, none, none, none⟩) (fun _ => rfl) }

/-- `remix_step.update_attributes(..)` on the record in memory. -/
def trySave (db : Database) (now : Nat) (s : Step) : Database := (db.saveStep (some now) s).getD db

/-- The record once the mapped ancestry has been assigned. -/
def remapped (hash : Nat → Option Nat) (original s : Step) : Step :=
  { s with ancestry := some (remixAncestry hash original.ancestry) }

/-- The record once the authors have been assigned; a blank ancestry becomes zero. -/
def credited (authors : List Nat) (s : Step) : Step :=
  if blankColumn s.ancestry then
    { s with originalAuthors := some authors, ancestry := some ['0'] }
  else { s with originalAuthors := some authors }

/-- One copied step: ancestry, authors, `last`. -/
def remixStep (now p : Nat) (hash : Nat → Option Nat) (db : Database) (s : Step) : Database :=
  match (db.orderedSteps p).find? (·.position = s.position) with
  | none => db
  | some original =>
    let s := remapped hash original s
    let db := db.trySave now s
    let authors := db.stepUsersByName original.id
    let db := authors.foldl (addStepUser s.id) db
    let s := credited (authors.map User.id) s
    let db := db.trySave now s
    if s.last = some true then db.trySave now { s with last := some false } else db

/-- The rest of the loop body, from the record with its new ancestry on. -/
def settleCopy (db : Database) (now : Nat) (original s : Step) : Database :=
  let db := db.trySave now s
  let authors := db.stepUsersByName original.id
  let db := authors.foldl (addStepUser s.id) db
  let s := credited (authors.map User.id) s
  let db := db.trySave now s
  if s.last = some true then db.trySave now { s with last := some false } else db

/-! ### What the loop reads

`Integer` takes a leading zero for octal, and it raises when the rest is no octal numeral.  `remix` reads
every numeral as a decimal, which is the same for the ancestries that the program writes.
-/

/-- `Integer(text)` of a component of an ancestry: digits, with at most a newline behind them. -/
def integer (t : Text) : Option Nat :=
  match t.rdropWhile isSpace with
  | [] => none
  | c :: cs =>
    if !(c :: cs).all Char.isDigit then none
    else if c = '0' then if cs.all (· < '8') then some (Nat.ofDigitChars 8 cs 0) else none
    else some (Nat.ofDigitChars 10 (c :: cs) 0)

/-- The ids of an ancestry, unless one of them cannot be read. -/
def readIds : Option Text → Option (List Nat)
  | none => some [0]
  | some a => (if a.contains '/' then split '/' a else [a]).mapM integer

/-- `remix_ancestry_array.join('/')` -/
def joinIds (hash : Nat → Option Nat) (ids : List Nat) : Text :=
  join '/' (ids.map fun i => (hash i).elim [] toS)

/-- One copied step; nothing when the loop raises. -/
def readStep (db : Database) (now p : Nat) (hash : Nat → Option Nat) (s : Step) : Option Database :=
  match (db.orderedSteps p).find? (·.position = s.position) with
  | none => none
  | some original =>
    (readIds original.ancestry).map fun ids =>
      db.settleCopy now original { s with ancestry := some (joinIds hash ids) }

/-- The loop over the copied steps, and whether it got to its end. -/
def readSteps (now p : Nat) (hash : Nat → Option Nat) : List Step → Database → Bool × Database
  | [], db => (true, db)
  | s :: ss, db =>
    match db.readStep now p hash s with
    | none => (false, db)
    | some db => readSteps now p hash ss db

/-! ## Images and videos -/

/-- `order("position ASC")`, rows without a position last. -/
def imageBefore (a b : Image) : Bool :=
  match a.position, b.position with
  | some x, some y => x ≤ y
  | none, some _ => false
  | _, none => true

/-- The step of a copied image; a draft or a loose image goes to no step. -/
def copiedStepId (hash : Nat → Option Nat) : Option Int → Option Int
  | none => none
  | some i => if i < 0 then none else (hash i.toNat).map Int.ofNat

/-- One copied image, with its video. -/
def remixImage (q : Nat) (hash : Nat → Option Nat) (db : Database) (m : Image) : Database :=
  let copy (i : Nat) : Image :=
    { m with
      id := i
      stepId := copiedStepId hash m.stepId
      projectId := some q
      originalId := if m.originalId.isSome then m.originalId else some m.id }
  let video := db.videos.rows.find? (·.imageId = some m.id)
  { db with
    images := db.images.insert copy (fun _ => rfl)
    videos := match video with
      | none => db.videos
      | some v => db.videos.insert (fun i =>
          { v with id := i, stepId := copiedStepId hash m.stepId, projectId := some q })
          (fun _ => rfl) }

/-! ## The whole remix -/

/-- The validations of a project that is not saved yet; its steps are validated with it. -/
def remixValid (r : Project) (ss : List Step) : Bool :=
  !blank r.title && r.title.length ≤ 40 && validFormat r.remixAncestry && ss.all Step.validNew

/-- The loop over the copied steps. -/
def remixSteps (now p q : Nat) (db : Database) : Database :=
  (db.orderedSteps q).foldl (remixStep now p (db.stepHash p q)) db

/-- `project.remix(current_user)`: the id of the new project if it could be saved. -/
def remix (u : User) (now p : Nat) (db : Database) : Option Nat × Database :=
  match db.projects.find? p with
  | none => (none, db)
  | some project =>
    let q := db.projects.next
    if !remixValid (remixProject project now q) (db.projectSteps p) then (none, db)
    else
      let images := (db.projectImages p).insertionSort (imageBefore · ·)
      let db :=
        { db with
          projects := db.projects.insert (remixProject project now) (fun _ => rfl)
          projectsUsers := db.projectsUsers ++ [(q, u.id)] }
      let db := db.insertCopies now q (db.projectSteps p)
      let db := db.updateProject (some now) q fun r => { r with description := some [] }
      let hash := db.stepHash p q
      let db := db.remixSteps now p q
      (some q, images.foldl (remixImage q hash) db)

/-- The new project with its copied steps, before the loop over them. -/
def beginRemix (db : Database) (u : User) (now p : Nat) (project : Project) : Database :=
  let q := db.projects.next
  let db :=
    { db with
      projects := db.projects.insert (remixProject project now) (fun _ => rfl)
      projectsUsers := db.projectsUsers ++ [(q, u.id)] }
  let db := db.insertCopies now q (db.projectSteps p)
  db.updateProject (some now) q fun r => { r with description := some [] }

/-- `project.remix(current_user)` with what raises in it. -/
def remixOrRaise (u : User) (now p : Nat) (db : Database) : Outcome × Database :=
  match db.projects.find? p with
  | none => (.notFound, db)
  | some project =>
    let q := db.projects.next
    if !remixValid (remixProject project now q) (db.projectSteps p) then (.invalid, db)
    else
      let images := (db.projectImages p).insertionSort (imageBefore · ·)
      let db := db.beginRemix u now p project
      let hash := db.stepHash p q
      let r := readSteps now p hash (db.orderedSteps q) db
      if r.1 then (.ok, images.foldl (remixImage q hash) r.2) else (.error, r.2)

end Database
