import BuildInProgress.ProjectPages

/-!
# Who can see a private project

Two databases that differ only in what a private project says.  The pages of the steps controller ask
`can? :read` first and cannot tell them apart for an outsider; the pages of the project controller
ask at most for a signed-in user.
-/

open Text

namespace Database

/-- A project row without what it says. -/
def redacted (p : Nat) (r : Project) : Project :=
  if r.id = p then { r with title := [], description := none } else r

/-- The databases agree except for the title, description, steps and media of project `p`. -/
structure AgreeExcept (p : Nat) (db db' : Database) : Prop where
  users : db'.users = db.users
  projects : db'.projects.rows.map (redacted p) = db.projects.rows.map (redacted p)
  projectsUsers : db'.projectsUsers = db.projectsUsers
  steps : db'.steps.rows.filter (·.projectId ≠ some p) = db.steps.rows.filter (·.projectId ≠ some p)
  images : db'.images.rows.filter (·.projectId ≠ some p) = db.images.rows.filter (·.projectId ≠ some p)
  videos : db'.videos.rows.filter (·.projectId ≠ some p) = db.videos.rows.filter (·.projectId ≠ some p)
  rest : Touches [.projects, .steps, .images, .videos] db db'

/-- The project exists and is private. -/
def PrivateProject (db : Database) (p : Nat) : Prop := ∃ r, db.projects.find? p = some r ∧ r.isPrivate = true

/-- The viewer is neither an author of the project nor an admin. -/
def Outsider (db : Database) (p : Nat) (viewer : Option User) : Prop :=
  viewer.any (fun u => db.author p u.id) = false ∧ viewer.any User.isAdmin = false

end Database

/-- A request for a page of a project. -/
inductive PageRequest where
  | index
  | «show» (id : Int)
  | embed
  | gallery
  | blog
  | «export»
  | exportTxt
  | checkPrivacy (path : Text)
  deriving DecidableEq, Repr

namespace PageRequest

/-- What the request about project `p` shows. -/
def respond (out : ProjectsController.Outside) (viewer : Option User) (now p : Nat) (db : Database) :
    PageRequest → Response
  | index => (StepsController.index viewer now p db).1
  | «show» id => StepsController.show viewer p id db
  | embed => ProjectsController.embed p db
  | gallery => ProjectsController.gallery p db
  | blog => ProjectsController.blog p db
  | «export» => ProjectsController.export out viewer p db
  | exportTxt => ProjectsController.exportTxt out viewer p db
  | checkPrivacy path => ProjectsController.checkPrivacy viewer path db

/-- The address in the parameters is the one of project `p`. -/
def Addresses (p : Nat) : PageRequest → Prop
  | checkPrivacy path => toNat (ProjectsController.urlProject path) = p
  | _ => True

/-- The page asks for the permission to read, or its viewer has not signed in where one has to. -/
def Guarded (viewer : Option User) : PageRequest → Prop
  | index => True
  | «show» _ => True
  | embed => False
  | gallery => False
  | blog => False
  | «export» => viewer = none
  | exportTxt => viewer = none
  | checkPrivacy _ => viewer = none

end PageRequest

namespace Database

variable {db : Database} {p : Nat} {viewer : Option User}

/-- An outsider is turned away by `authorize! :read`. -/
theorem not_readProject (ho : db.Outsider p viewer) {r : Project} (hfind : db.projects.find? p = some r)
    (hr : r.isPrivate = true) : Ability.readProject db viewer r = false := by
  have hid : r.id = p := (Table.find?_eq_some.mp hfind).2
  rw [Ability.readProject, hid, ho.1, ho.2, hr]
  rfl

theorem index_unauthorized (ho : db.Outsider p viewer) (hp : db.PrivateProject p) (now : Nat) :
    (StepsController.index viewer now p db).1 = .unauthorized := by
  obtain ⟨r, hfind, hr⟩ := hp
  rw [StepsController.index, hfind]
  dsimp only
  rw [not_readProject ho hfind hr]
  rfl

theorem show_unauthorized (ho : db.Outsider p viewer) (hp : db.PrivateProject p) (id : Int) :
    StepsController.show viewer p id db = .unauthorized := by
  obtain ⟨r, hfind, hr⟩ := hp
  rw [StepsController.show, hfind]
  dsimp only
  rw [not_readProject ho hfind hr]
  rfl

/-- A private project that says nothing but `t`, and that nobody has authored. -/
def secret (p : Nat) (hp : 0 < p) (t : Text) : Database :=
  { empty with
    projects := ⟨[⟨p, t, some t, some "private".toList, none, none, none, none, none, 0, 0⟩], p + 1,
      Nat.succ_pos p, List.nodup_singleton p, by simp [Keyed.key, hp]⟩ }

variable (hp : 0 < p)

theorem find?_secret (t : Text) :
    (secret p hp t).projects.find? p =
      some ⟨p, t, some t, some "private".toList, none, none, none, none, none, 0, 0⟩ :=
  Table.find?_eq_some.mpr ⟨List.mem_singleton.mpr rfl, rfl⟩

theorem agreeExcept_secret (t t' : Text) : AgreeExcept p (secret p hp t) (secret p hp t') where
  users := rfl
  projects := by
    change [_].map (redacted p) = [_].map (redacted p)
    simp [redacted]
  projectsUsers := rfl
  steps := rfl
  images := rfl
  videos := rfl
  rest := by
    intro t ht
    cases t <;> first | rfl | exact absurd (by decide) ht

theorem outsider_secret (hadmin : viewer.any User.isAdmin = false) (t : Text) :
    (secret p hp t).Outsider p viewer := by
  refine ⟨?_, hadmin⟩
  cases viewer with
  | none => rfl
  | some u => rfl

theorem private_secret (t : Text) : (secret p hp t).PrivateProject p := ⟨_, find?_secret hp t, rfl⟩

end Database

namespace PageRequest

open Database

/-- The export of a project whose title is no path is an archive. -/
theorem export_secret (out : ProjectsController.Outside) (u : User) {p : Nat} (hp : 0 < p) {t : Text} (h : '/' ∉ t) :
    ∃ entries, ProjectsController.export out (some u) p (secret p hp t) =
      .archive (toS p ++ '-' :: t.filter (· ≠ ' ') ++ ".zip".toList) entries := by
  have hname : out.storage.creates (toS p ++ '-' :: t.filter (· ≠ ' ') ++ ".zip".toList) = true := by
    have hslash : '/' ∉ toS p ++ '-' :: t.filter (· ≠ ' ') ++ ".zip".toList := by
      rw [List.mem_append, List.mem_append, List.mem_cons, List.mem_filter]
      rintro ((hdigit | hdash | htitle) | hzip)
      · exact slash_notMem_toS p hdigit
      · exact absurd hdash (by decide)
      · exact h htitle.1
      · exact absurd hzip (by decide)
    show (!List.contains _ '/') = true
    rw [List.contains_eq_mem, decide_eq_false hslash]
    rfl
  rw [ProjectsController.export, find?_secret hp t]
  refine ⟨[("project_description.txt".toList, t)], ?_⟩
  dsimp only
  rw [ProjectsController.exportSteps, ProjectsController.archiveName, if_pos hname]
  rfl

/-- A page without a guard repeats what the project says. -/
theorem respond_secret_ne {out : ProjectsController.Outside} {viewer : Option User} {p : Nat} (hp : 0 < p)
    {r : PageRequest} (hr : r.Addresses p) (hguard : ¬ r.Guarded viewer)
    {t t' : Text} (hne : t.filter (· ≠ ' ') ≠ t'.filter (· ≠ ' ')) (hslash : '/' ∉ t) (hslash' : '/' ∉ t')
    (hout : out.sanitize t ≠ out.sanitize t') (now : Nat) :
    r.respond out viewer now p (secret p hp t) ≠ r.respond out viewer now p (secret p hp t') := by
  have htitle : t ≠ t' := fun h => hne (h ▸ rfl)
  have hfind := find?_secret hp t
  have hfind' := find?_secret hp t'
  -- two projects that differ in their text show different pages
  cases r with
  | index => exact absurd trivial hguard
  | «show» id => exact absurd trivial hguard
  | embed =>
    rw [respond, respond, ProjectsController.embed, ProjectsController.embed, hfind, hfind']
    intro h
    exact htitle (Response.embed.inj h).1
  | gallery =>
    rw [respond, respond, ProjectsController.gallery, ProjectsController.gallery, hfind, hfind']
    intro h
    exact htitle (Response.gallery.inj h).1
  | blog =>
    rw [respond, respond, ProjectsController.blog, ProjectsController.blog, hfind, hfind']
    intro h
    exact htitle (Response.blog.inj h).1
  | «export» =>
    cases viewer with
    | none => exact absurd rfl hguard
    | some u =>
      obtain ⟨entries, heq⟩ := export_secret out u hp hslash
      obtain ⟨entries', heq'⟩ := export_secret out u hp hslash'
      rw [respond, respond, heq, heq']
      intro h
      have hname := (Response.archive.inj h).1
      simp only [List.append_assoc, List.append_cancel_left_eq, List.cons_append, List.cons.injEq,
        true_and, List.append_cancel_right_eq] at hname
      exact hne hname
  | exportTxt =>
    cases viewer with
    | none => exact absurd rfl hguard
    | some u =>
      rw [respond, respond, ProjectsController.exportTxt, ProjectsController.exportTxt, hfind, hfind']
      intro h
      exact hout (List.append_cancel_right (Response.text.inj h))
  | checkPrivacy path =>
    cases viewer with
    | none => exact absurd rfl hguard
    | some u =>
      have haddr : toNat (ProjectsController.urlProject path) = p := hr
      have hempty : (ProjectsController.urlProject path).isEmpty = false := by
        rw [List.isEmpty_eq_false_iff]
        intro hnil
        rw [hnil, show toNat [] = 0 by decide] at haddr
        omega
      rw [respond, respond, ProjectsController.checkPrivacy, ProjectsController.checkPrivacy, haddr, hfind,
        hfind', hempty]
      intro h
      exact htitle (Option.some.inj (Response.json.inj h).1)

end PageRequest

/-- For a viewer who is no admin, a request shows the same for every two databases that differ in a
private project of others exactly if it is guarded. -/
theorem private_pages_confidential_iff (out : ProjectsController.Outside)
    (hout : ∀ t : Text, (∀ c ∈ t, c.isAlpha = true) → out.sanitize t = t) (viewer : Option User)
    (hadmin : viewer.any User.isAdmin = false) (now p : Nat) (hp : 0 < p) (r : PageRequest)
    (hr : r.Addresses p) :
    (∀ db db' : Database, db.AgreeExcept p db' → db.PrivateProject p → db'.PrivateProject p →
      db.Outsider p viewer → db'.Outsider p viewer →
      r.respond out viewer now p db = r.respond out viewer now p db') ↔ r.Guarded viewer := by
  constructor
  · intro h
    by_contra hguard
    -- letters come out of the sanitizer as they go in, so one letter is secret enough
    have hletter : ∀ c : Char, c.isAlpha = true → out.sanitize [c] = [c] := fun c hc =>
      hout [c] (List.forall_mem_singleton.mpr hc)
    have hsan : out.sanitize "a".toList ≠ out.sanitize "b".toList := by
      rw [show "a".toList = ['a'] from rfl, show "b".toList = ['b'] from rfl, hletter _ (by decide),
        hletter _ (by decide)]
      decide
    exact PageRequest.respond_secret_ne hp hr hguard (by decide) (by decide) (by decide) hsan now
      (h _ _ (Database.agreeExcept_secret hp "a".toList "b".toList) (Database.private_secret hp _)
        (Database.private_secret hp _) (Database.outsider_secret hp hadmin _)
        (Database.outsider_secret hp hadmin _))
  · intro hguard db db' _ hpriv hpriv' ho ho'
    cases r with
    | index =>
      rw [PageRequest.respond, PageRequest.respond, Database.index_unauthorized ho hpriv,
        Database.index_unauthorized ho' hpriv']
    | «show» id =>
      rw [PageRequest.respond, PageRequest.respond, Database.show_unauthorized ho hpriv,
        Database.show_unauthorized ho' hpriv']
    | embed => exact hguard.elim
    | gallery => exact hguard.elim
    | blog => exact hguard.elim
    | «export» =>
      rw [show viewer = none from hguard]
      rfl
    | exportTxt =>
      rw [show viewer = none from hguard]
      rfl
    | checkPrivacy path =>
      rw [show viewer = none from hguard]
      rfl

/-- The overview of a private project is the same whatever the project says. -/
theorem private_pages_confidential_bob :
    PageRequest.respond ⟨fun _ => none, id⟩ (some bob) 0 1 (.secret 1 Nat.one_pos "a".toList) .index =
      PageRequest.respond ⟨fun _ => none, id⟩ (some bob) 0 1 (.secret 1 Nat.one_pos "b".toList) .index :=
  (private_pages_confidential_iff ⟨fun _ => none, id⟩ (fun _ _ => rfl) (some bob) (by decide) 0 1
    Nat.one_pos .index trivial).mpr trivial _ _ (Database.agreeExcept_secret Nat.one_pos _ _)
    (Database.private_secret Nat.one_pos _) (Database.private_secret Nat.one_pos _)
    (Database.outsider_secret Nat.one_pos (by decide) _) (Database.outsider_secret Nat.one_pos (by decide) _)

/-- The embedded page shows the title of a private project to anybody. -/
theorem embed_reveals_private_title :
    let db := Database.secret 1 Nat.one_pos "a".toList
    let db' := Database.secret 1 Nat.one_pos "b".toList
    db.AgreeExcept 1 db' ∧ db.PrivateProject 1 ∧ db'.PrivateProject 1 ∧ db.Outsider 1 none ∧
      db'.Outsider 1 none ∧
      PageRequest.respond ⟨fun _ => none, id⟩ none 0 1 db .embed ≠
        PageRequest.respond ⟨fun _ => none, id⟩ none 0 1 db' .embed :=
  ⟨Database.agreeExcept_secret Nat.one_pos _ _, Database.private_secret Nat.one_pos _,
    Database.private_secret Nat.one_pos _, Database.outsider_secret Nat.one_pos rfl _,
    Database.outsider_secret Nat.one_pos rfl _, by decide +kernel⟩
