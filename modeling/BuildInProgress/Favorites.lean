import BuildInProgress.Frame
import BuildInProgress.Lib.Run
import BuildInProgress.Lib.Tally

/-!
# Favorites

`ProjectsController#favorite` adds and removes the current user's favorite of a project, and tells the
authors.  The row is only added when there is none, but the activities are created in any case, about
whatever favorite of the project is the last one.
-/

open Text

namespace ProjectsController

open Database

/-- `current_user.favorites.include?(@project)` -/
def isFavorite (db : Database) (u p : Nat) : Bool :=
  db.favoriteProjects.rows.any fun f => f.userId = u ∧ f.projectId = p

/-- `@project.favorite_projects.last`, the favorite with the greatest id. -/
def lastFavorite (db : Database) (p : Nat) : Option Nat :=
  ((db.favoriteProjects.rows.filter (·.projectId = p)).map FavoriteProject.id).max?

/-- `current_user.favorites << @project` -/
def addFavorite (db : Database) (u p : Nat) : Database :=
  { db with favoriteProjects := db.favoriteProjects.insert (fun id => ⟨id, p, u⟩) (fun _ => rfl) }

/-- `current_user.favorites.delete(@project)`, which deletes the rows of the join table. -/
def deleteFavorite (db : Database) (u p : Nat) : Database :=
  { db with favoriteProjects := db.favoriteProjects.filter fun f => !(f.userId == u && f.projectId == p) }

/-- One activity for each author.  Without a favorite there is nothing to create it on. -/
def announceFavorite (u p : Nat) : List User → Database → Bool × Database
  | [], db => (true, db)
  | r :: rs, db =>
    match lastFavorite db p with
    | none => (false, db) -- `nil.create_activity`
    | some f =>
      announceFavorite u p rs
        (db.createActivity .favoriteProject f "favorite_project.create".toList (some u) (some r.id))

/-- The action up to `redirect_to :back`. -/
def favoriteOrNot (u : User) (i : Nat) (type : Option Text) (db : Database) : Outcome × Database :=
  if type = some "favorite".toList then
    let db := if isFavorite db u.id i then db else addFavorite db u.id i
    let r := announceFavorite u.id i (db.projectUsers i) db
    (if r.1 then .ok else .error, r.2)
  else if type = some "unfavorite".toList then
    match favoriteOf db u.id i with
    | none => (.error, db) -- `nil.id`
    | some f => (.ok, deleteFavorite (db.destroyActivitiesOf .favoriteProject f.id) u.id i)
  else (.ok, db)

/-- `PUT /projects/:id/favorite`.  A request without a referer cannot be sent back. -/
def favorite (u : User) (i : Nat) (type : Option Text) (referer : Bool) (db : Database) : Outcome × Database :=
  match db.projects.find? i with
  | none => (.notFound, db)
  | some _ =>
    -- without a referer the redirect fails, after everything is written
    let r := favoriteOrNot u i type db
    if r.1 = .ok ∧ referer = false then (.error, r.2) else r

end ProjectsController

/-! ## The protocol -/

inductive FavoriteType where
  | favorite | unfavorite
  deriving DecidableEq, Repr

/-- `params[:type]` -/
def FavoriteType.param : FavoriteType → Text
  | favorite => "favorite".toList
  | unfavorite => "unfavorite".toList

structure FavoriteRequest where
  user : User
  type : FavoriteType
  referer : Bool

/-- The database, with the last request of each user and whether a request has raised. -/
structure Favored where
  db : Database
  last : Nat → Option FavoriteType
  raised : Bool

namespace Favored

open Database ProjectsController

def handle (p : Nat) (w : Favored) (r : FavoriteRequest) : Favored where
  db := (favorite r.user p (some r.type.param) r.referer w.db).2
  last u := if u = r.user.id then some r.type else w.last u
  raised := w.raised || (favorite r.user p (some r.type.param) r.referer w.db).1 != .ok

/-- Whose favorite of the project a row is. -/
def fan (p : Nat) (f : FavoriteProject) : Option Nat := if f.projectId = p then some f.userId else none

/-- The activity says that a favorite was created, and not a favorite of another project. -/
def tells (db : Database) (p : Nat) (a : Activity) : Bool :=
  a.trackableType == some .favoriteProject && a.key == "favorite_project.create".toList &&
    db.favoriteProjects.rows.all fun f => f.projectId == p || a.trackableId != some f.id

/-- What such an activity says: the favorite, the owner and the recipient. -/
def told (db : Database) (p : Nat) (a : Activity) : Option (Option Nat × Option Nat × Option Nat) :=
  if tells db p a then some (a.trackableId, a.ownerId, a.recipientId) else none

/-- What there is to tell: each favorite, with its user, to each author. -/
def ToTell (db : Database) (p : Nat) (k : Option Nat × Option Nat × Option Nat) : Prop :=
  ∃ f ∈ db.favoriteProjects.rows, f.projectId = p ∧
    ∃ r ∈ db.projectUsers p, k = (some f.id, some f.userId, some r.id)

/-- No request has raised, the favorites are those of the last requests, and each was told once. -/
structure Settled (p : Nat) (w : Favored) : Prop where
  raised : w.raised = false
  favorites : Tally.Exact (fan p) (fun u => w.last u = some .favorite) w.db.favoriteProjects.rows
  activities : Tally.Exact (told w.db p) (ToTell w.db p) w.db.activities.rows

/-- The request changes what the user's last request has said: a favorite is not repeated while there
are authors to tell, and only a favorite is taken back.  It has a referer, and no author is listed twice. -/
def Proper (p : Nat) (w : Favored) (r : FavoriteRequest) : Prop :=
  r.referer = true ∧
    match r.type with
    | .favorite => w.db.projectUsers p = [] ∨
        w.last r.user.id ≠ some .favorite ∧ ((w.db.projectUsers p).map User.id).Nodup
    | .unfavorite => w.last r.user.id = some .favorite

end Favored

/-! ## What a request writes -/

namespace ProjectsController

open Database

theorem touches_announceFavorite (u p : Nat) (rs : List User) (db : Database) :
    Touches [.activities] db (announceFavorite u p rs db).2 := by
  induction rs generalizing db with
  | nil => exact .refl _ db
  | cons r rs ih =>
    rw [announceFavorite]
    cases lastFavorite db p with
    | none => exact .refl _ db
    | some f => exact .trans (touches_activities db _) (ih _)

theorem touches_favoriteOrNot (u : User) (i : Nat) (type : Option Text) (db : Database) :
    Touches [.activities, .favoriteProjects] db (favoriteOrNot u i type db).2 := by
  have htable : ∀ (db : Database) (x : Table FavoriteProject),
      Touches [.activities, .favoriteProjects] db { db with favoriteProjects := x } := by
    intro db x t ht
    cases t <;> first | rfl | exact absurd (by decide) ht
  unfold favoriteOrNot
  split
  · refine .trans ?_ ((touches_announceFavorite u.id i _ _).mono (by decide))
    exact .ite (fun _ => .refl _ db) fun _ => htable db _
  · split
    · cases favoriteOf db u.id i with
      | none => exact .refl _ db
      | some f => exact .trans ((touches_activities db _).mono (by decide)) (htable _ _)
    · exact .refl _ db

/-- The activities of one request, row by row. -/
theorem announceFavorite_spec {u p f : Nat} (rs : List User) {db : Database} (hf : lastFavorite db p = some f) :
    (announceFavorite u p rs db).1 = true ∧
      ∃ new, (announceFavorite u p rs db).2.activities.rows = db.activities.rows ++ new ∧
        List.Forall₂ (fun a (r : User) => a.trackableType = some .favoriteProject ∧ a.trackableId = some f ∧
          a.key = "favorite_project.create".toList ∧ a.ownerId = some u ∧ a.recipientId = some r.id) new rs := by
  induction rs generalizing db with
  | nil => exact ⟨rfl, [], (List.append_nil _).symm, .nil⟩
  | cons r rs ih =>
    rw [announceFavorite, hf]
    dsimp only
    let db' := db.createActivity .favoriteProject f "favorite_project.create".toList (some u) (some r.id)
    let told : Activity := ⟨db.activities.next, some .favoriteProject, some f, "favorite_project.create".toList, some u,
      some r.id, some true⟩
    have hlast : lastFavorite db' p = some f := hf
    obtain ⟨hdone, new, hrows, hnew⟩ := ih hlast
    refine ⟨hdone, told :: new, ?_, .cons ⟨rfl, rfl, rfl, rfl, rfl⟩ hnew⟩
    rw [hrows]
    exact List.append_assoc _ [told] new

end ProjectsController

namespace Favored

open Database ProjectsController

variable {p : Nat} {w : Favored}

theorem told_congr {db db' : Database} (h : ∀ f ∈ db'.favoriteProjects.rows, f.projectId ≠ p →
      f ∈ db.favoriteProjects.rows) (h' : ∀ f ∈ db.favoriteProjects.rows, f.projectId ≠ p →
      f ∈ db'.favoriteProjects.rows) : told db' p = told db p := by
  funext a
  have hall : (db'.favoriteProjects.rows.all fun f => f.projectId == p || a.trackableId != some f.id) =
      db.favoriteProjects.rows.all fun f => f.projectId == p || a.trackableId != some f.id := by
    rw [Bool.eq_iff_iff, List.all_eq_true, List.all_eq_true]
    constructor
    · intro hall f hf
      by_cases hp : f.projectId = p
      · simp [hp]
      · exact hall f (h' f hf hp)
    · intro hall f hf
      by_cases hp : f.projectId = p
      · simp [hp]
      · exact hall f (h f hf hp)
  rw [told, told, tells, tells, hall]

/-- The activities of one request tell each author once. -/
theorem told_new {db : Database} {f u : Nat} {new : List Activity} {rs : List User}
    (hf : ∀ g ∈ db.favoriteProjects.rows, g.id = f → g.projectId = p)
    (hnew : List.Forall₂ (fun a (r : User) => a.trackableType = some .favoriteProject ∧ a.trackableId = some f ∧
      a.key = "favorite_project.create".toList ∧ a.ownerId = some u ∧ a.recipientId = some r.id) new rs) :
    new.filterMap (told db p) = rs.map fun r => (some f, some u, some r.id) := by
  induction hnew with
  | nil => rfl
  | @cons a r new rs ha _ ih =>
    obtain ⟨htype, hid, hkey, howner, hrecipient⟩ := ha
    have hown : (db.favoriteProjects.rows.all fun g => g.projectId == p || a.trackableId != some g.id) = true := by
      rw [List.all_eq_true]
      intro g hg
      by_cases hgf : g.id = f
      · simp [hf g hg hgf]
      · simp [hid, Ne.symm hgf]
    have htells : tells db p a = true := by
      rw [tells, htype, hkey, hown, beq_self_eq_true, beq_self_eq_true, Bool.and_self, Bool.and_self]
    rw [List.filterMap_cons, told, if_pos htells, hid, howner, hrecipient, List.map_cons, ih]

/-! ## One request -/

theorem mem_fans {db : Database} {u : Nat} :
    u ∈ db.favoriteProjects.rows.filterMap (fan p) ↔ isFavorite db u p = true := by
  rw [List.mem_filterMap, isFavorite, List.any_eq_true]
  apply exists_congr
  intro f
  apply and_congr_right
  intro _
  rw [fan, decide_eq_true_eq]
  by_cases hp : f.projectId = p
  · rw [if_pos hp, Option.some.injEq, and_iff_left hp]
  · rw [if_neg hp]
    exact iff_of_false (fun h => by cases h) fun h => hp h.2

/-- The last favorite is a favorite of the project. -/
theorem lastFavorite_spec {db : Database} {f : Nat} (hf : lastFavorite db p = some f) :
    ∃ g ∈ db.favoriteProjects.rows, g.id = f ∧ g.projectId = p := by
  obtain ⟨g, hg, hid⟩ := List.mem_map.mp (List.max?_mem hf)
  have hrow := List.mem_filter.mp hg
  exact ⟨g, hrow.1, hid, by simpa using hrow.2⟩

theorem exists_lastFavorite {db : Database} {u : Nat} (h : isFavorite db u p = true) :
    ∃ f, lastFavorite db p = some f := by
  obtain ⟨g, hg, hown⟩ := List.any_eq_true.mp h
  rw [decide_eq_true_eq] at hown
  have hmem : g.id ∈ (db.favoriteProjects.rows.filter (·.projectId = p)).map FavoriteProject.id :=
    List.mem_map_of_mem (List.mem_filter.mpr ⟨hg, decide_eq_true hown.2⟩)
  apply Option.isSome_iff_exists.mp
  rw [lastFavorite, List.isSome_max?_iff]
  exact List.ne_nil_of_mem hmem

/-- A new favorite is the last one. -/
theorem lastFavorite_addFavorite (db : Database) (u : Nat) :
    lastFavorite (addFavorite db u p) p = some db.favoriteProjects.next := by
  rw [lastFavorite, addFavorite, Table.rows_insert, List.filter_append, List.map_append, List.max?_eq_some_iff]
  constructor
  · simp
  · intro i hi
    rcases List.mem_append.mp hi with hi | hi
    · obtain ⟨g, hg, rfl⟩ := List.mem_map.mp hi
      exact Nat.le_of_lt (db.favoriteProjects.bound g (List.mem_of_mem_filter hg)).2
    · simp at hi
      omega

theorem favorite_eq {db : Database} (hp : (db.projects.find? p).isSome = true) (u : User) (type : Option Text)
    (referer : Bool) : (favorite u p type referer db).2 = (favoriteOrNot u p type db).2 ∧
      ((favorite u p type referer db).1 = .ok ↔ (favoriteOrNot u p type db).1 = .ok ∧ referer = true) := by
  obtain ⟨project, hproject⟩ := Option.isSome_iff_exists.mp hp
  rw [favorite, hproject]
  dsimp only
  by_cases hback : (favoriteOrNot u p type db).1 = .ok ∧ referer = false
  · rw [if_pos hback]
    refine ⟨rfl, iff_of_false (fun h => by cases h) fun h => ?_⟩
    rw [hback.2] at h
    cases h.2
  · rw [if_neg hback]
    refine ⟨rfl, fun hok => ⟨hok, ?_⟩, fun h => h.1⟩
    cases referer with
    | true => rfl
    | false => exact absurd ⟨hok, rfl⟩ hback

theorem favoriteOrNot_favorite (u : User) (db : Database) :
    favoriteOrNot u p (some FavoriteType.favorite.param) db =
      let r := announceFavorite u.id p (db.projectUsers p) (if isFavorite db u.id p then db else addFavorite db u.id p)
      (if r.1 then .ok else .error, r.2) := by
  have husers : ∀ c : Bool, (if c then db else addFavorite db u.id p).projectUsers p = db.projectUsers p := fun c => by
    cases c with
    | true => rfl
    | false => rfl
  show (if some FavoriteType.favorite.param = some FavoriteType.favorite.param then _ else _) = _
  rw [if_pos rfl]
  dsimp only
  rw [husers]

theorem favoriteOrNot_unfavorite (u : User) (db : Database) :
    favoriteOrNot u p (some FavoriteType.unfavorite.param) db =
      match favoriteOf db u.id p with
      | none => (.error, db)
      | some f => (.ok, deleteFavorite (db.destroyActivitiesOf .favoriteProject f.id) u.id p) := by
  have hother : some FavoriteType.unfavorite.param ≠ some FavoriteType.favorite.param := by decide
  show (if some FavoriteType.unfavorite.param = some FavoriteType.favorite.param then _
    else if some FavoriteType.unfavorite.param = some FavoriteType.unfavorite.param then _ else _) = _
  rw [if_neg hother, if_pos rfl]

theorem settled_handle_iff (hp : (w.db.projects.find? p).isSome = true) (h : w.raised = false) (r : FavoriteRequest) :
    Settled p (handle p w r) ↔ ((favoriteOrNot r.user p (some r.type.param) w.db).1 = .ok ∧ r.referer = true) ∧
      Tally.Exact (fan p) (fun u => (if u = r.user.id then some r.type else w.last u) = some .favorite)
        (favoriteOrNot r.user p (some r.type.param) w.db).2.favoriteProjects.rows ∧
      Tally.Exact (told (favoriteOrNot r.user p (some r.type.param) w.db).2 p)
        (ToTell (favoriteOrNot r.user p (some r.type.param) w.db).2 p)
        (favoriteOrNot r.user p (some r.type.param) w.db).2.activities.rows := by
  obtain ⟨hdb, hok⟩ := favorite_eq hp r.user (some r.type.param) r.referer
  have hraised : (handle p w r).raised = false ↔
      (favoriteOrNot r.user p (some r.type.param) w.db).1 = .ok ∧ r.referer = true := by
    rw [handle, h, Bool.false_or, bne_eq_false_iff_eq]
    exact hok
  rw [← hraised, ← hdb]
  exact ⟨fun hs => ⟨hs.raised, hs.favorites, hs.activities⟩, fun hs => ⟨hs.1, hs.2.1, hs.2.2⟩⟩

theorem Settled.isFavorite_iff (h : Settled p w) (u : Nat) : isFavorite w.db u p = true ↔ w.last u = some .favorite := by
  rw [← mem_fans]
  exact (Tally.exact_iff.mp h.favorites).2 u

theorem fan_eq_some {f : FavoriteProject} {u : Nat} : fan p f = some u ↔ f.projectId = p ∧ f.userId = u := by
  rw [fan]
  by_cases hp : f.projectId = p
  · rw [if_pos hp, Option.some.injEq, and_iff_right hp]
  · rw [if_neg hp]
    exact iff_of_false (fun h => by cases h) fun h => hp h.1

/-- Taking back a favorite that is there settles it, and nothing else does. -/
theorem Settled.unfavorite_iff (h : Settled p w) (hp : (w.db.projects.find? p).isSome = true) (u : User) (referer : Bool) :
    Settled p (handle p w ⟨u, .unfavorite, referer⟩) ↔ referer = true ∧ w.last u.id = some .favorite := by
  have hiff := h.isFavorite_iff u.id
  rw [settled_handle_iff hp h.raised, favoriteOrNot_unfavorite]
  cases hf : favoriteOf w.db u.id p with
  | none =>
    have hno : w.last u.id ≠ some .favorite := by
      intro hlast
      have hall := hiff.mpr hlast
      rw [isFavorite, List.any_eq_true] at hall
      obtain ⟨g, hg, hown⟩ := hall
      exact List.find?_eq_none.mp hf g hg hown
    -- without a favorite there is no id to delete the activities of, and the request raises
    exact iff_of_false (fun hs => by cases hs.1.1) fun hs => hno hs.2
  | some f =>
    have hrow : f ∈ w.db.favoriteProjects.rows := List.mem_of_find?_eq_some hf
    have hown : f.userId = u.id ∧ f.projectId = p := by simpa using List.find?_some hf
    have hlast : w.last u.id = some .favorite := by
      rw [← hiff, isFavorite, List.any_eq_true]
      exact ⟨f, hrow, decide_eq_true hown⟩
    dsimp only
    have hsame : told (deleteFavorite (w.db.destroyActivitiesOf .favoriteProject f.id) u.id p) p = told w.db p := by
      apply told_congr
      · intro g hg _
        exact List.mem_of_mem_filter hg
      · intro g hg hgp
        exact List.mem_filter.mpr ⟨hg, by simp [hgp]⟩
    -- the user has no other favorite of the project
    have honly : ∀ g ∈ w.db.favoriteProjects.rows, g.projectId = p → (g.id = f.id ↔ g.userId = u.id) := by
      intro g hg hgp
      constructor
      · intro hid
        rw [Table.eq_of_key hg hrow hid, hown.1]
      · intro huser
        rw [h.favorites.unique hg hrow (fan_eq_some.mpr ⟨hgp, huser⟩) (fan_eq_some.mpr ⟨hown.2, hown.1⟩)]
    have hfavorites : Tally.Exact (fan p) (fun v => (if v = u.id then some FavoriteType.unfavorite else w.last v) = some .favorite)
        (deleteFavorite (w.db.destroyActivitiesOf .favoriteProject f.id) u.id p).favoriteProjects.rows := by
      refine (h.favorites.filter_iff (G := fun v => v = u.id) fun g _ v hv => ?_).mpr fun v => ?_
      · have hgv := fan_eq_some.mp hv
        rw [hgv.1, hgv.2]
        simp
      · by_cases hv : v = u.id
        · rw [if_pos hv]
          exact iff_of_false (by decide) fun hs => hs.2 hv
        · rw [if_neg hv, and_iff_left hv]
    -- its activities go with the favorite: those whose first component is its id
    have hactivities : Tally.Exact (told w.db p)
        (ToTell (deleteFavorite (w.db.destroyActivitiesOf .favoriteProject f.id) u.id p) p)
        (deleteFavorite (w.db.destroyActivitiesOf .favoriteProject f.id) u.id p).activities.rows := by
      refine (h.activities.filter_iff (G := fun k => k.1 = some f.id) fun a _ k hk => ?_).mpr fun k => ?_
      · rw [told] at hk
        by_cases htells : tells w.db p a = true
        · rw [if_pos htells, Option.some.injEq] at hk
          rw [tells, Bool.and_eq_true, Bool.and_eq_true] at htells
          rw [htells.1.1, Bool.true_and, ← hk, Bool.not_eq_true', beq_eq_false_iff_ne]
        · rw [if_neg htells] at hk
          cases hk
      · constructor
        · intro hk
          obtain ⟨g, hg, hgp, r, hr, rfl⟩ := hk
          have hleft := List.mem_filter.mp hg
          refine ⟨⟨g, hleft.1, hgp, r, hr, rfl⟩, fun hid => ?_⟩
          have huser := (honly g hleft.1 hgp).mp (Option.some.inj hid)
          simp [huser, hgp] at hleft
        · intro hk
          obtain ⟨⟨g, hg, hgp, r, hr, rfl⟩, hne⟩ := hk
          refine ⟨g, List.mem_filter.mpr ⟨hg, ?_⟩, hgp, r, hr, rfl⟩
          have huser : g.userId ≠ u.id := fun huser => hne (congrArg some ((honly g hg hgp).mpr huser))
          simp [huser]
    rw [hsame]
    exact ⟨fun hs => ⟨hs.1.2, hlast⟩, fun hs => ⟨⟨rfl, hs.1⟩, hfavorites, hactivities⟩⟩

/-- What a favorite leaves, with or without a new row: each author is told of the last favorite. -/
theorem favoriteOrNot_spec {u : User} {db db₁ : Database} {f : Nat}
    (hdb₁ : (if isFavorite db u.id p then db else addFavorite db u.id p) = db₁) (hf : lastFavorite db₁ p = some f) :
    (favoriteOrNot u p (some FavoriteType.favorite.param) db).1 = .ok ∧
      Touches [.activities] db₁ (favoriteOrNot u p (some FavoriteType.favorite.param) db).2 ∧
      ∃ new, (favoriteOrNot u p (some FavoriteType.favorite.param) db).2.activities.rows = db.activities.rows ++ new ∧
        new.filterMap (told db₁ p) = (db.projectUsers p).map fun r => (some f, some u.id, some r.id) := by
  obtain ⟨hdone, new, hrows, hnew⟩ := announceFavorite_spec (u := u.id) (db.projectUsers p) hf
  obtain ⟨g, hg, hid, hgp⟩ := lastFavorite_spec hf
  have hkept : db₁.activities = db.activities := by
    rw [← hdb₁]
    split
    · rfl
    · rfl
  rw [favoriteOrNot_favorite, hdb₁]
  dsimp only
  rw [hdone, if_pos rfl]
  refine ⟨rfl, touches_announceFavorite u.id p _ db₁, new, by rw [hrows, hkept], told_new (fun g' hg' hid' => ?_) hnew⟩
  rw [Table.eq_of_key hg' hg (hid'.trans hid.symm), hgp]

/-- A repeated favorite tells the authors again. -/
theorem Settled.repeated_iff (h : Settled p w) (hp : (w.db.projects.find? p).isSome = true) (u : User) (referer : Bool)
    (hlast : w.last u.id = some .favorite) :
    Settled p (handle p w ⟨u, .favorite, referer⟩) ↔ referer = true ∧ w.db.projectUsers p = [] := by
  have hthere : isFavorite w.db u.id p = true := (h.isFavorite_iff u.id).mpr hlast
  obtain ⟨f, hf⟩ := exists_lastFavorite hthere
  obtain ⟨hok, htouch, new, hrows, hnew⟩ := favoriteOrNot_spec (u := u) (if_pos hthere) hf
  rw [settled_handle_iff hp h.raised]
  dsimp only
  generalize favoriteOrNot u p (some FavoriteType.favorite.param) w.db = r at hok htouch hrows
  have hfavorites : r.2.favoriteProjects = w.db.favoriteProjects := htouch .favoriteProjects (by decide)
  have hsame : told r.2 p = told w.db p :=
    told_congr (fun f hf _ => hfavorites ▸ hf) fun f hf _ => by rw [hfavorites]; exact hf
  -- there is nothing more to tell than before, so every new activity is one too many
  have hset : ToTell r.2 p = ToTell w.db p := by
    unfold ToTell projectUsers
    rw [hfavorites, (htouch .users (by decide) : _ = _), (htouch .projectsUsers (by decide) : _ = _)]
  have hfans : Tally.Exact (fan p) (fun v => (if v = u.id then some FavoriteType.favorite else w.last v) = some .favorite)
      w.db.favoriteProjects.rows := by
    refine h.favorites.congr_iff.mpr fun v => ?_
    by_cases hv : v = u.id
    · rw [if_pos hv, hv, hlast]
    · rw [if_neg hv]
  rw [hfavorites, hsame, hset, hrows, and_iff_right hfans, h.activities.append_iff, hnew, and_iff_right hok]
  constructor
  · intro hs
    refine ⟨hs.1, List.eq_nil_iff_forall_not_mem.mpr fun r hr => ?_⟩
    have htold := List.mem_map_of_mem (f := fun r : User => (some f, some u.id, some r.id)) hr
    exact hs.2.2.1 _ htold ((hs.2.2.2 _).mpr (Or.inr htold))
  · intro hs
    rw [hs.2]
    exact ⟨hs.1, List.nodup_nil, (fun k hk => by cases hk), fun k => (or_iff_left List.not_mem_nil).symm⟩

/-- A favorite of the project leaves what is told about the other favorites. -/
theorem told_concat {db db' : Database} {n u : Nat}
    (hfavorites : db'.favoriteProjects.rows = db.favoriteProjects.rows ++ [⟨n, p, u⟩]) : told db' p = told db p := by
  refine told_congr (fun f hf hfp => ?_) fun f hf _ => ?_
  · rw [hfavorites] at hf
    rcases List.mem_append.mp hf with hf | hf
    · exact hf
    · rw [List.mem_singleton] at hf
      exact absurd (by rw [hf]) hfp
  · rw [hfavorites]
    exact List.mem_append_left _ hf

/-- A new favorite is to be told to every author. -/
theorem toTell_concat {db db' : Database} {n u : Nat}
    (hfavorites : db'.favoriteProjects.rows = db.favoriteProjects.rows ++ [⟨n, p, u⟩])
    (husers : db'.projectUsers p = db.projectUsers p) (k : Option Nat × Option Nat × Option Nat) :
    ToTell db' p k ↔ ToTell db p k ∨ k ∈ (db.projectUsers p).map fun r => (some n, some u, some r.id) := by
  unfold ToTell
  rw [hfavorites, husers, List.mem_map]
  constructor
  · intro hk
    obtain ⟨g, hg, hgp, r, hr, hkr⟩ := hk
    rcases List.mem_append.mp hg with hg | hg
    · exact Or.inl ⟨g, hg, hgp, r, hr, hkr⟩
    · rw [List.mem_singleton] at hg
      rw [hg] at hkr
      exact Or.inr ⟨r, hr, hkr.symm⟩
  · intro hk
    rcases hk with ⟨g, hg, hgp, hgr⟩ | ⟨r, hr, hkr⟩
    · exact ⟨g, List.mem_append_left _ hg, hgp, hgr⟩
    · exact ⟨_, List.mem_append_right _ (List.mem_singleton_self _), rfl, r, hr, hkr.symm⟩

/-- No row has the id of the next one yet. -/
theorem not_toTell_next {db : Database} {rs : List User} {u : Nat} {k : Option Nat × Option Nat × Option Nat}
    (hk : k ∈ rs.map fun r => (some db.favoriteProjects.next, some u, some r.id)) : ¬ ToTell db p k := by
  intro htold
  obtain ⟨r, -, hkr⟩ := List.mem_map.mp hk
  obtain ⟨g, hg, -, r', -, hkg⟩ := htold
  have hid : g.id = db.favoriteProjects.next := by
    rw [← hkr, Prod.mk.injEq, Option.some.injEq] at hkg
    exact hkg.1.symm
  exact absurd hid (Nat.ne_of_lt (db.favoriteProjects.bound g hg).2)

theorem nodup_told_iff {n u : Nat} {rs : List User} :
    (rs.map fun r => (some n, some u, some r.id)).Nodup ↔ (rs.map User.id).Nodup := by
  have hmap : (rs.map fun r => (some n, some u, some r.id)) =
      (rs.map User.id).map fun i => (some n, some u, some i) := by
    rw [List.map_map]
    rfl
  rw [hmap]
  refine List.nodup_map_iff fun i j hij => ?_
  rw [Prod.mk.injEq, Prod.mk.injEq] at hij
  exact Option.some.inj hij.2.2

/-- A new favorite is told once to each author that is listed once. -/
theorem Settled.added_iff (h : Settled p w) (hp : (w.db.projects.find? p).isSome = true) (u : User) (referer : Bool)
    (hlast : w.last u.id ≠ some .favorite) :
    Settled p (handle p w ⟨u, .favorite, referer⟩) ↔
      referer = true ∧ ((w.db.projectUsers p).map User.id).Nodup := by
  have hnone : ¬ isFavorite w.db u.id p = true := fun hthere => hlast ((h.isFavorite_iff u.id).mp hthere)
  obtain ⟨hok, htouch, new, hrows, hnew⟩ :=
    favoriteOrNot_spec (u := u) (if_neg hnone) (lastFavorite_addFavorite w.db u.id)
  rw [settled_handle_iff hp h.raised]
  dsimp only
  generalize favoriteOrNot u p (some FavoriteType.favorite.param) w.db = r at hok htouch hrows
  have hfavorites : r.2.favoriteProjects.rows = w.db.favoriteProjects.rows ++ [⟨w.db.favoriteProjects.next, p, u.id⟩] := by
    rw [(htouch .favoriteProjects (by decide) : _ = _)]
    rfl
  -- the activities are created after the row, and read in the state before them
  have hadded : told (addFavorite w.db u.id p) p = told w.db p := told_concat rfl
  have husers : r.2.projectUsers p = w.db.projectUsers p := by
    rw [projectUsers, (htouch .users (by decide) : _ = _), (htouch .projectsUsers (by decide) : _ = _)]
    rfl
  have hfans : Tally.Exact (fan p) (fun v => (if v = u.id then some FavoriteType.favorite else w.last v) = some .favorite)
      r.2.favoriteProjects.rows := by
    have htag : [(⟨w.db.favoriteProjects.next, p, u.id⟩ : FavoriteProject)].filterMap (fan p) = [u.id] := by
      rw [List.filterMap_cons, fan, if_pos rfl, List.filterMap_nil]
    rw [hfavorites, h.favorites.append_iff, htag]
    refine ⟨List.nodup_singleton _, fun k hk => ?_, fun v => ?_⟩
    · rw [List.mem_singleton] at hk
      rw [hk]
      exact hlast
    · rw [List.mem_singleton]
      by_cases hv : v = u.id
      · rw [if_pos hv]
        exact iff_of_true rfl (Or.inr hv)
      · rw [if_neg hv, or_iff_left hv]
  rw [told_concat hfavorites, hrows, h.activities.append_iff, ← hadded, hnew, and_iff_right hok, and_iff_right hfans,
    nodup_told_iff]
  exact and_congr_right fun _ => and_iff_left ⟨fun _ hk => not_toTell_next hk, toTell_concat hfavorites husers⟩

theorem Settled.handle_iff (h : Settled p w) (hp : (w.db.projects.find? p).isSome = true) (r : FavoriteRequest) :
    Settled p (handle p w r) ↔ Proper p w r := by
  obtain ⟨u, type, referer⟩ := r
  cases type with
  | favorite =>
    by_cases hlast : w.last u.id = some .favorite
    · rw [h.repeated_iff hp u referer hlast]
      exact and_congr_right fun _ => (or_iff_left fun hs => hs.1 hlast).symm
    · rw [h.added_iff hp u referer hlast]
      refine and_congr_right fun _ => ⟨fun hn => Or.inr ⟨hlast, hn⟩, fun hs => ?_⟩
      rcases hs with hnone | hs
      · rw [hnone]
        exact List.nodup_nil
      · exact hs.2
  | unfavorite => exact h.unfavorite_iff hp u referer

/-! ## Runs -/

theorem projects_handle (p : Nat) (w : Favored) (r : FavoriteRequest) : (handle p w r).db.projects = w.db.projects := by
  have htouch := touches_favoriteOrNot r.user p (some r.type.param) w.db .projects (by decide)
  rw [handle]
  dsimp only
  cases hp : w.db.projects.find? p with
  | none =>
    rw [favorite, hp]
  | some project =>
    have hsome : (w.db.projects.find? p).isSome = true := by rw [hp]; rfl
    rw [(favorite_eq hsome r.user (some r.type.param) r.referer).1]
    exact htouch

/-- In every state of a run the favorites are those of the last requests and each is told once to each author,
exactly when every request is proper. -/
theorem favorites_protocol_iff {p : Nat} {w : Favored} {rs : List FavoriteRequest}
    (hp : (w.db.projects.find? p).isSome = true) (h : Settled p w) :
    (∀ n, Settled p (Run.after (handle p) w (rs.take n))) ↔ Run.Along (handle p) (Proper p) w rs := by
  refine Run.along_iff_forall_take (A := fun _ _ => True) (J := fun w => (w.db.projects.find? p).isSome = true)
    (fun w r hp _ => ?_) (fun w r hp h _ => (h.handle_iff hp r).symm) hp h (.of_forall fun _ _ => trivial)
  rw [projects_handle]
  exact hp

/-- The project of `oneProject` with its author, and a second user. -/
def lampAndBob : Favored where
  db := { Database.oneProject "Lamp".toList (some "public".toList) with
    users := Database.adaAndBob }
  last _ := none
  raised := false

theorem settled_lampAndBob : Settled 1 lampAndBob where
  raised := rfl
  favorites := fun k => by rw [if_neg (fun h => by cases h)]; rfl
  activities := fun k => by
    rw [if_neg]
    · rfl
    · intro hk
      obtain ⟨f, hf, _⟩ := hk
      cases hf

theorem favorites_protocol_lamp :
    Settled 1 lampAndBob ∧ ∀ n, Settled 1 (Run.after (handle 1) lampAndBob
      (List.take n [⟨bob, .favorite, true⟩, ⟨bob, .unfavorite, true⟩, ⟨bob, .favorite, true⟩])) :=
  ⟨settled_lampAndBob, (favorites_protocol_iff rfl settled_lampAndBob).mpr
    ⟨⟨rfl, Or.inr ⟨by decide, by decide⟩⟩, ⟨rfl, by decide⟩, ⟨rfl, Or.inr ⟨by decide, by decide⟩⟩, trivial⟩⟩

/-- The second favorite of the same user is told to the author again. -/
theorem favorite_told_twice :
    Settled 1 lampAndBob ∧
      ¬ Settled 1 (Run.after (handle 1) lampAndBob [⟨bob, .favorite, true⟩, ⟨bob, .favorite, true⟩]) := by
  refine ⟨settled_lampAndBob, fun h => ?_⟩
  have htwice := h.activities (some 1, some 2, some 1)
  rw [show Tally.count _ _ (some 1, some 2, some 1) = 2 by decide] at htwice
  split at htwice <;> cases htwice

end Favored
