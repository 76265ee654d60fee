import BuildInProgress.ProjectRows
import BuildInProgress.Registrations

/-!
# Privileged flags

The lists of accessible attributes hold `admin` and `banned` of a user and `featured` of a project.  A run of
account and project requests leaves the flags as they were exactly when no request that goes through submits
another value.
-/

open Text Ancestry

/-! ## The flags among the parameters -/

namespace UserAttr

/-- The flag `admin` after the parameters. -/
def adminAfter (v : Option Bool) (params : List UserAttr) : Option Bool :=
  params.foldl (fun v a => match a with
    | admin w => w
    | _ => v) v

/-- The flag `banned` after the parameters. -/
def bannedAfter (v : Option Bool) (params : List UserAttr) : Option Bool :=
  params.foldl (fun v a => match a with
    | banned w => w
    | _ => v) v

theorem foldl_assign (d : Devise) (r : UserRecord) (params : List UserAttr) :
    (params.foldl (assign d) r).user.id = r.user.id ∧
      (params.foldl (assign d) r).user.admin = adminAfter r.user.admin params ∧
      (params.foldl (assign d) r).profile.banned = bannedAfter r.profile.banned params := by
  induction params generalizing r with
  | nil => exact ⟨rfl, rfl, rfl⟩
  | cons a params ih =>
    obtain ⟨hid, hadmin, hbanned⟩ := ih (assign d r a)
    rw [List.foldl_cons, hid, hadmin, hbanned, adminAfter, adminAfter, bannedAfter, bannedAfter, List.foldl_cons,
      List.foldl_cons]
    cases a with
    | password v =>
      refine ⟨rfl, rfl, ?_⟩
      rw [assign]
      dsimp only
      split
      · rfl
      · rfl
    | _ => exact ⟨rfl, rfl, rfl⟩

end UserAttr

namespace Accounts

theorem assigned_flags (d : Devise) (s : Accounts) (u : User) (params : List UserAttr) :
    (s.assigned d u params).user.id = u.id ∧
      (s.assigned d u params).user.admin = UserAttr.adminAfter u.admin params ∧
      (s.assigned d u params).profile.banned = UserAttr.bannedAfter (s.profile u.id).banned params :=
  UserAttr.foldl_assign d ⟨u, s.profile u.id, none, none⟩ params

theorem banned_postponeEmail (before after : Profile) : (postponeEmail before after).banned = after.banned := by
  unfold postponeEmail
  split
  · rfl
  · rfl

end Accounts

/-! ## What the account pages save -/

namespace RegistrationsController

open Accounts

/-- The user that `update` saves, with the parameters that it assigns. -/
def saves (d : Devise) (u : Nat) (settings : Bool) (params : Option (List UserAttr))
    (currentPassword : Option Text) (s : Accounts) : Option (User × List UserAttr) :=
  match s.signedIn u, params with
  | some user, some params =>
    let profile := s.profile user.id
    let plain := settings || blankColumn (UserAttr.passwordOf params)
    let given := if plain then UserAttr.withoutPassword params else params
    let allowed := if settings then decide (UserAttr.emailOf params ≠ profile.email)
      else plain || blank profile.encryptedPassword || currentPassword.any (d.validPassword profile.encryptedPassword)
    if allowed && (s.assigned d user given).valid d s (some profile) then some (user, given) else none
  | _, _ => none

theorem updateAttributes_eq (d : Devise) (u : User) (params : List UserAttr) (s : Accounts) :
    (s.updateAttributes d u params).2 =
      if (s.assigned d u params).valid d s (some (s.profile u.id)) then s.put (s.assigned d u params) else s := by
  unfold updateAttributes
  dsimp only
  split
  · rfl
  · rfl

theorem update_saves (d : Devise) (u : Nat) (settings : Bool) (params : Option (List UserAttr))
    (currentPassword : Option Text) (s : Accounts) :
    (saves d u settings params currentPassword s = none ∧
        (update d u settings params currentPassword s).2 = s) ∨
      ∃ user given, saves d u settings params currentPassword s = some (user, given) ∧
        s.signedIn u = some user ∧
        (update d u settings params currentPassword s).2 = s.put (s.assigned d user given) := by
  -- the parameters are saved when the user is allowed to and they are valid
  have hsave : ∀ (user : User) (given : List UserAttr) (allowed : Bool) (s' : Accounts),
      s' = (if allowed then (s.updateAttributes d user given).2 else s) →
      ((if allowed && (s.assigned d user given).valid d s (some (s.profile user.id)) then some (user, given)
          else none) = none ∧ s' = s) ∨
        ((if allowed && (s.assigned d user given).valid d s (some (s.profile user.id)) then some (user, given)
          else none) = some (user, given) ∧ s' = s.put (s.assigned d user given)) := by
    intro user given allowed s' hs'
    rw [hs', updateAttributes_eq]
    cases allowed with
    | false => exact Or.inl ⟨rfl, rfl⟩
    | true =>
      rw [Bool.true_and, if_pos rfl]
      by_cases hv : (s.assigned d user given).valid d s (some (s.profile user.id)) = true
      · rw [if_pos hv, if_pos hv]
        exact Or.inr ⟨rfl, rfl⟩
      · rw [if_neg hv, if_neg hv]
        exact Or.inl ⟨rfl, rfl⟩
  unfold saves update
  cases hin : s.signedIn u with
  | none => exact Or.inl ⟨rfl, rfl⟩
  | some user =>
    cases params with
    | none => exact Or.inl ⟨rfl, rfl⟩
    | some params =>
      dsimp only
      generalize hgiven : (if (settings || blankColumn (UserAttr.passwordOf params)) = true then
        UserAttr.withoutPassword params else params) = given
      generalize hallowed : (if settings = true then decide (UserAttr.emailOf params ≠ (s.profile user.id).email)
        else settings || blankColumn (UserAttr.passwordOf params) || blank (s.profile user.id).encryptedPassword ||
          currentPassword.any (d.validPassword (s.profile user.id).encryptedPassword)) = allowed
      refine (hsave user given allowed _ ?_).imp_right fun h => ⟨user, given, h.1, rfl, h.2⟩
      subst hgiven hallowed
      cases settings with
      | true =>
        rw [if_pos rfl, if_pos rfl, Bool.true_or, if_pos rfl]
        by_cases hemail : UserAttr.emailOf params = (s.profile user.id).email
        · rw [if_pos hemail, if_neg (by simpa using hemail)]
        · rw [if_neg hemail, if_pos (by simpa using hemail)]
      | false =>
        rw [if_neg Bool.false_ne_true, if_neg Bool.false_ne_true, Bool.false_or]
        by_cases hblank : blankColumn (UserAttr.passwordOf params) = true
        · rw [if_pos hblank, if_pos hblank, hblank, Bool.true_or, Bool.true_or, if_pos rfl]
        · rw [if_neg hblank, if_neg hblank, Bool.eq_false_of_not_eq_true hblank, Bool.false_or, updateWithPassword]
          by_cases hnone : blank (s.profile user.id).encryptedPassword = true
          · rw [if_pos hnone, hnone, Bool.true_or, if_pos rfl]
          · rw [if_neg hnone, Bool.eq_false_of_not_eq_true hnone, Bool.false_or]
            split
            · rfl
            · rfl

end RegistrationsController

/-! ## What the project page saves -/

namespace Project

/-- `set_published` clears the flag of a project that is not published, and no other. -/
theorem featured_republished {p : Project} (hv : p.valid = true) (published : Bool) (now : Nat) :
    (p.republished published now).featured =
      if !published && p.featured == some true then some false else p.featured := by
  have hprivacy : ∀ (p : Project) (v : Option Text),
      (p.updated (some now) fun p => { p with privacy := v }).featured = p.featured := by
    intro p v
    unfold updated
    split
    · rfl
    · rfl
  unfold republished
  cases published with
  | true =>
    rw [Bool.true_and, Bool.true_and, Bool.not_true, Bool.false_and, if_neg Bool.false_ne_true,
      if_neg Bool.false_ne_true]
    split
    · exact hprivacy p _
    · split
      · exact hprivacy p _
      · rfl
  | false =>
    rw [Bool.false_and, Bool.false_and, if_neg Bool.false_ne_true, if_neg Bool.false_ne_true, Bool.not_false,
      if_pos rfl, Bool.true_and]
    dsimp only
    rw [hprivacy]
    by_cases hfeatured : (p.featured == some true) = true
    · rw [if_pos hfeatured, if_pos hfeatured, updated_of_valid (by exact hv)]
      intro hsame
      rw [← hsame] at hfeatured
      cases hfeatured
    · rw [if_neg hfeatured, if_neg hfeatured]

end Project

namespace ProjectsController

/-- `set_published` clears the featured flag of the record that the update saves. -/
def clears (db : Database) (now : Nat) (params : List ProjectAttr) (project : Project) : Bool :=
  asks now params project && !publishedAfter db now params project &&
    (ProjectAttr.record now params project).featured == some true

theorem featured_rowAfter {db : Database} {now : Nat} {params : List ProjectAttr} {project : Project}
    (hv : (ProjectAttr.record now params project).valid = true) :
    (rowAfter db now params project).featured =
      if clears db now params project then some false else (ProjectAttr.record now params project).featured := by
  rw [rowAfter, clears]
  cases asks now params project with
  | true =>
    rw [if_pos rfl, Project.featured_republished hv, Bool.true_and]
  | false =>
    rw [if_neg Bool.false_ne_true, Bool.false_and, Bool.false_and, if_neg Bool.false_ne_true]

end ProjectsController

/-! ## Runs -/

/-- The accounts, and the projects whose featured flag was last written by `set_published`. -/
structure Watched where
  accounts : Accounts
  cleared : List Nat

inductive AccountRequest where
  | register (params : List UserAttr)
  | updateAccount (u : Nat) (settings : Bool) (params : Option (List UserAttr)) (currentPassword : Option Text)
  | updateProject (u now i : Nat) (params : List ProjectAttr)

namespace Watched

open Accounts ProjectsController

def clearedAfter (u : User) (now i : Nat) (params : List ProjectAttr) (db : Database) (cleared : List Nat) :
    List Nat :=
  match saves u now i params db with
  | none => cleared
  | some project =>
    if clears db now params project then i :: cleared
    else if (ProjectAttr.record now params project).featured = project.featured then cleared
    else cleared.filter (· ≠ i)

def step (d : Devise) (s : Watched) : AccountRequest → Watched
  | .register params => { s with accounts := (RegistrationsController.create d params s.accounts).2 }
  | .updateAccount u settings params currentPassword =>
    { s with accounts := (RegistrationsController.update d u settings params currentPassword s.accounts).2 }
  | .updateProject u now i params =>
    match s.accounts.signedIn u with
    | none => s
    | some user =>
      { accounts := { s.accounts with db := (update user now i params s.accounts.db).2 }
        cleared := clearedAfter user now i params s.accounts.db s.cleared }

/-- The flags are as in `s₀`, but for a featured flag that `set_published` has cleared; who has registered
since is no admin. -/
structure FlagsKept (s₀ : Accounts) (s : Watched) : Prop where
  users : ∀ v ∈ s₀.db.users.rows, ∃ w ∈ s.accounts.db.users.rows, w.id = v.id ∧ w.admin = v.admin ∧
    (s.accounts.profile v.id).banned = (s₀.profile v.id).banned
  registered : ∀ w ∈ s.accounts.db.users.rows, s₀.db.users.next ≤ w.id → w.admin ≠ some true
  projects : ∀ q ∈ s₀.db.projects.rows, ∃ r ∈ s.accounts.db.projects.rows, r.id = q.id ∧
    (r.featured = q.featured ∨ r.featured = some false ∧ r.id ∈ s.cleared)

/-- The request is refused, or submits no other flag than the stored ones.  A user who has registered since
`s₀` may submit anything but the admin flag, and an author may set the featured flag back to what it was, or
to what `set_published` clears at once. -/
def Unprivileged (d : Devise) (s₀ : Accounts) (s : Watched) : AccountRequest → Prop
  | .register params => (RegistrationsController.newUser d s.accounts params).valid d s.accounts none = true →
      UserAttr.adminAfter none params ≠ some true
  | .updateAccount u settings params currentPassword => ∀ user given,
      RegistrationsController.saves d u settings params currentPassword s.accounts = some (user, given) →
      if user.id < s₀.db.users.next then
        UserAttr.adminAfter user.admin given = user.admin ∧
          UserAttr.bannedAfter (s.accounts.profile user.id).banned given = (s.accounts.profile user.id).banned
      else UserAttr.adminAfter user.admin given ≠ some true
  | .updateProject u now i params => ∀ user project, s.accounts.signedIn u = some user →
      saves user now i params s.accounts.db = some project →
      clears s.accounts.db now params project = true ∨
        (ProjectAttr.record now params project).featured = project.featured ∨
        ∃ q ∈ s₀.db.projects.rows, q.id = i ∧ (ProjectAttr.record now params project).featured = q.featured

/-- The users and projects of `s₀` are those with the old ids. -/
structure Since (s₀ : Accounts) (s : Watched) : Prop where
  users : ∀ w ∈ s.accounts.db.users.rows, w.id < s₀.db.users.next → ∃ v ∈ s₀.db.users.rows, v.id = w.id
  next : s₀.db.users.next ≤ s.accounts.db.users.next
  projects : s.accounts.db.projects.rows.map Project.id = s₀.db.projects.rows.map Project.id
  cleared : ∀ r ∈ s.accounts.db.projects.rows, r.id ∈ s.cleared → r.featured = some false

variable {d : Devise} {s₀ : Accounts} {s : Watched}

theorem signedIn_mem {a : Accounts} {u : Nat} {user : User} (h : a.signedIn u = some user) :
    user ∈ a.db.users.rows := by
  rw [signedIn, Option.filter_eq_some_iff] at h
  exact (Table.find?_eq_some.mp h.1).1

/-! Signing up -/

theorem rows_register (d : Devise) (a : Accounts) (params : List UserAttr) :
    (RegistrationsController.newUser d a params).valid d a none = false ∧
        (RegistrationsController.create d params a).2 = a ∨
      (RegistrationsController.newUser d a params).valid d a none = true ∧
        (∃ w : User, w.id = a.db.users.next ∧ w.admin = UserAttr.adminAfter none params ∧
          (RegistrationsController.create d params a).2.db.users.rows = a.db.users.rows ++ [w]) ∧
        (RegistrationsController.create d params a).2.db.users.next = a.db.users.next + 1 ∧
        (RegistrationsController.create d params a).2.db.projects = a.db.projects ∧
        ∀ j, j ≠ a.db.users.next → (RegistrationsController.create d params a).2.profile j = a.profile j := by
  have hflags := UserAttr.foldl_assign d
    ⟨⟨a.db.users.next, [], none⟩, ⟨some [], none, [], none, none⟩, none, none⟩ params
  unfold RegistrationsController.create
  dsimp only
  by_cases hv : (RegistrationsController.newUser d a params).valid d a none = true
  · rw [if_pos hv]
    refine Or.inr ⟨hv, ⟨{ (RegistrationsController.newUser d a params).user with id := a.db.users.next }, rfl,
      hflags.2.1, rfl⟩, rfl, rfl, fun j hj => ?_⟩
    exact Function.update_of_ne hj _ _
  · rw [if_neg hv]
    exact Or.inl ⟨Bool.eq_false_of_not_eq_true hv, rfl⟩

theorem since_register (h : Since s₀ s) (params : List UserAttr) :
    Since s₀ (step d s (.register params)) := by
  rcases rows_register d s.accounts params with ⟨-, heq⟩ | ⟨-, ⟨w, hid, -, hrows⟩, hnext, hprojects, -⟩
  · rw [step, heq]
    exact h
  · refine ⟨fun x hx hlt => ?_, ?_, ?_, ?_⟩
    · change x ∈ (RegistrationsController.create d params s.accounts).2.db.users.rows at hx
      rw [hrows] at hx
      rcases List.mem_append.mp hx with hx | hx
      · exact h.users x hx hlt
      · have hge := h.next
        rw [List.mem_singleton.mp hx, hid] at hlt
        omega
    · show _ ≤ (RegistrationsController.create d params s.accounts).2.db.users.next
      rw [hnext]
      exact Nat.le_succ_of_le h.next
    · show (RegistrationsController.create d params s.accounts).2.db.projects.rows.map Project.id = _
      rw [hprojects]
      exact h.projects
    · show ∀ r ∈ (RegistrationsController.create d params s.accounts).2.db.projects.rows, _
      rw [hprojects]
      exact h.cleared

theorem flagsKept_register (hs : Since s₀ s) (h : FlagsKept s₀ s) (params : List UserAttr) :
    Unprivileged d s₀ s (.register params) ↔ FlagsKept s₀ (step d s (.register params)) := by
  rw [Unprivileged, step]
  rcases rows_register d s.accounts params with
    ⟨hv, heq⟩ | ⟨hv, ⟨w, hid, hadmin, hrows⟩, -, hprojects, hprofile⟩
  · rw [hv, heq]
    exact iff_of_true (fun hno => by cases hno) h
  · rw [hv, forall_prop_of_true rfl, ← hadmin]
    -- the new account is the only row that is added
    constructor
    · intro hno
      refine ⟨fun v hv => ?_, fun x hx hge => ?_, ?_⟩
      · obtain ⟨x, hx, hxid, hflags⟩ := h.users v hv
        have hne : v.id ≠ s.accounts.db.users.next := by
          have hlt := (s₀.db.users.bound v hv).2
          have hge := hs.next
          have hvid : Keyed.key v = v.id := rfl
          omega
        refine ⟨x, ?_, hxid, hflags.1, ?_⟩
        · show x ∈ (RegistrationsController.create d params s.accounts).2.db.users.rows
          rw [hrows]
          exact List.mem_append_left _ hx
        · show ((RegistrationsController.create d params s.accounts).2.profile v.id).banned = _
          rw [hprofile _ hne]
          exact hflags.2
      · change x ∈ (RegistrationsController.create d params s.accounts).2.db.users.rows at hx
        rw [hrows] at hx
        rcases List.mem_append.mp hx with hx | hx
        · exact h.registered x hx hge
        · rw [List.mem_singleton.mp hx]
          exact hno
      · show ∀ q ∈ s₀.db.projects.rows, ∃ r ∈ (RegistrationsController.create d params s.accounts).2.db.projects.rows, _
        rw [hprojects]
        exact h.projects
    · intro hkept
      refine hkept.registered w ?_ ?_
      · show w ∈ (RegistrationsController.create d params s.accounts).2.db.users.rows
        rw [hrows]
        exact List.mem_append_right _ (List.mem_singleton_self w)
      · rw [hid]
        exact hs.next

/-! Changing one's account -/

theorem rows_put (a : Accounts) (r : UserRecord) :
    (a.put r).db.users.rows = a.db.users.rows.map fun w => if w.id = r.user.id then r.user else w := by
  rw [put]
  dsimp only
  rw [Table.rows_modify]
  apply List.map_congr_left
  intro w _
  change (if w.id = r.user.id then ({ r.user with id := w.id } : User) else w) = _
  by_cases h : w.id = r.user.id
  · rw [if_pos h, if_pos h, h]
  · rw [if_neg h, if_neg h]

theorem since_updateAccount (h : Since s₀ s) (u : Nat) (settings : Bool) (params : Option (List UserAttr))
    (currentPassword : Option Text) : Since s₀ (step d s (.updateAccount u settings params currentPassword)) := by
  rw [step]
  rcases RegistrationsController.update_saves d u settings params currentPassword s.accounts with
    ⟨-, heq⟩ | ⟨user, given, -, -, heq⟩
  · rw [heq]
    exact h
  · rw [heq]
    refine ⟨fun w hw hlt => ?_, h.next, h.projects, h.cleared⟩
    dsimp only at hw
    rw [rows_put] at hw
    obtain ⟨x, hx, rfl⟩ := List.mem_map.mp hw
    have hid : (if x.id = (s.accounts.assigned d user given).user.id then
        (s.accounts.assigned d user given).user else x).id = x.id := by
      split
      · rename_i hx
        exact hx.symm
      · rfl
    rw [hid] at hlt ⊢
    exact h.users x hx hlt

theorem flagsKept_updateAccount (hs : Since s₀ s) (h : FlagsKept s₀ s) (u : Nat) (settings : Bool)
    (params : Option (List UserAttr)) (currentPassword : Option Text) :
    Unprivileged d s₀ s (.updateAccount u settings params currentPassword) ↔
      FlagsKept s₀ (step d s (.updateAccount u settings params currentPassword)) := by
  rw [Unprivileged, step]
  rcases RegistrationsController.update_saves d u settings params currentPassword s.accounts with
    ⟨hsaves, heq⟩ | ⟨user, given, hsaves, hin, heq⟩
  · rw [hsaves, heq]
    exact iff_of_true (fun _ _ hno => by cases hno) h
  · have huser := signedIn_mem hin
    obtain ⟨hid, hadmin, hbanned⟩ := assigned_flags d s.accounts user given
    have hrows : ∀ w, w ∈ (s.accounts.put (s.accounts.assigned d user given)).db.users.rows ↔
        w = (s.accounts.assigned d user given).user ∨ w ∈ s.accounts.db.users.rows ∧ w.id ≠ user.id := by
      intro w
      rw [rows_put, hid]
      exact List.mem_map_replace ⟨user, huser, rfl⟩
    -- the request writes the profile of its own user only
    have hprofile : ∀ j, ((s.accounts.put (s.accounts.assigned d user given)).profile j).banned =
        if j = user.id then UserAttr.bannedAfter (s.accounts.profile user.id).banned given
        else (s.accounts.profile j).banned := by
      intro j
      rw [put, hid]
      dsimp only
      by_cases hj : j = user.id
      · rw [if_pos hj, hj, Function.update_self, banned_postponeEmail, hbanned]
      · rw [if_neg hj, Function.update_of_ne hj]
    rw [hsaves, heq]
    constructor
    · intro hun
      have hcond := hun user given rfl
      refine ⟨fun v hv => ?_, fun w hw hge => ?_, h.projects⟩
      · obtain ⟨x, hx, hxid, hxadmin, hxbanned⟩ := h.users v hv
        by_cases hvu : v.id = user.id
        · -- the user of the request was there at the start
          have hxu : x = user := Table.eq_of_key hx huser (hxid.trans hvu)
          have hold : user.id < s₀.db.users.next := by
            rw [← hvu]
            exact (s₀.db.users.bound v hv).2
          rw [if_pos hold] at hcond
          refine ⟨_, (hrows _).mpr (Or.inl rfl), hid.trans hvu.symm, ?_, ?_⟩
          · rw [hadmin, hcond.1, ← hxu, hxadmin]
          · rw [hprofile, if_pos hvu, hcond.2, ← hvu, hxbanned]
        · refine ⟨x, (hrows x).mpr (Or.inr ⟨hx, ?_⟩), hxid, hxadmin, ?_⟩
          · rw [hxid]
            exact hvu
          · rw [hprofile, if_neg hvu]
            exact hxbanned
      · rcases (hrows w).mp hw with rfl | ⟨hw, -⟩
        · rw [hid] at hge
          rw [if_neg (Nat.not_lt.mpr hge)] at hcond
          rw [hadmin]
          exact hcond
        · exact h.registered w hw hge
    · intro hkept user' given' heq'
      rw [Option.some.injEq, Prod.mk.injEq] at heq'
      obtain ⟨rfl, rfl⟩ := heq'
      by_cases hold : user.id < s₀.db.users.next
      · rw [if_pos hold]
        obtain ⟨v, hv, hvu⟩ := hs.users user huser hold
        obtain ⟨w, hw, hwid, hwadmin, hwbanned⟩ := hkept.users v hv
        obtain ⟨x, hx, hxid, hxadmin, hxbanned⟩ := h.users v hv
        have hxu : x = user := Table.eq_of_key hx huser (hxid.trans hvu)
        have hwu : w = (s.accounts.assigned d user given).user := by
          rcases (hrows w).mp hw with hw | ⟨-, hne⟩
          · exact hw
          · exact absurd (hwid.trans hvu) hne
        rw [hprofile, if_pos hvu] at hwbanned
        constructor
        · rw [← hadmin, ← hwu, hwadmin, ← hxadmin, hxu]
        · rw [hwbanned, ← hxbanned, hvu]
      · rw [if_neg hold, ← hadmin]
        refine hkept.registered _ ((hrows _).mpr (Or.inl rfl)) ?_
        rw [hid]
        exact Nat.not_lt.mp hold

/-! Updating a project -/

-- whatever is recorded about another project stays
theorem mem_clearedAfter_of_ne {u : User} {now i j : Nat} {params : List ProjectAttr} {db : Database}
    {cleared : List Nat} (hj : j ≠ i) : j ∈ clearedAfter u now i params db cleared ↔ j ∈ cleared := by
  unfold clearedAfter
  split
  · exact Iff.rfl
  · split
    · rw [List.mem_cons, or_iff_right hj]
    · split
      · exact Iff.rfl
      · rw [List.mem_filter, and_iff_left (by simpa using hj)]

/-- The project of the request is recorded when it is cleared now, or was before and its flag is not written. -/
theorem mem_clearedAfter_self {u : User} {now i : Nat} {params : List ProjectAttr} {db : Database} {project : Project}
    {cleared : List Nat} (hsaves : saves u now i params db = some project) :
    i ∈ clearedAfter u now i params db cleared ↔ clears db now params project = true ∨
      (ProjectAttr.record now params project).featured = project.featured ∧ i ∈ cleared := by
  rw [clearedAfter, hsaves]
  dsimp only
  by_cases hclears : clears db now params project = true
  · rw [if_pos hclears]
    exact iff_of_true List.mem_cons_self (Or.inl hclears)
  · rw [if_neg hclears, or_iff_right hclears]
    by_cases hsame : (ProjectAttr.record now params project).featured = project.featured
    · rw [if_pos hsame, and_iff_right hsame]
    · rw [if_neg hsame, List.mem_filter]
      exact iff_of_false (by simp) fun h => hsame h.1

/-- The flag is kept when it is cleared, not written, or written back. -/
theorem flag_rowAfter_iff {u : User} {now i : Nat} {params : List ProjectAttr} {db : Database} {project : Project}
    {cleared : List Nat} {flag : Option Bool} (hv : (ProjectAttr.record now params project).valid = true)
    (hsaves : saves u now i params db = some project)
    (hflag : project.featured = flag ∨ project.featured = some false ∧ i ∈ cleared) :
    ((rowAfter db now params project).featured = flag ∨ (rowAfter db now params project).featured = some false ∧
        i ∈ clearedAfter u now i params db cleared) ↔
      clears db now params project = true ∨
        (ProjectAttr.record now params project).featured = project.featured ∨
        (ProjectAttr.record now params project).featured = flag := by
  rw [mem_clearedAfter_self hsaves, featured_rowAfter hv]
  by_cases hclears : clears db now params project = true
  · rw [if_pos hclears]
    exact iff_of_true (Or.inr ⟨rfl, Or.inl hclears⟩) (Or.inl hclears)
  · rw [if_neg hclears, or_iff_right hclears, or_iff_right hclears]
    by_cases hsame : (ProjectAttr.record now params project).featured = project.featured
    · rw [and_iff_right hsame, hsame]
      exact iff_of_true hflag (Or.inl rfl)
    · rw [or_iff_right hsame]
      exact or_iff_left fun h => hsame h.2.1

theorem since_updateProject (h : Since s₀ s) (u now i : Nat) (params : List ProjectAttr) :
    Since s₀ (step d s (.updateProject u now i params)) := by
  rw [step]
  cases s.accounts.signedIn u with
  | none => exact h
  | some user =>
    dsimp only
    -- the request writes no user
    have husers : (update user now i params s.accounts.db).2.users = s.accounts.db.users := by
      rcases update_saves user now i params s.accounts.db with ⟨-, -, -, -, husers⟩ | ⟨-, -, -, -, -, -, husers⟩
      · exact husers
      · exact husers
    refine ⟨?_, ?_, ?_, ?_⟩
    · show ∀ w ∈ (update user now i params s.accounts.db).2.users.rows, _
      rw [husers]
      exact h.users
    · show _ ≤ (update user now i params s.accounts.db).2.users.next
      rw [husers]
      exact h.next
    · show (update user now i params s.accounts.db).2.projects.rows.map Project.id = _
      rcases update_saves user now i params s.accounts.db with ⟨-, -, hprojects, -⟩ | ⟨project, hfind, -, -, hrows, -⟩
      · rw [hprojects]
        exact h.projects
      · have hid : project.id = i := (Table.find?_eq_some.mp hfind).2
        rw [hrows, List.map_map, ← h.projects]
        apply List.map_congr_left
        intro r _
        rw [Function.comp]
        split
        · rename_i hr
          rw [rowAfter_id, hid, hr]
        · rfl
    · show ∀ r ∈ (update user now i params s.accounts.db).2.projects.rows,
        r.id ∈ clearedAfter user now i params s.accounts.db s.cleared → _
      rcases update_saves user now i params s.accounts.db with
        ⟨hsaves, -, hprojects, -⟩ | ⟨project, hfind, hsaves, hv, hrows, -⟩
      · rw [hprojects, clearedAfter, hsaves]
        exact h.cleared
      · have hid : project.id = i := (Table.find?_eq_some.mp hfind).2
        rw [hrows]
        intro r hr hcleared
        obtain ⟨x, hx, rfl⟩ := List.mem_map.mp hr
        by_cases hxi : x.id = i
        · rw [if_pos hxi] at hcleared ⊢
          rw [rowAfter_id, hid, mem_clearedAfter_self hsaves] at hcleared
          rw [featured_rowAfter hv]
          by_cases hclears : clears s.accounts.db now params project = true
          · rw [if_pos hclears]
          · -- the flag was cleared before, and is not written now
            obtain ⟨hsame, hbefore⟩ := hcleared.resolve_left hclears
            rw [if_neg hclears, hsame]
            exact h.cleared project (Table.find?_eq_some.mp hfind).1 (hid ▸ hbefore)
        · rw [if_neg hxi] at hcleared ⊢
          exact h.cleared x hx ((mem_clearedAfter_of_ne hxi).mp hcleared)

theorem flagsKept_updateProject (hs : Since s₀ s) (h : FlagsKept s₀ s) (u now i : Nat)
    (params : List ProjectAttr) :
    Unprivileged d s₀ s (.updateProject u now i params) ↔
      FlagsKept s₀ (step d s (.updateProject u now i params)) := by
  rw [Unprivileged, step]
  cases hin : s.accounts.signedIn u with
  | none => exact iff_of_true (fun _ _ hno => by cases hno) h
  | some user =>
    dsimp only
    rcases update_saves user now i params s.accounts.db with
      ⟨hsaves, -, hprojects, -, husers⟩ | ⟨project, hfind, hsaves, hv, hrows, -, husers⟩
    · refine iff_of_true (fun user' project heq hno => ?_) ⟨?_, ?_, ?_⟩
      · rw [← Option.some.inj heq, hsaves] at hno
        cases hno
      · show ∀ v ∈ s₀.db.users.rows, ∃ w ∈ (update user now i params s.accounts.db).2.users.rows, _
        rw [husers]
        exact h.users
      · show ∀ w ∈ (update user now i params s.accounts.db).2.users.rows, _
        rw [husers]
        exact h.registered
      · show ∀ q ∈ s₀.db.projects.rows, ∃ r ∈ (update user now i params s.accounts.db).2.projects.rows, r.id = q.id ∧
          (r.featured = q.featured ∨
            r.featured = some false ∧ r.id ∈ clearedAfter user now i params s.accounts.db s.cleared)
        rw [hprojects, clearedAfter, hsaves]
        exact h.projects
    · obtain ⟨hmem, hid⟩ := Table.find?_eq_some.mp hfind
      have hpi : project.id = i := hid
      have hrowid : (rowAfter s.accounts.db now params project).id = i :=
        (rowAfter_id s.accounts.db now params project).trans hpi
      have hafter : ∀ r, r ∈ (update user now i params s.accounts.db).2.projects.rows ↔
          r = rowAfter s.accounts.db now params project ∨ r ∈ s.accounts.db.projects.rows ∧ r.id ≠ i := by
        intro r
        rw [hrows]
        exact List.mem_map_replace ⟨project, hmem, hpi⟩
      -- the flag of the project, seen from its row at the start
      have hflag : ∀ q ∈ s₀.db.projects.rows, q.id = i →
          (project.featured = q.featured ∨ project.featured = some false ∧ i ∈ s.cleared) := by
        intro q hq hqi
        obtain ⟨x, hx, hxid, hflag⟩ := h.projects q hq
        have hxp : x = project := Table.eq_of_key hx hmem ((hxid.trans hqi).trans hpi.symm)
        rw [hxid, hqi, hxp] at hflag
        exact hflag
      constructor
      · intro hun
        refine ⟨?_, ?_, fun q hq => ?_⟩
        · show ∀ v ∈ s₀.db.users.rows, ∃ w ∈ (update user now i params s.accounts.db).2.users.rows, _
          rw [husers]
          exact h.users
        · show ∀ w ∈ (update user now i params s.accounts.db).2.users.rows, _
          rw [husers]
          exact h.registered
        · show ∃ r ∈ (update user now i params s.accounts.db).2.projects.rows, r.id = q.id ∧
            (r.featured = q.featured ∨
              r.featured = some false ∧ r.id ∈ clearedAfter user now i params s.accounts.db s.cleared)
          by_cases hqi : q.id = i
          · refine ⟨_, (hafter _).mpr (Or.inl rfl), hrowid.trans hqi.symm, ?_⟩
            rw [hrowid, flag_rowAfter_iff hv hsaves (hflag q hq hqi)]
            rcases hun user project rfl hsaves with hclears | hsame | ⟨q', hq', hq'i, hback⟩
            · exact Or.inl hclears
            · exact Or.inr (Or.inl hsame)
            · rw [hback, Table.eq_of_key hq' hq (hq'i.trans hqi.symm)]
              exact Or.inr (Or.inr rfl)
          · obtain ⟨x, hx, hxid, hkept⟩ := h.projects q hq
            have hxi : x.id ≠ i := by
              rw [hxid]
              exact hqi
            refine ⟨x, (hafter x).mpr (Or.inr ⟨hx, hxi⟩), hxid, ?_⟩
            rw [mem_clearedAfter_of_ne hxi]
            exact hkept
      · intro hkept user' project' heq hsaves'
        rw [← Option.some.inj heq, hsaves, Option.some.injEq] at hsaves'
        subst hsaves'
        -- the row of the project at the start
        obtain ⟨q, hq, hqi⟩ : ∃ q ∈ s₀.db.projects.rows, q.id = i := by
          have hin : i ∈ s.accounts.db.projects.rows.map Project.id := List.mem_map.mpr ⟨project, hmem, hpi⟩
          rw [hs.projects] at hin
          exact List.mem_map.mp hin
        obtain ⟨r, hr, hrid, hrow⟩ := hkept.projects q hq
        rcases (hafter r).mp hr with rfl | ⟨-, hne⟩
        · rw [hrowid] at hrow
          rcases (flag_rowAfter_iff hv hsaves (hflag q hq hqi)).mp hrow with hclears | hsame | hback
          · exact Or.inl hclears
          · exact Or.inr (Or.inl hsame)
          · exact Or.inr (Or.inr ⟨q, hq, hqi, hback⟩)
        · exact absurd (hrid.trans hqi) hne

/-- In a run of account and project requests, whoever sends them, the flags are kept in every state exactly
when every request is refused or submits no other flags than the stored ones. -/
theorem privileged_flags_kept_iff (d : Devise) (s₀ : Accounts) (rs : List AccountRequest) :
    (∀ n, FlagsKept s₀ (Run.after (step d) ⟨s₀, []⟩ (rs.take n))) ↔
      Run.Along (step d) (Unprivileged d s₀) ⟨s₀, []⟩ rs := by
  have hsince : Since s₀ ⟨s₀, []⟩ := ⟨fun w hw _ => ⟨w, hw, rfl⟩, Nat.le_refl _, rfl, fun _ _ hno => by cases hno⟩
  have hkept : FlagsKept s₀ ⟨s₀, []⟩ := by
    refine ⟨fun v hv => ⟨v, hv, rfl, rfl, rfl⟩, fun w hw hge => ?_, fun q hq => ⟨q, hq, rfl, Or.inl rfl⟩⟩
    exact absurd (s₀.db.users.bound w hw).2 (Nat.not_lt.mpr hge)
  refine Run.along_iff_forall_take (A := fun _ _ => True) (J := Since s₀) (fun s r h _ => ?_)
    (fun s r hs h _ => ?_) hsince hkept (.of_forall fun _ _ => trivial)
  · cases r with
    | register params => exact since_register h params
    | updateAccount u settings params currentPassword => exact since_updateAccount h u settings params currentPassword
    | updateProject u now i params => exact since_updateProject h u now i params
  · cases r with
    | register params => exact flagsKept_register hs h params
    | updateAccount u settings params currentPassword =>
      exact flagsKept_updateAccount hs h u settings params currentPassword
    | updateProject u now i params => exact flagsKept_updateProject hs h u now i params

/-- Passwords kept in the clear, and every address with an `@`. -/
def plainDevise : Devise where
  digest := id
  validPassword := fun stored given => stored == given
  validEmail := fun v => v.contains '@'

/-- The author of a public project, who is no admin. -/
def oneAccount : Accounts where
  db := Database.oneImage "Robot".toList (some "public".toList)
  profile := fun _ => ⟨some "ada@bip".toList, none, "12345678".toList, none, none⟩

/-- The author of the project features it. -/
def featureOwn : AccountRequest := .updateProject 1 5 1 [.featured (some true)]

/-- A guest signs up as an admin. -/
def registerAdmin : AccountRequest :=
  .register [.username "eve".toList, .email (some "eve@bip".toList), .password (some "12345678".toList),
    .admin (some true)]

/-- A user changes the profile page and becomes an admin. -/
def promoteSelf : AccountRequest := .updateAccount 1 false (some [.admin (some true)]) none

/-- Without an admin anywhere, one request is enough to change each of the flags. -/
theorem flags_set_by_parameters :
    (∀ v ∈ oneAccount.db.users.rows, v.admin ≠ some true) ∧
    ¬ FlagsKept oneAccount (Run.after (step plainDevise) ⟨oneAccount, []⟩ [featureOwn]) ∧
    ¬ FlagsKept oneAccount (Run.after (step plainDevise) ⟨oneAccount, []⟩ [registerAdmin]) ∧
    ¬ FlagsKept oneAccount (Run.after (step plainDevise) ⟨oneAccount, []⟩ [promoteSelf]) := by
  refine ⟨by decide +kernel, fun h => ?_, fun h => ?_, fun h => ?_⟩
  · have hbefore : ∃ q ∈ oneAccount.db.projects.rows, q.featured = none := by decide +kernel
    have hafter : (∀ r ∈ (step plainDevise ⟨oneAccount, []⟩ featureOwn).accounts.db.projects.rows,
        r.featured = some true) := by decide +kernel
    obtain ⟨q, hq, hnone⟩ := hbefore
    obtain ⟨r, hr, -, hflag⟩ := h.projects q hq
    have htrue := hafter r hr
    rw [htrue, hnone] at hflag
    rcases hflag with hno | ⟨hno, -⟩
    · cases hno
    · cases hno
  · have hafter : ∃ w ∈ (step plainDevise ⟨oneAccount, []⟩ registerAdmin).accounts.db.users.rows,
        oneAccount.db.users.next ≤ w.id ∧ w.admin = some true := by decide +kernel
    obtain ⟨w, hw, hnew, hadmin⟩ := hafter
    exact h.registered w hw hnew hadmin
  · have hbefore : ∃ v ∈ oneAccount.db.users.rows, v.admin = none := by decide +kernel
    have hafter : ∀ w ∈ (step plainDevise ⟨oneAccount, []⟩ promoteSelf).accounts.db.users.rows,
        w.admin = some true := by decide +kernel
    obtain ⟨v, hv, hnone⟩ := hbefore
    obtain ⟨w, hw, -, hadmin, -⟩ := h.users v hv
    rw [hafter w hw, hnone] at hadmin
    cases hadmin

end Watched
