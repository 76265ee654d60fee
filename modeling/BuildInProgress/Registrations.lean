import BuildInProgress.ProjectsController

/-!
# Accounts

`app/controllers/registrations_controller.rb` and the parts of `app/models/user.rb` behind it: signing up,
and changing one's own account.  The authentication library is a parameter where it computes with
passwords; its validations and the delayed change of an address are written out.  Mails, tokens, settings and
the stamps of a sign-in are left out.
-/

open Text Ancestry

/-- The columns of `users` that the account pages read or write, beside those of `User`. -/
structure Profile where
  email : Option Text
  unconfirmedEmail : Option Text
  encryptedPassword : Text
  provider : Option Text
  banned : Option Bool
  deriving DecidableEq, Repr

structure Accounts where
  db : Database
  profile : Nat → Profile

/-- What the authentication library computes. -/
structure Devise where
  digest : Text → Text
  validPassword : Text → Text → Bool
  validEmail : Text → Bool

/-- A user that parameters are assigned to; the passwords are no columns. -/
structure UserRecord where
  user : User
  profile : Profile
  password : Option Text
  passwordConfirmation : Option Text

/-- `attr_accessible` of `User`; the other names have no reader here. -/
inductive UserAttr where
  | email (v : Option Text)
  | password (v : Option Text)
  | passwordConfirmation (v : Option Text)
  | username (v : Text)
  | provider (v : Option Text)
  | admin (v : Option Bool)
  | banned (v : Option Bool)
  deriving DecidableEq, Repr

namespace UserAttr

def assign (d : Devise) (r : UserRecord) : UserAttr → UserRecord
  | email v => { r with profile := { r.profile with email := v } }
  | password v =>
    { r with
      password := v
      profile := match v.filter (!blank ·) with
        | none => r.profile
        | some w => { r.profile with encryptedPassword := d.digest w } }
  | passwordConfirmation v => { r with passwordConfirmation := v }
  | username v => { r with user := { r.user with username := v } }
  | provider v => { r with profile := { r.profile with provider := v } }
  | admin v => { r with user := { r.user with admin := v } }
  | banned v => { r with profile := { r.profile with banned := v } }

/-- `params[:user][:email]` -/
def emailOf (params : List UserAttr) : Option Text :=
  params.findSome? fun
    | email v => v
    | _ => none

/-- `params[:user][:password]` -/
def passwordOf (params : List UserAttr) : Option Text :=
  params.findSome? fun
    | password v => v
    | _ => none

/-- `delete("password")` and `delete("password_confirmation")` -/
def withoutPassword (params : List UserAttr) : List UserAttr :=
  params.filter fun
    | password _ => false
    | passwordConfirmation _ => false
    | _ => true

end UserAttr

namespace UserRecord

/-- `case_insensitive_keys` and `strip_whitespace_keys` hold the username. -/
def normalized (r : UserRecord) : UserRecord :=
  { r with
    user := { r.user with
      username := ((downcase r.user.username).dropWhile isSpace).rdropWhile isSpace } }

/-- `password_required?`, which asks nothing of a user from another provider. -/
def passwordRequired (persisted : Bool) (r : UserRecord) : Bool :=
  (!persisted || r.password.isSome || r.passwordConfirmation.isSome) && blankColumn r.profile.provider

/-- `email_required?` -/
def emailRequired (r : UserRecord) : Bool := blankColumn r.profile.provider

/-- The rules of `:validatable` for the address, which was `before` so far. -/
def emailValid (d : Devise) (s : Accounts) (before : Option Text) (r : UserRecord) : Bool :=
  match r.profile.email.filter (!blank ·) with
  | none => !r.emailRequired
  | some v =>
    r.profile.email == before || (d.validEmail v &&
      s.db.users.rows.all fun x => x.id == r.user.id || (s.profile x.id).email != some v)

/-- The rules of `:validatable` for the password. -/
def passwordValid (persisted : Bool) (r : UserRecord) : Bool :=
  match r.password.filter (!blank ·) with
  | none => !r.passwordRequired persisted
  | some v =>
    (!r.passwordRequired persisted || r.passwordConfirmation.all (· == v)) && 8 ≤ v.length && v.length ≤ 128

/-- The validations of a user; `before` is the saved profile. -/
def valid (d : Devise) (s : Accounts) (before : Option Profile) (r : UserRecord) : Bool :=
  !blank r.user.username &&
    (s.db.users.rows.all fun x => x.id == r.user.id || x.username != r.user.username) &&
    r.emailValid d s (before.elim (some []) Profile.email) && r.passwordValid before.isSome

end UserRecord

namespace Accounts

/-- The signed-in user.  A banned user is signed out. -/
def signedIn (s : Accounts) (u : Nat) : Option User :=
  (s.db.users.find? u).filter fun user => (s.profile user.id).banned ≠ some true

/-- A new address waits for its confirmation. -/
def postponeEmail (before after : Profile) : Profile :=
  if after.email ≠ before.email ∧ after.email.any (!blank ·) = true then
    { after with email := before.email, unconfirmedEmail := after.email }
  else after

/-- Write the row of `r`. -/
def put (s : Accounts) (r : UserRecord) : Accounts where
  db := { s.db with users := s.db.users.modify r.user.id (fun x => { r.user with id := x.id }) (fun _ => rfl) }
  profile := Function.update s.profile r.user.id (postponeEmail (s.profile r.user.id) r.profile)

/-- The record that `update_attributes` saves. -/
def assigned (d : Devise) (s : Accounts) (u : User) (params : List UserAttr) : UserRecord :=
  (params.foldl (UserAttr.assign d) ⟨u, s.profile u.id, none, none⟩).normalized

/-- `@user.update_attributes` -/
def updateAttributes (d : Devise) (u : User) (params : List UserAttr) (s : Accounts) : Outcome × Accounts :=
  let r := s.assigned d u params
  if r.valid d s (some (s.profile u.id)) then (.ok, s.put r) else (.invalid, s)

/-- `@user.update_with_password`; a user without a password needs none. -/
def updateWithPassword (d : Devise) (u : User) (params : List UserAttr) (currentPassword : Option Text)
    (s : Accounts) : Outcome × Accounts :=
  if blank (s.profile u.id).encryptedPassword then s.updateAttributes d u params
  else if currentPassword.any (d.validPassword (s.profile u.id).encryptedPassword) then
    s.updateAttributes d u params
  else (.invalid, s)

end Accounts

namespace RegistrationsController

open Accounts

/-- `User.new(params[:user])` -/
def newUser (d : Devise) (s : Accounts) (params : List UserAttr) : UserRecord :=
  (params.foldl (UserAttr.assign d)
    ⟨⟨s.db.users.next, [], none⟩, ⟨some [], none, [], none, none⟩, none, none⟩).normalized

/-- `POST /users`, without anybody signed in. -/
def create (d : Devise) (params : List UserAttr) (s : Accounts) : Outcome × Accounts :=
  let r := newUser d s params
  if r.valid d s none then
    (.ok, {
      db := { s.db with users := s.db.users.insert (fun i => { r.user with id := i }) (fun _ => rfl) }
      profile := Function.update s.profile s.db.users.next r.profile })
  else (.invalid, s)

/-- `PUT /users`: the mail settings are submitted together with the address, everything else without them.
`params` is `params[:user]`. -/
def update (d : Devise) (u : Nat) (settings : Bool) (params : Option (List UserAttr))
    (currentPassword : Option Text) (s : Accounts) : Outcome × Accounts :=
  match s.signedIn u with
  | none => (.denied, s)
  | some user =>
    match params with
    | none => (.error, s)
    | some params =>
      if settings then
        if UserAttr.emailOf params = (s.profile user.id).email then (.ok, s)
        else s.updateAttributes d user (UserAttr.withoutPassword params)
      else if blankColumn (UserAttr.passwordOf params) then
        s.updateAttributes d user (UserAttr.withoutPassword params)
      else s.updateWithPassword d user params currentPassword

end RegistrationsController
