import BuildInProgress.Privileges
import BuildInProgress.Lib.Exclusive

/-!
# Signing in

`app/controllers/users/omniauth_callbacks_controller.rb`, the token pages of
`app/controllers/token_authentications_controller.rb` and `app/controllers/sessions_controller.rb`, and the parts of
`app/models/user.rb` behind them.  An account is found again by what another provider knows its owner by, or by its
token.  Each request writes one account, and what it writes says who can take the account of another.  The access
token of the Village, deleted accounts and sessions are left out, and so are confirmations and locks, but where the
mobile page asks for them.
-/

open Text Ancestry

/-- What a provider sends back. -/
structure Auth where
  uid : Text
  name : Text
  email : Text

/-- A user as another provider knows them. -/
structure Identity where
  provider : Text
  uid : Text
  deriving DecidableEq, Repr

namespace Auth

def villageIdentity (auth : Auth) : Identity := ⟨"village".toList, auth.uid⟩

def googleIdentity (auth : Auth) : Identity := ⟨"google_oauth2".toList, auth.uid⟩

end Auth

/-- The accounts with the columns `uid` and `authentication_token`. -/
structure Members where
  accounts : Accounts
  uid : Nat → Option Text
  token : Nat → Option Text

namespace Members

def users (m : Members) : Table User := m.accounts.db.users

/-- `where("provider = ? and uid = ?", provider, uid).first` -/
def withIdentity (m : Members) (a : Identity) : Option User :=
  m.users.rows.find? fun u => (m.accounts.profile u.id).provider = some a.provider ∧ m.uid u.id = some a.uid

/-- `User.where(:authentication_token => token).first`; nil asks for nulls. -/
def withToken (m : Members) (token : Option Text) : Option User := m.users.rows.find? fun u => m.token u.id = token

/-- `User.where(:username => name).first` -/
def withName (m : Members) (name : Text) : Option User := m.users.rows.find? fun u => u.username = name

/-- `User.where(:email => email).first` -/
def withEmail (m : Members) (email : Text) : Option User :=
  m.users.rows.find? fun u => (m.accounts.profile u.id).email = some email

/-- `generate_authentication_token`, and the same loop in the authentication library: draw until nobody has the
token.  Nothing when no draw ends the loop. -/
def generateAuthenticationToken (m : Members) (draws : List Text) : Option Text :=
  draws.find? fun t => (m.withToken (some t)).isNone

def setToken (m : Members) (i : Nat) (t : Text) : Members := { m with token := Function.update m.token i (some t) }

/-- `ensure_authentication_token`, before the user `i` is saved. -/
def ensureAuthenticationToken (m : Members) (draws : List Text) (i : Nat) : Option Members :=
  if blankColumn (m.token i) then (m.generateAuthenticationToken draws).map (m.setToken i) else some m

theorem key_insertUser (r : UserRecord) (i : Nat) : Keyed.key ({ r.user with id := i } : User) = i := rfl

/-- The row of a new user. -/
def insertUser (m : Members) (draws : List Text) (r : UserRecord) (uid : Option Text) : Option Members :=
  (m.generateAuthenticationToken draws).map fun t => {
    accounts := {
      db := { m.accounts.db with
        users := m.users.insert (fun i => { r.user with id := i }) (key_insertUser r) }
      profile := Function.update m.accounts.profile m.users.next r.profile }
    uid := Function.update m.uid m.users.next uid
    token := Function.update m.token m.users.next (some t) }

/-- The user that `first_or_initialize` builds. -/
def initialized (m : Members) (a : Identity) (username email : Text) : UserRecord :=
  UserRecord.normalized
    ⟨⟨m.users.next, username, none⟩, ⟨some email, none, [], some a.provider, none⟩, none, none⟩

/-- `from_village_omniauth` and `from_google_omniauth`, with the id of the user if there is one now. -/
def fromOmniauth (d : Devise) (a : Identity) (username email : Text) (draws : List Text) (m : Members) :
    Option (Option Nat × Members) :=
  match m.withIdentity a with
  | some u => some (some u.id, m)
  | none =>
    let r := m.initialized a username email
    if r.valid d m.accounts none then (m.insertUser draws r (some a.uid)).map (some m.users.next, ·)
    else some (none, m)

/-- `email.split("@").first` -/
def localPart (email : Text) : Option Text := (split '@' email).head?

/-- The account that a Google user is given when none could be made for them. -/
def linkable (m : Members) (email : Text) : Option User :=
  ((localPart email).bind m.withName).or (m.withEmail email)

/-- `existing_user.update_attributes(:provider => "google_oauth2", :uid => auth.uid)` -/
def relink (d : Devise) (u : User) (a : Identity) (draws : List Text) (m : Members) : Option Members :=
  let saved := m.accounts.updateAttributes d u [.provider (some a.provider)]
  if saved.1 = .ok then
    (m.ensureAuthenticationToken draws u.id).map fun m' =>
      { m' with accounts := saved.2, uid := Function.update m'.uid u.id (some a.uid) }
  else some m

end Members

namespace OmniauthCallbacksController

open Members

/-- `village`, with the account that is signed in; without one the browser goes to the registration. -/
def village (d : Devise) (auth : Auth) (draws : List Text) (m : Members) : Option (Option Nat × Members) :=
  match fromOmniauth d auth.villageIdentity auth.name auth.email draws m with
  | none => none
  | some (none, m') => some (none, m')
  -- the access token is saved, and with it the user
  | some (some i, m') => (m'.ensureAuthenticationToken draws i).map (some i, ·)

/-- `google_oauth2`, which signs in the account of the same name or address when it cannot make one. -/
def googleOauth2 (d : Devise) (auth : Auth) (draws : List Text) (m : Members) : Option (Option Nat × Members) :=
  match fromOmniauth d auth.googleIdentity ((localPart auth.email).getD []) auth.email draws m with
  | none => none
  | some (some i, m') => some (some i, m')
  | some (none, m') =>
    match m'.linkable auth.email with
    | none => some (none, m')
    | some u => (relink d u auth.googleIdentity draws m').map (some u.id, ·)

end OmniauthCallbacksController

namespace SessionsController

/-- A user name under `case_insensitive_keys` and `strip_whitespace_keys`. -/
def normalName (name : Text) : Text := ((downcase name).dropWhile isSpace).rdropWhile isSpace

/-- `create`, with the token in the answer. -/
def create (d : Devise) (username password : Text) (draws : List Text) (m : Members) :
    Option (Option Text × Members) :=
  match m.withName (normalName username) with
  | none => some (none, m)
  | some u =>
    if d.validPassword (m.accounts.profile u.id).encryptedPassword password then
      (m.ensureAuthenticationToken draws u.id).map fun m' => (m'.token u.id, m')
    else some (none, m)

end SessionsController

namespace TokenAuthenticationsController

/-- `create` -/
def create (u : Nat) (draws : List Text) (m : Members) : Option Members :=
  match m.accounts.signedIn u with
  | none => some m
  | some user => (m.generateAuthenticationToken draws).map (m.setToken user.id)

/-- `destroy`: the user is saved without a token, and gets a new one on the way. -/
def destroy (d : Devise) (u : Nat) (draws : List Text) (m : Members) : Option Members :=
  match m.accounts.signedIn u with
  | none => some m
  | some user =>
    let saved := m.accounts.updateAttributes d user []
    if saved.1 = .ok then
      (m.generateAuthenticationToken draws).map fun t => { m.setToken user.id t with accounts := saved.2 }
    else some m

end TokenAuthenticationsController

/-- The requests that write accounts; `uid` is the one among the parameters. -/
inductive MemberRequest where
  | village (auth : Auth) (draws : List Text)
  | google (auth : Auth) (draws : List Text)
  | register (params : List UserAttr) (uid : Option Text) (draws : List Text)
  | edit (u : Nat) (settings : Bool) (params : Option (List UserAttr)) (uid : Option (Option Text))
      (currentPassword : Option Text) (draws : List Text)
  | logIn (username password : Text) (draws : List Text)
  | createToken (u : Nat) (draws : List Text)
  | destroyToken (u : Nat) (draws : List Text)

namespace MemberRequest

open Members

/-- `POST /users` -/
def registerUser (d : Devise) (params : List UserAttr) (uid : Option Text) (draws : List Text) (m : Members) :
    Option Members :=
  let r := RegistrationsController.newUser d m.accounts params
  if r.valid d m.accounts none then m.insertUser draws r uid else some m

/-- `PUT /users` -/
def editUser (d : Devise) (u : Nat) (settings : Bool) (params : Option (List UserAttr)) (uid : Option (Option Text))
    (currentPassword : Option Text) (draws : List Text) (m : Members) : Option Members :=
  match RegistrationsController.saves d u settings params currentPassword m.accounts with
  | none => some m
  | some (user, _) =>
    (m.ensureAuthenticationToken draws user.id).map fun m' =>
      { m' with
        accounts := (RegistrationsController.update d u settings params currentPassword m.accounts).2
        uid := Function.update m'.uid user.id (uid.getD (m'.uid user.id)) }

/-- What the request leaves, if it ends. -/
def perform (d : Devise) (m : Members) : MemberRequest → Option Members
  | village auth draws => (OmniauthCallbacksController.village d auth draws m).map (·.2)
  | google auth draws => (OmniauthCallbacksController.googleOauth2 d auth draws m).map (·.2)
  | register params uid draws => registerUser d params uid draws m
  | edit u settings params uid currentPassword draws => editUser d u settings params uid currentPassword draws m
  | logIn username password draws => (SessionsController.create d username password draws m).map (·.2)
  | createToken u draws => TokenAuthenticationsController.create u draws m
  | destroyToken u draws => TokenAuthenticationsController.destroy d u draws m

def step (d : Devise) (m : Members) (r : MemberRequest) : Members := (r.perform d m).getD m

end MemberRequest

/-- What the authentication library reads of an account beside its profile. -/
structure Standing where
  /-- `confirmed?` -/
  confirmed : Nat → Bool
  /-- `access_locked?` -/
  locked : Nat → Bool

namespace Members

/-- `active_for_authentication?` -/
def active (st : Standing) (m : Members) (u : User) : Bool :=
  st.confirmed u.id && !st.locked u.id && (m.accounts.profile u.id).banned != some true

/-- `current_user`, for the account that the session holds and the parameter `auth_token`, which is the token key of the
authentication library.  The session comes first.  A locked account is not signed in by its token, and whoever is signed
in to an account that is not active is thrown out of the request. -/
def currentUser (st : Standing) (session : Option Nat) (authToken : Option Text) (m : Members) : Option (Option User) :=
  match session.bind m.users.find? with
  | some user => if m.active st user then some (some user) else none
  | none =>
    match (authToken.filter (!blank ·)).bind fun t => m.withToken (some t) with
    | none => some none
    | some user =>
      if st.locked user.id then some none else if m.active st user then some (some user) else none

end Members

namespace StepsController

/-- `mobile`: whether the page opens.  Without a `tree_width` the browser is sent back for one. -/
def mobile (st : Standing) (p : Nat) (treeWidth : Option Text) (session : Option Nat) (authToken : Option Text)
    (m : Members) : Bool :=
  match m.currentUser st session authToken with
  | none => false
  | some currentUser =>
    (m.accounts.db.projects.find? p).isSome && !blankColumn treeWidth &&
      ((m.withToken authToken).any (fun user => m.accounts.db.author p user.id) ||
        currentUser.any fun user => m.accounts.db.author p user.id || user.isAdmin)

end StepsController

/-! ## What is looked up -/

namespace Members

variable {d : Devise} {m m' : Members} {a b : Identity} {draws : List Text} {t : Text} {i j : Nat} {u : User}

def ids (m : Members) (i : Nat) : Prop := i ∈ m.users.rows.map User.id

/-- The columns `provider` and `uid`. -/
def identity (m : Members) (i : Nat) : Option Text × Option Text := ((m.accounts.profile i).provider, m.uid i)

/-- Of all accounts, `i` alone is that of the identity. -/
def Linked (m : Members) (a : Identity) (i : Nat) : Prop :=
  Holdings.Sole m.ids m.identity i (some a.provider, some a.uid)

/-- Of all accounts, `i` alone has the token. -/
def Bears (m : Members) (t : Text) (i : Nat) : Prop := Holdings.Sole m.ids m.token i (some t)

theorem ids_of_mem (h : u ∈ m.users.rows) : m.ids u.id := List.mem_map_of_mem h

theorem lt_next_of_ids (h : m.ids i) : i < m.users.next := by
  obtain ⟨u, hu, rfl⟩ := List.mem_map.mp h
  exact (m.users.bound u hu).2

/-- Searching the accounts by what a column holds. -/
theorem find?_none_iff {ν : Type} [DecidableEq ν] {f : Nat → ν} {v : ν} :
    m.users.rows.find? (fun u => decide (f u.id = v)) = none ↔ Holdings.Vacant m.ids f v := by
  rw [List.find?_eq_none]
  constructor
  · intro h j hj
    obtain ⟨u, hu, rfl⟩ := List.mem_map.mp hj
    simpa using h u hu
  · intro h u hu
    simpa using h u.id (ids_of_mem hu)

theorem find?_of_sole {ν : Type} [DecidableEq ν] {f : Nat → ν} {v : ν} (h : Holdings.Sole m.ids f i v) :
    ∃ u ∈ m.users.rows, m.users.rows.find? (fun u => decide (f u.id = v)) = some u ∧ u.id = i := by
  cases hfind : m.users.rows.find? (fun u => decide (f u.id = v)) with
  | none => exact absurd ((h.2 i h.1).mpr rfl) (find?_none_iff.mp hfind i h.1)
  | some u =>
    have hu := List.mem_of_find?_eq_some hfind
    have hv : f u.id = v := by simpa using List.find?_some hfind
    exact ⟨u, hu, rfl, (h.2 u.id (ids_of_mem hu)).mp hv⟩

theorem withIdentity_eq (m : Members) (a : Identity) : m.withIdentity a =
    m.users.rows.find? fun u => decide (m.identity u.id = (some a.provider, some a.uid)) := by
  simp only [withIdentity, identity, Prod.mk.injEq]

theorem free_of_generate (h : m.generateAuthenticationToken draws = some t) :
    Holdings.Vacant m.ids m.token (some t) ∧ t ∈ draws := by
  have hnone := List.find?_some h
  rw [Option.isNone_iff_eq_none, withToken] at hnone
  exact ⟨find?_none_iff.mp hnone, List.mem_of_find?_eq_some h⟩

/-! ## What is written -/

/-- The accounts of `m'` are those of `m`, and `j`. -/
def Adds (m m' : Members) (j : Nat) : Prop := ∀ k, m'.ids k ↔ k = j ∨ m.ids k

theorem adds_of_ids_eq (h : m'.ids = m.ids) (hj : m.ids j) : Adds m m' j := by
  intro k
  rw [h]
  exact ⟨Or.inr, fun hk => hk.elim (fun e => e ▸ hj) id⟩

/-- A change of the two columns of one account. -/
theorem identity_update {provider uid : Option Text}
    (hprovider : ∀ k, (m'.accounts.profile k).provider =
      Function.update (fun k => (m.accounts.profile k).provider) j provider k)
    (huid : m'.uid = Function.update m.uid j uid) : m'.identity = Function.update m.identity j (provider, uid) := by
  funext k
  rw [identity, hprovider, huid]
  by_cases hk : k = j
  · rw [hk, Function.update_self, Function.update_self, Function.update_self]
  · rw [Function.update_of_ne hk, Function.update_of_ne hk, Function.update_of_ne hk, identity]

theorem insertUser_adds {r : UserRecord} {uid : Option Text} (h : m.insertUser draws r uid = some m') :
    Adds m m' m.users.next ∧ m'.identity = Function.update m.identity m.users.next (r.profile.provider, uid) ∧
      ∃ t, m.generateAuthenticationToken draws = some t ∧
        m'.token = Function.update m.token m.users.next (some t) := by
  obtain ⟨t, ht, rfl⟩ := Option.map_eq_some_iff.mp h
  refine ⟨fun k => ?_, ?_, t, ht, rfl⟩
  · rw [ids, users, Table.rows_insert, List.map_append, List.mem_append, List.map_singleton, List.mem_singleton,
      or_comm]
    rfl
  · exact identity_update (Function.apply_update (fun _ => Profile.provider) _ _ _) rfl

theorem ensure_eq (h : m.ensureAuthenticationToken draws j = some m') :
    m' = m ∨ blankColumn (m.token j) = true ∧ ∃ t, m.generateAuthenticationToken draws = some t ∧
      m' = m.setToken j t := by
  rw [ensureAuthenticationToken] at h
  by_cases hblank : blankColumn (m.token j) = true
  · rw [if_pos hblank] at h
    obtain ⟨t, ht, rfl⟩ := Option.map_eq_some_iff.mp h
    exact Or.inr ⟨hblank, t, ht, rfl⟩
  · rw [if_neg hblank, Option.some.injEq] at h
    exact Or.inl h.symm

end Members

namespace Accounts

/-- `put` writes the row of one user. -/
theorem map_id_put (s : Accounts) (r : UserRecord) :
    (s.put r).db.users.rows.map User.id = s.db.users.rows.map User.id := by
  rw [Watched.rows_put, List.map_map]
  apply List.map_congr_left
  intro w _
  rw [Function.comp]
  split
  · rename_i h
    exact h.symm
  · rfl

theorem provider_put (s : Accounts) (r : UserRecord) (k : Nat) : ((s.put r).profile k).provider =
    Function.update (fun k => (s.profile k).provider) r.user.id r.profile.provider k := by
  rw [put]
  dsimp only
  by_cases hk : k = r.user.id
  · rw [hk, Function.update_self, Function.update_self, postponeEmail]
    split
    · rfl
    · rfl
  · rw [Function.update_of_ne hk, Function.update_of_ne hk]

end Accounts

namespace UserAttr

/-- The provider after the parameters. -/
def providerAfter (v : Option Text) (params : List UserAttr) : Option Text :=
  params.foldl (fun v a => match a with
    | provider w => w
    | _ => v) v

theorem provider_foldl_assign (d : Devise) (r : UserRecord) (params : List UserAttr) :
    (params.foldl (assign d) r).profile.provider = providerAfter r.profile.provider params := by
  induction params generalizing r with
  | nil => rfl
  | cons a params ih =>
    rw [List.foldl_cons, ih (assign d r a), providerAfter, providerAfter, List.foldl_cons]
    cases a with
    | password v =>
      rw [assign]
      dsimp only
      split
      · rfl
      · rfl
    | _ => rfl

end UserAttr

theorem Members.ids_put {m m' : Members} {record : UserRecord} (h : m'.accounts = m.accounts.put record) :
    m'.ids = m.ids := by
  funext k
  rw [ids, users, h, Accounts.map_id_put]
  rfl

/-! ## What the requests do -/

section Cases

open Members

variable {d : Devise} {m m' : Members} {b : Identity} {draws : List Text} {u : User} {name email : Text}

namespace Accounts

theorem updateAttributes_cases (d : Devise) (u : User) (params : List UserAttr) (s : Accounts) :
    (s.updateAttributes d u params = (.ok, s.put (s.assigned d u params))) ∨
      s.updateAttributes d u params = (.invalid, s) := by
  rw [updateAttributes]
  split
  · exact Or.inl rfl
  · exact Or.inr rfl

end Accounts

namespace Members

theorem fromOmniauth_cases {o : Option Nat} (h : fromOmniauth d b name email draws m = some (o, m')) :
    (∃ u, m.withIdentity b = some u ∧ o = some u.id ∧ m' = m) ∨
      m.withIdentity b = none ∧
        ((m.initialized b name email).valid d m.accounts none = true ∧ o = some m.users.next ∧
            m.insertUser draws (m.initialized b name email) (some b.uid) = some m' ∨
          (m.initialized b name email).valid d m.accounts none = false ∧ o = none ∧ m' = m) := by
  rw [fromOmniauth] at h
  cases hb : m.withIdentity b with
  | some u =>
    rw [hb] at h
    obtain ⟨rfl, rfl⟩ := Prod.mk.inj (Option.some.inj h)
    exact Or.inl ⟨u, rfl, rfl, rfl⟩
  | none =>
    rw [hb] at h
    dsimp only at h
    refine Or.inr ⟨rfl, ?_⟩
    by_cases hvalid : (m.initialized b name email).valid d m.accounts none = true
    · rw [if_pos hvalid] at h
      obtain ⟨m₁, hinsert, hpair⟩ := Option.map_eq_some_iff.mp h
      obtain ⟨rfl, rfl⟩ := Prod.mk.inj hpair
      exact Or.inl ⟨hvalid, rfl, hinsert⟩
    · rw [if_neg hvalid] at h
      obtain ⟨rfl, rfl⟩ := Prod.mk.inj (Option.some.inj h)
      exact Or.inr ⟨Bool.eq_false_of_not_eq_true hvalid, rfl, rfl⟩

theorem linkable_mem (h : m.linkable email = some u) : u ∈ m.users.rows := by
  rw [linkable, Option.or_eq_some_iff] at h
  rcases h with h | ⟨-, h⟩
  · obtain ⟨name, -, h⟩ := Option.bind_eq_some_iff.mp h
    exact List.mem_of_find?_eq_some h
  · exact List.mem_of_find?_eq_some h

theorem relink_cases (h : relink d u b draws m = some m') :
    (m.accounts.updateAttributes d u [.provider (some b.provider)]).1 ≠ .ok ∧ m' = m ∨
      (m.accounts.updateAttributes d u [.provider (some b.provider)]).1 = .ok ∧
        ∃ m₁, m.ensureAuthenticationToken draws u.id = some m₁ ∧
          m' = { m₁ with
            accounts := m.accounts.put (m.accounts.assigned d u [.provider (some b.provider)])
            uid := Function.update m₁.uid u.id (some b.uid) } := by
  rw [relink] at h
  rcases m.accounts.updateAttributes_cases d u [.provider (some b.provider)] with hsaved | hsaved
  · rw [hsaved] at h ⊢
    obtain ⟨m₁, hensure, rfl⟩ := Option.map_eq_some_iff.mp h
    exact Or.inr ⟨rfl, m₁, hensure, rfl⟩
  · rw [hsaved] at h ⊢
    exact Or.inl ⟨(fun hok => by cases hok), (Option.some.inj h).symm⟩

end Members

namespace OmniauthCallbacksController

theorem village_cases {auth : Auth} {o : Option Nat} (h : village d auth draws m = some (o, m')) :
    ∃ m₁, fromOmniauth d auth.villageIdentity auth.name auth.email draws m = some (o, m₁) ∧
      (m' = m₁ ∨ ∃ j, o = some j ∧ m₁.ensureAuthenticationToken draws j = some m') := by
  rw [village] at h
  split at h
  · cases h
  · rename_i m₁ hfrom
    obtain ⟨rfl, rfl⟩ := Prod.mk.inj (Option.some.inj h)
    exact ⟨m₁, hfrom, Or.inl rfl⟩
  · rename_i j m₁ hfrom
    obtain ⟨m₂, hensure, hpair⟩ := Option.map_eq_some_iff.mp h
    obtain ⟨rfl, rfl⟩ := Prod.mk.inj hpair
    exact ⟨m₁, hfrom, Or.inr ⟨j, rfl, hensure⟩⟩

theorem google_cases {auth : Auth} {o : Option Nat} (h : googleOauth2 d auth draws m = some (o, m')) :
    ∃ o₁ m₁, fromOmniauth d auth.googleIdentity ((localPart auth.email).getD []) auth.email draws m = some (o₁, m₁) ∧
      ((∃ j, o₁ = some j ∧ m' = m₁) ∨ o₁ = none ∧ (m₁.linkable auth.email = none ∧ m' = m₁ ∨
        ∃ u, m₁.linkable auth.email = some u ∧ relink d u auth.googleIdentity draws m₁ = some m')) := by
  rw [googleOauth2] at h
  split at h
  · cases h
  · rename_i j m₁ hfrom
    obtain ⟨-, rfl⟩ := Prod.mk.inj (Option.some.inj h)
    exact ⟨some j, m₁, hfrom, Or.inl ⟨j, rfl, rfl⟩⟩
  · rename_i m₁ hfrom
    refine ⟨none, m₁, hfrom, Or.inr ⟨rfl, ?_⟩⟩
    split at h
    · rename_i hnone
      obtain ⟨-, rfl⟩ := Prod.mk.inj (Option.some.inj h)
      exact Or.inl ⟨hnone, rfl⟩
    · rename_i u hu
      obtain ⟨m₂, hrelink, hpair⟩ := Option.map_eq_some_iff.mp h
      obtain ⟨-, rfl⟩ := Prod.mk.inj hpair
      exact Or.inr ⟨u, hu, hrelink⟩

end OmniauthCallbacksController

theorem SessionsController.create_cases {username password : Text} {o : Option Text}
    (h : create d username password draws m = some (o, m')) :
    m' = m ∨ ∃ u ∈ m.users.rows, m.ensureAuthenticationToken draws u.id = some m' := by
  rw [create] at h
  split at h
  · exact Or.inl (Prod.mk.inj (Option.some.inj h)).2.symm
  · rename_i u hfind
    split at h
    · obtain ⟨m₁, hensure, hpair⟩ := Option.map_eq_some_iff.mp h
      exact Or.inr ⟨u, List.mem_of_find?_eq_some hfind, (Prod.mk.inj hpair).2 ▸ hensure⟩
    · exact Or.inl (Prod.mk.inj (Option.some.inj h)).2.symm

namespace TokenAuthenticationsController

theorem create_cases {u : Nat} (h : create u draws m = some m') :
    m.accounts.signedIn u = none ∧ m' = m ∨
      ∃ user t, m.accounts.signedIn u = some user ∧ m.generateAuthenticationToken draws = some t ∧
        m' = m.setToken user.id t := by
  rw [create] at h
  split at h
  · rename_i hnone
    exact Or.inl ⟨hnone, (Option.some.inj h).symm⟩
  · rename_i user hin
    obtain ⟨t, ht, rfl⟩ := Option.map_eq_some_iff.mp h
    exact Or.inr ⟨user, t, hin, ht, rfl⟩

theorem destroy_cases {u : Nat} (h : destroy d u draws m = some m') :
    (∀ user, m.accounts.signedIn u = some user → (m.accounts.updateAttributes d user []).1 ≠ .ok) ∧ m' = m ∨
      ∃ user t, m.accounts.signedIn u = some user ∧ (m.accounts.updateAttributes d user []).1 = .ok ∧
        m.generateAuthenticationToken draws = some t ∧
        m' = { m.setToken user.id t with accounts := m.accounts.put (m.accounts.assigned d user []) } := by
  rw [destroy] at h
  split at h
  · rename_i hnone
    refine Or.inl ⟨fun user hin => ?_, (Option.some.inj h).symm⟩
    rw [hnone] at hin
    cases hin
  · rename_i user hin
    rcases m.accounts.updateAttributes_cases d user [] with hsaved | hsaved
    · rw [hsaved] at h
      obtain ⟨t, ht, rfl⟩ := Option.map_eq_some_iff.mp h
      exact Or.inr ⟨user, t, hin, by rw [hsaved], ht, rfl⟩
    · rw [hsaved] at h
      refine Or.inl ⟨fun user' hin' hok => ?_, (Option.some.inj h).symm⟩
      rw [hin, Option.some.injEq] at hin'
      rw [← hin', hsaved] at hok
      cases hok

end TokenAuthenticationsController

namespace MemberRequest

theorem register_cases {params : List UserAttr} {uid : Option Text} (h : registerUser d params uid draws m = some m') :
    (RegistrationsController.newUser d m.accounts params).valid d m.accounts none = false ∧ m' = m ∨
      (RegistrationsController.newUser d m.accounts params).valid d m.accounts none = true ∧
        m.insertUser draws (RegistrationsController.newUser d m.accounts params) uid = some m' := by
  rw [registerUser] at h
  by_cases hvalid : (RegistrationsController.newUser d m.accounts params).valid d m.accounts none = true
  · rw [if_pos hvalid] at h
    exact Or.inr ⟨hvalid, h⟩
  · rw [if_neg hvalid, Option.some.injEq] at h
    exact Or.inl ⟨Bool.eq_false_of_not_eq_true hvalid, h.symm⟩

theorem edit_cases {n : Nat} {settings : Bool} {params : Option (List UserAttr)} {uid : Option (Option Text)}
    {currentPassword : Option Text} (h : editUser d n settings params uid currentPassword draws m = some m') :
    RegistrationsController.saves d n settings params currentPassword m.accounts = none ∧ m' = m ∨
      ∃ user given m₁,
        RegistrationsController.saves d n settings params currentPassword m.accounts = some (user, given) ∧
          user ∈ m.users.rows ∧ m.ensureAuthenticationToken draws user.id = some m₁ ∧
          m' = { m₁ with
            accounts := m.accounts.put (m.accounts.assigned d user given)
            uid := Function.update m₁.uid user.id (uid.getD (m₁.uid user.id)) } := by
  rw [editUser] at h
  rcases RegistrationsController.update_saves d n settings params currentPassword m.accounts with
    ⟨hsaves, -⟩ | ⟨user, given, hsaves, hin, haccounts⟩
  · rw [hsaves, Option.some.injEq] at h
    exact Or.inl ⟨hsaves, h.symm⟩
  · rw [hsaves, haccounts] at h
    obtain ⟨m₁, hensure, rfl⟩ := Option.map_eq_some_iff.mp h
    exact Or.inr ⟨user, given, m₁, hsaves, Watched.signedIn_mem hin, hensure, rfl⟩

end MemberRequest

end Cases

/-! ## Who is found by another provider -/

namespace MemberRequest

open Members

variable {d : Devise} {m m' : Members} {a b : Identity} {draws : List Text} {i j : Nat} {o : Option Nat}
  {name email : Text} {r : MemberRequest}

/-- The request takes the account `i` from the owner that comes with the identity `a`, or gives another account to
them as well.  A Google user takes it when no account can be made for them and it is linkable; the account pages do
when the two columns are among their parameters. -/
def Takes (d : Devise) (a : Identity) (i : Nat) (m : Members) : MemberRequest → Prop
  | google auth _ => m.withIdentity auth.googleIdentity = none ∧
      (m.initialized auth.googleIdentity ((localPart auth.email).getD []) auth.email).valid d m.accounts none = false ∧
      ∃ u, m.linkable auth.email = some u ∧ u.id = i ∧
        (m.accounts.updateAttributes d u [.provider (some auth.googleIdentity.provider)]).1 = .ok
  | register params uid _ => (RegistrationsController.newUser d m.accounts params).valid d m.accounts none = true ∧
      (UserAttr.providerAfter none params, uid) = (some a.provider, some a.uid)
  | edit u settings params uid currentPassword _ => ∃ user given,
      RegistrationsController.saves d u settings params currentPassword m.accounts = some (user, given) ∧
        ¬ ((UserAttr.providerAfter (m.accounts.profile user.id).provider given, uid.getD (m.uid user.id)) =
          (some a.provider, some a.uid) ↔ user.id = i)
  | village _ _ | logIn _ _ _ | createToken _ _ | destroyToken _ _ => False

/-- Who is not found has not the identity of a link. -/
theorem ne_of_linked (hm : m.Linked a i) (hb : m.withIdentity b = none) :
    (some b.provider, some b.uid) ≠ (some a.provider, some a.uid) := by
  intro hab
  rw [withIdentity_eq, find?_none_iff, hab] at hb
  exact hb i hm.1 ((hm.2 i hm.1).mpr rfl)

theorem linked_ensure (h : m.ensureAuthenticationToken draws j = some m') : m'.Linked a i ↔ m.Linked a i := by
  rcases ensure_eq h with rfl | ⟨-, t, -, rfl⟩
  · exact Iff.rfl
  · exact Iff.rfl

/-- A newcomer leaves the links of the others. -/
theorem linked_fromOmniauth (hm : m.Linked a i) (h : fromOmniauth d b name email draws m = some (o, m')) :
    m'.Linked a i := by
  rcases fromOmniauth_cases h with ⟨u, -, -, rfl⟩ | ⟨hb, ⟨-, -, hinsert⟩ | ⟨-, -, rfl⟩⟩
  · exact hm
  · obtain ⟨hadds, hidentity, -⟩ := insertUser_adds hinsert
    rw [Linked, hidentity, Holdings.Sole.update_iff hm hadds]
    exact iff_of_false (ne_of_linked hm hb) (lt_next_of_ids hm.1).ne'
  · exact hm

/-- Saving parameters of an account, with another uid. -/
theorem linked_put {m₁ : Members} {record : UserRecord} {uid : Option Text} (hm : m.Linked a i) (hj : m.ids j)
    (hrecord : record.user.id = j) (h : m.ensureAuthenticationToken draws j = some m₁) :
    ({ m₁ with accounts := m.accounts.put record, uid := Function.update m₁.uid j uid } : Members).Linked a i ↔
      ((record.profile.provider, uid) = (some a.provider, some a.uid) ↔ j = i) := by
  have huid : m₁.uid = m.uid := by
    rcases ensure_eq h with rfl | ⟨-, t, -, rfl⟩
    · rfl
    · rfl
  have hidentity : Members.identity
      ({ m₁ with accounts := m.accounts.put record, uid := Function.update m₁.uid j uid } : Members) =
        Function.update m.identity j (record.profile.provider, uid) := by
    refine identity_update (fun k => ?_) (by rw [huid])
    show ((m.accounts.put record).profile k).provider = _
    rw [Accounts.provider_put, hrecord]
  rw [Linked, hidentity, Holdings.Sole.update_iff hm (adds_of_ids_eq (ids_put rfl) hj)]

theorem linked_google {auth : Auth} (hm : m.Linked a i)
    (h : OmniauthCallbacksController.googleOauth2 d auth draws m = some (o, m')) :
    m'.Linked a i ↔ ¬ (google auth draws).Takes d a i m := by
  rw [Takes]
  obtain ⟨o₁, m₁, hfrom, hrest⟩ := OmniauthCallbacksController.google_cases h
  rcases fromOmniauth_cases hfrom with ⟨u, hfound, ho, hm₁⟩ | ⟨hb, ⟨hvalid, ho, -⟩ | ⟨hinvalid, ho, hm₁⟩⟩
  · rcases hrest with ⟨j, -, rfl⟩ | ⟨hnone, -⟩
    · refine iff_of_true (linked_fromOmniauth hm hfrom) fun hno => ?_
      rw [hfound] at hno
      cases hno.1
    · rw [ho] at hnone
      cases hnone
  · rcases hrest with ⟨j, -, rfl⟩ | ⟨hnone, -⟩
    · refine iff_of_true (linked_fromOmniauth hm hfrom) fun hno => ?_
      rw [hvalid] at hno
      cases hno.2.1
    · rw [ho] at hnone
      cases hnone
  · rcases hrest with ⟨j, hsome, -⟩ | ⟨-, hrest⟩
    · rw [ho] at hsome
      cases hsome
    · subst hm₁
      rw [and_iff_right hb, and_iff_right hinvalid]
      rcases hrest with ⟨hnone, rfl⟩ | ⟨u, hu, hrelink⟩
      · refine iff_of_true hm fun ⟨u, hu, _⟩ => ?_
        rw [hnone] at hu
        cases hu
      · -- the account is that of another identity from now on
        rcases relink_cases hrelink with ⟨hnot, rfl⟩ | ⟨hsaved, m₂, hensure, rfl⟩
        · refine iff_of_true hm fun ⟨w, hw, _, hok⟩ => ?_
          rw [hu, Option.some.injEq] at hw
          exact hnot (hw ▸ hok)
        · have hid : (m₁.accounts.assigned d u [.provider (some auth.googleIdentity.provider)]).user.id = u.id :=
            (Accounts.assigned_flags d m₁.accounts u _).1
          rw [linked_put hm (ids_of_mem (linkable_mem hu)) hid hensure]
          constructor
          · intro hiff hno
            obtain ⟨w, hw, hwi, -⟩ := hno
            rw [hu, Option.some.injEq] at hw
            exact ne_of_linked hm hb (hiff.mpr (hw ▸ hwi))
          · intro hnot
            exact iff_of_false (ne_of_linked hm hb) fun hui => hnot ⟨u, hu, hui, hsaved⟩

theorem linked_register {params : List UserAttr} {uid : Option Text} (hm : m.Linked a i)
    (h : registerUser d params uid draws m = some m') :
    m'.Linked a i ↔ ¬ (register params uid draws).Takes d a i m := by
  rw [Takes]
  rcases register_cases h with ⟨hinvalid, rfl⟩ | ⟨hvalid, hinsert⟩
  · refine iff_of_true hm fun hno => ?_
    rw [hno.1] at hinvalid
    cases hinvalid
  · obtain ⟨hadds, hidentity, -⟩ := insertUser_adds hinsert
    have hprovider : (RegistrationsController.newUser d m.accounts params).profile.provider =
        UserAttr.providerAfter none params := UserAttr.provider_foldl_assign d _ params
    rw [Linked, hidentity, Holdings.Sole.update_iff hm hadds, hprovider, and_iff_right hvalid]
    -- the new account is not `i`
    exact iff_false_right (lt_next_of_ids hm.1).ne'

theorem linked_edit {n : Nat} {settings : Bool} {params : Option (List UserAttr)} {uid : Option (Option Text)}
    {currentPassword : Option Text} (hm : m.Linked a i)
    (h : editUser d n settings params uid currentPassword draws m = some m') :
    m'.Linked a i ↔ ¬ (edit n settings params uid currentPassword draws).Takes d a i m := by
  rw [Takes]
  rcases edit_cases h with ⟨hnone, rfl⟩ | ⟨user, given, m₁, hsaves, huser, hensure, rfl⟩
  · refine iff_of_true hm fun ⟨user, given, hsaves, _⟩ => ?_
    rw [hnone] at hsaves
    cases hsaves
  · have huid : m₁.uid user.id = m.uid user.id := by
      rcases ensure_eq hensure with rfl | ⟨-, t, -, rfl⟩
      · rfl
      · rfl
    have hprovider : (m.accounts.assigned d user given).profile.provider =
        UserAttr.providerAfter (m.accounts.profile user.id).provider given :=
      UserAttr.provider_foldl_assign d _ given
    rw [linked_put hm (ids_of_mem huser) (Accounts.assigned_flags d _ _ _).1 hensure, hprovider, huid]
    constructor
    · intro hkept hno
      obtain ⟨user', given', hsaves', htaken⟩ := hno
      rw [hsaves, Option.some.injEq, Prod.mk.injEq] at hsaves'
      obtain ⟨rfl, rfl⟩ := hsaves'
      exact htaken hkept
    · intro hkept
      exact not_not.mp fun htaken => hkept ⟨user, given, hsaves, htaken⟩

/-- One request: `i` stays linked to `a` exactly when it does not take the account. -/
theorem linked_perform_iff (hm : m.Linked a i) (h : r.perform d m = some m') : m'.Linked a i ↔ ¬ r.Takes d a i m := by
  cases r with
  | village auth draws =>
    refine iff_of_true ?_ id
    obtain ⟨⟨o, m₁⟩, hvillage, rfl⟩ := Option.map_eq_some_iff.mp h
    obtain ⟨m₂, hfrom, rfl | ⟨j, -, hensure⟩⟩ := OmniauthCallbacksController.village_cases hvillage
    · exact linked_fromOmniauth hm hfrom
    · exact (linked_ensure hensure).mpr (linked_fromOmniauth hm hfrom)
  | google auth draws =>
    obtain ⟨⟨o, m₁⟩, hgoogle, rfl⟩ := Option.map_eq_some_iff.mp h
    exact linked_google hm hgoogle
  | register params uid draws => exact linked_register hm h
  | edit u settings params uid currentPassword draws => exact linked_edit hm h
  | logIn username password draws =>
    refine iff_of_true ?_ id
    obtain ⟨⟨o, m₁⟩, hcreate, rfl⟩ := Option.map_eq_some_iff.mp h
    rcases SessionsController.create_cases hcreate with rfl | ⟨u, -, hensure⟩
    · exact hm
    · exact (linked_ensure hensure).mpr hm
  | createToken u draws =>
    refine iff_of_true ?_ id
    rcases TokenAuthenticationsController.create_cases h with ⟨-, rfl⟩ | ⟨user, t, -, -, rfl⟩
    · exact hm
    · exact hm
  | destroyToken u draws =>
    refine iff_of_true ?_ id
    rcases TokenAuthenticationsController.destroy_cases h with ⟨-, rfl⟩ | ⟨user, t, hin, -, -, rfl⟩
    · exact hm
    · -- the provider is written back
      have hsame : Members.identity { m.setToken user.id t with
          accounts := m.accounts.put (m.accounts.assigned d user []) } = m.identity := by
        have hself : Function.update m.identity user.id (m.identity user.id) = m.identity := Function.update_eq_self _ _
        rw [← hself]
        refine identity_update (fun k => ?_) (Function.update_eq_self _ _).symm
        show ((m.accounts.put _).profile k).provider = _
        rw [Accounts.provider_put, (Accounts.assigned_flags d m.accounts user []).1]
        exact congrArg (Function.update _ _ · k) (UserAttr.provider_foldl_assign d _ [])
      rw [Linked, hsame, ids_put rfl]
      exact hm

/-- In a run of requests the account `i` stays the only one of who comes with the identity `a` exactly when no
request that ends takes it.  In between, whoever comes with `a` is signed in as `i`. -/
theorem identity_kept_iff (d : Devise) (a : Identity) (i : Nat) (m₀ : Members) (h : m₀.Linked a i)
    (rs : List MemberRequest) :
    ((∀ n, (Run.after (step d) m₀ (rs.take n)).Linked a i) ↔
      Run.Along (step d) (fun m r => r.Takes d a i m → r.perform d m = none) m₀ rs) ∧
    ∀ m : Members, m.Linked a i → ∀ name email draws, fromOmniauth d a name email draws m = some (some i, m) := by
  constructor
  · refine Run.along_iff_forall_take (A := fun _ _ => True) (I := fun m : Members => m.Linked a i) (J := fun _ => True)
      (fun _ _ _ _ => trivial) (fun m r _ hm _ => ?_) trivial h (.of_forall fun _ _ => trivial)
    rw [step]
    cases hperform : r.perform d m with
    | none => exact iff_of_true (fun _ => rfl) hm
    | some m' =>
      rw [Option.getD_some, linked_perform_iff hm hperform]
      exact ⟨fun hno htakes => (by cases hno htakes), fun hno htakes => absurd htakes hno⟩
  · intro m hm name email draws
    obtain ⟨u, -, hfind, hui⟩ := find?_of_sole hm
    rw [fromOmniauth, withIdentity_eq, hfind]
    dsimp only
    rw [hui]

/-- The author of a project, who has come with a Google account. -/
def googleAuthor : Members where
  accounts := { Watched.oneAccount with
    profile := fun _ => ⟨some "ada@bip".toList, none, "12345678".toList, some "google_oauth2".toList, none⟩ }
  uid := fun _ => some "1".toList
  token := fun _ => some "a".toList

theorem sole_googleAuthor {ν : Type} {f : Nat → ν} : Holdings.Sole googleAuthor.ids f 1 (f 1) := by
  refine ⟨List.mem_singleton.mpr rfl, fun j hj => ?_⟩
  rw [show j = 1 from List.mem_singleton.mp hj]
  exact iff_of_true rfl rfl

/-- Another Google user, whose address begins with the name of the author. -/
def secondAda : MemberRequest := google ⟨"2".toList, "Ada".toList, "ada@elsewhere".toList⟩ ["b".toList]

theorem identity_of_googleAuthor :
    ¬ ∀ n, (Run.after (step Watched.plainDevise) googleAuthor ([secondAda].take n)).Linked
      ⟨"google_oauth2".toList, "1".toList⟩ 1 := by
  intro h
  have hends : (secondAda.perform Watched.plainDevise googleAuthor).isSome = true := by decide +kernel
  have hnone := (((identity_kept_iff Watched.plainDevise ⟨"google_oauth2".toList, "1".toList⟩ 1 googleAuthor
    sole_googleAuthor [secondAda]).1).mp h).1
      ⟨by decide +kernel, by decide +kernel, ada, by decide +kernel, rfl, by decide +kernel⟩
  rw [hnone] at hends
  cases hends

end MemberRequest

/-! ## Who is found by a token -/

namespace MemberRequest

open Members

/-- The tokens that the request draws. -/
def draws : MemberRequest → List Text
  | village _ draws | google _ draws | register _ _ draws | edit _ _ _ _ _ draws | logIn _ _ draws
  | createToken _ draws | destroyToken _ draws => draws

variable {d : Devise} {m m' : Members} {b : Identity} {draws : List Text} {t : Text} {i j : Nat} {o : Option Nat}
  {name email : Text} {r : MemberRequest}

/-- The request gives the account `i` another token. -/
def Renews (d : Devise) (i : Nat) (m : Members) : MemberRequest → Prop
  | createToken u _ => u = i ∧ (m.accounts.signedIn i).isSome
  | destroyToken u _ => u = i ∧ ∃ user, m.accounts.signedIn i = some user ∧
      (m.accounts.updateAttributes d user []).1 = .ok
  | village _ _ | google _ _ | register _ _ _ | edit _ _ _ _ _ _ | logIn _ _ _ => False

/-- Every account has a token of its own. -/
def Secured (m : Members) : Prop := ∀ i, m.ids i → ∃ t, blank t = false ∧ m.Bears t i

/-- Tokens are given to accounts without one only, and only such as nobody has. -/
structure Issues (draws : List Text) (m m' : Members) : Prop where
  bears : ∀ t i, blank t = false → m.Bears t i → m'.Bears t i
  vacant : ∀ t, t ∉ draws → Holdings.Vacant m.ids m.token (some t) → Holdings.Vacant m'.ids m'.token (some t)
  secured : (∀ t ∈ draws, blank t = false) → Secured m → Secured m'

theorem Issues.refl (draws : List Text) (m : Members) : Issues draws m m :=
  ⟨fun _ _ _ h => h, fun _ _ h => h, fun _ h => h⟩

theorem Issues.trans {m₁ : Members} (h : Issues draws m m₁) (h' : Issues draws m₁ m') : Issues draws m m' :=
  ⟨fun t i ht hm => h'.bears t i ht (h.bears t i ht hm), fun t ht hm => h'.vacant t ht (h.vacant t ht hm),
    fun ht hm => h'.secured ht (h.secured ht hm)⟩

/-- What is done beside the ids and tokens does not matter. -/
theorem Issues.congr {m₁ : Members} (h : Issues draws m m₁) (hids : m'.ids = m₁.ids) (htoken : m'.token = m₁.token) :
    Issues draws m m' := by
  constructor
  · intro t i ht hm
    rw [Bears, hids, htoken]
    exact h.bears t i ht hm
  · intro t ht hm
    rw [hids, htoken]
    exact h.vacant t ht hm
  · intro ht hm i hi
    rw [hids] at hi
    obtain ⟨t, hblank, hbears⟩ := h.secured ht hm i hi
    refine ⟨t, hblank, ?_⟩
    rw [Bears, hids, htoken]
    exact hbears

/-- A drawn token belongs to its account alone. -/
theorem secured_of_adds (hadds : Adds m m' j) (hdraw : m.generateAuthenticationToken draws = some t)
    (htoken : m'.token = Function.update m.token j (some t)) (ht : ∀ t ∈ draws, blank t = false) (hm : Secured m) :
    Secured m' := by
  obtain ⟨hfree, hmem⟩ := free_of_generate hdraw
  intro k hk
  by_cases hkj : k = j
  · refine ⟨t, ht t hmem, ?_⟩
    rw [Bears, htoken, hkj]
    exact hfree.sole hadds
  · obtain ⟨t', hblank, hbears⟩ := hm k (((hadds k).mp hk).resolve_left hkj)
    refine ⟨t', hblank, ?_⟩
    rw [Bears, htoken, Holdings.Sole.update_iff hbears hadds]
    refine iff_of_false (fun heq => ?_) (Ne.symm hkj)
    exact hfree k hbears.1 (((hbears.2 k hbears.1).mpr rfl).trans heq.symm)

/-- A drawn token goes to an account that is new or has none. -/
theorem issues_of_adds (hadds : Adds m m' j) (hdraw : m.generateAuthenticationToken draws = some t)
    (htoken : m'.token = Function.update m.token j (some t)) (hj : m.ids j → blankColumn (m.token j) = true) :
    Issues draws m m' := by
  obtain ⟨hfree, hmem⟩ := free_of_generate hdraw
  constructor
  · intro t' i ht' hm
    have hheld : m.token i = some t' := (hm.2 i hm.1).mpr rfl
    rw [Bears, htoken, Holdings.Sole.update_iff hm hadds]
    refine iff_of_false (fun htt' => hfree i hm.1 (hheld.trans htt'.symm)) fun hji => ?_
    have hblank := hj (hji ▸ hm.1)
    rw [hji, hheld, blankColumn, ht'] at hblank
    cases hblank
  · intro t' ht' hm
    rw [htoken]
    refine hm.update hadds fun htt' => ht' ?_
    rw [← Option.some.inj htt']
    exact hmem
  · exact secured_of_adds hadds hdraw htoken

theorem issues_insert {record : UserRecord} {uid : Option Text} (h : m.insertUser draws record uid = some m') :
    Issues draws m m' := by
  obtain ⟨hadds, -, t, hdraw, htoken⟩ := insertUser_adds h
  exact issues_of_adds hadds hdraw htoken fun hnext => absurd (lt_next_of_ids hnext) (Nat.lt_irrefl _)

theorem issues_ensure (hj : m.ids j) (h : m.ensureAuthenticationToken draws j = some m') : Issues draws m m' := by
  rcases ensure_eq h with rfl | ⟨hblank, t, hdraw, rfl⟩
  · exact Issues.refl _ _
  · exact issues_of_adds (adds_of_ids_eq rfl hj) hdraw rfl fun _ => hblank

/-- A save on which a token is ensured. -/
theorem issues_saved {m₁ : Members} {record : UserRecord} (hj : m.ids j)
    (hensure : m.ensureAuthenticationToken draws j = some m₁) (haccounts : m'.accounts = m.accounts.put record)
    (htoken : m'.token = m₁.token) : Issues draws m m' := by
  refine (issues_ensure hj hensure).congr ?_ htoken
  rw [ids_put haccounts]
  rcases ensure_eq hensure with rfl | ⟨-, t, -, rfl⟩
  · rfl
  · rfl

/-- Whoever is signed in by another provider has an account. -/
theorem issues_fromOmniauth (h : fromOmniauth d b name email draws m = some (o, m')) :
    Issues draws m m' ∧ ∀ j, o = some j → m'.ids j := by
  rcases fromOmniauth_cases h with ⟨u, hfind, rfl, rfl⟩ | ⟨-, ⟨-, rfl, hinsert⟩ | ⟨-, rfl, rfl⟩⟩
  · refine ⟨Issues.refl _ _, fun j hj => ?_⟩
    rw [← Option.some.inj hj]
    exact ids_of_mem (List.mem_of_find?_eq_some hfind)
  · refine ⟨issues_insert hinsert, fun j hj => ?_⟩
    rw [← Option.some.inj hj]
    exact ((insertUser_adds hinsert).1 _).mpr (Or.inl rfl)
  · exact ⟨Issues.refl _ _, fun j hj => by cases hj⟩

theorem signedIn_id {u : Nat} {user : User} (h : m.accounts.signedIn u = some user) : m.ids user.id ∧ user.id = u := by
  refine ⟨ids_of_mem (Watched.signedIn_mem h), ?_⟩
  rw [Accounts.signedIn, Option.filter_eq_some_iff] at h
  exact (Table.find?_eq_some.mp h.1).2

/-- A request issues tokens or renews one. -/
theorem issues_or_renews (h : r.perform d m = some m') : (∀ i, ¬ r.Renews d i m) ∧ Issues r.draws m m' ∨
    ∃ j t, r.Renews d j m ∧ m.ids j ∧ m.generateAuthenticationToken r.draws = some t ∧ m'.ids = m.ids ∧
      m'.token = Function.update m.token j (some t) := by
  cases r with
  | village auth draws =>
    refine Or.inl ⟨fun _ => id, ?_⟩
    obtain ⟨⟨o, m₁⟩, hvillage, rfl⟩ := Option.map_eq_some_iff.mp h
    obtain ⟨m₂, hfrom, rfl | ⟨j, hj, hensure⟩⟩ := OmniauthCallbacksController.village_cases hvillage
    · exact (issues_fromOmniauth hfrom).1
    · obtain ⟨hissues, hids⟩ := issues_fromOmniauth hfrom
      exact hissues.trans (issues_ensure (hids j hj) hensure)
  | google auth draws =>
    refine Or.inl ⟨fun _ => id, ?_⟩
    obtain ⟨⟨o, m₁⟩, hgoogle, rfl⟩ := Option.map_eq_some_iff.mp h
    obtain ⟨o₁, m₂, hfrom, hrest⟩ := OmniauthCallbacksController.google_cases hgoogle
    have hissues := (issues_fromOmniauth hfrom).1
    rcases hrest with ⟨j, -, rfl⟩ | ⟨-, ⟨-, rfl⟩ | ⟨u, hu, hrelink⟩⟩
    · exact hissues
    · exact hissues
    · rcases relink_cases hrelink with ⟨-, rfl⟩ | ⟨-, m₃, hensure, rfl⟩
      · exact hissues
      · exact hissues.trans (issues_saved (ids_of_mem (linkable_mem hu)) hensure rfl rfl)
  | register params uid draws =>
    refine Or.inl ⟨fun _ => id, ?_⟩
    rcases register_cases h with ⟨-, rfl⟩ | ⟨-, hinsert⟩
    · exact Issues.refl _ _
    · exact issues_insert hinsert
  | edit u settings params uid currentPassword draws =>
    refine Or.inl ⟨fun _ => id, ?_⟩
    rcases edit_cases h with ⟨-, rfl⟩ | ⟨user, given, m₁, -, huser, hensure, rfl⟩
    · exact Issues.refl _ _
    · exact issues_saved (ids_of_mem huser) hensure rfl rfl
  | logIn username password draws =>
    refine Or.inl ⟨fun _ => id, ?_⟩
    obtain ⟨⟨o, m₁⟩, hcreate, rfl⟩ := Option.map_eq_some_iff.mp h
    rcases SessionsController.create_cases hcreate with rfl | ⟨u, hu, hensure⟩
    · exact Issues.refl _ _
    · exact issues_ensure (ids_of_mem hu) hensure
  | createToken u draws =>
    rcases TokenAuthenticationsController.create_cases h with ⟨hnone, rfl⟩ | ⟨user, t, hin, hdraw, rfl⟩
    · refine Or.inl ⟨fun i ⟨hui, hin⟩ => ?_, Issues.refl _ _⟩
      rw [← hui, hnone] at hin
      cases hin
    · obtain ⟨hids, hu⟩ := signedIn_id hin
      exact Or.inr ⟨user.id, t, ⟨hu.symm, by rw [hu, hin]; rfl⟩, hids, hdraw, rfl, rfl⟩
  | destroyToken u draws =>
    rcases TokenAuthenticationsController.destroy_cases h with ⟨hnot, rfl⟩ | ⟨user, t, hin, hsaved, hdraw, rfl⟩
    · refine Or.inl ⟨fun i ⟨hui, user, hin, hsaved⟩ => ?_, Issues.refl _ _⟩
      exact hnot user (hui ▸ hin) hsaved
    · obtain ⟨hids, hu⟩ := signedIn_id hin
      exact Or.inr ⟨user.id, t, ⟨hu.symm, user, by rw [hu, hin], hsaved⟩, hids, hdraw, ids_put rfl, rfl⟩

theorem renews_unique (hi : r.Renews d i m) (hj : r.Renews d j m) : i = j := by
  cases r with
  | createToken u draws => exact hi.1.symm.trans hj.1
  | destroyToken u draws => exact hi.1.symm.trans hj.1
  | _ => exact hi.elim

/-- One request: `i` keeps the token exactly when it does not renew it. -/
theorem bears_perform_iff (ht : blank t = false) (hm : m.Bears t i) (h : r.perform d m = some m') :
    m'.Bears t i ↔ ¬ r.Renews d i m := by
  rcases issues_or_renews h with ⟨hnot, hissues⟩ | ⟨j, t', hrenews, hj, hdraw, hids, htoken⟩
  · exact iff_of_true (hissues.bears t i ht hm) (hnot i)
  · have hne : ¬ some t' = some t := fun heq =>
      (free_of_generate hdraw).1 i hm.1 (((hm.2 i hm.1).mpr rfl).trans heq.symm)
    rw [Bears, htoken, Holdings.Sole.update_iff hm (adds_of_ids_eq hids hj)]
    constructor
    · intro hiff hno
      exact hne (hiff.mpr (renews_unique hrenews hno))
    · intro hnot
      exact iff_of_false hne fun hji => hnot (hji ▸ hrenews)

/-- What nobody has stays so until it is drawn. -/
theorem vacant_perform (ht : t ∉ r.draws) (hm : Holdings.Vacant m.ids m.token (some t))
    (h : r.perform d m = some m') : Holdings.Vacant m'.ids m'.token (some t) := by
  rcases issues_or_renews h with ⟨-, hissues⟩ | ⟨j, t', -, hj, hdraw, hids, htoken⟩
  · exact hissues.vacant t ht hm
  · rw [htoken]
    refine hm.update (adds_of_ids_eq hids hj) fun heq => ht ?_
    rw [← Option.some.inj heq]
    exact (free_of_generate hdraw).2

theorem vacant_of_renews (ht : t ∉ r.draws) (hm : m.Bears t i) (hrenews : r.Renews d i m)
    (h : r.perform d m = some m') : Holdings.Vacant m'.ids m'.token (some t) := by
  rcases issues_or_renews h with ⟨hnot, -⟩ | ⟨j, t', hj, -, hdraw, hids, htoken⟩
  · exact absurd hrenews (hnot i)
  · rw [htoken, hids, ← renews_unique hrenews hj]
    refine Holdings.Sole.vacant hm fun heq => ht ?_
    rw [← Option.some.inj heq]
    exact (free_of_generate hdraw).2

theorem secured_perform (ht : ∀ t ∈ r.draws, blank t = false) (hm : Secured m) (h : r.perform d m = some m') :
    Secured m' := by
  rcases issues_or_renews h with ⟨-, hissues⟩ | ⟨j, t, -, hj, hdraw, hids, htoken⟩
  · exact hissues.secured ht hm
  · exact secured_of_adds (adds_of_ids_eq hids hj) hdraw htoken ht hm

/-- A request keeps the token of `i` exactly when it does not renew it, or does not end. -/
theorem bears_step_iff (ht : blank t = false) (hm : m.Bears t i) :
    (r.Renews d i m → r.perform d m = none) ↔ (r.step d m).Bears t i := by
  rw [step]
  cases hperform : r.perform d m with
  | none => exact iff_of_true (fun _ => rfl) hm
  | some m' =>
    rw [Option.getD_some, bears_perform_iff ht hm hperform]
    exact ⟨fun hno hrenews => (by cases hno hrenews), fun hno hrenews => absurd hrenews hno⟩

theorem withToken_none_iff : m.withToken (some t) = none ↔ Holdings.Vacant m.ids m.token (some t) := find?_none_iff

/-- In a run of requests the account `i` keeps its token, alone, exactly when no request that ends renews it. -/
theorem bears_kept_iff {m₀ : Members} (ht : blank t = false) (h : m₀.Bears t i) (rs : List MemberRequest) :
    (∀ n, (Run.after (step d) m₀ (rs.take n)).Bears t i) ↔
      Run.Along (step d) (fun m r => r.Renews d i m → r.perform d m = none) m₀ rs :=
  Run.along_iff_forall_take (A := fun _ _ => True) (I := fun m : Members => m.Bears t i) (J := fun _ => True)
    (fun _ _ _ _ => trivial) (fun _ _ _ hm _ => bears_step_iff ht hm) trivial h (.of_forall fun _ _ => trivial)

/-- If the token is not drawn again, it is nobody's at the end exactly of the other runs. -/
theorem vacant_iff {m₀ : Members} (ht : blank t = false) (h : m₀.Bears t i) {rs : List MemberRequest}
    (hdraws : ∀ r ∈ rs, t ∉ r.draws) :
    Run.Along (step d) (fun m r => r.Renews d i m → r.perform d m = none) m₀ rs ↔
      ¬ Holdings.Vacant (Run.after (step d) m₀ rs).ids (Run.after (step d) m₀ rs).token (some t) := by
  refine Run.along_iff_not_harmed (A := fun _ r => t ∉ r.draws) (I := fun m : Members => m.Bears t i)
    (H := fun m : Members => Holdings.Vacant m.ids m.token (some t)) (fun m r hm _ hr => (bears_step_iff ht hm).mp hr)
    (fun m r hm hr hno => ?_) (fun m r hm hr => ?_) (fun m hm hno => hno i hm.1 ((hm.2 i hm.1).mpr rfl)) h
    (.of_forall hdraws)
  · rw [Classical.not_imp] at hno
    obtain ⟨m', hperform⟩ := Option.ne_none_iff_exists'.mp hno.2
    rw [step, hperform]
    exact vacant_of_renews hr hm hno.1 hperform
  · rw [step]
    cases hperform : r.perform d m with
    | none => exact hm
    | some m' => exact vacant_perform hr hm hperform

/-- In a run of requests the account `i` keeps its token, alone, exactly when no request that ends renews it.  If none
of them draws the token again, it is found at the end exactly then, and it is that of `i`. -/
theorem token_kept_iff (d : Devise) (t : Text) (i : Nat) (m₀ : Members) (ht : blank t = false) (h : m₀.Bears t i)
    (rs : List MemberRequest) :
    ((∀ n, (Run.after (step d) m₀ (rs.take n)).Bears t i) ↔
      Run.Along (step d) (fun m r => r.Renews d i m → r.perform d m = none) m₀ rs) ∧
    ((∀ r ∈ rs, t ∉ r.draws) →
      (Run.Along (step d) (fun m r => r.Renews d i m → r.perform d m = none) m₀ rs ↔
        (Run.after (step d) m₀ rs).withToken (some t) ≠ none) ∧
      ∀ u, (Run.after (step d) m₀ rs).withToken (some t) = some u → u.id = i) := by
  have hall := bears_kept_iff (d := d) ht h rs
  refine ⟨hall, fun hdraws => ?_⟩
  have hend := vacant_iff (d := d) ht h hdraws
  rw [← withToken_none_iff] at hend
  refine ⟨hend, fun u hu => ?_⟩
  have hbears := hall.mpr (hend.mpr fun hno => by
    rw [hno] at hu
    cases hu) rs.length
  rw [List.take_length] at hbears
  have huser : (Run.after (step d) m₀ rs).token u.id = some t := by simpa using List.find?_some hu
  exact (hbears.2 u.id (ids_of_mem (List.mem_of_find?_eq_some hu))).mp huser

/-- After the author has asked for another token the old one finds nobody. -/
theorem token_of_googleAuthor :
    (Run.after (step Watched.plainDevise) googleAuthor [createToken 1 ["b".toList]]).withToken (some "a".toList) =
      none := by
  have hends : ((createToken 1 ["b".toList]).perform Watched.plainDevise googleAuthor).isSome = true := by
    decide +kernel
  have hfound := (token_kept_iff Watched.plainDevise "a".toList 1 googleAuthor (by decide) sole_googleAuthor
    [createToken 1 ["b".toList]]).2 (by decide)
  by_contra hno
  have hnone := (hfound.1.mpr hno).1 ⟨rfl, by decide +kernel⟩
  rw [hnone] at hends
  cases hends

/-- The account whose present token is that of the request. -/
def Presents (m : Members) (authToken : Option Text) (user : User) : Prop :=
  user ∈ m.users.rows ∧ ∃ t, authToken = some t ∧ m.Bears t user.id

theorem withToken_eq_some (h : Secured m) {authToken : Option Text} {user : User} :
    m.withToken authToken = some user ↔ Presents m authToken user := by
  constructor
  · intro hfind
    have hmem := List.mem_of_find?_eq_some hfind
    have htoken : m.token user.id = authToken := by simpa using List.find?_some hfind
    obtain ⟨t, -, hbears⟩ := h user.id (ids_of_mem hmem)
    exact ⟨hmem, t, htoken.symm.trans ((hbears.2 user.id hbears.1).mpr rfl), hbears⟩
  · rintro ⟨hmem, t, rfl, hbears⟩
    obtain ⟨user', hmem', hfind, hid⟩ := find?_of_sole hbears
    rw [withToken, hfind, Table.eq_of_key hmem' hmem hid]

/-- A blank token finds nobody, so the authentication library looks for the same account as the page. -/
theorem withToken_filter (h : Secured m) (authToken : Option Text) :
    ((authToken.filter (!blank ·)).bind fun t => m.withToken (some t)) = m.withToken authToken := by
  ext user
  rw [withToken_eq_some h, Option.bind_eq_some_iff]
  constructor
  · rintro ⟨t, ht, hfind⟩
    rw [(Option.filter_eq_some_iff.mp ht).1]
    exact (withToken_eq_some h).mp hfind
  · rintro ⟨hmem, t, rfl, hbears⟩
    obtain ⟨t', hblank, hbears'⟩ := h user.id hbears.1
    have htt' : some t = some t' := ((hbears.2 user.id hbears.1).mpr rfl).symm.trans ((hbears'.2 user.id hbears.1).mpr rfl)
    rw [← Option.some.inj htt'] at hblank
    refine ⟨t, ?_, (withToken_eq_some h).mpr ⟨hmem, t, rfl, hbears⟩⟩
    rw [Option.filter_some, hblank, Bool.not_false, if_pos rfl]

/-- Who gets to see the mobile page of the project. -/
inductive Admitted (st : Standing) (p : Nat) (session : Option Nat) (authToken : Option Text) (m : Members) : Prop
  /-- an author or admin, who is signed in -/
  | signedIn (user : User) : session.bind m.users.find? = some user → m.active st user = true →
      m.accounts.db.author p user.id = true ∨ user.isAdmin = true → Admitted st p session authToken m
  /-- whoever is signed in and has the token of an author, in what standing that account may be -/
  | guest (user author : User) : session.bind m.users.find? = some user → m.active st user = true →
      Presents m authToken author → m.accounts.db.author p author.id = true → Admitted st p session authToken m
  /-- an author or admin, who is signed in by the token -/
  | bearer (user : User) : session.bind m.users.find? = none → Presents m authToken user → m.active st user = true →
      m.accounts.db.author p user.id = true ∨ user.isAdmin = true → Admitted st p session authToken m
  /-- the token of an author whose account is locked, so that it signs nobody in -/
  | locked (user : User) : session.bind m.users.find? = none → Presents m authToken user →
      st.locked user.id = true → m.accounts.db.author p user.id = true → Admitted st p session authToken m

/-- Somebody is signed in already. -/
theorem admitted_of_session {st : Standing} {p : Nat} {session : Option Nat} {authToken : Option Text} {user : User}
    (hs : session.bind m.users.find? = some user) : Admitted st p session authToken m ↔
      m.active st user = true ∧ ((∃ author, Presents m authToken author ∧ m.accounts.db.author p author.id = true) ∨
        m.accounts.db.author p user.id = true ∨ user.isAdmin = true) := by
  constructor
  · intro h
    cases h with
    | signedIn user' hs' hactive hauthor =>
      obtain rfl := Option.some.inj (hs.symm.trans hs')
      exact ⟨hactive, Or.inr hauthor⟩
    | guest user' author hs' hactive htoken hauthor =>
      obtain rfl := Option.some.inj (hs.symm.trans hs')
      exact ⟨hactive, Or.inl ⟨author, htoken, hauthor⟩⟩
    | bearer user' hs' => cases hs.symm.trans hs'
    | locked user' hs' => cases hs.symm.trans hs'
  · rintro ⟨hactive, ⟨author, htoken, hauthor⟩ | hauthor⟩
    · exact .guest user author hs hactive htoken hauthor
    · exact .signedIn user hs hactive hauthor

/-- The token is all there is. -/
theorem admitted_of_token {st : Standing} {p : Nat} {session : Option Nat} {authToken : Option Text}
    (hs : session.bind m.users.find? = none) : Admitted st p session authToken m ↔
      ∃ user, Presents m authToken user ∧
        (st.locked user.id = true ∧ m.accounts.db.author p user.id = true ∨
          m.active st user = true ∧ (m.accounts.db.author p user.id = true ∨ user.isAdmin = true)) := by
  constructor
  · intro h
    cases h with
    | signedIn user hs' => cases hs.symm.trans hs'
    | guest user author hs' => cases hs.symm.trans hs'
    | bearer user _ htoken hactive hauthor => exact ⟨user, htoken, Or.inr ⟨hactive, hauthor⟩⟩
    | locked user _ htoken hlocked hauthor => exact ⟨user, htoken, Or.inl ⟨hlocked, hauthor⟩⟩
  · rintro ⟨user, htoken, ⟨hlocked, hauthor⟩ | ⟨hactive, hauthor⟩⟩
    · exact .locked user hs htoken hlocked hauthor
    · exact .bearer user hs htoken hactive hauthor

/-- Where the page does not refuse the request for another reason, it opens to those who are admitted. -/
theorem mobile_iff (h : Secured m) (st : Standing) (p : Nat) (treeWidth : Option Text) (session : Option Nat)
    (authToken : Option Text) :
    StepsController.mobile st p treeWidth session authToken m = true ↔
      (m.accounts.db.projects.find? p).isSome = true ∧ blankColumn treeWidth = false ∧
        Admitted st p session authToken m := by
  rw [StepsController.mobile, currentUser]
  cases hs : session.bind m.users.find? with
  | some user =>
    rw [admitted_of_session hs]
    dsimp only
    by_cases hactive : m.active st user = true
    · rw [if_pos hactive]
      simp only [Bool.and_eq_true, Bool.or_eq_true, Bool.not_eq_true', Option.any_eq_true, withToken_eq_some h,
        Option.any_some, hactive, true_and, and_assoc]
    · rw [if_neg hactive]
      exact iff_of_false (by simp) fun hno => hactive hno.2.2.1
  | none =>
    rw [admitted_of_token hs, withToken_filter h]
    dsimp only
    cases htoken : m.withToken authToken with
    | none =>
      have hnobody : ∀ user, ¬ Presents m authToken user := fun user huser => by
        rw [← withToken_eq_some h, htoken] at huser
        cases huser
      simp [hnobody]
    | some user =>
      have hbearer : ∀ user', Presents m authToken user' ↔ user' = user := fun user' => by
        rw [← withToken_eq_some h, htoken, Option.some.injEq, eq_comm]
      dsimp only
      by_cases hlocked : st.locked user.id = true
      · have hnot : m.active st user = false := by rw [active, hlocked, Bool.not_true, Bool.and_false, Bool.false_and]
        rw [if_pos hlocked]
        simp [hbearer, hlocked, hnot, and_assoc]
      · rw [if_neg hlocked]
        by_cases hactive : m.active st user = true
        · rw [if_pos hactive]
          simp [hbearer, hlocked, hactive, and_assoc]
        · rw [if_neg hactive]
          simp [hbearer, hlocked, hactive]

end MemberRequest
