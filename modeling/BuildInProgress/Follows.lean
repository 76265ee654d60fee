import BuildInProgress.Frame
import BuildInProgress.Lib.Run
import BuildInProgress.Lib.Tally

/-!
# Following users

`UsersController#follow` and `#unfollow` keep the follows in the table of the `acts_as_follower` gem and
tell the followed user by an activity.  The gem follows once however often it is asked; the activity is
created each time, and all activities about the user are deleted when one follower leaves.
-/

open Text

/-- What the controller uses of the gem, on a table of follows of type `σ`. -/
structure ActsAsFollower (σ : Type) where
  follow : Nat → Nat → σ → σ
  stopFollowing : Nat → Nat → σ → σ
  following : σ → Nat → Nat → Bool
  /-- whether a user can follow themselves -/
  allowsSelf : Bool

/-- The gem follows once, and stops following. -/
structure ActsAsFollower.Lawful {σ : Type} (gem : ActsAsFollower σ) : Prop where
  following_follow : ∀ s u v a b, gem.following (gem.follow u v s) a b = true ↔
    gem.following s a b = true ∨ a = u ∧ b = v ∧ (u ≠ v ∨ gem.allowsSelf = true)
  following_stop : ∀ s u v a b, gem.following (gem.stopFollowing u v s) a b = true ↔
    gem.following s a b = true ∧ ¬ (a = u ∧ b = v)

structure Followed (σ : Type) where
  db : Database
  follows : σ

namespace UsersController

variable {σ : Type} (gem : ActsAsFollower σ)

/-- `GET /users/:id/follow` -/
def follow (current : Option User) (v : Nat) (w : Followed σ) : Outcome × Followed σ :=
  match w.db.users.find? v with
  | none => (.notFound, w)
  | some _ =>
    match current with
    | none => (.ok, w)
    | some u =>
      (.ok,
        { db := w.db.createActivity .user v "user.follow".toList (some u.id) (some v)
          follows := gem.follow u.id v w.follows })

/-- `GET /users/:id/unfollow` -/
def unfollow (current : Option User) (v : Nat) (w : Followed σ) : Outcome × Followed σ :=
  match w.db.users.find? v with
  | none => (.notFound, w)
  | some _ =>
    match current with
    | none => (.ok, w)
    | some u =>
      (.ok,
        { db := w.db.destroyActivitiesOf .user v
          follows := gem.stopFollowing u.id v w.follows })

end UsersController

inductive FollowRequest where
  | follow (current : Option User) (v : Nat)
  | unfollow (current : Option User) (v : Nat)

namespace Followed

variable {σ : Type} (gem : ActsAsFollower σ)

def handle (w : Followed σ) : FollowRequest → Followed σ
  | .follow current v => (UsersController.follow gem current v w).2
  | .unfollow current v => (UsersController.unfollow gem current v w).2

/-- The owner and the recipient of a `user.follow` activity. -/
def told (a : Activity) : Option (Option Nat × Option Nat) :=
  if a.key = "user.follow".toList then some (a.ownerId, a.recipientId) else none

/-- One user follows another one. -/
def Follows (w : Followed σ) (k : Option Nat × Option Nat) : Prop :=
  ∃ u v, k = (some u, some v) ∧ gem.following w.follows u v = true

/-- There is one activity for each pair of a follower and a followed user. -/
def Told (w : Followed σ) : Prop := Tally.Exact told (Follows gem w) w.db.activities.rows

/-- The activities about a follow are about the recipient, who is a user. -/
def AboutUsers (w : Followed σ) : Prop :=
  ∀ a ∈ w.db.activities.rows, a.key = "user.follow".toList → a.trackableType = some .user ∧ a.trackableId = a.recipientId

/-- A follow is a new one that the gem accepts, and nobody else follows a user who is unfollowed.  A request
of a guest, or about a user who does not exist, is none of either. -/
def Proper (w : Followed σ) : FollowRequest → Prop
  | .follow (some u) v => (w.db.users.find? v).isSome = true →
      gem.following w.follows u.id v = false ∧ (u.id ≠ v ∨ gem.allowsSelf = true)
  | .unfollow (some u) v => (w.db.users.find? v).isSome = true →
      ∀ x, gem.following w.follows x v = true → x = u.id
  | _ => True

variable {gem} {w : Followed σ}

theorem told_eq_some {a : Activity} {k : Option Nat × Option Nat} :
    told a = some k ↔ a.key = "user.follow".toList ∧ (a.ownerId, a.recipientId) = k := by
  rw [told]
  by_cases hkey : a.key = "user.follow".toList
  · rw [if_pos hkey, Option.some.injEq, and_iff_right hkey]
  · rw [if_neg hkey]
    exact iff_of_false (fun h => by cases h) fun h => hkey h.1

theorem follows_iff (u v : Nat) : Follows gem w (some u, some v) ↔ gem.following w.follows u v = true := by
  constructor
  · intro h
    obtain ⟨u', v', heq, hfollows⟩ := h
    rw [Prod.mk.injEq, Option.some.injEq, Option.some.injEq] at heq
    rw [heq.1, heq.2]
    exact hfollows
  · intro h
    exact ⟨u, v, rfl, h⟩

/-- A request about nobody does nothing. -/
theorem handle_missing {v : Nat} (hv : w.db.users.find? v = none) (current : Option User) :
    handle gem w (.follow current v) = w ∧ handle gem w (.unfollow current v) = w := by
  constructor
  · show (UsersController.follow gem current v w).2 = w
    unfold UsersController.follow
    rw [hv]
  · show (UsersController.unfollow gem current v w).2 = w
    unfold UsersController.unfollow
    rw [hv]

/-- A guest does nothing. -/
theorem handle_guest (v : Nat) :
    handle gem w (.follow none v) = w ∧ handle gem w (.unfollow none v) = w := by
  cases hv : w.db.users.find? v with
  | none => exact handle_missing hv none
  | some user =>
    constructor
    · show (UsersController.follow gem none v w).2 = w
      unfold UsersController.follow
      rw [hv]
    · show (UsersController.unfollow gem none v w).2 = w
      unfold UsersController.unfollow
      rw [hv]

theorem aboutUsers_handle (h : AboutUsers w) (r : FollowRequest) : AboutUsers (handle gem w r) := by
  cases r with
  | follow current v =>
    cases hv : w.db.users.find? v with
    | none =>
      rw [(handle_missing hv current).1]
      exact h
    | some user =>
      cases current with
      | none =>
        rw [(handle_guest v).1]
        exact h
      | some u =>
        rw [handle, UsersController.follow.eq_def, hv]
        intro a ha hkey
        rcases List.mem_append.mp ha with ha | ha
        · exact h a ha hkey
        · rw [List.mem_singleton.mp ha]
          exact ⟨rfl, rfl⟩
  | unfollow current v =>
    cases hv : w.db.users.find? v with
    | none =>
      rw [(handle_missing hv current).2]
      exact h
    | some user =>
      cases current with
      | none =>
        rw [(handle_guest v).2]
        exact h
      | some u =>
        rw [handle, UsersController.unfollow.eq_def, hv]
        intro a ha
        exact h a (List.mem_of_mem_filter ha)

/-- A follow adds one activity, and its pair unless the gem has it or refuses it. -/
theorem Told.follow_iff (hgem : gem.Lawful) (h : Told gem w) (u : User) (v : Nat)
    (hv : (w.db.users.find? v).isSome = true) :
    Told gem (handle gem w (.follow (some u) v)) ↔
      gem.following w.follows u.id v = false ∧ (u.id ≠ v ∨ gem.allowsSelf = true) := by
  obtain ⟨user, hfind⟩ := Option.isSome_iff_exists.mp hv
  rw [handle, UsersController.follow, hfind]
  dsimp only
  let new : Activity := ⟨w.db.activities.next, some .user, some v, "user.follow".toList, some u.id, some v, some true⟩
  have hnew : [new].filterMap told = [(some u.id, some v)] := by
    rw [List.filterMap_cons, told_eq_some.mpr ⟨rfl, rfl⟩, List.filterMap_nil]
  show Tally.Exact told _ (w.db.activities.rows ++ [new]) ↔ _
  rw [Tally.Exact.append_iff h, hnew, and_iff_right (List.nodup_singleton _), List.forall_mem_singleton, follows_iff,
    Bool.not_eq_true]
  -- a new activity needs a new pair, which the gem makes unless it is a user's own
  refine and_congr_right fun hno => ?_
  constructor
  · intro hset
    have hpair := (hset (some u.id, some v)).mpr (Or.inr (List.mem_singleton_self _))
    rw [follows_iff, hgem.following_follow, hno] at hpair
    exact (hpair.resolve_left Bool.false_ne_true).2.2
  · intro hself k
    rw [List.mem_singleton]
    constructor
    · intro hk
      obtain ⟨a, b, rfl, hab⟩ := hk
      rcases (hgem.following_follow _ _ _ _ _).mp hab with hab | hab
      · exact Or.inl ⟨a, b, rfl, hab⟩
      · rw [hab.1, hab.2.1]
        exact Or.inr rfl
    · intro hk
      rcases hk with ⟨a, b, rfl, hab⟩ | rfl
      · exact ⟨a, b, rfl, (hgem.following_follow _ _ _ _ _).mpr (Or.inl hab)⟩
      · exact ⟨_, _, rfl, (hgem.following_follow _ _ _ _ _).mpr (Or.inr ⟨rfl, rfl, hself⟩)⟩

/-- An unfollow deletes the activities of all followers. -/
theorem Told.unfollow_iff (hgem : gem.Lawful) (h : Told gem w) (habout : AboutUsers w) (u : User) (v : Nat)
    (hv : (w.db.users.find? v).isSome = true) :
    Told gem (handle gem w (.unfollow (some u) v)) ↔ ∀ x, gem.following w.follows x v = true → x = u.id := by
  obtain ⟨user, hfind⟩ := Option.isSome_iff_exists.mp hv
  rw [handle, UsersController.unfollow, hfind]
  dsimp only
  show Tally.Exact told _ (w.db.activities.rows.filter _) ↔ _
  rw [Tally.Exact.filter_iff h (G := fun k => k.2 = some v) fun a ha k hk => ?_]
  -- all activities about the user go, so nobody else may still be told of
  · constructor
    · intro hset x hx
      by_contra hne
      have hleft : gem.following (gem.stopFollowing u.id v w.follows) x v = true :=
        (hgem.following_stop _ _ _ _ _).mpr ⟨hx, fun hsame => hne hsame.1⟩
      exact ((hset (some x, some v)).mp ⟨x, v, rfl, hleft⟩).2 rfl
    · intro honly k
      constructor
      · intro hk
        obtain ⟨a, b, rfl, hab⟩ := hk
        obtain ⟨hab, hne⟩ := (hgem.following_stop _ _ _ _ _).mp hab
        refine ⟨⟨a, b, rfl, hab⟩, fun hb => ?_⟩
        cases Option.some.inj hb
        exact hne ⟨honly a hab, rfl⟩
      · intro hk
        obtain ⟨⟨a, b, rfl, hab⟩, hb⟩ := hk
        exact ⟨a, b, rfl, (hgem.following_stop _ _ _ _ _).mpr ⟨hab, fun hsame => hb (by rw [hsame.2])⟩⟩
  -- the deletion asks for the trackable, the pair has the recipient; `AboutUsers` says they are the same
  · obtain ⟨hkey, rfl⟩ := told_eq_some.mp hk
    obtain ⟨htype, hid⟩ := habout a ha hkey
    rw [htype, hid, beq_self_eq_true, Bool.true_and, Bool.not_eq_true', beq_eq_false_iff_ne]

theorem Told.handle_iff (hgem : gem.Lawful) (h : Told gem w) (habout : AboutUsers w) (r : FollowRequest) :
    Told gem (handle gem w r) ↔ Proper gem w r := by
  have hfound : ∀ {v : Nat} {user : User}, w.db.users.find? v = some user → (w.db.users.find? v).isSome = true :=
    fun hv => by rw [hv]; rfl
  have hmissing : ∀ {v : Nat} {P : Prop}, w.db.users.find? v = none → ((w.db.users.find? v).isSome = true → P) :=
    fun hv hsome => by rw [hv] at hsome; cases hsome
  cases r with
  | follow current v =>
    cases current with
    | none =>
      rw [(handle_guest v).1]
      exact iff_of_true h trivial
    | some u =>
      cases hv : w.db.users.find? v with
      | none =>
        rw [(handle_missing hv (some u)).1]
        exact iff_of_true h (hmissing hv)
      | some user => exact (h.follow_iff hgem u v (hfound hv)).trans (imp_iff_right (hfound hv)).symm
  | unfollow current v =>
    cases current with
    | none =>
      rw [(handle_guest v).2]
      exact iff_of_true h trivial
    | some u =>
      cases hv : w.db.users.find? v with
      | none =>
        rw [(handle_missing hv (some u)).2]
        exact iff_of_true h (hmissing hv)
      | some user => exact (h.unfollow_iff hgem habout u v (hfound hv)).trans (imp_iff_right (hfound hv)).symm

/-- In every state of a run each follow is told once and nothing else is, exactly when every follow is a
new one and every unfollow is by the only follower. -/
theorem follow_protocol_iff (hgem : gem.Lawful) {w : Followed σ} {rs : List FollowRequest} (h : Told gem w)
    (habout : AboutUsers w) :
    (∀ n, Told gem (Run.after (handle gem) w (rs.take n))) ↔ Run.Along (handle gem) (Proper gem) w rs :=
  Run.along_iff_forall_take (A := fun _ _ => True) (J := AboutUsers) (fun _ r habout _ => aboutUsers_handle habout r)
    (fun _ r habout h _ => (h.handle_iff hgem habout r).symm) habout h (.of_forall fun _ _ => trivial)

/-- The follows as a list of pairs; nobody follows themselves. -/
def pairs : ActsAsFollower (List (Nat × Nat)) where
  follow u v s := if u = v ∨ (u, v) ∈ s then s else (u, v) :: s
  stopFollowing u v s := s.filter (· ≠ (u, v))
  following s u v := s.contains (u, v)
  allowsSelf := false

theorem lawful_pairs : pairs.Lawful where
  following_follow := by
    intro s u v a b
    show (if u = v ∨ (u, v) ∈ s then s else (u, v) :: s).contains (a, b) = true ↔ s.contains (a, b) = true ∨ _
    have hpair : (a, b) = (u, v) ↔ a = u ∧ b = v := Prod.mk.injEq a b u v ▸ Iff.rfl
    rw [List.contains_iff_mem, List.contains_iff_mem]
    by_cases hno : u = v ∨ (u, v) ∈ s
    · rw [if_pos hno]
      refine ⟨Or.inl, fun h => h.elim id fun hab => ?_⟩
      rw [hpair.mpr ⟨hab.1, hab.2.1⟩]
      exact hno.resolve_left (hab.2.2.resolve_right Bool.false_ne_true)
    · rw [if_neg hno, List.mem_cons, hpair, or_comm]
      have hne : u ≠ v := fun h => hno (Or.inl h)
      exact or_congr_right ⟨fun hab => ⟨hab.1, hab.2, Or.inl hne⟩, fun hab => ⟨hab.1, hab.2.1⟩⟩
  following_stop := by
    intro s u v a b
    show (s.filter (· ≠ (u, v))).contains (a, b) = true ↔ s.contains (a, b) = true ∧ _
    rw [List.contains_iff_mem, List.contains_iff_mem, List.mem_filter, decide_eq_true_eq, ne_eq, Prod.mk.injEq]

/-- Three users, of whom nobody follows anybody. -/
def strangers : Followed (List (Nat × Nat)) where
  db := { Database.empty with
    users := .ofRows [ada, bob, ⟨3, "eve".toList, none⟩] 4 (by decide) }
  follows := []

theorem told_strangers : Told pairs strangers := by
  intro k
  rw [if_neg]
  · rfl
  · intro hk
    obtain ⟨u, v, _, hfollows⟩ := hk
    cases hfollows

theorem follow_protocol_strangers :
    Told pairs strangers ∧ ∀ n, Told pairs (Run.after (handle pairs) strangers
      (List.take n [.follow (some ada) 3, .unfollow (some ada) 3, .follow (some bob) 3, .follow none 3])) :=
  ⟨told_strangers, (follow_protocol_iff lawful_pairs told_strangers fun a ha => by cases ha).mpr
    ⟨fun _ => ⟨by decide, Or.inl (by decide)⟩,
      fun _ x hx => by simpa [handle, UsersController.follow, strangers, pairs, ada, bob, Table.find?, Keyed.key] using hx,
      fun _ => ⟨by decide, Or.inl (by decide)⟩, trivial, trivial⟩⟩

/-- When bob leaves, the activity of ada, who still follows, is deleted too. -/
theorem other_follower_forgotten :
    Told pairs strangers ∧ ¬ Told pairs (Run.after (handle pairs) strangers
      [.follow (some ada) 3, .follow (some bob) 3, .unfollow (some bob) 3]) := by
  refine ⟨told_strangers, fun h => ?_⟩
  have hada := h (some 1, some 3)
  rw [if_pos ((follows_iff 1 3).mpr (by decide))] at hada
  exact absurd hada (by decide)

end Followed
