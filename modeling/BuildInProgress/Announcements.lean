import BuildInProgress.Frame
import BuildInProgress.Lib.Tally

/-!
# Activities for a list of people

A request that announces something creates one activity after the other.  What it has added, apart from the ids,
is a list; who is told how often can be counted in it.
-/

namespace Activity

/-- The activity apart from its id. -/
def content (a : Activity) : Activity := { a with id := 0 }

/-- Whom the activity tells about the record, when it is one about this record with this key and flag. -/
def tells (t : Trackable) (i : Nat) (key : Text) (primary : Bool) (a : Activity) : Option Nat :=
  if a.trackableType = some t ∧ a.trackableId = some i ∧ a.key = key ∧ a.primary = some primary then a.recipientId
  else none

theorem tells_content {t : Trackable} {i : Nat} {key : Text} {primary : Bool} :
    tells t i key primary ∘ content = tells t i key primary := rfl

end Activity

namespace Database

open Activity

/-- `create_activity` with its `primary` flag. -/
def recordActivity (db : Database) (t : Trackable) (i : Nat) (key : Text) (owner recipient : Option Nat)
    (primary : Bool) : Database :=
  { db with
    activities := db.activities.insert
      (fun id => ⟨id, some t, some i, key, owner, recipient, some primary⟩) (fun _ => rfl) }

theorem createActivity_eq (db : Database) (t : Trackable) (i : Nat) (key : Text) (owner recipient : Option Nat) :
    db.createActivity t i key owner recipient = db.recordActivity t i key owner recipient true := rfl

/-- `db'` is `db` with the activities `as` more, in this order and with new ids. -/
structure Announces (as : List Activity) (db db' : Database) : Prop where
  activities : ∃ added, db'.activities.rows = db.activities.rows ++ added ∧ added.map content = as
  others : Touches [.activities] db db'

namespace Announces

variable {as bs : List Activity} {db db' db'' : Database}

theorem refl (db : Database) : Announces [] db db := ⟨⟨[], (List.append_nil _).symm, rfl⟩, .refl _ db⟩

theorem trans (h : Announces as db db') (h' : Announces bs db' db'') : Announces (as ++ bs) db db'' := by
  obtain ⟨added, hrows, hadded⟩ := h.activities
  obtain ⟨more, hmore, hbs⟩ := h'.activities
  refine ⟨⟨added ++ more, ?_, ?_⟩, h.others.trans h'.others⟩
  · rw [hmore, hrows, List.append_assoc]
  · rw [List.map_append, hadded, hbs]

theorem record (db : Database) (t : Trackable) (i : Nat) (key : Text) (owner recipient : Option Nat)
    (primary : Bool) :
    Announces [⟨0, some t, some i, key, owner, recipient, some primary⟩] db
      (db.recordActivity t i key owner recipient primary) :=
  ⟨⟨[⟨db.activities.next, some t, some i, key, owner, recipient, some primary⟩], rfl, rfl⟩, touches_activities db _⟩

theorem create (db : Database) (t : Trackable) (i : Nat) (key : Text) (owner recipient : Option Nat) :
    Announces [⟨0, some t, some i, key, owner, recipient, some true⟩] db
      (db.createActivity t i key owner recipient) := by
  rw [createActivity_eq]
  exact record db t i key owner recipient true

theorem foldl {ρ : Type} {f : Database → ρ → Database} {g : ρ → Activity}
    (hf : ∀ db r, Announces [g r] db (f db r)) (rs : List ρ) (db : Database) :
    Announces (rs.map g) db (rs.foldl f db) := by
  induction rs generalizing db with
  | nil => exact refl db
  | cons r rs ih => exact (hf db r).trans (ih (f db r))

end Announces

/-- The activities that `db'` has more than `db` tell each one in `S` once about the record, and nobody else. -/
def TellsOnce (t : Trackable) (i : Nat) (key : Text) (primary : Bool) (S : Nat → Prop) (db db' : Database) : Prop :=
  ∃ added, db'.activities.rows = db.activities.rows ++ added ∧ Tally.Exact (tells t i key primary) S added

variable {as : List Activity} {db db' : Database} {t : Trackable} {i : Nat} {key : Text} {primary : Bool}
  {S : Nat → Prop}

theorem Announces.tellsOnce_iff (h : Announces as db db') :
    TellsOnce t i key primary S db db' ↔ (as.filterMap (tells t i key primary)).Nodup ∧
      ∀ r, r ∈ as.filterMap (tells t i key primary) ↔ S r := by
  obtain ⟨added, hrows, hadded⟩ := h.activities
  have hsame : added.filterMap (tells t i key primary) = as.filterMap (tells t i key primary) := by
    rw [← hadded, List.filterMap_map, tells_content]
  rw [TellsOnce, ← hsame, ← Tally.exact_iff]
  constructor
  · rintro ⟨added', hrows', hexact⟩
    rw [hrows] at hrows'
    rwa [List.append_cancel_left hrows']
  · intro hexact
    exact ⟨added, hrows, hexact⟩

/-- What a list of recipients is told. -/
theorem filterMap_tells (owner : Option Nat) (rs : List Nat) :
    (rs.map fun r => (⟨0, some t, some i, key, owner, some r, some primary⟩ : Activity)).filterMap
      (tells t i key primary) = rs := by
  rw [List.filterMap_map]
  have htells : ∀ r, (tells t i key primary ∘ fun r : Nat =>
      (⟨0, some t, some i, key, owner, some r, some primary⟩ : Activity)) r = some r := fun r =>
    if_pos ⟨rfl, rfl, rfl, rfl⟩
  rw [funext htells, List.filterMap_some]

/-- Activities with another flag tell nothing here. -/
theorem filterMap_tells_other {owner : Option Nat} {primary' : Bool} (h : primary' ≠ primary) (rs : List Nat) :
    (rs.map fun r => (⟨0, some t, some i, key, owner, some r, some primary'⟩ : Activity)).filterMap
      (tells t i key primary) = [] := by
  rw [List.filterMap_eq_nil_iff]
  intro a ha
  obtain ⟨r, -, rfl⟩ := List.mem_map.mp ha
  exact if_neg fun hc => h (Option.some.inj hc.2.2.2)

end Database
