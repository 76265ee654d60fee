import BuildInProgress.Feeds
import BuildInProgress.Lib.Run

/-!
# Notifications

`app/controllers/notifications_controller.rb`, which highlights what is new and marks everything the user gets to
see, and `set_notifications_viewed_at` of `app/controllers/application_controller.rb`, which marks the notification a
link came from, whoever follows it.
-/

open Text

instance : Keyed Notice := ⟨fun n => n.activity.id⟩

/-- The activities with the columns of the feeds, beside what `is_private?` asks. -/
structure Inbox where
  w : Discussed
  notices : Table Notice

namespace Inbox

def Notice.seen (n : Notice) : Notice := { n with viewed := some true }

theorem key_seen (n : Notice) : Keyed.key (Notice.seen n) = Keyed.key n := rfl

/-- `update_attributes(:viewed => true)` -/
def view (s : Inbox) (i : Nat) : Inbox := { s with notices := s.notices.modify i Notice.seen key_seen }

/-- What the user gets of a feed, unless it raises. -/
def feed (s : Inbox) (f : Feed) (u : User) : Option (List Notice) := f.shown u s.w s.notices.rows

end Inbox

namespace NotificationsController

open Inbox

/-- `index`: the ids to highlight and the notifications of the page.  The page 0 stands for one that the pagination
refuses, when everything is marked already. -/
def index (u : User) (page : Nat) (s : Inbox) : Option (List Nat × List Notice) × Inbox :=
  match s.feed .allNewNotifications u with
  | none => (none, s)
  | some newNotifications =>
    match s.feed .allNotifications u with
    | none => (none, s)
    | some notifications =>
      let s' := notifications.foldl (fun s n => s.view n.activity.id) s
      if page = 0 then (none, s')
      else
        ((s'.feed .allNotifications u).map fun ns =>
          (newNotifications.map (·.activity.id), (ns.drop (10 * (page - 1))).take 10), s')

end NotificationsController

/-- `set_notifications_viewed_at`, before any action. -/
def setNotificationsViewedAt (currentUser : Option User) (notificationId : Nat) (s : Inbox) : Inbox :=
  if currentUser.isSome && (s.notices.find? notificationId).isSome then s.view notificationId else s

/-! ## What a page marks -/

namespace Inbox

variable {s : Inbox} {u : User}

/-- The rows after some of them are marked. -/
def marked (ids : List Nat) (n : Notice) : Notice := if n.activity.id ∈ ids then Notice.seen n else n

theorem id_marked (ids : List Nat) (n : Notice) : (marked ids n).activity.id = n.activity.id := by
  rw [marked]
  split <;> rfl

theorem activity_marked (ids : List Nat) (n : Notice) : (marked ids n).activity = n.activity := by
  rw [marked]
  split <;> rfl

theorem viewAll (ns : List Notice) (s : Inbox) :
    let s' := ns.foldl (fun s n => s.view n.activity.id) s
    s'.w = s.w ∧ s'.notices.next = s.notices.next ∧
      s'.notices.rows = s.notices.rows.map (marked (ns.map (·.activity.id))) := by
  induction ns generalizing s with
  | nil => exact ⟨rfl, rfl, (List.map_id' s.notices.rows).symm⟩
  | cons n ns ih =>
    obtain ⟨hw, hnext, hrows⟩ := ih (s.view n.activity.id)
    refine ⟨hw, hnext, ?_⟩
    rw [List.foldl_cons, hrows, view, Table.rows_modify, List.map_map]
    apply List.map_congr_left
    intro m _
    rw [Function.comp, List.map_cons, marked, marked]
    show (if _ then _ else _ : Notice) = _
    by_cases hm : m.activity.id = n.activity.id
    · have hkey : Keyed.key m = n.activity.id := hm
      have hin : m.activity.id ∈ n.activity.id :: ns.map (·.activity.id) := by
        rw [hm]
        exact List.mem_cons_self
      rw [if_pos hkey, if_pos hin]
      split <;> rfl
    · have hkey : ¬ Keyed.key m = n.activity.id := hm
      rw [if_neg hkey]
      simp only [List.mem_cons, hm, false_or]

/-- The new notifications are those of all notifications that are not marked. -/
theorem wanted_new {n : Notice} :
    Feed.wanted u n .allNewNotifications = (Feed.wanted u n .allNotifications && n.viewed == some false) := by
  rw [Feed.wanted, Feed.wanted, Notice.notOwn]
  cases hr : n.activity.recipientId == some u.id with
  | false => rfl
  | true =>
    rw [beq_iff_eq] at hr
    rw [hr]
    rw [Option.isNone_some, Bool.or_false, Bool.true_and, Bool.true_and, Bool.and_assoc, Bool.and_comm]

theorem mem_feed {f : Feed} {shown : List Notice} (h : s.feed f u = some shown) {n : Notice} :
    n ∈ shown ↔ n ∈ s.notices.rows ∧ f.wanted u n = true ∧ s.w.isPrivate n.activity = some false := by
  rw [Discussed.mem_publicActivities h, Feed.rows, List.mem_insertionSort, List.mem_filter, and_assoc]

theorem sublist_publicActivities {w : Discussed} {ns shown : List Notice} (h : w.publicActivities ns = some shown) :
    shown.Sublist ns := by
  induction ns generalizing shown with
  | nil =>
    rw [Discussed.publicActivities, Option.some.injEq] at h
    rw [← h]
  | cons n ns ih =>
    rw [Discussed.publicActivities] at h
    split at h
    · rename_i hidden rest _ hrest
      rw [Option.some.injEq] at h
      rw [← h]
      split
      · exact (ih hrest).cons n
      · exact (ih hrest).cons_cons n
    · cases h

theorem nodup_feed {f : Feed} {shown : List Notice} (h : s.feed f u = some shown) :
    (shown.map (·.activity.id)).Nodup := by
  have hrows : ((f.rows u s.notices.rows).map (·.activity.id)).Nodup := by
    rw [Feed.rows, ((List.perm_insertionSort _ _).map _).nodup_iff]
    exact List.Nodup.sublist (List.filter_sublist.map _) s.notices.nodup
  exact hrows.sublist ((sublist_publicActivities h).map _)

/-- When all that is in the feed has been marked, no row of it is left that is not. -/
theorem viewed_of_mem_feed {all shown : List Notice} (hall : s.feed .allNotifications u = some all)
    (hshown : (all.foldl (fun s n => s.view n.activity.id) s).feed .allNotifications u = some shown) {n : Notice}
    (hn : n ∈ shown) : n.viewed = some true := by
  obtain ⟨hw, -, hrows⟩ := viewAll all s
  obtain ⟨hrow, hwanted, hprivate⟩ := (mem_feed hshown).mp hn
  rw [hrows] at hrow
  obtain ⟨m, hm, rfl⟩ := List.mem_map.mp hrow
  rw [Feed.wanted, activity_marked] at hwanted
  rw [hw, activity_marked] at hprivate
  have hin : m.activity.id ∈ all.map (·.activity.id) :=
    List.mem_map.mpr ⟨m, (mem_feed hall).mpr ⟨hm, hwanted, hprivate⟩, rfl⟩
  rw [marked, if_pos hin]
  rfl

end Inbox

/-! ## Runs -/

/-- The requests that write the activities, and any other one. -/
inductive InboxRequest where
  /-- `rendered` is what `index.html.erb` makes of a row: whether its trackable is still there and its text is not
  blank, or that rendering it raises. -/
  | index (u : User) (page : Nat) (rendered : Notice → Option Bool)
  /-- any page, from the link of a notification -/
  | follow (currentUser : Option User) (notificationId : Nat)
  | create (activity : Activity) (now : Nat)
  | destroy (ids : List Nat)
  /-- other tables, and other columns of the activities -/
  | elsewhere (w : Discussed) (change : Activity → Activity)

namespace InboxRequest

open Inbox

/-- A new row; `init` has it not viewed. -/
def newNotice (activity : Activity) (now id : Nat) : Notice := ⟨{ activity with id }, some false, now⟩

theorem key_newNotice (activity : Activity) (now id : Nat) : Keyed.key (newNotice activity now id) = id := rfl

def changed (change : Activity → Activity) (n : Notice) : Notice :=
  { n with activity := { change n.activity with id := n.activity.id } }

theorem key_changed (change : Activity → Activity) (n : Notice) : Keyed.key (changed change n) = Keyed.key n := rfl

def perform (s : Inbox) : InboxRequest → Inbox
  | index u page _ => (NotificationsController.index u page s).2
  | follow currentUser notificationId => setNotificationsViewedAt currentUser notificationId s
  | create activity now =>
    { s with notices := s.notices.insert (newNotice activity now) (key_newNotice activity now) }
  | destroy ids => { s with notices := s.notices.filter fun n => !ids.contains n.activity.id }
  | elsewhere w change => { w, notices := s.notices.map (changed change) (key_changed change) }

/-- The ids that `index` finds to be new, unless a feed raises. -/
def newIds (u : User) (s : Inbox) : List Nat :=
  match s.feed .allNewNotifications u, s.feed .allNotifications u with
  | some ns, some _ => ns.map (·.activity.id)
  | _, _ => []

/-- The rows that `index.html.erb` gives the class `new`. -/
def newRows (rendered : Notice → Option Bool) (newNotificationIds : List Nat) (notifications : List Notice) : List Notice :=
  if notifications.all fun n => (rendered n).isSome then
    notifications.filter fun n =>
      rendered n == some true && (n.viewed != some true || newNotificationIds.contains n.activity.id)
  else []

/-- What a page highlights as new. -/
def highlights (s : Inbox) : InboxRequest → List Nat
  | index u page rendered =>
    match (NotificationsController.index u page s).1 with
    | none => []
    | some (newNotificationIds, notifications) =>
      (newRows rendered newNotificationIds notifications).map (·.activity.id)
  | _ => []

/-- What a page marks and does not highlight, although it is new: it shows ten rows, has no block for a row without a
text, and is not there at all when its number is refused or a row raises. -/
def loses (s : Inbox) : InboxRequest → List Nat
  | index u page rendered => (newIds u s).filter fun i => !(highlights s (index u page rendered)).contains i
  | _ => []

/-- The notification whose link is followed by somebody who is signed in. -/
def opens (s : Inbox) : InboxRequest → List Nat
  | follow currentUser notificationId =>
    if currentUser.isSome && (s.notices.find? notificationId).isSome then [notificationId] else []
  | _ => []

/-- Either both feeds of `index` are there, or one of them raises and nothing happens. -/
theorem index_cases (u : User) (page : Nat) (s : Inbox) :
    (newIds u s = [] ∧ NotificationsController.index u page s = (none, s)) ∨
    ∃ new all, s.feed .allNewNotifications u = some new ∧ s.feed .allNotifications u = some all ∧
      newIds u s = new.map (·.activity.id) ∧
      (NotificationsController.index u page s).2 = all.foldl (fun s n => s.view n.activity.id) s ∧
      ∀ ids rows, (NotificationsController.index u page s).1 = some (ids, rows) →
        ids = newIds u s ∧ (rows.map (·.activity.id)).Nodup ∧ ∀ n ∈ rows, n.viewed = some true := by
  rw [newIds, NotificationsController.index]
  cases hnew : s.feed .allNewNotifications u with
  | none => exact Or.inl ⟨rfl, rfl⟩
  | some new =>
    cases hall : s.feed .allNotifications u with
    | none => exact Or.inl ⟨rfl, rfl⟩
    | some all =>
      refine Or.inr ⟨new, all, rfl, rfl, rfl, ?_, ?_⟩
      · dsimp only
        split <;> rfl
      · dsimp only
        split
        · intro ids rows hrows
          cases hrows
        · intro ids rows hrows
          obtain ⟨ns, hns, hpair⟩ := Option.map_eq_some_iff.mp hrows
          obtain ⟨rfl, rfl⟩ := Prod.mk.inj hpair
          have hsub : ((ns.drop (10 * (page - 1))).take 10).Sublist ns :=
            (List.take_sublist _ _).trans (List.drop_sublist _ _)
          exact ⟨rfl, (nodup_feed hns).sublist (hsub.map _), fun n hn => viewed_of_mem_feed hall hns (hsub.subset hn)⟩

theorem newRows_sublist (rendered : Notice → Option Bool) (ids : List Nat) (rows : List Notice) :
    (newRows rendered ids rows).Sublist rows := by
  rw [newRows]
  split
  · exact List.filter_sublist
  · exact List.nil_sublist _

/-- Once everything is marked, the class `new` is left to the ids that `index` has found before. -/
theorem mem_of_mem_newRows {rendered : Notice → Option Bool} {ids : List Nat} {rows : List Notice}
    (hviewed : ∀ n ∈ rows, n.viewed = some true) {n : Notice} (hn : n ∈ newRows rendered ids rows) :
    n.activity.id ∈ ids := by
  rw [newRows] at hn
  split at hn
  · obtain ⟨hrow, hblock⟩ := List.mem_filter.mp hn
    rw [hviewed n hrow, bne_self_eq_false, Bool.false_or, Bool.and_eq_true, List.contains_eq_mem,
      decide_eq_true_eq] at hblock
    exact hblock.2
  · cases hn

/-- A page highlights only what is new, and everything once. -/
theorem highlights_index (u : User) (page : Nat) (rendered : Notice → Option Bool) (s : Inbox) :
    (highlights s (index u page rendered)).Nodup ∧ ∀ i ∈ highlights s (index u page rendered), i ∈ newIds u s := by
  rw [highlights]
  rcases index_cases u page s with ⟨-, hindex⟩ | ⟨-, -, -, -, -, -, hanswer⟩
  · rw [hindex]
    exact ⟨List.nodup_nil, fun i hi => absurd hi List.not_mem_nil⟩
  · split
    · exact ⟨List.nodup_nil, fun i hi => absurd hi List.not_mem_nil⟩
    · rename_i ids rows hrows
      obtain ⟨rfl, hnodup, hviewed⟩ := hanswer ids rows hrows
      refine ⟨hnodup.sublist ((newRows_sublist _ _ _).map _), fun i hi => ?_⟩
      obtain ⟨n, hn, rfl⟩ := List.mem_map.mp hi
      exact mem_of_mem_newRows hviewed hn

/-- What is new is highlighted or lost. -/
theorem mem_highlights_or_loses (u : User) (page : Nat) (rendered : Notice → Option Bool) (s : Inbox) (i : Nat) :
    i ∈ highlights s (index u page rendered) ++ loses s (index u page rendered) ↔ i ∈ newIds u s := by
  rw [List.mem_append, loses, List.mem_filter, Bool.not_eq_true', List.contains_eq_mem, decide_eq_false_iff_not]
  constructor
  · rintro (hin | hin)
    · exact (highlights_index u page rendered s).2 i hin
    · exact hin.1
  · intro hnew
    by_cases hin : i ∈ highlights s (index u page rendered)
    · exact Or.inl hin
    · exact Or.inr ⟨hnew, hin⟩

/-- The ids in `M` are exactly those of the activities that are marked, or were once there. -/
structure Recorded (M : Nat → Prop) (s : Inbox) : Prop where
  marked : ∀ n ∈ s.notices.rows, n.viewed = some true ∧ M n.activity.id ∨ n.viewed = some false ∧ ¬ M n.activity.id
  old : ∀ i, M i → i < s.notices.next

variable {M : Nat → Prop} {s : Inbox}

theorem Recorded.mem_iff (h : Recorded M s) {n : Notice} (hn : n ∈ s.notices.rows) :
    (n.viewed = some true ↔ M n.activity.id) := by
  rcases h.marked n hn with ⟨hv, hm⟩ | ⟨hv, hm⟩
  · exact iff_of_true hv hm
  · exact iff_of_false (by rw [hv]; simp) hm

/-- Marking some of the rows adds their ids. -/
theorem Recorded.mark (h : Recorded M s) {s' : Inbox} {ids : List Nat} (hnext : s'.notices.next = s.notices.next)
    (hrows : s'.notices.rows = s.notices.rows.map (Inbox.marked ids)) {new : List Nat}
    (hnew : ∀ i, i ∈ ids ∨ M i ↔ i ∈ new ∨ M i) (hfound : ∀ i ∈ new, i < s.notices.next) :
    Recorded (fun i => i ∈ new ∨ M i) s' where
  marked n hn := by
    rw [hrows] at hn
    obtain ⟨m, hm, rfl⟩ := List.mem_map.mp hn
    rw [id_marked, ← hnew, Inbox.marked]
    by_cases hin : m.activity.id ∈ ids
    · rw [if_pos hin]
      exact Or.inl ⟨rfl, Or.inl hin⟩
    · rw [if_neg hin, or_iff_right hin]
      exact h.marked m hm
  old i hi := by
    rw [hnext]
    exact hi.elim (hfound i) (h.old i)

/-- The rows that `index` marks and had not been marked are those that are new. -/
theorem mem_new_or (h : Recorded M s) {u : User} {new all : List Notice}
    (hnew : s.feed .allNewNotifications u = some new) (hall : s.feed .allNotifications u = some all) (i : Nat) :
    (i ∈ all.map (·.activity.id) ∨ M i ↔ i ∈ new.map (·.activity.id) ∨ M i) ∧
      (i ∈ new.map (·.activity.id) → ¬ M i ∧ i < s.notices.next) := by
  have hmem : ∀ n, n ∈ new ↔ n ∈ all ∧ n.viewed = some false := by
    intro n
    rw [mem_feed hnew, mem_feed hall, wanted_new, Bool.and_eq_true, beq_iff_eq]
    tauto
  have hrow : ∀ n ∈ all, n ∈ s.notices.rows := fun n hn => ((mem_feed hall).mp hn).1
  refine ⟨⟨?_, ?_⟩, ?_⟩
  · rintro (hin | hm)
    · obtain ⟨n, hn, rfl⟩ := List.mem_map.mp hin
      rcases h.marked n (hrow n hn) with ⟨-, hm⟩ | ⟨hv, -⟩
      · exact Or.inr hm
      · exact Or.inl (List.mem_map.mpr ⟨n, (hmem n).mpr ⟨hn, hv⟩, rfl⟩)
    · exact Or.inr hm
  · rintro (hin | hm)
    · obtain ⟨n, hn, rfl⟩ := List.mem_map.mp hin
      exact Or.inl (List.mem_map.mpr ⟨n, ((hmem n).mp hn).1, rfl⟩)
    · exact Or.inr hm
  · intro hin
    obtain ⟨n, hn, rfl⟩ := List.mem_map.mp hin
    obtain ⟨hn, hv⟩ := (hmem n).mp hn
    refine ⟨?_, (s.notices.bound n (hrow n hn)).2⟩
    rw [← h.mem_iff (hrow n hn), hv]
    simp

/-- Requests that mark nothing. -/
theorem Recorded.keep (h : Recorded M s) {s' : Inbox} (hnext : s.notices.next ≤ s'.notices.next)
    (hrows : ∀ n ∈ s'.notices.rows, (∃ m ∈ s.notices.rows, m.activity.id = n.activity.id ∧ m.viewed = n.viewed) ∨
      n.viewed = some false ∧ s.notices.next ≤ n.activity.id) : Recorded M s' where
  marked n hn := by
    rcases hrows n hn with ⟨m, hm, hid, hviewed⟩ | ⟨hv, hfresh⟩
    · rw [← hid, ← hviewed]
      exact h.marked m hm
    · refine Or.inr ⟨hv, fun hm => ?_⟩
      have hlt := h.old _ hm
      omega
  old i hi := Nat.lt_of_lt_of_le (h.old i hi) hnext

/-- One request: what it highlights had not been marked, and what it marks is highlighted, lost or opened. -/
theorem Recorded.step (h : Recorded M s) (r : InboxRequest) :
    (highlights s r).Nodup ∧ (∀ i ∈ highlights s r, ¬ M i) ∧
      Recorded (fun i => i ∈ highlights s r ++ loses s r ++ opens s r ∨ M i) (perform s r) := by
  have hsame : ∀ {s' : Inbox}, Recorded M s' → Recorded (fun i => i ∈ [] ++ [] ++ [] ∨ M i) s' := by
    intro s' hs'
    simpa using hs'
  cases r with
  | index u page rendered =>
    have hopens : opens s (index u page rendered) = [] := rfl
    have hboth := mem_highlights_or_loses u page rendered s
    obtain ⟨hnodup, hsub⟩ := highlights_index u page rendered s
    rw [hopens, List.append_nil]
    rcases index_cases u page s with ⟨hnone, hindex⟩ | ⟨new, all, hnew, hall, hids, hstate, -⟩
    · have hstate : perform s (index u page rendered) = s := congrArg Prod.snd hindex
      have hempty : highlights s (index u page rendered) ++ loses s (index u page rendered) = [] := by
        rw [List.eq_nil_iff_forall_not_mem]
        intro i hi
        rw [hboth, hnone] at hi
        cases hi
      rw [hstate, hempty]
      refine ⟨hnodup, fun i hi => ?_, hsame h⟩
      rw [hnone] at hsub
      exact absurd (hsub i hi) List.not_mem_nil
    · obtain ⟨-, hnext, hrows⟩ := viewAll all s
      rw [hids] at hsub hboth
      refine ⟨hnodup, fun i hi => ((mem_new_or h hnew hall i).2 (hsub i hi)).1, ?_⟩
      rw [perform, hstate]
      refine h.mark hnext hrows (fun i => ?_) fun i hi => ((mem_new_or h hnew hall i).2 ((hboth i).mp hi)).2
      rw [(mem_new_or h hnew hall i).1, hboth]
  | follow currentUser notificationId =>
    refine ⟨List.nodup_nil, fun i hi => absurd hi List.not_mem_nil, ?_⟩
    have hopens : highlights s (follow currentUser notificationId) ++ loses s (follow currentUser notificationId) ++
        opens s (follow currentUser notificationId) =
          if currentUser.isSome && (s.notices.find? notificationId).isSome then [notificationId] else [] := rfl
    have hstate : perform s (follow currentUser notificationId) =
        if currentUser.isSome && (s.notices.find? notificationId).isSome then s.view notificationId else s := rfl
    rw [hopens, hstate]
    split
    · rename_i hopen
      rw [Bool.and_eq_true] at hopen
      obtain ⟨n, hn⟩ := Option.isSome_iff_exists.mp hopen.2
      obtain ⟨hrow, hid⟩ := Table.find?_eq_some.mp hn
      have hrows : (s.view notificationId).notices.rows = s.notices.rows.map (Inbox.marked [notificationId]) := by
        rw [view, Table.rows_modify]
        apply List.map_congr_left
        intro m _
        simp only [Inbox.marked, List.mem_singleton]
        rfl
      have hnext : (s.view notificationId).notices.next = s.notices.next := rfl
      refine h.mark hnext hrows (fun i => Iff.rfl) ?_
      intro i hi
      rw [List.mem_singleton.mp hi, ← hid]
      exact (s.notices.bound n hrow).2
    · exact hsame h
  | create activity now =>
    refine ⟨List.nodup_nil, fun i hi => absurd hi List.not_mem_nil, hsame (h.keep (Nat.le_succ _) ?_)⟩
    intro n hn
    rcases List.mem_append.mp hn with hold | hnew
    · exact Or.inl ⟨n, hold, rfl, rfl⟩
    · rw [List.mem_singleton.mp hnew]
      exact Or.inr ⟨rfl, Nat.le_refl _⟩
  | destroy ids =>
    refine ⟨List.nodup_nil, fun i hi => absurd hi List.not_mem_nil, hsame (h.keep (Nat.le_refl _) ?_)⟩
    exact fun n hn => Or.inl ⟨n, List.mem_of_mem_filter hn, rfl, rfl⟩
  | elsewhere w change =>
    refine ⟨List.nodup_nil, fun i hi => absurd hi List.not_mem_nil, hsame (h.keep (Nat.le_refl _) ?_)⟩
    intro n hn
    obtain ⟨m, hm, rfl⟩ := List.mem_map.mp hn
    exact Or.inl ⟨m, hm, rfl, rfl⟩

end InboxRequest

open InboxRequest in
/-- While nothing is marked at the start, no activity is highlighted as new twice, by whatever pages of whomever, and a
mark says that the activity was highlighted, or was new to a page that did not highlight it, or that somebody came from
its link. -/
theorem notifications_highlighted_once {s : Inbox} (h : ∀ n ∈ s.notices.rows, n.viewed = some false)
    (rs : List InboxRequest) :
    (Run.output perform highlights s rs).Nodup ∧
      ∀ n ∈ (Run.after perform s rs).notices.rows, n.viewed = some true ↔
        n.activity.id ∈ Run.output perform highlights s rs ∨ n.activity.id ∈ Run.output perform loses s rs ∨
          n.activity.id ∈ Run.output perform opens s rs := by
  have hrun : ∀ (rs : List InboxRequest) {s : Inbox} {M : Nat → Prop}, Recorded M s →
      (Run.output perform highlights s rs).Nodup ∧ (∀ i ∈ Run.output perform highlights s rs, ¬ M i) ∧
        Recorded (fun i => (i ∈ Run.output perform highlights s rs ∨ i ∈ Run.output perform loses s rs ∨
          i ∈ Run.output perform opens s rs) ∨ M i) (Run.after perform s rs) := by
    intro rs
    induction rs with
    | nil =>
      intro s M h
      refine ⟨List.nodup_nil, fun i hi => absurd hi List.not_mem_nil, ?_⟩
      simpa [Run.output, Run.after] using h
    | cons r rs ih =>
      intro s M h
      obtain ⟨hnodup, hfresh, hnext⟩ := h.step r
      obtain ⟨hnodup', hfresh', hlast⟩ := ih hnext
      refine ⟨?_, ?_, ?_⟩
      · refine List.nodup_append.mpr ⟨hnodup, hnodup', fun i hi j hj hij => ?_⟩
        refine hfresh' j hj (Or.inl ?_)
        rw [← hij, List.append_assoc]
        exact List.mem_append_left _ hi
      · intro i hi
        rcases List.mem_append.mp hi with hi | hi
        · exact hfresh i hi
        · exact fun hm => hfresh' i hi (Or.inr hm)
      · have hsets : (fun i => (i ∈ Run.output perform highlights s (r :: rs) ∨
              i ∈ Run.output perform loses s (r :: rs) ∨ i ∈ Run.output perform opens s (r :: rs)) ∨ M i) =
            fun i => (i ∈ Run.output perform highlights (perform s r) rs ∨
              i ∈ Run.output perform loses (perform s r) rs ∨ i ∈ Run.output perform opens (perform s r) rs) ∨
                i ∈ highlights s r ++ loses s r ++ opens s r ∨ M i := by
          funext i
          simp only [Run.output, List.mem_append, eq_iff_iff]
          tauto
        rw [hsets]
        exact hlast
  have hstart : Recorded (fun _ => False) s := ⟨fun n hn => Or.inr ⟨h n hn, id⟩, fun _ hi => hi.elim⟩
  obtain ⟨hnodup, -, hlast⟩ := hrun rs hstart
  refine ⟨hnodup, fun n hn => (hlast.mem_iff hn).trans (or_false _).to_iff⟩

/-- Ada follows Bob, who looks at his notifications twice; the second time the row is not new any more. -/
theorem notifications_of_bob :
    let s : Inbox := ⟨⟨.empty, Table.empty⟩, .ofRows [⟨⟨1, some .user, some 2, "user.follow".toList, some 1, some 2, some true⟩,
      some false, 1⟩] 2 (by decide +kernel)⟩
    let rs : List InboxRequest := [.index bob 1 fun _ => some true, .index bob 1 fun _ => some true]
    Run.output InboxRequest.perform InboxRequest.highlights s rs = [1] ∧
      ∀ n ∈ (Run.after InboxRequest.perform s rs).notices.rows, n.viewed = some true := by
  intro s rs
  have hfresh : ∀ n ∈ s.notices.rows, n.viewed = some false := by decide +kernel
  have hout : Run.output InboxRequest.perform InboxRequest.highlights s rs = [1] := by decide +kernel
  have hids : ∀ n ∈ (Run.after InboxRequest.perform s rs).notices.rows, n.activity.id = 1 := by decide +kernel
  refine ⟨hout, fun n hn => ((notifications_highlighted_once hfresh rs).2 n hn).mpr (Or.inl ?_)⟩
  rw [hout, hids n hn]
  exact List.mem_cons_self
