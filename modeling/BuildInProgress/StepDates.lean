import BuildInProgress.Lib.Strftime
import BuildInProgress.StepUpdate

/-!
# The publication time in the step form

The form shows the date and the time of day at which a step was published in the time zone of the application.
`update` puts the seconds of the stored time into the text and reads it with the zone that is submitted.  Times are
shown in the Gregorian calendar and read in that of Italy, which is another one for dates in front of its reform.
-/

open Text Calendar Strftime

/-- The time zone of the application.  Stored times count from the day `origin`, the offsets are in seconds, and
`resolve` stands for the zones that `%Z` knows. -/
structure Clock where
  origin : Int
  zone : Nat → Text
  offset : Nat → Int
  resolve : Text → Option Int

namespace Clock

/-- A stored time as it is displayed. -/
def display (k : Clock) (t : Nat) : LocalTime :=
  LocalTime.ofSeconds (k.origin * 86400 + t + k.offset t) (k.zone t)

/-- `published_on_date` -/
def publishedOnDate (k : Clock) (t : Nat) : Text := (k.display t).strftime "%m/%d/%Y".toList

/-- `published_on_time` -/
def publishedOnTime (k : Clock) (t : Nat) : Text := (k.display t).strftime "%I:%M %p".toList

/-- The last year of the column. -/
def lastYear : Int := 294276

/-- What the column holds after the time with these seconds since the year 0 has been written.  The date is written as
in Italy, and the database takes it for a Gregorian one. -/
def column (n : Int) : Option Int :=
  let day := n / 86400
  if reform ≤ day then if (ofDays day).year ≤ lastYear then some n else none
  else
    let (year, month, dayOfMonth) := julianOfDays day
    if 0 < year then (Date.civil? year month dayOfMonth).map fun c => c.days * 86400 + n % 86400 else none

/-- `DateTime.strptime` with the format of `update`, and what is stored of it. -/
def strptime (k : Clock) (text : Text) : Option Nat :=
  ((Strftime.strptime k.resolve "%m/%d/%Y %I:%M:%S %p %Z".toList text).bind column).bind fun n =>
    if k.origin * 86400 ≤ n then some (n - k.origin * 86400).toNat else none

def format (k : Clock) : DateFormat := ⟨k.strptime, fun t => (k.display t).second⟩

/-- The time lies between the reform and the end of the column. -/
def Modern (k : Clock) (t : Nat) : Prop :=
  reform ≤ (k.origin * 86400 + t) / 86400 ∧ (ofDays ((k.origin * 86400 + t) / 86400)).year ≤ lastYear

instance (k : Clock) (t : Nat) : Decidable (k.Modern t) := inferInstanceAs (Decidable (_ ∧ _))

theorem column_of_modern {k : Clock} {t : Nat} (h : k.Modern t) : column (k.origin * 86400 + t) = some (k.origin * 86400 + t) := by
  rw [column]
  dsimp only
  rw [if_pos h.1, if_pos h.2]

end Clock

/-! ## The text that `update` reads -/

/-- The format of `update` up to the zone. -/
def beforeZone : List Directive :=
  [.month, .char '/', .day, .char '/', .year, .char ' ', .hour, .char ':', .minute, .char ':', .second, .char ' ',
    .meridian]

theorem directives_update : directives "%m/%d/%Y %I:%M:%S %p %Z".toList = beforeZone ++ [.char ' ', .zone] := by
  decide

theorem strftime_date (l : LocalTime) : l.strftime "%m/%d/%Y".toList =
    [Directive.month, .char '/', .day, .char '/', .year].flatMap (print l) := by
  rw [LocalTime.strftime, show directives "%m/%d/%Y".toList = [.month, .char '/', .day, .char '/', .year] by decide]

theorem strftime_time (l : LocalTime) : l.strftime "%I:%M %p".toList =
    (print l .hour ++ ':' :: print l .minute) ++ ' ' :: print l .meridian := by
  rw [LocalTime.strftime, show directives "%I:%M %p".toList = [.hour, .char ':', .minute, .char ' ', .meridian] by decide]
  simp [List.flatMap_cons, print]

/-- The two fields show different parts of the time. -/
theorem strftime_date_congr (l l' : LocalTime) (h : l.date = l'.date) :
    l.strftime "%m/%d/%Y".toList = l'.strftime "%m/%d/%Y".toList := by
  rw [strftime_date, strftime_date]
  simp only [List.flatMap_cons, List.flatMap_nil, print, h]

theorem strftime_time_congr (l l' : LocalTime) (hhour : l.hour = l'.hour) (hminute : l.minute = l'.minute) :
    l.strftime "%I:%M %p".toList = l'.strftime "%I:%M %p".toList := by
  rw [strftime_time, strftime_time]
  simp only [print, hhour, hminute]

theorem length_hour_minute (l : LocalTime) : (print l .hour ++ ':' :: print l .minute).length = 5 := by
  have hminute := l.minute_lt
  rw [List.length_append, List.length_cons, print, print, length_pad_two (by omega), length_pad_two (by omega)]

theorem twoDigits_eq_pad {n : Nat} (h : n < 60) : StepsController.twoDigits n = pad 2 n := by
  revert n
  decide

/-- With the seconds behind the minutes it is one text in the format of `update`. -/
theorem insert_seconds (l : LocalTime) (zone : Text) : l.strftime "%m/%d/%Y".toList ++
    ' ' :: (l.strftime "%I:%M %p".toList).take 5 ++ ':' :: pad 2 l.second ++ (l.strftime "%I:%M %p".toList).drop 5 ++
      ' ' :: zone = beforeZone.flatMap (print l) ++ ' ' :: zone := by
  rw [strftime_date, strftime_time, List.take_left' (length_hour_minute l), List.drop_left' (length_hour_minute l)]
  simp [beforeZone, List.flatMap_cons, print]

/-- The directives in front of the zone end where the text goes on. -/
theorem readable_update (l : LocalTime) (zone : Text) :
    Readable l [.char ' ', .zone] (' ' :: zone) beforeZone := by
  have hslash : isSpace '/' = false := by decide
  have hcolon : isSpace ':' = false := by decide
  have hyear : ∀ ds rest, Ends (.char ' ' :: ds) (print l (.char ' ') ++ rest) .year := fun ds rest => by
    refine ⟨rfl, ?_⟩
    show ¬ Char.isDigit ' ' = true
    decide
  -- behind a blank comes no other one
  have hhour : ∀ ds rest, Ends ds (print l .hour ++ rest) (.char ' ') := fun ds rest _ => by
    obtain ⟨c, t, hc, hdigit⟩ := head_pad 2 ((l.hour + 11) % 12 + 1) rest
    rw [print, hc]
    simpa using not_isSpace_of_isDigit hdigit
  have hmeridian : ∀ ds rest, Ends ds (print l .meridian ++ rest) (.char ' ') := fun ds rest _ => by
    rw [print]
    split
    · show ¬ isSpace 'A' = true
      decide
    · show ¬ isSpace 'P' = true
      decide
  have hword : ¬ (' ' :: zone).head?.any wordChar := by
    show ¬ wordChar ' ' = true
    decide
  simp only [beforeZone, Readable, List.flatMap_cons, List.append_assoc, List.cons_append]
  exact ⟨trivial, ends_char hslash, trivial, ends_char hslash, hyear _ _, hhour _ _, trivial, ends_char hcolon, trivial,
    ends_char hcolon, trivial, hmeridian _ _, hword, trivial⟩

/-- From the reform on the text gives back the local time that was printed into it, in the zone that is submitted. -/
theorem strptime_update {resolve : Text → Option Int} {zone : Text} {o : Int}
    (hzone : resolve (zone.dropWhile isSpace) = some o) (l : LocalTime) (hreform : reform ≤ l.date.days) :
    Strftime.strptime resolve "%m/%d/%Y %I:%M:%S %p %Z".toList (beforeZone.flatMap (print l) ++ ' ' :: zone) =
      some (l.seconds - o) := by
  have hrest : ∀ e, parse resolve [.char ' ', .zone] e (' ' :: zone) = some ({ e with offset := o }, []) := by
    intro e
    show (Option.map (fun o => (({ e with offset := o } : Elements), ([] : Text)))
      (resolve (zone.dropWhile isSpace))).bind some = _
    rw [hzone]
    rfl
  have hhour : ((l.hour + 11) % 12 + 1) % 12 + (if l.hour < 12 then 0 else 12) = l.hour := by
    have hlt := l.hour_lt
    split <;> omega
  have hsecond : min l.second 59 = l.second := by
    have hlt := l.second_lt
    omega
  rw [Strftime.strptime, directives_update, parse_print resolve (readable_update l zone), hrest]
  show (italianDays? l.date.year l.date.month l.date.day).map (fun days => days * 86400 +
    ((((l.hour + 11) % 12 + 1) % 12 + (if l.hour < 12 then 0 else 12)) * 3600 + l.minute * 60 + min l.second 59 : Nat) -
      o) = _
  rw [italianDays?_of_le hreform, hhour, hsecond]
  rfl

namespace StepsController

open Database

variable {k : Clock} {l : LocalTime} {t : Nat}

/-- A date and a time that show the old seconds are read as the time with this local time. -/
theorem submittedDate_eq {s : Step} {zone : Text} {o : Int} {t' : Nat} (hpublished : s.publishedOn = some t)
    (hzone : k.resolve (zone.dropWhile isSpace) = some o) (hsecond : l.second = (k.display t).second)
    (hreform : reform ≤ l.date.days) (hmodern : k.Modern t') (htime : k.origin * 86400 + t' = l.seconds - o) :
    submittedDate k.format s ⟨l.strftime "%m/%d/%Y".toList, some (l.strftime "%I:%M %p".toList), some zone⟩ =
      some t' := by
  have hlong : ¬ (l.strftime "%I:%M %p".toList).length < 5 := by
    rw [strftime_time, List.length_append, length_hour_minute]
    omega
  have hpad : twoDigits (k.format.second t) = pad 2 l.second := by
    rw [hsecond]
    exact twoDigits_eq_pad (k.display t).second_lt
  rw [submittedDate, hpublished]
  show (if _ then none else k.strptime _) = some t'
  rw [if_neg hlong, hpad, insert_seconds, Clock.strptime, strptime_update hzone l hreform, ← htime, Option.bind_some,
    Clock.column_of_modern hmodern, Option.bind_some, if_pos (by omega),
    show (k.origin * 86400 + t' - k.origin * 86400).toNat = t' by omega]

/-! ## The round trip -/

/-- After the request with the form and these date fields the step is stored as published at `t`. -/
def StoresPublishedOn (k : Clock) (c : SaveContext) (u : User) (now p : Nat) (id : Int) (h : StepHash) (db : Database)
    (s t : Nat) (d : DateFields) : Prop :=
  ∃ s', (updateHash k.format c u now p id (some (h.dated (some d))) db).2.steps.find? s = some s' ∧
    s'.publishedOn = some t

variable {c : SaveContext} {db : Database} {p : Nat} {id : Int} {project : Project} {s : Step} {u : User} {h : StepHash}

/-- The publication time is assigned behind everything else. -/
theorem assign_publishedOn (c : SaveContext) (db : Database) (s : Step) (gone : Option Question)
    (columns : List StepAttr) (h : StepHash) (d d' : Option DateFields) (t : Nat) :
    assign c db s gone (columns ++ [.publishedOn (some t)]) (h.dated d) =
      (assign c db s gone columns (h.dated d')).map fun a =>
        { a with step := { a.step with publishedOn := some t } } := by
  have hcolumns : StepAttr.assignAll db s (columns ++ [.publishedOn (some t)]) =
      (StepAttr.assignAll db s columns).map fun s => { s with publishedOn := some t } := by
    rw [StepAttr.assignAll, List.foldlM_append, ← StepAttr.assignAll]
    cases StepAttr.assignAll db s columns <;> rfl
  rw [assign, hcolumns, assign]
  cases StepAttr.assignAll db s columns with
  | none => rfl
  | some s' =>
    show (assignQuestion db s.id gone h.question >>= _) = Except.map _ (assignQuestion db s.id gone h.question >>= _)
    cases assignQuestion db s.id gone h.question with
    | error o => rfl
    | ok question =>
      show (assignImages db s.id h.images >>= _) = Except.map _ (assignImages db s.id h.images >>= _)
      cases assignImages db s.id h.images with
      | error o => rfl
      | ok images =>
        show (assignFiles c.designFiles s.id h.designFiles >>= _) =
          Except.map _ (assignFiles c.designFiles s.id h.designFiles >>= _)
        cases assignFiles c.designFiles s.id h.designFiles <;> rfl

/-- What is accepted without date fields is accepted with a time that they give. -/
theorem accepted_dated {d : DateFields} (haccepted : (accepted k.format c db s (some (h.dated none))).isSome = true)
    (htakes : ∀ s : Step, c.takesStep s = true → c.takesStep { s with publishedOn := some t } = true)
    (hdate : submittedDate k.format s d = some t) :
    ∃ a, accepted k.format c db s (some (h.dated (some d))) = some a ∧ a.step.publishedOn = some t := by
  have hdated : datedColumns k.format s (h.dated (some d)) = some (h.columns ++ [.publishedOn (some t)]) := by
    show (submittedDate k.format s d).map (fun t => h.columns ++ [.publishedOn (some t)]) = _
    rw [hdate]
    rfl
  obtain ⟨a, ha⟩ := Option.isSome_iff_exists.mp haccepted
  obtain ⟨hquestion, hfiles, columns, hcolumns, hassign, hvalid, hfits, hfound⟩ := accepted_eq_some.mp ha
  have hcolumns : h.columns = columns := Option.some.inj hcolumns
  refine ⟨{ a with step := { a.step with publishedOn := some t } }, ?_, rfl⟩
  refine accepted_eq_some.mpr ⟨hquestion, hfiles, _, hdated, ?_, hvalid, ?_, hfound⟩
  · rw [assign_publishedOn c _ s _ _ h _ none t, hcolumns]
    exact congrArg (Except.map _) hassign
  · simp only [Assigned.fits, Bool.and_eq_true] at hfits ⊢
    exact ⟨⟨⟨⟨htakes a.step hfits.1.1.1.1, hfits.1.1.1.2⟩, hfits.1.1.2⟩, hfits.1.2⟩, hfits.2⟩

/-- A request that is let through and can be saved stores the time that its date fields are read as. -/
theorem storesPublishedOn (now : Nat) {d : DateFields} (hproject : db.projects.find? p = some project)
    (hstep : findByPosition db p id = some s) (hallowed : Ability.updateStep db u s = some true)
    (haccepted : (accepted k.format c db s (some (h.dated none))).isSome = true)
    (htakes : ∀ s : Step, c.takesStep s = true → c.takesStep { s with publishedOn := some t } = true)
    (hdate : submittedDate k.format s d = some t) : StoresPublishedOn k c u now p id h db s.id t d := by
  have hs : s ∈ db.steps.rows := (mem_projectSteps.mp (List.mem_of_find?_eq_some hstep)).1
  obtain ⟨a, ha, htime⟩ := accepted_dated haccepted htakes hdate
  rcases updateHash_cases k.format c now (some (h.dated (some d))) hproject hstep hallowed with
    ⟨hnone, -⟩ | ⟨a', db₁, db₂, record, hsome, -, hid, hentered, -, hsave, heq⟩
  · rw [ha] at hnone
    cases hnone
  · rw [ha, Option.some.injEq] at hsome
    rw [← hsome] at hid hsave heq
    refine ⟨written now a.step, ?_, ?_⟩
    · rw [heq]
      exact find?_afterSave (hentered.steps ▸ hs) hid hsave
    · rw [written]
      split <;> exact htime

theorem seconds_display (k : Clock) (t : Nat) : (k.display t).seconds = k.origin * 86400 + t + k.offset t :=
  LocalTime.seconds_ofSeconds _ _

end StepsController

open StepsController Database

/-- Submitting the date and the time of a step with a zone of the displayed offset stores its publication time again,
if it is shown with a date from the reform on; another such date and another hour and minute move it by as much, and
the seconds stay.  The form may hold anything else that can be saved. -/
theorem update_published_on {k : Clock} {c : SaveContext} {db : Database} {p : Nat} {id : Int} {project : Project}
    {s : Step} {u : User} {h : StepHash} {t : Nat} {zone : Text} (hproject : db.projects.find? p = some project)
    (hstep : findByPosition db p id = some s) (hallowed : Ability.updateStep db u s = some true)
    (haccepted : (accepted k.format c db s (some (h.dated none))).isSome = true)
    (htakes : ∀ (s : Step) (t : Nat), k.Modern t → c.takesStep s = true →
      c.takesStep { s with publishedOn := some t } = true)
    (hpublished : s.publishedOn = some t) (hzone : k.resolve (zone.dropWhile isSpace) = some (k.offset t))
    (hmodern : k.Modern t) (hreform : reform ≤ (k.display t).date.days) (now : Nat) :
    StoresPublishedOn k c u now p id h db s.id t ⟨k.publishedOnDate t, some (k.publishedOnTime t), some zone⟩ ∧
      (∀ (d : Date) (t' : Nat), reform ≤ d.days → k.Modern t' →
        (t' : Int) = t + 86400 * (d.days - (k.display t).date.days) →
        StoresPublishedOn k c u now p id h db s.id t' ⟨{ k.display t with date := d }.strftime "%m/%d/%Y".toList,
          some (k.publishedOnTime t), some zone⟩ ∧ t' % 60 = t % 60) ∧
      ∀ (hour m : Nat) (hh : hour < 24) (hm : m < 60) (t' : Nat), k.Modern t' →
        (t' : Int) = t + 60 * ((60 * hour + m : Nat) - (60 * (k.display t).hour + (k.display t).minute : Nat)) →
        StoresPublishedOn k c u now p id h db s.id t' ⟨k.publishedOnDate t,
          some ({ k.display t with hour := hour, minute := m, hour_lt := hh, minute_lt := hm }.strftime "%I:%M %p".toList),
          some zone⟩ ∧ t' % 60 = t % 60 := by
  have hown := seconds_display k t
  have hstored : ∀ (l : LocalTime) (t' : Nat), l.second = (k.display t).second → reform ≤ l.date.days → k.Modern t' →
      k.origin * 86400 + t' = l.seconds - k.offset t → StoresPublishedOn k c u now p id h db s.id t'
        ⟨l.strftime "%m/%d/%Y".toList, some (l.strftime "%I:%M %p".toList), some zone⟩ := by
    intro l t' hsecond hdate hmodern' htime
    apply storesPublishedOn now hproject hstep hallowed haccepted fun s => htakes s t' hmodern'
    exact submittedDate_eq hpublished hzone hsecond hdate hmodern' htime
  rw [LocalTime.seconds] at hown
  refine ⟨hstored (k.display t) t rfl hreform hmodern ?_, fun d t' hd hmodern' ht' => ⟨?_, ?_⟩,
    fun hour m hh hm t' hmodern' ht' => ⟨?_, ?_⟩⟩
  · rw [LocalTime.seconds]
    omega
  · -- another date does not show in the time of day
    rw [Clock.publishedOnTime, strftime_time_congr (k.display t) { k.display t with date := d } rfl rfl]
    refine hstored { k.display t with date := d } t' rfl hd hmodern' ?_
    show k.origin * 86400 + t' = d.days * 86400 +
      ((k.display t).hour * 3600 + (k.display t).minute * 60 + (k.display t).second : Nat) - k.offset t
    omega
  · omega
  · rw [Clock.publishedOnDate,
      strftime_date_congr (k.display t) { k.display t with hour := hour, minute := m, hour_lt := hh, minute_lt := hm } rfl]
    refine hstored { k.display t with hour := hour, minute := m, hour_lt := hh, minute_lt := hm } t' rfl hreform hmodern' ?_
    show k.origin * 86400 + t' = (k.display t).date.days * 86400 +
      (hour * 3600 + m * 60 + (k.display t).second : Nat) - k.offset t
    omega
  · omega

/-- The time zone of the application in winter, for a database that counts its times from the year 2013. -/
def easternTime : Clock where
  origin := 735234
  zone := fun _ => "EST".toList
  offset := fun _ => -18000
  resolve := fun zone =>
    if zone = "EST".toList then some (-18000) else if zone = "EDT".toList then some (-14400) else
      if zone = "UTC".toList then some 0 else none

example : easternTime.publishedOnDate 1 = "12/31/2012".toList ∧ easternTime.publishedOnTime 1 = "07:00 PM".toList := by
  decide

/-- A form that only shows the date fields. -/
def dateForm : StepHash := ⟨[], .absent, .absent, .absent, none, rfl⟩

/-- The author of the lamp submits the date and the time that the form shows. -/
theorem update_published_on_lamp :
    let db := Run.after (StepRequest.perform 1) (.oneProject "Lamp".toList none) fourSteps
    ∃ s, findByPosition db 1 1 = some s ∧ s.publishedOn = some 1 ∧
      StoresPublishedOn easternTime plainServer ada 5 1 1 dateForm db s.id 1
        ⟨easternTime.publishedOnDate 1, some (easternTime.publishedOnTime 1), some "EST".toList⟩ := by
  intro db
  have hfound : db.projects.find? 1 = some db.projects.rows[0] ∧ findByPosition db 1 1 = some db.steps.rows[1] ∧
      Ability.updateStep db ada db.steps.rows[1] = some true ∧ db.steps.rows[1].publishedOn = some 1 ∧
      (accepted easternTime.format plainServer db db.steps.rows[1] (some (dateForm.dated none))).isSome = true := by
    decide +kernel
  obtain ⟨hproject, hstep, hallowed, hpublished, haccepted⟩ := hfound
  have hzone : easternTime.resolve ("EST".toList.dropWhile isSpace) = some (easternTime.offset 1) := by decide
  exact ⟨_, hstep, hpublished, (update_published_on hproject hstep hallowed haccepted (fun _ _ _ htakes => htakes)
    hpublished hzone (by decide) (by decide) 5).1⟩

/-- The same zone in October 1582, when New York had its own solar time. -/
def solarTime : Clock where
  origin := 578091
  zone := fun _ => "LMT".toList
  offset := fun _ => -17762
  resolve := fun zone => if zone = "-04:56:02".toList then some (-17762) else none

/-- A step that was published on the fourth of October 1582: the author submits what the form shows, and in Italy the
fifteenth comes next, so the step is published ten days later. -/
theorem published_in_1582 :
    let db := Run.after (StepRequest.perform 1) (.oneProject "Lamp".toList none) fourSteps
    let d : DateFields := ⟨solarTime.publishedOnDate 1, some (solarTime.publishedOnTime 1), some "-04:56:02".toList⟩
    d.date = "10/04/1582".toList ∧ d.time = some "07:03 PM".toList ∧
      solarTime.resolve ("-04:56:02".toList.dropWhile isSpace) = some (solarTime.offset 1) ∧
      ∃ s, findByPosition db 1 1 = some s ∧ Ability.updateStep db ada s = some true ∧
        (accepted solarTime.format plainServer db s (some (dateForm.dated none))).isSome = true ∧
        s.publishedOn = some 1 ∧ StoresPublishedOn solarTime plainServer ada 5 1 1 dateForm db s.id 864001 d ∧
        ¬ StoresPublishedOn solarTime plainServer ada 5 1 1 dateForm db s.id 1 d := by
  intro db d
  have hfields : d.date = "10/04/1582".toList ∧ d.time = some "07:03 PM".toList ∧
      solarTime.resolve ("-04:56:02".toList.dropWhile isSpace) = some (solarTime.offset 1) := by decide
  have hfound : findByPosition db 1 1 = some db.steps.rows[1] ∧ Ability.updateStep db ada db.steps.rows[1] = some true ∧
      (accepted solarTime.format plainServer db db.steps.rows[1] (some (dateForm.dated none))).isSome = true ∧
      db.steps.rows[1].publishedOn = some 1 ∧
      ((updateHash solarTime.format plainServer ada 5 1 1 (some (dateForm.dated (some d))) db).2.steps.find?
        db.steps.rows[1].id).map Step.publishedOn = some (some 864001) := by decide +kernel
  obtain ⟨hstep, hallowed, haccepted, hpublished, hstored⟩ := hfound
  obtain ⟨s', hs', hlater⟩ := Option.map_eq_some_iff.mp hstored
  refine ⟨hfields.1, hfields.2.1, hfields.2.2, _, hstep, hallowed, haccepted, hpublished, ⟨s', hs', hlater⟩, ?_⟩
  rintro ⟨s'', hs'', hsame⟩
  rw [hs', Option.some.injEq] at hs''
  rw [hs'', hsame] at hlater
  exact absurd hlater (by decide)
