import BuildInProgress.Frame

/-!
# What the media actions do to the rows

An image takes its remixes with it: those that name it as their original, and what names those.  The
image itself goes last, after the positions beside it have been moved.
-/

open Text Ancestry

/-! ## Deleting an image -/

namespace Database

/-- Only remixes of an image go with it. -/
theorem mem_remixImages {db : Database} {n i j : Nat} (h : j ∈ db.remixImages n i) :
    j = i ∨ ∃ x ∈ db.images.rows, x.id = j ∧ x.originalId.isSome = true := by
  induction n generalizing i with
  | zero => exact Or.inl (List.mem_singleton.mp h)
  | succ n ih =>
    rcases List.mem_cons.mp h with h | h
    · exact Or.inl h
    · obtain ⟨k, hk, hj⟩ := List.mem_flatMap.mp h
      obtain ⟨x, hx, rfl⟩ := List.mem_map.mp hk
      rw [List.mem_filter, decide_eq_true_eq] at hx
      rcases ih hj with rfl | hrest
      · exact Or.inr ⟨x, hx.1, rfl, by rw [hx.2]; rfl⟩
      · exact Or.inr hrest

theorem images_destroyImageVideo (db : Database) (l : List Nat) :
    (l.foldl destroyImageVideo db).images = db.images := by
  induction l generalizing db with
  | nil => rfl
  | cons i l ih =>
    rw [List.foldl_cons, ih, destroyImageVideo]
    split <;> rfl

theorem rows_destroyImage (db : Database) (i : Nat) :
    (db.destroyImage i).images.rows =
      db.images.rows.filter fun m => !(db.remixImages db.images.rows.length i).contains m.id := by
  rw [destroyImage]
  dsimp only
  rw [Table.rows_filter, images_destroyImageVideo]

/-- An image that is no remix survives the destruction of another one. -/
theorem mem_destroyImage {db : Database} {m : Image} {i : Nat} (hm : m ∈ db.images.rows)
    (ho : m.originalId = none) (hi : m.id ≠ i) : m ∈ (db.destroyImage i).images.rows := by
  rw [rows_destroyImage, List.mem_filter]
  refine ⟨hm, ?_⟩
  rw [Bool.not_eq_true', List.contains_eq_mem, decide_eq_false_iff_not]
  intro hgone
  rcases mem_remixImages hgone with h | ⟨x, hx, hid, hsome⟩
  · exact hi h
  · rw [Table.eq_of_key hx hm hid, ho] at hsome
    cases hsome

end Database

namespace ImagesController

open Database

theorem mem_destroyRemixes {m : Image} (ho : m.originalId = none) {ms : List Image}
    (hms : ∀ x ∈ ms, m.id ≠ x.id) {db : Database} (hm : m ∈ db.images.rows) :
    m ∈ (destroyRemixes ms db).2.images.rows := by
  induction ms generalizing db with
  | nil => exact hm
  | cons x ms ih =>
    have htail : ∀ y ∈ ms, m.id ≠ y.id := fun y hy => hms y (List.mem_cons_of_mem _ hy)
    unfold destroyRemixes
    split
    · split
      · exact hm
      · exact ih htail (mem_destroyImage hm ho (hms x List.mem_cons_self))
    · exact ih htail (mem_destroyImage hm ho (hms x List.mem_cons_self))

theorem mem_closeGap {m : Image} {db : Database} (hm : m ∈ db.images.rows) (beside : Image → Bool)
    (k : Int) : ∃ m' ∈ (closeGap beside k db).images.rows, m'.id = m.id ∧ m'.projectId = m.projectId := by
  refine ⟨_, List.mem_map_of_mem hm, ?_⟩
  split
  · split <;> exact ⟨rfl, rfl⟩
  · exact ⟨rfl, rfl⟩

/-- The image is destroyed last, so its project never has none left when that is asked. -/
theorem unlistWithoutImages_eq {m m' : Image} {db : Database} (hm : m' ∈ db.images.rows)
    (hp : m'.projectId = m.projectId) (now : Nat) : unlistWithoutImages now m db = db := by
  unfold unlistWithoutImages
  split
  · rfl
  · rename_i p hproject
    have hmem : m' ∈ db.projectImages p := by
      rw [projectImages, List.mem_filter, decide_eq_true_eq]
      exact ⟨hm, hp.trans hproject⟩
    rw [if_neg]
    intro hzero
    rw [List.length_eq_zero_iff.mp hzero] at hmem
    cases hmem

/-- What is done to the images before the image itself goes. -/
def beforeDestroy (m : Image) (db : Database) : Bool × Database :=
  if m.originalId.isSome then (true, db)
  else destroyRemixes ((db.images.rows.filter (·.originalId = some m.id)).insertionSort
    (Database.imageBefore · ·)) db

theorem touches_beforeDestroy (m : Image) (db : Database) :
    Touches [.images, .videos] db (beforeDestroy m db).2 := by
  unfold beforeDestroy
  split
  · exact .refl _ db
  · exact touches_destroyRemixes db _

theorem mem_beforeDestroy {m : Image} {db : Database} (hm : m ∈ db.images.rows) :
    m ∈ (beforeDestroy m db).2.images.rows := by
  unfold beforeDestroy
  split
  · exact hm
  · rename_i ho
    rw [Bool.not_eq_true, Option.isSome_eq_false_iff, Option.isNone_iff_eq_none] at ho
    refine mem_destroyRemixes ho ?_ hm
    intro x hx heq
    rw [List.mem_insertionSort, List.mem_filter, decide_eq_true_eq] at hx
    rw [← Table.eq_of_key hm hx.1 heq, ho] at hx
    cases hx.2

/-- The positions beside the image move up, and the image is destroyed; no project changes. -/
theorem destroyById_cases {m : Image} {db : Database} (hm : m ∈ db.images.rows) (now : Nat) :
    (((beforeDestroy m db).1 && (siblings (beforeDestroy m db).2 m).isSome && m.position.isSome) = false ∧
        (destroyById now m db).2 = (beforeDestroy m db).2) ∨
      ∃ beside k, siblings (beforeDestroy m db).2 m = some beside ∧ m.position = some k ∧
        (beforeDestroy m db).1 = true ∧
        (destroyById now m db).2 =
          (if k < (((beforeDestroy m db).2.images.rows.filter beside).length : Int) then
            closeGap beside k (beforeDestroy m db).2 else (beforeDestroy m db).2).destroyImage m.id := by
  have hm' := mem_beforeDestroy hm
  unfold destroyById
  dsimp only
  rw [← beforeDestroy]
  generalize beforeDestroy m db = r at hm'
  cases hdone : r.1 with
  | false => exact Or.inl ⟨rfl, rfl⟩
  | true =>
    cases hs : siblings r.2 m with
    | none => exact Or.inl ⟨rfl, rfl⟩
    | some beside =>
      cases hk : m.position with
      | none => exact Or.inl ⟨rfl, rfl⟩
      | some k =>
        refine Or.inr ⟨beside, k, rfl, rfl, rfl, ?_⟩
        dsimp only
        rw [if_neg (by decide)]
        by_cases hgap : k < ((r.2.images.rows.filter beside).length : Int)
        · obtain ⟨x, hx, -, hp⟩ := mem_closeGap hm' beside k
          rw [if_pos hgap, unlistWithoutImages_eq hx hp]
        · rw [if_neg hgap, unlistWithoutImages_eq hm' rfl]

theorem touches_destroy (u : User) (now : Nat) (target : Text ⊕ Nat) (db : Database) :
    Touches [.images, .videos] db (destroy u now target db).2 := by
  unfold destroy
  cases target with
  | inl path =>
    dsimp only
    split
    · exact .refl _ db
    · exact touches_destroyImage db _
  | inr i =>
    dsimp only
    split
    · exact .refl _ db
    · rename_i m hfind
      apply touches_authorize
      have hfirst := touches_beforeDestroy m db
      rcases destroyById_cases (Table.find?_eq_some.mp hfind).1 now with ⟨-, heq⟩ | ⟨beside, k, -, -, -, heq⟩
      · rw [heq]
        exact hfirst
      · rw [heq]
        refine hfirst.trans (.trans ?_ (touches_destroyImage _ _))
        exact .ite (fun _ => touches_media _ _ _) fun _ => .refl _ _

end ImagesController

/-! ## Uploading -/

namespace ImagesController

open Database

theorem Upload.image_id (id : Nat) (up : Upload) : (up.image id).id = id := by
  cases up <;> rfl

theorem Upload.image_position (id : Nat) (up : Upload) : (up.image id).position = none := by
  cases up <;> rfl

/-- The row of an upload, with the position that `create` gives it: none when the step or the project it
names is not there. -/
def uploaded (db : Database) (up : Upload) : Image :=
  let m := up.image db.images.next
  { m with position := (siblingCount (insertImage db m) m).map fun n : Nat => (n : Int) - 1 }

/-- The app is not asked for a permission. -/
def Upload.allowed (db : Database) (u : User) (up : Upload) : Bool :=
  match up with
  | .web _ _ _ _ => Ability.createImage db u (up.image db.images.next) == some true
  | .android _ _ _ _ => true

/-- The saved row, with the position behind its siblings. -/
theorem afterUpload_rows (now : Nat) (up : Upload) (db : Database) :
    let r := afterUpload now (up.image db.images.next) (insertImage db (up.image db.images.next))
    r.2.images.rows = db.images.rows ++ [uploaded db up] ∧ r.2.images.next = db.images.next + 1 ∧
      r.2.videos = db.videos ∧ r.2.projects.next = db.projects.next ∧
      Touches [.images, .videos, .projects] db r.2 := by
  have hid := up.image_id db.images.next
  have hpos := up.image_position db.images.next
  have hinsert := (touches_insertImage db (up.image db.images.next)).mono
    (by decide : [TableName.images, .videos] ⊆ [.images, .videos, .projects])
  rw [uploaded]
  generalize up.image db.images.next = m at hid hpos hinsert
  unfold afterUpload
  dsimp only
  cases siblingCount (insertImage db m) m with
  | none =>
    refine ⟨?_, rfl, rfl, rfl, hinsert⟩
    rw [insertImage, Table.rows_insert, Option.map_none, ← hid, ← hpos]
  | some n =>
    dsimp only
    have hmodify : Touches [.images, .videos, .projects] (insertImage db m) (modifyImage (insertImage db m)
        m.id (fun m => { m with position := some ((n : Int) - 1) }) fun _ => rfl) :=
      (touches_modifyImage _ _ _ _).mono (by decide)
    have hrows : (modifyImage (insertImage db m) m.id
        (fun m => { m with position := some ((n : Int) - 1) }) fun _ => rfl).images.rows =
        db.images.rows ++ [{ m with position := some ((n : Int) - 1) }] := by
      have hinserted : (insertImage db m).images.rows = db.images.rows ++ [m] := by
        rw [insertImage, Table.rows_insert, ← hid]
      rw [modifyImage]
      dsimp only
      rw [hid, Table.rows_modify_concat hinserted hid, hid]
    -- without a project the request raises, and the row stays
    split
    · exact ⟨hrows, rfl, rfl, rfl, hinsert.trans hmodify⟩
    · exact ⟨hrows, rfl, rfl, rfl, hinsert.trans (hmodify.trans ((touches_touchProject _ now _).mono (by decide)))⟩

/-- An upload is refused and changes nothing, or it adds its row. -/
theorem create_cases (u : User) (now : Nat) (up : Upload) (db : Database) :
    (up.allowed db u = false ∧ (create u now up db).2 = db) ∨
      (up.allowed db u = true ∧
        (create u now up db).2.images.rows = db.images.rows ++ [uploaded db up] ∧
        (create u now up db).2.images.next = db.images.next + 1 ∧
        (create u now up db).2.videos = db.videos ∧
        (create u now up db).2.projects.next = db.projects.next ∧
        Touches [.images, .videos, .projects] db (create u now up db).2) := by
  have hrow := afterUpload_rows now up db
  unfold create
  cases up with
  | web p s o path =>
    rcases authorize_cases (Ability.createImage db u (Upload.image db.images.next (.web p s o path))) db
      (afterUpload now _ (insertImage db _)) with ⟨hauth, heq⟩ | ⟨hauth, heq⟩
    · dsimp only
      rw [heq]
      exact Or.inr ⟨beq_iff_eq.mpr hauth, hrow⟩
    · dsimp only
      rw [heq]
      exact Or.inl ⟨beq_eq_false_iff_ne.mpr hauth, rfl⟩
  | android p s o path => exact Or.inr ⟨rfl, hrow⟩

theorem sameColumn_create {β : Type} {g : Project → β} (hstamp : ∀ r t, g { r with updatedAt := t } = g r) (u : User)
    (now : Nat) (up : Upload) (db : Database) : SameColumn g db (create u now up db).2 := by
  have hafter : ∀ m, SameColumn g db (afterUpload now m (insertImage db m)).2 := by
    intro m
    have hinsert : SameColumn g db (insertImage db m) := .refl db
    unfold afterUpload
    split
    · exact hinsert
    · rename_i n _
      have hmodify : SameColumn g (insertImage db m) (modifyImage (insertImage db m) m.id
          (fun m => { m with position := some ((n : Int) - 1) }) fun _ => rfl) := .refl _
      dsimp only
      split
      · exact hinsert.trans hmodify
      · exact hinsert.trans (hmodify.trans (.touchProject hstamp _ _ _))
  unfold create
  cases up with
  | web p s o path =>
    rcases authorize_cases (Ability.createImage db u (Upload.image db.images.next (.web p s o path))) db
      (afterUpload now _ (insertImage db _)) with ⟨-, heq⟩ | ⟨-, heq⟩
    · dsimp only
      rw [heq]
      exact hafter _
    · dsimp only
      rw [heq]
      exact .refl db
  | android p s o path => exact hafter _

end ImagesController

namespace VideosController

open Database

/-- The record an upload builds; an address that cannot be embedded raises. -/
def Upload.video (info : VideoInfo) (id : Nat) : Upload → Option Video
  | .form submitted => (embedded info submitted).map fun v => { v with id }
  | .android p s user path => some ⟨id, s, p, none, none, path, none, some true, user, none⟩

/-- The row of the thumbnail. -/
def uploaded (u : User) (info : VideoInfo) (db : Database) (p : Nat) (v : Video) : Image :=
  { thumbnail u v (info.thumbUrl v) ((db.projectImages p).filter (·.stepId = v.stepId)).length with
    id := db.images.next }

/-- The row of the video, linked to its thumbnail. -/
def linked (info : VideoInfo) (db : Database) (v : Video) : Video :=
  { v with
    thumbnailUrl := if v.embedUrl.any (!·.isEmpty) then info.thumbUrl v else v.thumbnailUrl
    imageId := some db.images.next }

/-- A video is saved with its thumbnail. -/
theorem afterUpload_rows (u : User) (now : Nat) (info : VideoInfo) (p : Nat) {v : Video} {db : Database}
    (hid : v.id = db.videos.next) :
    let db' := (afterUpload u now info p v (insertVideo db v)).2
    db'.images.rows = db.images.rows ++ [uploaded u info db p v] ∧
      db'.images.next = db.images.next + 1 ∧
      db'.videos.rows = db.videos.rows ++ [linked info db v] ∧
      db'.projects.next = db.projects.next ∧
      Touches [.images, .videos, .projects] db db' := by
  have hinsert : Touches [.images, .videos, .projects] db (insertVideo db v) :=
    (touches_media db _ _).mono (by decide)
  have hrow : (insertVideo db v).videos.rows = db.videos.rows ++ [v] := by
    rw [insertVideo, Table.rows_insert, ← hid]
  -- the address of the thumbnail is written for an embedded video only
  have hthumb : ∃ db₁, (if v.embedUrl.any (!·.isEmpty) then
        modifyVideo (insertVideo db v) v.id (fun w => { w with thumbnailUrl := info.thumbUrl v }) fun _ => rfl
        else insertVideo db v) = db₁ ∧ db₁.images = db.images ∧ db₁.projects = db.projects ∧
      db₁.videos.rows = db.videos.rows ++ [{ v with
        thumbnailUrl := if v.embedUrl.any (!·.isEmpty) then info.thumbUrl v else v.thumbnailUrl }] ∧
      Touches [.images, .videos, .projects] db db₁ := by
    refine ⟨_, rfl, ?_⟩
    cases v.embedUrl.any (!·.isEmpty) with
    | true =>
      refine ⟨rfl, rfl, ?_, hinsert.trans ((touches_media _ _ _).mono (by decide))⟩
      rw [if_pos rfl, if_pos rfl, modifyVideo]
      dsimp only
      rw [hid, Table.rows_modify_concat hrow hid, hid]
    | false => exact ⟨rfl, rfl, hrow, hinsert⟩
  obtain ⟨db₁, heq, himages, hprojects, hvideos, htouch⟩ := hthumb
  unfold afterUpload
  dsimp only
  rw [heq]
  have hthumbnail : Touches [.images, .videos, .projects] db₁ (ImagesController.insertImage db₁ (thumbnail u v
      (info.thumbUrl v) (((insertVideo db v).projectImages p).filter (·.stepId = v.stepId)).length)) :=
    (ImagesController.touches_insertImage _ _).mono (by decide)
  generalize hdb : ImagesController.insertImage db₁ (thumbnail u v (info.thumbUrl v)
    (((insertVideo db v).projectImages p).filter (·.stepId = v.stepId)).length) = db₂ at hthumbnail
  have himages₂ : db₂.images.rows = db.images.rows ++ [uploaded u info db p v] := by
    rw [← hdb, ImagesController.insertImage, Table.rows_insert, himages]
    rfl
  have hnext : db₂.images.next = db.images.next + 1 := by
    rw [← hdb, ← himages]
    rfl
  have hvideos₂ : db₂.videos = db₁.videos := by
    rw [← hdb]
    rfl
  have hprojects₂ : db₂.projects.next = db.projects.next := by
    rw [← hdb, ← hprojects]
    rfl
  have hlink : Touches [.images, .videos, .projects] db₂ (modifyVideo db₂ v.id
      (fun w => { w with imageId := some db₁.images.next }) fun _ => rfl) :=
    (touches_media _ _ _).mono (by decide)
  have hlinked : (modifyVideo db₂ v.id (fun w => { w with imageId := some db₁.images.next })
      fun _ => rfl).videos.rows = db.videos.rows ++ [linked info db v] := by
    rw [← hvideos₂] at hvideos
    rw [linked, ← himages, modifyVideo]
    dsimp only
    rw [hid, Table.rows_modify_concat hvideos hid, hid]
  have hall := htouch.trans (hthumbnail.trans hlink)
  split
  · exact ⟨himages₂, hnext, hlinked, hprojects₂, hall⟩
  · exact ⟨himages₂, hnext, hlinked, hprojects₂, hall.trans ((touches_touchProject _ now _).mono (by decide))⟩

/-- The app is not asked for a permission. -/
def Upload.allowed (db : Database) (u : User) (up : Upload) (v : Video) : Bool :=
  match up with
  | .form _ => Ability.createVideo db u v == some true
  | .android _ _ _ _ => true

/-- An upload is refused and changes nothing, or the video is added with its thumbnail, or, when the app
names no project that exists, alone. -/
theorem create_cases (u : User) (now : Nat) (info : VideoInfo) (up : Upload) (db : Database) :
    ((∀ v, up.video info db.videos.next = some v → v.projectId.bind db.projects.find? = none ∨
        up.allowed db u v = false) ∧ (create u now info up db).2 = db) ∨
      ∃ v, up.video info db.videos.next = some v ∧
        ((v.projectId.bind db.projects.find? = none ∧ (create u now info up db).2 = insertVideo db v) ∨
          ∃ p project, v.projectId = some p ∧ db.projects.find? p = some project ∧ up.allowed db u v = true ∧
            (create u now info up db).2.images.rows = db.images.rows ++ [uploaded u info db p v] ∧
            (create u now info up db).2.images.next = db.images.next + 1 ∧
            (create u now info up db).2.videos.rows = db.videos.rows ++ [linked info db v] ∧
            (create u now info up db).2.projects.next = db.projects.next ∧
            Touches [.images, .videos, .projects] db (create u now info up db).2) := by
  unfold create
  cases up with
  | form form =>
    dsimp only
    rw [Upload.video]
    cases hform : embedded info form with
    | none => exact Or.inl ⟨(fun v hv => by cases hv), rfl⟩
    | some v =>
      dsimp only
      cases hproject : v.projectId.bind db.projects.find? with
      | none =>
        refine Or.inl ⟨fun w hw => ?_, rfl⟩
        rw [← Option.some.inj hw]
        exact Or.inl hproject
      | some project =>
        obtain ⟨p, hp, hfind⟩ := Option.bind_eq_some_iff.mp hproject
        have hid : project.id = p := (Table.find?_eq_some.mp hfind).2
        dsimp only
        have hv : ({ v with id := db.videos.next } : Video).id = db.videos.next := rfl
        have hvp : ({ v with id := db.videos.next } : Video).projectId = some p := hp
        rw [Option.map_some]
        generalize ({ v with id := db.videos.next } : Video) = w at hv hvp
        rcases authorize_cases (Ability.createVideo db u w) db
          (afterUpload u now info project.id w (insertVideo db w)) with ⟨hauth, heq⟩ | ⟨hauth, heq⟩
        · rw [heq, hid]
          exact Or.inr ⟨w, rfl, Or.inr ⟨p, project, hvp, hfind, beq_iff_eq.mpr hauth,
            afterUpload_rows u now info p hv⟩⟩
        · rw [heq]
          refine Or.inl ⟨fun x hx => ?_, rfl⟩
          rw [← Option.some.inj hx]
          exact Or.inr (beq_eq_false_iff_ne.mpr hauth)
  | android p s user path =>
    dsimp only
    right
    rw [Upload.video]
    have hv : (⟨db.videos.next, s, p, none, none, path, none, some true, user, none⟩ : Video).id =
      db.videos.next := rfl
    have hvp : (⟨db.videos.next, s, p, none, none, path, none, some true, user, none⟩ : Video).projectId = p :=
      rfl
    -- the app asks for no permission, and saves before it looks for the project
    generalize (⟨db.videos.next, s, p, none, none, path, none, some true, user, none⟩ : Video) = v at hv hvp
    refine ⟨v, rfl, ?_⟩
    rw [hvp]
    have hprojects : (insertVideo db v).projects = db.projects := rfl
    rw [hprojects]
    cases hproject : p.bind db.projects.find? with
    | none => exact Or.inl ⟨rfl, rfl⟩
    | some project =>
      obtain ⟨q, hq, hfind⟩ := Option.bind_eq_some_iff.mp hproject
      have hid : project.id = q := (Table.find?_eq_some.mp hfind).2
      dsimp only
      rw [hid]
      exact Or.inr ⟨q, project, hq, hfind, rfl, afterUpload_rows u now info q hv⟩

theorem sameColumn_create {β : Type} {g : Project → β} (hstamp : ∀ r t, g { r with updatedAt := t } = g r) (u : User)
    (now : Nat) (info : VideoInfo) (up : Upload) (db : Database) : SameColumn g db (create u now info up db).2 := by
  -- after the save only the time of the project is written
  have hafter : ∀ p v, SameColumn g db (afterUpload u now info p v (insertVideo db v)).2 := by
    intro p v
    have hinsert : SameColumn g db (insertVideo db v) := .refl db
    have hthumb : SameColumn g (insertVideo db v) (if v.embedUrl.any (!·.isEmpty) then
        modifyVideo (insertVideo db v) v.id (fun w => { w with thumbnailUrl := info.thumbUrl v }) fun _ => rfl
        else insertVideo db v) := by
      split
      · exact .refl _
      · exact .refl _
    unfold afterUpload
    dsimp only
    generalize (if v.embedUrl.any (!·.isEmpty) then
        modifyVideo (insertVideo db v) v.id (fun w => { w with thumbnailUrl := info.thumbUrl v }) fun _ => rfl
        else insertVideo db v) = db₁ at hthumb
    split
    · exact hinsert.trans hthumb
    · exact (hinsert.trans hthumb).trans (.touchProject hstamp _ _ _)
  unfold create
  cases up with
  | form form =>
    dsimp only
    cases embedded info form with
    | none => exact .refl db
    | some v =>
      dsimp only
      cases v.projectId.bind db.projects.find? with
      | none => exact .refl db
      | some project =>
        dsimp only
        rcases authorize_cases (Ability.createVideo db u { v with id := db.videos.next }) db
          (afterUpload u now info project.id { v with id := db.videos.next }
            (insertVideo db { v with id := db.videos.next })) with ⟨-, heq⟩ | ⟨-, heq⟩
        · rw [heq]
          exact hafter _ _
        · rw [heq]
          exact .refl db
  | android p s user path =>
    dsimp only
    split
    · exact .refl db
    · exact hafter _ _

end VideosController
