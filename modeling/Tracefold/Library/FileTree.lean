import Mathlib.Data.Set.Finite.Basic
import Mathlib.Tactic.Common
import Tracefold.Library.Prog

/-! A file system as a finite tree of directories and regular files, and the calls on it. -/

namespace Tracefold.Library

set_option autoImplicit true

inductive FileEntry (β : Type) where
  | file (content : β)
  | directory
  deriving DecidableEq, Repr

/-- Why a call is refused. -/
inductive IoError where
  | notFound
  | notADirectory
  | isADirectory
  deriving DecidableEq, Repr

/-- What stands at each path from the root. Whatever stands somewhere stands in a directory. -/
structure FileTree (α β : Type) where
  entry : List α → Option (FileEntry β)
  root : entry [] = some .directory
  parent : ∀ {path name}, entry (path ++ [name]) ≠ none → entry path = some .directory
  finite : {path | entry path ≠ none}.Finite

/-- One step of a spelled path: into a name, or back up. -/
inductive Component (α : Type) where
  | name (name : α)
  | up
  deriving DecidableEq, Repr

namespace FileTree

variable {α β : Type}

@[ext]
theorem ext {t t' : FileTree α β} (h : ∀ path, t.entry path = t'.entry path) : t = t' := by
  cases t
  cases t'
  congr
  exact funext h

/-- Where a component leads from a directory. At the root there is nowhere above to go. -/
def go (path : List α) : Component α → List α
  | .name name => path ++ [name]
  | .up => path.dropLast

/-- A path is walked through directories alone. -/
def step (t : FileTree α β) (path : List α) (component : Component α) : Except IoError (List α) :=
  match t.entry path with
  | none => .error .notFound
  | some (.file _) => .error .notADirectory
  | some .directory => .ok (go path component)

/-- Where a spelled path leads; nothing has to stand there yet. -/
def locate (t : FileTree α β) (path : List (Component α)) : Except IoError (List α) :=
  path.foldlM t.step []

variable {t t' : FileTree α β} {path path' : List α} {spelled : List (Component α)}

theorem step_eq_ok {component : Component α} : t.step path component = .ok path' ↔
    t.entry path = some .directory ∧ go path component = path' := by
  rw [step]
  split
  next h => simp [h]
  next h => simp [h]
  next h => simp [h]

theorem locate_concat (t : FileTree α β) (spelled : List (Component α)) (component : Component α) :
    t.locate (spelled ++ [component]) = (t.locate spelled).bind (t.step · component) := by
  rw [locate, List.foldlM_append]
  congr 1
  funext path
  rw [List.foldlM_cons]
  cases t.step path component <;> rfl

theorem locate_nil (t : FileTree α β) : t.locate [] = .ok [] := rfl

theorem locate_concat_eq_ok {component : Component α} :
    t.locate (spelled ++ [component]) = .ok path ↔ ∃ parent, t.locate spelled = .ok parent ∧
      t.entry parent = some .directory ∧ go parent component = path := by
  rw [locate_concat]
  constructor
  · intro h
    cases hparent : t.locate spelled with
    | error e =>
      rw [hparent] at h
      cases h
    | ok parent =>
      rw [hparent] at h
      exact ⟨parent, rfl, step_eq_ok.mp h⟩
  · rintro ⟨parent, hparent, hstep⟩
    rw [hparent]
    exact step_eq_ok.mpr hstep

theorem locate_names {names : List α} (h : t.locate (names.map .name) = .ok path) : path = names := by
  induction names using List.reverseRecOn generalizing path with
  | nil =>
    cases h
    rfl
  | append_singleton names name ih =>
    rw [List.map_append, List.map_singleton, locate_concat_eq_ok] at h
    obtain ⟨parent, hparent, -, rfl⟩ := h
    rw [ih hparent]
    rfl

theorem locate_congr (h : ∀ path, t.entry path = some .directory ↔ t'.entry path = some .directory) :
    t.locate spelled = .ok path ↔ t'.locate spelled = .ok path := by
  induction spelled using List.reverseRecOn generalizing path with
  | nil => rfl
  | append_singleton spelled component ih =>
    rw [locate_concat_eq_ok, locate_concat_eq_ok]
    apply exists_congr
    intro parent
    rw [ih, h]

theorem entry_dropLast (h : t.entry path ≠ none) : t.entry path.dropLast = some .directory := by
  induction path using List.reverseRecOn with
  | nil => exact t.root
  | append_singleton path name ih =>
    rw [List.dropLast_concat]
    exact t.parent h

/-- A place for a file: a name in a directory, with no directory there. -/
structure Place (t : FileTree α β) (path : List α) : Prop where
  inside : path ≠ []
  directory : t.entry path.dropLast = some .directory
  free : t.entry path ≠ some .directory

instance (entry : Option (FileEntry β)) : Decidable (entry = some .directory) :=
  match entry with
  | none => .isFalse nofun
  | some (.file _) => .isFalse nofun
  | some .directory => .isTrue rfl

instance (t : FileTree α β) (path : List α) : Decidable (t.Place path) :=
  decidable_of_iff (path.isEmpty = false ∧ t.entry path.dropLast = some .directory ∧
    ¬ t.entry path = some .directory) (by
      constructor
      · rintro ⟨hinside, hdirectory, hfree⟩
        exact ⟨List.isEmpty_eq_false_iff.mp hinside, hdirectory, hfree⟩
      · rintro ⟨hinside, hdirectory, hfree⟩
        exact ⟨List.isEmpty_eq_false_iff.mpr hinside, hdirectory, hfree⟩)

theorem Place.of_file {content : β} (h : t.entry path = some (.file content)) : t.Place path where
  inside := by
    rintro rfl
    rw [t.root] at h
    cases h
  directory := entry_dropLast (h ▸ Option.some_ne_none _)
  free := by
    rw [h]
    nofun

section Calls

/-! The calls. A call that fails leaves the tree as it was. -/

variable {ω : Type} {w : ω} (spelled)

/-- What stands at a path. -/
def look (t : FileTree α β) : Except IoError (List α × FileEntry β) :=
  match t.locate spelled with
  | .error e => .error e
  | .ok path =>
    match t.entry path with
    | none => .error .notFound
    | some entry => .ok (path, entry)

/-- The whole file at a path. -/
def read : Prog ω (FileTree α β) IoError β := fun _ t =>
  match t.look spelled with
  | .error e => (.error e, t)
  | .ok (_, .directory) => (.error .isADirectory, t)
  | .ok (_, .file content) => (.ok content, t)

/-- A path is opened, whatever stands there. -/
def openPath : Prog ω (FileTree α β) IoError Unit := fun _ t =>
  match t.look spelled with
  | .error e => (.error e, t)
  | .ok _ => (.ok (), t)

variable {spelled}

theorem look_eq_ok {entry : FileEntry β} : t.look spelled = .ok (path, entry) ↔
    t.locate spelled = .ok path ∧ t.entry path = some entry := by
  constructor
  · intro h
    rw [look] at h
    split at h
    · cases h
    next hlocated =>
      split at h
      · cases h
      next hentry =>
        cases h
        exact ⟨hlocated, hentry⟩
  · rintro ⟨hlocated, hentry⟩
    rw [look, hlocated]
    dsimp only
    rw [hentry]

theorem look_absent (hlocated : t.locate spelled = .ok path) (hentry : t.entry path = none) :
    t.look spelled = .error .notFound := by
  rw [look, hlocated]
  dsimp only
  rw [hentry]

theorem read_file {found : β} (hlocated : t.locate spelled = .ok path)
    (hentry : t.entry path = some (.file found)) : read spelled w t = (.ok found, t) := by
  rw [read, look_eq_ok.mpr ⟨hlocated, hentry⟩]

theorem read_absent (hlocated : t.locate spelled = .ok path) (hentry : t.entry path = none) :
    (read spelled w t : Except IoError β × _) = (.error .notFound, t) := by
  rw [read, look_absent hlocated hentry]

theorem read_keeps : (read spelled w t).2 = t := by
  rw [read]
  split <;> rfl

theorem openPath_absent (h : t.locate spelled = .error .notFound) :
    ∃ e, openPath spelled.dropLast w t = (.error e, t) := by
  rw [openPath, look]
  induction spelled using List.reverseRecOn with
  | nil => cases h
  | append_singleton spelled component ih =>
    rw [List.dropLast_concat]
    rw [locate_concat] at h
    cases hparent : t.locate spelled with
    | error e => exact ⟨e, rfl⟩
    | ok parent =>
      rw [hparent] at h
      have hstep : t.step parent component = .error .notFound := h
      rw [step] at hstep
      dsimp only
      cases hentry : t.entry parent with
      | none => exact ⟨_, rfl⟩
      | some entry =>
        rw [hentry] at hstep
        cases entry <;> cases hstep

theorem openPath_ok {entry : FileEntry β} (hlocated : t.locate spelled = .ok path)
    (hentry : t.entry path = some entry) : openPath spelled w t = (.ok (), t) := by
  rw [openPath, look_eq_ok.mpr ⟨hlocated, hentry⟩]

end Calls

/-- A spelled path leads to a place for a file. -/
structure Site (t : FileTree α β) (spelled : List (Component α)) (path : List α) : Prop where
  located : t.locate spelled = .ok path
  place : t.Place path

/-- A path that leads somewhere leads to a place for a file or to a directory. -/
theorem place_or_directory (h : t.locate spelled = .ok path) :
    t.Place path ∨ t.entry path = some .directory := by
  by_cases hfree : t.entry path = some .directory
  · exact .inr hfree
  · left
    induction spelled using List.reverseRecOn with
    | nil =>
      cases h
      exact absurd t.root hfree
    | append_singleton spelled component ih =>
      obtain ⟨parent, -, hparent, rfl⟩ := locate_concat_eq_ok.mp h
      cases component with
      | name name =>
        constructor
        · exact List.append_ne_nil_of_right_ne_nil _ (List.cons_ne_nil _ _)
        · rw [go, List.dropLast_concat]
          exact hparent
        · exact hfree
      | up => exact absurd (entry_dropLast (hparent ▸ Option.some_ne_none _)) hfree

theorem Site.cases (hsite : t.Site spelled path) :
    t.entry path = none ∨ ∃ found, t.entry path = some (.file found) := by
  cases hentry : t.entry path with
  | none => exact .inl rfl
  | some entry =>
    cases entry with
    | file found => exact .inr ⟨found, rfl⟩
    | directory => exact absurd hentry hsite.place.free

theorem look_refused (hnot : ∀ path, ¬ t.Site spelled path) :
    (∃ e, t.locate spelled = .error e ∧ t.look spelled = .error e) ∨
      ∃ path, t.look spelled = .ok (path, .directory) := by
  cases hlocated : t.locate spelled with
  | error e =>
    refine .inl ⟨e, rfl, ?_⟩
    rw [look, hlocated]
  | ok path =>
    rcases place_or_directory hlocated with hplace | hdirectory
    · exact absurd ⟨hlocated, hplace⟩ (hnot path)
    · exact .inr ⟨path, look_eq_ok.mpr ⟨hlocated, hdirectory⟩⟩

variable [DecidableEq α]

/-- The tree with another file, or none, at a place for one. -/
def put (t : FileTree α β) (path : List α) (h : t.Place path) (content : Option β) : FileTree α β where
  entry other := if other = path then content.map .file else t.entry other
  root := by
    rw [if_neg (Ne.symm h.inside)]
    exact t.root
  parent {other name} hentry := by
    split at hentry
    next heq =>
      have hparent : other = path.dropLast := by rw [← heq, List.dropLast_concat]
      have hne : other ≠ path := by
        rintro rfl
        simp at heq
      rw [if_neg hne, hparent]
      exact h.directory
    next =>
      have hdirectory := t.parent hentry
      have hne : other ≠ path := fun heq => h.free (heq ▸ hdirectory)
      rw [if_neg hne]
      exact hdirectory
  finite := by
    apply (t.finite.insert path).subset
    intro other hother
    by_cases heq : other = path
    · exact .inl heq
    · exact .inr (by simpa [heq] using hother)

variable {h : t.Place path} {content : Option β}

theorem entry_put_self : (t.put path h content).entry path = content.map .file := if_pos rfl

theorem entry_put_of_ne {other : List α} (hne : other ≠ path) :
    (t.put path h content).entry other = t.entry other := if_neg hne

theorem directory_put {other : List α} :
    (t.put path h content).entry other = some .directory ↔ t.entry other = some .directory := by
  by_cases heq : other = path
  · rw [heq, entry_put_self]
    apply iff_of_false _ h.free
    cases content <;> nofun
  · rw [entry_put_of_ne heq]

theorem locate_put : (t.put path h content).locate spelled = .ok path' ↔
    t.locate spelled = .ok path' := locate_congr fun _ => directory_put

theorem place_put {other : List α} : (t.put path h content).Place other ↔ t.Place other := by
  constructor
  · rintro ⟨hinside, hdirectory, hfree⟩
    exact ⟨hinside, directory_put.mp hdirectory, fun hother => hfree (directory_put.mpr hother)⟩
  · rintro ⟨hinside, hdirectory, hfree⟩
    exact ⟨hinside, directory_put.mpr hdirectory, fun hother => hfree (directory_put.mp hother)⟩

theorem put_put {h' : (t.put path h content).Place path} {content' : Option β} :
    (t.put path h content).put path h' content' = t.put path h content' := by
  ext1 other
  by_cases heq : other = path
  · rw [heq, entry_put_self, entry_put_self]
  · rw [entry_put_of_ne heq, entry_put_of_ne heq, entry_put_of_ne heq]

theorem put_eq_self (hcontent : content.map .file = t.entry path) : t.put path h content = t := by
  ext1 other
  by_cases heq : other = path
  · rw [heq, entry_put_self, hcontent]
  · rw [entry_put_of_ne heq]

theorem put_comm (hne : path ≠ path') {other : Option β} {h₁ : t.Place path} {h₂ : t.Place path'}
    (h₁' : (t.put path' h₂ other).Place path) (h₂' : (t.put path h₁ content).Place path') :
    (t.put path h₁ content).put path' h₂' other = (t.put path' h₂ other).put path h₁' content := by
  ext1 place
  by_cases heq : place = path
  · rw [heq, entry_put_of_ne hne, entry_put_self, entry_put_self]
  · rw [@entry_put_of_ne _ _ _ path _ h₁' _ place heq]
    by_cases heq' : place = path'
    · rw [heq', entry_put_self, entry_put_self]
    · rw [entry_put_of_ne heq', entry_put_of_ne heq', entry_put_of_ne heq]

/-- The tree without the file at a place. -/
def erase (t : FileTree α β) (path : List α) : FileTree α β :=
  if h : t.Place path then t.put path h none else t

theorem erase_eq (h : t.Place path) : t.erase path = t.put path h none := dif_pos h

theorem Site.put (hsite : t.Site spelled path') : (t.put path h content).Site spelled path' where
  located := locate_put.mpr hsite.located
  place := place_put.mpr hsite.place

theorem site_put : (t.put path h content).Site spelled path' ↔ t.Site spelled path' :=
  ⟨fun hsite => ⟨locate_put.mp hsite.located, place_put.mp hsite.place⟩, Site.put⟩

section Calls

variable {ω : Type} {w : ω} (spelled)

/-- A file is created, or written anew. -/
def create (content : β) : Prog ω (FileTree α β) IoError Unit := fun _ t =>
  match t.locate spelled with
  | .error e => (.error e, t)
  | .ok path =>
    if h : t.Place path then (.ok (), t.put path h (some content)) else (.error .isADirectory, t)

/-- A file is taken away. -/
def unlink : Prog ω (FileTree α β) IoError Unit := fun _ t =>
  match t.look spelled with
  | .error e => (.error e, t)
  | .ok (_, .directory) => (.error .isADirectory, t)
  | .ok (path, .file _) => (.ok (), t.erase path)

/-- A file gets another name, and what stood there goes. -/
def rename (target : List (Component α)) : Prog ω (FileTree α β) IoError Unit := fun _ t =>
  match t.look spelled with
  | .error e => (.error e, t)
  | .ok (_, .directory) => (.error .isADirectory, t)
  | .ok (source, .file content) =>
    match t.locate target with
    | .error e => (.error e, t)
    | .ok path =>
      if path = source then (.ok (), t)
      else if h : t.Place path then (.ok (), (t.put path h (some content)).erase source)
      else (.error .isADirectory, t)

variable {spelled}

theorem Site.create {written : β} (hsite : t.Site spelled path) :
    FileTree.create spelled written w t = (.ok (), t.put path hsite.place (some written)) := by
  rw [FileTree.create, hsite.located]
  exact dif_pos hsite.place

theorem Site.unlink {found : β} (hsite : t.Site spelled path)
    (hentry : t.entry path = some (.file found)) :
    FileTree.unlink spelled w t = (.ok (), t.put path hsite.place none) := by
  rw [FileTree.unlink, look_eq_ok.mpr ⟨hsite.located, hentry⟩]
  dsimp only
  rw [erase_eq hsite.place]

theorem unlink_absent (hlocated : t.locate spelled = .ok path) (hentry : t.entry path = none) :
    (FileTree.unlink spelled w t : Except IoError Unit × _) = (.error .notFound, t) := by
  rw [FileTree.unlink, look_absent hlocated hentry]

end Calls

section Replace

variable {ω : Type} {w : ω} (temp : α) (spelled)

/-- A file is written beside another one, and takes its place. -/
def replaceBy (content : β) : Prog ω (FileTree α β) IoError Unit := do
  create (spelled.dropLast ++ [.name temp]) content
  rename (spelled.dropLast ++ [.name temp]) spelled
  openPath spelled.dropLast

/-- Where this does not succeed, the file that was written beside is taken away again. -/
def replace (content : β) : Prog ω (FileTree α β) IoError Unit := fun w t =>
  match replaceBy spelled temp content w t with
  | (.ok (), t') => (.ok (), t')
  | (.error e, t') => (.error e, (unlink (spelled.dropLast ++ [.name temp]) w t').2)

/-- No file has the name yet that one is written under. -/
def Unused (t : FileTree α β) : Prop :=
  ∀ parent, t.locate spelled.dropLast = .ok parent → t.entry (parent ++ [temp]) = none

omit [DecidableEq α] in
/-- Among infinitely many names there is one that no file in a directory has. -/
theorem exists_unused [Infinite α] (spelled : List (Component α)) (t : FileTree α β) :
    ∃ temp, Unused spelled temp t := by
  cases hlocated : t.locate spelled.dropLast with
  | error e =>
    refine ⟨Classical.arbitrary α, fun parent hparent => ?_⟩
    rw [hlocated] at hparent
    cases hparent
  | ok parent =>
    have hfinite : (Set.preimage (fun name => parent ++ [name]) {path | t.entry path ≠ none}).Finite := by
      apply t.finite.preimage
      intro a _ b _ heq
      exact (List.append_cancel_left heq |> List.cons.inj).1
    obtain ⟨temp, htemp⟩ := hfinite.exists_notMem
    refine ⟨temp, fun other hother => ?_⟩
    rw [hlocated] at hother
    cases hother
    exact not_not.mp htemp

variable {temp spelled} {written : β}

omit [DecidableEq α] in
theorem site_beside {parent : List α} (hlocated : t.locate spelled = .ok parent)
    (hdirectory : t.entry parent = some .directory) (habsent : t.entry (parent ++ [temp]) = none) :
    t.Site (spelled ++ [.name temp]) (parent ++ [temp]) := by
  constructor
  · exact locate_concat_eq_ok.mpr ⟨parent, hlocated, hdirectory, rfl⟩
  · constructor
    · exact List.append_ne_nil_of_right_ne_nil _ (List.cons_ne_nil _ _)
    · rwa [List.dropLast_concat]
    · rw [habsent]
      nofun

omit [DecidableEq α] in
theorem Site.parent (hsite : t.Site spelled path) : ∃ parent,
    t.locate spelled.dropLast = .ok parent ∧ t.entry parent = some .directory := by
  induction spelled using List.reverseRecOn with
  | nil =>
    cases hsite.located
    exact absurd rfl hsite.place.inside
  | append_singleton spelled component ih =>
    obtain ⟨parent, hparent, hdirectory, -⟩ := locate_concat_eq_ok.mp hsite.located
    rw [List.dropLast_concat]
    exact ⟨parent, hparent, hdirectory⟩

theorem Site.rename {target : List (Component α)} {source : List α}
    (hlocated : t.locate spelled = .ok source) (hentry : t.entry source = some (.file written))
    (hsite : t.Site target path) :
    FileTree.rename spelled target w t = (.ok (), if path = source then t
      else (t.put path hsite.place (some written)).erase source) := by
  rw [FileTree.rename, look_eq_ok.mpr ⟨hlocated, hentry⟩]
  dsimp only
  rw [hsite.located]
  dsimp only
  split
  next => rfl
  next => exact dif_pos hsite.place

theorem erase_put_put {beside : List α} (hplace : t.Place path) (hbeside : t.Place beside)
    (habsent : t.entry beside = none) {h : (t.put beside hbeside (some written)).Place path} :
    (if path = beside then t.put beside hbeside (some written)
      else ((t.put beside hbeside (some written)).put path h (some written)).erase beside) =
      t.put path hplace (some written) := by
  split
  next heq =>
    subst heq
    rfl
  next hne =>
    rw [erase_eq (place_put.mpr (place_put.mpr hbeside))]
    ext1 other
    by_cases heq : other = beside
    · rw [heq, entry_put_self, entry_put_of_ne (Ne.symm hne), habsent]
      rfl
    · rw [entry_put_of_ne heq]
      by_cases heq' : other = path
      · rw [heq', entry_put_self, entry_put_self]
      · rw [entry_put_of_ne heq', entry_put_of_ne heq, entry_put_of_ne heq']

/-- A replacement puts the file at its place, and leaves nothing beside it. -/
theorem Site.replace (hsite : t.Site spelled path) (hunused : Unused spelled temp t) :
    FileTree.replace spelled temp written w t =
      (.ok (), t.put path hsite.place (some written)) := by
  obtain ⟨parent, hparent, hdirectory⟩ := hsite.parent
  have habsent := hunused parent hparent
  have hbeside := site_beside hparent hdirectory habsent
  have hrename : FileTree.rename (spelled.dropLast ++ [.name temp]) spelled w
      (t.put _ hbeside.place (some written)) = (.ok (), t.put path hsite.place (some written)) := by
    rw [Site.rename hbeside.put.located entry_put_self hsite.put,
      erase_put_put hsite.place hbeside.place habsent]
  have hopen : openPath spelled.dropLast w (t.put path hsite.place (some written)) =
      (.ok (), t.put path hsite.place (some written)) :=
    openPath_ok (locate_put.mpr hparent) (directory_put.mpr hdirectory)
  have hby : replaceBy spelled temp written w t =
      (.ok (), t.put path hsite.place (some written)) := by
    simp only [replaceBy, bind, hbeside.create, hrename, hopen]
  rw [FileTree.replace, hby]

omit [DecidableEq α] in
theorem beside_refused (hnot : ∀ parent, t.locate spelled = .ok parent →
    t.entry parent ≠ some .directory) :
    ∃ e, t.locate (spelled ++ [.name temp]) = .error e := by
  cases hlocated : t.locate (spelled ++ [.name temp]) with
  | error e => exact ⟨e, rfl⟩
  | ok path =>
    obtain ⟨parent, hparent, hdirectory, -⟩ := locate_concat_eq_ok.mp hlocated
    exact absurd hdirectory (hnot parent hparent)

omit [DecidableEq α] in
theorem located_of_parent {parent : List α} (hparent : t.locate spelled.dropLast = .ok parent)
    (hdirectory : t.entry parent = some .directory) : ∃ path, t.locate spelled = .ok path := by
  induction spelled using List.reverseRecOn with
  | nil => exact ⟨_, locate_nil t⟩
  | append_singleton spelled component ih =>
    rw [List.dropLast_concat] at hparent
    exact ⟨_, locate_concat_eq_ok.mpr ⟨parent, hparent, hdirectory, rfl⟩⟩

/-- Where there is no place for a file, nothing is replaced, and nothing is left. -/
theorem replace_refused (hnot : ∀ path, ¬ t.Site spelled path) (hunused : Unused spelled temp t) :
    ∃ e, FileTree.replace spelled temp written w t = (.error e, t) := by
  by_cases hparent : ∃ parent, t.locate spelled.dropLast = .ok parent ∧
      t.entry parent = some .directory
  · obtain ⟨parent, hparent, hdirectory⟩ := hparent
    have habsent := hunused parent hparent
    have hbeside := site_beside hparent hdirectory habsent
    obtain ⟨path, hpath⟩ := located_of_parent hparent hdirectory
    have hplace : ¬ t.Place path := fun hplace => hnot path ⟨hpath, hplace⟩
    have hne : path ≠ parent ++ [temp] := by
      rintro rfl
      exact hplace hbeside.place
    have hrename : FileTree.rename (spelled.dropLast ++ [.name temp]) spelled w
        (t.put _ hbeside.place (some written)) =
          (.error .isADirectory, t.put _ hbeside.place (some written)) := by
      rw [FileTree.rename, look_eq_ok.mpr ⟨hbeside.put.located, entry_put_self⟩]
      dsimp only
      rw [locate_put.mpr hpath]
      dsimp only
      rw [if_neg hne, dif_neg fun h => hplace (place_put.mp h)]
    have hby : replaceBy spelled temp written w t =
        (.error .isADirectory, t.put _ hbeside.place (some written)) := by
      simp only [replaceBy, bind, hbeside.create, hrename]
    refine ⟨.isADirectory, ?_⟩
    rw [FileTree.replace, hby]
    dsimp only
    have habsent' : Option.map FileEntry.file none = t.entry (parent ++ [temp]) := habsent.symm
    rw [hbeside.put.unlink entry_put_self, put_put, put_eq_self habsent']
  · have hrefused : ∃ e, t.locate (spelled.dropLast ++ [.name temp]) = .error e :=
      beside_refused fun parent hlocated hdirectory => hparent ⟨parent, hlocated, hdirectory⟩
    obtain ⟨e, he⟩ := hrefused
    have hcreate : FileTree.create (spelled.dropLast ++ [.name temp]) written w t = (.error e, t) := by
      rw [FileTree.create, he]
    have hby : replaceBy spelled temp written w t = (.error e, t) := by
      simp only [replaceBy, bind, hcreate]
    refine ⟨e, ?_⟩
    rw [FileTree.replace, hby]
    dsimp only
    rw [FileTree.unlink, look, he]

end Replace

end FileTree

end Tracefold.Library
