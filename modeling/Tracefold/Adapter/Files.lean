import Mathlib.Tactic.Common
import Tracefold.Adapter

/-! What the adapters of files share: a whole file that is read, written or observed at a position. -/

namespace Tracefold.Adapter

open Library Library.FileTree Locator

abbrev Tree := FileTree Text Bytes

/-- The name a process writes a temporary file under, in a directory of a tree. -/
abbrev Temps := Tree → List (Component Text) → Text

/-- A temporary name is one that no file has. -/
def Temps.Fresh (temps : Temps) : Prop :=
  ∀ t spelled, Unused spelled (temps t spelled.dropLast) t

abbrev Io (α : Type) := Prog Temps Tree Error α

/-- The answer of a call, with its refusal put in the adapter's words. -/
def calling {α : Type} (refusal : IoError → Error) (x : Prog Temps Tree IoError α) : Io α := fun w t =>
  match x w t with
  | (.ok a, t') => (.ok a, t')
  | (.error e, t') => (.error (refusal e), t')

def answering {α : Type} (r : Except Error α) : Io α := fun _ t => (r, t)

theorem answering_eq_ok {α : Type} {r : Except Error α} {w : Temps} {t t' : Tree} {a : α} :
    answering r w t = (.ok a, t') ↔ r = .ok a ∧ t = t' := by
  rw [answering, Prod.mk.injEq]

/-- A whole file is written beside its position, and takes its place. -/
def writeWhole (position : Text) (content : Bytes) : Io Unit := fun w t =>
  let spelled := components position
  if spelled = [] then (.error (.applyFailed position none), t)
  else
    calling (fun e => .applyFailed position (some e))
      (replace spelled (w t spelled.dropLast) content) w t

/-- The bytes at a position, or none when there is nothing. -/
def readIfPresent (position : Text) : Io (Option Bytes) := fun w t =>
  match read (components position) w t with
  | (.ok bytes, t') => (.ok (some bytes), t')
  | (.error .notFound, t') => (.ok none, t')
  | (.error e, t') => (.error (.unreadable position (some e)), t')

/-- The digest of what stands at a position, which for nothing is that of no bytes. -/
def observe [Host] (position : Text) : Io Cid := do
  let found ← readIfPresent position
  return match found with
    | some bytes => contentDigest bytes
    | none => absentDigest

variable {w : Temps} {t : Tree} {position : Text} {path : List Text}

theorem site_nonempty {spelled : List (Component Text)} (h : t.Site spelled path) : spelled ≠ [] := by
  rintro rfl
  cases h.located
  exact h.place.inside rfl

theorem writeWhole_site {content : Bytes} (hfresh : w.Fresh)
    (hsite : t.Site (components position) path) :
    writeWhole position content w t = (.ok (), t.put path hsite.place (some content)) := by
  rw [writeWhole, if_neg (site_nonempty hsite), calling, hsite.replace (hfresh t _)]

theorem writeWhole_refused {content : Bytes} (hfresh : w.Fresh)
    (hnot : ∀ path, ¬ t.Site (components position) path) :
    ∃ e, writeWhole position content w t = (.error e, t) := by
  rw [writeWhole]
  split
  next => exact ⟨_, rfl⟩
  next =>
    obtain ⟨e, he⟩ := @replace_refused _ _ t (components position) _ _ w
      (w t (components position).dropLast) content hnot (hfresh t _)
    rw [calling, he]
    exact ⟨_, rfl⟩

theorem readIfPresent_site (hsite : t.Site (components position) path) :
    ∃ found : Option Bytes, found.map .file = t.entry path ∧
      readIfPresent position w t = (.ok found, t) := by
  rcases hsite.cases with hentry | ⟨found, hentry⟩
  · refine ⟨none, hentry.symm, ?_⟩
    rw [readIfPresent, read_absent hsite.located hentry]
  · refine ⟨some found, hentry.symm, ?_⟩
    rw [readIfPresent, read_file hsite.located hentry]

theorem readIfPresent_keeps {found : Option Bytes} {t' : Tree}
    (h : readIfPresent position w t = (.ok found, t')) : t' = t := by
  have hkeeps := @read_keeps _ _ t (components position) _ w
  rw [readIfPresent] at h
  split at h
  next heq =>
    rw [heq] at hkeeps
    cases h
    exact hkeeps
  next heq =>
    rw [heq] at hkeeps
    cases h
    exact hkeeps
  next => cases h

theorem observe_put [Host] {content : Option Bytes} (hsite : t.Site (components position) path) :
    observe position w (t.put path hsite.place content) =
      (.ok (contentDigest (content.getD [])), t.put path hsite.place content) := by
  have hput : (t.put path hsite.place content).Site (components position) path := hsite.put
  obtain ⟨found, hfound, hread⟩ := readIfPresent_site (w := w) hput
  rw [entry_put_self] at hfound
  obtain rfl : found = content := Option.map_injective (fun _ _ h => FileEntry.file.inj h) hfound
  simp only [observe, bind, hread]
  cases found <;> rfl

end Tracefold.Adapter
