import Mathlib.Data.List.Forall2
import SearchQuery.Proofs.Settings.Search

/-! What several settings files come to. All have to be in order, and the first that is not decides the
error. Then each setting is looked up by itself: the first file that defines it decides it, whatever the
file says otherwise. -/

namespace SearchQuery.Settings

/-- A file that can be read, is a settings file and has no setting out of range, and what it says. -/
structure InOrder (tree : FileTree) (path : Path) (file : SettingsFile) : Prop where
  reads : ∃ text, tree.readText path = .ok text ∧ SettingsFile.read text = some file
  inRange : file.shingle.bind (·.maxOrder) ≠ some 0

/-- What is wrong with any other file. -/
inductive Fault (tree : FileTree) (path : Path) : LoadError → Prop
  | unread {cause : FileError} (h : tree.readText path = .error cause) : Fault tree path (.read path cause)
  | malformed {text : String} (h : tree.readText path = .ok text) (hread : SettingsFile.read text = none) :
      Fault tree path (.malformed path)
  | outOfRange {text : String} {file : SettingsFile} (h : tree.readText path = .ok text)
      (hread : SettingsFile.read text = some file)
      (hzero : file.shingle.bind (·.maxOrder) = some 0) :
      Fault tree path (.invalid path "shingle.max_order" "must be at least 1")

/-- What the first file to define a key says of it. -/
def firstDefined {α : Type} (key : SettingsFile → Option α) (files : List SettingsFile)
    (otherwise : α) : α :=
  (files.findSome? key).getD otherwise

variable {tree : FileTree} {path : Path} {paths before after : List Path} {file : SettingsFile}
  {files : List SettingsFile} {c : Config Path} {e : LoadError}

theorem readFile_of_inOrder (h : InOrder tree path file) : readFile tree path = .ok file := by
  obtain ⟨⟨text, htext, hread⟩, hrange⟩ := h
  simp only [readFile, htext, hread, check, if_neg hrange]

theorem readFile_of_fault (h : Fault tree path e) : readFile tree path = .error e := by
  cases h with
  | unread htext => simp only [readFile, htext]
  | malformed htext hread => simp only [readFile, htext, hread]
  | outOfRange htext hread hzero => simp only [readFile, htext, hread, check, if_pos hzero]

theorem InOrder.not_fault (h : InOrder tree path file) : ¬ Fault tree path e := by
  intro he
  have hok := readFile_of_inOrder h
  rw [readFile_of_fault he] at hok
  cases hok

theorem inOrder_or_fault (tree : FileTree) (path : Path) :
    (∃ file, InOrder tree path file) ∨ ∃ e, Fault tree path e := by
  cases htext : tree.readText path with
  | error cause => exact .inr ⟨_, .unread htext⟩
  | ok text =>
    cases hread : SettingsFile.read text with
    | none => exact .inr ⟨_, .malformed htext hread⟩
    | some file =>
      by_cases hzero : file.shingle.bind (·.maxOrder) = some 0
      · exact .inr ⟨_, .outOfRange htext hread hzero⟩
      · exact .inl ⟨file, ⟨text, htext, hread⟩, hzero⟩

theorem loadFiles_of_inOrder (h : List.Forall₂ (InOrder tree) paths files) :
    loadFiles tree paths = .ok ⟨merge files, paths⟩ := by
  induction h with
  | nil => rfl
  | cons hfile _ ih =>
    rw [loadFiles_cons_ok (readFile_of_inOrder hfile), ih]
    rfl

theorem loadFiles_of_fault (hbefore : ∀ q ∈ before, ∃ file, InOrder tree q file)
    (h : Fault tree path e) : loadFiles tree (before ++ path :: after) = .error e := by
  induction before with
  | nil => exact loadFiles_cons_error (readFile_of_fault h)
  | cons q before ih =>
    obtain ⟨⟨file, hfile⟩, hrest⟩ := List.forall_mem_cons.1 hbefore
    rw [List.cons_append, loadFiles_cons_ok (readFile_of_inOrder hfile), ih hrest]
    rfl

/-- Either all files are in order or one of them is the first that is not. -/
theorem all_inOrder_or_fault (tree : FileTree) (paths : List Path) :
    (∃ files, List.Forall₂ (InOrder tree) paths files) ∨
      ∃ before path after e, paths = before ++ path :: after ∧
        (∀ q ∈ before, ∃ file, InOrder tree q file) ∧ Fault tree path e := by
  induction paths with
  | nil => exact .inl ⟨[], .nil⟩
  | cons path paths ih =>
    rcases inOrder_or_fault tree path with ⟨file, hfile⟩ | ⟨e, he⟩
    · rcases ih with ⟨files, hfiles⟩ | ⟨before, bad, after, e, rfl, hbefore, he⟩
      · exact .inl ⟨file :: files, .cons hfile hfiles⟩
      · have hbefore' := List.forall_mem_cons.2 ⟨⟨file, hfile⟩, hbefore⟩
        exact .inr ⟨path :: before, bad, after, e, rfl, hbefore', he⟩
    · exact .inr ⟨[], path, paths, e, rfl, List.forall_mem_nil _, he⟩

/-- Then the settings are those of all files together, or the error is that of this one. -/
theorem loadFiles_cases (tree : FileTree) (paths : List Path) :
    (∃ files, List.Forall₂ (InOrder tree) paths files ∧
      loadFiles tree paths = .ok ⟨merge files, paths⟩) ∨
      ∃ before path after e, paths = before ++ path :: after ∧
        (∀ q ∈ before, ∃ file, InOrder tree q file) ∧ Fault tree path e ∧
        loadFiles tree paths = .error e := by
  rcases all_inOrder_or_fault tree paths with
    ⟨files, hfiles⟩ | ⟨before, path, after, e, rfl, hbefore, he⟩
  · exact .inl ⟨files, hfiles, loadFiles_of_inOrder hfiles⟩
  · exact .inr ⟨before, path, after, e, rfl, hbefore, he, loadFiles_of_fault hbefore he⟩

theorem exists_inOrder (h : List.Forall₂ (InOrder tree) paths files) :
    ∀ path ∈ paths, ∃ file, InOrder tree path file := by
  induction h with
  | nil => exact fun _ h => nomatch h
  | cons hfile _ ih => exact List.forall_mem_cons.2 ⟨⟨_, hfile⟩, ih⟩

theorem exists_loadFiles_iff :
    (∃ c, loadFiles tree paths = .ok c) ↔ ∀ path ∈ paths, ∃ file, InOrder tree path file := by
  rcases loadFiles_cases tree paths with
    ⟨files, hfiles, hload⟩ | ⟨before, path, after, e, rfl, -, he, hload⟩
  · exact ⟨fun _ => exists_inOrder hfiles, fun _ => ⟨_, hload⟩⟩
  · constructor
    · rintro ⟨c, hc⟩
      rw [hload] at hc
      cases hc
    · intro h
      obtain ⟨file, hfile⟩ := h path (by simp)
      exact absurd he hfile.not_fault

theorem loadFiles_eq_error_iff : loadFiles tree paths = .error e ↔
    ∃ before path after, paths = before ++ path :: after ∧
      (∀ q ∈ before, ∃ file, InOrder tree q file) ∧ Fault tree path e := by
  constructor
  · intro h
    rcases loadFiles_cases tree paths with
      ⟨files, -, hload⟩ | ⟨before, path, after, e', hpaths, hbefore, he, hload⟩
    · rw [hload] at h
      cases h
    · rw [hload] at h
      cases h
      exact ⟨before, path, after, hpaths, hbefore, he⟩
  · rintro ⟨before, path, after, rfl, hbefore, he⟩
    exact loadFiles_of_fault hbefore he

theorem loadFiles_eq_ok_iff : loadFiles tree paths = .ok c ↔
    ∃ files, List.Forall₂ (InOrder tree) paths files ∧ c = ⟨merge files, paths⟩ := by
  constructor
  · intro h
    rcases loadFiles_cases tree paths with ⟨files, hfiles, hload⟩ | ⟨_, _, _, _, -, -, -, hload⟩
    · rw [hload] at h
      cases h
      exact ⟨files, hfiles, rfl⟩
    · rw [hload] at h
      cases h
  · rintro ⟨files, hfiles, rfl⟩
    exact loadFiles_of_inOrder hfiles

/-- A setting that a file overlays by one key alone is the one of the first file with the key. -/
theorem merge_key {α : Type} (key : SettingsFile → Option α) (get : Settings → α)
    (h : ∀ file s, get (overlay file s) = (key file).getD (get s)) (files : List SettingsFile) :
    get (merge files) = firstDefined key files (get default) := by
  induction files with
  | nil => rfl
  | cons file files ih =>
    have hmerge : merge (file :: files) = overlay file (merge files) := rfl
    rw [hmerge, h, ih, firstDefined, firstDefined, List.findSome?_cons]
    cases key file <;> rfl

/-- Each setting of several files is the one of the first file that defines it. -/
theorem merge_eq (files : List SettingsFile) : merge files =
    ⟨⟨firstDefined (fun file => file.shingle.bind (·.maxOrder)) files default.shingle.maxOrder,
      firstDefined (fun file => file.shingle.bind (·.separator)) files default.shingle.separator⟩,
      firstDefined (fun file => file.output.bind (·.format)) files default.format⟩ := by
  rw [← merge_key _ (·.shingle.maxOrder) (fun _ _ => rfl), ← merge_key _ (·.shingle.separator) (fun _ _ => rfl),
    ← merge_key _ (·.format) (fun _ _ => rfl)]

/-- Files are loaded if all of them are in order, also those that define nothing that counts; else the first
that is not decides the error. Then each setting is decided by the first file that defines it, and is the
default if none does. -/
theorem loadFiles_exact (tree : FileTree) (paths : List Path) :
    ((∃ c, loadFiles tree paths = .ok c) ↔ ∀ path ∈ paths, ∃ file, InOrder tree path file) ∧
      (∀ e, loadFiles tree paths = .error e ↔ ∃ before path after, paths = before ++ path :: after ∧
        (∀ q ∈ before, ∃ file, InOrder tree q file) ∧ Fault tree path e) ∧
      ∀ c, loadFiles tree paths = .ok c ↔ ∃ files, List.Forall₂ (InOrder tree) paths files ∧
        c.settings.shingle.maxOrder = firstDefined (fun file => file.shingle.bind (·.maxOrder)) files 1 ∧
        c.settings.shingle.separator = firstDefined (fun file => file.shingle.bind (·.separator)) files " " ∧
        c.settings.format = firstDefined (fun file => file.output.bind (·.format)) files .tree ∧
        c.sources = paths := by
  refine ⟨exists_loadFiles_iff, fun e => loadFiles_eq_error_iff, fun c => ?_⟩
  obtain ⟨⟨⟨maxOrder, separator⟩, format⟩, sources⟩ := c
  rw [loadFiles_eq_ok_iff]
  constructor
  · rintro ⟨files, hfiles, hc⟩
    rw [merge_eq] at hc
    cases hc
    exact ⟨files, hfiles, rfl, rfl, rfl, rfl⟩
  · rintro ⟨files, hfiles, rfl, rfl, rfl, rfl⟩
    exact ⟨files, hfiles, by rw [merge_eq]; rfl⟩

end SearchQuery.Settings
